import ScriptCompiler.Proofs.Frame.Code
import ScriptCompiler.Proofs.Statement.Scopes

/-!
# Names through the life of open statements

Opening and closing a statement look at its kind to set and to take back links,
and the kind may change in between. Whatever statements are opened, closed and
turned from an if into an else or from a finally clause into a subroutine, the
links stay right, so name lookup answers what a scan of all open statements
answers.
-/

namespace ScriptCompiler

open Emit

variable {g g' : Generator}

/-- The changes of kind that the statements of a tree go through while they are open. -/
inductive StatementKind.Turns : StatementKind → StatementKind → Prop where
  | otherwise : Turns .ifBranch .elseBranch
  | finalize : Turns .finallyClause .subroutine

/-- What is remembered of an open statement: its kind and the names it binds. -/
abbrev ScopeRecord := StatementKind × Option BlockScope

/-- One operation on the open statements, and what it does to the records of them, outermost
first. -/
inductive ScopeStep (opens : List ScopeRecord) (g g' : Generator) : List ScopeRecord → Prop where
  /-- A statement is opened. -/
  | push {kind : StatementKind} {top index : Nat} (h : Emit.pushStatement kind top g = .ok index g') :
      ScopeStep opens g g' (opens ++ [(kind, none)])
  /-- A statement that binds names is opened, above the values that are on the stack. -/
  | bind {kind : StatementKind} {top index : Nat} {names : List String}
      (h : Emit.pushBlockScope kind top names g = .ok index g') :
      ScopeStep opens g g' (opens ++ [(kind, some ⟨g.depth.depth.toNat, names⟩)])
  /-- The innermost statement is closed. -/
  | pop (h : Emit.popStatement g = .ok () g') : ScopeStep opens g g' opens.dropLast
  /-- The innermost statement cannot be closed. -/
  | refuse {e : Error} (h : Emit.popStatement g = .error e g') : ScopeStep opens g g' opens
  /-- A statement changes its kind. -/
  | turn {index : Nat} {e : OpenStatement} {kind : StatementKind}
      (hget : g.statements.entries[index]? = some e) (hturn : e.kind.Turns kind)
      (h : Emit.setKind index kind g = .ok () g') :
      ScopeStep opens g g' (opens.modify index fun o => (kind, o.2))
  /-- Anything that opens and closes no statements and leaves their kinds, names and links alone, as
  the emission of code, labels and pending jumps do. -/
  | aside (hinner : g'.statements.innerScope = g.statements.innerScope)
      (hentries : g'.statements.entries.map (fun e => (e.kind, e.scope, e.outer)) =
        g.statements.entries.map fun e => (e.kind, e.scope, e.outer)) : ScopeStep opens g g' opens

/-- Generators with a history of operations that starts without open statements and leaves the
recorded ones open. -/
inductive Scoped : List ScopeRecord → Generator → Prop where
  | start {g : Generator} (h : g.statements = .empty) : Scoped [] g
  | step {opens opens' : List ScopeRecord} {g g' : Generator} (hg : Scoped opens g)
      (hstep : ScopeStep opens g g' opens') : Scoped opens' g'

/-- What closing a statement does before it takes the statement off the stack. -/
def OpenStatement.settle (top : OpenStatement) : Emit Unit :=
  if !top.kind.isTrying then do
    let here ← Emit.offset
    Emit.resolveChain top.breaks here .goto
    Emit.resolveChain top.continues top.update .goto
  else pure ()

theorem OpenStatement.settle_kept (top : OpenStatement) : Emit.WritesCode top.settle := by
  rw [settle]
  infer_instance

theorem popStatement_eq {top : OpenStatement} (h : g.statements.top? = some top) :
    popStatement g =
      (top.settle >>= fun _ => modify fun g => { g with statements := g.statements.pop }) g := by
  simp only [popStatement, get_bind, h, OpenStatement.settle]
  split <;> simp only [bind_assoc, pure_bind]

/-- Closing a statement takes it off the stack, or fails and leaves the stack alone. -/
theorem popStatement_statements :
    (popStatement g = .ok () g' → g'.statements = g.statements.pop) ∧
      ∀ e, popStatement g = .error e g' → g'.statements = g.statements := by
  cases htop : g.statements.top? with
  | none =>
    simp only [popStatement, get_bind, htop]
    exact ⟨fun h => (by cases h), fun e h => (by cases h; rfl)⟩
  | some top =>
    rw [popStatement_eq htop]
    constructor
    · intro h
      obtain ⟨_, g₁, h₁, h₂⟩ := bind_ok.mp h
      cases h₂
      rw [(top.settle_kept.ok g _ g₁ h₁).rest]
    · intro e h
      rcases bind_error.mp h with h | ⟨_, g₁, h₁, h₂⟩
      · rw [(top.settle_kept.error g e g' h).1.rest]
      · cases h₂

variable {opens opens' : List ScopeRecord}

theorem ScopeStep.linked (hstep : ScopeStep opens g g' opens') (h : g.statements.Linked) :
    g'.statements.Linked := by
  cases hstep with
  | push hok =>
    cases hok
    exact h.push _ _ _
  | bind hok =>
    cases hok
    exact h.push _ _ _
  | pop hok =>
    rw [popStatement_statements.1 hok]
    exact h.pop
  | refuse hfail =>
    rw [popStatement_statements.2 _ hfail]
    exact h
  | @turn index e kind hget hturn hok =>
    simp only [setKind, modifyStatement, get_bind, guard_outOfBounds_ok,
      modify_ok] at hok
    obtain ⟨-, rfl⟩ := hok
    refine h.modify fun e' he' => ?_
    cases hget.symm.trans he'
    -- neither the old kind nor the new one takes part in name lookup by itself
    generalize hkind : e.kind = old at hturn
    cases hturn <;> simp [OpenStatement.linkage, OpenStatement.linksScope, hkind]
  | aside hinner hentries =>
    refine h.of_linkage hinner ?_
    have hview := congrArg (Array.map fun v : StatementKind × Option BlockScope × Option Nat =>
      ((v.1 = .withObject || v.1 = .catchBlock || v.2.1.isSome : Bool), v.2.2)) hentries
    rw [Array.map_map, Array.map_map] at hview
    exact hview

/-- What is remembered of a statement. -/
def OpenStatement.record (e : OpenStatement) : ScopeRecord := (e.kind, e.scope)

/-- The open statements are the recorded ones. -/
theorem ScopeStep.records (hstep : ScopeStep opens g g' opens')
    (h : g.statements.entries.toList.map OpenStatement.record = opens) :
    g'.statements.entries.toList.map OpenStatement.record = opens' := by
  have hpush : ∀ kind top scope, (g.statements.push kind top scope).entries.toList.map
      OpenStatement.record = opens ++ [(kind, scope)] := by
    intro kind top scope
    obtain ⟨e, he, hentries, -⟩ := g.statements.push_entries kind top scope
    rw [hentries, Array.toList_push, List.map_append, h, he]
    rfl
  cases hstep with
  | push hok =>
    cases hok
    exact hpush _ _ _
  | bind hok =>
    cases hok
    exact hpush _ _ _
  | pop hok =>
    rw [popStatement_statements.1 hok, ← h, StatementStack.pop]
    split
    · rename_i hnone
      rw [Array.back?_eq_none_iff.mp hnone]
      rfl
    · rw [Array.toList_pop, List.map_dropLast]
  | refuse hfail =>
    rw [popStatement_statements.2 _ hfail]
    exact h
  | turn hget hturn hok =>
    simp only [setKind, modifyStatement, get_bind, guard_outOfBounds_ok, modify_ok] at hok
    obtain ⟨-, rfl⟩ := hok
    rw [← h]
    refine List.ext_getElem? fun i => ?_
    simp only [StatementStack.modify, Array.toList_modify, List.getElem?_map, List.getElem?_modify]
    split <;> simp [Function.comp_def, OpenStatement.record]
  | aside _ hentries =>
    have hview := congrArg (fun a => a.toList.map fun v : StatementKind × Option BlockScope × Option Nat =>
      ((v.1, v.2.1) : ScopeRecord)) hentries
    simp only [Array.toList_map, List.map_map] at hview
    exact hview.trans h

theorem Scoped.records (h : Scoped opens g) : g.statements.Linked ∧
    g.statements.entries.toList.map OpenStatement.record = opens := by
  induction h with
  | start h => rw [h]; exact ⟨.empty, rfl⟩
  | step _ hstep ih => exact ⟨hstep.linked ih.1, hstep.records ih.2⟩

/-- Whatever statements have been opened, closed and turned, the open ones are those that have been
opened and not closed since, and the lookup of a name answers the slot that a scan of all of them
finds, innermost first. -/
theorem Scoped.lookup_eq_scan {opens : List ScopeRecord} {g : Generator} (h : Scoped opens g)
    (name : String) :
    Emit.lookup name g = .ok (StatementStack.scan name g.statements.entries.toList.reverse) g ∧
      g.statements.entries.toList.map OpenStatement.record = opens := by
  obtain ⟨hlinked, hrecords⟩ := h.records
  refine ⟨?_, hrecords⟩
  rw [Emit.lookup, Emit.get_bind, hlinked.lookup name]
  rfl

/-- A block, a finally clause that has become a subroutine, a with statement that has been closed,
and a catch clause. -/
theorem Scoped.lookup_eq_scan_turnedFinally :
    ∃ g, Scoped [(.block, some ⟨0, ["a", "b"]⟩), (.subroutine, none), (.catchBlock, some ⟨0, ["b"]⟩)] g ∧
      g.statements.size = 3 ∧ Emit.lookup "a" g = .ok (some 0) g ∧
      Emit.lookup "b" g = .ok (some 0) g ∧ Emit.lookup "x" g = .ok none g := by
  have hblock : Emit.pushBlockScope .block 0 ["a", "b"] (.new "names.js" 1 ⟨none, 10⟩) = .ok 0 _ := rfl
  have h₁ : Scoped _ _ := .step (.start rfl) (.bind hblock)
  have h₂ : Scoped _ _ := h₁.step (.push (rfl : Emit.pushStatement .finallyClause 0 _ = .ok 1 _))
  have h₃ : Scoped _ _ := h₂.step (.turn rfl .finalize (rfl : Emit.setKind 1 _ _ = .ok () _))
  have h₄ : Scoped _ _ := h₃.step (.push (rfl : Emit.pushStatement .withObject 0 _ = .ok 2 _))
  have h₅ : Scoped _ _ := h₄.step (.pop rfl)
  have h₆ : Scoped _ _ := h₅.step (.bind (rfl : Emit.pushBlockScope .catchBlock 0 ["b"] _ = .ok 2 _))
  exact ⟨_, h₆, rfl, (h₆.lookup_eq_scan "a").1, (h₆.lookup_eq_scan "b").1, (h₆.lookup_eq_scan "x").1⟩

end ScriptCompiler
