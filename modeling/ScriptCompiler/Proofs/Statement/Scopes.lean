import ScriptCompiler.Statement.Stack
import Mathlib.Data.List.Basic

/-!
# Links between open statements

Name lookup follows links between the statements that bind or hide names. The
links are set when a statement is opened and taken back when it is closed. As
long as they lead from each such statement to the next one outward, lookup
answers what a scan of all open statements answers, innermost first.
-/

namespace ScriptCompiler

/-- The slot that a statement gives to a name. -/
def OpenStatement.slot? (statement : OpenStatement) (name : String) : Option Nat :=
  statement.scope.bind fun scope => (scope.names.idxOf? name).map (scope.depth + ·)

/-- What name lookup sees of a statement besides the names it binds. -/
def OpenStatement.linkage (statement : OpenStatement) : Bool × Option Nat :=
  (statement.linksScope, statement.outer)

namespace StatementStack

/-- The slot of a name in the first of some statements that binds it, innermost first. A with
statement ends the scan. -/
def scan (name : String) : List OpenStatement → Option Nat
  | [] => none
  | statement :: around =>
    if statement.kind = .withObject then none
    else (statement.slot? name).or (scan name around)

/-- Position of the innermost of the first `count` statements that takes part in name lookup. -/
def scopeBelow? (s : StatementStack) (count : Nat) : Option Nat :=
  s.findBelow? OpenStatement.linksScope count

/-- The links lead from each statement that takes part in name lookup to the next one outward. -/
structure Linked (s : StatementStack) : Prop where
  inner : s.innerScope = s.scopeBelow? s.entries.size
  outer : ∀ (i : Nat) (e : OpenStatement), s.entries[i]? = some e → e.linksScope = true →
    e.outer = s.scopeBelow? i

variable {s s' : StatementStack} {n : Nat} {e : OpenStatement}

theorem scopeBelow?_succ (hn : s.entries[n]? = some e) :
    s.scopeBelow? (n + 1) = if e.linksScope then some n else s.scopeBelow? n := by
  rw [scopeBelow?, findBelow?, hn]
  rfl

/-- Only the statements below count. -/
theorem scopeBelow?_congr
    (h : ∀ i < n, s'.entries[i]?.map OpenStatement.linksScope =
      s.entries[i]?.map OpenStatement.linksScope) : s'.scopeBelow? n = s.scopeBelow? n := by
  induction n with
  | zero => rfl
  | succ n ih =>
    have hrest := ih fun i hi => h i (Nat.lt_succ_of_lt hi)
    have hn := h n (Nat.lt_succ_self n)
    simp only [scopeBelow?, findBelow?] at hrest ⊢
    cases he : s.entries[n]? with
    | none =>
      rw [he, Option.map_none, Option.map_eq_none_iff] at hn
      rw [hn, hrest]
    | some e =>
      rw [he, Option.map_some, Option.map_eq_some_iff] at hn
      obtain ⟨e', he', hlinks⟩ := hn
      rw [he', hrest]
      simp only [hlinks]

/-! ## Links are kept -/

theorem Linked.empty : empty.Linked := ⟨rfl, fun i e he => by simp [StatementStack.empty] at he⟩

/-- Statements that look the same to name lookup are linked the same way. -/
theorem Linked.of_linkage (h : s.Linked) (hinner : s'.innerScope = s.innerScope)
    (hentries : s'.entries.map OpenStatement.linkage = s.entries.map OpenStatement.linkage) :
    s'.Linked := by
  have hget : ∀ i : Nat, s'.entries[i]?.map OpenStatement.linkage =
      s.entries[i]?.map OpenStatement.linkage := fun i => by
    rw [← Array.getElem?_map, hentries, Array.getElem?_map]
  have hbelow : ∀ n, s'.scopeBelow? n = s.scopeBelow? n := fun n =>
    scopeBelow?_congr fun i _ => by
      simpa [Option.map_map, Function.comp_def, OpenStatement.linkage] using
        congrArg (Option.map Prod.fst) (hget i)
  have hsize : s'.entries.size = s.entries.size := by simpa using congrArg Array.size hentries
  refine ⟨by rw [hinner, h.inner, hsize, hbelow], fun i e' he' hlinks => ?_⟩
  have hi := hget i
  rw [he', Option.map_some, eq_comm, Option.map_eq_some_iff] at hi
  obtain ⟨e, he, heq⟩ := hi
  obtain ⟨hl, ho⟩ := Prod.mk.inj heq
  rw [← ho, hbelow]
  exact h.outer i e he (hl.trans hlinks)

/-- A statement may be changed in what name lookup does not see. -/
theorem Linked.modify (h : s.Linked) {index : Nat} {f : OpenStatement → OpenStatement}
    (hf : ∀ e, s.entries[index]? = some e → (f e).linkage = e.linkage) :
    (s.modify index f).Linked := by
  refine h.of_linkage rfl (Array.ext_getElem? fun i => ?_)
  rw [Array.getElem?_map, Array.getElem?_map, StatementStack.modify, Array.getElem?_modify]
  split
  · rename_i hi
    subst hi
    cases he : s.entries[index]? with
    | none => rfl
    | some e => simp [hf e he]
  · rfl

theorem push_entries (s : StatementStack) (kind : StatementKind) (top : Nat)
    (scope : Option BlockScope) : ∃ e : OpenStatement,
      e = ⟨kind, top, top, none, none, none, none, scope, e.outer⟩ ∧
      (s.push kind top scope).entries = s.entries.push e ∧
      (s.push kind top scope).innerScope =
        (if e.linksScope then some s.entries.size else s.innerScope) ∧
      (e.linksScope → e.outer = s.innerScope) := by
  simp only [StatementStack.push]
  split
  · rename_i hlinks
    exact ⟨_, rfl, rfl, (if_pos hlinks).symm, fun _ => rfl⟩
  · rename_i hlinks
    exact ⟨_, rfl, rfl, (if_neg hlinks).symm, fun h => absurd h hlinks⟩

theorem Linked.push (h : s.Linked) (kind : StatementKind) (top : Nat) (scope : Option BlockScope) :
    (s.push kind top scope).Linked := by
  -- the new statement is linked to what was innermost if it takes part in name lookup at all
  obtain ⟨e, -, hentries, hinner, houter⟩ := s.push_entries kind top scope
  have hbelow : ∀ n ≤ s.entries.size, (s.push kind top scope).scopeBelow? n = s.scopeBelow? n :=
    fun n hn => scopeBelow?_congr fun i hi => by rw [hentries, Array.getElem?_push_lt (by omega),
      Array.getElem?_eq_getElem (by omega)]
  constructor
  · rw [hinner, hentries, Array.size_push, scopeBelow?_succ (by rw [hentries, Array.getElem?_push_size]),
      h.inner, hbelow _ (Nat.le_refl _)]
  · intro i e' he' hlinks
    rw [hentries, Array.getElem?_push] at he'
    split at he'
    · rename_i hi
      cases he'
      rw [houter hlinks, hi, hbelow _ (Nat.le_refl _), h.inner]
    · have hi := (Array.getElem?_eq_some_iff.mp he').1
      rw [hbelow i (Nat.le_of_lt hi), h.outer i e' he' hlinks]

theorem Linked.pop (h : s.Linked) : s.pop.Linked := by
  rw [StatementStack.pop]
  split
  · exact h
  · rename_i top htop
    rw [Array.back?_eq_getElem?] at htop
    have hlt := (Array.getElem?_eq_some_iff.mp htop).1
    have hsize : s.entries.size - 1 + 1 = s.entries.size := by omega
    have hget : ∀ i < s.entries.size - 1, s.entries.pop[i]? = s.entries[i]? := fun i hi => by
      rw [Array.getElem?_pop, if_pos hi]
    have hbelow : ∀ (inner : Option Nat), ∀ n ≤ s.entries.size - 1,
        scopeBelow? ⟨s.entries.pop, inner⟩ n = s.scopeBelow? n := fun inner n hn =>
      scopeBelow?_congr fun i hi => by rw [hget i (Nat.lt_of_lt_of_le hi hn)]
    constructor
    · rw [Array.size_pop, hbelow _ _ (Nat.le_refl _)]
      have hinner := h.inner
      rw [← hsize, scopeBelow?_succ htop] at hinner
      split
      · rename_i hlinks
        exact h.outer _ top htop hlinks
      · rename_i hlinks
        rw [hinner, if_neg hlinks]
    · intro i e he hlinks
      have hi : i < s.entries.size - 1 := by
        simpa using (Array.getElem?_eq_some_iff.mp he).1
      rw [hget i hi] at he
      rw [hbelow _ i (Nat.le_of_lt hi), h.outer i e he hlinks]

/-! ## Lookup -/

/-- From a link on, lookup answers what a scan of the statements below it answers. -/
theorem Linked.lookupFrom (h : s.Linked) (name : String) {fuel : Nat} (hfuel : n < fuel)
    (hn : n ≤ s.entries.size) : s.lookupFrom name fuel (s.scopeBelow? n) =
      .ok (scan name (s.entries.toList.take n).reverse) := by
  induction n generalizing fuel with
  | zero => cases fuel <;> rfl
  | succ n ih =>
    have he := Array.getElem?_eq_getElem hn
    have htake : (s.entries.toList.take (n + 1)).reverse =
        s.entries[n] :: (s.entries.toList.take n).reverse := by
      rw [List.take_succ_eq_append_getElem (by simpa using Nat.lt_of_succ_le hn), List.reverse_append]
      rfl
    rw [scopeBelow?_succ he, htake, scan]
    split
    · rename_i hlinks
      obtain ⟨fuel, rfl⟩ := Nat.exists_eq_add_one_of_ne_zero (Nat.ne_of_gt (Nat.zero_lt_of_lt hfuel))
      have hrest := ih (Nat.lt_of_succ_lt_succ hfuel) (Nat.le_of_lt hn)
      rw [← h.outer n _ he hlinks] at hrest
      simp only [StatementStack.lookupFrom, he, OpenStatement.slot?]
      cases s.entries[n].scope with
      | none => rw [hrest]; split <;> rfl
      | some scope =>
        cases hname : scope.names.idxOf? name with
        | none => simp only [Option.bind_some, hname, hrest]; split <;> rfl
        | some position => simp only [Option.bind_some, hname]; split <;> rfl
    · -- a statement without links neither hides nor binds names
      rename_i hlinks
      simp only [OpenStatement.linksScope, Bool.or_eq_true, decide_eq_true_eq, not_or,
        Option.not_isSome_iff_eq_none] at hlinks
      rw [if_neg hlinks.1.1, OpenStatement.slot?, hlinks.2]
      exact ih (Nat.lt_of_succ_lt hfuel) (Nat.le_of_lt hn)

theorem Linked.lookup (h : s.Linked) (name : String) :
    s.lookup name = .ok (scan name s.entries.toList.reverse) := by
  rw [StatementStack.lookup, h.inner, h.lookupFrom name (Nat.lt_succ_self _) (Nat.le_refl _),
    ← Array.length_toList, List.take_length]

end StatementStack

end ScriptCompiler
