import ScriptCompiler.Generator.Statements
import ScriptCompiler.Proofs.Draft.Chains
import Mathlib.Data.List.Nodup

/-!
# Open statements

Opening, changing and closing statements, and joining their chains, as steps from
draft to draft. Closing a statement fills its holes: breaks lead to the end of the
code, continues to the update part.
-/

namespace ScriptCompiler

open Bytes Emit

variable {s : StatementStack} {kind : StatementKind} {i top serial t : Nat} {chain : Chain}
  {hole : Hole} {f : OpenStatement → OpenStatement} {e : OpenStatement}

variable {g g' : Generator} {a : Draft} {outer : List Opened} {o o' : Opened}

/-! ## Opening -/

/-- One more open statement. -/
def Draft.open (a : Draft) (kind : StatementKind) (scope : Option BlockScope) : Draft :=
  { a with
    opens := a.opens ++ [⟨kind, none, scope, a.serial, a.main.length⟩]
    serial := a.serial + 1 }

/-- A new statement has no jumps yet. -/
theorem Draft.Sound.chain_open (h : a.Sound) (chain : Chain) :
    a.filled (.chain a.serial chain) = none :=
  h.fresh _ (Nat.lt_irrefl _)

theorem Draft.Sound.head_open (h : a.Sound) (chain : Chain) : a.head (.chain a.serial chain) = none := by
  rw [head, if_neg (by simp [h.chain_open]), linkBefore_eq_none, Option.map_none]
  intro k hk hlinks
  obtain ⟨c, hc, hdests⟩ := links_iff.mp hlinks
  exact Nat.lt_irrefl _ (h.used k c hc (.chain a.serial chain) (by simp [hdests]))

theorem Draft.Sound.open (h : a.Sound) (kind : StatementKind) (scope : Option BlockScope) :
    (a.open kind scope).Sound := by
  refine { h with used := ?_, fresh := ?_, serials := ?_, distinct := ?_, updates := ?_,
                  pending := ?_, unfilled := ?_ }
  · exact fun k c hk hole hmem => (h.used k c hk hole hmem).mono (Nat.le_refl _) (Nat.le_succ _)
  · exact fun hole hfresh => h.fresh hole fun hold =>
      hfresh (hold.mono (Nat.le_refl _) (Nat.le_succ _))
  · intro o ho
    rcases List.mem_append.mp ho with hmem | hmem
    · exact Nat.lt_succ_of_lt (h.serials o hmem)
    · rw [List.mem_singleton.mp hmem]
      exact Nat.lt_succ_self _
  · simp only [Draft.open, List.map_append, List.map_cons, List.map_nil]
    refine List.nodup_append.mpr ⟨h.distinct, List.pairwise_singleton _ _, fun s hs s' hs' => ?_⟩
    obtain ⟨o, ho, rfl⟩ := List.mem_map.mp hs
    rw [List.mem_singleton.mp hs']
    exact Nat.ne_of_lt (h.serials o ho)
  · intro o ho
    rcases List.mem_append.mp ho with hmem | hmem
    · exact h.updates o hmem
    · rw [List.mem_singleton.mp hmem]
      exact Nat.le_refl _
  · intro k c hk serial chain hmem hnone
    obtain ⟨o, ho, hserial⟩ := h.pending k c hk serial chain hmem hnone
    exact ⟨o, List.mem_append_left _ ho, hserial⟩
  · intro o ho chain htakes
    rcases List.mem_append.mp ho with hmem | hmem
    · exact h.unfilled o hmem chain htakes
    · rw [List.mem_singleton.mp hmem]
      exact h.chain_open chain

theorem Stacked.push (h : Stacked s a) (hsound : a.Sound) {scope : Option BlockScope}
    (htop : kind.isLoop → top = position a.main a.main.length) :
    Stacked (s.push kind top scope) (a.open kind scope) := by
  obtain ⟨e, he, hentries, -, -⟩ := s.push_entries kind top scope
  refine ⟨by simp [hentries, Draft.open, h.size], fun i e' o he' ho => ?_, h.linked.push kind top scope⟩
  rw [hentries, Array.getElem?_push, h.size] at he'
  split at he'
  · rename_i hi
    rw [Draft.open, hi, List.getElem?_concat_length] at ho
    cases he'
    cases ho
    rw [he]
    refine ⟨rfl, rfl, rfl, htop, fun chain => ?_⟩
    rw [show Draft.head (a.open kind scope) = a.head from rfl, hsound.head_open chain]
    cases chain <;> rfl
  · have hlt := (Array.getElem?_eq_some_iff.mp he').1
    rw [Draft.open, List.getElem?_append_left (by rwa [← h.size])] at ho
    have hold := h.entries i e' o he' ho
    exact { hold with }

theorem Draft.grown_open (n s : Nat) (kind : StatementKind) (scope : Option BlockScope) :
    Grown n s a (a.open kind scope) :=
  { Grown.refl n s a with serial := Nat.le_succ _ }

/-- Only the statements of a generator change. -/
theorem Drafted.of_statements {b : Draft} {statements : StatementStack} (h : Drafted g a)
    (hsound : b.Sound) (hstacked : Stacked statements b) {opens : List Opened}
    (hb : b = { a with opens, serial }) : Drafted { g with statements } b := by
  obtain ⟨hbuilt, -⟩ := h
  subst hb
  exact ⟨{ hbuilt with sound := hsound }, hstacked⟩

/-- A statement is opened. -/
theorem Drafted.pushStatement (h : Drafted g a) (hok : Emit.pushStatement kind top g = .ok i g')
    (htop : kind.isLoop → top = position a.main a.main.length) :
    i = a.opens.length ∧ Drafted g' (a.open kind none) := by
  simp only [Emit.pushStatement, get_bind, modify_bind, pure_ok] at hok
  obtain ⟨rfl, rfl⟩ := hok
  exact ⟨h.stacked.size, h.of_statements (h.built.sound.open kind none)
    (h.stacked.push h.built.sound htop) rfl⟩

/-- A statement with names is opened. -/
theorem Drafted.pushBlockScope (h : Drafted g a) {names : List String}
    (hok : Emit.pushBlockScope kind top names g = .ok i g') (htop : kind.isLoop = false) :
    i = a.opens.length ∧ Drafted g' (a.open kind (some ⟨a.depth.depth.toNat, names⟩)) := by
  simp only [Emit.pushBlockScope, get_bind, modify_bind, pure_ok] at hok
  obtain ⟨rfl, rfl⟩ := hok
  rw [← h.built.depth]
  exact ⟨h.stacked.size, h.of_statements (h.built.sound.open kind _)
    (h.stacked.push h.built.sound fun hloop => by rw [htop] at hloop; cases hloop) rfl⟩

/-! ## Changing the innermost statement -/

/-- The draft with another innermost statement. -/
def Draft.withTop (a : Draft) (outer : List Opened) (o : Opened) : Draft :=
  { a with opens := outer ++ [o] }

/-- The innermost statement is closed or becomes another one, and the jumps out of it that cannot
stay open lead somewhere. -/
theorem Draft.Sound.replaceTop (h : a.Sound) (hopens : a.opens = outer ++ [o])
    {filled : Hole → Option Nat} {top : Option Opened}
    (hfilled : ∀ {hole t}, a.filled hole = some t → filled hole = some t)
    (hother : ∀ {hole}, (∀ chain, hole ≠ .chain o.serial chain) → filled hole = a.filled hole)
    (htargets : ∀ chain t, filled (.chain o.serial chain) = some t → t ≤ a.main.length)
    (hpending : ∀ chain, o.kind.takes chain → filled (.chain o.serial chain) = none →
      ∃ o' ∈ top, o'.kind.takes chain)
    (htop : ∀ o' ∈ top, o'.serial = o.serial ∧ o'.update ≤ a.main.length ∧
      ∀ chain, o'.kind.takes chain → filled (.chain o.serial chain) = none) :
    { a with opens := outer ++ top.toList, filled }.Sound := by
  have hmem : o ∈ a.opens := by rw [hopens]; simp
  have houter : ∀ x ∈ outer, x ∈ a.opens := fun x hx => by rw [hopens]; exact List.mem_append_left _ hx
  have hdistinct := h.distinct
  rw [hopens, List.map_append] at hdistinct
  have hserial : ∀ x ∈ outer, x.serial ≠ o.serial := fun x hx =>
    (List.nodup_append.mp hdistinct).2.2 x.serial (List.mem_map_of_mem hx) o.serial (by simp)
  have hopen : ∀ {hole}, filled hole = none → a.filled hole = none := fun {hole} hnone => by
    cases hold : a.filled hole with
    | none => rfl
    | some t => cases hnone.symm.trans (hfilled hold)
  refine { h with fresh := ?_, targets := ?_, literals := ?_, serials := ?_, distinct := ?_,
                  updates := ?_, pending := ?_, unfilled := ?_, settled := ?_ }
  · intro hole hfresh
    refine (hother fun chain heq => hfresh ?_).trans (h.fresh hole hfresh)
    rw [heq]
    exact h.serials o hmem
  · intro hole t ht hne
    by_cases hchain : ∃ chain, hole = .chain o.serial chain
    · obtain ⟨chain, rfl⟩ := hchain
      exact htargets chain t ht
    · exact h.targets hole t ((hother fun chain heq => hchain ⟨chain, heq⟩).symm.trans ht) hne
  · exact fun k i n hn => h.literals k i n ((hother (by rintro _ ⟨⟩)).symm.trans hn)
  · intro x hx
    rcases List.mem_append.mp hx with hx | hx
    · exact h.serials x (houter x hx)
    · rw [(htop x (Option.mem_toList.mp hx)).1]
      exact h.serials o hmem
  · cases top with
    | none => simpa using (List.nodup_append.mp hdistinct).1
    | some o' => simpa [(htop o' rfl).1] using hdistinct
  · intro x hx
    rcases List.mem_append.mp hx with hx | hx
    · exact h.updates x (houter x hx)
    · exact (htop x (Option.mem_toList.mp hx)).2.1
  · intro k c hk serial chain hole_mem hnone
    obtain ⟨x, hx, rfl, htakes⟩ := h.pending k c hk serial chain hole_mem (hopen hnone)
    rw [hopens] at hx
    rcases List.mem_append.mp hx with hx | hx
    · exact ⟨x, List.mem_append_left _ hx, rfl, htakes⟩
    · obtain rfl := List.mem_singleton.mp hx
      obtain ⟨o', ho', htakes'⟩ := hpending chain htakes hnone
      exact ⟨o', List.mem_append_right _ (Option.mem_toList.mpr ho'), (htop o' ho').1, htakes'⟩
  · intro x hx chain htakes
    rcases List.mem_append.mp hx with hx | hx
    · exact (hother fun chain' heq => hserial x hx (Hole.chain.inj heq).1).trans
        (h.unfilled x (houter x hx) chain htakes)
    · obtain ⟨heq, -, hunfilled⟩ := htop x (Option.mem_toList.mp hx)
      rw [heq]
      exact hunfilled chain htakes
  · intro k c hk hlt hole hole_mem
    obtain ⟨t, hle, ht⟩ := h.settled k c hk hlt hole hole_mem
    exact ⟨t, hle, hfilled ht⟩

theorem Draft.Sound.withTop (h : a.Sound) (hopens : a.opens = outer ++ [o])
    (hserial : o'.serial = o.serial) (hupdate : o'.update ≤ a.main.length)
    (hpending : ∀ chain, o.kind.takes chain → o'.kind.takes chain = true ∨
      (a.filled (.chain o.serial chain)).isSome)
    (hunfilled : ∀ chain, o'.kind.takes chain → a.filled (.chain o.serial chain) = none) :
    (a.withTop outer o').Sound := by
  refine @Draft.Sound.replaceTop a outer o h hopens a.filled (some o') id (fun _ => rfl)
    (fun chain t ht => h.targets _ t ht (by rintro _ _ ⟨⟩)) (fun chain htakes hnone => ?_) ?_
  · refine ⟨o', rfl, (hpending chain htakes).resolve_right ?_⟩
    rw [hnone]
    rintro ⟨⟩
  · rintro _ ⟨⟩
    exact ⟨hserial, hupdate, hunfilled⟩

/-- Entries of a statement stack that differ in the innermost one, and otherwise not in what shows
in a draft. -/
theorem Stacked.withTop {s' : StatementStack} (h : Stacked s a) (hopens : a.opens = outer ++ [o])
    (hlinked : s'.Linked) (hsize : s'.entries.size = s.entries.size)
    (hentry : ∀ (i : Nat) (e' : OpenStatement), s'.entries[i]? = some e' →
      ∃ e, s.entries[i]? = some e ∧
        (i ≠ outer.length → e'.kind = e.kind ∧ e'.label = e.label ∧ e'.scope = e.scope ∧
          (e.kind.isLoop → e'.update = e.update) ∧ ∀ chain, e'.link chain = e.link chain) ∧
        (i = outer.length → Stated a e o → Stated a e' o')) : Stacked s' (a.withTop outer o') := by
  have hstated : ∀ (i : Nat) (e' : OpenStatement) (x : Opened), s'.entries[i]? = some e' →
      (outer ++ [o'])[i]? = some x → Stated a e' x := by
    intro i e' x he hx
    obtain ⟨e, he', hother, htop⟩ := hentry i e' he
    by_cases hi : i = outer.length
    · subst hi
      rw [List.getElem?_append_right (Nat.le_refl _), Nat.sub_self] at hx
      cases hx
      exact htop rfl (h.entries outer.length e o he' (by rw [hopens]; simp))
    · have hlt : i < outer.length := by
        have := lt_of_getElem? hx
        simp only [List.length_append, List.length_singleton] at this
        omega
      rw [List.getElem?_append_left hlt] at hx
      have hstated := h.entries i e x he' (by rw [hopens, List.getElem?_append_left hlt]; exact hx)
      obtain ⟨hkind, hlabel, hscope', hupdate, hlink⟩ := hother hi
      refine ⟨hkind.trans hstated.kind, hlabel.trans hstated.label, hscope'.trans hstated.scope,
        fun hloop => ?_, fun chain => (hlink chain).trans (hstated.link chain)⟩
      rw [hupdate (by rw [hstated.kind]; exact hloop)]
      exact hstated.update hloop
  refine ⟨by simp [Draft.withTop, hsize, h.size, hopens], fun i e' x he hx => ?_, hlinked⟩
  have := hstated i e' x he hx
  exact { this with }

section

variable (h : Drafted g a) (hopens : a.opens = outer ++ [o])

include h hopens

/-- The innermost entry is changed by a function. -/
theorem Drafted.modifyTop (hok : Emit.modifyStatement outer.length f g = .ok () g')
    (hlinkage : ∀ e, Stated a e o → (f e).linkage = e.linkage)
    (hstated : ∀ e, Stated a e o → Stated a (f e) o') (hsound : (a.withTop outer o').Sound) :
    Drafted g' (a.withTop outer o') := by
  simp only [Emit.modifyStatement, get_bind, guard_outOfBounds_ok, modify_ok] at hok
  obtain ⟨-, rfl⟩ := hok
  have htop : a.opens[outer.length]? = some o := by rw [hopens]; simp
  refine h.of_statements hsound (h.stacked.withTop hopens (h.stacked.linked.modify fun e he =>
    hlinkage e (h.stacked.entries _ e o he htop)) ?_ fun i e' he => ?_) rfl
  · simp [StatementStack.modify]
  · simp only [StatementStack.modify, Array.getElem?_modify] at he
    split at he
    · rename_i hi
      subst hi
      obtain ⟨e, hget, rfl⟩ := Option.map_eq_some_iff.mp he
      exact ⟨e, hget, fun hne => absurd rfl hne, fun _ => hstated e⟩
    · rename_i hi
      exact ⟨e', he, fun _ => ⟨rfl, rfl, rfl, fun _ => rfl, fun _ => rfl⟩,
        fun heq => absurd heq.symm hi⟩

/-- Other parts of the innermost statement than its kind change. -/
theorem Drafted.modifyPlain (hok : Emit.modifyStatement outer.length f g = .ok () g')
    (hlinkage : ∀ e, (f e).linkage = e.linkage) (hstated : ∀ e, Stated a e o → Stated a (f e) o')
    (hkind : o'.kind = o.kind) (hserial : o'.serial = o.serial)
    (hupdate : o'.update ≤ a.main.length) : Drafted g' (a.withTop outer o') := by
  have hmem : o ∈ a.opens := by rw [hopens]; simp
  refine h.modifyTop hopens hok (fun e _ => hlinkage e) hstated
    (h.built.sound.withTop hopens hserial hupdate ?_ ?_)
  · exact fun chain htakes => .inl (by rw [hkind]; exact htakes)
  · exact fun chain htakes => h.built.sound.unfilled o hmem chain (by rw [← hkind]; exact htakes)

/-- Continues of the innermost statement are to go to the next cell. -/
theorem Drafted.setTop
    (hok : Emit.setTop outer.length (position a.main a.main.length) g = .ok () g') :
    Drafted g' (a.withTop outer { o with update := a.main.length }) :=
  h.modifyPlain hopens hok (fun _ => rfl)
    (fun _ he => { he with update := fun _ => rfl }) rfl rfl (Nat.le_refl _)

/-- The innermost statement gets a name. -/
theorem Drafted.setLabel {label : String} (hok : Emit.setLabel outer.length label g = .ok () g') :
    Drafted g' (a.withTop outer { o with label := some label }) :=
  h.modifyPlain hopens hok (fun _ => rfl)
    (fun _ he => { he with label := rfl }) rfl rfl
    (h.built.sound.updates o (by rw [hopens]; simp))

/-- The then part of an if statement is over. -/
theorem Drafted.setElse (hkind : o.kind = .ifBranch)
    (hok : Emit.setKind outer.length .elseBranch g = .ok () g') :
    Drafted g' (a.withTop outer { o with kind := .elseBranch }) := by
  have hmem : o ∈ a.opens := by rw [hopens]; simp
  have htakes : ∀ chain, StatementKind.takes .elseBranch chain = o.kind.takes chain := by
    intro chain
    rw [hkind]
    cases chain <;> rfl
  refine h.modifyTop hopens hok (fun e he => ?_) (fun e he => ?_) (h.built.sound.withTop hopens rfl
    (h.built.sound.updates o hmem) ?_ ?_)
  · simp [OpenStatement.linkage, OpenStatement.linksScope, he.kind, hkind]
  · exact ⟨rfl, he.label, he.scope, fun hloop => (by cases hloop), he.link⟩
  · exact fun chain hchain => .inl ((htakes chain).trans hchain)
  · exact fun chain hchain => h.built.sound.unfilled o hmem chain ((htakes chain).symm.trans hchain)

end

/-- Setting where continues go changes the statement and labels directly around it. -/
theorem StatementStack.getElem?_setLoopUpdate {update n : Nat} {e' : OpenStatement}
    (h : (s.setLoopUpdate update n).entries[i]? = some e') :
    ∃ e, s.entries[i]? = some e ∧
      ((e' = e ∧ i ≠ n) ∨ (e' = { e with update } ∧ (i = n ∨ e.kind = .label))) := by
  have hmodify : ∀ {s : StatementStack} {n : Nat} {e' : OpenStatement},
      (s.modify n fun e => { e with update }).entries[i]? = some e' →
      ∃ e, s.entries[i]? = some e ∧ ((e' = e ∧ i ≠ n) ∨ (e' = { e with update } ∧ i = n)) := by
    intro s n e' he
    simp only [modify, Array.getElem?_modify] at he
    split at he
    · rename_i hi
      obtain ⟨e, hget, rfl⟩ := Option.map_eq_some_iff.mp he
      exact ⟨e, hget, .inr ⟨rfl, hi.symm⟩⟩
    · rename_i hi
      exact ⟨e', he, .inl ⟨rfl, fun heq => hi heq.symm⟩⟩
  have hbase : ∀ {s : StatementStack} {n : Nat} {e' : OpenStatement},
      (s.modify n fun e => { e with update }).entries[i]? = some e' →
      ∃ e, s.entries[i]? = some e ∧
        ((e' = e ∧ i ≠ n) ∨ (e' = { e with update } ∧ (i = n ∨ e.kind = .label))) := by
    intro s n e' he
    obtain ⟨e, hget, hcase | ⟨heq, hi⟩⟩ := hmodify he
    · exact ⟨e, hget, .inl hcase⟩
    · exact ⟨e, hget, .inr ⟨heq, .inl hi⟩⟩
  induction n generalizing s e' with
  | zero => exact hbase h
  | succ n ih =>
    simp only [setLoopUpdate] at h
    split at h
    · rename_i hlabel
      obtain ⟨e₁, he₁, hcase⟩ := ih h
      obtain ⟨e, hget, hcase₁⟩ := hmodify he₁
      have hkind : i = n → e.kind = .label := by
        rintro rfl
        rw [he₁, Option.map_some, Option.some.injEq] at hlabel
        rcases hcase₁ with ⟨rfl, -⟩ | ⟨rfl, -⟩ <;> exact hlabel
      refine ⟨e, hget, ?_⟩
      rcases hcase₁ with ⟨rfl, hne⟩ | ⟨rfl, heq⟩
      · rcases hcase with ⟨rfl, -⟩ | ⟨rfl, hi | hl⟩
        · exact .inl ⟨rfl, hne⟩
        · exact .inr ⟨rfl, .inr (hkind hi)⟩
        · exact .inr ⟨rfl, .inr hl⟩
      · rcases hcase with ⟨rfl, -⟩ | ⟨rfl, -⟩ <;> exact .inr ⟨rfl, .inl heq⟩
    · exact hbase h

theorem StatementStack.setLoopUpdate_fixed (s : StatementStack) (update n : Nat) :
    (s.setLoopUpdate update n).entries.size = s.entries.size ∧
      (s.Linked → (s.setLoopUpdate update n).Linked) := by
  induction n generalizing s with
  | zero => exact ⟨Array.size_modify .., fun h => h.modify fun _ _ => rfl⟩
  | succ n ih =>
    simp only [setLoopUpdate]
    split
    · exact ⟨(ih _).1.trans (Array.size_modify ..), fun h => (ih _).2 (h.modify fun _ _ => rfl)⟩
    · exact ⟨Array.size_modify .., fun h => h.modify fun _ _ => rfl⟩

/-- Continues of the innermost loop are to go to the next cell. -/
theorem Drafted.setLoopUpdate (h : Drafted g a) (hopens : a.opens = outer ++ [o])
    (hok : Emit.setLoopUpdate outer.length (position a.main a.main.length) g = .ok () g') :
    Drafted g' (a.withTop outer { o with update := a.main.length }) := by
  have hmem : o ∈ a.opens := by rw [hopens]; simp
  simp only [Emit.setLoopUpdate, get_bind, guard_outOfBounds_ok, modify_ok] at hok
  obtain ⟨-, rfl⟩ := hok
  obtain ⟨hsize, hlinked⟩ := g.statements.setLoopUpdate_fixed (position a.main a.main.length)
    outer.length
  refine h.of_statements (h.built.sound.withTop hopens rfl (Nat.le_refl _) (fun _ ht => .inl ht)
    fun chain ht => h.built.sound.unfilled o hmem chain ht)
    (h.stacked.withTop hopens (hlinked h.stacked.linked) hsize fun i e' he => ?_) rfl
  obtain ⟨e, hget, ⟨rfl, hne⟩ | ⟨rfl, hcase⟩⟩ := StatementStack.getElem?_setLoopUpdate he
  · exact ⟨e', hget, fun _ => ⟨rfl, rfl, rfl, fun _ => rfl, fun _ => rfl⟩,
      fun heq => absurd heq hne⟩
  · refine ⟨e, hget, fun hne => ⟨rfl, rfl, rfl, fun hloop => ?_, fun chain => ?_⟩,
      fun _ hstated => ?_⟩
    · rw [hcase.resolve_left hne] at hloop
      cases hloop
    · cases chain <;> rfl
    · exact { hstated with update := fun _ => rfl }

/-! ## Joining chains -/

/-- The jump that a chain is made of. -/
def Chain.op : Chain → Opcode
  | .gosubs => .gosub
  | _ => .goto

theorem Chain.fits (chain : Chain) (serial k : Nat) : (Hole.chain serial chain).Fits k chain.op := by
  cases chain <;> rfl

theorem OpenStatement.link_setLink (e : OpenStatement) (last : Option Nat) (chain chain' : Chain) :
    (e.setLink last chain).link chain' = if chain' = chain then last else e.link chain' := by
  cases chain <;> cases chain' <;> rfl

/-- Statements are told apart by their numbers. -/
theorem Draft.Sound.serial_inj (h : a.Sound) {j : Nat} {x y : Opened} (hi : a.opens[i]? = some x)
    (hj : a.opens[j]? = some y) (heq : x.serial = y.serial) : i = j := by
  have hdistinct := h.distinct
  have hi' : (a.opens.map Opened.serial)[i]? = some y.serial := by
    rw [List.getElem?_map, hi, Option.map_some, heq]
  have hj' : (a.opens.map Opened.serial)[j]? = some y.serial := by
    rw [List.getElem?_map, hj, Option.map_some]
  obtain ⟨hlt, hget⟩ := List.getElem?_eq_some_iff.mp hi'
  obtain ⟨hlt', hget'⟩ := List.getElem?_eq_some_iff.mp hj'
  exact (List.Nodup.getElem_inj_iff hdistinct).mp (hget.trans hget'.symm)

/-- The statement that takes a pending jump. -/
theorem Draft.Sound.takes_of_pending (h : a.Sound) (ho : o ∈ a.opens) {k : Nat} {c : Cell Hole}
    (hk : a.main[k]? = some c) (hmem : .chain o.serial chain ∈ c.dests)
    (hnone : a.filled (.chain o.serial chain) = none) : o.kind.takes chain := by
  obtain ⟨x, hx, hserial, htakes⟩ := h.pending k c hk _ _ hmem hnone
  obtain ⟨i, hi⟩ := List.mem_iff_getElem?.mp hx
  obtain ⟨j, hj⟩ := List.mem_iff_getElem?.mp ho
  obtain rfl := h.serial_inj hi hj hserial
  rw [hi] at hj
  cases hj
  exact htakes

theorem statement_ok (hok : Emit.statement i g = .ok e g') :
    g.statements.entries[i]? = some e ∧ g' = g := by
  simp only [Emit.statement, get_bind, lift_ok, Error.inBounds] at hok
  obtain ⟨hget, rfl⟩ := hok
  cases he : g.statements.entries[i]? with
  | none =>
    rw [he] at hget
    cases hget
  | some e' =>
    rw [he] at hget
    cases hget
    exact ⟨rfl, rfl⟩

/-- A jump joins a chain of an open statement. -/
theorem Drafted.join (h : Drafted g a) {pc : Nat} (ho : a.opens[i]? = some o)
    (htakes : o.kind.takes chain) {g₁ : Generator} (he : g.statements.entries[i]? = some e)
    (hlink : Emit.link .backpatch (e.link chain) g = .ok pc g₁)
    (hset : Emit.modifyStatement i (·.setLink (some pc) chain) g₁ = .ok () g') (frame : Frame) :
    pc = position a.main a.main.length ∧
      Drafted g' (a.emit (.jump chain.op (.chain o.serial chain) frame)) := by
  have hsound := h.built.sound
  have hmem : o ∈ a.opens := List.mem_of_getElem? ho
  have hopen := hsound.unfilled o hmem chain htakes
  have hadmits : a.Admits (.jump chain.op (.chain o.serial chain) frame) := by
    refine ⟨CellOk.of_jump ?_ ?_ (chain.fits o.serial _) frame, ?_, ?_⟩
    · cases chain <;> rfl
    · cases chain <;> rfl
    · intro hole hole_mem
      rw [List.mem_singleton.mp hole_mem]
      exact hsound.serials o hmem
    · intro serial chain' hole_mem _
      cases List.mem_singleton.mp hole_mem
      exact ⟨o, hmem, rfl, htakes⟩
  rw [(h.stacked.entries i e o he ho).link chain] at hlink
  obtain ⟨rfl, hbuilt, hstatements⟩ := h.built.link rfl hadmits hopen hlink
  simp only [Emit.modifyStatement, get_bind, guard_outOfBounds_ok, modify_ok] at hset
  obtain ⟨-, rfl⟩ := hset
  rw [hstatements]
  refine ⟨rfl, { hbuilt with }, ?_⟩
  refine ⟨by simp [StatementStack.modify, Draft.emit, h.stacked.size], fun j e' x he' hx => ?_,
    h.stacked.linked.modify fun e _ => by cases chain <;> rfl⟩
  · simp only [StatementStack.modify, Array.getElem?_modify] at he'
    have hupdate : ∀ {x : Opened}, a.opens[j]? = some x → position (a.emit (.jump chain.op
        (.chain o.serial chain) frame)).main x.update = position a.main x.update :=
      fun hx => position_append (hsound.updates _ (List.mem_of_getElem? hx))
    split at he'
    · rename_i hij
      subst hij
      rw [he, Option.map_some, Option.some.injEq] at he'
      subst he'
      obtain rfl : o = x := Option.some.inj (ho.symm.trans hx)
      have hstated := h.stacked.entries i e o he ho
      refine ⟨?_, ?_, ?_, fun hloop => ?_, fun chain' => ?_⟩
      · rw [← hstated.kind]
        cases chain <;> rfl
      · rw [← hstated.label]
        cases chain <;> rfl
      · rw [← hstated.scope]
        cases chain <;> rfl
      · rw [hupdate ho, ← hstated.update hloop]
        cases chain <;> rfl
      · rw [OpenStatement.link_setLink]
        split
        · rename_i heq
          subst heq
          exact (Draft.head_emit_self rfl hopen).symm
        · rename_i hne
          rw [Draft.head_emit fun heq => hne ?_, hstated.link]
          cases heq
          rfl
    · rename_i hij
      have hstated := h.stacked.entries j e' x he' hx
      refine { hstated with update := fun hloop => ?_, link := fun chain' => ?_ }
      · rw [hupdate hx, hstated.update hloop]
      · rw [Draft.head_emit fun heq => hij ?_, hstated.link]
        simp only [Cell.jump, List.cons.injEq, Hole.chain.injEq, and_true] at heq
        exact hsound.serial_inj ho hx heq.1

/-! ## Closing -/

theorem Built.chained (h : Built g a) {op : Opcode} (hnone : a.filled hole = none)
    (hhole : hole.placeholder? = some .backpatch) (hjump : op.format = .jump)
    (hfits : ∀ k op', hole.Fits k op' → op' = op) : a.Chained hole op := by
  have hrecent : ∀ (k : Nat) (c : Cell Hole), a.main[k]? = some c → hole ∈ c.dests →
      a.settled ≤ k := fun k c hk hmem => h.sound.settled_le_of_open hk hmem hnone
  refine ⟨hnone, fun k c hk hmem => ?_, hjump, hrecent⟩
  rcases (h.sound.cells k c hk).hole_cases hmem with ⟨hdests, hoperands, hop⟩ | ⟨i, rfl⟩
  · have hwide : c.wide = false :=
      h.code.narrow k _ (Draft.getElem?_cells hk) (hrecent k c hk hmem)
    rw [Cell.jump, ← hfits k c.op hop, ← hdests, ← hoperands, ← hwide]
  · cases hhole

theorem Built.chained_statement (h : Built g a) (hnone : a.filled (.chain serial chain) = none) :
    a.Chained (.chain serial chain) chain.op := by
  refine h.chained hnone rfl ?_ fun k op' hfits => ?_
  · cases chain <;> rfl
  · cases chain <;> exact hfits

/-- A chain that no statement takes is empty. -/
theorem Draft.Sound.head_of_not_takes (h : a.Sound) (ho : o ∈ a.opens)
    (hnot : o.kind.takes chain = false) : a.head (.chain o.serial chain) = none := by
  rw [head]
  split
  · rfl
  · rename_i hopen
    rw [linkBefore_eq_none, Option.map_none]
    intro k hk hlinks
    obtain ⟨c, hc, hdests⟩ := links_iff.mp hlinks
    have := h.takes_of_pending ho hc (show Hole.chain o.serial chain ∈ c.dests by simp [hdests])
      (by simpa using hopen)
    rw [hnot] at this
    cases this

/-- Fill a hole on a condition. -/
def Draft.fillIf (a : Draft) (p : Bool) (h : Hole) (t : Nat) : Draft :=
  { a with filled := fun hole => if p = true ∧ hole = h then some t else a.filled hole }

theorem Draft.fillIf_true (h : Hole) (t : Nat) : a.fillIf true h t = a.fill h t := by
  simp [fillIf, fill]

theorem Draft.fillIf_false (h : Hole) (t : Nat) : a.fillIf false h t = a := by
  simp [fillIf]

/-- Resolving a chain of a statement fills its hole, if the statement takes such jumps. -/
theorem resolveChain_fillIf {p : Bool}
    (hchained : p → a.Chained (.chain serial chain) chain.op)
    (hempty : p = false → a.head (.chain serial chain) = none)
    (h : Codes g.main.code g.spans a.settled a.cells)
    (hok : Emit.resolveChain (a.head (.chain serial chain)) (position a.main t) chain.op g =
      .ok () g') : Coded g g' a.settled (a.fillIf p (.chain serial chain) t).cells := by
  cases p with
  | true =>
    rw [Draft.fillIf_true]
    exact resolveChain_coded (hchained rfl) rfl h hok
  | false =>
    rw [hempty rfl, Emit.resolveChain, Emit.resolveLinks, pure_ok] at hok
    rw [Draft.fillIf_false]
    obtain rfl := hok.2
    exact ⟨_, _, rfl, h⟩

/-- The holes that are filled once a statement is closed: breaks lead to the end, continues to the
update part. -/
def Draft.closing (a : Draft) (o : Opened) : Draft :=
  (a.fillIf o.kind.takesBreaks (.chain o.serial .breaks) a.main.length).fillIf o.kind.isLoop
    (.chain o.serial .continues) o.update

/-- The draft once its innermost statement is closed. -/
def Draft.close (a : Draft) (outer : List Opened) (o : Opened) : Draft :=
  { a with opens := outer, filled := (a.closing o).filled }

theorem Draft.filled_closing :
    (a.closing o).filled hole =
      if o.kind.isLoop ∧ hole = .chain o.serial .continues then some o.update
      else if o.kind.takesBreaks ∧ hole = .chain o.serial .breaks then some a.main.length
      else a.filled hole := rfl

theorem Draft.filled_closing_ne (hne : ∀ chain, hole ≠ .chain o.serial chain) :
    (a.closing o).filled hole = a.filled hole := by
  rw [filled_closing, if_neg fun hc => hne _ hc.2, if_neg fun hc => hne _ hc.2]

/-- Breaks of a closed statement lead to its end. -/
theorem Draft.filled_close_breaks (h : o.kind.takesBreaks) :
    (a.close outer o).filled (.chain o.serial .breaks) = some a.main.length := by
  show (a.closing o).filled _ = _
  rw [filled_closing, if_neg (by simp), if_pos ⟨h, rfl⟩]

/-- Continues of a closed statement lead to its update part. -/
theorem Draft.filled_close_continues (h : o.kind.isLoop) :
    (a.close outer o).filled (.chain o.serial .continues) = some o.update := by
  show (a.closing o).filled _ = _
  rw [filled_closing, if_pos ⟨h, rfl⟩]

theorem Draft.Sound.closing_mono (h : a.Sound) (ho : o ∈ a.opens) (ht : a.filled hole = some t) :
    (a.closing o).filled hole = some t := by
  have hopen : ∀ chain, o.kind.takes chain → hole ≠ .chain o.serial chain := by
    rintro chain htakes rfl
    rw [h.unfilled o ho chain htakes] at ht
    cases ht
  rw [filled_closing, if_neg fun hc => hopen .continues hc.1 hc.2,
    if_neg fun hc => hopen .breaks hc.1 hc.2, ht]

theorem Draft.Sound.close (h : a.Sound) (hopens : a.opens = outer ++ [o])
    (hkind : o.kind ≠ .finallyClause) : (a.close outer o).Sound := by
  have hmem : o ∈ a.opens := by rw [hopens]; simp
  have hclosed := @Draft.Sound.replaceTop a outer o h hopens (a.closing o).filled none
    (h.closing_mono hmem) filled_closing_ne (fun chain t ht => ?_) (fun chain htakes hnone => ?_)
    (by rintro _ ⟨⟩)
  · rw [Option.toList_none, List.append_nil] at hclosed
    exact hclosed
  · rw [filled_closing] at ht
    split at ht
    · cases ht
      exact h.updates o hmem
    · split at ht
      · cases ht
        exact Nat.le_refl _
      · exact h.targets _ t ht (by rintro _ _ ⟨⟩)
  · rw [filled_closing] at hnone
    cases chain with
    | breaks =>
      rw [if_neg (by simp), if_pos ⟨htakes, rfl⟩] at hnone
      cases hnone
    | continues =>
      rw [if_pos ⟨htakes, rfl⟩] at hnone
      cases hnone
    | gosubs => exact absurd (of_decide_eq_true htakes) hkind

theorem Stacked.pop (h : Stacked s a) (hsound : a.Sound) (hopens : a.opens = outer ++ [o]) :
    Stacked s.pop (a.close outer o) := by
  have hlen : s.entries.size = outer.length + 1 := by rw [h.size, hopens]; simp
  obtain ⟨e, he⟩ : ∃ e, s.entries[outer.length]? = some e :=
    ⟨_, Array.getElem?_eq_getElem (by omega)⟩
  have hback : s.entries.back? = some e := by rw [Array.back?, hlen]; exact he
  have hlinked := h.linked.pop
  have hpop : ∀ {i : Nat} {e' : OpenStatement}, s.entries.pop[i]? = some e' →
      i < outer.length ∧ s.entries[i]? = some e' := by
    intro i e' hget
    rw [Array.getElem?_pop] at hget
    split at hget
    · exact ⟨by omega, hget⟩
    · cases hget
  rw [StatementStack.pop, hback] at hlinked ⊢
  refine ⟨by simp [Draft.close, hlen], fun i e' x he' hx => ?_, hlinked⟩
  · obtain ⟨hi, hget⟩ := hpop he'
    have hx' : a.opens[i]? = some x := by
      rw [hopens, List.getElem?_append_left hi]
      exact hx
    have hold := h.entries i e' x hget hx'
    refine { hold with link := fun chain => (hold.link chain).trans ?_ }
    have hne : ∀ chain', Hole.chain x.serial chain ≠ .chain o.serial chain' := by
      intro chain' heq
      simp only [Hole.chain.injEq] at heq
      have := hsound.serial_inj hx' (show a.opens[outer.length]? = some o by rw [hopens]; simp) heq.1
      omega
    simp only [Draft.head, Draft.close, Draft.filled_closing_ne hne]

theorem StatementKind.not_takes_of_trying (h : kind.isTrying) :
    kind.takesBreaks = false ∧ kind.isLoop = false := by
  cases kind <;> first | exact ⟨rfl, rfl⟩ | cases h

/-- The innermost statement is closed. -/
theorem Drafted.popStatement (h : Drafted g a) (hopens : a.opens = outer ++ [o])
    (hkind : o.kind ≠ .finallyClause) (hok : Emit.popStatement g = .ok () g') :
    Drafted g' (a.close outer o) := by
  have hsound := h.built.sound
  have hmem : o ∈ a.opens := by rw [hopens]; simp
  have hlen : g.statements.entries.size = outer.length + 1 := by rw [h.stacked.size, hopens]; simp
  obtain ⟨e, he⟩ : ∃ e, g.statements.entries[outer.length]? = some e :=
    ⟨_, Array.getElem?_eq_getElem (by omega)⟩
  have htop : g.statements.top? = some e := by
    rw [StatementStack.top?, Array.back?, hlen]
    exact he
  have hstated := h.stacked.entries outer.length e o he (by rw [hopens]; simp)
  have hcells : ∀ {g₁ : Generator}, Coded g g₁ a.settled (a.closing o).cells →
      Drafted { g₁ with statements := g₁.statements.pop } (a.close outer o) := by
    rintro g₁ ⟨code, spans, rfl, hcodes⟩
    obtain ⟨hbuilt, hstacked⟩ := h
    exact ⟨{ hbuilt with sound := hsound.close hopens hkind, code := hcodes },
      hstacked.pop hsound hopens⟩
  simp only [Emit.popStatement, get_bind, htop] at hok
  split at hok
  · rename_i htrying
    simp only [bind_ok, modify_ok] at hok
    obtain ⟨n, g₁, hoffset, _, g₂, hbreaks, _, g₃, hcontinues, rfl⟩ := hok
    obtain ⟨rfl, rfl⟩ := h.built.offset_ok hoffset
    refine hcells ?_
    rw [show e.breaks = a.head (.chain o.serial .breaks) from hstated.link .breaks] at hbreaks
    have hfirst := resolveChain_fillIf
      (fun (htakes : o.kind.takesBreaks = true) => h.built.chained_statement (hsound.unfilled o hmem .breaks htakes))
      (fun hnot => hsound.head_of_not_takes hmem hnot) h.built.code hbreaks
    have hne : Hole.chain o.serial .continues ≠ .chain o.serial .breaks := by simp
    have hhead : (a.fillIf o.kind.takesBreaks (.chain o.serial .breaks) a.main.length).head
        (.chain o.serial .continues) = e.continues := by
      rw [show e.continues = a.head (.chain o.serial .continues) from hstated.link .continues]
      simp only [Draft.head, Draft.fillIf, hne, and_false, if_false]
    -- continues only matter for a loop, whose update part is known
    have hsecond : Coded g₂ g₃ a.settled (a.closing o).cells := by
      cases hloop : o.kind.isLoop with
      | true =>
        rw [← hhead, hstated.update hloop] at hcontinues
        refine resolveChain_fillIf (fun _ => ?_) (fun hf => ?_) hfirst.codes hcontinues
        · have hopen := hsound.unfilled o hmem .continues hloop
          have hchained := h.built.chained_statement hopen
          refine ⟨?_, hchained.links, hchained.jump, hchained.recent⟩
          simp only [Draft.fillIf, hne, and_false, if_false]
          exact hopen
        · rw [hloop] at hf
          cases hf
      | false =>
        rw [show e.continues = a.head (.chain o.serial .continues) from hstated.link .continues,
          hsound.head_of_not_takes hmem (show o.kind.takes .continues = false from hloop),
          Emit.resolveChain, Emit.resolveLinks, pure_ok]
          at hcontinues
        obtain rfl := hcontinues.2
        rw [Draft.closing, hloop, Draft.fillIf_false]
        exact ⟨_, _, rfl, hfirst.codes⟩
    exact hfirst.trans hsecond
  · rename_i htrying
    obtain rfl := modify_ok.mp hok
    have htrying' : o.kind.isTrying := by
      rw [← hstated.kind]
      simpa using htrying
    have hclosing : a.closing o = a := by
      rw [Draft.closing, (StatementKind.not_takes_of_trying htrying').1,
        (StatementKind.not_takes_of_trying htrying').2, Draft.fillIf_false, Draft.fillIf_false]
    have hsame : Coded g g a.settled (a.closing o).cells := by
      rw [hclosing]
      exact ⟨_, _, rfl, h.built.code⟩
    exact hcells hsame

end ScriptCompiler
