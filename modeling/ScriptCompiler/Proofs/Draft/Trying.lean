import ScriptCompiler.Proofs.Draft.Statements

/-!
# Try statements

The parts of a try statement end in jumps to behind the whole statement, which
form a chain of their own. Calls of a finally clause are a chain of the statement
and are resolved when the clause is reached.
-/

namespace ScriptCompiler

open Bytes Emit

variable {g g' : Generator} {a b : Draft} {outer : List Opened} {o : Opened} {n s k : Nat}
  {last : Option Nat}

/-- Other code leaves the exits of a try statement alone. -/
theorem Grown.head_exits (h : Grown n s a b) (hk : k < n) : b.head (.exits k) = a.head (.exits k) := by
  obtain ⟨more, hmore⟩ := h.isPrefix
  have hlinks : ∀ j, Links b.main (.exits k) j → Links a.main (.exits k) j := by
    intro j hj
    obtain ⟨c, hc, hdests⟩ := links_iff.mp hj
    exact links_iff.mpr ⟨c, h.own j c hc (.exits k) (by simp [hdests]) (fun _ _ => (by rintro ⟨⟩)) hk, hdests⟩
  have hlast : linkBefore b.main (.exits k) b.main.length =
      linkBefore a.main (.exits k) a.main.length := by
    have hbelow : ∀ m, linkBefore b.main (.exits k) (a.main.length + m) =
        linkBefore a.main (.exits k) a.main.length := by
      intro m
      induction m with
      | zero => rw [← hmore, Nat.add_zero, linkBefore_append (Nat.le_refl _)]
      | succ m ih =>
        rw [← Nat.add_assoc, linkBefore, if_neg fun hj => absurd (hlinks _ hj).lt (by omega), ih]
    have := hbelow (b.main.length - a.main.length)
    rwa [Nat.add_sub_cancel' h.length] at this
  simp only [Draft.head, h.kept (.exits k) hk, hlast]
  split
  · rfl
  · cases hbefore : linkBefore a.main (.exits k) a.main.length with
    | none => rfl
    | some j =>
      obtain ⟨hj, -, -⟩ := linkBefore_some hbefore
      rw [Option.map_some, Option.map_some, ← hmore, position_append (Nat.le_of_lt hj)]

theorem Draft.admits_exit (hk : k ≤ a.main.length) (frame : Frame) :
    a.Admits (.jump .goto (.exits k) frame) := by
  have hfits : (Hole.exits k).Fits a.main.length .goto := ⟨hk, rfl⟩
  refine ⟨CellOk.of_jump rfl rfl hfits _, fun hole hmem => ?_, fun _ _ hmem => ?_⟩
  · rw [List.mem_singleton.mp hmem]
    exact Nat.lt_succ_of_le hk
  · cases List.mem_singleton.mp hmem

/-- An exit of a try statement. -/
theorem Drafted.exit (h : Drafted g a) (hk : k ≤ a.main.length) (hopen : a.filled (.exits k) = none)
    (hlast : a.head (.exits k) = last) {pc : Nat} (hok : Emit.link .backpatch last g = .ok pc g') :
    Drafted g' (a.emit (.jump .goto (.exits k) a.frame)) ∧
      (a.emit (.jump .goto (.exits k) a.frame)).head (.exits k) = some pc := by
  subst hlast
  obtain ⟨rfl, hbuilt, hstatements⟩ := h.built.link rfl (Draft.admits_exit hk a.frame) hopen hok
  refine ⟨⟨hbuilt, ?_⟩, Draft.head_emit_self rfl hopen⟩
  rw [hstatements]
  exact h.stacked.emit h.built.sound fun _ _ heq => by cases heq

/-- The first exit of a try statement has no link before it. -/
theorem Draft.Sound.exits_open (h : a.Sound) :
    a.filled (.exits a.main.length) = none ∧ a.head (.exits a.main.length) = none := by
  have hopen : a.filled (.exits a.main.length) = none := h.fresh _ (Nat.lt_irrefl _)
  refine ⟨hopen, ?_⟩
  rw [head, if_neg (by simp [hopen]), linkBefore_eq_none, Option.map_none]
  intro j hj hlinks
  obtain ⟨c, hc, hdests⟩ := links_iff.mp hlinks
  exact Nat.lt_irrefl _ (h.used j c hc (.exits a.main.length) (by simp [hdests]))

/-- The exits of a try statement lead to behind it. -/
theorem Drafted.resolveExits (h : Drafted g a) (hk : k < a.main.length)
    (hopen : a.filled (.exits k) = none) (hlast : a.head (.exits k) = last)
    (hok : Emit.resolveChain last (position a.main a.main.length) .goto g = .ok () g') :
    Drafted g' (a.fill (.exits k) a.main.length) := by
  subst hlast
  have hchained : a.Chained (.exits k) .goto := by
    refine h.built.chained hopen rfl rfl fun j op hfits => ?_
    exact hfits.2
  refine h.of_coded rfl (resolveChain_coded hchained rfl h.built.code hok) ?_
    (h.stacked.fill fun _ _ _ heq => by cases heq)
  exact h.built.sound.fill hopen hk (fun _ => Nat.le_refl _) (fun _ _ heq => by cases heq)
    (fun _ _ _ _ heq => by cases heq)

/-- The finally clause of a try statement is reached. -/
def Draft.reachFinally (a : Draft) (outer : List Opened) (o : Opened) : Draft :=
  (a.fill (.chain o.serial .gosubs) a.main.length).withTop outer { o with kind := .subroutine }

theorem Draft.Sound.reachFinally (h : a.Sound) (hopens : a.opens = outer ++ [o])
    (hkind : o.kind = .finallyClause) : (a.reachFinally outer o).Sound := by
  have hmem : o ∈ a.opens := by rw [hopens]; simp
  have hopen := h.unfilled o hmem .gosubs (by rw [hkind]; rfl)
  refine @Draft.Sound.replaceTop a outer o h hopens
    (a.fill (.chain o.serial .gosubs) a.main.length).filled (some { o with kind := .subroutine })
    (fun {hole t} ht => ?_) (fun hne => filled_fill_ne (hne _)) (fun chain t ht => ?_)
    (fun chain htakes hnone => ?_) ?_
  · refine (filled_fill_ne fun heq => ?_).trans ht
    rw [heq, hopen] at ht
    cases ht
  · by_cases heq : chain = .gosubs
    · subst heq
      exact Nat.le_of_eq (Option.some.inj (ht.symm.trans filled_fill_self))
    · exact h.targets _ t ((filled_fill_ne fun h => heq (Hole.chain.inj h).2).symm.trans ht)
        (by rintro _ _ ⟨⟩)
  · rw [hkind] at htakes
    cases chain with
    | gosubs => cases filled_fill_self.symm.trans hnone
    | breaks => cases htakes
    | continues => cases htakes
  · rintro _ ⟨⟩
    exact ⟨rfl, h.updates o hmem, fun chain htakes => by cases chain <;> cases htakes⟩

/-- The statement stack when the calls of a finally clause have been resolved. -/
theorem Stacked.clearGosubs {s : StatementStack} (h : Stacked s a) (hsound : a.Sound)
    (hopens : a.opens = outer ++ [o]) {t : Nat} :
    Stacked (s.modify outer.length ({ · with gosubs := none }))
      (a.fill (.chain o.serial .gosubs) t) := by
  have hget : a.opens[outer.length]? = some o := by rw [hopens]; simp
  refine ⟨by simp [StatementStack.modify, Draft.fill, h.size], fun i e' x he hx => ?_,
    h.linked.modify fun _ _ => rfl⟩
  · simp only [StatementStack.modify, Array.getElem?_modify] at he
    split at he
    · rename_i hi
      subst hi
      obtain ⟨e, hentry, rfl⟩ := Option.map_eq_some_iff.mp he
      obtain rfl := Option.some.inj (hget.symm.trans hx)
      have hstated := h.entries outer.length e o hentry hget
      refine { hstated with link := fun chain => ?_ }
      cases chain with
      | gosubs => exact Draft.head_fill_self.symm
      | breaks => exact (hstated.link .breaks).trans (Draft.head_fill (by simp)).symm
      | continues => exact (hstated.link .continues).trans (Draft.head_fill (by simp)).symm
    · rename_i hi
      have hstated := h.entries i e' x he hx
      refine { hstated with link := fun chain => ?_ }
      refine (hstated.link chain).trans (Draft.head_fill fun heq => hi ?_).symm
      exact (hsound.serial_inj hx hget (Hole.chain.inj heq).1).symm

theorem Drafted.reachFinally (h : Drafted g a) (hopens : a.opens = outer ++ [o])
    (hkind : o.kind = .finallyClause) {g₁ g₂ g₃ : Generator}
    (hgosubs : Emit.gosubs outer.length g = .ok last g₁)
    (hresolve : Emit.resolveChain last (position a.main a.main.length) .gosub g₁ = .ok () g₂)
    (hclear : Emit.setGosubs outer.length none g₂ = .ok () g₃)
    (hset : Emit.setKind outer.length .subroutine g₃ = .ok () g') :
    Drafted g' (a.reachFinally outer o) := by
  have hsound := h.built.sound
  have hmem : o ∈ a.opens := by rw [hopens]; simp
  have hget : a.opens[outer.length]? = some o := by rw [hopens]; simp
  have hopen := hsound.unfilled o hmem .gosubs (by rw [hkind]; rfl)
  simp only [Emit.gosubs, bind_ok, pure_ok] at hgosubs
  obtain ⟨e, g₀, hstatement, rfl, rfl⟩ := hgosubs
  obtain ⟨he, rfl⟩ := statement_ok hstatement
  have hstated := h.stacked.entries outer.length e o he hget
  rw [show e.gosubs = a.head (.chain o.serial .gosubs) from hstated.link .gosubs] at hresolve
  have hcoded : Coded g₀ g₂ a.settled (a.fill (.chain o.serial .gosubs) a.main.length).cells :=
    resolveChain_coded (h.built.chained_statement hopen) rfl h.built.code hresolve
  obtain ⟨code, spans, rfl, hcodes⟩ := hcoded
  simp only [Emit.setGosubs, Emit.setKind, Emit.modifyStatement, get_bind, guard_outOfBounds_ok,
    modify_ok] at hclear hset
  obtain ⟨-, rfl⟩ := hclear
  obtain ⟨-, rfl⟩ := hset
  obtain ⟨hbuilt, hstacked⟩ := h
  have hcleared : Stacked (g₀.statements.modify outer.length ({ · with gosubs := none }))
      (a.fill (.chain o.serial .gosubs) a.main.length) := hstacked.clearGosubs hsound hopens
  refine ⟨{ hbuilt with sound := hsound.reachFinally hopens hkind, code := hcodes }, ?_⟩
  refine hcleared.withTop hopens (hcleared.linked.modify fun e' he' => ?_)
    (by simp [StatementStack.modify]) fun i e' he' => ?_
  · simp [OpenStatement.linkage, OpenStatement.linksScope,
      (hcleared.entries outer.length e' o he' hget).kind, hkind]
  · simp only [StatementStack.modify, Array.getElem?_modify] at he' ⊢
    by_cases hi : outer.length = i
    · subst hi
      rw [if_pos rfl] at he' ⊢
      obtain ⟨e₁, hentry, rfl⟩ := Option.map_eq_some_iff.mp he'
      rw [if_pos rfl] at hentry
      refine ⟨e₁, hentry, fun hne => absurd rfl hne, fun _ hstated' => ?_⟩
      exact ⟨rfl, hstated'.label, hstated'.scope, fun hloop => (by cases hloop), hstated'.link⟩
    · rw [if_neg hi, if_neg hi] at he'
      rw [if_neg hi]
      exact ⟨e', he', fun _ => ⟨rfl, rfl, rfl, fun _ => rfl, fun _ => rfl⟩,
        fun heq => absurd heq.symm hi⟩

end ScriptCompiler
