import ScriptCompiler.Proofs.Draft.Jumps

/-!
# Chains of pending jumps

Jumps that share a hole are linked from the latest to the first. Resolving a
chain walks these links back, and the cells behind the cursor are the ones whose
hole counts as filled by then.
-/

namespace ScriptCompiler

open Bytes Emit

variable {g g' : Generator} {a : Draft} {hole : Hole} {c : Cell Hole} {op : Opcode} {frame : Frame}
  {t n k : Nat}

/-! ## Joining a chain -/

/-- What links a new jump to the ones before it. -/
theorem Hole.link_last (hhole : hole.placeholder? = some .backpatch) :
    hole.link (a.main ++ [c]) a.main.length =
      match linkBefore a.main hole a.main.length with
      | some j => (position a.main a.main.length : Int) - position a.main j
      | none => position a.main a.main.length + 1 := by
  have hback : linkBefore (a.main ++ [c]) hole a.main.length =
      linkBefore a.main hole a.main.length := linkBefore_append (Nat.le_refl _)
  have hlink : hole.link (a.main ++ [c]) a.main.length =
      match linkBefore (a.main ++ [c]) hole a.main.length with
      | some j => (position (a.main ++ [c]) a.main.length : Int) - position (a.main ++ [c]) j
      | none => position (a.main ++ [c]) a.main.length + 1 := by
    cases hole with
    | exits k => rfl
    | chain serial chain => rfl
    | _ => cases hhole
  rw [hlink, hback, position_append (Nat.le_refl _)]
  cases hbefore : linkBefore a.main hole a.main.length with
  | none => rfl
  | some j =>
    obtain ⟨hj, -, -⟩ := linkBefore_some hbefore
    simp only [position_append (Nat.le_of_lt hj)]

/-- A jump joins the chain of its hole. -/
theorem Built.link (h : Built g a) {pc : Nat} (hhole : hole.placeholder? = some .backpatch)
    (hadmits : a.Admits (.jump op hole frame)) (hopen : a.filled hole = none)
    (hok : Emit.link .backpatch (a.head hole) g = .ok pc g') :
    pc = position a.main a.main.length ∧ Built g' (a.emit (.jump op hole frame)) ∧
      g'.statements = g.statements := by
  have hjump : Emit.jump .backpatch (hole.link (a.main ++ [.jump op hole frame]) a.main.length) g =
      .ok pc g' := by
    rw [Hole.link_last hhole]
    rw [Draft.head, if_neg (by simp [hopen]), Emit.link, bind_ok] at hok
    obtain ⟨n, g₁, hoffset, hok⟩ := hok
    obtain ⟨rfl, rfl⟩ := h.offset_ok hoffset
    cases hbefore : linkBefore a.main hole a.main.length with
    | none =>
      rw [hbefore] at hok
      exact hok
    | some j =>
      rw [hbefore] at hok
      simp only [Option.map_some, guard_throw_ok] at hok
      exact hok.2
  obtain ⟨-, rfl, hemitted⟩ := jump_emitted h.code rfl frame hjump
  have hshown : (Cell.jump op hole frame).shown a.filled (a.main ++ [.jump op hole frame])
      a.main.length =
      .jump .backpatch (hole.link (a.main ++ [.jump op hole frame]) a.main.length) frame := by
    simp [Cell.shown, Cell.jump, Cell.standing, Operands.standing, Hole.offset, hopen, hhole]
  refine ⟨h.size, h.emit hadmits (fun j hj => ?_) (by rw [hshown]; exact hemitted), ?_⟩
  · rw [List.singleton_inj.mp hj] at hhole
    cases hhole
  · obtain ⟨code, spans, warnings, rfl, -⟩ := hemitted
    rfl

/-! ## Resolving a chain -/

/-- The holes that count as filled once the cursor has passed all cells from `n` on. -/
def Draft.passed (a : Draft) (hole : Hole) (t n : Nat) (k : Nat) (h : Hole) : Option Nat :=
  if h = hole ∧ n ≤ k then some t else a.filled h

/-- What the chain of a hole has to be like: its jumps have this hole alone and are recent. -/
structure Draft.Chained (a : Draft) (hole : Hole) (op : Opcode) : Prop where
  unfilled : a.filled hole = none
  links : ∀ (k : Nat) (c : Cell Hole), a.main[k]? = some c → hole ∈ c.dests →
    c = .jump op hole c.frame
  jump : op.format = .jump
  recent : ∀ (k : Nat) (c : Cell Hole), a.main[k]? = some c → hole ∈ c.dests → a.settled ≤ k

theorem Draft.position_passed (hole : Hole) (t n k : Nat) :
    position (shown (a.passed hole t n) a.main) k = position a.main k := position_shown k

/-- A literal is no chain. -/
theorem Draft.passed_literal (hhole : hole.placeholder? ≠ none) (t n k j i : Nat) :
    a.passed hole t n k (.literal j i) = a.filled (.literal j i) := by
  refine if_neg fun heq => hhole ?_
  rw [← heq.1]
  rfl

/-- Moving the cursor matters only for the jumps of the chain. -/
theorem Draft.agree_passed (hchained : a.Chained hole op) (hhole : hole.placeholder? ≠ none)
    {n' : Nat} (hk : a.main[k]? = some c) (hlinks : Links a.main hole k → (n ≤ k ↔ n' ≤ k)) :
    Agree (a.passed hole t n k) (a.passed hole t n' k) k c := by
  refine ⟨fun h hmem => ?_, fun i => ?_⟩
  · rw [passed, passed]
    by_cases heq : h = hole
    · subst heq
      have hlink : Links a.main h k := by
        refine links_iff.mpr ⟨c, hk, ?_⟩
        rw [hchained.links k c hk hmem]
        rfl
      simp only [true_and, hlinks hlink]
    · rw [if_neg fun hc => heq hc.1, if_neg fun hc => heq hc.1]
  · rw [passed_literal hhole, passed_literal hhole]

/-- A jump of a chain before the cursor has passed it, and behind. -/
theorem Draft.shown_passed (hopen : a.filled hole = none)
    (hhole : hole.placeholder? = some .backpatch) :
    (Cell.jump op hole frame).shown (a.passed hole t n k) a.main k =
      if n ≤ k then .jump op ((position a.main t : Int) - position a.main k) frame
      else .jump .backpatch (hole.link a.main k) frame := by
  split <;> rename_i hn <;>
    simp [Cell.shown, Cell.jump, Cell.standing, Operands.standing, Hole.offset, Draft.passed, hn,
      hopen, hhole]

/-- The distance in a link says where the cursor goes next. -/
theorem cursor_link (hhole : hole.placeholder? = some .backpatch) :
    0 ≤ hole.link a.main k ∧
      (if (hole.link a.main k).toNat ≤ position a.main k then
        some (position a.main k - (hole.link a.main k).toNat) else none) =
        (linkBefore a.main hole k).map (position a.main) := by
  have hlink : hole.link a.main k = match linkBefore a.main hole k with
      | some j => (position a.main k : Int) - position a.main j
      | none => position a.main k + 1 := by
    cases hole with
    | exits k => rfl
    | chain serial chain => rfl
    | _ => cases hhole
  cases hbefore : linkBefore a.main hole k with
  | none =>
    have hlink : hole.link a.main k = (position a.main k : Int) + 1 := by rw [hlink, hbefore]
    exact ⟨by omega, if_neg (by omega)⟩
  | some j =>
    obtain ⟨hj, hlinks, -⟩ := linkBefore_some hbefore
    have hlink : hole.link a.main k = (position a.main k : Int) - position a.main j := by
      rw [hlink, hbefore]
    have hle : position a.main j ≤ position a.main k := by
      rcases Nat.lt_or_ge k a.main.length with hlt | hge
      · exact position_le (Nat.le_of_lt hj) (Nat.le_of_lt hlt)
      · rw [position_of_length_le hge]
        exact position_le (Nat.le_of_lt hlinks.lt) (Nat.le_refl _)
    refine ⟨by omega, ?_⟩
    rw [if_pos (by omega), Option.map_some]
    congr 1
    omega

/-- The walk along a chain resolves the jumps in front of the cursor. -/
theorem resolveLinks_coded {fuel : Nat} (hchained : a.Chained hole op)
    (hhole : hole.placeholder? = some .backpatch)
    (h : Codes g.main.code g.spans a.settled (shown (a.passed hole t n) a.main))
    (hok : Emit.resolveLinks (position a.main t) op fuel
      ((linkBefore a.main hole n).map (position a.main)) g = .ok () g') :
    Coded g g' a.settled (shown (a.passed hole t 0) a.main) := by
  have hne : hole.placeholder? ≠ none := by rw [hhole]; exact Option.some_ne_none _
  induction fuel generalizing g n with
  | zero =>
    cases hbefore : linkBefore a.main hole n with
    | none =>
      rw [hbefore, Option.map_none, Emit.resolveLinks, pure_ok] at hok
      obtain rfl := hok.2
      refine ⟨_, _, rfl, ?_⟩
      rw [← shown_congr fun k c hk => Draft.agree_passed hchained hne hk fun hlinks => ?_]
      · exact h
      · constructor
        · exact fun _ => Nat.le_of_not_lt fun hlt => linkBefore_none hbefore k hlt hlinks
        · exact fun _ => Nat.zero_le _
    | some k =>
      rw [hbefore, Option.map_some, Emit.resolveLinks] at hok
      exact absurd hok (by simp)
  | succ fuel ih =>
    cases hbefore : linkBefore a.main hole n with
    | none =>
      rw [hbefore, Option.map_none, Emit.resolveLinks, pure_ok] at hok
      obtain rfl := hok.2
      refine ⟨_, _, rfl, ?_⟩
      rw [← shown_congr fun k c hk => Draft.agree_passed hchained hne hk fun hlinks => ?_]
      · exact h
      · constructor
        · exact fun _ => Nat.le_of_not_lt fun hlt => linkBefore_none hbefore k hlt hlinks
        · exact fun _ => Nat.zero_le _
    | some k =>
      obtain ⟨hkn, hlinks, hlast⟩ := linkBefore_some hbefore
      obtain ⟨c, hk, hdests⟩ := links_iff.mp hlinks
      have hmem : hole ∈ c.dests := by rw [hdests]; exact List.mem_singleton_self _
      have hc := hchained.links k c hk hmem
      have hs := hchained.recent k c hk hmem
      have hk' : (shown (a.passed hole t n) a.main)[k]? =
          some (.jump .backpatch (hole.link a.main k) c.frame) := by
        rw [getElem?_shown hk, hc, Draft.shown_passed hchained.unfilled hhole, if_neg (by omega)]
        rfl
      rw [hbefore, Option.map_some] at hok
      simp only [Emit.resolveLinks, get_bind, guard_outOfBounds_ok, modify_bind,
        guard_inconsistent_ok, bind_ok] at hok
      obtain ⟨delta, g₁, hread, z, g₂, hspan, _, g₃, hset, -, hpos, hok⟩ := hok
      rw [← Draft.position_passed hole t n] at hread hset
      obtain ⟨rfl, rfl⟩ := jumpOffset_ok hread h hk' hs rfl
      obtain ⟨rfl, rfl⟩ := spanBetween_ok hspan
      -- the opcode byte comes last, so the cell is the resolved jump from here on
      have hcoded := relink_coded h hk' hs hchained.jump hset
      rw [Draft.position_passed] at hcoded
      have hshown : (shown (a.passed hole t n) a.main).set k
          (.jump op ((position a.main t : Int) - position a.main k) c.frame) =
          shown (a.passed hole t k) a.main := by
        have hnew : c.shown (a.passed hole t k k) a.main k =
            .jump op ((position a.main t : Int) - position a.main k) c.frame := by
          rw [hc, Draft.shown_passed hchained.unfilled hhole, if_pos (Nat.le_refl k)]
          rfl
        rw [← hnew]
        refine (shown_set hk fun j d hj hjk => ?_).symm
        refine Draft.agree_passed hchained hne hj fun hlinks' => ⟨fun hnj => by omega, fun hkj => ?_⟩
        exact Nat.le_of_not_lt fun hlt => hlast j (by omega) hlt hlinks'
      replace hcoded := hshown ▸ hcoded
      rw [(cursor_link hhole).2] at hok
      exact hcoded.trans (ih hcoded.codes hok)

/-- Resolving a chain fills its hole. -/
theorem resolveChain_coded (hchained : a.Chained hole op)
    (hhole : hole.placeholder? = some .backpatch) (h : Codes g.main.code g.spans a.settled a.cells)
    (hok : Emit.resolveChain (a.head hole) (position a.main t) op g = .ok () g') :
    Coded g g' a.settled (a.fill hole t).cells := by
  have hstart : shown (a.passed hole t a.main.length) a.main = a.cells := by
    refine shown_congr fun k c hk => ⟨fun h' _ => ?_, fun i => ?_⟩
    · have hlt := lt_of_getElem? hk
      exact (if_neg fun hc => absurd hc.2 (by omega)).symm
    · have hlt := lt_of_getElem? hk
      exact (if_neg fun hc => absurd hc.2 (by omega)).symm
  have hstop : shown (a.passed hole t 0) a.main = (a.fill hole t).cells := by
    refine shown_congr fun k c hk => ⟨fun h' _ => ?_, fun i => ?_⟩ <;>
      simp [Draft.passed, Draft.fill]
  rw [Emit.resolveChain, Draft.head, if_neg (by simp [hchained.unfilled])] at hok
  rw [← hstart] at h
  rw [← hstop]
  exact resolveLinks_coded hchained hhole h hok

end ScriptCompiler
