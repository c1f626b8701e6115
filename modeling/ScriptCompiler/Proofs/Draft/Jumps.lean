import ScriptCompiler.Proofs.Draft.Plain

/-!
# Jumps and their destinations

A jump is emitted with a hole of its own or joins a chain of jumps that share one.
Letting a jump lead somewhere fills its hole.
-/

namespace ScriptCompiler

open Bytes Emit

variable {hole : Hole} {k i literals functions pc : Nat} {c : Cell Hole} {op : Opcode} {b : Draft}

/-! ## Filling holes -/

namespace Draft

variable {a : Draft} {h : Hole} {t : Nat}

/-- Fill a hole. -/
def fill (a : Draft) (h : Hole) (t : Nat) : Draft :=
  { a with filled := fun hole => if hole = h then some t else a.filled hole }

theorem filled_fill_self : (a.fill h t).filled h = some t := if_pos rfl

theorem filled_fill_ne (hne : hole ≠ h) : (a.fill h t).filled hole = a.filled hole :=
  if_neg hne

/-- An open hole may be filled with a place that has been reached. -/
theorem Sound.fill (hsound : a.Sound) (hnone : a.filled h = none)
    (hold : h.Old a.main.length a.serial)
    (htarget : (∀ k i, h ≠ .literal k i) → t ≤ a.main.length)
    (hliteral : ∀ k i, h = .literal k i → t < a.literals.length)
    (hopens : ∀ o ∈ a.opens, ∀ chain, o.kind.takes chain → h ≠ .chain o.serial chain) :
    (a.fill h t).Sound := by
  refine { hsound with
    fresh := ?_, targets := ?_, literals := ?_, pending := ?_, unfilled := ?_, settled := ?_ }
  · intro hole hfresh
    have hne : hole ≠ h := by
      rintro rfl
      exact hfresh hold
    rw [filled_fill_ne hne]
    exact hsound.fresh hole hfresh
  · intro hole t' ht' hne
    by_cases heq : hole = h
    · subst heq
      rw [filled_fill_self] at ht'
      cases ht'
      exact htarget hne
    · rw [filled_fill_ne heq] at ht'
      exact hsound.targets hole t' ht' hne
  · intro k i n hn
    by_cases heq : .literal k i = h
    · subst heq
      rw [filled_fill_self] at hn
      cases hn
      exact hliteral k i rfl
    · rw [filled_fill_ne heq] at hn
      exact hsound.literals k i n hn
  · intro k c hk serial chain hmem hopen
    by_cases heq : .chain serial chain = h
    · subst heq
      rw [filled_fill_self] at hopen
      cases hopen
    · rw [filled_fill_ne heq] at hopen
      exact hsound.pending k c hk serial chain hmem hopen
  · intro o ho chain htakes
    rw [filled_fill_ne (Ne.symm (hopens o ho chain htakes))]
    exact hsound.unfilled o ho chain htakes
  · intro k c hk hlt hole hmem
    obtain ⟨t', hle, ht'⟩ := hsound.settled k c hk hlt hole hmem
    refine ⟨t', hle, ?_⟩
    rw [filled_fill_ne fun heq => ?_]
    · exact ht'
    · rw [heq, hnone] at ht'
      cases ht'

/-- Filling an open hole that is not old leaves the rest alone. -/
theorem grown_fill {n s : Nat} (hnone : a.filled h = none) (hold : ¬ h.Old n s) :
    Grown n s a (a.fill h t) := by
  refine { Grown.refl n s a with filled := ?_, kept := ?_ }
  · intro hole t' ht'
    rw [filled_fill_ne fun heq => ?_]
    · exact ht'
    · rw [heq, hnone] at ht'
      cases ht'
  · intro hole hole_old
    exact filled_fill_ne fun heq => hold (heq ▸ hole_old)

/-- The heads of other chains stay. -/
theorem head_fill (hne : hole ≠ h) : (a.fill h t).head hole = a.head hole := by
  simp only [head, filled_fill_ne hne]
  rfl

theorem head_fill_self : (a.fill h t).head h = none := by
  simp only [head, filled_fill_self, Option.isSome_some, if_true]

end Draft

/-- The statement stack sees only chains of its statements. -/
theorem Stacked.fill {s : StatementStack} {a : Draft} {h : Hole} {t : Nat} (hstacked : Stacked s a)
    (hopens : ∀ o ∈ a.opens, ∀ chain, h ≠ .chain o.serial chain) : Stacked s (a.fill h t) := by
  refine { hstacked with entries := fun i e o he ho => ?_ }
  have hstated := hstacked.entries i e o he ho
  refine { hstated with link := fun chain => ?_ }
  rw [hstated.link, Draft.head_fill (Ne.symm (hopens o (List.mem_of_getElem? ho) chain))]

/-- A hole of its own says which destination of which cell it is. -/
theorem CellOk.arm_index {j k' : Nat} (h : CellOk literals functions k c)
    (hj : c.dests[j]? = some (.arm k' i)) : k' = k ∧ j = i := by
  have hholes := h.holes
  have hcount := h.shaped.count
  cases hc : c.operands with
  | plain bytes =>
    rw [hc] at hcount
    rw [List.length_eq_zero_iff.mp hcount] at hj
    cases hj
  | jump =>
    rw [hc] at hholes
    obtain ⟨hole, hdests, hfits⟩ := hholes
    rw [hdests, List.getElem?_singleton] at hj
    split at hj
    · cases hj
      exact ⟨hfits.1, by rw [hfits.2.1]; assumption⟩
    · cases hj
  | table low high =>
    rw [hc] at hholes
    simp only [hholes, List.getElem?_map, Option.map_eq_some_iff, Hole.arm.injEq] at hj
    obtain ⟨n, hn, rfl, rfl⟩ := hj
    obtain ⟨hlt, rfl⟩ := List.getElem?_eq_some_iff.mp hn
    exact ⟨rfl, by simp⟩
  | lookup pairs =>
    rw [hc] at hholes
    simp only [hholes, List.getElem?_map, Option.map_eq_some_iff, Hole.arm.injEq] at hj
    obtain ⟨n, hn, rfl, rfl⟩ := hj
    obtain ⟨hlt, rfl⟩ := List.getElem?_eq_some_iff.mp hn
    exact ⟨rfl, by simp⟩

/-- Filling a destination of its own changes one offset of a cell. -/
theorem Cell.shown_fill_arm {a : Draft} {t : Nat}
    (hok : CellOk a.literals.length a.functions.length k c) (hmem : c.dests[i]? = some (.arm k i)) :
    c.shown (a.fill (.arm k i) t).filled a.main k = (c.shown a.filled a.main k).setDest i
      ((position a.main t : Int) - position a.main k) := by
  have hop : c.standing (a.fill (.arm k i) t).filled = c.standing a.filled := by
    simp only [Cell.standing]
    split
    · rename_i hole hdests
      rw [hdests, List.getElem?_singleton] at hmem
      split at hmem
      · cases hmem
        simp [Hole.placeholder?]
      · cases hmem
    · rfl
  have hoperands : c.operands.standing (a.fill (.arm k i) t).filled k =
      c.operands.standing a.filled k := by
    cases c.operands with
    | lookup literals => simp [Operands.standing, Draft.filled_fill_ne]
    | _ => rfl
  have hdests : c.dests.map (Hole.offset (a.fill (.arm k i) t).filled a.main k) =
      (c.dests.map (Hole.offset a.filled a.main k)).set i
        ((position a.main t : Int) - position a.main k) := by
    refine List.ext_getElem? fun j => ?_
    rw [List.getElem?_map, List.getElem?_set]
    by_cases hij : i = j
    · subst hij
      rw [if_pos rfl, List.length_map, if_pos (lt_of_getElem? hmem), hmem]
      simp only [Option.map_some, Hole.offset, Draft.filled_fill_self]
    · rw [if_neg hij, List.getElem?_map]
      cases hj : c.dests[j]? with
      | none => rfl
      | some hole =>
        have hne : hole ≠ .arm k i := by
          rintro rfl
          exact hij (hok.arm_index hj).2.symm
        simp only [Option.map_some, Hole.offset, Draft.filled_fill_ne hne]
  rw [Cell.shown, Cell.shown, Cell.setDest, hop, hoperands, hdests]

/-- Filling a destination of its own changes one cell. -/
theorem Draft.cells_fill_arm {a : Draft} (hsound : a.Sound) {t : Nat} (hk : a.main[k]? = some c)
    (hmem : c.dests[i]? = some (.arm k i)) :
    (a.fill (.arm k i) t).cells = a.cells.set k ((c.shown a.filled a.main k).setDest i
      ((position a.main t : Int) - position a.main k)) := by
  rw [← Cell.shown_fill_arm (hsound.cells k c hk) hmem]
  refine shown_set hk fun j d hj hne => ?_
  refine ⟨fun hole hole_mem => (filled_fill_ne fun heq => ?_).symm, fun i' =>
    (filled_fill_ne (by simp)).symm⟩
  subst heq
  obtain ⟨n, hn⟩ := List.mem_iff_getElem?.mp hole_mem
  exact hne ((hsound.cells j d hj).arm_index hn).1.symm

/-! ## Jumps of their own -/

/-- The draft after a jump with a hole of its own. -/
def Draft.jump (a : Draft) (op : Opcode) : Draft :=
  a.emit (.jump op (.arm a.main.length 0) a.frame)

variable {g g' : Generator} {a : Draft}

theorem CellOk.of_jump {h : Hole} (hop : op.format = .jump) (hfinal : op.spec.placeholder = false)
    (hfits : h.Fits k op) (frame : Frame) : CellOk literals functions k (.jump op h frame) where
  shaped := .of_jump hop h frame
  final := hfinal
  holes := ⟨h, rfl, hfits⟩
  literal := fun heq => absurd (hop.symm.trans heq) (by decide)
  function := fun heq => absurd (hop.symm.trans heq) (by decide)

theorem Draft.admits_jump (hop : op.format = .jump) (hfinal : op.spec.placeholder = false)
    (frame : Frame) : a.Admits (.jump op (.arm a.main.length 0) frame) where
  ok := CellOk.of_jump (h := .arm a.main.length 0) hop hfinal ⟨rfl, rfl, hfinal⟩ frame
  old := by
    intro hole hmem
    rw [List.mem_singleton.mp hmem]
    exact Nat.lt_succ_self _
  pending := fun _ _ hmem => by cases List.mem_singleton.mp hmem

/-- Only code, spans, depth and warnings of a generator change, and they fit a new draft. -/
theorem Drafted.of_emitted {c : Cell Int} (h : Drafted g a)
    (hemitted : Emitted g g' c a.settled a.cells) (hsound : b.Sound)
    (hcells : b.cells = a.cells ++ [c])
    (hdepth : b.depth = a.depth.apply c.uses c.defs c.op.spec.scratch)
    (hquiet : b.quiet → a.quiet ∧ c.uses ≤ a.depth.depth) (hmain : ∃ d, b.main = a.main ++ [d])
    (hsettled : b.settled = a.settled) (hprolog : b.prolog = a.prolog)
    (hliterals : b.literals = a.literals) (hfunctions : b.functions = a.functions)
    (hregions : b.regions = a.regions) (hstacked : Stacked g.statements b) : Drafted g' b := by
  obtain ⟨code, spans, warnings, rfl, hcodes, hspares⟩ := hemitted
  obtain ⟨hbuilt, -⟩ := h
  obtain ⟨d, hmain⟩ := hmain
  refine ⟨⟨hsound, hbuilt.main, ?_, ?_, ?_, ?_, ?_, ?_, ?_, ?_, fun h => ?_⟩, hstacked⟩
  · rw [hcells, hsettled]
    exact hcodes
  · rw [hprolog]
    exact hbuilt.prolog
  · rw [hdepth, ← hbuilt.depth]
  · rw [hliterals]
    exact hbuilt.literals
  · rw [hliterals]
    exact hbuilt.indexed
  · rw [hfunctions]
    exact hbuilt.functions
  · rw [hregions]
    exact hbuilt.closed
  · rw [hregions, hmain]
    intro i r e hr he
    have hmem := hbuilt.sound.regions e (List.mem_of_getElem? he)
    exact (hbuilt.regions i r e hr he).append hmem.1 hmem.2
  · exact hspares (hbuilt.quiet (hquiet h).1) (by rw [hbuilt.depth]; exact (hquiet h).2)

/-- A hole of the next cell is open. -/
theorem Draft.Sound.arm_open (hsound : a.Sound) (i : Nat) :
    a.filled (.arm a.main.length i) = none :=
  hsound.fresh _ (Nat.lt_irrefl _)

/-- A jump whose destination is set later. -/
theorem Drafted.beginJump (h : Drafted g a) (hok : Emit.beginJump op g = .ok pc g')
    (hop : op.format = .jump) (hfinal : op.spec.placeholder = false) :
    pc = position a.main a.main.length ∧ Drafted g' (a.jump op) := by
  obtain ⟨-, rfl, hemitted⟩ := jump_emitted h.built.code hop a.frame hok
  refine ⟨h.built.size, h.emit (Draft.admits_jump hop hfinal a.frame) ?_ ?_⟩
  · intro hole heq
    cases heq
    rfl
  · have hshown : (Cell.jump op (Hole.arm a.main.length 0) a.frame).shown a.filled
        (a.main ++ [.jump op (.arm a.main.length 0) a.frame]) a.main.length =
        .jump op 0 a.frame := by
      simp [Cell.shown, Cell.jump, Cell.standing, Operands.standing, Hole.offset, Hole.link,
        Hole.placeholder?, h.built.sound.arm_open]
    rw [hshown]
    exact hemitted

theorem spanBetween_ok {start stop : Nat} {z : Int} (hok : spanBetween start stop g = .ok z g') :
    z = (stop : Int) - start ∧ g' = g := by
  simp only [spanBetween, guard_tooLarge_ok, pure_ok] at hok
  exact ⟨hok.2.1.symm, hok.2.2.symm⟩

/-- A jump to a place that has been reached. -/
theorem Drafted.jumpTo (h : Drafted g a) {t : Nat} (ht : t ≤ a.main.length)
    (hok : Emit.jumpTo op (position a.main t) g = .ok pc g') (hop : op.format = .jump)
    (hfinal : op.spec.placeholder = false) :
    pc = position a.main a.main.length ∧
      Drafted g' ((a.jump op).fill (.arm a.main.length 0) t) := by
  simp only [Emit.jumpTo, bind_ok] at hok
  obtain ⟨n, g₁, hoffset, z, g₂, hspan, hjump⟩ := hok
  obtain ⟨rfl, rfl⟩ := h.built.offset_ok hoffset
  obtain ⟨rfl, rfl⟩ := spanBetween_ok hspan
  obtain ⟨-, rfl, hemitted⟩ := jump_emitted h.built.code hop a.frame hjump
  have hadmits : a.Admits (.jump op (.arm a.main.length 0) a.frame) :=
    Draft.admits_jump hop hfinal a.frame
  have hsound : (a.jump op).Sound := h.built.sound.emit h.built.settled_le hadmits
  have hlast : (a.jump op).main[a.main.length]? =
      some (.jump op (.arm a.main.length 0) a.frame) := Draft.getElem?_emit_last
  have hpos : ∀ j ≤ a.main.length, position (a.jump op).main j = position a.main j :=
    fun j hj => position_append hj
  have hcells : (a.jump op).cells = a.cells ++ [(Cell.jump op (.arm a.main.length 0) a.frame).shown
      a.filled (a.jump op).main a.main.length] :=
    shown_append (fun k d hk hole hmem t => h.built.sound.dest_le hk hmem)
      fun j hj => by cases hj
  refine ⟨h.built.size, h.of_emitted hemitted ?_ ?_ ?_ (fun hquiet => hquiet) ⟨_, rfl⟩ rfl rfl
    rfl rfl rfl ?_⟩
  · refine hsound.fill (h.built.sound.arm_open 0) ?_ (fun _ => ?_) (fun _ _ heq => by cases heq)
      (fun _ _ _ _ heq => by cases heq)
    · show a.main.length < (a.jump op).main.length
      rw [Draft.jump, Draft.length_emit]
      exact Nat.lt_succ_self _
    · rw [Draft.jump, Draft.length_emit]
      exact Nat.le_succ_of_le ht
  · have hlen : a.cells.length = a.main.length := length_shown
    rw [Draft.cells_fill_arm hsound hlast rfl, hcells, hpos t ht, hpos _ (Nat.le_refl _),
      List.set_append_right _ _ (Nat.le_of_eq hlen), hlen, Nat.sub_self]
    simp [Cell.setDest, Cell.shown, Cell.jump, Cell.standing, Operands.standing,
      Hole.placeholder?]
  · rfl
  · refine (h.stacked.emit h.built.sound fun _ _ heq => ?_).fill fun _ _ _ heq => ?_
    · cases heq
    · cases heq

/-! ## Setting destinations -/

/-- Only code and spans of a generator change, and they fit a draft with other holes filled. -/
theorem Drafted.of_coded {filled : Hole → Option Nat} (h : Drafted g a) (hb : b = { a with filled })
    (hcoded : Coded g g' a.settled b.cells) (hsound : b.Sound) (hstacked : Stacked g.statements b) :
    Drafted g' b := by
  obtain ⟨code, spans, rfl, hcodes⟩ := hcoded
  obtain ⟨hbuilt, -⟩ := h
  subst hb
  exact ⟨{ hbuilt with sound := hsound, code := hcodes }, hstacked⟩

/-- A cell with an open hole has not been resolved. -/
theorem Draft.Sound.settled_le_of_open (hsound : a.Sound) (hk : a.main[k]? = some c)
    (hmem : hole ∈ c.dests) (hnone : a.filled hole = none) : a.settled ≤ k := by
  rcases Nat.lt_or_ge k a.settled with hlt | hge
  · obtain ⟨t, -, ht⟩ := hsound.settled k c hk hlt hole hmem
    rw [hnone] at ht
    cases ht
  · exact hge

/-- What stands in the code for a cell. -/
theorem Draft.getElem?_cells (hk : a.main[k]? = some c) :
    a.cells[k]? = some (c.shown a.filled a.main k) := getElem?_shown hk

theorem Draft.position_cells (k : Nat) : position a.cells k = position a.main k :=
  position_shown k

variable (h : Drafted g a) (hk : a.main[k]? = some c)

include h hk

/-- Setting an offset of a cell fills its hole. -/
theorem Drafted.setOffsetAt {t : Nat} (hmem : c.dests[i]? = some (.arm k i))
    (hnone : a.filled (.arm k i) = none) (ht : t ≤ a.main.length)
    (hok : Emit.setOffsetAt (c.field (position a.main k) i)
      ((position a.main t : Int) - position a.main k) g = .ok () g') :
    Drafted g' (a.fill (.arm k i) t) := by
  have hsound := h.built.sound
  have hlt : i < c.dests.length := lt_of_getElem? hmem
  have hs : a.settled ≤ k := hsound.settled_le_of_open hk (List.mem_of_getElem? hmem) hnone
  have hk' := Draft.getElem?_cells hk
  have hform : (c.shown a.filled a.main k).form = c.form := Cell.form_shown _
  have hi : i < (c.shown a.filled a.main k).operands.arms := by
    rw [Cell.arms_congr hform, ← (hsound.cells k c hk).shaped.count]
    exact hlt
  rw [← Cell.field_congr hform, ← Draft.position_cells] at hok
  have hcoded := setOffsetAt_coded h.built.code hk' hs hi hok
  rw [Draft.position_cells, ← Draft.cells_fill_arm hsound hk hmem] at hcoded
  refine h.of_coded rfl hcoded ?_ (h.stacked.fill fun _ _ _ heq => by cases heq)
  refine hsound.fill hnone ?_ (fun _ => ht) (fun _ _ heq => by cases heq)
    (fun _ _ _ _ heq => by cases heq)
  exact hsound.used k c hk _ (List.mem_of_getElem? hmem)

/-- Setting the offset of a jump fills its hole. -/
theorem Drafted.setJumpOffset {t : Nat} (hmem : c.dests[0]? = some (.arm k 0))
    (hnone : a.filled (.arm k 0) = none) (ht : t ≤ a.main.length)
    (hok : Emit.setJumpOffset (position a.main k)
      ((position a.main t : Int) - position a.main k) g = .ok () g') :
    Drafted g' (a.fill (.arm k 0) t) := by
  simp only [Emit.setJumpOffset, bind_ok] at hok
  obtain ⟨field, g₁, hfield, hok⟩ := hok
  obtain ⟨rfl, rfl⟩ := fieldOf_ok hfield
  exact h.setOffsetAt hk hmem hnone ht hok

/-- A jump is let lead to the next cell. -/
theorem Drafted.landHere (hmem : c.dests[0]? = some (.arm k 0)) (hnone : a.filled (.arm k 0) = none)
    (hok : Emit.landHere (position a.main k) g = .ok () g') :
    Drafted g' (a.fill (.arm k 0) a.main.length) := by
  simp only [Emit.landHere, bind_ok] at hok
  obtain ⟨n, g₁, hoffset, z, g₂, hspan, hset⟩ := hok
  obtain ⟨rfl, rfl⟩ := h.built.offset_ok hoffset
  obtain ⟨rfl, rfl⟩ := spanBetween_ok hspan
  exact h.setJumpOffset hk hmem hnone (Nat.le_refl _) hset

end ScriptCompiler
