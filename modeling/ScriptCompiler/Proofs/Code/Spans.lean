import ScriptCompiler.Proofs.Code.Views

/-!
# Building the table of spans

Offsets go from the code into the table one field after the other. Going over
all recent cells moves all of their offsets and changes none of them.
-/

namespace ScriptCompiler

open Bytes SpanTable

namespace Emit

variable {g g' : Generator}

/-- A new span that is given its destination at once. -/
theorem modify_push (spans : Array Span) (span : Span) (f : Span → Span) :
    (spans.push span).modify spans.size f = spans.push (f span) := by
  apply Array.ext_getElem?
  intro i
  rw [Array.getElem?_modify, Array.getElem?_push, Array.getElem?_push]
  by_cases hi : i = spans.size
  · simp [hi]
  · simp [hi, Ne.symm hi]

/-- A span goes into the table with the offset given. -/
theorem addSpan_ok {top field : Nat} {z : Int} (hs : g.spans.targets.Sound)
    (h : addSpan top field z g = .ok () g') :
    ∃ destination spans', g.spans.Grows spans' ∧
      spans'.spans = g.spans.spans.push ⟨top, field, destination⟩ ∧
      spans'.Known destination ∧ spans'.offsetOf ⟨top, field, destination⟩ = z ∧
      g' = { g with
        main := { g.main with
          code := Bytes.setU16 g.main.code field (mark g.spans.spans.size) }
        spans := spans' } := by
  simp only [addSpan, get_bind, modify_bind, lift_bind_ok] at h
  obtain ⟨byte, -, op, -, h⟩ := h
  have hpush : g.spans.Grows (g.spans.push top field) := grows_spans hs _
  split at h
  · -- a placeholder keeps the distance to the link before it
    simp only [guard_tooLarge_ok, guard_inconsistent_ok, modify_bind, Int.not_lt] at h
    obtain ⟨-, hpos, h⟩ := h
    obtain ⟨-, rfl⟩ := setMainU16_ok h
    refine ⟨.link z.toNat, _, ?_, ?_, trivial, ?_, rfl⟩
    · exact hpush.trans (grows_spans hpush.sound _)
    · simp only [setDestination, push]
      rw [modify_push]
    · simp only [offsetOf]
      omega
  · split at h
    · rename_i hne
      simp only [bind_ok] at h
      obtain ⟨_, g₁, htarget, h⟩ := h
      obtain ⟨hpos, rfl⟩ := setSpanTarget_ok htarget
      obtain ⟨-, rfl⟩ := setMainU16_ok h
      obtain ⟨entry, hspans, hknown, hoffset⟩ :=
        setTarget_entry hpush.sound g.spans.spans.size ((top : Int) + z).toNat
      refine ⟨.target entry, _, ?_, ?_, hknown, ?_, rfl⟩
      · exact hpush.trans (grows_setTarget hpush.sound _ _)
      · rw [hspans, push, modify_push]
      · rw [hoffset]
        omega
    · rename_i hz
      obtain ⟨-, rfl⟩ := setMainU16_ok h
      refine ⟨.unset, _, hpush, rfl, trivial, ?_, rfl⟩
      simp only [offsetOf]
      omega

/-- Only code and spans differ, and they stand for cells. -/
def Recoded (g g' : Generator) (limit settled : Nat) (cells : List (Cell Int)) : Prop :=
  ∃ code spans, g' = { g with main := { g.main with code }, spans } ∧ g.spans.Grows spans ∧
    Layered code spans limit settled cells

theorem Recoded.layered {limit settled : Nat} {cells : List (Cell Int)}
    (h : Recoded g g' limit settled cells) :
    Layered g'.main.code g'.spans limit settled cells := by
  obtain ⟨code, spans, rfl, -, hl⟩ := h
  exact hl

theorem Recoded.trans {g'' : Generator} {limit limit' settled settled' : Nat}
    {cells cells' : List (Cell Int)} (h : Recoded g g' limit settled cells)
    (h' : Recoded g' g'' limit' settled' cells') : Recoded g g'' limit' settled' cells' := by
  obtain ⟨code, spans, rfl, hgrows, -⟩ := h
  obtain ⟨code', spans', rfl, hgrows', hl⟩ := h'
  exact ⟨code', spans', rfl, hgrows.trans hgrows', hl⟩

section Recording

variable {limit settled k i : Nat} {cells : List (Cell Int)} {c : Cell Int}

variable (h : Layered g.main.code g.spans limit settled cells)

include h

section

variable (hf : Frontier cells limit k i) (hk : cells[k]? = some c) (hs : settled ≤ k)

include hf hk hs

/-- The next span goes into the table. -/
theorem addSpan_recoded (hi : i < c.operands.arms) {z : Int}
    (hok : addSpan (position cells k) (c.field (position cells k) i) z g = .ok () g') :
    Recoded g g' (c.field (position cells k) i + 1) settled (cells.set k (c.setDest i z)) := by
  obtain ⟨destination, spans, hgrows, hpush, hknown, hoffset, rfl⟩ := addSpan_ok h.sound hok
  exact ⟨_, spans, rfl, hgrows, h.record hk hs hi hf hgrows hpush hknown hoffset⟩

/-- An offset that is not in the table yet stands in the code. -/
theorem direct_of_frontier {z : Int} (hz : c.dests[i]? = some z) :
    Direct g.main.code false (c.field (position cells k) i) z := by
  have hstands := h.stands k c hk
  have hi : i < c.operands.arms := by
    rw [← hstands.shaped.count]
    exact lt_of_getElem? hz
  have hlimit := hf k c i hk hi
  have hoffset := hstands.offsets i z hz
  rw [OffsetAt, if_neg (by omega), h.narrow k c hk hs] at hoffset
  exact hoffset

/-- The next offset goes into the table as it is. -/
theorem addNext_recoded (hi : i < c.operands.arms)
    (hok : addSpan (position cells k) (c.field (position cells k) i) (c.dests.getD i 0) g =
      .ok () g') : Recoded g g' (c.field (position cells k) i + 1) settled cells := by
  have hlt : i < c.dests.length := by rwa [(h.stands k c hk).shaped.count]
  have hrecoded := addSpan_recoded h hf hk hs hi hok
  rw [List.getD_eq_getElem?_getD, List.getElem?_eq_getElem hlt, Option.getD_some, Cell.setDest,
    List.set_getElem_self] at hrecoded
  rwa [set_of_getElem? hk] at hrecoded

/-- The next offset is read from the code. -/
theorem readNext (hi : i < c.operands.arms) :
    Bytes.i16? g.main.code (c.field (position cells k) i) = some (c.dests.getD i 0) := by
  have hlt : i < c.dests.length := by rwa [(h.stands k c hk).shaped.count]
  have hdirect := direct_of_frontier h hf hk hs (List.getElem?_eq_getElem hlt)
  rw [List.getD_eq_getElem?_getD, List.getElem?_eq_getElem hlt, Option.getD_some]
  exact hdirect.holds.i16? hdirect.fits

end

/-- The opcode of a recent cell is the narrow one. -/
theorem opcode_of_recent (hk : cells[k]? = some c) (hs : settled ≤ k) :
    g.main.code[position cells k]? = some c.op.toByte := by
  have hop := (h.stands k c hk).opcode
  rw [Cell.opcode, h.narrow k c hk hs] at hop
  exact hop

/-! ### What is entered -/

/-- The offsets of a cell from one on are entered. -/
theorem enterArms_recoded {count : Nat} (hf : Frontier cells limit k i) (hk : cells[k]? = some c)
    (hs : settled ≤ k) (hcount : i + count = c.operands.arms)
    (hok : enterOffsets ((List.range' i count).map fun j =>
      (position cells k, c.field (position cells k) j)) g = .ok () g') :
    ∃ limit', Recoded g g' limit' settled cells ∧ Frontier cells limit' (k + 1) 0 := by
  induction count generalizing g i limit with
  | zero =>
    obtain ⟨-, rfl⟩ := pure_ok.mp hok
    exact ⟨limit, ⟨_, _, rfl, .refl h.sound, h⟩, hf.next hk (by omega)⟩
  | succ count ih =>
    rw [List.range'_succ, List.map_cons, enterOffsets, mainI16_bind (readNext h hf hk hs (by omega)),
      bind_ok] at hok
    obtain ⟨_, g₁, hadd, hok⟩ := hok
    have hrecoded := addNext_recoded h hf hk hs (by omega) hadd
    obtain ⟨limit', hrecoded', hfrontier⟩ :=
      ih hrecoded.layered (frontier_field hk (by omega)) (by omega) hok
    exact ⟨limit', hrecoded.trans hrecoded', hfrontier⟩

/-- The offsets of all cells from one on are entered. -/
theorem enterCells_recoded {rest : List (Cell Int)} (hf : Frontier cells limit k 0)
    (hs : settled ≤ k) (hkl : k ≤ cells.length) (hrest : cells.drop k = rest)
    (hok : enterOffsets (fieldsFrom (position cells k) rest) g = .ok () g') :
    ∃ limit', Recoded g g' limit' settled cells ∧ Frontier cells limit' cells.length 0 := by
  induction rest generalizing g k limit with
  | nil =>
    obtain ⟨-, rfl⟩ := pure_ok.mp hok
    have hk : k = cells.length := Nat.le_antisymm hkl (List.drop_eq_nil_iff.mp hrest)
    exact ⟨limit, ⟨_, _, rfl, .refl h.sound, h⟩, hk ▸ hf⟩
  | cons c rest ih =>
    have hk : cells[k]? = some c := by rw [← List.head?_drop, hrest]; rfl
    rw [fieldsFrom, enterOffsets_append, List.range_eq_range', bind_ok] at hok
    obtain ⟨_, g₁, harms, hok⟩ := hok
    obtain ⟨limit₁, hrecoded, hfrontier⟩ :=
      enterArms_recoded h hf hk hs (Nat.zero_add _) harms
    rw [← position_succ hk] at hok
    obtain ⟨limit', hrecoded', hfrontier'⟩ := ih hrecoded.layered hfrontier (by omega)
      (lt_of_getElem? hk) (by rw [← List.drop_drop, hrest]; rfl) hok
    exact ⟨limit', hrecoded.trans hrecoded', hfrontier'⟩

theorem addSwitch_recoded {next : Nat} (hf : Frontier cells limit k 0) (hk : cells[k]? = some c)
    (hs : settled ≤ k) (hswitch : c.op.format.isSwitch)
    (hok : addSwitch (position cells k) g = .ok next g') :
    ∃ limit', Recoded g g' limit' settled cells ∧ Frontier cells limit' (k + 1) 0 := by
  have hstands := h.stands k c hk
  have hnarrow := h.narrow k c hk hs
  have hne : c.operands.arms ≠ 0 := by
    cases hc : c.operands with
    | plain bytes =>
      obtain ⟨width, hjump⟩ := Format.jumpLen_of_isSwitch hswitch
      rw [(hstands.shaped.fits_plain hc).1] at hjump
      cases hjump
    | _ => simp [Operands.arms]
  have hjump := hstands.shaped.jumpLen hne
  rw [Cell.width, hnarrow] at hjump
  have hswitch' : c.opcode.format.isSwitch := by rwa [Cell.opcode, hnarrow]
  obtain ⟨hop, hlen⟩ := hstands.shaped.instructionLength? hstands.opcode hstands.raws
    (by rw [h.size]; exact position_add_size hk (lt_of_getElem? hk))
  have heq := addSwitch_eq (i := c.view (position cells k)) hop hlen hjump hswitch'
  rw [hstands.shaped.view_fields, List.map_map, List.range_eq_range'] at heq
  have hok := heq.symm.trans hok
  simp only [bind_ok, pure_ok] at hok
  obtain ⟨_, _, harms, -, rfl⟩ := hok
  exact enterArms_recoded h hf hk hs (Nat.zero_add _) harms

end Recording

/-- Turning the table on enters all recent offsets. -/
theorem buildSpans_eq {settled : Nat} {cells : List (Cell Int)}
    (h : Codes g.main.code g.spans settled cells) (hoff : g.spans.active = false) :
    Layered g.main.code { g.spans with active := true } (position cells settled) settled cells ∧
      buildSpans g = enterOffsets (fieldsFrom (position cells settled) (cells.drop settled))
        { g with spans := { g.spans with active := true } } := by
  have hoffsets := buildSpans_offsets (whole_recent h)
  rw [Codes, hoff] at h
  have hcells : ∀ c ∈ cells.drop settled, c.Shaped ∧ c.wide = false := by
    intro c hc
    obtain ⟨k, hk⟩ := List.mem_iff_getElem?.mp hc
    rw [List.getElem?_drop] at hk
    exact ⟨(h.stands _ c hk).shaped, h.narrow _ c hk (Nat.le_add_right _ _)⟩
  refine ⟨(h.withActive true).raise fun p _ htodo => ?_, ?_⟩
  · have htodo : g.spans.todo ≤ p.2 := htodo
    have := h.todo
    simp only [Bool.false_eq_true, if_false]
    omega
  · rw [hoffsets, offsetPairs_narrowJumps, offsetPairs, flatMap_views fun c hc => (hcells c hc).1]
    intro i hi
    obtain ⟨k, c, hk, rfl⟩ := mem_views.mp hi
    obtain ⟨hshaped, hwide⟩ := hcells c (List.mem_of_getElem? hk)
    exact hshaped.isWide_eq_false hwide

/-- Turning the table on changes no offset. -/
theorem buildSpans_codes {settled : Nat} {cells : List (Cell Int)}
    (h : Codes g.main.code g.spans settled cells) (hoff : g.spans.active = false)
    (hok : buildSpans g = .ok () g') :
    ∃ code spans, g' = { g with main := { g.main with code }, spans } ∧ spans.active ∧
      Codes code spans settled cells := by
  obtain ⟨hstart, heq⟩ := buildSpans_eq h hoff
  rw [heq] at hok
  obtain ⟨limit, ⟨code, spans, rfl, hgrows, hl⟩, hfrontier⟩ := enterCells_recoded
    (g := { g with spans := { g.spans with active := true } }) hstart
    (frontier_position cells settled) (Nat.le_refl _) hstart.settled_le rfl hok
  have hactive : spans.active := hgrows.active
  refine ⟨code, spans, rfl, hactive, ?_⟩
  rw [Codes, hactive, if_pos rfl]
  refine hl.raise_frontier hfrontier ?_
  rw [hl.size]
  exact frontier_position cells cells.length

end Emit

end ScriptCompiler
