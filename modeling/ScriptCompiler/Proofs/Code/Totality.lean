import ScriptCompiler.Proofs.Code.Offsets

/-!
# Offsets can always be read and set

Code and spans that stand for cells never run into a failed check. The table can
be turned on whenever every offset leads to a place in the code, or, for a
placeholder, back to a link before it. Offsets can be read at any time, and each
may be set to anything that leads to a place in the code and fits 32 bits.
-/

namespace ScriptCompiler

open Bytes

variable {z : Int} {pc top : Nat} {g' : Generator}

/-- What an offset of an instruction at `pc` may be: a placeholder counts back to the link before
it, anything else leads to a place in the code. -/
def Admits (op : Opcode) (pc : Nat) (z : Int) : Prop :=
  if op.spec.placeholder then 0 ≤ z else 0 ≤ (pc : Int) + z

instance (op : Opcode) (pc : Nat) (z : Int) : Decidable (Admits op pc z) :=
  inferInstanceAs (Decidable (if op.spec.placeholder then 0 ≤ z else 0 ≤ (pc : Int) + z))

/-- The offsets of all recent cells are what they may be. -/
def Admitted (settled : Nat) (cells : List (Cell Int)) : Prop :=
  ∀ (k : Nat) (c : Cell Int), settled ≤ k → cells[k]? = some c → ∀ z ∈ c.dests,
    Admits c.op (position cells k) z

/-- What fits a narrow field fits a wide one. -/
theorem fits32_of_fits16 (h : fits16 z) : fits32 z := by
  simp only [fits16, fits32, Bool.and_eq_true, decide_eq_true_eq] at h ⊢
  omega

namespace Emit

variable {g : Generator} {limit settled k i : Nat} {cells : List (Cell Int)} {c : Cell Int}

/-! ## Entering spans -/

theorem setMainU16_total {position : Nat} (value : Nat) (h : position + 2 ≤ g.main.code.size) :
    setMainU16 position value g = .ok ()
      { g with main := { g.main with code := Bytes.setU16 g.main.code position value } } := by
  simp only [setMainU16, get_bind, guard_outOfBounds_ok, modify_ok, and_true]
  omega

theorem setSpanTarget_total {index : Nat} (hfits : fits32 z) (hpos : 0 ≤ (top : Int) + z) :
    setSpanTarget index top z g = .ok ()
      { g with spans := g.spans.setTarget index ((top : Int) + z).toNat } := by
  simp only [setSpanTarget, guard_tooLarge_ok, modify_ok, hfits, and_true]
  simpa using hpos

/-- A span goes into the table if its offset is what it may be. -/
theorem addSpan_total (field : Nat) {op : Opcode} (hop : g.main.code[top]? = some op.toByte)
    (hin : field + 2 ≤ g.main.code.size) (hfits : fits32 z) (hadmits : Admits op top z) :
    ∃ g', addSpan top field z g = .ok () g' := by
  have hbyte : Error.inBounds g.main.code[top]? = .ok op.toByte := by rw [hop]; rfl
  have hread : Error.orInconsistent .unknownJumpOpcode (Opcode.ofByte? op.toByte) = .ok op := by
    rw [Opcode.ofByte?_toByte]
    rfl
  simp only [addSpan, get_bind, modify_bind, lift_bind_ok]
  rw [Admits] at hadmits
  cases hplaceholder : op.spec.placeholder with
  | true =>
    have hlimit : ¬linkLimit < z := by
      simp only [fits32, Bool.and_eq_true, decide_eq_true_eq] at hfits
      simp only [linkLimit]
      omega
    rw [if_pos hplaceholder] at hadmits
    apply Exists.intro
    refine ⟨op.toByte, hbyte, op, hread, ?_⟩
    rw [if_pos hplaceholder]
    simp only [guard_tooLarge_ok, guard_inconsistent_ok, modify_bind]
    exact ⟨hlimit, Int.not_lt.mpr hadmits, setMainU16_total _ hin⟩
  | false =>
    rw [if_neg (by simp [hplaceholder])] at hadmits
    by_cases hz : z = 0
    · apply Exists.intro
      refine ⟨op.toByte, hbyte, op, hread, ?_⟩
      rw [if_neg (by simp [hplaceholder]), if_neg (by simp [hz])]
      exact setMainU16_total _ hin
    · apply Exists.intro
      refine ⟨op.toByte, hbyte, op, hread, ?_⟩
      rw [if_neg (by simp [hplaceholder]), if_pos hz, bind_ok]
      exact ⟨(), _, setSpanTarget_total hfits hadmits, setMainU16_total _ hin⟩

/-- The next offset of a recent cell can be entered. -/
theorem addNext_total (h : Layered g.main.code g.spans limit settled cells)
    (hf : Frontier cells limit k i) (hk : cells[k]? = some c) (hs : settled ≤ k)
    (hi : i < c.operands.arms) (hadmitted : Admitted settled cells) :
    ∃ g', addSpan (position cells k) (c.field (position cells k) i) (c.dests.getD i 0) g =
      .ok () g' := by
  have hlt : i < c.dests.length := by rwa [(h.stands k c hk).shaped.count]
  have hdirect := direct_of_frontier h hf hk hs (List.getElem?_eq_getElem hlt)
  have hin := c.field_bounds (position cells k) hi
  have hend := position_add_size hk (lt_of_getElem? hk)
  have hwidth := offsetWidth_pos c.wide
  rw [← h.size] at hend
  rw [Cell.width] at hin
  rw [List.getD_eq_getElem?_getD, List.getElem?_eq_getElem hlt, Option.getD_some]
  exact addSpan_total (c.field (position cells k) i) (opcode_of_recent h hk hs) (by omega)
    (fits32_of_fits16 hdirect.fits) (hadmitted k c hs hk _ (List.getElem_mem hlt))

theorem enterArms_total (count : Nat) (h : Layered g.main.code g.spans limit settled cells)
    (hf : Frontier cells limit k i) (hk : cells[k]? = some c) (hs : settled ≤ k)
    (hcount : i + count = c.operands.arms) (hadmitted : Admitted settled cells) :
    ∃ g', enterOffsets ((List.range' i count).map fun j =>
      (position cells k, c.field (position cells k) j)) g = .ok () g' := by
  induction count generalizing g i limit with
  | zero => exact ⟨g, rfl⟩
  | succ count ih =>
    obtain ⟨g₁, hadd⟩ := addNext_total h hf hk hs (by omega) hadmitted
    have hrecoded := addNext_recoded h hf hk hs (by omega) hadd
    obtain ⟨g', hrest⟩ := ih hrecoded.layered (frontier_field hk (by omega)) (by omega)
    rw [List.range'_succ, List.map_cons, enterOffsets, mainI16_bind (readNext h hf hk hs (by omega))]
    exact ⟨g', bind_ok.mpr ⟨(), g₁, hadd, hrest⟩⟩

theorem enterCells_total (rest : List (Cell Int))
    (h : Layered g.main.code g.spans limit settled cells) (hf : Frontier cells limit k 0)
    (hs : settled ≤ k) (hrest : cells.drop k = rest) (hadmitted : Admitted settled cells) :
    ∃ g', enterOffsets (fieldsFrom (position cells k) rest) g = .ok () g' := by
  induction rest generalizing g k limit with
  | nil => exact ⟨g, rfl⟩
  | cons c rest ih =>
    have hk : cells[k]? = some c := by rw [← List.head?_drop, hrest]; rfl
    obtain ⟨g₁, harms⟩ := enterArms_total c.operands.arms h hf hk hs (Nat.zero_add _) hadmitted
    obtain ⟨limit₁, hrecoded, hfrontier⟩ :=
      enterArms_recoded h hf hk hs (Nat.zero_add _) harms
    obtain ⟨g', hcells⟩ := ih hrecoded.layered hfrontier (by omega)
      (by rw [← List.drop_drop, hrest]; rfl)
    rw [position_succ hk] at hcells
    rw [fieldsFrom, enterOffsets_append, List.range_eq_range']
    exact ⟨g', bind_ok.mpr ⟨(), g₁, harms, hcells⟩⟩

/-- The table can be turned on. -/
theorem buildSpans_total (h : Codes g.main.code g.spans settled cells)
    (hoff : g.spans.active = false) (hadmitted : Admitted settled cells) :
    ∃ g', buildSpans g = .ok () g' := by
  obtain ⟨hstart, heq⟩ := buildSpans_eq h hoff
  rw [heq]
  exact enterCells_total (g := { g with spans := { g.spans with active := true } }) _ hstart
    (frontier_position cells settled) (Nat.le_refl _) rfl hadmitted

/-! ## Setting -/

/-- Every recent offset can be set to what leads to a place in the code. -/
theorem setOffsetAt_total (h : Codes g.main.code g.spans settled cells) (hk : cells[k]? = some c)
    (hs : settled ≤ k) (hi : i < c.operands.arms) (hadmitted : Admitted settled cells)
    (hfits : fits32 z) (hpos : 0 ≤ (position cells k : Int) + z) :
    ∃ g', setOffsetAt (c.field (position cells k) i) z g = .ok () g' := by
  have hlt : i < c.dests.length := by rwa [(h.stands k c hk).shaped.count]
  have hz : c.dests[i]? = some c.dests[i] := List.getElem?_eq_getElem hlt
  have hactive : ∀ {g₁ : Generator}, Codes g₁.main.code g₁.spans settled cells →
      g₁.spans.active → ∃ g', ((locateSpan (c.field (position cells k) i)) >>= fun r =>
        setSpanTarget r.1 r.2.top z) g₁ = .ok () g' := by
    intro g₁ h₁ hon
    obtain ⟨index, _, hlocate, -, -, destination, rfl⟩ := locateSpan_eq h₁ hon hk hs hz
    exact ⟨_, bind_ok.mpr ⟨_, g₁, hlocate, setSpanTarget_total hfits hpos⟩⟩
  simp only [setOffsetAt, get_bind]
  cases hon : g.spans.active with
  | true =>
    rw [if_neg (by simp)]
    exact hactive h hon
  | false =>
    rw [if_pos (by simp)]
    by_cases hnarrow : fits16 z = true
    · have hin := c.field_bounds (position cells k) hi
      have hend := position_add_size hk (lt_of_getElem? hk)
      have hwidth := offsetWidth_pos c.wide
      rw [← h.size] at hend
      rw [Cell.width] at hin
      apply Exists.intro
      rw [if_pos hnarrow, bind_ok]
      exact ⟨(), _, setMainU16_total _ (by omega), rfl⟩
    · obtain ⟨g₁, hbuild⟩ := buildSpans_total h hon hadmitted
      obtain ⟨code, spans, hg₁, hon', hcodes⟩ := buildSpans_codes h hon hbuild
      have hcodes₁ : Codes g₁.main.code g₁.spans settled cells := by rw [hg₁]; exact hcodes
      obtain ⟨g', hset⟩ := hactive hcodes₁ (by rw [hg₁]; exact hon')
      refine ⟨g', ?_⟩
      rw [if_neg hnarrow, bind_ok]
      exact ⟨(), _, hbuild, hset⟩

theorem fieldOf_total (h : pc + 1 < 18446744073709551616) : fieldOf pc g = .ok (pc + 1) g := by
  simp only [fieldOf, guard_throw_ok, pure_ok, and_self, and_true]
  omega

theorem jumpOffset_iff (h : pc + 1 < 18446744073709551616) :
    jumpOffset pc g = .ok z g' ↔ offsetAt (pc + 1) g = .ok z g' := by
  simp only [jumpOffset, bind_ok]
  constructor
  · rintro ⟨field, g₁, hfield, hok⟩
    obtain ⟨rfl, rfl⟩ := fieldOf_ok hfield
    exact hok
  · exact fun hok => ⟨pc + 1, g, fieldOf_total h, hok⟩

theorem setJumpOffset_iff (h : pc + 1 < 18446744073709551616) :
    setJumpOffset pc z g = .ok () g' ↔ setOffsetAt (pc + 1) z g = .ok () g' := by
  simp only [setJumpOffset, bind_ok]
  constructor
  · rintro ⟨field, g₁, hfield, hok⟩
    obtain ⟨rfl, rfl⟩ := fieldOf_ok hfield
    exact hok
  · exact fun hok => ⟨pc + 1, g, fieldOf_total h, hok⟩

end Emit

end ScriptCompiler
