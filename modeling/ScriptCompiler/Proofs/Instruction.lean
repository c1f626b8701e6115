import ScriptCompiler.Instruction
import Mathlib.Data.List.Basic

/-!
# Whole instructions and their jump offsets

`Whole` says that instructions stand one behind the other up to the end of the
code. The walk over a byte string finds exactly these. The offsets of a jump or
switch lie at positions that follow from its opcode and its length. What is read
of an instruction is in its own bytes, so code in front or behind changes nothing.
-/

namespace ScriptCompiler

variable {width length : Nat} {is : List Instruction} {i : Instruction}

/-! ## Lengths -/

/-- The instruction of an opcode without jump offsets has the length of its description. -/
theorem Opcode.length_of_jumpLen_none {op : Opcode} (h : op.format.jumpLen = none) :
    ∃ length, op.spec.length = some length ∧ 1 ≤ length := by
  cases op <;> first | exact ⟨_, rfl, by decide⟩ | cases h

/-- A jump is its opcode and one offset. -/
theorem Opcode.length_of_jump {op : Opcode} (h : op.format.jumpLen = some width)
    (hs : op.format.isSwitch = false) : op.spec.length = some (1 + width) := by
  cases op <;> first | (cases hs; done) | (cases h; rfl) | cases h

/-- The length of a switch is in its operands. -/
theorem Opcode.length_of_switch {op : Opcode} (hs : op.format.isSwitch) :
    op.spec.length = none := by
  cases op <;> first | rfl | cases hs

/-- Switches hold jump offsets. -/
theorem Format.jumpLen_of_isSwitch {format : Format} (h : format.isSwitch) :
    ∃ width, format.jumpLen = some width := by
  cases format <;> first | exact ⟨_, rfl⟩ | cases h

/-- Offsets are two or four bytes wide. -/
theorem Format.jumpLen_eq {format : Format} (h : format.jumpLen = some width) :
    width = 2 ∨ width = 4 := by
  cases format <;> simp [jumpLen] at h <;> omega

/-- The wide twin has the operands of the narrow form. -/
theorem Opcode.widened_format {op twin : Opcode} (h : op.widened = some twin) :
    op.format.jumpLen = some 2 ∧ twin.format.jumpLen = some 4 ∧
      twin.format.isSwitch = op.format.isSwitch ∧ twin.format.isTable = op.format.isTable := by
  cases op <;> simp only [Opcode.widened, Option.some.injEq, reduceCtorEq] at h <;> subst h <;>
    exact ⟨rfl, rfl, rfl, rfl⟩

theorem Opcode.widened_eq_none {op : Opcode} (h : op.format.jumpLen = none) : op.widened = none := by
  cases hwid : op.widened with
  | none => rfl
  | some twin =>
    rw [(Opcode.widened_format hwid).1] at h
    cases h

section Length

variable {code : Bytes} {pc : Nat} {op : Opcode}

/-- The length of a whole instruction is that of its description or the one in its operands. -/
theorem instructionLength?_eq_some (hop : opcodeAt? code pc = some op) :
    instructionLength? code pc = some length ↔ pc + length ≤ code.size ∧
      (op.format.isSwitch = false ∧ op.spec.length = some length ∨
        op.format.isSwitch ∧ ∃ width, op.format.jumpLen = some width ∧
          switchLength? code pc width op.format.isTable = some length) := by
  have hfit : ∀ l, (if pc + l ≤ code.size then some l else none) = some length ↔
      pc + length ≤ code.size ∧ l = length := by
    intro l
    split
    · rename_i hle
      constructor
      · rintro ⟨⟩
        exact ⟨hle, rfl⟩
      · rintro ⟨-, rfl⟩
        rfl
    · rename_i hle
      constructor
      · intro h
        cases h
      · rintro ⟨h, rfl⟩
        exact absurd h hle
  cases hs : op.format.isSwitch with
  | false =>
    have hlen : ∃ length, op.spec.length = some length := by
      cases hw : op.format.jumpLen with
      | none =>
        obtain ⟨l, hl, -⟩ := Opcode.length_of_jumpLen_none hw
        exact ⟨l, hl⟩
      | some width => exact ⟨_, Opcode.length_of_jump hw hs⟩
    obtain ⟨l, hl⟩ := hlen
    simp [instructionLength?, hop, hl, hfit]
  | true =>
    obtain ⟨width, hw⟩ := Format.jumpLen_of_isSwitch hs
    simp only [instructionLength?, hop, Opcode.length_of_switch hs, hw, Option.bind_eq_bind,
      Option.bind_some, Option.bind_eq_some_iff, hfit]
    constructor
    · rintro ⟨l, hl, hle, rfl⟩
      exact ⟨hle, .inr ⟨trivial, width, rfl, hl⟩⟩
    · rintro ⟨hle, ⟨h, -⟩ | ⟨-, w, hw', hl⟩⟩
      · cases h
      · cases hw'
        exact ⟨length, hl, hle, rfl⟩

/-- A table switch has its default, the bounds and one offset for each key. -/
theorem switchLength?_table (h : switchLength? code pc width true = some length) :
    ∃ low high, Bytes.i16? code (pc + (1 + width)) = some low ∧
      Bytes.i16? code (pc + (1 + width) + 2) = some high ∧
      length = width + 5 + width * keyCount low high := by
  simp only [switchLength?, Option.bind_eq_bind, Option.bind_eq_some_iff, if_true,
    Option.pure_def, Option.some.injEq] at h
  obtain ⟨low, hlow, high, hhigh, rfl⟩ := h
  refine ⟨low, high, hlow, hhigh, ?_⟩
  rw [Nat.mul_comm (keyCount low high)]
  omega

/-- A lookup switch has its default, the count and the pairs. -/
theorem switchLength?_lookup (h : switchLength? code pc width false = some length) :
    ∃ pairs, Bytes.u16? code (pc + (1 + width)) = some pairs ∧
      length = width + 3 + (width + 2) * pairs := by
  simp only [switchLength?, Option.bind_eq_bind, Option.bind_eq_some_iff, Bool.false_eq_true,
    if_false, Option.pure_def, Option.some.injEq] at h
  obtain ⟨pairs, hpairs, rfl⟩ := h
  refine ⟨pairs, hpairs, ?_⟩
  rw [Nat.mul_comm pairs, Nat.add_comm 2 width]
  omega

/-- Every instruction takes at least one byte. -/
theorem instructionLength?_pos (hop : opcodeAt? code pc = some op)
    (h : instructionLength? code pc = some length) : 1 ≤ length := by
  obtain ⟨-, ⟨hs, hlen⟩ | ⟨-, width, -, hlen⟩⟩ := (instructionLength?_eq_some hop).mp h
  · cases hw : op.format.jumpLen with
    | none =>
      obtain ⟨l, hl, hpos⟩ := Opcode.length_of_jumpLen_none hw
      rw [hl] at hlen
      cases hlen
      exact hpos
    | some width =>
      rw [Opcode.length_of_jump hw hs] at hlen
      cases hlen
      omega
  · cases ht : op.format.isTable with
    | true =>
      rw [ht] at hlen
      obtain ⟨_, _, _, _, rfl⟩ := switchLength?_table hlen
      omega
    | false =>
      rw [ht] at hlen
      obtain ⟨_, _, rfl⟩ := switchLength?_lookup hlen
      omega

end Length

/-! ## Code made of whole instructions -/

/-- Whole instructions stand one behind the other from an offset up to the end of the code. -/
def Whole (code : Bytes) : Nat → List Instruction → Prop
  | pc, [] => pc = code.size
  | pc, i :: is => i.pc = pc ∧ opcodeAt? code pc = some i.op ∧
      instructionLength? code pc = some i.length ∧ Whole code (pc + i.length) is

/-- The walk finds the whole instructions. -/
theorem instructionsFrom_of_whole {code : Bytes} {pc : Nat} (h : Whole code pc is)
    (found : List Instruction) {fuel : Nat} (hfuel : code.size ≤ pc + fuel) :
    instructionsFrom code found pc fuel = found.reverse ++ is := by
  induction is generalizing pc found fuel with
  | nil =>
    -- no instruction starts at the end of the code
    have hend : opcodeAt? code pc = none := by
      have hnone : code[pc]? = none := Array.getElem?_eq_none (Nat.le_of_eq h.symm)
      simp [opcodeAt?, hnone]
    cases fuel with
    | zero => simp [instructionsFrom]
    | succ fuel => simp [instructionsFrom, hend]
  | cons i is ih =>
    obtain ⟨hpc, hop, hlen, hrest⟩ := h
    have hsize := ((instructionLength?_eq_some hop).mp hlen).1
    have hpos := instructionLength?_pos hop hlen
    cases fuel with
    | zero => omega
    | succ fuel =>
      simp only [instructionsFrom, hop, hlen]
      rw [ih hrest _ (by omega)]
      subst hpc
      simp

/-- Code that is made of whole instructions is covered by the walk over it. -/
theorem instructions_of_whole {code : Bytes} (h : Whole code 0 is) : instructions code = is := by
  rw [instructions, instructionsFrom_of_whole h [] (by omega)]
  rfl

/-- Every instruction of a run is whole and lies inside the code. -/
theorem Whole.bounds {code : Bytes} {pc : Nat} (h : Whole code pc is) :
    pc ≤ code.size ∧ ∀ i ∈ is, pc ≤ i.pc ∧ i.pc + i.length ≤ code.size ∧
      opcodeAt? code i.pc = some i.op ∧ instructionLength? code i.pc = some i.length := by
  induction is generalizing pc with
  | nil => exact ⟨Nat.le_of_eq h, by simp⟩
  | cons i is ih =>
    obtain ⟨rfl, hop, hlen, hrest⟩ := h
    obtain ⟨hle, hall⟩ := ih hrest
    have hsize := ((instructionLength?_eq_some hop).mp hlen).1
    refine ⟨by omega, fun j hj => ?_⟩
    rcases List.mem_cons.mp hj with rfl | hj
    · exact ⟨Nat.le_refl _, hsize, hop, hlen⟩
    · obtain ⟨hpc, hj⟩ := hall j hj
      exact ⟨by omega, hj⟩

/-- The instructions around one of a run lie in front of it and behind it. -/
theorem Whole.around {code : Bytes} {left right : List Instruction} {pc : Nat}
    (h : Whole code pc (left ++ i :: right)) :
    (∀ j ∈ left, j.pc + j.length ≤ i.pc) ∧ ∀ j ∈ right, i.pc + i.length ≤ j.pc := by
  induction left generalizing pc with
  | nil =>
    obtain ⟨rfl, -, -, hrest⟩ := h
    exact ⟨by simp, fun j hj => (hrest.bounds.2 j hj).1⟩
  | cons k left ih =>
    obtain ⟨rfl, -, -, hrest⟩ := h
    obtain ⟨hleft, hright⟩ := ih hrest
    refine ⟨fun j hj => ?_, hright⟩
    rcases List.mem_cons.mp hj with rfl | hj
    · exact (hrest.bounds.2 i (by simp)).1
    · exact hleft j hj

/-- A run whose instructions are found again elsewhere, one behind the other. -/
theorem Whole.map {code code' : Bytes} {pc : Nat} (h : Whole code pc is) {at' : Nat → Nat}
    {relocate : Instruction → Instruction} (hend : at' code.size = code'.size)
    (hpc : ∀ i ∈ is, (relocate i).pc = at' i.pc)
    (hop : ∀ i ∈ is, opcodeAt? code' (at' i.pc) = some (relocate i).op)
    (hlen : ∀ i ∈ is, instructionLength? code' (at' i.pc) = some (relocate i).length)
    (hnext : ∀ i ∈ is, at' (i.pc + i.length) = at' i.pc + (relocate i).length) :
    Whole code' (at' pc) (is.map relocate) := by
  induction is generalizing pc with
  | nil =>
    rw [Whole] at h
    rw [List.map_nil, Whole, h, hend]
  | cons i is ih =>
    obtain ⟨rfl, -, -, hrest⟩ := h
    refine ⟨hpc i (by simp), hop i (by simp), hlen i (by simp), ?_⟩
    rw [← hnext i (by simp)]
    exact ih hrest (fun j hj => hpc j (by simp [hj])) (fun j hj => hop j (by simp [hj]))
      (fun j hj => hlen j (by simp [hj])) fun j hj => hnext j (by simp [hj])

/-! ## The positions of jump offsets -/

/-- Fields of two bytes lie one behind the other between two offsets. -/
def FieldsOrdered (lo : Nat) : List Nat → Nat → Prop
  | [], hi => lo ≤ hi
  | field :: fields, hi => lo ≤ field ∧ FieldsOrdered (field + 2) fields hi

namespace Instruction

/-- Distance between the arms of a switch: a lookup switch has a literal in front of each. -/
def armStride (i : Instruction) (width : Nat) : Nat :=
  if i.op.format.isTable then width else width + 2

/-- Number of arms of a switch, its default left aside. -/
def armCount (i : Instruction) (width : Nat) : Nat :=
  (i.length - (if i.op.format.isTable then width + 5 else width + 3)) / i.armStride width

/-- Positions of the jump offsets of an instruction. -/
def fields (i : Instruction) : List Nat :=
  match i.op.format.jumpLen with
  | none => []
  | some width =>
    (i.pc + 1) :: if i.op.format.isSwitch then
      (List.range (i.armCount width)).map fun k => i.pc + width + 5 + i.armStride width * k
    else []

theorem fields_plain (h : i.op.format.jumpLen = none) : i.fields = [] := by
  simp only [fields, h]

theorem fields_jump (h : i.op.format.jumpLen = some width) (hs : i.op.format.isSwitch = false) :
    i.fields = [i.pc + 1] := by
  simp only [fields, h, hs, Bool.false_eq_true, if_false]

theorem fields_switch (h : i.op.format.jumpLen = some width) (hs : i.op.format.isSwitch) :
    i.fields = (i.pc + 1) ::
      (List.range (i.armCount width)).map fun k => i.pc + width + 5 + i.armStride width * k := by
  simp only [fields, h, hs, if_true]

/-- The length of a switch by the number of its arms. -/
theorem length_switch {code : Bytes} (hop : opcodeAt? code i.pc = some i.op)
    (hlen : instructionLength? code i.pc = some i.length) (h : i.op.format.jumpLen = some width)
    (hs : i.op.format.isSwitch) :
    i.length = (if i.op.format.isTable then width + 5 else width + 3) +
      i.armStride width * i.armCount width := by
  have hpos : 0 < i.armStride width := by
    rcases Format.jumpLen_eq h with rfl | rfl <;> simp only [armStride] <;> split <;> omega
  obtain ⟨-, ⟨hs', -⟩ | ⟨-, w, hw, hl⟩⟩ := (instructionLength?_eq_some hop).mp hlen
  · rw [hs] at hs'
    cases hs'
  · rw [h] at hw
    cases hw
    cases ht : i.op.format.isTable with
    | true =>
      rw [ht] at hl
      obtain ⟨low, high, -, -, hl⟩ := switchLength?_table hl
      simp only [armCount, armStride, ht, if_true, hl] at hpos ⊢
      rw [Nat.add_sub_cancel_left, Nat.mul_div_cancel_left _ hpos]
    | false =>
      rw [ht] at hl
      obtain ⟨pairs, -, hl⟩ := switchLength?_lookup hl
      simp only [armCount, armStride, ht, Bool.false_eq_true, if_false, hl] at hpos ⊢
      rw [Nat.add_sub_cancel_left, Nat.mul_div_cancel_left _ hpos]

end Instruction

/-- Fields at equal distances lie one behind the other. -/
theorem fieldsOrdered_range {base stride hi : Nat} (hstride : 2 ≤ stride) (n : Nat) :
    ∀ lo, lo ≤ base → (n = 0 → lo ≤ hi) → (0 < n → base + stride * (n - 1) + 2 ≤ hi) →
    FieldsOrdered lo ((List.range n).map fun k => base + stride * k) hi := by
  induction n generalizing base with
  | zero =>
    intro lo _ h0 _
    exact h0 rfl
  | succ n ih =>
    intro lo hlo _ hlast
    have hlast := hlast (by omega)
    rw [List.range_succ_eq_map, List.map_cons, List.map_map]
    refine ⟨by omega, ?_⟩
    have hshift : ((fun k => base + stride * k) ∘ Nat.succ) =
        fun k => (base + stride) + stride * k := by
      funext k
      simp only [Function.comp, Nat.mul_succ]
      omega
    rw [hshift]
    have hn : stride * (n + 1 - 1) = stride * n := by rw [Nat.add_sub_cancel]
    refine ih _ (by omega) ?_ ?_
    · rintro rfl
      omega
    · intro hpos
      obtain ⟨m, rfl⟩ : ∃ m, n = m + 1 := ⟨n - 1, by omega⟩
      rw [Nat.mul_succ] at hn
      rw [Nat.add_sub_cancel]
      omega

namespace Instruction

/-- The offsets of a narrow instruction lie one behind the other inside it. -/
theorem fieldsOrdered {code : Bytes} (hop : opcodeAt? code i.pc = some i.op)
    (hlen : instructionLength? code i.pc = some i.length) (hnarrow : i.op.isWide = false) :
    FieldsOrdered (i.pc + 1) i.fields (i.pc + i.length) := by
  have hpos := instructionLength?_pos hop hlen
  cases hw : i.op.format.jumpLen with
  | none =>
    rw [fields_plain hw]
    simp only [FieldsOrdered]
    omega
  | some width =>
    have hwidth : width = 2 := by
      rcases Format.jumpLen_eq hw with h | h
      · exact h
      · simp [Opcode.isWide, hw, h] at hnarrow
    subst hwidth
    cases hs : i.op.format.isSwitch with
    | false =>
      obtain ⟨-, ⟨-, hl⟩ | ⟨hs', -⟩⟩ := (instructionLength?_eq_some hop).mp hlen
      · rw [Opcode.length_of_jump hw hs] at hl
        rw [fields_jump hw hs]
        simp only [FieldsOrdered, Option.some.injEq] at hl ⊢
        omega
      · rw [hs] at hs'
        cases hs'
    | true =>
      have hlength := length_switch hop hlen hw hs
      rw [fields_switch hw hs]
      refine ⟨Nat.le_refl _, fieldsOrdered_range ?_ _ _ (by omega) ?_ ?_⟩
      · simp only [armStride]
        split <;> omega
      · intro _
        split at hlength <;> omega
      · intro hn
        obtain ⟨m, hm⟩ : ∃ m, i.armCount 2 = m + 1 := ⟨i.armCount 2 - 1, by omega⟩
        rw [hm] at hlength ⊢
        rw [Nat.add_sub_cancel]
        rw [Nat.mul_succ] at hlength
        cases ht : i.op.format.isTable with
        | true =>
          simp only [armStride, ht, if_true] at hlength ⊢
          omega
        | false =>
          simp only [armStride, ht, Bool.false_eq_true, if_false] at hlength ⊢
          omega

end Instruction

/-! ## Effects on the operand stack -/

namespace Opcode

/-- Number of values popped by an instruction whose operand starts with the count `n`. -/
def pops (op : Opcode) (n : Nat) : Nat :=
  op.spec.uses.getD (n + if op = .call ∨ op = .new then 1 else 0)

/-- Number of values pushed by an instruction whose operand starts with the count `n`. -/
def pushes (op : Opcode) (n : Nat) : Nat := op.spec.defs.getD n

end Opcode

namespace Instruction

/-- The 16-bit count at the start of the operand. -/
def count (code : Bytes) (i : Instruction) : Nat := (Bytes.u16? code (i.pc + 1)).getD 0

/-- Number of values popped. -/
def pops (code : Bytes) (i : Instruction) : Nat := i.op.pops (i.count code)

/-- Number of values pushed. -/
def pushes (code : Bytes) (i : Instruction) : Nat := i.op.pushes (i.count code)

end Instruction

/-! ## Reads inside a window -/

/-- Two byte strings that agree from `lo` to `hi`, which the first one reaches. -/
structure Window (code code' : Bytes) (lo hi : Nat) : Prop where
  size : hi ≤ code.size
  same : ∀ x, lo ≤ x → x < hi → code'[x]? = code[x]?

variable {code code' : Bytes}

namespace Window

variable {lo hi i : Nat}

theorem u16? (h : Window code code' lo hi) (hlo : lo ≤ i) (hhi : i + 2 ≤ hi) :
    ∃ n, Bytes.u16? code i = some n ∧ Bytes.u16? code' i = some n := by
  have hsize := h.size
  have hsame : Bytes.u16? code' i = Bytes.u16? code i := by
    rw [Bytes.u16?, Bytes.u16?, h.same i hlo (by omega), h.same (i + 1) (by omega) (by omega)]
  rw [hsame, Bytes.u16?, Array.getElem?_eq_getElem (by omega), Array.getElem?_eq_getElem (by omega)]
  exact ⟨_, rfl, rfl⟩

theorem i16? (h : Window code code' lo hi) (hlo : lo ≤ i) (hhi : i + 2 ≤ hi) :
    ∃ z, Bytes.i16? code i = some z ∧ Bytes.i16? code' i = some z := by
  obtain ⟨n, hn, hn'⟩ := h.u16? hlo hhi
  exact ⟨_, by rw [Bytes.i16?, hn]; rfl, by rw [Bytes.i16?, hn']; rfl⟩

end Window

section

variable (hop : opcodeAt? code i.pc = some i.op)
  (hlen : instructionLength? code i.pc = some i.length)

include hop hlen

theorem window_of_same (h : ∀ x, i.pc ≤ x → x < i.pc + i.length → code'[x]? = code[x]?) :
    Window code code' i.pc (i.pc + i.length) :=
  ⟨((instructionLength?_eq_some hop).mp hlen).1, h⟩

/-- The opcode and the length of an instruction are in its own bytes. -/
theorem Window.whole (h : Window code code' i.pc (i.pc + i.length)) :
    opcodeAt? code' i.pc = some i.op ∧ instructionLength? code' i.pc = some i.length := by
  have hpos := instructionLength?_pos hop hlen
  have hop' : opcodeAt? code' i.pc = some i.op := by
    rw [← hop, opcodeAt?, opcodeAt?, h.same i.pc (Nat.le_refl _) (by omega)]
  refine ⟨hop', (instructionLength?_eq_some hop').mpr ⟨?_, ?_⟩⟩
  · have hlast := h.same (i.pc + i.length - 1) (by omega) (by omega)
    have hsize := h.size
    rw [Array.getElem?_eq_getElem (by omega : i.pc + i.length - 1 < code.size)] at hlast
    have := (Array.getElem?_eq_some_iff.mp hlast).1
    omega
  · obtain ⟨-, hlength | ⟨hs, width, hw, hl⟩⟩ := (instructionLength?_eq_some hop).mp hlen
    · exact .inl hlength
    · refine .inr ⟨hs, width, hw, hl ▸ ?_⟩
      cases ht : i.op.format.isTable with
      | true =>
        rw [ht] at hl
        obtain ⟨low, high, -, -, hlength⟩ := switchLength?_table hl
        obtain ⟨_, h₁, h₁'⟩ := h.i16? (show i.pc ≤ i.pc + (1 + width) by omega) (by omega)
        obtain ⟨_, h₂, h₂'⟩ := h.i16? (show i.pc ≤ i.pc + (1 + width) + 2 by omega) (by omega)
        simp only [switchLength?, if_true, h₁, h₁', h₂, h₂']
      | false =>
        rw [ht] at hl
        obtain ⟨pairs, -, hlength⟩ := switchLength?_lookup hl
        obtain ⟨_, h₁, h₁'⟩ := h.u16? (show i.pc ≤ i.pc + (1 + width) by omega) (by omega)
        simp only [switchLength?, Bool.false_eq_true, if_false, h₁, h₁']

end

/-! ## Code behind other code -/

section Append

variable {front code : Bytes} {pc : Nat}

theorem Bytes.u16?_append_right : Bytes.u16? (front ++ code) (front.size + pc) =
    Bytes.u16? code pc := by
  simp only [Bytes.u16?, Nat.add_assoc, Array.getElem?_append_right (Nat.le_add_right _ _),
    Nat.add_sub_cancel_left]

theorem opcodeAt?_append_right :
    opcodeAt? (front ++ code) (front.size + pc) = opcodeAt? code pc := by
  simp only [opcodeAt?, Array.getElem?_append_right (Nat.le_add_right _ _), Nat.add_sub_cancel_left]

theorem instructionLength?_append_right :
    instructionLength? (front ++ code) (front.size + pc) = instructionLength? code pc := by
  simp only [instructionLength?, switchLength?, opcodeAt?_append_right, Bytes.i16?, Nat.add_assoc,
    Bytes.u16?_append_right, Array.size_append, Nat.add_le_add_iff_left]

end Append

/-- An instruction further on. -/
def Instruction.shift (distance : Nat) (i : Instruction) : Instruction :=
  { i with pc := distance + i.pc }

theorem Whole.behind_code {front code : Bytes} {pc : Nat} (h : Whole code pc is) :
    Whole (front ++ code) (front.size + pc) (is.map (Instruction.shift front.size)) := by
  have hend : front.size + code.size = (front ++ code).size := Array.size_append.symm
  have hop : ∀ i ∈ is, opcodeAt? (front ++ code) (front.size + i.pc) = some i.op := fun i hi => by
    rw [opcodeAt?_append_right]
    exact (h.bounds.2 i hi).2.2.1
  have hlen : ∀ i ∈ is, instructionLength? (front ++ code) (front.size + i.pc) = some i.length :=
    fun i hi => by
      rw [instructionLength?_append_right]
      exact (h.bounds.2 i hi).2.2.2
  exact h.map hend (fun _ _ => rfl) hop hlen fun i _ => (Nat.add_assoc ..).symm

/-- Whole instructions in front of whole instructions. -/
theorem Whole.append {front code : Bytes} {js : List Instruction} {pc : Nat} (h : Whole front pc is)
    (h' : Whole code 0 js) :
    Whole (front ++ code) pc (is ++ js.map (Instruction.shift front.size)) := by
  induction is generalizing pc with
  | nil =>
    obtain rfl : pc = front.size := h
    exact h'.behind_code
  | cons i is ih =>
    obtain ⟨rfl, hop, hlen, hrest⟩ := h
    have hsize := ((instructionLength?_eq_some hop).mp hlen).1
    obtain ⟨hop', hlen'⟩ := Window.whole hop hlen (window_of_same hop hlen fun x _ hx =>
      Array.getElem?_append_left (by omega))
    exact ⟨rfl, hop', hlen', ih hrest⟩

end ScriptCompiler
