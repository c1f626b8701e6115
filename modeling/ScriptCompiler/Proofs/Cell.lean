import ScriptCompiler.Proofs.Bytes
import ScriptCompiler.Proofs.Instruction

/-!
# Instructions as cells

A cell is one instruction apart from where it stands: its opcode, its width, the
operands that are fixed, and its jump offsets in a form that is left open here.
In a list of cells the offset of each follows from the sizes of the ones before
it. Cells of a byte string are whole instructions.
-/

namespace ScriptCompiler

open Bytes Instruction

variable {i j pc k : Nat} {bytes : List UInt8}

/-- What an instruction has for operands besides its jump offsets. -/
inductive Operands where
  /-- Bytes and no offset. -/
  | plain (bytes : List UInt8)
  /-- One offset. -/
  | jump
  /-- The default offset, the bounds, and an offset for each key. -/
  | table (low high : Int)
  /-- The default offset, the pair count, and pairs of literal index and offset. -/
  | lookup (literals : List Nat)
  deriving DecidableEq

namespace Operands

/-- Number of offsets. -/
def arms : Operands → Nat
  | plain _ => 0
  | jump => 1
  | table low high => keyCount low high + 1
  | lookup literals => literals.length + 1

/-- Number of bytes with offsets of a given width. -/
def size (width : Nat) : Operands → Nat
  | plain bytes => bytes.length
  | jump => width
  | table low high => width + 4 + width * keyCount low high
  | lookup literals => width + 2 + (width + 2) * literals.length

/-- Distance between the offsets behind the first. -/
def stride (width : Nat) : Operands → Nat
  | lookup _ => width + 2
  | _ => width

/-- Position of an offset in the instruction at `pc`. -/
def field (o : Operands) (width pc : Nat) : Nat → Nat
  | 0 => pc + 1
  | i + 1 => pc + width + 5 + o.stride width * i

/-- Positions and bytes of everything that is no offset. -/
def raws (width pc : Nat) : Operands → List (Nat × List UInt8)
  | plain bytes => [(pc + 1, bytes)]
  | jump => []
  | table low high =>
    [(pc + width + 1, (le16 (image16 low)).toList ++ (le16 (image16 high)).toList)]
  | lookup literals =>
    (pc + width + 1, (le16 literals.length).toList) :: literals.zipIdx.map fun p =>
      (pc + width + 3 + (width + 2) * p.2, (le16 p.1).toList)

/-- Offsets lie inside the operands. -/
theorem field_bounds (o : Operands) {width : Nat} (h : i < o.arms) :
    pc + 1 ≤ o.field width pc i ∧ o.field width pc i + width ≤ pc + 1 + o.size width := by
  cases o with
  | plain bytes => cases h
  | jump =>
    have hi : i = 0 := by
      simp only [arms] at h
      omega
    subst hi
    simp only [field, size]
    omega
  | table low high =>
    cases i with
    | zero =>
      simp only [field, size]
      omega
    | succ i =>
      have hle : width * (i + 1) ≤ width * keyCount low high :=
        Nat.mul_le_mul_left _ (by simp only [arms] at h; omega)
      simp only [field, size, stride, Nat.mul_succ] at hle ⊢
      omega
  | lookup literals =>
    cases i with
    | zero =>
      simp only [field, size]
      omega
    | succ i =>
      have hle : (width + 2) * (i + 1) ≤ (width + 2) * literals.length :=
        Nat.mul_le_mul_left _ (by simp only [arms] at h; omega)
      simp only [field, size, stride, Nat.mul_succ] at hle ⊢
      omega

/-- Offsets come one behind the other. -/
theorem field_lt (o : Operands) {width : Nat} (h : i < j) :
    o.field width pc i + width ≤ o.field width pc j := by
  obtain ⟨m, rfl⟩ : ∃ m, j = m + 1 := ⟨j - 1, by omega⟩
  cases i with
  | zero =>
    simp only [field]
    omega
  | succ i =>
    have hle : o.stride width * (i + 1) ≤ o.stride width * m := Nat.mul_le_mul_left _ (by omega)
    have hw : width ≤ o.stride width := by cases o <;> simp [stride]
    simp only [field, Nat.mul_succ] at hle ⊢
    omega

theorem field_apart (o : Operands) {width : Nat} (h : i ≠ j) :
    o.field width pc i + width ≤ o.field width pc j ∨
      o.field width pc j + width ≤ o.field width pc i :=
  (Nat.lt_or_gt_of_ne h).imp o.field_lt o.field_lt

/-- Other operands lie inside the instruction and apart from its offsets. -/
theorem raw_bounds (o : Operands) {width : Nat} {raw : Nat × List UInt8} (h : raw ∈ o.raws width pc) :
    pc + 1 ≤ raw.1 ∧ raw.1 + raw.2.length ≤ pc + 1 + o.size width ∧
      ∀ i < o.arms, raw.1 + raw.2.length ≤ o.field width pc i ∨
        o.field width pc i + width ≤ raw.1 := by
  cases o with
  | plain bytes =>
    simp only [raws, List.mem_singleton] at h
    subst h
    simp [size, arms]
  | jump => cases h
  | table low high =>
    simp only [raws, List.mem_singleton] at h
    subst h
    refine ⟨by simp only; omega, by simp [size, le16]; omega, fun i hi => ?_⟩
    cases i with
    | zero =>
      right
      simp only [field]
      omega
    | succ i =>
      left
      simp [field, le16]
  | lookup literals =>
    simp only [raws, List.mem_cons] at h
    rcases h with rfl | h
    · refine ⟨by simp only; omega, by simp [size, le16]; omega, fun i hi => ?_⟩
      cases i with
      | zero =>
        right
        simp only [field]
        omega
      | succ i =>
        left
        simp [field, le16]
        omega
    · obtain ⟨⟨literal, k⟩, hk, rfl⟩ := List.mem_map.mp h
      have hlt : k < literals.length := (List.mem_zipIdx' hk).1
      have hle : (width + 2) * (k + 1) ≤ (width + 2) * literals.length :=
        Nat.mul_le_mul_left _ (by omega)
      rw [Nat.mul_succ] at hle
      refine ⟨by simp only; omega, by simp [size, le16]; omega, fun i hi => ?_⟩
      cases i with
      | zero =>
        right
        simp only [field]
        omega
      | succ i =>
        simp only [field, stride, le16, List.length_cons, List.length_nil, Nat.zero_add,
          Nat.reduceAdd]
        rcases Nat.lt_or_ge i k with hik | hik
        · right
          have hmul : (width + 2) * (i + 1) ≤ (width + 2) * k := Nat.mul_le_mul_left _ hik
          rw [Nat.mul_succ] at hmul
          omega
        · left
          have hmul : (width + 2) * k ≤ (width + 2) * i := Nat.mul_le_mul_left _ hik
          omega

/-- The first 16 bits of the operands, for instructions that count with them. -/
def immediate : Operands → Nat
  | plain (lo :: hi :: _) => lo.toNat + 256 * hi.toNat
  | _ => 0

/-- All of the operands that sizes and positions depend on: bytes and literals may change. -/
def form : Operands → Operands
  | plain bytes => plain (bytes.map fun _ => 0)
  | lookup literals => lookup (literals.map fun _ => 0)
  | o => o

theorem arms_form (o : Operands) : o.form.arms = o.arms := by
  cases o <;> simp [form, arms]

theorem size_form (o : Operands) (width : Nat) : o.form.size width = o.size width := by
  cases o <;> simp [form, size]

theorem field_form (o : Operands) (width pc i : Nat) :
    o.form.field width pc i = o.field width pc i := by
  cases i <;> cases o <;> simp [form, field, stride]

end Operands

/-- What the operand stack is like in front of an instruction. -/
structure Frame where
  /-- Number of values. -/
  depth : Int
  deriving DecidableEq

/-- One instruction apart from where it stands. -/
structure Cell (δ : Type) where
  /-- The opcode of the narrow form. -/
  op : Opcode
  /-- Whether it stands in its wide form. -/
  wide : Bool
  /-- Operands besides the offsets. -/
  operands : Operands
  /-- Where the offsets lead. -/
  dests : List δ
  /-- The stack in front of the instruction. -/
  frame : Frame

namespace Cell

variable {δ : Type}

/-- The opcode that stands in the code. -/
def opcode (c : Cell δ) : Opcode := if c.wide then c.op.widened.getD c.op else c.op

/-- Width of its offsets. -/
def width (c : Cell δ) : Nat := offsetWidth c.wide

/-- Number of bytes. -/
def size (c : Cell δ) : Nat := 1 + c.operands.size c.width

/-- Position of an offset when the cell stands at `pc`. -/
def field (c : Cell δ) (pc i : Nat) : Nat := c.operands.field c.width pc i

/-- Positions and bytes of the other operands when the cell stands at `pc`. -/
def raws (c : Cell δ) (pc : Nat) : List (Nat × List UInt8) := c.operands.raws c.width pc

/-- The cell as an instruction at `pc`. -/
def view (c : Cell δ) (pc : Nat) : Instruction := ⟨pc, c.opcode, c.size⟩

/-- Number of values popped. -/
def uses (c : Cell δ) : Nat :=
  c.op.spec.uses.getD (c.operands.immediate + if c.op = .call ∨ c.op = .new then 1 else 0)

/-- Number of values pushed. -/
def defs (c : Cell δ) : Nat := c.op.spec.defs.getD c.operands.immediate

/-- A narrow instruction without offsets. -/
def plain (op : Opcode) (bytes : List UInt8) (frame : Frame) : Cell δ :=
  ⟨op, false, .plain bytes, [], frame⟩

/-- A narrow jump. -/
def jump (op : Opcode) (dest : δ) (frame : Frame) : Cell δ := ⟨op, false, .jump, [dest], frame⟩

/-- A narrow table switch. -/
def table (low high : Int) (dests : List δ) (frame : Frame) : Cell δ :=
  ⟨.tableSwitch, false, .table low high, dests, frame⟩

/-- A narrow lookup switch. -/
def lookup (literals : List Nat) (dests : List δ) (frame : Frame) : Cell δ :=
  ⟨.lookupSwitch, false, .lookup literals, dests, frame⟩

/-- The operands are the ones its opcode has. -/
structure Shaped (c : Cell δ) : Prop where
  /-- There is a destination for each offset. -/
  count : c.dests.length = c.operands.arms
  /-- The opcode goes with the operands. -/
  fits : match c.operands with
    | .plain bytes => c.op.format.jumpLen = none ∧ c.op.spec.length = some (1 + bytes.length)
    | .jump => c.op.format = .jump
    | .table low high => c.op.format = .tableSwitch ∧ fits16 low = true ∧ fits16 high = true
    | .lookup literals => c.op.format = .lookupSwitch ∧ literals.length < 65536
  /-- A wide cell has a wide opcode. -/
  twin : c.wide = true → c.op.widened.isSome = true

/-- All of a cell that sizes and positions depend on. -/
def form (c : Cell δ) : Operands × Bool := (c.operands.form, c.wide)

section Form

variable {ε : Type} {c : Cell δ} {c' : Cell ε}

theorem arms_congr (h : c.form = c'.form) : c.operands.arms = c'.operands.arms := by
  rw [← c.operands.arms_form, ← c'.operands.arms_form, (Prod.mk.inj h).1]

theorem width_congr (h : c.form = c'.form) : c.width = c'.width := by
  rw [width, width, (Prod.mk.inj h).2]

theorem size_congr (h : c.form = c'.form) : c.size = c'.size := by
  rw [size, size, ← c.operands.size_form, ← c'.operands.size_form, (Prod.mk.inj h).1,
    width_congr h]

theorem field_congr (h : c.form = c'.form) (pc i : Nat) : c.field pc i = c'.field pc i := by
  rw [field, field, ← c.operands.field_form, ← c'.operands.field_form, (Prod.mk.inj h).1,
    width_congr h]

end Form

theorem size_pos (c : Cell δ) : 1 ≤ c.size := by
  simp only [size]
  omega

theorem field_bounds (c : Cell δ) (pc : Nat) (h : i < c.operands.arms) :
    pc + 1 ≤ c.field pc i ∧ c.field pc i + c.width ≤ pc + c.size := by
  have hfield : pc + 1 ≤ c.operands.field c.width pc i ∧
      c.operands.field c.width pc i + c.width ≤ pc + 1 + c.operands.size c.width :=
    c.operands.field_bounds h
  simp only [field, size]
  omega

theorem raw_bounds (c : Cell δ) {raw : Nat × List UInt8} (h : raw ∈ c.raws pc) :
    pc + 1 ≤ raw.1 ∧ raw.1 + raw.2.length ≤ pc + c.size := by
  have hraw := c.operands.raw_bounds h
  simp only [size]
  omega

namespace Shaped

variable {c : Cell δ}

theorem of_jump {op : Opcode} (h : op.format = .jump) (dest : δ) (frame : Frame) :
    (Cell.jump op dest frame).Shaped := ⟨rfl, h, (by rintro ⟨⟩)⟩

theorem of_plain {op : Opcode} (h : op.format.jumpLen = none)
    (hlen : op.spec.length = some (1 + bytes.length)) (frame : Frame) :
    (Cell.plain op bytes frame : Cell δ).Shaped := ⟨rfl, ⟨h, hlen⟩, (by rintro ⟨⟩)⟩

variable (h : c.Shaped)

include h

theorem fits_plain (hc : c.operands = .plain bytes) :
    c.op.format.jumpLen = none ∧ c.op.spec.length = some (1 + bytes.length) := by
  simpa only [hc] using h.fits

theorem fits_jump (hc : c.operands = .jump) : c.op.format = .jump := by
  simpa only [hc] using h.fits

theorem fits_table {low high : Int} (hc : c.operands = .table low high) :
    c.op.format = .tableSwitch ∧ fits16 low ∧ fits16 high := by
  simpa only [hc] using h.fits

theorem fits_lookup {literals : List Nat} (hc : c.operands = .lookup literals) :
    c.op.format = .lookupSwitch ∧ literals.length < 65536 := by
  simpa only [hc] using h.fits

/-- Only jumps and switches are ever wide. -/
theorem wide_plain (hc : c.operands = .plain bytes) : c.wide = false := by
  cases hw : c.wide with
  | false => rfl
  | true =>
    have htwin := h.twin hw
    rw [Opcode.widened_eq_none (h.fits_plain hc).1] at htwin
    cases htwin

theorem opcode_plain (hc : c.operands = .plain bytes) : c.opcode = c.op := by
  rw [opcode, h.wide_plain hc]
  rfl

/-- The opcode in the code has the operands of the narrow one. -/
theorem opcode_format {format : Format} (hf : c.op.format = format) (hj : format.jumpLen = some 2) :
    c.opcode.format.jumpLen = some c.width ∧ c.opcode.format.isSwitch = format.isSwitch ∧
      c.opcode.format.isTable = format.isTable := by
  subst hf
  cases hw : c.wide with
  | false => simp [opcode, width, offsetWidth, hw, hj]
  | true =>
    obtain ⟨twin, htwin⟩ := Option.isSome_iff_exists.mp (h.twin hw)
    obtain ⟨-, hlen, hswitch, htable⟩ := Opcode.widened_format htwin
    simp [opcode, width, offsetWidth, hw, htwin, hlen, hswitch, htable]

/-- The positions of the offsets as the instruction has them. -/
theorem view_fields (pc : Nat) :
    (c.view pc).fields = (List.range c.operands.arms).map (c.field pc) := by
  cases hc : c.operands with
  | plain bytes =>
    have hj : (c.view pc).op.format.jumpLen = none := by
      rw [view, h.opcode_plain hc]
      exact (h.fits_plain hc).1
    rw [fields_plain hj]
    rfl
  | jump =>
    obtain ⟨hlen, hswitch, -⟩ := h.opcode_format (h.fits_jump hc) rfl
    have hfields : (c.view pc).fields = [pc + 1] := fields_jump hlen hswitch
    rw [hfields]
    rfl
  | table low high =>
    obtain ⟨hlen, hswitch, htable⟩ := h.opcode_format (h.fits_table hc).1 rfl
    have htable : c.opcode.format.isTable := htable
    have hpos : 0 < c.width := by
      rw [width]
      cases c.wide <;> decide
    have hcount : (c.view pc).armCount c.width = keyCount low high := by
      simp only [armCount, armStride, htable, if_true, view, size, hc,
        Operands.size]
      rw [show 1 + (c.width + 4 + c.width * keyCount low high) - (c.width + 5) =
        c.width * keyCount low high by omega, Nat.mul_div_cancel_left _ hpos]
    have hfields := fields_switch (i := c.view pc) hlen hswitch
    rw [hfields, hcount, Operands.arms, List.range_succ_eq_map, List.map_cons, List.map_map]
    simp [field, hc, Operands.field, Operands.stride, armStride, htable,
      Function.comp_def, view]
  | lookup literals =>
    obtain ⟨hlen, hswitch, htable⟩ := h.opcode_format (h.fits_lookup hc).1 rfl
    have htable : c.opcode.format.isTable = false := htable
    have hcount : (c.view pc).armCount c.width = literals.length := by
      simp only [armCount, armStride, htable, Bool.false_eq_true, if_false,
        view, size, hc, Operands.size]
      rw [show 1 + (c.width + 2 + (c.width + 2) * literals.length) - (c.width + 3) =
        (c.width + 2) * literals.length by omega, Nat.mul_div_cancel_left _ (by omega)]
    have hfields := fields_switch (i := c.view pc) hlen hswitch
    rw [hfields, hcount, Operands.arms, List.range_succ_eq_map, List.map_cons, List.map_map]
    simp [field, hc, Operands.field, Operands.stride, armStride, htable,
      Function.comp_def, view]

/-- An opcode byte and the operands behind it make a whole instruction. -/
theorem instructionLength? {code : Bytes} (hop : code[pc]? = some c.opcode.toByte)
    (hraws : ∀ raw ∈ c.raws pc, Holds code raw.1 raw.2) (hsize : pc + c.size ≤ code.size) :
    opcodeAt? code pc = some c.opcode ∧
      ScriptCompiler.instructionLength? code pc = some c.size := by
  have hat : opcodeAt? code pc = some c.opcode := by simp [opcodeAt?, hop]
  refine ⟨hat, (instructionLength?_eq_some hat).mpr ⟨hsize, ?_⟩⟩
  cases hc : c.operands with
  | plain bytes =>
    left
    obtain ⟨hj, hlen⟩ := h.fits_plain hc
    rw [h.opcode_plain hc]
    refine ⟨?_, by rw [hlen, size, hc]; rfl⟩
    cases hs : c.op.format.isSwitch with
    | false => rfl
    | true =>
      obtain ⟨width, hwidth⟩ := Format.jumpLen_of_isSwitch hs
      rw [hj] at hwidth
      cases hwidth
  | jump =>
    left
    obtain ⟨hlen, hswitch, -⟩ := h.opcode_format (h.fits_jump hc) rfl
    refine ⟨hswitch, ?_⟩
    rw [Opcode.length_of_jump hlen hswitch, size, hc]
    rfl
  | table low high =>
    right
    obtain ⟨hformat, hlow, hhigh⟩ := h.fits_table hc
    obtain ⟨hlen, hswitch, htable⟩ := h.opcode_format hformat rfl
    refine ⟨hswitch, c.width, hlen, ?_⟩
    have hbounds := hraws (pc + c.width + 1,
      (le16 (image16 low)).toList ++ (le16 (image16 high)).toList) (by simp [raws, hc, Operands.raws])
    obtain ⟨hl, hh⟩ := holds_append.mp hbounds
    have hl := hl.i16? hlow
    have hh : i16? code (pc + c.width + 1 + 2) = some high := hh.i16? hhigh
    rw [htable, show Format.tableSwitch.isTable = true from rfl, switchLength?, if_pos rfl]
    simp only [show pc + (1 + c.width) = pc + c.width + 1 by omega, hl, hh, Option.bind_eq_bind,
      Option.bind_some, Option.pure_def, Option.some.injEq, size, hc, Operands.size]
    rw [Nat.mul_comm (keyCount low high)]
    omega
  | lookup literals =>
    right
    obtain ⟨hformat, hcount⟩ := h.fits_lookup hc
    obtain ⟨hlen, hswitch, htable⟩ := h.opcode_format hformat rfl
    refine ⟨hswitch, c.width, hlen, ?_⟩
    have hpairs := hraws (pc + c.width + 1, (le16 literals.length).toList)
      (by simp [raws, hc, Operands.raws])
    have hpairs := hpairs.u16?
    rw [Nat.mod_eq_of_lt hcount] at hpairs
    rw [htable, show Format.lookupSwitch.isTable = false from rfl, switchLength?,
      if_neg (by decide)]
    simp only [show pc + (1 + c.width) = pc + c.width + 1 by omega, hpairs, Option.bind_eq_bind,
      Option.bind_some, Option.pure_def, Option.some.injEq, size, hc, Operands.size]
    rw [Nat.mul_comm literals.length, Nat.add_comm 2 c.width]
    omega

end Shaped

end Cell

/-! ## Positions -/

section Position

variable {δ : Type}

/-- Offset of the cell at an index. -/
def position : List (Cell δ) → Nat → Nat
  | c :: cells, k + 1 => c.size + position cells k
  | _, _ => 0

@[simp] theorem position_nil (k : Nat) : position ([] : List (Cell δ)) k = 0 := by
  cases k <;> rfl

@[simp] theorem position_zero (cells : List (Cell δ)) : position cells 0 = 0 := by
  cases cells <;> rfl

theorem position_cons_succ (c : Cell δ) (cells : List (Cell δ)) (k : Nat) :
    position (c :: cells) (k + 1) = c.size + position cells k := rfl

theorem position_succ {cells : List (Cell δ)} {c : Cell δ} (h : cells[k]? = some c) :
    position cells (k + 1) = position cells k + c.size := by
  induction cells generalizing k with
  | nil => cases h
  | cons d cells ih =>
    cases k with
    | zero =>
      obtain rfl : d = c := Option.some.inj h
      simp [position_cons_succ]
    | succ k => rw [position_cons_succ, position_cons_succ, ih h, Nat.add_assoc]

theorem position_append {cells more : List (Cell δ)} (h : k ≤ cells.length) :
    position (cells ++ more) k = position cells k := by
  induction cells generalizing k with
  | nil =>
    obtain rfl : k = 0 := by simpa using h
    simp
  | cons d cells ih =>
    cases k with
    | zero => simp
    | succ k =>
      rw [List.cons_append, position_cons_succ, position_cons_succ, ih (Nat.le_of_succ_le_succ h)]

theorem position_append_length (cells more : List (Cell δ)) (k : Nat) :
    position (cells ++ more) (cells.length + k) = position cells cells.length + position more k := by
  induction cells with
  | nil => simp
  | cons d cells ih =>
    rw [List.cons_append, List.length_cons, Nat.add_right_comm, position_cons_succ,
      position_cons_succ, ih, Nat.add_assoc]

/-- Behind the last cell the position stays the same. -/
theorem position_of_length_le {cells : List (Cell δ)} (h : cells.length ≤ k) :
    position cells k = position cells cells.length := by
  induction cells generalizing k with
  | nil => simp
  | cons d cells ih =>
    cases k with
    | zero => cases h
    | succ k =>
      rw [position_cons_succ, List.length_cons, position_cons_succ, ih (Nat.le_of_succ_le_succ h)]

/-- Positions depend on the forms alone. -/
theorem position_congr {ε : Type} {cells : List (Cell δ)} {cells' : List (Cell ε)}
    (h : cells.map Cell.form = cells'.map Cell.form) (k : Nat) :
    position cells k = position cells' k := by
  induction cells generalizing cells' k with
  | nil =>
    cases cells' with
    | nil => simp
    | cons c' cells' => cases h
  | cons c cells ih =>
    cases cells' with
    | nil => cases h
    | cons c' cells' =>
      simp only [List.map_cons, List.cons.injEq] at h
      cases k with
      | zero => simp
      | succ k => rw [position_cons_succ, position_cons_succ, Cell.size_congr h.1, ih h.2]

/-- Putting a cell where it is changes nothing. -/
theorem set_of_getElem? {cells : List (Cell δ)} {c : Cell δ} (hk : cells[k]? = some c) :
    cells.set k c = cells := by
  obtain ⟨hlt, rfl⟩ := List.getElem?_eq_some_iff.mp hk
  exact List.set_getElem_self hlt

/-- A cell may be replaced by one of its form. -/
theorem map_form_set {cells : List (Cell δ)} {c c' : Cell δ} (hk : cells[k]? = some c)
    (h : c'.form = c.form) : (cells.set k c').map Cell.form = cells.map Cell.form := by
  obtain ⟨hlt, rfl⟩ := List.getElem?_eq_some_iff.mp hk
  rw [List.map_set, h, ← List.getElem_map Cell.form, List.set_getElem_self]
  simpa using hlt

theorem position_add_size {cells : List (Cell δ)} {c : Cell δ} (h : cells[i]? = some c)
    (hij : i < j) : position cells i + c.size ≤ position cells j := by
  induction j with
  | zero => omega
  | succ j ih =>
    rcases Nat.lt_or_ge i j with hlt | hge
    · have hrec := ih hlt
      cases hj : cells[j]? with
      | none =>
        have hlen := List.getElem?_eq_none_iff.mp hj
        rw [position_of_length_le (Nat.le_succ_of_le hlen), ← position_of_length_le hlen]
        exact hrec
      | some d =>
        rw [position_succ hj]
        omega
    · obtain rfl : i = j := by omega
      exact Nat.le_of_eq (position_succ h).symm

theorem position_lt {cells : List (Cell δ)} (hij : i < j) (hj : j ≤ cells.length) :
    position cells i < position cells j := by
  have hi : i < cells.length := by omega
  have hadd := position_add_size (List.getElem?_eq_getElem hi) hij
  have hpos := cells[i].size_pos
  omega

theorem position_le {cells : List (Cell δ)} (hij : i ≤ j) (hj : j ≤ cells.length) :
    position cells i ≤ position cells j := by
  rcases Nat.lt_or_eq_of_le hij with hlt | rfl
  · exact Nat.le_of_lt (position_lt hlt hj)
  · exact Nat.le_refl _

/-- An offset belongs to one cell at most. -/
theorem position_inj {cells : List (Cell δ)} (hi : i ≤ cells.length) (hj : j ≤ cells.length)
    (h : position cells i = position cells j) : i = j := by
  rcases Nat.lt_trichotomy i j with hlt | heq | hlt
  · have := position_lt hlt hj
    omega
  · exact heq
  · have := position_lt hlt hi
    omega

/-- Two cells are the same or lie apart. -/
theorem position_apart {cells : List (Cell δ)} {c d : Cell δ} (hi : cells[i]? = some c)
    (hj : cells[j]? = some d) :
    i = j ∨ position cells i + c.size ≤ position cells j ∨
      position cells j + d.size ≤ position cells i := by
  rcases Nat.lt_trichotomy i j with hlt | heq | hlt
  · exact .inr (.inl (position_add_size hi hlt))
  · exact .inl heq
  · exact .inr (.inr (position_add_size hj hlt))

end Position

end ScriptCompiler
