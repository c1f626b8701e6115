import ScriptCompiler.Proofs.Code.Resolution
import ScriptCompiler.Proofs.Lowering.Action
import ScriptCompiler.Proofs.Script.Arms

/-!
# Scripts that encode programs

A finished script holds the cells of a program one behind the other, hoisted
declarations first. What is read back from its bytes is then what the cells say:
the instructions, the target of each jump and the arms of each switch.
-/

namespace ScriptCompiler

open Bytes

variable {t j i field : Nat} {targets : List Nat}

namespace Program

/-- Hoisted declarations, then the body. -/
def cells (P : Program) : List (Cell Nat) := P.prolog ++ P.main

/-- Offset of the cell at an index of the body. -/
def offset (P : Program) (k : Nat) : Nat := position P.cells (P.prolog.length + k)

variable {P : Program} {k : Nat} {c : Cell Nat}

theorem getElem?_cells (hk : P.main[k]? = some c) : P.cells[P.prolog.length + k]? = some c := by
  rw [cells, List.getElem?_append_right (Nat.le_add_right _ _), Nat.add_sub_cancel_left, hk]

theorem length_cells (P : Program) : P.cells.length = P.prolog.length + P.main.length :=
  List.length_append

theorem offset_eq (P : Program) (k : Nat) : P.offset k = P.offset 0 + position P.main k := by
  rw [offset, offset, cells, position_append_length, position_append_length, position_zero,
    Nat.add_zero]

theorem offset_succ (hk : P.main[k]? = some c) : P.offset (k + 1) = P.offset k + c.size := by
  rw [offset_eq, offset_eq P k, position_succ hk, Nat.add_assoc]

theorem offset_lt (hjk : j < k) (hk : k ≤ P.main.length) : P.offset j < P.offset k := by
  rw [offset_eq, offset_eq P k]
  exact Nat.add_lt_add_left (position_lt hjk hk) _

theorem offset_le (hjk : j ≤ k) (hk : k ≤ P.main.length) : P.offset j ≤ P.offset k := by
  rw [offset_eq, offset_eq P k]
  exact Nat.add_le_add_left (position_le hjk hk) _

/-- A region protects a stretch of cells. -/
structure Protects (P : Program) (r : Region) (e : Extent) : Prop where
  kind : r.kind = e.kind
  depth : r.depth = e.depth
  start : P.offset 0 + r.start = P.offset e.start
  stop : P.offset 0 + r.start + r.length = P.offset e.stop

end Program

/-- A script holds the cells and the tables of a program. -/
structure Encodes (s : Script) (P : Program) : Prop where
  size : s.code.size = position P.cells P.cells.length
  start : s.mainOffset = P.offset 0
  /-- Each cell is in place, its offsets apart. -/
  stands : ∀ (k : Nat) (c : Cell Nat), P.cells[k]? = some c → c.Shaped ∧
    s.code[0 + position P.cells k]? = some c.opcode.toByte ∧
    ∀ raw ∈ c.raws (0 + position P.cells k), Holds s.code raw.1 raw.2
  /-- Each offset leads to the cell of its destination. -/
  offsets : ∀ (k : Nat) (c : Cell Nat), P.main[k]? = some c → ∀ (i t : Nat),
    c.dests[i]? = some t →
      Direct s.code c.wide (c.field (P.offset k) i) ((P.offset t : Int) - P.offset k)
  literals : s.literals.toList = P.literals
  functions : s.functions.toList = P.functions
  regions : List.Forall₂ P.Protects s.regions.toList P.regions
  high : s.maxStackDepth = P.high

theorem mem_zipIdx_of_getElem? {α : Type} {l : List α} {x : α} (h : l[i]? = some x) :
    (x, i) ∈ l.zipIdx := by
  rw [List.mem_zipIdx_iff_getElem?]
  exact h

/-! ## Offsets -/

theorem Direct.offsetAt? {code : Bytes} {wide : Bool} {z : Int} (h : Direct code wide field z) :
    Script.offsetAt? code (offsetWidth wide) field = some z := by
  obtain ⟨hfits, hholds⟩ := h
  cases wide with
  | true => exact hholds.i32? hfits
  | false => exact hholds.i16? hfits

namespace Encodes

variable {s : Script} {P : Program} {k : Nat} {c : Cell Nat}

/-! ## Instructions -/

variable (h : Encodes s P)

include h

theorem whole : Whole s.code 0 (views 0 P.cells) :=
  whole_views h.stands (by rw [h.size, Nat.zero_add])

/-- The instructions of a script are its cells. -/
theorem instructions_eq : instructions s.code = views 0 P.cells :=
  instructions_of_whole h.whole

theorem mem_instructions {i : Instruction} :
    i ∈ instructions s.code ↔
      ∃ (k : Nat) (c : Cell Nat), P.cells[k]? = some c ∧ i = c.view (position P.cells k) := by
  rw [h.instructions_eq, mem_views]
  simp only [Nat.zero_add]

variable (hk : P.main[k]? = some c)

include hk

/-- The cell at an index of the body as an instruction. -/
theorem instruction : c.view (P.offset k) ∈ instructions s.code :=
  h.mem_instructions.mpr ⟨_, c, Program.getElem?_cells hk, rfl⟩

theorem shaped : c.Shaped :=
  (h.stands _ c (Program.getElem?_cells hk)).1

theorem raws {pos : Nat} {bytes : List UInt8} (hraw : (pos, bytes) ∈ c.raws (P.offset k)) :
    Holds s.code pos bytes := by
  have hstands := (h.stands _ c (Program.getElem?_cells hk)).2.2
  rw [Nat.zero_add] at hstands
  exact hstands _ hraw

/-- What is read at the offset of a cell. -/
theorem reads :
    opcodeAt? s.code (P.offset k) = some c.opcode ∧
      instructionLength? s.code (P.offset k) = some c.size := by
  obtain ⟨hshaped, hop, hraws⟩ := h.stands _ c (Program.getElem?_cells hk)
  rw [Nat.zero_add] at hop hraws
  refine hshaped.instructionLength? hop hraws ?_
  have hlt := (List.getElem?_eq_some_iff.mp (Program.getElem?_cells hk)).1
  rw [h.size]
  exact position_add_size (Program.getElem?_cells hk) hlt

/-! ## Jumps and switches -/

theorem jumpTarget (hjump : c.operands = .jump) (ht : c.dests = [t]) :
    Script.jumpTarget s.code (P.offset k) = .ok (some (P.offset t)) := by
  have hshaped := h.shaped hk
  obtain ⟨hlen, hswitch, -⟩ := hshaped.opcode_format (hshaped.fits_jump hjump) rfl
  have hformat : c.opcode.format = .jump ∨ c.opcode.format = .jumpX := by
    generalize c.opcode.format = format at hlen hswitch
    cases format <;> simp_all [Format.jumpLen, Format.isSwitch]
  have hdirect := h.offsets k c hk 0 t (by simp [ht])
  have hfield : c.field (P.offset k) 0 = P.offset k + 1 := rfl
  rw [hfield] at hdirect
  rw [Script.jumpTarget, (h.reads hk).1]
  simp only [if_pos hformat, hlen, Option.getD_some]
  rw [show c.width = offsetWidth c.wide from rfl, hdirect.offsetAt?]
  simp only [landing?_eq]

/-- What is read back from a switch whose default leads to `t` and whose arms are known. -/
theorem switchTargets (hformat : c.op.format.jumpLen = some 2) (hswitch : c.op.format.isSwitch)
    (ht : c.dests[0]? = some t) {arms : Array SwitchArm}
    (harms : Script.switchArms s.code (P.offset k) (offsetWidth c.wide) (P.offset t)
      (P.offset k + 1 + offsetWidth c.wide) c.op.format.isTable = .ok (some arms)) :
    Script.switchTargets s.code (P.offset k) = .ok (some ⟨P.offset t, arms⟩) := by
  obtain ⟨hlen, hisSwitch, hisTable⟩ := (h.shaped hk).opcode_format rfl hformat
  have hdirect := h.offsets k c hk 0 t ht
  have hfield : c.field (P.offset k) 0 = P.offset k + 1 := rfl
  rw [hfield] at hdirect
  rw [Script.switchTargets, (h.reads hk).1, (h.reads hk).2]
  simp only [hisSwitch, hswitch, if_true, hlen, Option.getD_some, hisTable]
  rw [show c.width = offsetWidth c.wide from rfl, hdirect.offsetAt?]
  simp only [landing?_eq, harms, Option.map_some]

/-- The offset of an arm of a switch. -/
theorem arm (hdests : c.dests = t :: targets) (hi : i < targets.length)
    (hfield : c.field (P.offset k) (i + 1) = field) :
    Direct s.code c.wide field ((P.offset (targets.getD i 0) : Int) - P.offset k) := by
  rw [← hfield]
  refine h.offsets k c hk (i + 1) _ ?_
  rw [hdests, List.getElem?_cons_succ, List.getD_eq_getElem?_getD, List.getElem?_eq_getElem hi,
    Option.getD_some]

/-- A table switch as it is read back. An arm that leads to the switch itself is a hole. -/
theorem switchTargets_table {low high : Int} (htable : c.operands = .table low high)
    (hdests : c.dests = t :: targets) :
    Script.switchTargets s.code (P.offset k) = .ok (some ⟨P.offset t,
      ((List.range (keyCount low high)).map fun (i : Nat) => (⟨.integer (low + i),
        if P.offset (targets.getD i 0) = P.offset k then P.offset t
        else P.offset (targets.getD i 0)⟩ : SwitchArm)).toArray⟩) := by
  have hshaped := h.shaped hk
  obtain ⟨hformat, hlow, hhigh⟩ := hshaped.fits_table htable
  have hcount : targets.length = keyCount low high := by
    have := hshaped.count
    rw [htable, hdests] at this
    simpa [Operands.arms] using this
  have hbounds : Holds s.code (P.offset k + c.width + 1)
      ((le16 (image16 low)).toList ++ (le16 (image16 high)).toList) := h.raws hk (by
    rw [Cell.raws, htable]
    exact List.mem_singleton.mpr rfl)
  rw [holds_append] at hbounds
  have hpos : P.offset k + c.width + 1 = P.offset k + 1 + offsetWidth c.wide := by
    rw [Nat.add_right_comm]
    rfl
  simp only [hpos] at hbounds
  have harms : ∀ i < keyCount low high, Direct s.code c.wide
      (P.offset k + 1 + offsetWidth c.wide + 4 + offsetWidth c.wide * i)
      ((P.offset (targets.getD i 0) : Int) - P.offset k) := fun i hi => by
    refine h.arm hk hdests (by omega) ?_
    rw [Cell.field, htable]
    simp only [Operands.field, Operands.stride, Cell.width]
    omega
  refine h.switchTargets hk (by rw [hformat]; rfl) (by rw [hformat]; rfl) (by rw [hdests]; rfl) ?_
  rw [Script.switchArms, hformat]
  have hsecond : i16? s.code (P.offset k + 1 + offsetWidth c.wide + 2) = some high :=
    hbounds.2.i16? hhigh
  simp only [show Format.isTable .tableSwitch = true from rfl, if_true, hbounds.1.i16? hlow, hsecond]
  rw [tableArms_eq _ _ _ fun i hi => (harms i hi).offsetAt?]
  simp only [add_offset, Int.natCast_nonneg, implies_true, if_true, Int.toNat_natCast,
    List.append_toArray, List.nil_append]

/-- A lookup switch as it is read back. -/
theorem switchTargets_lookup {literals : List Nat} (hlookup : c.operands = .lookup literals)
    (hliterals : ∀ n ∈ literals, n < 65536) (hdests : c.dests = t :: targets) :
    Script.switchTargets s.code (P.offset k) = .ok (some ⟨P.offset t,
      ((List.range literals.length).map fun (i : Nat) => (⟨.literal (literals.getD i 0),
        P.offset (targets.getD i 0)⟩ : SwitchArm)).toArray⟩) := by
  have hshaped := h.shaped hk
  obtain ⟨hformat, hlength⟩ := hshaped.fits_lookup hlookup
  have hcount : targets.length = literals.length := by
    have := hshaped.count
    rw [hlookup, hdests] at this
    simpa [Operands.arms] using this
  have hpairs : Holds s.code (P.offset k + c.width + 1) (le16 literals.length).toList :=
    h.raws hk (by
      rw [Cell.raws, hlookup]
      exact List.mem_cons_self ..)
  have hpos : P.offset k + c.width + 1 = P.offset k + 1 + offsetWidth c.wide := by
    rw [Nat.add_right_comm]
    rfl
  simp only [hpos] at hpairs
  have hindexes : ∀ i < literals.length, u16? s.code (P.offset k + 1 + offsetWidth c.wide + 2 +
      (offsetWidth c.wide + 2) * i) = some (literals.getD i 0) := fun i hi => by
    have hget : literals[i]? = some (literals.getD i 0) := by
      rw [List.getD_eq_getElem?_getD, List.getElem?_eq_getElem hi, Option.getD_some]
    have hraw : Holds s.code (P.offset k + c.width + 3 + (c.width + 2) * i)
        (le16 (literals.getD i 0)).toList := h.raws hk (by
      rw [Cell.raws, hlookup]
      exact List.mem_cons_of_mem _ (List.mem_map.mpr ⟨_, mem_zipIdx_of_getElem? hget, rfl⟩))
    rw [show P.offset k + 1 + offsetWidth c.wide + 2 + (offsetWidth c.wide + 2) * i =
      P.offset k + c.width + 3 + (c.width + 2) * i by rw [Cell.width]; omega]
    rw [hraw.u16?, Nat.mod_eq_of_lt (hliterals _ (List.mem_of_getElem? hget))]
  have harms : ∀ i < literals.length, Direct s.code c.wide
      (P.offset k + 1 + offsetWidth c.wide + 2 + 2 + (offsetWidth c.wide + 2) * i)
      ((P.offset (targets.getD i 0) : Int) - P.offset k) := fun i hi => by
    refine h.arm hk hdests (by omega) ?_
    rw [Cell.field, hlookup]
    simp only [Operands.field, Operands.stride, Cell.width]
    omega
  refine h.switchTargets hk (by rw [hformat]; rfl) (by rw [hformat]; rfl) (by rw [hdests]; rfl) ?_
  rw [Script.switchArms, hformat]
  simp only [show Format.isTable .lookupSwitch = false from rfl, hpairs.u16?, Nat.mod_eq_of_lt hlength]
  rw [if_neg (by decide), lookupArms_eq _ _ hindexes fun i hi => (harms i hi).offsetAt?]
  simp only [add_offset, Int.natCast_nonneg, implies_true, if_true, Int.toNat_natCast,
    List.append_toArray, List.nil_append]

end Encodes

end ScriptCompiler
