import ScriptCompiler.Compile.Expressions
import ScriptCompiler.Proofs.Binary64
import ScriptCompiler.Proofs.Code.Tally

/-!
# Number constants

A number is emitted as one instruction, and what this instruction denotes is the
number to the last bit. The literal table is used for the numbers that are no
32-bit integer only, so an integer constant can always be emitted.
-/

namespace ScriptCompiler

open Bytes Binary64

variable {g g' : Generator} {v : Binary64} {z : Int}

/-- The number an instruction pushes, read from the code and the literals. -/
def Instruction.constant? (code : Bytes) (literals : Array Literal) (i : Instruction) :
    Option Binary64 :=
  match i.op with
  | .zero => some ⟨0⟩
  | .one => some ⟨0x3FF0000000000000⟩
  | .int8 => code[i.pc + 1]?.map fun byte => ofInt (Int.bmod byte.toNat 256)
  | .uint16 => (u16? code (i.pc + 1)).map fun n : Nat => ofInt n
  | .int32 => (i32? code (i.pc + 1)).map ofInt
  | .double => do (← literals[← u16? code (i.pc + 1)]?).number?
  | _ => none

/-- One more instruction, which pushes `v`. -/
def Generator.GainsConstant (g g' : Generator) (op : Opcode) (v : Binary64) : Prop :=
  ∃ length, g.Gains g' ⟨g.offset, op, length⟩ ∧
    (⟨g.offset, op, length⟩ : Instruction).constant? g'.code g'.literals.entries = some v

namespace Emit

/-- Operands are read behind the opcode. -/
theorem constant_run (op : Opcode) (operands : Bytes)
    (hlength : op.format.operandLen = some operands.size) (hblock : op ≠ .enterBlock)
    (hread : ∀ code : Bytes, Holds code (g.offset + 1) operands.toList →
      (⟨g.offset, op, 1 + operands.size⟩ : Instruction).constant? code g.literals.entries = some v) :
    ∃ g', (do let _ ← instruction op operands) g = .ok () g' ∧ g.GainsConstant g' op v := by
  obtain ⟨g', hok, hgains, hcode⟩ := instruction_run g operands hlength hblock
  have hliterals : g'.literals = g.literals := by
    obtain ⟨bytes, -, -, rfl⟩ := hgains
    simp only [Generator.applyEffect, Generator.append, Generator.modifySection]
    cases g.current <;> rfl
  have hholds : Holds g'.code (g.code.toList ++ [op.toByte]).length operands.toList :=
    @holds_of_toList _ _ _ [] (by simp [hcode])
  rw [List.length_append, Array.length_toList] at hholds
  exact ⟨g', bind_of_ok hok, _, hgains, by rw [hliterals]; exact hread g'.code hholds⟩

end Emit

namespace Walk

/-- An integer needs no literal and is always emitted. -/
theorem number_immediate (g : Generator) (hz : v.toInt32? = some z) :
    ∃ g' op, number v g = .ok () g' ∧ op ≠ .double ∧ g.GainsConstant g' op v := by
  obtain ⟨hfits, himage⟩ := toInt32?_eq_some.mp hz
  have hrange : -2147483648 ≤ z ∧ z ≤ 2147483647 := by simpa [fits32] using hfits
  -- the image is unique, so it is enough to read `z` back
  obtain rfl : v = ofInt z := himage.unique (isImage_ofInt (by omega))
  simp only [number, hz]
  split
  · rename_i hzero
    obtain ⟨g', hok, hgains⟩ := Emit.constant_run (g := g) (v := ofInt z) .zero #[] rfl (by decide)
      fun _ _ => by rw [hzero]; rfl
    exact ⟨g', .zero, hok, by decide, hgains⟩
  split
  · rename_i hone
    have hbits : ofInt 1 = ⟨0x3FF0000000000000⟩ := by decide +kernel
    obtain ⟨g', hok, hgains⟩ := Emit.constant_run (g := g) (v := ofInt z) .one #[] rfl (by decide)
      fun _ _ => by rw [hone, hbits]; rfl
    exact ⟨g', .one, hok, by decide, hgains⟩
  split
  · have hsigned : Int.bmod ((z % 256).toNat % 256 : Nat) 256 = z := by
      rw [Int.bmod_def]
      omega
    obtain ⟨g', hok, hgains⟩ := Emit.constant_run (g := g) (v := ofInt z) .int8
      #[UInt8.ofNat (z % 256).toNat] rfl (by decide) fun code h => by
        simp only [Instruction.constant?, (holds_cons.mp h).1, Option.map_some, UInt8.toNat_ofNat',
          hsigned]
    exact ⟨g', .int8, hok, by decide, hgains⟩
  split
  · have hunsigned : (((UInt16.ofNat z.toNat).toNat % 65536 : Nat) : Int) = z := by
      rw [UInt16.toNat_ofNat']
      omega
    obtain ⟨g', hok, hgains⟩ := Emit.constant_run (g := g) (v := ofInt z) .uint16
      (le16 (UInt16.ofNat z.toNat).toNat) rfl (by decide) fun code h => by
        simp only [Instruction.constant?, h.u16?, Option.map_some, hunsigned]
    exact ⟨g', .uint16, hok, by decide, hgains⟩
  · obtain ⟨g', hok, hgains⟩ := Emit.constant_run (g := g) (v := ofInt z) .int32
      (le32 (image32 z)) rfl (by decide) fun code h => by
        simp only [Instruction.constant?, h.i32? hfits, Option.map_some]
    exact ⟨g', .int32, hok, by decide, hgains⟩

/-- A number that is no integer is pushed from the table. -/
theorem number_literal (hnone : v.toInt32? = none) (hreached : g.literals.Reached)
    (hok : number v g = .ok () g') :
    ∃ literals, { g with literals }.GainsConstant g' .double v := by
  simp only [number, hnone, literalOp, Emit.opLiteral, bind_assoc] at hok
  obtain ⟨index, g₁, hindex, hop⟩ := Emit.bind_ok.mp hok
  obtain ⟨literals, rfl, hindexes⟩ := literalIndex_ok hindex
  obtain ⟨-, hentry⟩ := hreached.indexed.index hindexes
  obtain ⟨g₂, hok, hgains⟩ := Emit.constant_run (g := { g with literals }) (v := v) .double
    (le16 index.toNat) rfl (by decide) fun code h => by
      simp only [Instruction.constant?, h.u16?, Nat.mod_eq_of_lt index.toNat_lt,
        Option.bind_eq_bind, Option.bind_some, hentry, Literal.number?]
  cases hop.symm.trans hok
  exact ⟨literals, hgains⟩

/-- Every number is emitted exactly, as a literal only if it is no 32-bit integer. -/
theorem number_exact (v : Binary64) (hreached : g.literals.Reached) :
    ((∃ z, fits32 z = true ∧ v.IsImage z) → ∃ g', number v g = .ok () g') ∧
    ∀ g', number v g = .ok () g' → ∃ literals op, { g with literals }.GainsConstant g' op v ∧
      (op = .double → ∀ z, fits32 z = true → ¬ v.IsImage z) := by
  constructor
  · rintro ⟨z, hz⟩
    obtain ⟨g', -, hok, -⟩ := number_immediate g (toInt32?_eq_some.mpr hz)
    exact ⟨g', hok⟩
  · intro g' hok
    cases hz : v.toInt32? with
    | some z =>
      obtain ⟨g₁, op, hnumber, hop, hgains⟩ := number_immediate g hz
      rw [hok] at hnumber
      cases hnumber
      exact ⟨g.literals, op, hgains, fun heq => absurd heq hop⟩
    | none =>
      obtain ⟨literals, hgains⟩ := number_literal hz hreached hok
      refine ⟨literals, .double, hgains, fun _ z hfits himage => ?_⟩
      have hsome := toInt32?_eq_some.mpr ⟨hfits, himage⟩
      rw [hz] at hsome
      cases hsome

/-- The least 32-bit integer, into an empty unit. -/
theorem number_exact_least : ∃ g' literals op,
    number ⟨0xC1E0000000000000⟩ (.new "unit" 1 .standard) = .ok () g' ∧ op ≠ .double ∧
      { Generator.new "unit" 1 .standard with literals }.GainsConstant g' op ⟨0xC1E0000000000000⟩ := by
  have himage := toInt32?_eq_some.mp
    (show (⟨0xC1E0000000000000⟩ : Binary64).toInt32? = some (-2147483648) by decide +kernel)
  obtain ⟨hruns, hexact⟩ := number_exact (g := .new "unit" 1 .standard) ⟨0xC1E0000000000000⟩
    (.empty _)
  obtain ⟨g', hok⟩ := hruns ⟨_, himage⟩
  obtain ⟨literals, op, hgains, hdouble⟩ := hexact g' hok
  exact ⟨g', literals, op, hok, fun heq => hdouble heq _ himage.1 himage.2, hgains⟩

end Walk

end ScriptCompiler
