import ScriptCompiler.Generator.Instructions
import ScriptCompiler.Proofs.Bytes
import ScriptCompiler.Proofs.Frame.Basic
import ScriptCompiler.Proofs.Instruction
import ScriptCompiler.Proofs.Literals
import Mathlib.Data.List.Induction
import Mathlib.Order.Bounds.Basic

/-!
# The stack model, read back from code

The model of the operand stack is kept up while instructions are emitted. For
code without jumps it adds nothing to the code: walking over the bytes and adding
up what each instruction pops and pushes gives the same depth, the same need for
slots and the same warnings.
-/

namespace ScriptCompiler

variable {code code' front : Bytes} {i : Instruction} {is : List Instruction}

/-! ## The tally of instructions -/

/-- The sum of a count over instructions. -/
def Instruction.total (count : Instruction → Nat) (is : List Instruction) : Nat :=
  is.foldl (fun n i => n + count i) 0

/-- What instructions do to an empty stack. -/
structure StackTally where
  /-- Values on the stack. -/
  depth : Nat
  /-- Most slots needed so far. -/
  high : Nat
  /-- Where more is popped than there is, and the negative depth that would be reached. -/
  shortfalls : List (Nat × Int)

namespace StackTally

/-- One more instruction. It takes its scratch slots first; pops stop at the empty stack. -/
def add (code : Bytes) (t : StackTally) (i : Instruction) : StackTally where
  depth := t.depth - i.pops code + i.pushes code
  high := max (t.depth - i.pops code + i.pushes code) (max (t.depth + i.op.spec.scratch) t.high)
  shortfalls := if t.depth < i.pops code then t.shortfalls ++ [(i.pc, (t.depth : Int) - i.pops code)]
    else t.shortfalls

/-- Instructions one after the other. -/
def follow (code : Bytes) (is : List Instruction) : StackTally := is.foldl (add code) ⟨0, 0, []⟩

theorem follow_snoc (code : Bytes) (is : List Instruction) (i : Instruction) :
    follow code (is ++ [i]) = (follow code is).add code i := by
  simp [follow]

/-- The pushes of instructions less their pops. -/
def net (code : Bytes) (is : List Instruction) : Int :=
  (Instruction.total (·.pushes code) is : Int) - Instruction.total (·.pops code) is

/-- No instruction pops more than the ones in front of it leave. -/
def Covered (code : Bytes) (is : List Instruction) : Prop :=
  ∀ before i after, is = before ++ i :: after → (i.pops code : Int) ≤ net code before

/-- The depths behind the first instructions, and those with the scratch slots of the next one. -/
def depths (code : Bytes) (is : List Instruction) : Set Int :=
  {n | ∃ before after, is = before ++ after ∧ (n = net code before ∨
    ∃ i ∈ after.head?, n = net code before + i.op.spec.scratch)}

theorem total_snoc (count : Instruction → Nat) (is : List Instruction) (i : Instruction) :
    Instruction.total count (is ++ [i]) = Instruction.total count is + count i := by
  simp [Instruction.total]

theorem net_snoc (code : Bytes) (is : List Instruction) (i : Instruction) :
    net code (is ++ [i]) = net code is - i.pops code + i.pushes code := by
  simp only [net, total_snoc]
  omega

theorem depths_snoc (code : Bytes) (is : List Instruction) (i : Instruction) :
    depths code (is ++ [i]) = insert (net code (is ++ [i]))
      (insert (net code is + i.op.spec.scratch) (depths code is)) := by
  ext n
  simp only [depths, Set.mem_ofPred_eq, Set.mem_insert_iff]
  constructor
  · rintro ⟨before, after, hsplit, hn⟩
    rcases List.eq_nil_or_concat' after with rfl | ⟨init, last, rfl⟩
    · rw [List.append_nil] at hsplit
      subst hsplit
      exact .inl (by simpa using hn)
    · rw [← List.append_assoc, List.append_singleton_inj] at hsplit
      obtain ⟨rfl, rfl⟩ := hsplit
      right
      rcases hn with rfl | ⟨j, hj, rfl⟩
      · exact .inr ⟨before, init, rfl, .inl rfl⟩
      · cases init with
        | nil =>
          obtain rfl : i = j := by simpa using hj
          exact .inl (by simp)
        | cons k init => exact .inr ⟨before, k :: init, rfl, .inr ⟨j, by simpa using hj, rfl⟩⟩
  · rintro (rfl | rfl | ⟨before, after, rfl, hn⟩)
    · exact ⟨is ++ [i], [], by simp, .inl rfl⟩
    · exact ⟨is, [i], rfl, .inr ⟨i, by simp, rfl⟩⟩
    · refine ⟨before, after ++ [i], by simp, hn.imp_right ?_⟩
      rintro ⟨j, hj, rfl⟩
      exact ⟨j, by simp [Option.mem_def.mp hj], rfl⟩

/-- Without shortfalls the depth is the sum of all effects and the slots needed are the largest
depth on the way. -/
theorem follow_covered (h : Covered code is) : (follow code is).shortfalls = [] ∧
    ((follow code is).depth : Int) = net code is ∧
      IsGreatest (depths code is) (follow code is).high := by
  induction is using List.reverseRecOn with
  | nil =>
    refine ⟨rfl, rfl, ⟨[], [], rfl, .inl rfl⟩, ?_⟩
    rintro n ⟨before, after, hsplit, hn⟩
    obtain ⟨rfl, rfl⟩ := List.append_eq_nil_iff.mp hsplit.symm
    rcases hn with rfl | ⟨i, hi, -⟩
    · exact Int.le_refl 0
    · cases hi
  | append_singleton is i ih =>
    obtain ⟨hshort, hdepth, hhigh⟩ := ih fun before j after hsplit =>
      h before j (after ++ [i]) (by rw [hsplit]; simp)
    have hpops : (i.pops code : Int) ≤ net code is := h is i [] rfl
    have hnext := net_snoc code is i
    simp only [follow_snoc, add]
    refine ⟨by rw [if_neg (by omega), hshort], by omega, ?_⟩
    have hbehind : net code (is ++ [i]) =
        ((follow code is).depth - i.pops code + i.pushes code : Nat) := by omega
    have hscratch : net code is + i.op.spec.scratch =
        ((follow code is).depth + i.op.spec.scratch : Nat) := by omega
    have hcast : ∀ m n : Nat, ((max m n : Nat) : Int) = max (m : Int) n := by omega
    -- two depths are new, the one with the scratch slots and the one behind the instruction
    rw [depths_snoc, hbehind, hscratch, hcast, hcast]
    exact (hhigh.insert _).insert _

end StackTally

/-! ## Counts in the code -/

namespace Instruction

variable (hop : opcodeAt? code i.pc = some i.op)
  (hlen : instructionLength? code i.pc = some i.length)

include hop hlen

/-- An operand that counts pops or pushes is in the bytes of the instruction. -/
theorem exists_count (hcounts : i.op.spec.uses = none ∨ i.op.spec.defs = none)
    (h : Window code code' i.pc (i.pc + i.length)) :
    ∃ n, Bytes.u16? code (i.pc + 1) = some n ∧ Bytes.u16? code' (i.pc + 1) = some n := by
  have hspec : i.op.format.isSwitch = false ∧ i.op.spec.length = some 3 := by
    cases hi : i.op <;> rw [hi] at hcounts <;>
      first | exact ⟨rfl, rfl⟩ | (rcases hcounts with h | h <;> cases h)
  obtain ⟨-, ⟨-, hl⟩ | ⟨hs, -⟩⟩ := (instructionLength?_eq_some hop).mp hlen
  · rw [hspec.2, Option.some.injEq] at hl
    exact h.u16? (Nat.le_succ _) (by omega)
  · rw [hspec.1] at hs
    cases hs

theorem pops_le : i.pops code ≤ 65536 := by
  cases huses : i.op.spec.uses with
  | some uses =>
    have hsmall : uses ≤ 3 := by
      cases hi : i.op <;> rw [hi] at huses <;> cases huses <;> decide
    simp only [pops, Opcode.pops, huses, Option.getD_some]
    omega
  | none =>
    obtain ⟨n, hread, -⟩ := exists_count hop hlen (.inl huses)
      (window_of_same hop hlen fun _ _ _ => rfl)
    have hn := (Bytes.holds_of_u16? hread).1
    simp only [pops, Opcode.pops, count, huses, hread, Option.getD_none, Option.getD_some]
    split <;> omega

/-- The pops are found where the emitter looks for them. -/
theorem stackUses_eq : stackUses code i.pc = .ok (i.pops code) := by
  have hbyte := hop
  simp only [opcodeAt?, Option.bind_eq_bind, Option.bind_eq_some_iff] at hbyte
  obtain ⟨byte, hbyte, hbyteop⟩ := hbyte
  cases huses : i.op.spec.uses with
  | some uses =>
    simp only [stackUses, hbyte, hbyteop, Option.getD_some, huses, pops, Opcode.pops]
  | none =>
    obtain ⟨n, hread, -⟩ := exists_count hop hlen (.inl huses)
      (window_of_same hop hlen fun _ _ _ => rfl)
    simp only [stackUses, hbyte, hbyteop, Option.getD_some, huses, hread, pops, Opcode.pops, count,
      Option.getD_none]
    split <;> rfl

/-- The bytes of an instruction say what it pops and pushes. -/
theorem counts_eq (h : Window code code' i.pc (i.pc + i.length)) :
    i.pops code' = i.pops code ∧ i.pushes code' = i.pushes code := by
  by_cases hcounts : i.op.spec.uses = none ∨ i.op.spec.defs = none
  · obtain ⟨n, hread, hread'⟩ := exists_count hop hlen hcounts h
    simp only [pops, pushes, count, hread, hread', and_self]
  · obtain ⟨uses, huses⟩ := Option.ne_none_iff_exists'.mp fun h => hcounts (.inl h)
    obtain ⟨defs, hdefs⟩ := Option.ne_none_iff_exists'.mp fun h => hcounts (.inr h)
    simp only [pops, pushes, Opcode.pops, Opcode.pushes, huses, hdefs, Option.getD_some, and_self]

end Instruction

namespace StackTally

theorem total_congr {f f' : Instruction → Nat} (h : ∀ i ∈ is, f i = f' i) :
    Instruction.total f is = Instruction.total f' is :=
  List.foldl_ext _ _ _ fun n i hi => by rw [h i hi]

/-- More code leaves the tally of whole instructions as it is. -/
theorem follow_append (h : Whole front 0 is) (code : Bytes) :
    follow (front ++ code) is = follow front is ∧
      Instruction.total (·.pushes (front ++ code)) is = Instruction.total (·.pushes front) is := by
  have hcounts : ∀ i ∈ is, i.pops (front ++ code) = i.pops front ∧
      i.pushes (front ++ code) = i.pushes front := fun i hi => by
    obtain ⟨-, hend, hop, hlen⟩ := h.bounds.2 i hi
    exact Instruction.counts_eq hop hlen (window_of_same hop hlen fun x _ hx =>
      Array.getElem?_append_left (by omega))
  refine ⟨List.foldl_ext _ _ _ fun t i hi => ?_, total_congr fun i hi => (hcounts i hi).2⟩
  simp only [add, (hcounts i hi).1, (hcounts i hi).2]

theorem depth_le (code : Bytes) (is : List Instruction) :
    (follow code is).depth ≤ (follow code is).high ∧
      (follow code is).depth ≤ Instruction.total (·.pushes code) is := by
  induction is using List.reverseRecOn with
  | nil => exact ⟨Nat.le_refl 0, Nat.le_refl 0⟩
  | append_singleton is i ih =>
    simp only [follow_snoc, total_snoc, add]
    omega

end StackTally

/-! ## Emitting instructions -/

/-- The model has the depth, the need for slots and the warnings of a tally. -/
structure Generator.Agrees (g : Generator) (t : StackTally) : Prop where
  depth : g.depth.depth = t.depth
  high : g.depth.high = t.high
  warnings : g.warnings.toList.map (fun w => (w.offset, w.depth)) = t.shortfalls

/-- The model is not cut off as long as there are fewer than 2^31 pushes. -/
theorem Generator.Agrees.apply {g : Generator} {t : StackTally} (h : g.Agrees t)
    (hop : opcodeAt? code i.pc = some i.op) (hlen : instructionLength? code i.pc = some i.length)
    (hle : t.depth ≤ t.high) (hroom : t.depth + i.pushes code < 2147483648) :
    (g.applyEffect i.pc (i.pops code) (i.pushes code) i.op.spec.scratch).Agrees (t.add code i) := by
  have hpops := Instruction.pops_le hop hlen
  -- so room for the pushes is room for the scratch slots
  have hscratch : i.op.spec.scratch ≤ i.pushes code := by
    rw [Instruction.pushes]
    cases i.op <;> first | exact Nat.zero_le _ | exact Nat.le_succ 1
  have hpopped : g.depth.popped (i.pops code) = t.depth - i.pops code := by
    rw [StackDepth.popped, h.depth, StackDepth.least]
    omega
  have hpushed : min (max (g.depth.popped (i.pops code)) 0 + i.pushes code) StackDepth.greatest =
      ((t.add code i).depth : Nat) := by
    simp only [hpopped, StackDepth.greatest, StackTally.add]
    omega
  have hraised : min (g.depth.depth + i.op.spec.scratch) StackDepth.greatest =
      (t.depth + i.op.spec.scratch : Nat) := by
    rw [h.depth, StackDepth.greatest]
    omega
  have happly : g.depth.apply (i.pops code) (i.pushes code) i.op.spec.scratch =
      ⟨(t.add code i).depth, (t.add code i).high⟩ := by
    rw [StackDepth.popped] at hpushed
    simp only [StackDepth.apply, StackDepth.raise, StackDepth.popped, apply_ite StackDepth.depth,
      ite_self, hpushed, hraised, Int.toNat_natCast, StackDepth.mk.injEq, true_and]
    split <;> simp only [h.high, StackTally.add] <;> omega
  refine ⟨congrArg StackDepth.depth happly, congrArg StackDepth.high happly, ?_⟩
  simp only [applyEffect, StackDepth.underflow?, hpopped, StackTally.add]
  by_cases hshort : t.depth < i.pops code
  · rw [if_pos hshort, if_pos (by omega)]
    simp [h.warnings]
  · rw [if_neg hshort, if_neg (by omega)]
    exact h.warnings

/-- Operand bytes of the formats without jump offsets. -/
def Format.operandLen : Format → Option Nat
  | plain => some 0
  | uint8 => some 1
  | uint16 | literal | function => some 2
  | int32 => some 4
  | _ => none

theorem Opcode.length_of_operandLen {op : Opcode} {n : Nat} (h : op.format.operandLen = some n) :
    op.format.jumpLen = none ∧ op.spec.length = some (1 + n) := by
  cases op <;> cases h <;> exact ⟨rfl, rfl⟩

/-- Code with more bytes behind it. -/
def Generator.append (g : Generator) (bytes : Bytes) : Generator :=
  g.modifySection fun s => { s with code := s.code ++ bytes }

theorem Generator.code_append (g : Generator) (bytes : Bytes) :
    (g.append bytes).code = g.code ++ bytes := by
  simp only [append, code, currentSection, modifySection]
  cases g.current <;> rfl

theorem Generator.Agrees.append {g : Generator} {t : StackTally} (h : g.Agrees t) (bytes : Bytes) :
    (g.append bytes).Agrees t := by
  rw [Generator.append, Generator.modifySection]
  split <;> exact ⟨h.depth, h.high, h.warnings⟩

/-- One more instruction stands at the end of the code and its effect has been applied. -/
def Generator.Gains (g g' : Generator) (i : Instruction) : Prop :=
  ∃ bytes, Whole bytes 0 [⟨0, i.op, i.length⟩] ∧ i.pc = g.offset ∧
    g' = (g.append bytes).applyEffect i.pc (i.pops (g.code ++ bytes)) (i.pushes (g.code ++ bytes))
      i.op.spec.scratch

namespace Emit

variable {g : Generator} {op : Opcode} {operands : Bytes} {pushed : Nat}

/-- An opcode and its operand are one instruction. -/
theorem whole_one (hjump : op.format.jumpLen = none)
    (hlength : op.spec.length = some (1 + operands.size)) :
    Whole (#[op.toByte] ++ operands) 0 [⟨0, op, 1 + operands.size⟩] := by
  have hop : opcodeAt? (#[op.toByte] ++ operands) 0 = some op := by
    rw [opcodeAt?, Array.getElem?_append_left Nat.zero_lt_one]
    exact Opcode.ofByte?_toByte op
  have hswitch : op.format.isSwitch = false := by
    cases hs : op.format.isSwitch with
    | false => rfl
    | true =>
      obtain ⟨width, hwidth⟩ := Format.jumpLen_of_isSwitch hs
      rw [hjump] at hwidth
      cases hwidth
  refine ⟨rfl, hop, (instructionLength?_eq_some hop).mpr ⟨?_, .inl ⟨hswitch, hlength⟩⟩, ?_⟩ <;>
    simp [Whole]

/-- An instruction without jump offsets can always be emitted. -/
theorem append_run (hjump : op.format.jumpLen = none)
    (hlength : op.spec.length = some (1 + operands.size))
    (hpushes : (⟨g.offset, op, 1 + operands.size⟩ : Instruction).pushes
      (g.code ++ (#[op.toByte] ++ operands)) = op.spec.defs.getD pushed) :
    ∃ g', (do
      let pc ← appendCode (#[op.toByte] ++ operands)
      updateDepth op pc pushed
      return pc) g = .ok g.offset g' ∧ g.Gains g' ⟨g.offset, op, 1 + operands.size⟩ ∧
      g'.code = g.code ++ (#[op.toByte] ++ operands) := by
  have hlast : Whole (g.code ++ (#[op.toByte] ++ operands)) (g.code.size + 0) _ :=
    (whole_one hjump hlength).behind_code
  obtain ⟨-, hop, hlen, -⟩ := hlast
  have huses : stackUses (g.append (#[op.toByte] ++ operands)).code g.offset =
      .ok ((⟨g.offset, op, 1 + operands.size⟩ : Instruction).pops
        (g.code ++ (#[op.toByte] ++ operands))) := by
    rw [g.code_append]
    exact Instruction.stackUses_eq (i := ⟨g.offset, op, 1 + operands.size⟩) hop hlen
  refine ⟨_, ?_, ⟨_, whole_one hjump hlength, rfl, rfl⟩, g.code_append _⟩
  have happend : appendCode (#[op.toByte] ++ operands) g =
      .ok g.offset (g.append (#[op.toByte] ++ operands)) := rfl
  rw [bind_of_ok happend, hpushes]
  simp only [updateDepth, bind_ok, get_ok, liftFault_ok, modify_ok, pure_ok]
  exact ⟨(), _, ⟨_, _, ⟨rfl, rfl⟩, _, _, ⟨huses, rfl⟩, rfl⟩, trivial, rfl⟩

/-- Only the entry of a block has its pushes counted by the caller. -/
theorem instruction_run (g : Generator) (operands : Bytes)
    (hlength : op.format.operandLen = some operands.size) (hblock : op ≠ .enterBlock) :
    ∃ g', instruction op operands g = .ok g.offset g' ∧
      g.Gains g' ⟨g.offset, op, 1 + operands.size⟩ ∧
      g'.code = g.code ++ (#[op.toByte] ++ operands) := by
  obtain ⟨hjump, hlength⟩ := Opcode.length_of_operandLen hlength
  have hdefs : op.spec.defs.isSome = true := by
    cases op <;> first | rfl | exact absurd rfl hblock
  obtain ⟨defs, hdefs⟩ := Option.isSome_iff_exists.mp hdefs
  exact append_run hjump hlength
    (by simp only [Instruction.pushes, Opcode.pushes, hdefs, Option.getD_some])

theorem enterBlock_run (g : Generator) (count : UInt16) : ∃ g',
    enterBlock count g = .ok g.offset g' ∧ g.Gains g' ⟨g.offset, .enterBlock, 3⟩ ∧
      g'.code = g.code ++ (#[Opcode.enterBlock.toByte] ++ Bytes.le16 count.toNat) := by
  refine append_run rfl rfl ?_
  have hread : Bytes.u16? (g.code ++ (#[Opcode.enterBlock.toByte] ++ Bytes.le16 count.toNat))
      (g.offset + 1) = some (count.toNat % 65536) := by
    rw [Generator.offset, Bytes.u16?_append_right]
    exact Bytes.Holds.u16? (by simp [Bytes.le16, Bytes.holds_cons, Bytes.holds_nil])
  simp only [Instruction.pushes, Opcode.pushes, Instruction.count, hread, Option.getD_some,
    Nat.mod_eq_of_lt count.toNat_lt]

end Emit

/-! ## Requests -/

/-- A request for an instruction without jump offsets. -/
inductive Request where
  /-- An opcode alone. -/
  | op (op : Opcode)
  /-- With one operand byte. -/
  | opU8 (op : Opcode) (operand : UInt8)
  /-- With a 16-bit operand. -/
  | opU16 (op : Opcode) (operand : UInt16)
  /-- With a signed 32-bit operand. -/
  | opI32 (op : Opcode) (operand : Int)
  /-- With the index of a literal. -/
  | opLiteral (op : Opcode) (literal : Literal)
  /-- Pop values. -/
  | popN (count : UInt16)
  /-- Enter a block. -/
  | enterBlock (count : UInt16)
  /-- Leave a block. -/
  | leaveBlock (count : UInt16)

namespace Request

/-- What is done on request. -/
def run : Request → Emit Nat
  | op code => Emit.op code
  | opU8 code operand => Emit.opU8 code operand
  | opU16 code operand => Emit.opU16 code operand
  | opI32 code operand => Emit.opI32 code operand
  | opLiteral code literal => Emit.opLiteral code literal
  | popN count => Emit.popN count
  | enterBlock count => Emit.enterBlock count
  | leaveBlock count => Emit.leaveBlock count

/-- The opcode asked for. -/
def opcode : Request → Opcode
  | op code | opU8 code _ | opU16 code _ | opI32 code _ | opLiteral code _ => code
  | popN _ => .popN
  | enterBlock _ => .enterBlock
  | leaveBlock _ => .leaveBlock

/-- The opcode takes the operand that comes with it, and blocks are entered by their own request. -/
def Fits : Request → Prop
  | op code => code.format.operandLen = some 0
  | opU8 code _ => code.format.operandLen = some 1
  | opU16 code _ => code.format.operandLen = some 2 ∧ code ≠ .enterBlock
  | opI32 code _ => code.format.operandLen = some 4
  | opLiteral code _ => code.format = .literal
  | popN _ | enterBlock _ | leaveBlock _ => True

/-- The state that a request leaves behind, also one that fails. -/
def perform (g : Generator) (r : Request) : Generator :=
  match r.run g with
  | .ok _ g' => g'
  | .error _ g' => g'

/-- The opcodes of the requests that do not fail. -/
def granted (g : Generator) : List Request → List Opcode
  | [] => []
  | r :: requests =>
    match r.run g with
    | .ok _ g' => r.opcode :: granted g' requests
    | .error _ g' => granted g' requests

variable {g g' : Generator} {r : Request}

/-- One more instruction, or none. The table of literals may have grown. -/
def Answers (r : Request) (g : Generator) : Prop :=
  ∃ literals, (∃ e, r.run g = .error e { g with literals }) ∨
    ∃ pc g' i, r.run g = .ok pc g' ∧ i.op = r.opcode ∧ { g with literals }.Gains g' i

theorem answers (g : Generator) (hfits : r.Fits) : r.Answers g := by
  have hinstruction : ∀ operands : Bytes, r.run g = Emit.instruction r.opcode operands g →
      r.opcode.format.operandLen = some operands.size → r.opcode ≠ .enterBlock → r.Answers g := by
    intro operands hrun hlength hblock
    obtain ⟨g', hok, hgains, -⟩ := Emit.instruction_run g operands hlength hblock
    exact ⟨g.literals, .inr ⟨_, g', _, hrun.trans hok, rfl, hgains⟩⟩
  have hother : ∀ {op : Opcode} {n : Nat}, op.format.operandLen = some n → n ≠ 2 →
      op ≠ .enterBlock := by
    rintro op n h hn rfl
    cases h
    exact hn rfl
  cases r with
  | op code => exact hinstruction _ rfl hfits (hother hfits (by decide))
  | opU8 code operand => exact hinstruction _ rfl hfits (hother hfits (by decide))
  | opU16 code operand => exact hinstruction _ rfl hfits.1 hfits.2
  | opI32 code operand => exact hinstruction _ rfl hfits (hother hfits (by decide))
  | popN count => exact hinstruction _ rfl rfl (by rintro ⟨⟩)
  | leaveBlock count => exact hinstruction _ rfl rfl (by rintro ⟨⟩)
  | enterBlock count =>
    obtain ⟨g', hok, hgains, -⟩ := Emit.enterBlock_run g count
    exact ⟨g.literals, .inr ⟨_, g', _, hok, rfl, hgains⟩⟩
  | opLiteral code literal =>
    have hlength : code.format.operandLen = some 2 := by
      rw [show code.format = .literal from hfits]
      rfl
    have hblock : code ≠ .enterBlock := by
      rintro rfl
      cases hfits
    obtain ⟨literals, ⟨index, hindex, -⟩ | ⟨e, hindex⟩⟩ := literalIndex_cases literal g
    · obtain ⟨g', hok, hgains, -⟩ := Emit.instruction_run { g with literals }
        (Bytes.le16 index.toNat) hlength hblock
      exact ⟨literals, .inr ⟨_, g', _, (Emit.bind_of_ok hindex).trans hok, rfl, hgains⟩⟩
    · exact ⟨literals, .inl ⟨e, Emit.bind_error.mpr (.inl hindex)⟩⟩

end Request

/-! ## Runs -/

/-- The code is made of instructions with the given opcodes. The model agrees with their tally unless
there are too many pushes. -/
def Generator.Followed (g : Generator) (ops : List Opcode) : Prop :=
  ∃ is, Whole g.code 0 is ∧ is.map Instruction.op = ops ∧ (Instruction.total (·.pushes g.code) is < 2147483648 →
    g.Agrees (StackTally.follow g.code is))

/-- One more instruction is followed too. -/
theorem Generator.Followed.gain {g g' : Generator} {ops : List Opcode} (h : g.Followed ops)
    (hgains : g.Gains g' i) : g'.Followed (ops ++ [i.op]) := by
  obtain ⟨is, hwhole, rfl, hagrees⟩ := h
  obtain ⟨bytes, hbytes, hpc, rfl⟩ := hgains
  have hcode : ((g.append bytes).applyEffect i.pc (i.pops (g.code ++ bytes))
      (i.pushes (g.code ++ bytes)) i.op.spec.scratch).code = g.code ++ bytes := g.code_append bytes
  have hmore : Whole (g.code ++ bytes) 0 (is ++ [i]) := by
    have hall := hwhole.append hbytes
    have hi : Instruction.shift g.code.size ⟨0, i.op, i.length⟩ = i := by
      cases i
      cases hpc
      rfl
    rwa [List.map_singleton, hi] at hall
  obtain ⟨-, -, hop, hlen⟩ := hmore.bounds.2 i (by simp)
  -- what was there before counts as it did
  obtain ⟨hfollow, htotal⟩ := StackTally.follow_append hwhole bytes
  obtain ⟨hhigh, hdepth⟩ := StackTally.depth_le g.code is
  refine ⟨is ++ [i], by rwa [hcode], by simp, fun hpushes => ?_⟩
  rw [hcode, StackTally.total_snoc, htotal] at hpushes
  rw [hcode, StackTally.follow_snoc, hfollow]
  exact ((hagrees (by omega)).append bytes).apply hop hlen hhigh (by omega)

/-- The code holds the given opcodes, and the depth, the need for slots and the warnings follow from
it. -/
structure Generator.Recovered (g : Generator) (ops : List Opcode) : Prop where
  /-- Every byte belongs to an instruction. -/
  whole : Whole g.code 0 (instructions g.code)
  ops : (instructions g.code).map Instruction.op = ops
  agrees : g.Agrees (StackTally.follow g.code (instructions g.code))
  covered : StackTally.Covered g.code (instructions g.code) → g.warnings = #[] ∧
    g.depth.depth = StackTally.net g.code (instructions g.code) ∧
      IsGreatest (StackTally.depths g.code (instructions g.code)) g.depth.high

namespace Request

variable {g : Generator}

theorem followed_foldl {requests : List Request} {ops : List Opcode}
    (hfits : ∀ r ∈ requests, r.Fits) (h : g.Followed ops) :
    (requests.foldl perform g).Followed (ops ++ granted g requests) := by
  induction requests generalizing g ops with
  | nil => rwa [granted, List.append_nil]
  | cons r requests ih =>
    have ih := @ih (r.perform g)
    obtain ⟨hr, hfits⟩ := List.forall_mem_cons.mp hfits
    obtain ⟨literals, hanswer⟩ := r.answers g hr
    have hsame : Generator.Followed { g with literals } ops := by
      obtain ⟨is, hwhole, hops, hagrees⟩ := h
      exact ⟨is, hwhole, hops, fun hpushes => { hagrees hpushes with }⟩
    rw [List.foldl_cons, granted]
    rcases hanswer with ⟨e, hrun⟩ | ⟨pc, g', i, hrun, hop, hgains⟩
    · simp only [perform, hrun] at ih ⊢
      exact ih hfits hsame
    · simp only [perform, hrun] at ih ⊢
      rw [← hop, List.append_cons]
      exact ih hfits (hsame.gain hgains)

/-- Whatever instructions without jump offsets are asked for one after the other in a section, their
code says what the model of the stack has come to. -/
theorem foldl_perform_recovered (requests : List Request) (hfits : ∀ r ∈ requests, r.Fits)
    (hcode : g.code = #[]) (hdepth : g.depth = .empty) (hwarnings : g.warnings = #[])
    (hpushes : Instruction.total (·.pushes (requests.foldl perform g).code)
      (instructions (requests.foldl perform g).code) < 2147483648) :
    (requests.foldl perform g).Recovered (granted g requests) := by
  have hstart : g.Followed [] := ⟨[], by rw [hcode]; rfl, rfl, fun _ =>
    ⟨by rw [hdepth]; rfl, by rw [hdepth]; rfl, by rw [hwarnings]; rfl⟩⟩
  obtain ⟨is, hwhole, hops, hagrees⟩ := followed_foldl hfits hstart
  obtain rfl := instructions_of_whole hwhole
  have hagrees := hagrees hpushes
  refine ⟨hwhole, hops, hagrees, fun hcovered => ?_⟩
  obtain ⟨hshort, hnet, hhigh⟩ := StackTally.follow_covered hcovered
  refine ⟨?_, hagrees.depth.trans hnet, by rw [hagrees.high]; exact hhigh⟩
  have hempty := hagrees.warnings
  rw [hshort, List.map_eq_nil_iff] at hempty
  exact Array.toList_eq_nil_iff.mp hempty

/-- Five values are popped where there are two. -/
theorem foldl_perform_recovered_short :
    let g := [op .zero, op .iterNext, popN 5, enterBlock 3].foldl perform (.new "unit" 1 .standard)
    g.Recovered [.zero, .iterNext, .popN, .enterBlock] ∧ g.depth = ⟨3, 3⟩ ∧ g.warnings.toList.map (·.depth) = [-3] :=
  ⟨foldl_perform_recovered _
    (by simp only [List.forall_mem_cons]; exact ⟨rfl, rfl, trivial, trivial, List.forall_mem_nil _⟩)
    rfl rfl rfl (by decide +kernel), by decide +kernel, by decide +kernel⟩

end Request

end ScriptCompiler
