import ScriptCompiler.Proofs.Frame.Basic

/-!
# Code and nothing else

Operations on code change the code of the sections, the table of spans and the
model of the stack. They never take code back, and everything else stays.
-/

namespace ScriptCompiler

/-- Nothing but code, spans and the model of the stack changes, and no code is taken back. -/
structure CodeOnly (g g' : Generator) : Prop where
  rest : g' = { g with
    prolog := { g.prolog with code := g'.prolog.code }
    main := { g.main with code := g'.main.code }
    spans := g'.spans, depth := g'.depth, warnings := g'.warnings }
  prolog : g.prolog.code.size ≤ g'.prolog.code.size
  main : g.main.code.size ≤ g'.main.code.size

namespace CodeOnly

instance : IsPreorder Generator CodeOnly where
  refl _ := ⟨rfl, Nat.le_refl _, Nat.le_refl _⟩
  trans _ _ _ h h' := ⟨by rw [h'.rest, h.rest], Nat.le_trans h.prolog h'.prolog,
    Nat.le_trans h.main h'.main⟩

instance (spans : Generator → SpanTable) : Changes CodeOnly fun g => { g with spans := spans g } :=
  ⟨fun _ => ⟨rfl, Nat.le_refl _, Nat.le_refl _⟩⟩

end CodeOnly

/-- Code is written without the table of spans. -/
structure SectionOnly (g g' : Generator) : Prop extends CodeOnly g g' where
  spans : g'.spans = g.spans

namespace SectionOnly

instance : IsPreorder Generator SectionOnly where
  refl g := ⟨refl_of CodeOnly g, rfl⟩
  trans _ _ _ h h' := ⟨IsTrans.trans _ _ _ h.toCodeOnly h'.toCodeOnly, h'.spans.trans h.spans⟩

instance (pc uses defs scratch : Nat) :
    Changes SectionOnly fun g => g.applyEffect pc uses defs scratch :=
  ⟨fun _ => ⟨⟨rfl, Nat.le_refl _, Nat.le_refl _⟩, rfl⟩⟩

/-- Code that is read from a state is replaced by code that is no shorter. -/
class Lengthens {σ : Type} (read write : σ → Bytes) : Prop where
  le : ∀ s, (read s).size ≤ (write s).size

section Lengthens

variable {σ : Type} (read : σ → Bytes)

instance (bytes : Bytes) : Lengthens read fun s => read s ++ bytes := ⟨fun _ => by simp⟩

instance (pc : Nat) (byte : UInt8) : Lengthens read fun s => (read s).setIfInBounds pc byte :=
  ⟨fun _ => by simp⟩

instance (position value : Nat) : Lengthens read fun s => Bytes.setU16 (read s) position value :=
  ⟨fun _ => by simp⟩

end Lengthens

instance (write : Generator → Bytes) [h : Lengthens (·.main.code) write] :
    Changes SectionOnly fun g => { g with main := { g.main with code := write g } } :=
  ⟨fun g => ⟨⟨rfl, Nat.le_refl _, h.le g⟩, rfl⟩⟩

instance (write : CodeSection → Bytes) [h : Lengthens CodeSection.code write] :
    Changes SectionOnly fun g => g.modifySection fun s => { s with code := write s } where
  changes g := by
    rw [Generator.modifySection]
    split
    · exact ⟨⟨rfl, h.le g.prolog, Nat.le_refl _⟩, rfl⟩
    · exact ⟨⟨rfl, Nat.le_refl _, h.le g.main⟩, rfl⟩

end SectionOnly

namespace Emit

/-- A step that changes code, spans and the model of the stack at most. -/
abbrev WritesCode {α : Type} (x : Emit α) : Prop := Within CodeOnly x

/-- A step that changes code and the model of the stack at most. -/
abbrev WritesSection {α : Type} (x : Emit α) : Prop := Within SectionOnly x

instance (priority := low) {α : Type} {x : Emit α} [h : WritesSection x] : WritesCode x :=
  h.mono fun _ _ => SectionOnly.toCodeOnly

/-! ## Instructions -/

instance (bytes : Bytes) : WritesSection (appendCode bytes) := by rw [appendCode]; infer_instance

instance (op : Opcode) (pc pushed : Nat) : WritesSection (updateDepth op pc pushed) := by
  rw [updateDepth]
  infer_instance

instance (op : Opcode) (operands : Bytes) : WritesSection (instruction op operands) := by
  rw [instruction]
  infer_instance

instance (code : Opcode) : WritesSection (op code) := by rw [op]; infer_instance

instance (op : Opcode) (operand : UInt8) : WritesSection (opU8 op operand) := by
  rw [opU8]
  infer_instance

instance (op : Opcode) (operand : UInt16) : WritesSection (opU16 op operand) := by
  rw [opU16]
  infer_instance

instance (op : Opcode) (operand : Int) : WritesSection (opI32 op operand) := by
  rw [opI32]
  infer_instance

instance (count : UInt16) : WritesSection (popN count) := by rw [popN]; infer_instance

instance (count : UInt16) : WritesSection (leaveBlock count) := by rw [leaveBlock]; infer_instance

instance (count : UInt16) : WritesSection (enterBlock count) := by rw [enterBlock]; infer_instance

instance (op : Opcode) (extra : Nat) : WritesSection (opZeroed op extra) := by
  simp only [opZeroed]
  infer_instance

instance (pc : Nat) (op : Opcode) : WritesSection (setOp pc op) := by
  simp only [setOp]
  infer_instance

instance (position value : Nat) : WritesSection (setU16 position value) := by
  simp only [setU16]
  infer_instance

instance (position : Nat) (value : Int) : WritesSection (setI16 position value) := by
  rw [setI16]
  infer_instance

/-! ## Spans -/

instance (position value : Nat) : WritesSection (setMainU16 position value) := by
  simp only [setMainU16]
  infer_instance

instance (position : Nat) : WritesCode (mainI16 position) := by rw [mainI16]; infer_instance

instance (start stop : Nat) : WritesCode (spanBetween start stop) := by
  simp only [spanBetween]
  infer_instance

instance (pc : Nat) : WritesCode (fieldOf pc) := by
  simp only [fieldOf]
  infer_instance

instance (index top : Nat) (z : Int) : WritesCode (setSpanTarget index top z) := by
  simp only [setSpanTarget]
  infer_instance

instance (top field : Nat) (z : Int) : WritesCode (addSpan top field z) := by
  simp only [addSpan]
  exact .go fun _ => .go fun _ => .go fun _ => .go fun _ => .go fun _ => inferInstance

instance (top skip position count : Nat) : WritesCode (addArms top skip position count) := by
  induction count generalizing position with
  | zero => rw [addArms]; infer_instance
  | succ count ih => rw [addArms]; infer_instance

instance (top : Nat) : WritesCode (addSwitch top) := by
  simp only [addSwitch]
  exact .go fun _ => .go fun _ => .go fun _ => .go fun _ => .go fun _ => inferInstance

instance (stop fuel pc : Nat) : WritesCode (scanSpans stop fuel pc) := by
  induction fuel generalizing pc with
  | zero => rw [scanSpans]; infer_instance
  | succ fuel ih =>
    simp only [scanSpans]
    split
    · infer_instance
    · refine .go fun _ => .go fun _ => .go fun op => ?_
      split <;> infer_instance

instance : WritesCode buildSpans := by
  simp only [buildSpans]
  infer_instance

instance (field : Nat) : WritesCode (locateSpan field) := by
  simp only [locateSpan]
  infer_instance

/-! ## Jumps -/

instance (op : Opcode) (z : Int) : WritesCode (jump op z) := by
  simp only [jump]
  infer_instance

instance (op : Opcode) : WritesCode (beginJump op) := by rw [beginJump]; infer_instance

instance (field : Nat) : WritesCode (offsetAt field) := by
  simp only [offsetAt]
  infer_instance

instance (field : Nat) (z : Int) : WritesCode (setOffsetAt field z) := by
  simp only [setOffsetAt]
  infer_instance

instance (pc : Nat) : WritesCode (jumpOffset pc) := by rw [jumpOffset]; infer_instance

instance (pc : Nat) (z : Int) : WritesCode (setJumpOffset pc z) := by
  rw [setJumpOffset]
  infer_instance

instance (pc : Nat) (delta : Int) : WritesCode (setLinkDelta pc delta) := by
  simp only [setLinkDelta]
  infer_instance

instance (pc : Nat) : WritesCode (landHere pc) := by rw [landHere]; infer_instance

instance (op : Opcode) (target : Nat) : WritesCode (jumpTo op target) := by
  rw [jumpTo]
  infer_instance

instance (op : Opcode) (last : Option Nat) : WritesCode (link op last) := by
  simp only [link]
  cases last <;> infer_instance

instance (target : Nat) (op : Opcode) (fuel : Nat) (cursor : Option Nat) :
    WritesCode (resolveLinks target op fuel cursor) := by
  induction fuel generalizing cursor with
  | zero => cases cursor <;> rw [resolveLinks] <;> infer_instance
  | succ fuel ih =>
    cases cursor with
    | none => rw [resolveLinks]; infer_instance
    | some pc =>
      simp only [resolveLinks]
      exact .go fun _ => .go fun _ => .go fun _ => inferInstance

instance (last : Option Nat) (target : Nat) (op : Opcode) :
    WritesCode (resolveChain last target op) := by
  rw [resolveChain]
  infer_instance

end Emit

end ScriptCompiler
