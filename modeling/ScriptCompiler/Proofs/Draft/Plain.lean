import ScriptCompiler.Proofs.Code.Notes
import ScriptCompiler.Proofs.Draft.Emit
import ScriptCompiler.Proofs.Literals

/-!
# Instructions without offsets

Steps that add at most an instruction without offsets, an entry to one of the
tables or a hoisted declaration, as steps from draft to draft.
-/

namespace ScriptCompiler

open Bytes Emit

variable {op : Opcode} {i : UInt16} {pc : Nat} {b : Draft} {bytes : Bytes} {depth : Int}

/-- An opcode with `n` operand bytes that are neither offsets nor an index into a table, and that
says how much it pushes. -/
def Opcode.Simple (op : Opcode) (n : Nat) : Prop :=
  op.format.jumpLen = none ∧ op.spec.length = some (1 + n) ∧ op.spec.defs.isSome = true ∧
    op.format ≠ .literal ∧ op.format ≠ .function

instance (op : Opcode) (n : Nat) : Decidable (op.Simple n) := inferInstanceAs (Decidable (_ ∧ _))

theorem Opcode.placeholder_of_plain (h : op.format.jumpLen = none) :
    op.spec.placeholder = false := by
  cases op <;> first | rfl | cases h

/-- A cell without offsets may follow. -/
theorem Draft.admits_plain {a : Draft} {bytes : List UInt8} (hjump : op.format.jumpLen = none)
    (hlen : op.spec.length = some (1 + bytes.length))
    (hliteral : op.format = .literal → (Operands.plain bytes).immediate < a.literals.length)
    (hfunction : op.format = .function → (Operands.plain bytes).immediate < a.functions.length)
    (frame : Frame) : a.Admits (.plain op bytes frame) where
  ok :=
    { shaped := .of_plain hjump hlen frame
      final := Opcode.placeholder_of_plain hjump
      holes := trivial
      literal := hliteral
      function := hfunction }
  old := fun _ hmem => absurd hmem List.not_mem_nil
  pending := fun _ _ hmem => absurd hmem List.not_mem_nil

/-! ## Tables -/

/-- The code of a draft stays sound with more in the tables. -/
theorem Draft.Sound.extend {a : Draft} (h : a.Sound) (hmain : b.main = a.main)
    (hfilled : b.filled = a.filled) (hserial : b.serial = a.serial) (hopens : b.opens = a.opens)
    (hsettled : b.settled = a.settled) (hliterals : a.literals.length ≤ b.literals.length)
    (hfunctions : a.functions.length ≤ b.functions.length)
    (hregions : ∀ r ∈ b.regions, r.start ≤ b.main.length ∧ r.stop ≤ b.main.length)
    (hhigh : b.depth.depth.toNat ≤ b.depth.high)
    (hprolog : ∀ c ∈ b.prolog, Declares b.literals.length b.functions.length c)
    (hnested : ∀ script ∈ b.functions, b.nested script) : b.Sound where
  cells k c hk := (h.cells k c (hmain ▸ hk)).mono hliterals hfunctions
  used k c hk := by
    rw [hmain, hserial]
    exact h.used k c (hmain ▸ hk)
  fresh := by
    rw [hmain, hserial, hfilled]
    exact h.fresh
  targets := by
    rw [hmain, hfilled]
    exact h.targets
  literals k i n hn := Nat.lt_of_lt_of_le (h.literals k i n (hfilled ▸ hn)) hliterals
  serials := by
    rw [hopens, hserial]
    exact h.serials
  distinct := hopens ▸ h.distinct
  updates := by
    rw [hopens, hmain]
    exact h.updates
  pending := by
    rw [hmain, hfilled, hopens]
    exact h.pending
  unfilled := by
    rw [hfilled, hopens]
    exact h.unfilled
  settled := by
    rw [hmain, hfilled, hsettled]
    exact h.settled
  regions := hregions
  high := hhigh
  prolog := hprolog
  nested := hnested

/-- The statement stack does not see the tables. -/
theorem Stacked.extend {s : StatementStack} {a : Draft} (h : Stacked s a) (hmain : b.main = a.main)
    (hfilled : b.filled = a.filled) (hopens : b.opens = a.opens) : Stacked s b := by
  have hhead : b.head = a.head := by
    funext hole
    simp only [Draft.head, hmain, hfilled]
  refine ⟨h.size.trans (by rw [hopens]), fun i e o he ho => ?_, h.linked⟩
  have hstated := h.entries i e o he (hopens ▸ ho)
  exact ⟨hstated.kind, hstated.label, hstated.scope, by rw [hmain]; exact hstated.update,
    by rw [hhead]; exact hstated.link⟩

theorem Declares.mono {literals functions literals' functions' : Nat} {c : Cell Nat}
    (h : Declares literals functions c) (hliterals : literals ≤ literals')
    (hfunctions : functions ≤ functions') : Declares literals' functions' c := by
  obtain ⟨i, hi, ⟨hlt, rfl⟩ | ⟨hlt, rfl⟩⟩ := h
  · exact ⟨i, hi, .inl ⟨Nat.lt_of_lt_of_le hlt hliterals, rfl⟩⟩
  · exact ⟨i, hi, .inr ⟨Nat.lt_of_lt_of_le hlt hfunctions, rfl⟩⟩

variable {g g' : Generator} {a : Draft}

namespace Built

theorem size (h : Built g a) : g.main.code.size = position a.main a.main.length := by
  rw [h.code.size, Draft.cells, length_shown, position_shown]

theorem offset_ok (h : Built g a) {n : Nat} (hok : offset g = .ok n g') :
    n = position a.main a.main.length ∧ g' = g := by
  obtain ⟨rfl, rfl⟩ := Emit.offset_ok hok h.main
  exact ⟨h.size, rfl⟩

end Built

namespace Drafted

variable (h : Drafted g a)

include h

/-- Notes do not show in a draft. -/
theorem noted (hnoted : Noted g g') : Drafted g' a := by
  obtain ⟨notes, offset, line, rfl⟩ := hnoted
  rw [Generator.modifySection_main h.built.main]
  obtain ⟨hbuilt, hstacked⟩ := h
  exact ⟨{ hbuilt with }, hstacked⟩

/-- Nesting levels do not show in a draft. -/
theorem withLevel (level : Nat) : Drafted { g with level } a := by
  obtain ⟨hbuilt, hstacked⟩ := h
  exact ⟨{ hbuilt with }, hstacked⟩

/-- An instruction without offsets is one more cell. -/
theorem instruction (hok : Emit.instruction op bytes g = .ok pc g') (frame : Frame)
    (hjump : op.format.jumpLen = none) (hlen : op.spec.length = some (1 + bytes.size))
    (hdefs : op.spec.defs.isSome)
    (hliteral : op.format = .literal → (Operands.plain bytes.toList).immediate < a.literals.length)
    (hfunction : op.format = .function →
      (Operands.plain bytes.toList).immediate < a.functions.length) :
    pc = position a.main a.main.length ∧ Drafted g' (a.emit (.plain op bytes.toList frame)) := by
  obtain ⟨rfl, hemitted⟩ := instruction_emitted hok h.built.code h.built.main hjump hlen hdefs frame
  have hadmits : a.Admits (.plain op bytes.toList frame) :=
    Draft.admits_plain hjump (by simpa using hlen) hliteral hfunction frame
  exact ⟨h.built.size, h.emit hadmits (fun _ hj => by cases hj) hemitted⟩

/-- An instruction that refers to no table is one more cell. -/
theorem simple (hok : Emit.instruction op bytes g = .ok pc g') (hop : op.Simple bytes.size)
    (frame : Frame) :
    pc = position a.main a.main.length ∧ Drafted g' (a.emit (.plain op bytes.toList frame)) :=
  h.instruction hok frame hop.1 hop.2.1 hop.2.2.1 (fun heq => absurd heq hop.2.2.2.1)
    fun heq => absurd heq hop.2.2.2.2

/-- A block is entered. -/
theorem enterBlock {count : UInt16} (hok : Emit.enterBlock count g = .ok pc g') (frame : Frame) :
    pc = position a.main a.main.length ∧
      Drafted g' (a.emit (.plain .enterBlock (le16 count.toNat).toList frame)) := by
  obtain ⟨rfl, hemitted⟩ := enterBlock_emitted hok h.built.code h.built.main frame
  have hadmits : a.Admits (.plain .enterBlock (le16 count.toNat).toList frame) :=
    Draft.admits_plain rfl rfl (fun heq => by cases heq) (fun heq => by cases heq) frame
  exact ⟨h.built.size, h.emit hadmits (fun _ hj => by cases hj) hemitted⟩

/-- The model of the stack is overridden. -/
theorem setStackDepth (hok : Emit.setStackDepth depth g = .ok () g') :
    Drafted g' { a with depth := a.depth.set depth } := by
  obtain rfl := modify_ok.mp hok
  obtain ⟨hbuilt, hstacked⟩ := h
  have hsound := hbuilt.sound
  refine ⟨{ hbuilt with sound := ?_, depth := ?_ }, hstacked.extend rfl rfl rfl⟩
  · exact hsound.extend rfl rfl rfl rfl rfl (Nat.le_refl _) (Nat.le_refl _) hsound.regions
      (Nat.le_max_right _ _) hsound.prolog hsound.nested
  · exact congrArg (StackDepth.set · depth) hbuilt.depth

/-- A literal is found or enters the table. -/
theorem literal {literal : Literal} {table : LiteralTable}
    (hindex : Indexes g.literals literal i table) :
    ∃ literals, a.literals <+: literals ∧ literals[i.toNat]? = some literal ∧
      Drafted { g with literals := table } { a with literals } := by
  obtain ⟨hbuilt, hstacked⟩ := h
  have hsound := hbuilt.sound
  have hindexed : g.literals.Indexed := fun other n hother => by
    rw [← Array.getElem?_toList, hbuilt.literals]
    exact hbuilt.indexed other n hother
  rcases hindex with ⟨hknown, rfl⟩ | ⟨hnew, rfl⟩
  · exact ⟨a.literals, List.prefix_rfl, hbuilt.indexed literal i.toNat hknown, hbuilt, hstacked⟩
  · have hsize : g.literals.entries.size = a.literals.length := by
      rw [← hbuilt.literals, Array.length_toList]
    have hlen : a.literals.length ≤ (a.literals ++ [literal]).length := by simp
    refine ⟨a.literals ++ [literal], List.prefix_append _ _, ?_, ?_, hstacked.extend rfl rfl rfl⟩
    · rw [hnew, hsize]
      simp
    · refine { hbuilt with sound := ?_, literals := ?_, indexed := ?_ }
      · exact hsound.extend rfl rfl rfl rfl rfl hlen (Nat.le_refl _) hsound.regions hsound.high
          (fun c hc => (hsound.prolog c hc).mono hlen (Nat.le_refl _)) hsound.nested
      · simp only [LiteralTable.push, Array.toList_push, hbuilt.literals]
      · exact fun other n hother => by
          simpa [LiteralTable.push, hbuilt.literals, ← Array.getElem?_toList] using
            hindexed.push literal other n hother

/-- A finished function enters the table. -/
theorem addFunction {script : Script} (hscript : a.nested script)
    (hok : Emit.addFunction script g = .ok i g') :
    (a.functions ++ [script])[i.toNat]? = some script ∧
      Drafted g' { a with functions := a.functions ++ [script] } := by
  obtain ⟨hbuilt, hstacked⟩ := h
  have hsound := hbuilt.sound
  simp only [Emit.addFunction, get_bind, guard_throw_ok, modify_bind, pure_ok] at hok
  obtain ⟨hlt, hi, rfl⟩ := hok
  have hsize : g.functions.size = a.functions.length := by
    rw [← hbuilt.functions, Array.length_toList]
  have hlen : a.functions.length ≤ (a.functions ++ [script]).length := by simp
  refine ⟨?_, ?_, hstacked.extend rfl rfl rfl⟩
  · rw [← hi, UInt16.toNat_ofNat', Nat.mod_eq_of_lt (by omega), hsize]
    simp
  · refine { hbuilt with sound := ?_, functions := ?_ }
    · refine hsound.extend rfl rfl rfl rfl rfl (Nat.le_refl _) hlen hsound.regions hsound.high
        (fun c hc => (hsound.prolog c hc).mono (Nat.le_refl _) hlen) fun other hother => ?_
      rcases List.mem_append.mp hother with hmem | hmem
      · exact hsound.nested other hmem
      · rw [List.mem_singleton.mp hmem]
        exact hscript
    · simp only [Array.toList_push, hbuilt.functions]

/-- A declaration is hoisted. -/
theorem hoist (hspec : op.spec.uses = some 0 ∧ op.spec.defs = some 0 ∧ op.spec.scratch = 0)
    (hdeclares : Declares a.literals.length a.functions.length
      (.plain op (le16 i.toNat).toList ⟨0⟩))
    (hok : Emit.opU16 op i { g with current := .prolog } = .ok pc g') :
    Drafted { g' with current := .main } { a with
      prolog := a.prolog ++ [.plain op (le16 i.toNat).toList ⟨0⟩]
      depth := a.depth.apply 0 0 0
      quiet := a.quiet ∧ 0 ≤ a.depth.depth } := by
  obtain ⟨hbuilt, hstacked⟩ := h
  have hsound := hbuilt.sound
  simp only [opU16, Emit.instruction, appendCode, bind_ok, modify_ok, pure_ok] at hok
  obtain ⟨_, g₁, ⟨n, g₀, hoffset, _, _, hmodify, rfl, rfl⟩, _, g₂, hupdate, -, rfl⟩ := hok
  obtain ⟨rfl, rfl⟩ : n = g.prolog.code.size ∧ g₀ = { g with current := .prolog } := by
    simp only [offset, get_bind, pure_ok] at hoffset
    exact ⟨hoffset.1.symm, hoffset.2.symm⟩
  subst hmodify
  have hread : (g.prolog.code ++ (#[op.toByte] ++ le16 i.toNat))[g.prolog.code.size]? =
      some op.toByte := by
    rw [Array.getElem?_append_right (Nat.le_refl _), Nat.sub_self,
      Array.getElem?_append_left Nat.zero_lt_one]
    rfl
  simp only [updateDepth, get_bind, bind_ok, liftFault_ok, modify_ok] at hupdate
  obtain ⟨uses, _, ⟨huses, rfl⟩, rfl⟩ := hupdate
  simp only [Generator.code, Generator.currentSection, Generator.modifySection, stackUses, hread,
    Opcode.ofByte?_toByte, Option.getD_some, hspec.1] at huses
  cases huses
  simp only [hspec.2.1, hspec.2.2, Option.getD_some]
  refine ⟨{ hbuilt with sound := ?_, main := rfl, prolog := ?_, depth := ?_, quiet := ?_ },
    hstacked.extend rfl rfl rfl⟩
  · refine hsound.extend rfl rfl rfl rfl rfl (Nat.le_refl _) (Nat.le_refl _) hsound.regions
      (StackDepth.apply_high _ _ _ _) (fun c hc => ?_) hsound.nested
    rcases List.mem_append.mp hc with hmem | hmem
    · exact hsound.prolog c hmem
    · rw [List.mem_singleton.mp hmem]
      exact hdeclares
  · simp [Generator.modifySection, Generator.applyEffect, hbuilt.prolog, Cell.bytes, Cell.plain]
  · exact congrArg (StackDepth.apply · 0 0 0) hbuilt.depth
  · rintro ⟨hquiet, hnonneg⟩
    obtain ⟨warnings, heq, hspares⟩ := Generator.applyEffect_eq _ _ _ _ _
    rw [heq]
    exact hspares (hbuilt.quiet hquiet) (by rw [← hbuilt.depth] at hnonneg; exact hnonneg)

/-- A region is closed. -/
theorem regionAtDepth {kind : RegionKind} {i j : Nat} (hi : i ≤ a.main.length)
    (hj : j ≤ a.main.length)
    (hok : Emit.regionAtDepth kind depth (position a.main i) (position a.main j) g = .ok () g') :
    ∃ n : Nat, depth = n ∧ Drafted g' { a with regions := a.regions ++ [⟨kind, n, i, j⟩] } := by
  obtain ⟨hbuilt, hstacked⟩ := h
  have hsound := hbuilt.sound
  simp only [Emit.regionAtDepth, lift_bind_ok, modify_ok] at hok
  obtain ⟨region, hregion, rfl⟩ := hok
  rw [Region.between] at hregion
  split at hregion
  · cases hregion
  rename_i hdepth
  split at hregion
  · cases hregion
  rename_i horder
  split at hregion
  · cases hregion
  cases hregion
  refine ⟨depth.toNat, by omega, { hbuilt with sound := ?_, closed := ?_, regions := ?_ },
    hstacked.extend rfl rfl rfl⟩
  · refine hsound.extend rfl rfl rfl rfl rfl (Nat.le_refl _) (Nat.le_refl _) (fun r hr => ?_)
      hsound.high hsound.prolog hsound.nested
    rcases List.mem_append.mp hr with hmem | hmem
    · exact hsound.regions r hmem
    · rw [List.mem_singleton.mp hmem]
      exact ⟨hi, hj⟩
  · simp [hbuilt.closed]
  · intro k r e hr he
    rcases Nat.lt_trichotomy k a.regions.length with hlt | rfl | hgt
    · rw [Array.getElem?_push_lt (by rw [hbuilt.closed]; exact hlt)] at hr
      rw [List.getElem?_append_left hlt] at he
      exact hbuilt.regions k r e (by rw [← hr]; exact Array.getElem?_eq_getElem _) he
    · rw [← hbuilt.closed, Array.getElem?_push_size] at hr
      rw [List.getElem?_append_right (Nat.le_refl _), Nat.sub_self] at he
      cases hr
      cases he
      exact ⟨rfl, rfl, rfl, by simp only; omega⟩
    · rw [List.getElem?_eq_none (by simp; omega)] at he
      cases he

end Drafted

end ScriptCompiler
