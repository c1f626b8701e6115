import ScriptCompiler.Proofs.Code.Offsets

/-!
# Emitting cells

An emitted instruction is one more cell. Its effect on the modelled stack is
that of the cell.
-/

namespace ScriptCompiler

open Bytes

variable {code bytes : Bytes} {pc pushed limit : Nat} {c : Cell Int} {spans : SpanTable}
  {op : Opcode} {z n : Int}

/-- An operand of two bytes is read back from the code. -/
theorem Cell.Shaped.u16?_immediate {δ : Type} {c : Cell δ} (h : c.Shaped)
    (hjump : c.op.format.jumpLen = none) (hlength : c.op.spec.length = some 3)
    (hraws : ∀ raw ∈ c.raws pc, Holds code raw.1 raw.2) :
    Bytes.u16? code (pc + 1) = some c.operands.immediate := by
  cases hc : c.operands with
  | plain bytes =>
    have hlen := (h.fits_plain hc).2
    rw [hlength, Option.some.injEq] at hlen
    obtain ⟨lo, hi, rfl⟩ := List.length_eq_two.mp (show bytes.length = 2 by omega)
    have hholds := hraws (pc + 1, [lo, hi]) (by simp [Cell.raws, hc, Operands.raws])
    simp only [holds_cons] at hholds
    simp [Bytes.u16?, hholds.1, hholds.2.1, Operands.immediate]
  | jump =>
    rw [h.fits_jump hc] at hjump
    cases hjump
  | table low high =>
    rw [(h.fits_table hc).1] at hjump
    cases hjump
  | lookup literals =>
    rw [(h.fits_lookup hc).1] at hjump
    cases hjump

/-- The pop count read from the code is that of the cell. -/
theorem stackUses_ok {n : Nat} (hshaped : c.Shaped) (hop : code[pc]? = some c.op.toByte)
    (hraws : ∀ raw ∈ c.raws pc, Holds code raw.1 raw.2) (h : stackUses code pc = .ok n) :
    n = c.uses := by
  simp only [stackUses, hop, Opcode.ofByte?_toByte, Option.getD_some] at h
  cases huses : c.op.spec.uses with
  | some uses =>
    rw [huses] at h
    cases h
    rw [Cell.uses, huses]
    rfl
  | none =>
    have hspec : c.op.format.jumpLen = none ∧ c.op.spec.length = some 3 := by
      cases hc : c.op <;> rw [hc] at huses <;> first | (exact ⟨rfl, rfl⟩) | (cases huses)
    simp only [huses, hshaped.u16?_immediate hspec.1 hspec.2 hraws] at h
    rw [Cell.uses, huses, Option.getD_none]
    split at h <;> rename_i hcall <;> cases h <;> simp [hcall]

theorem Generator.modifySection_main {g : Generator} (h : g.current = .main)
    (f : CodeSection → CodeSection) : g.modifySection f = { g with main := f g.main } := by
  rw [Generator.modifySection, h]

/-- No warnings come from an instruction that finds what it pops. -/
def Generator.Spares (g : Generator) (uses : Nat) (warnings : Array Warning) : Prop :=
  g.warnings = #[] → uses ≤ g.depth.depth → warnings = #[]

/-- An effect changes the depth and the warnings. -/
theorem Generator.applyEffect_eq (g : Generator) (pc uses defs scratch : Nat) :
    ∃ warnings, g.applyEffect pc uses defs scratch =
      { g with depth := g.depth.apply uses defs scratch, warnings } ∧ g.Spares uses warnings := by
  refine ⟨_, rfl, fun hquiet huses => ?_⟩
  have hpopped : ¬ g.depth.popped uses < 0 := by
    simp only [StackDepth.popped]
    omega
  simp only [StackDepth.underflow?, if_neg hpopped, hquiet]

namespace Emit

variable {g g' : Generator} {settled : Nat} {cells : List (Cell Int)}

theorem offset_ok {n : Nat} (h : offset g = .ok n g') (hmain : g.current = .main) :
    n = g.main.code.size ∧ g' = g := by
  have hoffset : g.offset = g.main.code.size := by
    rw [Generator.offset, Generator.code, Generator.currentSection, hmain]
  simp only [offset, get_bind, pure_ok] at h
  exact ⟨h.1.symm.trans hoffset, h.2.symm⟩

theorem appendCode_ok (h : appendCode bytes g = .ok pc g') (hmain : g.current = .main) :
    pc = g.main.code.size ∧
      g' = { g with main := { g.main with code := g.main.code ++ bytes } } := by
  simp only [appendCode, bind_ok] at h
  obtain ⟨n, g₁, hn, _, g₂, hmodify, hpure⟩ := h
  obtain ⟨rfl, rfl⟩ := offset_ok hn hmain
  obtain rfl := modify_ok.mp hmodify
  obtain ⟨rfl, rfl⟩ := pure_ok.mp hpure
  exact ⟨rfl, Generator.modifySection_main hmain _⟩

/-- One more cell, and its effect on the stack. -/
def Emitted (g g' : Generator) (c : Cell Int) (settled : Nat) (cells : List (Cell Int)) : Prop :=
  ∃ code spans warnings, g' = { g with
      main := { g.main with code }
      spans := spans
      depth := g.depth.apply c.uses c.defs c.op.spec.scratch
      warnings := warnings } ∧
    Codes code spans settled (cells ++ [c]) ∧ g.Spares c.uses warnings

theorem updateDepth_ok (h : updateDepth c.op pc pushed g = .ok () g') (hmain : g.current = .main)
    (hshaped : c.Shaped) (hop : g.main.code[pc]? = some c.op.toByte)
    (hraws : ∀ raw ∈ c.raws pc, Holds g.main.code raw.1 raw.2)
    (hdefs : c.op.spec.defs.getD pushed = c.defs) :
    ∃ warnings,
      g' = { g with depth := g.depth.apply c.uses c.defs c.op.spec.scratch, warnings } ∧
        g.Spares c.uses warnings := by
  simp only [updateDepth, get_bind, bind_ok, liftFault_ok, modify_ok] at h
  obtain ⟨uses, _, ⟨huses, rfl⟩, rfl⟩ := h
  have hcode : g.code = g.main.code := by
    rw [Generator.code, Generator.currentSection, hmain]
  rw [hcode] at huses
  obtain rfl := stackUses_ok hshaped hop hraws huses
  rw [hdefs]
  exact g.applyEffect_eq pc _ _ _

/-- Bytes of an instruction without offsets. -/
theorem layered_plain (h : Layered code spans limit settled cells) (hlimit : limit ≤ code.size)
    (hshaped : c.Shaped) (hc : c.operands = .plain bytes.toList) :
    Layered (code ++ (#[c.op.toByte] ++ bytes)) spans limit settled (cells ++ [c]) ∧
      (code ++ (#[c.op.toByte] ++ bytes))[code.size]? = some c.op.toByte ∧
      ∀ raw ∈ c.raws code.size, Holds (code ++ (#[c.op.toByte] ++ bytes)) raw.1 raw.2 := by
  have hop : (code ++ (#[c.op.toByte] ++ bytes))[code.size]? = some c.op.toByte := by
    rw [Array.getElem?_append_right (Nat.le_refl _), Nat.sub_self,
      Array.getElem?_append_left Nat.zero_lt_one]
    rfl
  have hraws : ∀ raw ∈ c.raws code.size,
      Holds (code ++ (#[c.op.toByte] ++ bytes)) raw.1 raw.2 := by
    intro raw hraw
    simp only [Cell.raws, hc, Operands.raws, List.mem_singleton] at hraw
    subst hraw
    have hlist : (code ++ (#[c.op.toByte] ++ bytes)).toList =
        (code.toList ++ [c.op.toByte]) ++ bytes.toList ++ [] := by simp
    simpa using holds_of_toList hlist
  have hdests : c.dests = [] := by
    have hcount := hshaped.count
    rw [hc] at hcount
    exact List.length_eq_zero_iff.mp hcount
  refine ⟨h.append hlimit hshaped (hshaped.wide_plain hc) ?_ ?_ hop hraws ?_, hop, hraws⟩
  · simp only [Cell.size, hc, Operands.size, Array.size_append, Array.length_toList]
    rfl
  · exact fun x hx => Array.getElem?_append_left hx
  · intro i z hz
    rw [hdests] at hz
    cases hz

/-- The limit of a state does not lie behind its code. -/
theorem limit_le (code : Bytes) (spans : SpanTable) :
    (if spans.active then code.size else 0) ≤ code.size := by
  split <;> omega

/-- Without new offsets, longer code has the same limit for all that matters. -/
theorem codes_of_longer {code' : Bytes}
    (h : Layered code' spans (if spans.active then code.size else 0) settled (cells ++ [c]))
    (hsize : code.size = position cells cells.length) (harms : c.operands.arms = 0) :
    Codes code' spans settled (cells ++ [c]) := by
  rw [Codes]
  cases hon : spans.active with
  | false =>
    rw [hon] at h
    exact h
  | true =>
    rw [hon, if_pos rfl] at h
    have hlast : (cells ++ [c])[cells.length]? = some c := by simp
    have hfrontier : Frontier (cells ++ [c]) code.size (cells.length + 1) 0 := by
      refine Frontier.next ?_ hlast (Nat.le_of_eq harms)
      have hkeep : position (cells ++ [c]) cells.length = position cells cells.length :=
        position_append (Nat.le_refl _)
      rw [hsize, ← hkeep]
      exact frontier_position _ _
    refine h.raise_frontier hfrontier ?_
    rw [if_pos rfl, h.size, List.length_append]
    exact frontier_position _ _

/-- An instruction without offsets is emitted. -/
theorem emitted_plain (h : Codes g.main.code g.spans settled cells) (hmain : g.current = .main)
    (hshaped : c.Shaped) (hc : c.operands = .plain bytes.toList)
    (hdefs : c.op.spec.defs.getD pushed = c.defs)
    (hok : (do
      let pc ← appendCode (#[c.op.toByte] ++ bytes)
      updateDepth c.op pc pushed
      return pc) g = .ok pc g') : pc = g.main.code.size ∧ Emitted g g' c settled cells := by
  simp only [bind_ok, pure_ok] at hok
  obtain ⟨_, g₁, happend, _, g₂, hupdate, rfl, rfl⟩ := hok
  obtain ⟨rfl, rfl⟩ := appendCode_ok happend hmain
  obtain ⟨hlayered, hop, hraws⟩ := layered_plain h (limit_le _ _) hshaped hc
  obtain ⟨warnings, rfl, hspares⟩ := updateDepth_ok hupdate hmain hshaped hop hraws hdefs
  refine ⟨rfl, _, _, warnings, rfl, ?_, hspares⟩
  exact codes_of_longer hlayered h.size (by simp [hc, Operands.arms])

/-- An instruction is emitted with its operand bytes. -/
theorem instruction_emitted (hok : instruction op bytes g = .ok pc g')
    (h : Codes g.main.code g.spans settled cells) (hmain : g.current = .main)
    (hjump : op.format.jumpLen = none) (hlen : op.spec.length = some (1 + bytes.size))
    (hdefs : op.spec.defs.isSome) (frame : Frame) :
    pc = g.main.code.size ∧ Emitted g g' (.plain op bytes.toList frame) settled cells := by
  refine emitted_plain (c := .plain op bytes.toList frame) h hmain
    (Cell.Shaped.of_plain hjump (by simpa using hlen) frame) rfl ?_ hok
  obtain ⟨defs, hdefs⟩ := Option.isSome_iff_exists.mp hdefs
  simp [Cell.defs, Cell.plain, hdefs]

/-- A 16-bit operand is read back. -/
theorem immediate_le16 (n : Nat) : (Operands.plain (le16 n).toList).immediate = n % 65536 := by
  simp only [le16, Operands.immediate, UInt8.toNat_ofNat']
  omega

/-- A block is entered. -/
theorem enterBlock_emitted {count : UInt16} (hok : enterBlock count g = .ok pc g')
    (h : Codes g.main.code g.spans settled cells) (hmain : g.current = .main) (frame : Frame) :
    pc = g.main.code.size ∧
      Emitted g g' (.plain .enterBlock (le16 count.toNat).toList frame) settled cells := by
  refine emitted_plain (c := .plain .enterBlock (le16 count.toNat).toList frame) h hmain
    (Cell.Shaped.of_plain rfl rfl frame) rfl ?_ hok
  have hcount : count.toNat < 65536 := count.toNat_lt
  simp only [Cell.defs, Cell.plain, immediate_le16, Nat.mod_eq_of_lt hcount]

/-! ## Jumps -/

/-- The bytes of a jump whose offset fits its field. -/
theorem layered_jump (h : Layered code spans limit settled cells) (hlimit : limit ≤ code.size)
    (hjump : op.format = .jump) (hfits : fits16 z) (frame : Frame) :
    Layered (code ++ (#[op.toByte] ++ le16 (image16 z))) spans limit settled
        (cells ++ [.jump op z frame]) ∧
      (code ++ (#[op.toByte] ++ le16 (image16 z)))[code.size]? = some op.toByte := by
  have hop : (code ++ (#[op.toByte] ++ le16 (image16 z)))[code.size]? = some op.toByte := by
    rw [Array.getElem?_append_right (Nat.le_refl _), Nat.sub_self,
      Array.getElem?_append_left Nat.zero_lt_one]
    rfl
  refine ⟨h.append hlimit (Cell.Shaped.of_jump hjump z frame) rfl ?_ ?_ hop ?_ ?_, hop⟩
  · rw [Array.size_append, Array.size_append]
    rfl
  · exact fun x hx => Array.getElem?_append_left hx
  · exact fun raw hraw => absurd hraw List.not_mem_nil
  · intro i w hw
    obtain ⟨rfl, rfl⟩ : i = 0 ∧ z = w := by
      simpa [Cell.jump, List.getElem?_singleton] using hw
    refine ⟨hfits, ?_⟩
    have hlist : (code ++ (#[op.toByte] ++ le16 (image16 z))).toList =
        (code.toList ++ [op.toByte]) ++ offsetBytes false z ++ [] := by simp [offsetBytes]
    simpa [Cell.field, Operands.field] using holds_of_toList hlist

theorem toNat_image16 (z : Int) : (UInt16.ofNat (image16 z)).toNat = image16 z := by
  simp only [UInt16.toNat_ofNat', image16]
  omega

/-- Jumps say how much they push. -/
theorem defs_jump (hjump : op.format = .jump) (z : Int) (frame : Frame) :
    op.spec.defs.getD 0 = (Cell.jump op z frame).defs := by
  have hdefs : op.spec.defs.isSome := by
    cases op <;> first | rfl | cases hjump
  obtain ⟨defs, hdefs⟩ := Option.isSome_iff_exists.mp hdefs
  rw [Cell.defs, Cell.jump, hdefs]
  rfl

/-- The instruction of a jump, before its offset goes into the table. -/
theorem opU16_jump (h : Codes g.main.code g.spans settled cells) (hmain : g.current = .main)
    (hjump : op.format = .jump) (hfits : fits16 n) (z : Int) (frame : Frame)
    (hok : opU16 op (UInt16.ofNat (image16 n)) g = .ok pc g') :
    pc = g.main.code.size ∧ ∃ code warnings, g' = { g with
        main := { g.main with code }
        depth := g.depth.apply (Cell.jump op z frame).uses (Cell.jump op z frame).defs
          op.spec.scratch
        warnings := warnings } ∧
      Layered code g.spans (if g.spans.active then g.main.code.size else 0) settled
        (cells ++ [.jump op n frame]) ∧ g.Spares (Cell.jump op z frame).uses warnings := by
  simp only [opU16, instruction, bind_ok, pure_ok, toNat_image16] at hok
  obtain ⟨_, g₁, happend, _, g₂, hupdate, rfl, rfl⟩ := hok
  obtain ⟨rfl, rfl⟩ := appendCode_ok happend hmain
  obtain ⟨hlayered, hop⟩ := layered_jump h (limit_le _ _) hjump hfits frame
  obtain ⟨warnings, rfl, hspares⟩ := updateDepth_ok (c := .jump op n frame) hupdate hmain
    (Cell.Shaped.of_jump hjump n frame) hop (fun raw hraw => absurd hraw List.not_mem_nil)
    (defs_jump hjump n frame)
  exact ⟨rfl, _, warnings, rfl, hlayered, hspares⟩

/-- With the table on, the offset of a new jump goes there. -/
theorem codes_addSpan {frame : Frame}
    (hok : addSpan (position cells cells.length) (position cells cells.length + 1) z g =
      .ok () g')
    (h : Layered g.main.code g.spans (position cells cells.length) settled
      (cells ++ [.jump op n frame])) (hs : settled ≤ cells.length) (hon : g.spans.active) :
    Coded g g' settled (cells ++ [.jump op z frame]) := by
  have hlast : (cells ++ [.jump op n frame])[cells.length]? = some (.jump op n frame) := by simp
  have hposition : position (cells ++ [.jump op n frame]) cells.length =
      position cells cells.length := position_append (Nat.le_refl _)
  have hfrontier : Frontier (cells ++ [.jump op n frame]) (position cells cells.length)
      cells.length 0 := by
    rw [← hposition]
    exact frontier_position _ _
  have hi : 0 < (Cell.jump op n frame).operands.arms := Nat.zero_lt_one
  have hset : (cells ++ [Cell.jump op n frame]).set cells.length
      ((Cell.jump op n frame).setDest 0 z) = cells ++ [.jump op z frame] := by
    simp [Cell.setDest, Cell.jump]
  rw [← hposition] at hok
  obtain ⟨code, spans, rfl, hgrows, hlayered⟩ := addSpan_recoded h hfrontier hlast hs hi hok
  rw [hset] at hlayered
  have hlast' : (cells ++ [.jump op z frame])[cells.length]? = some (.jump op z frame) := by simp
  have hfield := frontier_field hlast' (i := 0) Nat.zero_lt_one
  rw [position_append (Nat.le_refl _)] at hfield
  refine ⟨code, spans, rfl, ?_⟩
  rw [Codes, hgrows.active, hon, if_pos rfl]
  rw [hposition] at hlayered
  refine hlayered.raise_frontier (hfield.next hlast' (Nat.le_refl _)) ?_
  rw [hlayered.size, List.length_append]
  exact frontier_position _ _

/-- A jump is emitted while the table is on. -/
theorem emitted_table {g₁ : Generator} (hop : opU16 op (UInt16.ofNat (image16 n)) g = .ok pc g₁)
    (hadd : addSpan pc (pc + 1) z g₁ = .ok () g') (h : Codes g.main.code g.spans settled cells)
    (hmain : g.current = .main) (hon : g.spans.active) (hjump : op.format = .jump)
    (hfits : fits16 n) (frame : Frame) :
    pc = g.main.code.size ∧ Emitted g g' (.jump op z frame) settled cells := by
  obtain ⟨rfl, code, warnings, rfl, hlayered, hspares⟩ :=
    opU16_jump h hmain hjump hfits z frame hop
  rw [hon, if_pos rfl, h.size] at hlayered
  rw [h.size] at hadd
  obtain ⟨code', spans', rfl, hcodes⟩ := codes_addSpan hadd hlayered h.settled_le hon
  exact ⟨rfl, code', spans', warnings, rfl, hcodes, hspares⟩

/-- A jump comes behind the table, if that has to be built, and goes into the table, if there is
one then. -/
theorem jump_ok (h : jump op z g = .ok pc g') :
    g.current = .main ∧ ∃ g₀ g₁ n, fits16 n = true ∧ (fits16 z = true → n = z) ∧
      (if !g.spans.active && !fits16 z then buildSpans g = .ok () g₀ else g₀ = g) ∧
      opU16 op (UInt16.ofNat (image16 n)) g₀ = .ok pc g₁ ∧
      (if !fits16 z || g₁.spans.active then addSpan pc (pc + 1) z g₁ = .ok () g' else g₁ = g') := by
  simp only [jump, get_bind, guard_inconsistent_ok] at h
  obtain ⟨hmain, h⟩ := h
  refine ⟨by simpa using hmain, ?_⟩
  cases hfits : fits16 z <;> cases hon : g.spans.active <;>
    simp only [hfits, hon, Bool.not_true, Bool.not_false, Bool.and_true, Bool.and_false, Bool.true_or,
      Bool.false_or, Bool.false_eq_true, if_true, if_false, bind_ok, get_ok] at h ⊢
  case false.false =>
    obtain ⟨_, g₀, hbuild, _, g₁, hop, _, _, ⟨rfl, rfl⟩, _, _, hadd, h⟩ := h
    obtain ⟨rfl, rfl⟩ := pure_ok.mp h
    exact ⟨g₀, _, 0, by decide, by simp, hbuild, hop, hadd⟩
  case false.true =>
    obtain ⟨_, g₁, hop, _, _, ⟨rfl, rfl⟩, _, _, hadd, h⟩ := h
    obtain ⟨rfl, rfl⟩ := pure_ok.mp h
    exact ⟨g, _, 0, by decide, by simp, rfl, hop, hadd⟩
  all_goals
    obtain ⟨_, g₁, hop, _, _, ⟨rfl, rfl⟩, h⟩ := h
    refine ⟨g, g₁, z, hfits, fun _ => rfl, rfl, ?_⟩
    split at h
    · rename_i hon₁
      simp only [bind_ok, pure_ok] at h
      obtain ⟨_, _, hadd, rfl, rfl⟩ := h
      exact ⟨hop, by rwa [if_pos hon₁]⟩
    · rename_i hon₁
      obtain ⟨rfl, rfl⟩ := pure_ok.mp h
      exact ⟨hop, by rw [if_neg hon₁]⟩

/-- A jump is emitted. -/
theorem jump_emitted (h : Codes g.main.code g.spans settled cells) (hjump : op.format = .jump)
    (frame : Frame) (hok : jump op z g = .ok pc g') :
    g.current = .main ∧ pc = g.main.code.size ∧ Emitted g g' (.jump op z frame) settled cells := by
  obtain ⟨hmain, g₀, g₁, n, hn, hnz, hbuild, hop, hadd⟩ := jump_ok hok
  refine ⟨hmain, ?_⟩
  -- an offset that does not fit needs the table
  cases hbuilds : !g.spans.active && !fits16 z with
  | true =>
    rw [hbuilds, if_pos rfl] at hbuild
    simp only [Bool.and_eq_true, Bool.not_eq_true'] at hbuilds
    rw [hbuilds.2, Bool.not_false, Bool.true_or, if_pos rfl] at hadd
    obtain ⟨code, spans, rfl, hon, hcodes⟩ := buildSpans_codes h hbuilds.1 hbuild
    obtain ⟨rfl, code', spans', warnings, rfl, hcodes', hspares⟩ :=
      emitted_table hop hadd hcodes hmain hon hjump hn frame
    refine ⟨?_, code', spans', warnings, rfl, hcodes', hspares⟩
    rw [h.size]
    exact hcodes.size
  | false =>
    rw [hbuilds, if_neg Bool.false_ne_true] at hbuild
    subst hbuild
    obtain ⟨hpc, code, warnings, hg₁, hlayered, hspares⟩ := opU16_jump h hmain hjump hn z frame hop
    have hon₁ : g₁.spans.active = g₀.spans.active := by rw [hg₁]
    rw [hon₁] at hadd
    cases hon : g₀.spans.active with
    | true =>
      rw [hon, Bool.or_true, if_pos rfl] at hadd
      exact emitted_table hop hadd h hmain hon hjump hn frame
    | false =>
      have hfits : fits16 z = true := by simpa [hon] using hbuilds
      rw [hfits, hon, if_neg (by decide)] at hadd
      subst hadd hg₁ hpc
      rw [hnz hfits, hon] at hlayered
      refine ⟨rfl, code, _, warnings, rfl, ?_, hspares⟩
      rw [Codes, hon]
      exact hlayered

end Emit

end ScriptCompiler
