import ScriptCompiler.Compile.Switch
import ScriptCompiler.Proofs.Code.Instructions

/-!
# Emitting switches

A table or lookup switch is emitted with zeros for its offsets, and the bounds
or the number of pairs are written before anything else follows. All its
offsets are zero then.
-/

namespace ScriptCompiler

open Bytes

variable {extra pc x limit n : Nat} {code : Bytes} {byte : UInt8} {c : Cell Int} {spans : SpanTable}
  {low high : Int} {g₁ g₂ : Generator}

namespace Emit

variable {g g' : Generator} {settled : Nat} {cells : List (Cell Int)}

theorem setU16_ok {position value : Nat} (hok : setU16 position value g = .ok () g')
    (hmain : g.current = .main) :
    position + 2 ≤ g.main.code.size ∧
      g' = { g with main := { g.main with code := Bytes.setU16 g.main.code position value } } := by
  simp only [setU16, bind_ok] at hok
  obtain ⟨n, g₁, hn, hok⟩ := hok
  obtain ⟨rfl, rfl⟩ := offset_ok hn hmain
  simp only [guard_outOfBounds_ok, modify_ok, Nat.not_lt, Generator.modifySection_main hmain] at hok
  exact ⟨hok.1, hok.2.symm⟩

/-- An opcode with zeros behind it, for an opcode that says how much it pops and pushes. -/
theorem opZeroed_ok {op : Opcode} (hok : opZeroed op extra g = .ok pc g')
    (hmain : g.current = .main) (hc : c.op = op) (huses : op.spec.uses.isSome)
    (hdefs : op.spec.defs.isSome) :
    pc = g.main.code.size ∧ ∃ warnings, g' = { g with
        main := { g.main with code := g.main.code ++ #[op.toByte] ++ Array.replicate extra 0 }
        depth := g.depth.apply c.uses c.defs c.op.spec.scratch
        warnings := warnings } ∧ g.Spares c.uses warnings := by
  subst hc
  simp only [opZeroed, bind_ok] at hok
  obtain ⟨_, g₁, happend, hok⟩ := hok
  obtain ⟨rfl, rfl⟩ := appendCode_ok happend hmain
  simp only [guard_throw_ok, bind_ok, huses, if_true, pure_ok] at hok
  obtain ⟨-, -, _, g₂, happend', _, g₃, hupdate, rfl, rfl⟩ := hok
  obtain ⟨-, rfl⟩ := appendCode_ok happend' hmain
  refine ⟨rfl, ?_⟩
  obtain ⟨uses, huses⟩ := Option.isSome_iff_exists.mp huses
  obtain ⟨defs, hdefs⟩ := Option.isSome_iff_exists.mp hdefs
  have hcuses : c.uses = uses := by rw [Cell.uses, huses]; rfl
  have hcdefs : c.op.spec.defs.getD 0 = c.defs := by rw [Cell.defs, hdefs]; rfl
  simp only [updateDepth, get_bind, bind_ok, liftFault_ok, modify_ok] at hupdate
  obtain ⟨n, _, ⟨hn, rfl⟩, rfl⟩ := hupdate
  have hread : (g.main.code ++ #[c.op.toByte] ++ Array.replicate extra 0)[g.main.code.size]? =
      some c.op.toByte := by
    rw [Array.append_assoc, Array.getElem?_append_right (Nat.le_refl _), Nat.sub_self,
      Array.getElem?_append_left Nat.zero_lt_one]
    rfl
  simp only [Generator.code, Generator.currentSection, hmain, stackUses, hread,
    Opcode.ofByte?_toByte, Option.getD_some, huses] at hn
  cases hn
  rw [hcdefs, hcuses]
  exact Generator.applyEffect_eq _ _ _ _ _

/-- Zeros behind an opcode. -/
theorem getElem?_zeroed (hlo : code.size < x) (hhi : x < code.size + 1 + extra) :
    (code ++ #[byte] ++ Array.replicate extra 0)[x]? = some 0 := by
  have hsize : (code ++ #[byte]).size = code.size + 1 := by simp
  rw [Array.getElem?_append_right (by omega), Array.getElem?_replicate, if_pos (by omega)]

theorem getElem?_opcode : (code ++ #[byte] ++ Array.replicate extra 0)[code.size]? = some byte := by
  rw [Array.append_assoc, Array.getElem?_append_right (Nat.le_refl _), Nat.sub_self,
    Array.getElem?_append_left Nat.zero_lt_one]
  rfl

theorem getElem?_front (h : x < code.size) :
    (code ++ #[byte] ++ Array.replicate extra 0)[x]? = code[x]? := by
  rw [Array.append_assoc, Array.getElem?_append_left h]

/-- Zero as an offset is two zero bytes. -/
theorem direct_zero {field : Nat} (hlo : code[field]? = some 0) (hhi : code[field + 1]? = some 0) :
    Direct code false field 0 := by
  refine ⟨by decide, ?_⟩
  have hbytes : offsetBytes false 0 = [0, 0] := by decide
  rw [hbytes]
  simp [holds_cons, holds_nil, hlo, hhi]

/-- The bytes of a table switch before its offsets are known. -/
theorem layered_table (h : Layered code spans limit settled cells) (hlimit : limit ≤ code.size)
    (hlow : fits16 low) (hhigh : fits16 high) (frame : Frame) :
    Layered
      (Bytes.setU16 (Bytes.setU16
        (code ++ #[Opcode.tableSwitch.toByte] ++ Array.replicate (2 * (3 + keyCount low high)) 0)
        (code.size + 3) (image16 low)) (code.size + 5) (image16 high))
      spans limit settled
      (cells ++ [.table low high (.replicate (keyCount low high + 1) 0) frame]) := by
  obtain ⟨n, hn⟩ : ∃ n, n = keyCount low high := ⟨_, rfl⟩
  rw [Cell.table, ← hn]
  have hsize : (code ++ #[Opcode.tableSwitch.toByte] ++ Array.replicate (2 * (3 + n)) 0).size =
      code.size + 7 + 2 * n := by
    simp
    omega
  have hzero : ∀ x, code.size < x → x < code.size + 7 + 2 * n →
      (x < code.size + 3 ∨ code.size + 7 ≤ x) →
      (Bytes.setU16 (Bytes.setU16
        (code ++ #[Opcode.tableSwitch.toByte] ++ Array.replicate (2 * (3 + n)) 0)
        (code.size + 3) (image16 low)) (code.size + 5) (image16 high))[x]? = some 0 := by
    intro x hlo hhi hfree
    rw [getElem?_setU16_of_ne _ (by omega), getElem?_setU16_of_ne _ (by omega),
      getElem?_zeroed hlo (by omega)]
  refine h.append hlimit ⟨?_, ⟨rfl, hlow, hhigh⟩, (by rintro ⟨⟩)⟩ rfl ?_ ?_ ?_ ?_ ?_
  · simp [Operands.arms, hn]
  · rw [size_setU16, size_setU16, hsize, Cell.size, Operands.size, ← hn]
    simp only [Cell.width, offsetWidth, Bool.false_eq_true, if_false]
    omega
  · intro x hx
    rw [getElem?_setU16_of_ne _ (by omega), getElem?_setU16_of_ne _ (by omega), getElem?_front hx]
  · rw [getElem?_setU16_of_ne _ (by omega), getElem?_setU16_of_ne _ (by omega), getElem?_opcode]
  · intro raw hraw
    obtain rfl : raw = (code.size + 3,
        (le16 (image16 low)).toList ++ (le16 (image16 high)).toList) := by
      simpa [Cell.raws, Operands.raws, Cell.width, offsetWidth] using hraw
    refine holds_append.mpr ⟨?_, ?_⟩
    · refine (holds_setU16 (image16 low) (by omega)).of_eq fun x hlo hhi =>
        getElem?_setU16_of_ne _ (.inl ?_)
      simp [le16] at hhi
      omega
    · exact holds_setU16 _ (by rw [size_setU16]; omega)
  · intro i z hz
    rw [List.getElem?_replicate] at hz
    split at hz
    · rename_i hi
      cases hz
      cases i with
      | zero =>
        show Direct _ false (code.size + 1) 0
        exact direct_zero (hzero _ (by omega) (by omega) (.inl (by omega)))
          (hzero _ (by omega) (by omega) (.inl (by omega)))
      | succ i =>
        show Direct _ false (code.size + 7 + 2 * i) 0
        exact direct_zero (hzero _ (by omega) (by omega) (.inr (by omega)))
          (hzero _ (by omega) (by omega) (.inr (by omega)))
    · cases hz

/-- The bytes of a lookup switch before its pairs are known. -/
theorem layered_lookup (h : Layered code spans limit settled cells) (hlimit : limit ≤ code.size)
    (hn : n < 65536) (frame : Frame) :
    Layered
      (Bytes.setU16 (code ++ #[Opcode.lookupSwitch.toByte] ++ Array.replicate (4 + 4 * n) 0)
        (code.size + 3) n)
      spans limit settled
      (cells ++ [.lookup (.replicate n 0) (.replicate (n + 1) 0) frame]) := by
  have hsize : (code ++ #[Opcode.lookupSwitch.toByte] ++ Array.replicate (4 + 4 * n) 0).size =
      code.size + 5 + 4 * n := by
    simp
    omega
  have hzero : ∀ x, code.size < x → x < code.size + 5 + 4 * n →
      (x < code.size + 3 ∨ code.size + 5 ≤ x) →
      (Bytes.setU16 (code ++ #[Opcode.lookupSwitch.toByte] ++ Array.replicate (4 + 4 * n) 0)
        (code.size + 3) n)[x]? = some 0 := by
    intro x hlo hhi hfree
    rw [getElem?_setU16_of_ne _ (by omega), getElem?_zeroed hlo (by omega)]
  rw [Cell.lookup]
  refine h.append hlimit ⟨?_, ⟨rfl, by simpa using hn⟩, (by rintro ⟨⟩)⟩ rfl ?_ ?_ ?_ ?_ ?_
  · simp [Operands.arms]
  · rw [size_setU16, hsize, Cell.size, Operands.size, List.length_replicate]
    simp only [Cell.width, offsetWidth, Bool.false_eq_true, if_false]
    omega
  · intro x hx
    rw [getElem?_setU16_of_ne _ (by omega), getElem?_front hx]
  · rw [getElem?_setU16_of_ne _ (by omega), getElem?_opcode]
  · intro raw hraw
    simp only [Cell.raws, Operands.raws, Cell.width, offsetWidth, Bool.false_eq_true, if_false,
      List.length_replicate, List.mem_cons, List.mem_map] at hraw
    rcases hraw with rfl | ⟨⟨literal, i⟩, hi, rfl⟩
    · exact holds_setU16 n (by omega)
    · have hget := List.mk_mem_zipIdx_iff_getElem?.mp hi
      rw [List.getElem?_replicate] at hget
      split at hget
      · rename_i hlt
        cases hget
        have hbytes : (le16 0).toList = [0, 0] := by decide
        rw [hbytes]
        simp only [holds_cons]
        exact ⟨hzero _ (by omega) (by omega) (.inr (by omega)),
          hzero _ (by omega) (by omega) (.inr (by omega)), holds_nil _ _⟩
      · cases hget
  · intro i z hz
    rw [List.getElem?_replicate] at hz
    split at hz
    · rename_i hi
      cases hz
      cases i with
      | zero =>
        show Direct _ false (code.size + 1) 0
        exact direct_zero (hzero _ (by omega) (by omega) (.inl (by omega)))
          (hzero _ (by omega) (by omega) (.inl (by omega)))
      | succ i =>
        show Direct _ false (code.size + 7 + 4 * i) 0
        exact direct_zero (hzero _ (by omega) (by omega) (.inr (by omega)))
          (hzero _ (by omega) (by omega) (.inr (by omega)))
    · cases hz

/-- A switch at the end of the code goes into the table if that is on. -/
theorem registerSwitch_coded (hok : Walk.registerSwitch (position cells cells.length) g = .ok () g')
    (h : Layered g.main.code g.spans (if g.spans.active then position cells cells.length else 0)
      settled (cells ++ [c])) (hs : settled ≤ cells.length) (hswitch : c.op.format.isSwitch) :
    Coded g g' settled (cells ++ [c]) := by
  have hlast : (cells ++ [c])[cells.length]? = some c := by simp
  have hposition : position (cells ++ [c]) cells.length = position cells cells.length :=
    position_append (Nat.le_refl _)
  simp only [Walk.registerSwitch, get_bind] at hok
  cases hon : g.spans.active with
  | false =>
    rw [if_neg (by simp [hon]), pure_ok] at hok
    obtain ⟨-, rfl⟩ := hok
    refine ⟨_, _, rfl, ?_⟩
    rw [hon] at h
    rw [Codes, hon]
    exact h
  | true =>
    rw [if_pos hon] at hok
    simp only [bind_ok, pure_ok] at hok
    obtain ⟨next, g₁, hadd, -, rfl⟩ := hok
    rw [hon, if_pos rfl] at h
    rw [← hposition] at hadd
    have hfrontier : Frontier (cells ++ [c]) (position cells cells.length) cells.length 0 := by
      rw [← hposition]
      exact frontier_position _ _
    obtain ⟨limit', ⟨code, spans, rfl, hgrows, hlayered⟩, hfrontier'⟩ :=
      addSwitch_recoded h hfrontier hlast hs hswitch hadd
    refine ⟨code, spans, rfl, ?_⟩
    rw [Codes, hgrows.active, hon, if_pos rfl]
    refine hlayered.raise_frontier hfrontier' ?_
    rw [hlayered.size, List.length_append]
    exact frontier_position _ _

/-- A table switch is emitted with its bounds. -/
theorem tableSwitch_emitted {g₃ : Generator}
    (hop : opZeroed .tableSwitch (2 * (3 + keyCount low high)) g = .ok pc g₁)
    (hlow : setI16 (pc + 3) low g₁ = .ok () g₂) (hhigh : setI16 (pc + 5) high g₂ = .ok () g₃)
    (hregister : Walk.registerSwitch pc g₃ = .ok () g')
    (h : Codes g.main.code g.spans settled cells) (hmain : g.current = .main)
    (hlow16 : fits16 low) (hhigh16 : fits16 high) (frame : Frame) :
    pc = g.main.code.size ∧ Emitted g g'
      (.table low high (.replicate (keyCount low high + 1) 0) frame) settled cells := by
  obtain ⟨cell, hcell⟩ : ∃ cell, cell =
      Cell.table low high (.replicate (keyCount low high + 1) (0 : Int)) frame := ⟨_, rfl⟩
  obtain ⟨rfl, warnings, hg₁, hspares⟩ :=
    opZeroed_ok hop hmain (c := cell) (by rw [hcell]; rfl) rfl rfl
  have hlow : setU16 (g.main.code.size + 3) (image16 low) g₁ = .ok () g₂ := hlow
  have hhigh : setU16 (g.main.code.size + 5) (image16 high) g₂ = .ok () g₃ := hhigh
  obtain ⟨-, hg₂⟩ := setU16_ok hlow (by rw [hg₁]; exact hmain)
  obtain ⟨-, hg₃⟩ := setU16_ok hhigh (by rw [hg₂, hg₁]; exact hmain)
  have hlayered : Layered g₃.main.code g₃.spans
      (if g₃.spans.active then position cells cells.length else 0) settled (cells ++ [cell]) := by
    rw [hg₃, hg₂, hg₁, ← h.size, hcell]
    dsimp only
    exact layered_table h (limit_le _ _) hlow16 hhigh16 frame
  rw [h.size] at hregister
  obtain ⟨code, spans, rfl, hcodes⟩ :=
    registerSwitch_coded hregister hlayered h.settled_le (by rw [hcell]; rfl)
  rw [← hcell]
  refine ⟨rfl, code, spans, warnings, ?_, hcodes, hspares⟩
  rw [hg₃, hg₂, hg₁]

/-- A lookup switch is emitted with its number of pairs. -/
theorem lookupSwitch_emitted (hop : opZeroed .lookupSwitch (4 + 4 * n) g = .ok pc g₁)
    (hset : setU16 (pc + 3) n g₁ = .ok () g₂) (hregister : Walk.registerSwitch pc g₂ = .ok () g')
    (h : Codes g.main.code g.spans settled cells) (hmain : g.current = .main) (hn : n < 65536)
    (frame : Frame) :
    pc = g.main.code.size ∧ Emitted g g'
      (.lookup (.replicate n 0) (.replicate (n + 1) 0) frame) settled cells := by
  obtain ⟨cell, hcell⟩ : ∃ cell, cell =
      Cell.lookup (.replicate n 0) (.replicate (n + 1) (0 : Int)) frame := ⟨_, rfl⟩
  obtain ⟨rfl, warnings, hg₁, hspares⟩ :=
    opZeroed_ok hop hmain (c := cell) (by rw [hcell]; rfl) rfl rfl
  obtain ⟨-, hg₂⟩ := setU16_ok hset (by rw [hg₁]; exact hmain)
  have hlayered : Layered g₂.main.code g₂.spans
      (if g₂.spans.active then position cells cells.length else 0) settled (cells ++ [cell]) := by
    rw [hg₂, hg₁, ← h.size, hcell]
    dsimp only
    exact layered_lookup h (limit_le _ _) hn frame
  rw [h.size] at hregister
  obtain ⟨code, spans, rfl, hcodes⟩ :=
    registerSwitch_coded hregister hlayered h.settled_le (by rw [hcell]; rfl)
  rw [← hcell]
  refine ⟨rfl, code, spans, warnings, ?_, hcodes, hspares⟩
  rw [hg₂, hg₁]

end Emit

end ScriptCompiler
