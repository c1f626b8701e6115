import ScriptCompiler.Proofs.Code.Basic
import ScriptCompiler.Proofs.Scanning

/-!
# Cells as instructions

Cells that stand one behind the other are whole instructions, and their offsets
are those of the instructions.
-/

namespace ScriptCompiler

open Bytes

section Views

variable {δ : Type}

/-- The instructions that cells from `pc` on stand for. -/
def views (pc : Nat) : List (Cell δ) → List Instruction
  | [] => []
  | c :: cells => c.view pc :: views (pc + c.size) cells

theorem length_views {pc : Nat} {cells : List (Cell δ)} : (views pc cells).length = cells.length := by
  induction cells generalizing pc with
  | nil => rfl
  | cons c cells ih => rw [views, List.length_cons, List.length_cons, ih]

theorem mem_views {pc : Nat} {cells : List (Cell δ)} {i : Instruction} :
    i ∈ views pc cells ↔
      ∃ (k : Nat) (c : Cell δ), cells[k]? = some c ∧ i = c.view (pc + position cells k) := by
  induction cells generalizing pc with
  | nil => simp [views]
  | cons c cells ih =>
    have hshift : ∀ k, pc + c.size + position cells k = pc + position (c :: cells) (k + 1) := by
      intro k
      simp [position, Nat.add_assoc]
    rw [views, List.mem_cons, ih]
    constructor
    · rintro (rfl | ⟨k, d, hd, rfl⟩)
      · exact ⟨0, c, rfl, by simp⟩
      · exact ⟨k + 1, d, by simpa using hd, by rw [hshift]⟩
    · rintro ⟨k, d, hd, rfl⟩
      cases k with
      | zero =>
        obtain rfl : c = d := by simpa using hd
        exact .inl (by simp)
      | succ k => exact .inr ⟨k, d, by simpa using hd, by rw [hshift]⟩

/-- The offsets of cells are those of their instructions. -/
theorem flatMap_views {pc : Nat} {cells : List (Cell δ)} (hshaped : ∀ c ∈ cells, c.Shaped) :
    ((views pc cells).flatMap fun i => i.fields.map fun field => (i.pc, field)) =
      fieldsFrom pc cells := by
  induction cells generalizing pc with
  | nil => rfl
  | cons c cells ih =>
    rw [views, List.flatMap_cons, fieldsFrom, ih fun d hd => hshaped d (List.mem_cons_of_mem _ hd),
      (hshaped c (List.mem_cons_self ..)).view_fields, List.map_map]
    rfl

/-- Cells that stand one behind the other are whole instructions. -/
theorem whole_views {code : Bytes} {pc : Nat} {cells : List (Cell δ)}
    (hstands : ∀ (k : Nat) (c : Cell δ), cells[k]? = some c → c.Shaped ∧
      code[pc + position cells k]? = some c.opcode.toByte ∧
      ∀ raw ∈ c.raws (pc + position cells k), Holds code raw.1 raw.2)
    (hsize : code.size = pc + position cells cells.length) : Whole code pc (views pc cells) := by
  induction cells generalizing pc with
  | nil =>
    show pc = code.size
    simpa using hsize.symm
  | cons c cells ih =>
    have hshift : ∀ k, pc + c.size + position cells k = pc + position (c :: cells) (k + 1) := by
      intro k
      simp [position, Nat.add_assoc]
    obtain ⟨hshaped, hop, hraws⟩ := hstands 0 c rfl
    rw [position_zero, Nat.add_zero] at hop hraws
    have hend : code.size = pc + c.size + position cells cells.length := by
      rw [hshift, hsize]
      rfl
    obtain ⟨hopcode, hlength⟩ := hshaped.instructionLength? hop hraws (by omega)
    refine ⟨rfl, hopcode, hlength, ih (fun k d hd => ?_) hend⟩
    have hnext := hstands (k + 1) d (by simpa using hd)
    rw [← hshift] at hnext
    exact hnext

theorem position_drop (cells : List (Cell δ)) {n : Nat} (hn : n ≤ cells.length) (k : Nat) :
    position cells (n + k) = position cells n + position (cells.drop n) k := by
  have happend := position_append_length (cells.take n) (cells.drop n) k
  rw [List.take_append_drop, List.length_take, Nat.min_eq_left hn] at happend
  rw [happend]
  congr 1
  have hfront : position (cells.take n ++ cells.drop n) n = position (cells.take n) n :=
    position_append (by simp [hn])
  rw [List.take_append_drop] at hfront
  exact hfront.symm

end Views

theorem Cell.Shaped.jumpLen {δ : Type} {c : Cell δ} (h : c.Shaped) (hne : c.operands.arms ≠ 0) :
    c.opcode.format.jumpLen = some c.width := by
  cases hc : c.operands with
  | plain bytes =>
    rw [hc] at hne
    exact absurd rfl hne
  | jump => exact (h.opcode_format (h.fits_jump hc) rfl).1
  | table low high => exact (h.opcode_format (h.fits_table hc).1 rfl).1
  | lookup literals => exact (h.opcode_format (h.fits_lookup hc).1 rfl).1

/-- A narrow cell has a narrow opcode. -/
theorem Cell.Shaped.isWide {δ : Type} {c : Cell δ} (h : c.Shaped) (hne : c.operands.arms ≠ 0) :
    c.opcode.isWide = c.wide := by
  rw [Opcode.isWide, h.jumpLen hne, Cell.width]
  cases c.wide <;> rfl

theorem Cell.Shaped.isWide_eq_false {δ : Type} {c : Cell δ} (h : c.Shaped) (hwide : c.wide = false) :
    c.opcode.isWide = false := by
  by_cases hne : c.operands.arms = 0
  · cases hc : c.operands with
    | plain bytes =>
      rw [h.opcode_plain hc, Opcode.isWide, (h.fits_plain hc).1]
      rfl
    | jump => rw [hc] at hne; cases hne
    | table low high => rw [hc] at hne; cases hne
    | lookup literals => rw [hc] at hne; cases hne
  · rw [h.isWide hne, hwide]

/-- All of main code is whole instructions. -/
theorem Codes.whole {g : Generator} {settled : Nat} {cells : List (Cell Int)}
    (h : Codes g.main.code g.spans settled cells) : Whole g.main.code 0 (views 0 cells) := by
  refine whole_views (fun k c hk => ?_) (by rw [h.size, Nat.zero_add])
  have hstands := h.stands k c hk
  rw [Nat.zero_add]
  exact ⟨hstands.shaped, hstands.opcode, hstands.raws⟩

/-- Cells since the last resolution are whole instructions. -/
theorem Emit.whole_recent {g : Generator} {settled : Nat} {cells : List (Cell Int)}
    (h : Codes g.main.code g.spans settled cells) :
    Whole g.main.code g.spans.todo (views (position cells settled) (cells.drop settled)) := by
  rw [h.todo]
  refine whole_views (fun k c hk => ?_) ?_
  · rw [List.getElem?_drop] at hk
    have hstands := h.stands _ c hk
    rw [position_drop cells h.settled_le] at hstands
    exact ⟨hstands.shaped, hstands.opcode, hstands.raws⟩
  · rw [h.size, ← position_drop cells h.settled_le, List.length_drop]
    congr 1
    have := h.settled_le
    omega

end ScriptCompiler
