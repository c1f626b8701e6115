import ScriptCompiler.Proofs.Code.Switch

/-!
# Cells with holes

While code is being emitted, the destinations of its jumps are not all known. A
cell is written down once, with a hole for each destination, and what changes
is only which holes have been filled. A jump with an open hole stands in the code
as a placeholder whose offset links it to another jump with the same hole, so the
offsets in the code follow from the cells and from the filled holes.
-/

namespace ScriptCompiler

open Bytes

/-- Something about a cell that is filled in after the cell has been emitted. -/
inductive Hole where
  /-- Destination `i` of the cell at `k`. -/
  | arm (k i : Nat)
  /-- The literal of pair `i` of the lookup switch at `k`. -/
  | literal (k i : Nat)
  /-- The end of the short-circuit chain whose first jump is at `k`. -/
  | logic (k : Nat)
  /-- The end of the try statement whose first exit is at `k`. -/
  | exits (k : Nat)
  /-- Where a chain of an opened statement leads. -/
  | chain (serial : Nat) (chain : Chain)
  deriving DecidableEq

namespace Hole

/-- The opcode that keeps the place of a jump while its hole is open. -/
def placeholder? : Hole → Option Opcode
  | logic _ => some .backpatchPop
  | exits _ | chain .. => some .backpatch
  | _ => none

/-- Jumps with a hole of this kind at `k` may have this opcode. -/
def Fits (k : Nat) (op : Opcode) : Hole → Prop
  | arm j i => j = k ∧ i = 0 ∧ op.spec.placeholder = false
  | literal .. => False
  | logic j => j ≤ k ∧ (op = .and ∨ op = .or)
  | exits j => j ≤ k ∧ op = .goto
  | chain _ .gosubs => op = .gosub
  | chain _ _ => op = .goto

/-- A hole that belongs to one of the first `n` cells or the first `s` opened statements. -/
def Old (n s : Nat) : Hole → Prop
  | arm k _ | literal k _ | logic k | exits k => k < n
  | chain serial _ => serial < s

end Hole

/-! ## Links -/

section Links

variable {cells more : List (Cell Hole)} {h : Hole} {c : Cell Hole} {k n : Nat}

/-- A jump with a hole stands at an index. -/
def Links (cells : List (Cell Hole)) (h : Hole) (k : Nat) : Prop :=
  cells[k]?.map Cell.dests = some [h]

instance : Decidable (Links cells h k) := inferInstanceAs (Decidable (_ = _))

/-- The cell at the index has that hole and no other destination. -/
theorem links_iff : Links cells h k ↔ ∃ c, cells[k]? = some c ∧ c.dests = [h] := by
  simp [Links]

/-- Links stand within the code. -/
theorem Links.lt (hlinks : Links cells h k) : k < cells.length := by
  obtain ⟨c, hk, -⟩ := links_iff.mp hlinks
  exact lt_of_getElem? hk

/-- Code behind a cell does not change what it links. -/
theorem links_append (hk : k < cells.length) : Links (cells ++ more) h k ↔ Links cells h k := by
  rw [Links, Links, List.getElem?_append_left hk]

/-- A new cell is a link of its only hole. -/
theorem links_last : Links (cells ++ [c]) h cells.length ↔ c.dests = [h] := by
  simp [Links]

/-- The last of the first `n` cells that is a jump with a hole. -/
def linkBefore (cells : List (Cell Hole)) (h : Hole) : Nat → Option Nat
  | 0 => none
  | n + 1 => if Links cells h n then some n else linkBefore cells h n

/-- The link found is the last one. -/
theorem linkBefore_some (hlink : linkBefore cells h n = some k) :
    k < n ∧ Links cells h k ∧ ∀ j, k < j → j < n → ¬ Links cells h j := by
  induction n with
  | zero => cases hlink
  | succ n ih =>
    rw [linkBefore] at hlink
    split at hlink
    · rename_i hn
      cases hlink
      exact ⟨Nat.lt_succ_self _, hn, fun j hj hj' => absurd hj' (by omega)⟩
    · rename_i hn
      obtain ⟨hlt, hk, hnone⟩ := ih hlink
      refine ⟨by omega, hk, fun j hj hj' => ?_⟩
      rcases Nat.lt_or_eq_of_le (Nat.le_of_lt_succ hj') with hlt | rfl
      · exact hnone j hj hlt
      · exact hn

/-- If none is found, there is none. -/
theorem linkBefore_none (hlink : linkBefore cells h n = none) : ∀ j < n, ¬ Links cells h j := by
  induction n with
  | zero => exact fun j hj => absurd hj (by omega)
  | succ n ih =>
    rw [linkBefore] at hlink
    split at hlink
    · cases hlink
    · rename_i hn
      intro j hj
      rcases Nat.lt_or_eq_of_le (Nat.le_of_lt_succ hj) with hlt | rfl
      · exact ih hlink j hlt
      · exact hn

/-- Without links none is found. -/
theorem linkBefore_eq_none (hnone : ∀ j < n, ¬ Links cells h j) : linkBefore cells h n = none := by
  induction n with
  | zero => rfl
  | succ n ih =>
    rw [linkBefore, if_neg (hnone n (Nat.lt_succ_self n))]
    exact ih fun j hj => hnone j (Nat.lt_succ_of_lt hj)

/-- The search looks at the first cells alone. -/
theorem linkBefore_append (hn : n ≤ cells.length) :
    linkBefore (cells ++ more) h n = linkBefore cells h n := by
  induction n with
  | zero => rfl
  | succ n ih => simp only [linkBefore, links_append (show n < cells.length from hn),
      ih (Nat.le_of_succ_le hn)]

/-- A new cell is the last link of its hole and of no other. -/
theorem linkBefore_last : linkBefore (cells ++ [c]) h (cells.length + 1) =
    if c.dests = [h] then some cells.length else linkBefore cells h cells.length := by
  simp only [linkBefore, links_last, linkBefore_append (Nat.le_refl _)]

/-- The first of the first `n` cells, from `k` on, that is a jump with a hole. -/
def linkFrom (cells : List (Cell Hole)) (h : Hole) (k : Nat) : Nat → Option Nat
  | 0 => none
  | n + 1 => (linkFrom cells h k n).or (if k ≤ n ∧ Links cells h n then some n else none)

/-- The forward search looks at the first cells alone. -/
theorem linkFrom_append (hn : n ≤ cells.length) :
    linkFrom (cells ++ more) h k n = linkFrom cells h k n := by
  induction n with
  | zero => rfl
  | succ n ih => simp only [linkFrom, links_append (show n < cells.length from hn),
      ih (Nat.le_of_succ_le hn)]

/-- What the forward search finds is a link in its range. -/
theorem linkFrom_some {j : Nat} (hlink : linkFrom cells h k n = some j) :
    k ≤ j ∧ j < n ∧ Links cells h j := by
  induction n with
  | zero => cases hlink
  | succ n ih =>
    rw [linkFrom] at hlink
    cases hrec : linkFrom cells h k n with
    | some i =>
      rw [hrec, Option.some_or] at hlink
      obtain ⟨hle, hlt, hlinks⟩ := ih (hrec.trans hlink)
      exact ⟨hle, Nat.lt_succ_of_lt hlt, hlinks⟩
    | none =>
      rw [hrec, Option.none_or] at hlink
      split at hlink
      · rename_i hn
        cases hlink
        exact ⟨hn.1, Nat.lt_succ_self _, hn.2⟩
      · cases hlink

/-- If the forward search finds none, there is none in its range. -/
theorem linkFrom_eq_none (hlink : linkFrom cells h k n = none) : ∀ j < n, k ≤ j → ¬ Links cells h j := by
  induction n with
  | zero => exact fun j hj => absurd hj (by omega)
  | succ n ih =>
    rw [linkFrom, Option.or_eq_none_iff] at hlink
    intro j hj hle hlinks
    rcases Nat.lt_or_eq_of_le (Nat.le_of_lt_succ hj) with hlt | rfl
    · exact ih hlink.1 j hlt hle hlinks
    · rw [if_pos ⟨hle, hlinks⟩] at hlink
      exact Option.some_ne_none _ hlink.2

/-- Without links in the range the forward search finds none. -/
theorem linkFrom_none (hnone : ∀ j < n, k ≤ j → ¬ Links cells h j) :
    linkFrom cells h k n = none := by
  induction n with
  | zero => rfl
  | succ n ih =>
    rw [linkFrom, ih fun j hj => hnone j (Nat.lt_succ_of_lt hj), Option.none_or]
    exact if_neg fun hlink => hnone n (Nat.lt_succ_self n) hlink.1 hlink.2

/-- The first link of the range is the one found. -/
theorem linkFrom_first {j : Nat} (hk : k ≤ j) (hj : j < n) (hlinks : Links cells h j)
    (hnone : ∀ i < j, k ≤ i → ¬ Links cells h i) : linkFrom cells h k n = some j := by
  induction n with
  | zero => cases hj
  | succ n ih =>
    rw [linkFrom]
    rcases Nat.lt_or_eq_of_le (Nat.le_of_lt_succ hj) with hlt | rfl
    · rw [ih hlt, Option.some_or]
    · rw [linkFrom_none hnone, Option.none_or, if_pos ⟨hk, hlinks⟩]

end Links

/-! ## What stands in the code -/

/-- The offset of a jump at `k` with an open hole. -/
def Hole.link (cells : List (Cell Hole)) (k : Nat) (h : Hole) : Int :=
  match h with
  | .exits _ | .chain .. =>
    match linkBefore cells h k with
    | some j => (position cells k : Int) - position cells j
    | none => position cells k + 1
  | .logic _ =>
    match linkFrom cells h (k + 1) cells.length with
    | some j => (position cells j : Int) - position cells k
    | none => 0
  | _ => 0

/-- The offset of a destination of the cell at `k`. -/
def Hole.offset (filled : Hole → Option Nat) (cells : List (Cell Hole)) (k : Nat) (h : Hole) :
    Int :=
  match filled h with
  | some target => (position cells target : Int) - position cells k
  | none => h.link cells k

/-- The opcode that stands in the code for a cell. -/
def Cell.standing (filled : Hole → Option Nat) (c : Cell Hole) : Opcode :=
  match c.dests with
  | [h] => if (filled h).isSome then c.op else h.placeholder?.getD c.op
  | _ => c.op

/-- The operands that stand in the code for the cell at `k`. -/
def Operands.standing (filled : Hole → Option Nat) (k : Nat) : Operands → Operands
  | .lookup literals =>
    .lookup ((List.range literals.length).map fun i => (filled (.literal k i)).getD 0)
  | o => o

/-- What stands in the code for the cell at `k`. -/
def Cell.shown (filled : Hole → Option Nat) (cells : List (Cell Hole)) (k : Nat) (c : Cell Hole) :
    Cell Int where
  op := c.standing filled
  wide := c.wide
  operands := c.operands.standing filled k
  dests := c.dests.map (Hole.offset filled cells k)
  frame := c.frame

/-- What stands in the code for some cells, when each has its own filled holes. -/
def shown (filled : Nat → Hole → Option Nat) (cells : List (Cell Hole)) : List (Cell Int) :=
  cells.mapIdx fun k c => c.shown (filled k) cells k

section Shown

variable {filled filled' : Nat → Hole → Option Nat} {cells : List (Cell Hole)} {c : Cell Hole}
  {k : Nat}

/-- What stands at an index comes from the cell there. -/
theorem getElem?_shown (hk : cells[k]? = some c) :
    (shown filled cells)[k]? = some (c.shown (filled k) cells k) := by
  simp [shown, hk]

/-- There are as many cells in the code as were written down. -/
@[simp] theorem length_shown : (shown filled cells).length = cells.length := by
  simp [shown]

/-- Literals that are missing take the space of those that are there. -/
theorem form_standing (f : Hole → Option Nat) (o : Operands) (k : Nat) :
    (o.standing f k).form = o.form := by
  cases o with
  | lookup literals =>
    simp only [Operands.standing, Operands.form, List.map_map, Operands.lookup.injEq]
    refine List.ext_getElem? fun i => ?_
    simp only [List.getElem?_map]
    by_cases hi : i < literals.length <;> simp [hi]
  | _ => rfl

/-- A cell takes the same space whichever holes are filled. -/
theorem Cell.form_shown (f : Hole → Option Nat) : (c.shown f cells k).form = c.form := by
  rw [Cell.form, Cell.form, Cell.shown, form_standing]

/-- All cells take the same space whichever holes are filled. -/
theorem map_form_shown : (shown filled cells).map Cell.form = cells.map Cell.form := by
  refine List.ext_getElem? fun k => ?_
  simp only [shown, List.getElem?_map, List.getElem?_mapIdx, Option.map_map]
  cases cells[k]? with
  | none => rfl
  | some c => simp [Cell.form_shown]

/-- Offsets do not depend on the holes that are filled. -/
@[simp] theorem position_shown (k : Nat) : position (shown filled cells) k = position cells k :=
  position_congr map_form_shown k

/-- Two ways to fill holes are the same for the cell at `k`. -/
def Agree (f f' : Hole → Option Nat) (k : Nat) (c : Cell Hole) : Prop :=
  (∀ h ∈ c.dests, f h = f' h) ∧ ∀ i, f (.literal k i) = f' (.literal k i)

/-- What stands for a cell depends on its own holes alone. -/
theorem Cell.shown_congr {f f' : Hole → Option Nat} (h : Agree f f' k c) :
    c.shown f cells k = c.shown f' cells k := by
  have hop : c.standing f = c.standing f' := by
    simp only [standing]
    split
    · rename_i hole hdests
      rw [h.1 hole (by simp [hdests])]
    · rfl
  have hoperands : c.operands.standing f k = c.operands.standing f' k := by
    cases c.operands with
    | lookup literals => simp only [Operands.standing, h.2]
    | _ => rfl
  have hdests : c.dests.map (Hole.offset f cells k) = c.dests.map (Hole.offset f' cells k) :=
    List.map_congr_left fun hole hmem => by rw [Hole.offset, Hole.offset, h.1 hole hmem]
  rw [shown, shown, hop, hoperands, hdests]

/-- Filling holes of one cell changes what stands there for this cell. -/
theorem shown_set (hk : cells[k]? = some c)
    (h : ∀ j d, cells[j]? = some d → j ≠ k → Agree (filled j) (filled' j) j d) :
    shown filled' cells = (shown filled cells).set k (c.shown (filled' k) cells k) := by
  refine List.ext_getElem? fun j => ?_
  rw [List.getElem?_set]
  by_cases hj : k = j
  · subst hj
    rw [if_pos rfl, length_shown, if_pos (lt_of_getElem? hk), getElem?_shown hk]
  · rw [if_neg hj]
    cases hd : cells[j]? with
    | none => simp [shown, hd]
    | some d => rw [getElem?_shown hd, getElem?_shown hd, Cell.shown_congr (h j d hd (Ne.symm hj))]

/-- Nothing changes where the holes of all cells are filled the same way. -/
theorem shown_congr (h : ∀ j d, cells[j]? = some d → Agree (filled j) (filled' j) j d) :
    shown filled' cells = shown filled cells := by
  refine List.ext_getElem? fun j => ?_
  cases hd : cells[j]? with
  | none => simp [shown, hd]
  | some d => rw [getElem?_shown hd, getElem?_shown hd, Cell.shown_congr (h j d hd)]

end Shown

end ScriptCompiler
