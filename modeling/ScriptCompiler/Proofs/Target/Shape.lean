import ScriptCompiler.Proofs.TargetIndex
import Mathlib.Data.Nat.Fib.Basic

/-!
# The shape of the target tree

A node stores the difference of the heights of its sides, and the sides differ
by one at most. Rotations take a difference of two and give back a tree of this
shape, together with the truth about its height, so adding an entry keeps the
shape. A tree of this shape with few entries is low: the least number of
entries for a height grows like the Fibonacci numbers.
-/

namespace ScriptCompiler

namespace TargetTree

/-- Every stored balance is the height of the right side minus that of the left side, and the
heights differ by one at most. -/
def Balanced : TargetTree → Prop
  | leaf => True
  | node balance _ left right =>
    balance = (right.height : Int) - left.height ∧ -1 ≤ balance ∧ balance ≤ 1 ∧
      left.Balanced ∧ right.Balanced

@[simp] theorem balanced_leaf : leaf.Balanced := trivial

@[simp] theorem balanced_node {balance : Int} {entry : Nat} {left right : TargetTree} :
    (node balance entry left right).Balanced ↔
      balance = (right.height : Int) - left.height ∧ -1 ≤ balance ∧ balance ≤ 1 ∧
        left.Balanced ∧ right.Balanced :=
  Iff.rfl

@[simp] theorem height_leaf : leaf.height = 0 := rfl

@[simp] theorem height_node (balance : Int) (entry : Nat) (left right : TargetTree) :
    (node balance entry left right).height = max left.height right.height + 1 := rfl

/-- A balanced tree and the truth about its height: the answer says whether it stayed one below
`height`. -/
structure Settled (result : TargetTree × Bool) (height : Nat) : Prop where
  balanced : result.1.Balanced
  height_eq : result.1.height + result.2.toNat = height

section Balancing

variable {balance : Int} {entry : Nat}

/-- Rotating a tree that is two higher on its far side. -/
theorem rotate_settled (dir : Side) {near far : TargetTree} (hnear : near.Balanced)
    (hfar : far.Balanced) (hsteep : far.height = near.height + 2) :
    Settled (rotate dir balance entry near far) (far.height + 1) := by
  cases far with
  | leaf => cases hsteep
  | node childBalance child left right =>
    obtain ⟨hc, hclow, hchigh, hl, hr⟩ := hfar
    rw [height_node] at hsteep ⊢
    -- the inner side is a node and becomes the root if it is the higher one
    cases dir <;> simp only [rotate, Side.order] <;> split <;> rename_i hdouble <;>
      simp only [Side.weight] at hdouble ⊢
    · cases left with
      | leaf =>
        rw [height_leaf] at hc
        omega
      | node rootBalance root low high =>
        obtain ⟨hroot, hrlow, hrhigh, hlow, hhigh⟩ := hl
        rw [height_node] at hc hsteep
        constructor
        · simp only [join, Side.order, balanced_node, height_node, hnear, hlow, hhigh, hr, and_true, true_and]
          omega
        · simp only [join, Side.order, height_node, Bool.toNat_true]
          omega
    · constructor
      · simp only [join, Side.order, balanced_node, height_node, hnear, hl, hr, and_true, true_and]
        omega
      · by_cases hflat : childBalance = 0 <;> simp [join, Side.order, hflat] <;> omega
    · cases right with
      | leaf =>
        rw [height_leaf] at hc
        omega
      | node rootBalance root low high =>
        obtain ⟨hroot, hrlow, hrhigh, hlow, hhigh⟩ := hr
        rw [height_node] at hc hsteep
        constructor
        · simp only [join, Side.order, balanced_node, height_node, hnear, hlow, hhigh, hl, and_true, true_and]
          omega
        · simp only [join, Side.order, height_node, Bool.toNat_true]
          omega
    · constructor
      · simp only [join, Side.order, balanced_node, height_node, hnear, hl, hr, and_true, true_and]
        omega
      · by_cases hflat : childBalance = 0 <;> simp [join, Side.order, hflat] <;> omega

variable {left right : TargetTree} (hl : left.Balanced) (hr : right.Balanced)

include hl hr

/-- Balancing a tree whose sides differ by two at most. -/
theorem rebalance_settled (hb : balance = (right.height : Int) - left.height) (hlow : -2 ≤ balance)
    (hhigh : balance ≤ 2) :
    Settled (rebalance balance entry left right) (max left.height right.height + 1) := by
  unfold rebalance
  split
  · rw [Nat.max_eq_left (by omega)]
    exact rotate_settled .right hr hl (by omega)
  · split
    · rw [Nat.max_eq_right (by omega)]
      exact rotate_settled .left hl hr (by omega)
    · exact ⟨⟨hb, by omega, by omega, hl, hr⟩, by simp⟩

/-- A side that grew is one higher than it was, and the answer tells whether the tree is. -/
theorem grow_balanced {side : Side} {grew : Bool} {l r : Nat} (hb : balance = (r : Int) - l)
    (hlow : -1 ≤ balance) (hhigh : balance ≤ 1)
    (hleft : left.height = l + if side = .left then grew.toNat else 0)
    (hright : right.height = r + if side = .right then grew.toNat else 0) :
    (grow side grew balance entry left right).1.Balanced ∧
      (grow side grew balance entry left right).1.height =
        max l r + 1 + (grow side grew balance entry left right).2.toNat := by
  cases grew with
  | false =>
    simp only [Bool.toNat_false, ite_self, Nat.add_zero] at hleft hright
    simp only [grow, Bool.false_eq_true, if_false, balanced_node, height_node, hleft, hright, hl, hr,
      and_true, Bool.toNat_false]
    omega
  | true =>
    have hheights : balance + side.weight = (right.height : Int) - left.height ∧
        (balance + side.weight = 0 → max left.height right.height = max l r) ∧
        (balance + side.weight ≠ 0 → max left.height right.height = max l r + 1) := by
      cases side <;> simp [Side.weight] at hleft hright ⊢ <;> omega
    obtain ⟨hb', hflat, hsteep⟩ := hheights
    have hweight : -1 ≤ side.weight ∧ side.weight ≤ 1 := by cases side <;> decide
    simp only [grow, if_true]
    split
    · rename_i hzero
      simp only [balanced_node, height_node, hl, hr, and_true, Bool.toNat_false, hflat hzero]
      omega
    · rename_i hne
      have hsettled : Settled (rebalance (balance + side.weight) entry left right) _ :=
        rebalance_settled hl hr hb' (by omega) (by omega)
      refine ⟨hsettled.balanced, ?_⟩
      have hheight := hsettled.height_eq
      rw [hsteep hne] at hheight
      cases hlowered : (rebalance (balance + side.weight) entry left right).2 <;>
      simp only [hlowered, Bool.toNat_true, Bool.toNat_false, Bool.not_true, Bool.not_false]
        at hheight ⊢ <;> omega

end Balancing

/-- Adding an entry keeps the shape and tells whether the tree grew. -/
theorem insert_balanced (offsets : Array Nat) (offset fresh : Nat) {t : TargetTree}
    (h : t.Balanced) :
    (t.insert offsets offset fresh).1.Balanced ∧
      (t.insert offsets offset fresh).1.height =
        t.height + (t.insert offsets offset fresh).2.toNat := by
  induction t with
  | leaf => simp [insert]
  | node balance entry left right ihl ihr =>
    obtain ⟨hb, hlow, hhigh, hl, hr⟩ := h
    obtain ⟨hlB, hlH⟩ := ihl hl
    obtain ⟨hrB, hrH⟩ := ihr hr
    simp only [insert]
    split
    · exact grow_balanced hlB hr hb hlow hhigh hlH rfl
    · exact grow_balanced hl hrB hb hlow hhigh rfl hrH

/-- The least number of entries that a height takes. -/
theorem fib_le_entries {t : TargetTree} (h : t.Balanced) :
    Nat.fib (t.height + 2) ≤ t.entries.length + 1 := by
  induction t with
  | leaf => simp
  | node balance entry left right ihl ihr =>
    obtain ⟨hb, hlow, hhigh, hl, hr⟩ := h
    have hleft := ihl hl
    have hright := ihr hr
    -- the lower side is at most one below the higher one
    have hside : ∀ {a : TargetTree}, max left.height right.height ≤ a.height + 1 →
        Nat.fib (max left.height right.height + 1) ≤ Nat.fib (a.height + 2) := fun hle =>
      Nat.fib_mono (by omega)
    have hfib : Nat.fib (max left.height right.height + 1 + 2) =
        Nat.fib (max left.height right.height + 1) + Nat.fib (max left.height right.height + 2) :=
      Nat.fib_add_two
    simp only [height_node, entries_node, List.length_append, List.length_cons]
    rcases Nat.le_total left.height right.height with hle | hle
    · have hmax : max left.height right.height = right.height := Nat.max_eq_right hle
      have hlower := hside (a := left) (by omega)
      rw [hmax] at hfib hlower ⊢
      omega
    · have hmax : max left.height right.height = left.height := Nat.max_eq_left hle
      have hlower := hside (a := right) (by omega)
      rw [hmax] at hfib hlower ⊢
      omega

end TargetTree

end ScriptCompiler
