/-!
# The index of jump targets

While offsets are still moving, every jump whose destination is known refers
to an entry of this index and not to an offset. Entries are distinct offsets,
found through a height-balanced search tree, and a jump keeps the number of its
entry. Moving all targets beyond a point is one operation on the index. Numbers
freed by clearing the index are handed out again.
-/

namespace ScriptCompiler

/-- A side of a node. -/
inductive Side where
  | left
  | right
  deriving DecidableEq, Repr

namespace Side

/-- The opposite side. -/
def other : Side → Side
  | left => right
  | right => left

/-- The side of a node at `here` that an offset belongs to. -/
def of (offset here : Nat) : Side := if offset < here then left else right

/-- What one more level on this side adds to the balance of a node. -/
def weight : Side → Int
  | left => -1
  | right => 1

/-- Two values, the one for this side first, when they are given from left to right, and the other
way round. -/
def order {α : Type} : Side → α → α → α × α
  | left, x, y => (x, y)
  | right, x, y => (y, x)

end Side

/-- A search tree of entry numbers. The balance of a node is the height of its right side minus
the height of its left side. -/
inductive TargetTree where
  /-- No entries. -/
  | leaf
  /-- An entry with the entries at lower offsets on its left and the others on its right. -/
  | node (balance : Int) (entry : Nat) (left right : TargetTree)
  deriving DecidableEq, Repr

namespace TargetTree

/-- Number of nodes on a longest path from the root. -/
def height : TargetTree → Nat
  | leaf => 0
  | node _ _ left right => max left.height right.height + 1

/-- Entry numbers in ascending order of offset. -/
def entries : TargetTree → List Nat
  | leaf => []
  | node _ entry left right => left.entries ++ entry :: right.entries

/-- The entry at an offset, if there is one. -/
def find? (offsets : Array Nat) (offset : Nat) : TargetTree → Option Nat
  | leaf => none
  | node _ entry left right =>
    let here := offsets[entry]?.getD 0
    if offset = here then some entry
    else if offset < here then find? offsets offset left
    else find? offsets offset right

/-- Number of the entry at the root. -/
def link : TargetTree → Option Nat
  | leaf => none
  | node _ entry _ _ => some entry

/-- A node with `near` on the given side. -/
def join (side : Side) (balance : Int) (entry : Nat) (near far : TargetTree) : TargetTree :=
  node balance entry (side.order near far).1 (side.order near far).2

/-- A node rotated towards the side of `near`, because `far` is too high. Answers the tree and
whether it is lower than the given one. -/
def rotate (dir : Side) (balance : Int) (entry : Nat) (near far : TargetTree) : TargetTree × Bool :=
  match far with
  | leaf => (join dir balance entry near leaf, false)
  | node childBalance child left right =>
    let (inner, outer) := dir.order left right
    if 0 < dir.weight * childBalance then
      match inner with
      | leaf => (join dir balance entry near (node childBalance child left right), false)
      | node rootBalance root left right =>
        let (low, high) := dir.order left right
        let (lowBalance, highBalance) := dir.order (-max rootBalance 0) (-min rootBalance 0)
        (join dir 0 root (join dir lowBalance entry near low) (join dir highBalance child high outer),
          true)
    else
      let balance := childBalance + dir.weight
      (join dir balance child (join dir (-balance) entry near inner) outer, childBalance ≠ 0)

/-- A node whose sides differ in height by two at most, balanced. Answers the tree and whether it is
lower than the given one. -/
def rebalance (balance : Int) (entry : Nat) (left right : TargetTree) : TargetTree × Bool :=
  if balance < -1 then rotate .right balance entry right left
  else if 1 < balance then rotate .left balance entry left right
  else (node balance entry left right, false)

/-- A node one side of which may have grown. Answers the balanced tree and whether it grew. -/
def grow (side : Side) (grew : Bool) (balance : Int) (entry : Nat) (left right : TargetTree) :
    TargetTree × Bool :=
  if grew then
    let balance := balance + side.weight
    if balance = 0 then (node 0 entry left right, false)
    else
      let (tree, lowered) := rebalance balance entry left right
      (tree, !lowered)
  else (node balance entry left right, false)

/-- Add an entry for an offset that has none yet. Answers the tree and whether it grew higher. -/
def insert (offsets : Array Nat) (offset fresh : Nat) : TargetTree → TargetTree × Bool
  | leaf => (node 0 fresh leaf leaf, true)
  | node balance entry left right =>
    if offset < offsets[entry]?.getD 0 then
      let (left, grew) := insert offsets offset fresh left
      grow .left grew balance entry left right
    else
      let (right, grew) := insert offsets offset fresh right
      grow .right grew balance entry left right

/-- The entry numbers in the order in which they are handed out after all of them have been freed,
followed by `spare`. -/
def release : TargetTree → List Nat → List Nat
  | leaf, spare => spare
  | node _ entry left right, spare => entry :: right.release (left.release spare)

end TargetTree

/-- Distinct jump targets, each with a number that stays with it while its offset moves. -/
structure TargetIndex where
  /-- Offset of each entry number; free numbers keep a stale offset. -/
  offsets : Array Nat
  /-- The live entries in search order. -/
  tree : TargetTree
  /-- Entry numbers that may be handed out again. -/
  spare : List Nat
  /-- Number of live entries. -/
  count : Nat
  deriving DecidableEq, Repr

namespace TargetIndex

/-- The empty index. -/
def empty : TargetIndex := ⟨#[], .leaf, [], 0⟩

/-- Offset of an entry. -/
def offset (t : TargetIndex) (entry : Nat) : Nat := t.offsets[entry]?.getD 0

/-- Offsets of the live entries in ascending order. -/
def toList (t : TargetIndex) : List Nat := t.tree.entries.map t.offset

/-- Take a number for an offset: a spare one, or the next one. -/
def alloc (t : TargetIndex) (offset : Nat) : TargetIndex × Nat :=
  match t.spare with
  | entry :: spare => ({ t with offsets := t.offsets.setIfInBounds entry offset, spare }, entry)
  | [] => ({ t with offsets := t.offsets.push offset }, t.offsets.size)

/-- The entry for an offset, made now if there is none. -/
def insert (t : TargetIndex) (offset : Nat) : TargetIndex × Nat :=
  match t.tree.find? t.offsets offset with
  | some entry => (t, entry)
  | none =>
    let (t, entry) := t.alloc offset
    ({ t with tree := (t.tree.insert t.offsets offset entry).1, count := t.count + 1 }, entry)

/-- Move every target strictly beyond `pivot` by `distance`. -/
def shiftAbove (t : TargetIndex) (pivot distance : Nat) : TargetIndex :=
  { t with offsets := t.offsets.map fun offset =>
      if pivot < offset then offset + distance else offset }

/-- Drop all entries and keep their numbers for later. -/
def clear (t : TargetIndex) : TargetIndex := ⟨t.offsets, .leaf, t.tree.release t.spare, 0⟩

end TargetIndex

end ScriptCompiler
