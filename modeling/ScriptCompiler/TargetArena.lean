import ScriptCompiler.Error
import ScriptCompiler.TargetIndex

/-!
# How the target index is stored

The entries of the index are nodes of one array. A node holds its offset, its
balance and the numbers of the nodes on its sides. Clearing the index threads
all nodes on a list of free ones through their left sides, and an offset takes
a node from there before the array grows. A number has 32 bits, so a full array
without free nodes refuses a new offset. Links are followed as far as `fuel`
goes, and no path is longer than the array.
-/

namespace ScriptCompiler

/-- A node of the array. -/
structure TargetNode where
  /-- Offset of the target. -/
  offset : Nat
  /-- Height of the right side minus height of the left side. -/
  balance : Int
  /-- The node on the left; of a free node, the next free one. -/
  left : Option Nat
  /-- The node on the right. -/
  right : Option Nat
  deriving DecidableEq, Repr, Inhabited

namespace TargetNode

/-- The node on a side. -/
def kid (n : TargetNode) (side : Side) : Option Nat := (side.order n.left n.right).1

/-- Put a node on a side. -/
def setKid (side : Side) (kid : Option Nat) (n : TargetNode) : TargetNode :=
  match side with
  | .left => { n with left := kid }
  | .right => { n with right := kid }

/-- Set the balance. -/
def setBalance (balance : Int) (n : TargetNode) : TargetNode := { n with balance }

end TargetNode

/-- The nodes, live and free. -/
abbrev TargetNodes := Array TargetNode

namespace TargetNodes

/-- The node with a number. -/
def node (nodes : TargetNodes) (id : Nat) : TargetNode := nodes[id]?.getD default

/-- Rotate a node, the other side of which is too high, towards `dir`. Answers the nodes, the new
root and whether its tree is lower. -/
def rotate (nodes : TargetNodes) (dir : Side) (id : Nat) : TargetNodes × Nat × Bool :=
  match (node nodes id).kid dir.other with
  | none => (nodes, id, false)
  | some child =>
    let below := node nodes child
    if 0 < dir.weight * below.balance then
      match below.kid dir with
      | none => (nodes, id, false)
      | some root =>
        let top := node nodes root
        let nodes := nodes.modify id (·.setKid dir.other (top.kid dir))
        let nodes := nodes.modify child (·.setKid dir (top.kid dir.other))
        let nodes := nodes.modify root fun n => (n.setKid dir (some id)).setKid dir.other (some child)
        let (left, right) := dir.order id child
        let nodes := nodes.modify left (·.setBalance (-max top.balance 0))
        let nodes := nodes.modify right (·.setBalance (-min top.balance 0))
        (nodes.modify root (·.setBalance 0), root, true)
    else
      let nodes := nodes.modify id (·.setKid dir.other (below.kid dir))
      let nodes := nodes.modify child (·.setKid dir (some id))
      let balance := below.balance + dir.weight
      let nodes := nodes.modify child (·.setBalance balance)
      (nodes.modify id (·.setBalance (-balance)), child, below.balance ≠ 0)

/-- Restore the balance of a node. Answers the nodes, the new root and whether its tree is lower. -/
def rebalance (nodes : TargetNodes) (id : Nat) : TargetNodes × Nat × Bool :=
  let balance := (node nodes id).balance
  if balance < -1 then rotate nodes .right id
  else if 1 < balance then rotate nodes .left id
  else (nodes, id, false)

/-- Take into account that a side of a node may have grown. Answers the nodes, the new root and
whether its tree grew. -/
def grow (nodes : TargetNodes) (side : Side) (grew : Bool) (id : Nat) : TargetNodes × Nat × Bool :=
  if grew then
    let balance := (node nodes id).balance + side.weight
    let nodes := nodes.modify id (·.setBalance balance)
    if balance = 0 then (nodes, id, false)
    else
      let (nodes, root, lowered) := rebalance nodes id
      (nodes, root, !lowered)
  else (nodes, id, false)

/-- Move the nodes below a link that are beyond `pivot`. The left side of a node that stays is not
visited: nothing there can be beyond `pivot`. -/
def shift (pivot distance : Nat) : Nat → Option Nat → TargetNodes → Except Error TargetNodes
  | _, none, nodes => .ok nodes
  | 0, some _, _ => .error (.fault .endless)
  | fuel + 1, some id, nodes => do
    let here := node nodes id
    let nodes ←
      if pivot < here.offset then
        shift pivot distance fuel here.left
          (nodes.modify id fun n => { n with offset := n.offset + distance })
      else pure nodes
    shift pivot distance fuel here.right nodes

/-- Put the nodes below a link on the list of free ones, a node behind those on its sides. -/
def release : Nat → Option Nat → TargetNodes × Option Nat → Except Error (TargetNodes × Option Nat)
  | _, none, nodes => .ok nodes
  | 0, some _, _ => .error (.fault .endless)
  | fuel + 1, some id, (nodes, free) => do
    let here := node nodes id
    let (nodes, free) ← release fuel here.left (nodes, free)
    let (nodes, free) ← release fuel here.right (nodes, free)
    return (nodes.modify id fun n => { n with left := free, right := none }, some id)

end TargetNodes

/-- Jump targets in an array of nodes. -/
structure TargetArena where
  /-- The nodes, live and free. -/
  nodes : TargetNodes
  /-- The root of the tree of live nodes. -/
  root : Option Nat
  /-- The first free node. -/
  free : Option Nat
  /-- Number of live nodes. -/
  len : Nat
  deriving DecidableEq, Repr

/-- Where an offset was found or put. -/
structure Placed where
  /-- Its node. -/
  found : Nat
  /-- The root of the tree it is in. -/
  root : Nat
  /-- Whether that tree grew. -/
  grew : Bool

namespace TargetArena

/-- The arena without nodes. -/
def empty : TargetArena := ⟨#[], none, none, 0⟩

/-- Offset of a target. -/
def offset (a : TargetArena) (id : Nat) : Nat := (TargetNodes.node a.nodes id).offset

/-- Number of nodes that can be told apart. -/
def capacity : Nat := 4294967296

/-- Take a node for an offset. -/
def alloc (a : TargetArena) (offset : Nat) : EStateM.Result Error TargetArena Nat :=
  let fresh : TargetNode := ⟨offset, 0, none, none⟩
  match a.free with
  | some id =>
    .ok id { a with
      nodes := a.nodes.setIfInBounds id fresh, free := (TargetNodes.node a.nodes id).left }
  | none =>
    if a.nodes.size < capacity then .ok a.nodes.size { a with nodes := a.nodes.push fresh }
    else .error .outOfMemory a

/-- Hang the tree in which an offset was found or put on a side of a node. -/
def attach (id : Nat) (side : Side) :
    EStateM.Result Error TargetArena Placed → EStateM.Result Error TargetArena Placed
  | .ok below a =>
    let nodes := a.nodes.modify id (·.setKid side (some below.root))
    let (nodes, root, grew) := TargetNodes.grow nodes side below.grew id
    .ok ⟨below.found, root, grew⟩ { a with nodes }
  | .error e a => .error e a

/-- Find an offset below a link, or put it there. -/
def add (offset : Nat) : Nat → Option Nat → TargetArena → EStateM.Result Error TargetArena Placed
  | _, none, a =>
    match a.alloc offset with
    | .ok id a => .ok ⟨id, id, true⟩ { a with len := a.len + 1 }
    | .error e a => .error e a
  | 0, some _, a => .error (.fault .endless) a
  | fuel + 1, some id, a =>
    let here := TargetNodes.node a.nodes id
    if here.offset = offset then .ok ⟨id, id, false⟩ a
    else
      let side := Side.of offset here.offset
      attach id side (add offset fuel (here.kid side) a)

/-- The node for an offset, made now if there is none. -/
def insert (a : TargetArena) (offset : Nat) : EStateM.Result Error TargetArena Nat :=
  match add offset a.nodes.size a.root a with
  | .ok placed a => .ok placed.found { a with root := some placed.root }
  | .error e a => .error e a

/-- Move every target strictly beyond `pivot` by `distance`. -/
def shiftAbove (a : TargetArena) (pivot distance : Nat) : Except Error TargetArena := do
  let nodes ← TargetNodes.shift pivot distance a.nodes.size a.root a.nodes
  return { a with nodes }

/-- Free all nodes. -/
def clear (a : TargetArena) : Except Error TargetArena := do
  let (nodes, free) ← TargetNodes.release a.nodes.size a.root (a.nodes, a.free)
  return ⟨nodes, none, free, 0⟩

end TargetArena

end ScriptCompiler
