import ScriptCompiler.TargetArena
import ScriptCompiler.Proofs.Target.History

/-!
# Trees in the array of nodes

A tree is stored in the nodes of its entries, and the free nodes are threaded
in the order in which they are handed out. Each step on the array rewrites the
nodes of one tree and leaves the others alone: rotations and balancing do what
they do to the tree, the walk that skips what cannot be beyond a point moves
exactly the targets beyond it, and freeing a tree threads its nodes in front of
the others.
-/

namespace ScriptCompiler

variable {nodes nodes' : TargetNodes} {offsets offsets' : Array Nat} {t : TargetTree}
  {balance : Int} {e n entry offset : Nat} {left right : TargetTree}

namespace TargetTree

@[simp] theorem link_leaf : TargetTree.leaf.link = none := rfl

@[simp] theorem link_node :
    (TargetTree.node balance entry left right).link = some entry := rfl

/-- Induction along the way to an offset. -/
theorem along (offsets : Array Nat) (offset : Nat) {motive : TargetTree → Prop}
    (leaf : motive .leaf)
    (here : ∀ balance entry left right, offset = offsets[entry]?.getD 0 →
      motive (.node balance entry left right))
    (step : ∀ side balance entry near far, offset ≠ offsets[entry]?.getD 0 →
      Side.of offset (offsets[entry]?.getD 0) = side → motive near →
      motive (.join side balance entry near far)) (t : TargetTree) : motive t := by
  induction t with
  | leaf => exact leaf
  | node balance entry left right ihl ihr =>
    by_cases heq : offset = offsets[entry]?.getD 0
    · exact here balance entry left right heq
    · cases hside : Side.of offset (offsets[entry]?.getD 0) with
      | left => exact step .left balance entry left right heq hside ihl
      | right => exact step .right balance entry right left heq hside ihr

end TargetTree

namespace TargetNodes

open TargetTree (link_leaf link_node)

/-- The nodes of the entries of a tree hold its balances and links, and the offsets. -/
def Stored (nodes : TargetNodes) (offsets : Array Nat) : TargetTree → Prop
  | .leaf => True
  | .node balance entry left right =>
    nodes[entry]? = some ⟨offsets[entry]?.getD 0, balance, left.link, right.link⟩ ∧
      Stored nodes offsets left ∧ Stored nodes offsets right

/-- The nodes are threaded in the order of the list through their left sides. -/
def Threaded (nodes : TargetNodes) : List Nat → Prop
  | [] => True
  | entry :: rest => (nodes[entry]?.map TargetNode.left = some rest.head?) ∧ Threaded nodes rest

/-- What is stored depends on the nodes and offsets of the entries only. -/
theorem Stored.congr (h : Stored nodes offsets t)
    (hnodes : ∀ e ∈ t.entries, nodes'[e]? = nodes[e]?)
    (hoffsets : ∀ e ∈ t.entries, offsets'[e]?.getD 0 = offsets[e]?.getD 0) :
    Stored nodes' offsets' t := by
  induction t with
  | leaf => trivial
  | node balance entry left right ihl ihr =>
    obtain ⟨hhere, hl, hr⟩ := h
    simp only [TargetTree.entries_node, List.forall_mem_append, List.forall_mem_cons]
      at hnodes hoffsets
    exact ⟨by rw [hnodes.2.1, hoffsets.2.1, hhere], ihl hl hnodes.1 hoffsets.1,
      ihr hr hnodes.2.2 hoffsets.2.2⟩

theorem Threaded.congr {spare : List Nat} (h : Threaded nodes spare)
    (hnodes : ∀ e ∈ spare, nodes'[e]? = nodes[e]?) : Threaded nodes' spare := by
  induction spare with
  | nil => trivial
  | cons entry rest ih =>
    rw [List.forall_mem_cons] at hnodes
    exact ⟨by rw [hnodes.1, h.1], ih h.2 hnodes.2⟩

/-- Nodes outside the list are the same. -/
def Framed (nodes nodes' : TargetNodes) (written : List Nat) : Prop :=
  nodes'.size = nodes.size ∧ ∀ e ∉ written, nodes'[e]? = nodes[e]?

theorem Stored.framed (h : Stored nodes offsets t) {written : List Nat}
    (hframed : Framed nodes nodes' written) (hother : ∀ e ∈ t.entries, e ∉ written) :
    Stored nodes' offsets t :=
  h.congr (fun e he => hframed.2 e (hother e he)) fun _ _ => rfl

theorem Framed.mono {written written' : List Nat} (h : Framed nodes nodes' written)
    (hsub : written ⊆ written') : Framed nodes nodes' written' :=
  ⟨h.1, fun e he => h.2 e fun hmem => he (hsub hmem)⟩

theorem Framed.trans {nodes'' : TargetNodes} {written : List Nat} (h : Framed nodes nodes' written)
    (h' : Framed nodes' nodes'' written) : Framed nodes nodes'' written :=
  ⟨h'.1.trans h.1, fun e he => (h'.2 e he).trans (h.2 e he)⟩

theorem framed_modify {f : TargetNode → TargetNode} : Framed nodes (nodes.modify e f) [e] :=
  ⟨Array.size_modify, fun x hx => by
    rw [Array.getElem?_modify, if_neg fun heq => hx (List.mem_singleton.mpr heq.symm)]⟩

/-- The nodes of a tree have been written, whose entries had nodes before. -/
structure Written (nodes : TargetNodes) (offsets : Array Nat) (result : TargetNodes × Nat × Bool)
    (tree : TargetTree × Bool) : Prop where
  stored : Stored result.1 offsets tree.1
  link : tree.1.link = some result.2.1
  flag : result.2.2 = tree.2
  framed : Framed nodes result.1 tree.1.entries

theorem Stored.written (h : Stored nodes offsets (.node balance entry left right)) (flag : Bool) :
    Written nodes offsets (nodes, entry, flag) (.node balance entry left right, flag) :=
  ⟨h, rfl, rfl, rfl, fun _ _ => rfl⟩

section Rotation

variable {dir : Side} {here below top : TargetNode} {id child root : Nat}
  (hid : nodes[id]? = some here) (hchild : nodes[child]? = some below)
  (hkid : here.kid dir.other = some child) (hne : id ≠ child)

include hid hchild hkid hne

/-- A single rotation writes two nodes. -/
theorem rotate_single (hflat : ¬ 0 < dir.weight * below.balance) : ∃ nodes',
    rotate nodes dir id = (nodes', child, decide (below.balance ≠ 0)) ∧
    Framed nodes nodes' [id, child] ∧
    nodes'[id]? = some ((here.setKid dir.other (below.kid dir)).setBalance
      (-(below.balance + dir.weight))) ∧
    nodes'[child]? =
      some ((below.setKid dir (some id)).setBalance (below.balance + dir.weight)) := by
  simp only [rotate, node, hid, Option.getD_some, hkid, hchild, if_neg hflat]
  refine ⟨_, rfl, ⟨by simp, fun e he => ?_⟩, ?_, ?_⟩
  · simp only [List.mem_cons, List.not_mem_nil, or_false, not_or] at he
    simp [Array.getElem?_modify, Ne.symm he.1, Ne.symm he.2]
  · simp [Array.getElem?_modify, hne.symm, hid]
  · simp [Array.getElem?_modify, hne, hchild]

/-- A double rotation writes three nodes. -/
theorem rotate_double (hroot : nodes[root]? = some top) (hsteep : 0 < dir.weight * below.balance)
    (hinner : below.kid dir = some root) (hid' : id ≠ root) (hchild' : child ≠ root) : ∃ nodes',
    rotate nodes dir id = (nodes', root, true) ∧ Framed nodes nodes' [id, child, root] ∧
    nodes'[id]? = some ((here.setKid dir.other (top.kid dir)).setBalance
      (dir.order (-max top.balance 0) (-min top.balance 0)).1) ∧
    nodes'[child]? = some ((below.setKid dir (top.kid dir.other)).setBalance
      (dir.order (-max top.balance 0) (-min top.balance 0)).2) ∧
    nodes'[root]? =
      some (((top.setKid dir (some id)).setKid dir.other (some child)).setBalance 0) := by
  simp only [rotate, node, hid, Option.getD_some, hkid, hchild, if_pos hsteep, hinner, hroot]
  refine ⟨_, rfl, ⟨by simp, fun e he => ?_⟩, ?_, ?_, ?_⟩
  · simp only [List.mem_cons, List.not_mem_nil, or_false, not_or] at he
    cases dir <;>
    simp [Array.getElem?_modify, Side.order, Ne.symm he.1, Ne.symm he.2.1, Ne.symm he.2.2]
  all_goals cases dir <;>
    simp [Array.getElem?_modify, Side.order, hne, hne.symm, hid', hid'.symm, hchild', hchild'.symm,
      hid, hchild, hroot]

end Rotation

section Join

variable {dir : Side} {near far : TargetTree}

/-- The node of a tree with `near` on the side `dir`. -/
def joined (dir : Side) (offset : Nat) (balance : Int) (near far : Option Nat) : TargetNode :=
  ⟨offset, balance, (dir.order near far).1, (dir.order near far).2⟩

theorem joined_kid {near far : Option Nat} :
    (joined dir offset balance near far).kid dir = near := by
  cases dir <;> rfl

theorem joined_kid_other {near far : Option Nat} :
    (joined dir offset balance near far).kid dir.other = far := by
  cases dir <;> rfl

theorem stored_join : Stored nodes offsets (.join dir balance entry near far) ↔
    nodes[entry]? = some (joined dir (offsets[entry]?.getD 0) balance near.link far.link) ∧
      Stored nodes offsets near ∧ Stored nodes offsets far := by
  cases dir with
  | left => exact Iff.rfl
  | right => exact and_congr_right fun _ => and_comm

theorem mem_join (balance : Int) : e ∈ (TargetTree.join dir balance entry near far).entries ↔
    e = entry ∨ e ∈ near.entries ∨ e ∈ far.entries := by
  cases dir <;> simp [TargetTree.join, Side.order] <;> tauto

theorem nodup_join (dir : Side) {balance : Int} :
    (TargetTree.join dir balance entry near far).entries.Nodup ↔
    entry ∉ near.entries ∧ entry ∉ far.entries ∧ near.entries.Nodup ∧ far.entries.Nodup ∧
      ∀ e ∈ near.entries, e ∉ far.entries := by
  cases dir <;> simp only [TargetTree.join, Side.order, TargetTree.entries_node] <;> grind

theorem exists_join (dir : Side) (balance : Int) (entry : Nat) (left right : TargetTree) :
    ∃ near far, dir.order left right = (near, far) ∧
      TargetTree.node balance entry left right = .join dir balance entry near far := by
  cases dir with
  | left => exact ⟨left, right, rfl, rfl⟩
  | right => exact ⟨right, left, rfl, rfl⟩

/-- Rotating the nodes rotates the tree. -/
theorem rotate_written (dir : Side) (h : Stored nodes offsets (.join dir balance entry near far))
    (hdistinct : (TargetTree.join dir balance entry near far).entries.Nodup) :
    Written nodes offsets (rotate nodes dir entry)
      (TargetTree.rotate dir balance entry near far) := by
  obtain ⟨hhere, hnear, hfar⟩ := stored_join.mp h
  cases far with
  | leaf =>
    have hnone : (node nodes entry).kid dir.other = none := by
      rw [node, hhere]
      exact joined_kid_other
    rw [rotate, hnone]
    exact h.written false
  | node childBalance child left right =>
    obtain ⟨inner, outer, horder, hjoin⟩ := exists_join dir childBalance child left right
    rw [hjoin] at hfar hdistinct
    obtain ⟨hchild, hinner, houter⟩ := stored_join.mp hfar
    simp only [nodup_join, mem_join] at hdistinct
    by_cases hdouble : 0 < dir.weight * childBalance
    · cases inner with
      | leaf =>
        have hstays : rotate nodes dir entry = (nodes, entry, false) := by
          simp only [rotate, node, hhere, hchild, joined_kid, joined_kid_other, Option.getD_some,
            TargetTree.link]
          exact if_pos hdouble
        rw [hstays, TargetTree.rotate]
        simp only [horder, if_pos hdouble]
        exact h.written false
      | node rootBalance root left' right' =>
        obtain ⟨low, high, horder', hjoin'⟩ := exists_join dir rootBalance root left' right'
        rw [hjoin'] at hinner hdistinct
        obtain ⟨hroot, hlow, hhigh⟩ := stored_join.mp hinner
        simp only [nodup_join, mem_join] at hdistinct
        obtain ⟨nodes', hrotate, hframed, hid', hchild', hroot'⟩ :=
          rotate_double hhere hchild joined_kid_other (by grind) hroot hdouble joined_kid (by grind)
            (by grind)
        rw [hrotate, TargetTree.rotate]
        simp only [horder, if_pos hdouble, horder']
        refine ⟨stored_join.mpr ⟨?_,
          stored_join.mpr ⟨?_, hnear.framed hframed ?_, hlow.framed hframed ?_⟩,
          stored_join.mpr ⟨?_, hhigh.framed hframed ?_, houter.framed hframed ?_⟩⟩,
          rfl, rfl, hframed.mono ?_⟩
        · rw [hroot']
          cases dir <;> rfl
        · rw [hid']
          cases dir <;> rfl
        · grind
        · grind
        · rw [hchild']
          cases dir <;> rfl
        · grind
        · grind
        · intro e
          simp only [mem_join, List.mem_cons]
          grind
    · obtain ⟨nodes', hrotate, hframed, hid', hchild'⟩ :=
        rotate_single hhere hchild joined_kid_other (by grind) hdouble
      rw [hrotate, TargetTree.rotate]
      simp only [horder, if_neg hdouble]
      refine ⟨stored_join.mpr ⟨?_,
        stored_join.mpr ⟨?_, hnear.framed hframed ?_, hinner.framed hframed ?_⟩,
        houter.framed hframed ?_⟩, rfl, rfl, hframed.mono ?_⟩
      · rw [hchild']
        cases dir <;> rfl
      · rw [hid']
        cases dir <;> rfl
      · grind
      · grind
      · grind
      · intro e
        simp only [mem_join, List.mem_cons]
        grind

end Join

section Balancing

variable (h : Stored nodes offsets (.node balance entry left right))
  (hdistinct : (TargetTree.node balance entry left right).entries.Nodup)

include h hdistinct

theorem rebalance_written : Written nodes offsets (rebalance nodes entry)
    (TargetTree.rebalance balance entry left right) := by
  have hbalance : (node nodes entry).balance = balance := by rw [node, h.1, Option.getD_some]
  simp only [rebalance, TargetTree.rebalance, hbalance]
  split
  · exact rotate_written .right (stored_join.mpr ⟨h.1, h.2.symm⟩) hdistinct
  · split
    · exact rotate_written .left h hdistinct
    · exact h.written false

/-- A node is balanced like its tree when a side has grown. -/
theorem grow_written (side : Side) (grew : Bool) :
    Written nodes offsets (grow nodes side grew entry)
      (TargetTree.grow side grew balance entry left right) := by
  cases grew with
  | false => exact h.written false
  | true =>
    have hbalance : (node nodes entry).balance = balance := by rw [node, h.1, Option.getD_some]
    simp only [grow, TargetTree.grow, hbalance, if_true]
    have hframed :
        Framed nodes (nodes.modify entry (·.setBalance (balance + side.weight))) [entry] :=
      framed_modify
    have hset : Stored (nodes.modify entry (·.setBalance (balance + side.weight))) offsets
        (.node (balance + side.weight) entry left right) := by
      refine ⟨?_, h.2.1.framed hframed ?_, h.2.2.framed hframed ?_⟩
      · rw [Array.getElem?_modify, if_pos rfl, h.1]
        rfl
      · simp only [TargetTree.entries_node] at hdistinct
        grind
      · simp only [TargetTree.entries_node] at hdistinct
        grind
    split
    · rename_i hzero
      rw [hzero] at hset hframed ⊢
      exact ⟨hset, rfl, rfl, hframed.mono (by simp)⟩
    · have hwritten := rebalance_written hset hdistinct
      refine ⟨hwritten.stored, hwritten.link, congrArg (!·) hwritten.flag, ?_⟩
      refine (hframed.mono ?_).trans hwritten.framed
      simp

end Balancing

section Walks

variable {pivot distance : Nat} {spare : List Nat}

/-- The offset of a target after a move. -/
def moved (pivot distance offset : Nat) : Nat :=
  if pivot < offset then offset + distance else offset

/-- The walk that skips what cannot be beyond `pivot` moves exactly the targets beyond it. -/
theorem shift_stored (h : Stored nodes offsets t) (hordered : t.Ordered offsets)
    (hdistinct : t.entries.Nodup) (hfuel : t.height ≤ n) :
    ∃ nodes', shift pivot distance n t.link nodes = .ok nodes' ∧
      Framed nodes nodes' t.entries ∧
      Stored nodes' (offsets.map (moved pivot distance)) t := by
  have hmoved : ∀ e : Nat, (offsets.map (moved pivot distance))[e]?.getD 0 =
      moved pivot distance (offsets[e]?.getD 0) := by
    intro e
    cases he : offsets[e]? <;> simp [he, moved]
  induction t generalizing nodes n with
  | leaf => exact ⟨nodes, by cases n <;> rfl, ⟨rfl, fun _ _ => rfl⟩, trivial⟩
  | node balance entry left right ihl ihr =>
    obtain ⟨hhere, hl, hr⟩ := h
    obtain ⟨hlo, hro, hbelow, -⟩ := TargetTree.ordered_node.mp hordered
    obtain ⟨hel, her, hld, hrd, hacross⟩ := (nodup_join .left).mp hdistinct
    obtain ⟨n, rfl⟩ : ∃ m, n = m + 1 := ⟨n - 1, by simp at hfuel; omega⟩
    simp only [TargetTree.height_node] at hfuel
    -- what the walk over the right side makes of the nodes it gets
    have hright : ∀ nodes₁, Framed nodes nodes₁ (entry :: left.entries) →
        Stored nodes₁ (offsets.map (moved pivot distance)) left →
        nodes₁[entry]? = some
          ⟨moved pivot distance (offsets[entry]?.getD 0), balance, left.link, right.link⟩ →
        ∃ nodes', shift pivot distance n right.link nodes₁ = .ok nodes' ∧
          Framed nodes nodes' (TargetTree.node balance entry left right).entries ∧
          Stored nodes' (offsets.map (moved pivot distance)) (.node balance entry left right) := by
      intro nodes₁ hframed hleft hentry
      obtain ⟨nodes', hshift, hframed', hright⟩ :=
        ihr (n := n) (hr.framed hframed (by grind)) hro hrd (by omega)
      refine ⟨nodes', hshift, (hframed.mono ?_).trans (hframed'.mono ?_), ?_,
        hleft.framed hframed' hacross, hright⟩
      · simp
      · simp
      · rw [hframed'.2 entry her, hentry, hmoved]
    rw [TargetTree.link, shift]
    simp only [node, hhere, Option.getD_some]
    by_cases hbeyond : pivot < offsets[entry]?.getD 0
    · have hframed : Framed nodes
          (nodes.modify entry fun n => { n with offset := n.offset + distance }) [entry] :=
        framed_modify
      obtain ⟨nodes₁, hshift, hframed₁, hleft⟩ :=
        ihl (n := n) (hl.framed hframed (by grind)) hlo hld (by omega)
      rw [if_pos hbeyond, hshift]
      refine hright nodes₁ ((hframed.mono ?_).trans (hframed₁.mono ?_)) hleft ?_
      · simp
      · simp
      · rw [hframed₁.2 entry hel, Array.getElem?_modify, if_pos rfl, hhere, moved, if_pos hbeyond]
        rfl
    · rw [if_neg hbeyond]
      refine hright nodes ⟨rfl, fun _ _ => rfl⟩ (hl.congr (fun _ _ => rfl) fun e he => ?_) ?_
      · have := hbelow e he
        rw [hmoved, moved, if_neg (by omega)]
      · rw [hhere, moved, if_neg hbeyond]

/-- Freeing a tree threads its nodes in front of the free ones. -/
theorem release_threaded (h : Stored nodes offsets t) (hspare : Threaded nodes spare)
    (hdistinct : (t.entries ++ spare).Nodup) (hfuel : t.height ≤ n) :
    ∃ nodes', release n t.link (nodes, spare.head?) = .ok (nodes', (t.release spare).head?) ∧
      Framed nodes nodes' t.entries ∧ Threaded nodes' (t.release spare) := by
  induction t generalizing nodes n spare with
  | leaf => exact ⟨nodes, by cases n <;> rfl, ⟨rfl, fun _ _ => rfl⟩, hspare⟩
  | node balance entry left right ihl ihr =>
    obtain ⟨hhere, hl, hr⟩ := h
    obtain ⟨n, rfl⟩ : ∃ m, n = m + 1 := ⟨n - 1, by simp at hfuel; omega⟩
    simp only [TargetTree.height_node, TargetTree.entries_node] at hfuel hdistinct
    obtain ⟨nodes₁, hleft, hframed₁, hspare₁⟩ := ihl (n := n) hl hspare (by grind) (by omega)
    have hperm := left.release_perm spare
    obtain ⟨nodes₂, hright, hframed₂, hspare₂⟩ :=
      ihr (n := n) (hr.framed hframed₁ (by grind)) hspare₁ (by
        refine (hperm.append_left right.entries).nodup_iff.mpr ?_
        grind) (by omega)
    have hperm₂ := (right.release_perm (left.release spare)).trans (hperm.append_left right.entries)
    have hfresh : entry ∉ right.release (left.release spare) := fun hmem => by
      have := hperm₂.mem_iff.mp hmem
      grind
    have hframed : Framed nodes₂ (nodes₂.modify entry fun n =>
        { n with left := (right.release (left.release spare)).head?, right := none }) [entry] :=
      framed_modify
    refine ⟨_, ?_, ((hframed₁.mono ?_).trans (hframed₂.mono ?_)).trans (hframed.mono ?_), ?_,
      hspare₂.congr fun e he => hframed.2 e ?_⟩
    · rw [TargetTree.link, release]
      simp only [node, hhere, Option.getD_some, bind, Except.bind, hleft, hright]
      rfl
    · simp
    · simp
    · simp
    · rw [Array.getElem?_modify, if_pos rfl, hframed₂.2 entry (by grind),
        hframed₁.2 entry (by grind), hhere]
      rfl
    · grind

end Walks

end TargetNodes

end ScriptCompiler
