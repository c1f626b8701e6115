import ScriptCompiler.Proofs.Target.Nodes

/-!
# The target arena under any history

An arena holds an index: its live nodes form the tree of the index, with the
same offsets, and its free nodes are the spare numbers. Adding an offset, moving
targets and clearing do the same to both, save that a full arena refuses a new
offset and stays as it was. So after any history the arena has the order, the
shape and the partition of nodes that the index has.
-/

namespace ScriptCompiler

variable {offsets : Array Nat} {t : TargetTree} {balance : Int} {e n entry offset fresh : Nat}

namespace TargetArena

open TargetNodes
open TargetTree (link_leaf link_node)

variable {a a₁ : TargetArena}

/-! ## Adding an offset -/

section Step

variable {side : Side} {near far : TargetTree} (hne : offset ≠ offsets[entry]?.getD 0)
  (hside : Side.of offset (offsets[entry]?.getD 0) = side)

include hne hside

theorem find?_join : (TargetTree.join side balance entry near far).find? offsets offset =
    near.find? offsets offset := by
  subst hside
  unfold Side.of
  split <;> rename_i hlt <;> simp only [TargetTree.join, Side.order, TargetTree.find?, if_neg hne]
  · exact if_pos hlt
  · exact if_neg hlt

omit hne in
theorem insert_join : (TargetTree.join side balance entry near far).insert offsets offset fresh =
    (TargetTree.grow side (near.insert offsets offset fresh).2 balance entry
      (side.order (near.insert offsets offset fresh).1 far).1
      (side.order (near.insert offsets offset fresh).1 far).2) := by
  subst hside
  unfold Side.of
  split <;> rename_i hlt <;> simp only [TargetTree.join, Side.order, TargetTree.insert]
  · exact if_pos hlt
  · exact if_neg hlt

theorem add_step (h : Stored a.nodes offsets (.join side balance entry near far)) :
    add offset (n + 1) (some entry) a = attach entry side (add offset n near.link a) := by
  have hoff : (joined side (offsets[entry]?.getD 0) balance near.link far.link).offset =
    offsets[entry]?.getD 0 := rfl
  simp only [add, node, (stored_join.mp h).1, Option.getD_some, hoff, hside, joined_kid,
    if_neg (Ne.symm hne)]

end Step

theorem height_join (side : Side) (balance : Int) (entry : Nat) (near far : TargetTree) :
    near.height < (TargetTree.join side balance entry near far).height := by
  cases side <;> simp [TargetTree.join, Side.order] <;> omega

section Add

variable (h : Stored a.nodes offsets t) (hfuel : t.height ≤ n)

include h hfuel

/-- An offset that is there is found, and nothing changes. -/
theorem add_known (hfind : t.find? offsets offset = some e) :
    ∃ root, t.link = some root ∧ add offset n t.link a = .ok ⟨e, root, false⟩ a := by
  induction t using TargetTree.along offsets offset generalizing n with
  | leaf => cases hfind
  | here balance entry left right heq =>
    obtain ⟨n, rfl⟩ : ∃ m, n = m + 1 := ⟨n - 1, by simp at hfuel; omega⟩
    simp only [TargetTree.find?, if_pos heq, Option.some.injEq] at hfind
    subst hfind
    refine ⟨entry, rfl, ?_⟩
    simp only [link_node, add, node, h.1, Option.getD_some]
    exact if_pos heq.symm
  | step side balance entry near far hne hside ih =>
    have hheight := height_join side balance entry near far
    obtain ⟨n, rfl⟩ : ∃ m, n = m + 1 := ⟨n - 1, by omega⟩
    obtain ⟨hhere, hnear, -⟩ := stored_join.mp h
    rw [find?_join hne hside] at hfind
    obtain ⟨root, hroot, hadd⟩ := ih (n := n) hnear (by omega) hfind
    refine ⟨entry, rfl, ?_⟩
    -- the link that is written is the one that is there
    have hsame : a.nodes.modify entry (·.setKid side (some root)) = a.nodes := by
      refine Array.ext_getElem? fun e => ?_
      rw [Array.getElem?_modify]
      split
      · rename_i heq
        subst heq
        rw [hhere, hroot]
        cases side <;> rfl
      · rfl
    refine (add_step hne hside h).trans ?_
    rw [hadd, attach, hsame]
    rfl

section New

variable (hfind : t.find? offsets offset = none)

include hfind

/-- A new offset is refused if there is no node for it, and nothing changes. -/
theorem add_refused {e : Error} (halloc : a.alloc offset = .error e a) :
    add offset n t.link a = .error e a := by
  induction t using TargetTree.along offsets offset generalizing n with
  | leaf => cases n <;> simp only [link_leaf, add, halloc]
  | here balance entry left right heq => simp [TargetTree.find?, heq] at hfind
  | step side balance entry near far hne hside ih =>
    have hheight := height_join side balance entry near far
    obtain ⟨n, rfl⟩ : ∃ m, n = m + 1 := ⟨n - 1, by omega⟩
    rw [find?_join hne hside] at hfind
    refine (add_step hne hside h).trans ?_
    rw [ih (n := n) (stored_join.mp h).2.1 (by omega) hfind, attach]

/-- A new offset gets the node that is free, and the nodes on the way are balanced. -/
theorem add_new (halloc : a.alloc offset = .ok fresh a₁)
    (hkept : ∀ e ∈ t.entries, a₁.nodes[e]? = a.nodes[e]?)
    (hfresh : a₁.nodes[fresh]? = some ⟨offset, 0, none, none⟩)
    (hoffset : offsets[fresh]?.getD 0 = offset) (hdistinct : (fresh :: t.entries).Nodup) :
    ∃ result, add offset n t.link a =
        .ok ⟨fresh, result.2.1, result.2.2⟩ { a₁ with nodes := result.1, len := a₁.len + 1 } ∧
      Written a₁.nodes offsets result (t.insert offsets offset fresh) := by
  induction t using TargetTree.along offsets offset generalizing n with
  | leaf =>
    have hstored : Stored a₁.nodes offsets (.node 0 fresh .leaf .leaf) :=
      ⟨by rw [hfresh, hoffset]; rfl, trivial, trivial⟩
    exact ⟨(a₁.nodes, fresh, true), by cases n <;> simp only [link_leaf, add, halloc],
      hstored.written true⟩
  | here balance entry left right heq => simp [TargetTree.find?, heq] at hfind
  | step side balance entry near far hne hside ih =>
    have hheight := height_join side balance entry near far
    obtain ⟨n, rfl⟩ : ∃ m, n = m + 1 := ⟨n - 1, by omega⟩
    obtain ⟨hhere, hnear, hfar⟩ := stored_join.mp h
    rw [find?_join hne hside] at hfind
    rw [List.nodup_cons, nodup_join] at hdistinct
    simp only [mem_join] at hkept hdistinct
    obtain ⟨result, hadd, hwritten⟩ := ih (n := n) hnear (by omega) hfind (by grind) (by grind)
    have hperm := near.entries_insert offsets offset fresh
    have hmem : ∀ e, e ∈ (near.insert offsets offset fresh).1.entries ↔
        e = fresh ∨ e ∈ near.entries := fun e => by rw [hperm.mem_iff, List.mem_cons]
    have hframed :
        Framed result.1 (result.1.modify entry (·.setKid side (some result.2.1))) [entry] :=
      framed_modify
    have hstored : Stored (result.1.modify entry (·.setKid side (some result.2.1))) offsets
        (.join side balance entry (near.insert offsets offset fresh).1 far) := by
      refine stored_join.mpr ⟨?_, hwritten.stored.framed hframed ?_, ?_⟩
      · rw [Array.getElem?_modify, if_pos rfl, hwritten.framed.2 entry (by grind),
          hkept entry (by simp), hhere, hwritten.link]
        cases side <;> rfl
      · grind
      · exact ((hfar.congr (by grind) fun _ _ => rfl).framed hwritten.framed (by grind)).framed
          hframed (by grind)
    have hnodup : (TargetTree.join side balance entry
        (near.insert offsets offset fresh).1 far).entries.Nodup := by
      rw [nodup_join, hperm.nodup_iff]
      grind
    have hgrown := grow_written hstored hnodup side (near.insert offsets offset fresh).2
    refine ⟨grow (result.1.modify entry (·.setKid side (some result.2.1))) side result.2.2 entry,
      (add_step hne hside h).trans (by rw [hadd, attach]), ?_⟩
    rw [insert_join hside, hwritten.flag]
    refine { hgrown with framed := ((hwritten.framed.mono fun e he => ?_).trans
      (hframed.mono fun e he => ?_)).trans hgrown.framed }
    · rw [TargetTree.entries_grow]
      exact (mem_join balance).mpr (.inr (.inl he))
    · rw [TargetTree.entries_grow]
      exact (mem_join balance).mpr (.inl (List.mem_singleton.mp he))

end New

end Add

/-! ## The arena holds the index -/

/-- The tree of live nodes is the one of the index, and the free nodes are the spare ones. -/
structure Refines (a : TargetArena) (t : TargetIndex) : Prop where
  stored : Stored a.nodes t.offsets t.tree
  root : a.root = t.tree.link
  threaded : Threaded a.nodes t.spare
  free : a.free = t.spare.head?
  len : a.len = t.count
  size : a.nodes.size = t.offsets.size

namespace Refines

variable {t : TargetIndex} (h : a.Refines t) (hvalid : t.Valid)

include h

theorem offset_eq (he : e ∈ t.live) : a.offset e = t.offset e := by
  have hstored : ∀ tree, Stored a.nodes t.offsets tree → e ∈ tree.entries →
      a.offset e = t.offset e := by
    intro tree htree hmem
    induction tree with
    | leaf => cases hmem
    | node balance entry left right ihl ihr =>
      rw [TargetTree.entries_node, List.mem_append, List.mem_cons] at hmem
      rcases hmem with hmem | rfl | hmem
      · exact ihl htree.2.1 hmem
      · rw [offset, node, htree.1]
        rfl
      · exact ihr htree.2.2 hmem
  exact hstored t.tree h.stored he

include hvalid

theorem height_le : t.tree.height ≤ a.nodes.size := by
  have hlength := hvalid.partition.length_eq
  have hle : ∀ tree : TargetTree, tree.height ≤ tree.entries.length := by
    intro tree
    induction tree with
    | leaf => exact Nat.le_refl 0
    | node balance entry left right ihl ihr => simp; omega
  have := hle t.tree
  simp only [List.length_append, List.length_range, TargetIndex.live] at hlength
  rw [h.size]
  omega

/-- The node that is taken has the number that is taken, unless the arena is full. -/
theorem alloc (offset : Nat) :
    (∃ a', a.alloc offset = .ok (t.alloc offset).2 a' ∧ a'.Refines (t.alloc offset).1 ∧
      a'.nodes[(t.alloc offset).2]? = some ⟨offset, 0, none, none⟩ ∧
      ∀ e ∈ t.live, a'.nodes[e]? = a.nodes[e]?) ∨
    a.alloc offset = .error .outOfMemory a ∧ t.spare = [] ∧ capacity ≤ a.nodes.size := by
  have hallot := TargetIndex.alloc_allotted hvalid.toSound offset
  have hfree := h.free
  have hthreaded := h.threaded
  unfold TargetIndex.alloc at hallot ⊢
  cases hspare : t.spare with
  | cons fresh spare =>
    rw [hspare] at hfree hthreaded hallot
    obtain ⟨-, -, hlive, -, hkept, -⟩ := hallot
    have hlt : fresh < a.nodes.size := h.size ▸ hvalid.spare_lt (by simp [hspare])
    have hleft : (node a.nodes fresh).left = spare.head? := by
      obtain ⟨n, hn, hl⟩ := Option.map_eq_some_iff.mp hthreaded.1
      rw [node, hn, Option.getD_some, hl]
    have hother : ∀ e ≠ fresh, (a.nodes.setIfInBounds fresh ⟨offset, 0, none, none⟩)[e]? =
        a.nodes[e]? := fun e hne => Array.getElem?_setIfInBounds_ne hne.symm
    have hdistinct := hvalid.distinct
    rw [hspare] at hdistinct
    refine .inl ⟨{ a with
      nodes := a.nodes.setIfInBounds fresh ⟨offset, 0, none, none⟩, free := spare.head? },
      by simp only [TargetArena.alloc, hfree, List.head?_cons, hleft],
      ⟨h.stored.congr (fun e he => hother e ?_) hkept, h.root,
        hthreaded.2.congr fun e he => hother e ?_, rfl, h.len, by simp [h.size]⟩,
      by simp [hlt], fun e he => hother e ?_⟩
    · rintro rfl
      exact hlive he
    · grind
    · rintro rfl
      exact hlive he
  | nil =>
    rw [hspare] at hfree hallot
    obtain ⟨-, -, -, -, hkept, -⟩ := hallot
    by_cases hroom : a.nodes.size < capacity
    · have hother : ∀ e ∈ t.live, (a.nodes.push ⟨offset, 0, none, none⟩)[e]? = a.nodes[e]? := by
        intro e he
        have hlt : e < a.nodes.size := h.size ▸ hvalid.live_lt he
        rw [Array.getElem?_push_lt hlt, Array.getElem?_eq_getElem hlt]
      refine .inl ⟨{ a with nodes := a.nodes.push ⟨offset, 0, none, none⟩ }, ?_,
        ⟨h.stored.congr hother hkept, h.root, trivial, hfree, h.len, by simp [h.size]⟩,
        by simp [← h.size], hother⟩
      simp only [TargetArena.alloc, hfree, List.head?_nil, if_pos hroom, ← h.size]
    · refine .inr ⟨?_, rfl, by omega⟩
      simp only [TargetArena.alloc, hfree, List.head?_nil, if_neg hroom]

/-- An offset that has a node is answered with it. -/
theorem insert_known (hfind : t.tree.find? t.offsets offset = some e) :
    a.insert offset = .ok e a := by
  obtain ⟨root, hroot, hadd⟩ := add_known h.stored (h.height_le hvalid) hfind
  rw [TargetArena.insert, h.root, hadd]
  simp only [← hroot, ← h.root]

/-- Adding an offset does to the arena what it does to the index, unless the arena is full. -/
theorem insert (offset : Nat) :
    (∃ a', a.insert offset = .ok (t.insert offset).2 a' ∧ a'.Refines (t.insert offset).1) ∨
      a.insert offset = .error .outOfMemory a ∧ t.spare = [] ∧ capacity ≤ a.nodes.size := by
  cases hfind : t.tree.find? t.offsets offset with
  | some e =>
    simp only [TargetIndex.insert, hfind]
    exact .inl ⟨a, h.insert_known hvalid hfind, h⟩
  | none =>
    have hnew : ∀ e ∈ t.live, t.offset e ≠ offset := fun e he heq => by
      rw [← heq, hvalid.find? he] at hfind
      cases hfind
    simp only [TargetIndex.insert, hfind]
    rcases h.alloc hvalid offset with ⟨a₁, halloc, h₁, hfresh, hkept⟩ | ⟨halloc, hfull⟩
    · have hallot := TargetIndex.alloc_allotted hvalid.toSound offset
      generalize t.alloc offset = allotted at *
      obtain ⟨t', fresh⟩ := allotted
      obtain ⟨htree, hcount, hlive, hoff, hoffsets, hpartition⟩ :
        TargetIndex.Allotted t t' offset fresh := hallot
      have hstored : Stored a.nodes t'.offsets t.tree := h.stored.congr (fun _ _ => rfl) hoffsets
      have hnone : t.tree.find? t'.offsets offset = none := by
        cases hfound : t.tree.find? t'.offsets offset with
        | none => rfl
        | some e =>
          obtain ⟨hmem, heq⟩ := TargetTree.find?_mem hfound
          exact absurd heq ((hoffsets e hmem).trans_ne (hnew e hmem))
      obtain ⟨result, hadd, hwritten⟩ := add_new hstored (h.height_le hvalid) hnone halloc hkept
        hfresh hoff (List.nodup_cons.mpr ⟨hlive, hvalid.live_nodup⟩)
      refine .inl ⟨_, by rw [TargetArena.insert, h.root, hadd], ?_⟩
      simp only [htree]
      have hperm := t.tree.entries_insert t'.offsets offset fresh
      have hnodup := hpartition.nodup_iff.mpr List.nodup_range
      refine ⟨hwritten.stored, hwritten.link.symm,
        h₁.threaded.congr fun e he => hwritten.framed.2 e ?_, h₁.free,
        congrArg (· + 1) h₁.len, hwritten.framed.1.trans h₁.size⟩
      rw [List.nodup_cons, List.nodup_append] at hnodup
      rw [hperm.mem_iff, List.mem_cons]
      rintro (rfl | hmem)
      · exact hnodup.1 (List.mem_append_right _ he)
      · exact hnodup.2.2.2 e hmem e he rfl
    · refine .inr ⟨?_, hfull⟩
      rw [TargetArena.insert, h.root, add_refused h.stored (h.height_le hvalid) hfind halloc]

theorem shiftAbove (pivot distance : Nat) :
    ∃ a', a.shiftAbove pivot distance = .ok a' ∧ a'.Refines (t.shiftAbove pivot distance) ∧
      ∀ e ∉ t.live, a'.offset e = a.offset e := by
  obtain ⟨nodes, hshift, hframed, hstored⟩ := shift_stored h.stored hvalid.ordered
    hvalid.live_nodup (h.height_le hvalid)
  refine ⟨{ a with nodes }, ?_, ⟨hstored, h.root, h.threaded.congr fun e he =>
    hframed.2 e (hvalid.spare_not_live he), h.free, h.len, ?_⟩, fun e he => ?_⟩
  · rw [TargetArena.shiftAbove, h.root, hshift]
    rfl
  · rw [hframed.1, h.size, TargetIndex.shiftAbove, Array.size_map]
  · rw [offset, node, hframed.2 e he]
    rfl

theorem clear : ∃ a', a.clear = .ok a' ∧ a'.Refines t.clear := by
  obtain ⟨nodes, hrelease, hframed, hthreaded⟩ := release_threaded h.stored h.threaded
    hvalid.distinct (h.height_le hvalid)
  refine ⟨⟨nodes, none, (t.tree.release t.spare).head?, 0⟩, ?_,
    ⟨trivial, rfl, hthreaded, rfl, rfl, hframed.1.trans h.size⟩⟩
  rw [TargetArena.clear, h.root, h.free, hrelease]
  rfl

end Refines

/-- One way to change an arena. -/
inductive Operation where
  | insert (offset : Nat)
  | shiftAbove (pivot distance : Nat)
  | clear
  deriving DecidableEq, Repr

/-- What is left of an arena when it is changed. -/
def apply (a : TargetArena) : Operation → TargetArena
  | .insert offset =>
    match a.insert offset with
    | .ok _ a | .error _ a => a
  | .shiftAbove pivot distance => (a.shiftAbove pivot distance).toOption.getD a
  | .clear => a.clear.toOption.getD a

/-- What an arena promises about its contents and about its next operation. -/
structure Faithful (a : TargetArena) (t : TargetIndex) : Prop where
  /-- The live nodes form the tree of the index, and its spare numbers are threaded in order. -/
  refines : a.Refines t
  /-- The offsets of the live nodes ascend strictly, and they are counted. -/
  ascending : (t.live.map a.offset).Pairwise (· < ·)
  counted : a.len = t.live.length
  /-- The stored balances are right, and a high tree has many nodes. -/
  balanced : t.tree.Balanced
  low : Nat.fib (t.tree.height + 2) - 1 ≤ a.len
  /-- A node is live or free, and not both. -/
  partition : (t.live ++ t.spare).Perm (List.range a.nodes.size)
  /-- An offset that has a node is answered with it and changes nothing. -/
  insert_known : ∀ e ∈ t.live, a.insert (a.offset e) = .ok e a
  /-- Any other offset gets one node, which was not live, and the others keep their offsets; or it
  is refused, because all numbers are in use, and changes nothing. -/
  insert_new : ∀ offset ∉ t.live.map a.offset,
    (∃ e a' t', a.insert offset = .ok e a' ∧ e ∉ t.live ∧ a'.offset e = offset ∧
      (∀ e' ∈ t.live, a'.offset e' = a.offset e') ∧ a'.Refines t' ∧ t'.live.Perm (e :: t.live)) ∨
    a.insert offset = .error .outOfMemory a ∧ t.spare = [] ∧ capacity ≤ a.nodes.size
  /-- A move adds the distance to exactly the live nodes beyond the pivot. -/
  shiftAbove : ∀ pivot distance, ∃ a', a.shiftAbove pivot distance = .ok a' ∧
    a'.Refines (t.shiftAbove pivot distance) ∧
    ∀ e, a'.offset e =
      if e ∈ t.live ∧ pivot < a.offset e then a.offset e + distance else a.offset e
  /-- Clearing leaves no live node and frees every node. -/
  clear : ∃ a', a.clear = .ok a' ∧ a'.root = none ∧ a'.len = 0 ∧ a'.Refines t.clear ∧
    t.clear.spare.Perm (List.range a.nodes.size)

/-- One operation leads from an arena that holds an index to another one. -/
theorem Refines.apply {t : TargetIndex} (h : a.Refines t) (hvalid : t.Valid)
    (operation : Operation) : ∃ t', (a.apply operation).Refines t' ∧ t'.Valid := by
  cases operation with
  | insert offset =>
    rcases h.insert hvalid offset with ⟨a', hinsert, h'⟩ | ⟨hinsert, -⟩
    · exact ⟨_, by rwa [TargetArena.apply, hinsert], hvalid.insert offset⟩
    · exact ⟨t, by rwa [TargetArena.apply, hinsert], hvalid⟩
  | shiftAbove pivot distance =>
    obtain ⟨a', hshift, h', -⟩ := h.shiftAbove hvalid pivot distance
    exact ⟨_, by rwa [TargetArena.apply, hshift], hvalid.shiftAbove pivot distance⟩
  | clear =>
    obtain ⟨a', hclear, h'⟩ := h.clear hvalid
    exact ⟨_, by rwa [TargetArena.apply, hclear], hvalid.clear⟩

/-- After any history the arena is an ordered, balanced map from offsets to nodes, and each
operation does to it what it says. -/
theorem faithful_of_history (operations : List Operation) :
    ∃ t, (operations.foldl apply empty).Faithful t := by
  have hrun : ∀ (a : TargetArena) (t : TargetIndex), a.Refines t → t.Valid →
      ∃ t', (operations.foldl apply a).Refines t' ∧ t'.Valid := by
    induction operations with
    | nil => exact fun a t h hvalid => ⟨t, h, hvalid⟩
    | cons operation operations ih =>
      intro a t h hvalid
      obtain ⟨t', h', hvalid'⟩ := h.apply hvalid operation
      exact ih _ t' h' hvalid'
  obtain ⟨t, h, hvalid⟩ := hrun empty .empty ⟨trivial, rfl, trivial, rfl, rfl, rfl⟩ .empty
  generalize operations.foldl apply empty = a at h
  have hoffsets : t.live.map a.offset = t.toList := List.map_congr_left fun e he => h.offset_eq he
  have hcount : a.len = t.live.length := h.len.trans hvalid.counted
  refine ⟨t, h, hoffsets ▸ hvalid.ordered, hcount, hvalid.balanced, ?_, h.size ▸ hvalid.partition,
    ?_, ?_, ?_, ?_⟩
  · have hfib := TargetTree.fib_le_entries hvalid.balanced
    rw [hcount, TargetIndex.live]
    omega
  · intro e he
    rw [h.offset_eq he]
    exact h.insert_known hvalid (hvalid.find? he)
  · intro offset hnew
    rw [hoffsets] at hnew
    have hnone : ∀ e ∈ t.live, t.offset e ≠ offset := fun e he heq =>
      hnew (List.mem_map.mpr ⟨e, he, heq⟩)
    obtain ⟨hfresh, -, hperm⟩ := hvalid.insert_fresh hnone
    rcases h.insert hvalid offset with ⟨a', hinsert, h'⟩ | ⟨hrefused, hfull⟩
    · have hentered := TargetIndex.insert_entered hvalid.toSound offset
      refine .inl ⟨_, a', _, hinsert, hfresh, (h'.offset_eq hentered.mem).trans hentered.offset_eq,
        fun e he => ?_, h', hperm⟩
      obtain ⟨hlive, hsame⟩ := hentered.kept e he
      rw [h'.offset_eq hlive, hsame, h.offset_eq he]
    · exact .inr ⟨hrefused, hfull⟩
  · intro pivot distance
    obtain ⟨a', hshift, h', hother⟩ := h.shiftAbove hvalid pivot distance
    refine ⟨a', hshift, h', fun e => ?_⟩
    by_cases he : e ∈ t.live
    · rw [h'.offset_eq he, hvalid.offset_shiftAbove pivot distance he, h.offset_eq he]
      simp only [he, true_and]
    · rw [if_neg fun hand => he hand.1, hother e he]
  · obtain ⟨a', hclear, h'⟩ := h.clear hvalid
    exact ⟨a', hclear, h'.root, h'.len, h', h.size ▸ hvalid.clear.partition⟩

/-- The node freed last is handed out first. -/
example : ([.insert 10, .insert 20, .insert 30, .clear, .insert 7, .insert 8].foldl apply
    empty).nodes.map (·.offset) = #[10, 7, 8] := by decide +kernel

end TargetArena

end ScriptCompiler
