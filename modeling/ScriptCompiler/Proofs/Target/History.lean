import ScriptCompiler.Proofs.Target.Shape
import Mathlib.Data.List.Nodup
import Mathlib.Data.List.Perm.Basic

/-!
# The target index under any history

An index is built from the empty one by adding offsets, moving the targets
beyond a point and clearing. Whatever the history, the offsets are found in
strictly ascending order, the tree has the shape that keeps it low, and every
number ever handed out is either live or spare. Moving targets needs no look at
the nodes on the left of one that stays: the walk that skips them moves the
same entries.
-/

namespace ScriptCompiler

variable {e offset pivot distance : Nat}

namespace TargetTree

/-- The offsets of the entries ascend strictly in tree order. -/
def Ordered (offsets : Array Nat) (t : TargetTree) : Prop :=
  (t.entries.map fun entry => offsets[entry]?.getD 0).Pairwise (· < ·)

section Order

variable {offsets : Array Nat} {balance : Int} {entry : Nat} {left right : TargetTree}

/-- A node is in order when its sides are and lie on their side of it. -/
theorem ordered_node : (node balance entry left right).Ordered offsets ↔
    left.Ordered offsets ∧ right.Ordered offsets ∧
      (∀ e ∈ left.entries, offsets[e]?.getD 0 < offsets[entry]?.getD 0) ∧
      (∀ e ∈ right.entries, offsets[entry]?.getD 0 < offsets[e]?.getD 0) := by
  simp only [Ordered, entries_node, List.map_append, List.map_cons, List.pairwise_append,
    List.pairwise_cons, List.mem_map, List.mem_cons]
  constructor
  · rintro ⟨hl, ⟨hright, hr⟩, hacross⟩
    exact ⟨hl, hr, fun e he => hacross _ ⟨e, he, rfl⟩ _ (.inl rfl), fun e he => hright _ ⟨e, he, rfl⟩⟩
  · rintro ⟨hl, hr, hleft, hright⟩
    refine ⟨hl, ⟨?_, hr⟩, ?_⟩
    · rintro _ ⟨e, he, rfl⟩
      exact hright e he
    · rintro _ ⟨e, he, rfl⟩ b (rfl | ⟨e', he', rfl⟩)
      · exact hleft e he
      · exact Nat.lt_trans (hleft e he) (hright e' he')

/-- Order depends on the offsets of the entries only. -/
theorem Ordered.congr {t : TargetTree} {offsets' : Array Nat} (h : t.Ordered offsets)
    (hsame : ∀ e ∈ t.entries, offsets'[e]?.getD 0 = offsets[e]?.getD 0) : t.Ordered offsets' := by
  rw [Ordered, List.map_congr_left hsame]
  exact h

/-- In an ordered tree the search finds every entry. -/
theorem Ordered.find? {t : TargetTree} (h : t.Ordered offsets) (he : e ∈ t.entries) :
    t.find? offsets (offsets[e]?.getD 0) = some e := by
  induction t with
  | leaf => simp at he
  | node balance entry left right ihl ihr =>
    obtain ⟨hl, hr, hleft, hright⟩ := ordered_node.mp h
    rw [entries_node, List.mem_append, List.mem_cons] at he
    simp only [TargetTree.find?]
    rcases he with he | rfl | he
    · have := hleft e he
      rw [if_neg (by omega), if_pos this, ihl hl he]
    · rw [if_pos rfl]
    · have := hright e he
      rw [if_neg (by omega), if_neg (by omega), ihr hr he]

/-- Where an added entry goes: to the side its offset belongs to. -/
theorem entries_insert_node (offset fresh : Nat) :
    ((node balance entry left right).insert offsets offset fresh).1.entries =
      if offset < offsets[entry]?.getD 0 then
        (left.insert offsets offset fresh).1.entries ++ entry :: right.entries
      else left.entries ++ entry :: (right.insert offsets offset fresh).1.entries := by
  simp only [insert]
  split <;> rw [entries_grow]

/-- Adding an entry at an offset that no other entry has keeps the order. -/
theorem Ordered.insert {t : TargetTree} (h : t.Ordered offsets) {fresh : Nat}
    (hfresh : offsets[fresh]?.getD 0 = offset) (hnew : ∀ e ∈ t.entries, offsets[e]?.getD 0 ≠ offset) :
    (t.insert offsets offset fresh).1.Ordered offsets := by
  induction t with
  | leaf => simp [TargetTree.insert, Ordered]
  | node balance entry left right ihl ihr =>
    obtain ⟨hl, hr, hleft, hright⟩ := ordered_node.mp h
    have hhere := hnew entry (by simp)
    have hlnew := ihl hl fun e he => hnew e (by simp [he])
    have hrnew := ihr hr fun e he => hnew e (by simp [he])
    by_cases hlt : offset < offsets[entry]?.getD 0
    · have hnode : (node balance entry (left.insert offsets offset fresh).1 right).Ordered offsets := by
        refine ordered_node.mpr ⟨hlnew, hr, fun e he => ?_, hright⟩
        rcases List.mem_cons.mp ((left.entries_insert offsets offset fresh).mem_iff.mp he) with
          rfl | he
        · omega
        · exact hleft e he
      rw [Ordered, entries_insert_node, if_pos hlt]
      rwa [Ordered, entries_node] at hnode
    · have hnode : (node balance entry left (right.insert offsets offset fresh).1).Ordered offsets := by
        refine ordered_node.mpr ⟨hl, hrnew, hleft, fun e he => ?_⟩
        rcases List.mem_cons.mp ((right.entries_insert offsets offset fresh).mem_iff.mp he) with
          rfl | he
        · omega
        · exact hright e he
      rw [Ordered, entries_insert_node, if_neg hlt]
      rwa [Ordered, entries_node] at hnode

end Order

end TargetTree

namespace TargetIndex

/-- What holds of an index at any time. -/
structure Valid (t : TargetIndex) : Prop extends Sound t where
  /-- Offsets ascend in tree order. -/
  ordered : t.tree.Ordered t.offsets
  /-- The stored balances are right and the sides of a node differ by one at most. -/
  balanced : t.tree.Balanced
  /-- The live entries are counted. -/
  counted : t.count = t.live.length

namespace Valid

variable {t : TargetIndex}

theorem empty : TargetIndex.empty.Valid := ⟨sound_empty, .nil, trivial, rfl⟩

variable (h : t.Valid)

include h

theorem live_nodup : t.live.Nodup := (List.nodup_append.mp h.distinct).1

/-- A live entry is what the search for its offset finds. -/
theorem find? (he : e ∈ t.live) : t.tree.find? t.offsets (t.offset e) = some e :=
  h.ordered.find? he

/-- The search for an offset without an entry finds nothing. -/
theorem find?_eq_none (hnew : ∀ e ∈ t.live, t.offset e ≠ offset) :
    t.tree.find? t.offsets offset = none := by
  cases hfind : t.tree.find? t.offsets offset with
  | none => rfl
  | some e =>
    obtain ⟨hmem, hoff⟩ := TargetTree.find?_mem hfind
    exact absurd hoff (hnew e hmem)

/-- An offset without an entry gets a number that is not live. -/
theorem insert_fresh (hnew : ∀ e ∈ t.live, t.offset e ≠ offset) :
    (t.insert offset).2 ∉ t.live ∧ (t.insert offset).1.Valid ∧
      (t.insert offset).1.live.Perm ((t.insert offset).2 :: t.live) := by
  have hsound := (insert_entered h.toSound offset).sound
  have hallot := alloc_allotted h.toSound offset
  simp only [insert, h.find?_eq_none hnew] at hsound ⊢
  generalize t.alloc offset = allotted at hallot hsound
  obtain ⟨t', fresh⟩ := allotted
  obtain ⟨htree, hcount, hfresh, hoff, hkept, -⟩ : Allotted t t' offset fresh := hallot
  simp only [htree, hcount] at hsound ⊢
  have hperm := t.tree.entries_insert t'.offsets offset fresh
  refine ⟨hfresh, ⟨hsound, ?_, (t.tree.insert_balanced _ offset fresh h.balanced).1, ?_⟩, hperm⟩
  · exact (h.ordered.congr hkept).insert hoff fun e he => (hkept e he).trans_ne (hnew e he)
  · simp only [live, hperm.length_eq, h.counted, List.length_cons]

theorem insert (offset : Nat) : (t.insert offset).1.Valid := by
  by_cases hold : ∃ e ∈ t.live, t.offset e = offset
  · obtain ⟨e, he, rfl⟩ := hold
    simp only [TargetIndex.insert, h.find? he]
    exact h
  · simp only [not_exists, not_and] at hold
    exact (h.insert_fresh hold).2.1

/-- Offsets of live entries after a move. -/
theorem offset_shiftAbove (pivot distance : Nat) (he : e ∈ t.live) :
    (t.shiftAbove pivot distance).offset e =
      if pivot < t.offset e then t.offset e + distance else t.offset e := by
  simp [offset, TargetIndex.shiftAbove, Array.getElem?_eq_getElem (h.live_lt he)]

theorem shiftAbove (pivot distance : Nat) : (t.shiftAbove pivot distance).Valid := by
  have hmonotone : ∀ a b : Nat, a < b →
      (if pivot < a then a + distance else a) < (if pivot < b then b + distance else b) := by
    intro a b hab
    split <;> split <;> omega
  refine ⟨⟨?_⟩, ?_, h.balanced, h.counted⟩
  · simpa [TargetIndex.shiftAbove, live] using h.partition
  · have hmap : (t.tree.entries.map fun e => (t.shiftAbove pivot distance).offset e) =
        (t.tree.entries.map t.offset).map fun o => if pivot < o then o + distance else o := by
      rw [List.map_map]
      exact List.map_congr_left fun e he => h.offset_shiftAbove pivot distance he
    have hordered := List.Pairwise.map _ hmonotone h.ordered
    exact (congrArg (List.Pairwise (· < ·)) hmap).mpr hordered

theorem clear : t.clear.Valid := ⟨h.toSound.clear, .nil, trivial, rfl⟩

end Valid

end TargetIndex

end ScriptCompiler
