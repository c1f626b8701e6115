import ScriptCompiler.TargetIndex
import Mathlib.Data.List.Basic

/-!
# Entries of the target index

Balancing moves nodes and keeps the entries in order, so adding an offset adds
one entry and leaves the others alone. Live entry numbers and spare ones are
distinct; a number is handed out only while it is not live, and the offset of a
live entry changes when targets are moved and at no other time.
-/

namespace ScriptCompiler

namespace TargetTree

@[simp] theorem entries_leaf : leaf.entries = [] := rfl

@[simp] theorem entries_node (balance : Int) (entry : Nat) (left right : TargetTree) :
    (node balance entry left right).entries = left.entries ++ entry :: right.entries := rfl

/-- Balancing keeps the entries in order. -/
@[simp] theorem entries_rebalance (balance : Int) (entry : Nat) (left right : TargetTree) :
    (rebalance balance entry left right).1.entries = left.entries ++ entry :: right.entries := by
  have hrotate : ∀ (dir : Side) (near far : TargetTree),
      (rotate dir balance entry near far).1.entries = (join dir balance entry near far).entries := by
    intro dir near far
    unfold rotate
    cases far with
    | leaf => rfl
    | node childBalance child left right =>
      cases dir <;> simp only [Side.order] <;> split
      · cases left <;> simp [join, Side.order]
      · simp [join, Side.order]
      · cases right <;> simp [join, Side.order]
      · simp [join, Side.order]
  unfold rebalance
  split
  · rw [hrotate]
    rfl
  · split
    · rw [hrotate]
      rfl
    · rfl

@[simp] theorem entries_grow (side : Side) (grew : Bool) (balance : Int) (entry : Nat)
    (left right : TargetTree) :
    (grow side grew balance entry left right).1.entries = left.entries ++ entry :: right.entries := by
  cases grew with
  | false => rfl
  | true =>
    simp only [grow, if_true]
    split <;> simp

/-- Adding an entry adds it and keeps the others. -/
theorem entries_insert (offsets : Array Nat) (offset fresh : Nat) (t : TargetTree) :
    (t.insert offsets offset fresh).1.entries.Perm (fresh :: t.entries) := by
  induction t with
  | leaf => exact .refl _
  | node balance entry left right ihl ihr =>
    simp only [insert]
    split
    · rw [entries_grow]
      exact ihl.append_right _
    · rw [entries_grow]
      exact ((ihr.cons entry).trans (.swap ..)).append_left left.entries |>.trans List.perm_middle

/-- Freeing the entries of a tree adds them to the spare ones. -/
theorem release_perm (t : TargetTree) (spare : List Nat) :
    (t.release spare).Perm (t.entries ++ spare) := by
  induction t generalizing spare with
  | leaf => exact .refl _
  | node balance entry left right ihl ihr =>
    rw [release, entries_node, List.append_assoc, List.cons_append]
    refine ((ihr _).trans ((ihl spare).append_left _)).cons entry |>.trans ?_
    refine (List.Perm.cons _ ?_).trans List.perm_middle.symm
    rw [← List.append_assoc, ← List.append_assoc]
    exact List.perm_append_comm.append_right spare

/-- A found entry is one of the tree and stands for the offset. -/
theorem find?_mem {offsets : Array Nat} {offset entry : Nat} {t : TargetTree}
    (h : t.find? offsets offset = some entry) :
    entry ∈ t.entries ∧ offsets[entry]?.getD 0 = offset := by
  induction t with
  | leaf => cases h
  | node balance here left right ihl ihr =>
    simp only [find?] at h
    split at h
    · rename_i heq
      cases h
      exact ⟨by simp, heq.symm⟩
    · split at h
      · obtain ⟨hmem, hoff⟩ := ihl h
        exact ⟨by simp [hmem], hoff⟩
      · obtain ⟨hmem, hoff⟩ := ihr h
        exact ⟨by simp [hmem], hoff⟩

end TargetTree

namespace TargetIndex

/-- Live entry numbers. -/
def live (t : TargetIndex) : List Nat := t.tree.entries

/-- Every number handed out so far is live or spare, and not both. -/
structure Sound (t : TargetIndex) : Prop where
  partition : (t.live ++ t.spare).Perm (List.range t.offsets.size)

theorem sound_empty : empty.Sound := ⟨.refl _⟩

/-- Clearing makes the live numbers spare. -/
theorem Sound.clear {t : TargetIndex} (h : t.Sound) : t.clear.Sound :=
  ⟨(t.tree.release_perm t.spare).trans h.partition⟩

section Sound

variable {t : TargetIndex} {e : Nat} (h : t.Sound)

include h

theorem Sound.distinct : (t.live ++ t.spare).Nodup := h.partition.nodup_iff.mpr List.nodup_range

theorem Sound.live_lt (he : e ∈ t.live) : e < t.offsets.size :=
  List.mem_range.mp (h.partition.mem_iff.mp (List.mem_append_left _ he))

theorem Sound.spare_lt (he : e ∈ t.spare) : e < t.offsets.size :=
  List.mem_range.mp (h.partition.mem_iff.mp (List.mem_append_right _ he))

theorem Sound.spare_not_live (he : e ∈ t.spare) : e ∉ t.live := fun hlive =>
  (List.nodup_append.mp h.distinct).2.2 e hlive e he rfl

end Sound

/-- A number for an offset that was not live, with every live entry as it was. -/
structure Allotted (t t' : TargetIndex) (offset fresh : Nat) : Prop where
  tree_eq : t'.tree = t.tree
  count_eq : t'.count = t.count
  not_live : fresh ∉ t.live
  offset_eq : t'.offset fresh = offset
  kept : ∀ e ∈ t.live, t'.offset e = t.offset e
  partition : (fresh :: (t.live ++ t'.spare)).Perm (List.range t'.offsets.size)

theorem alloc_allotted {t : TargetIndex} (h : t.Sound) (offset : Nat) :
    Allotted t (t.alloc offset).1 offset (t.alloc offset).2 := by
  unfold alloc
  cases hspare : t.spare with
  | cons fresh spare =>
    have hknown : fresh < t.offsets.size := h.spare_lt (by simp [hspare])
    have hfresh : fresh ∉ t.live := h.spare_not_live (by simp [hspare])
    refine ⟨rfl, rfl, hfresh, by simp [TargetIndex.offset, hknown], fun e he => ?_, ?_⟩
    · have hne : fresh ≠ e := by
        rintro rfl
        exact hfresh he
      simp only [TargetIndex.offset]
      rw [Array.getElem?_setIfInBounds_ne hne]
    · have hpartition := h.partition
      rw [hspare] at hpartition
      rw [Array.size_setIfInBounds]
      exact List.perm_middle.symm.trans hpartition
  | nil =>
    refine ⟨rfl, rfl, fun hmem => Nat.lt_irrefl _ (h.live_lt hmem), by simp [TargetIndex.offset],
      fun e he => ?_, ?_⟩
    · simp only [TargetIndex.offset]
      rw [Array.getElem?_push_lt (h.live_lt he), Array.getElem?_eq_getElem (h.live_lt he)]
    · have hpartition := h.partition
      rw [hspare] at hpartition
      simp only [Array.size_push, List.range_succ]
      exact (hpartition.cons _).trans (List.perm_append_singleton _ _).symm

/-- An entry for an offset, and every live entry as it was. -/
structure Entered (t t' : TargetIndex) (offset entry : Nat) : Prop where
  sound : t'.Sound
  mem : entry ∈ t'.live
  offset_eq : t'.offset entry = offset
  kept : ∀ e ∈ t.live, e ∈ t'.live ∧ t'.offset e = t.offset e

theorem insert_entered {t : TargetIndex} (h : t.Sound) (offset : Nat) :
    Entered t (t.insert offset).1 offset (t.insert offset).2 := by
  cases hfind : t.tree.find? t.offsets offset with
  | some entry =>
    obtain ⟨hmem, hoff⟩ := TargetTree.find?_mem hfind
    simp only [insert, hfind]
    exact ⟨h, hmem, hoff, fun e he => ⟨he, rfl⟩⟩
  | none =>
    have hallot := alloc_allotted h offset
    simp only [insert, hfind]
    generalize t.alloc offset = allotted at hallot
    obtain ⟨t', fresh⟩ := allotted
    have hperm := t'.tree.entries_insert t'.offsets offset fresh
    rw [hallot.tree_eq] at hperm ⊢
    exact ⟨⟨(hperm.append_right _).trans hallot.partition⟩, hperm.mem_iff.mpr (by simp), hallot.offset_eq,
      fun e he => ⟨hperm.mem_iff.mpr (List.mem_cons_of_mem _ he), hallot.kept e he⟩⟩

end TargetIndex

end ScriptCompiler
