import ScriptCompiler.Proofs.Draft.Statements

/-!
# Drafts that follow one another

A construct goes through a chain of drafts. What it starts with stays untouched
throughout; what it creates may be filled in on the way. Offsets that have been
taken down and jumps that wait for their destination keep their meaning from one
draft of the chain to the next.
-/

namespace ScriptCompiler

open Bytes Emit

variable {hole : Hole} {t : Nat}

/-- A draft follows another one whose holes it leaves alone. -/
abbrev Follows (a b : Draft) : Prop := Grown a.main.length a.serial a b

/-- A draft adds to another one. -/
abbrev Extends (a b : Draft) : Prop := Grown 0 0 a b

section Follow

variable {n s : Nat} {a b d : Draft} {outer : List Opened} {o : Opened}

theorem Grown.extends (h : Grown n s a b) : Extends a b := h.mono (Nat.zero_le _) (Nat.zero_le _)

theorem Grown.follow (h : Follows a b) (h' : Follows b d) : Follows a d :=
  h.trans (h'.mono h.length h.serial)

/-- What a later draft may lead to, an earlier one may. -/
theorem Fills.before {fill : Hole → Nat} {P : Program} (h : Fills fill P n b) (hext : Extends a b) :
    Fills fill P n a := h.mono hext (Nat.le_refl _)

/-! Steps of a chain. -/

theorem Follows.jump (h : Follows a b) (op : Opcode) : Follows a (b.jump op) := by
  refine h.trans (Draft.grown_emit fun hole hmem _ => ?_)
  rw [List.mem_singleton.mp hmem]
  exact Nat.not_lt.mpr h.length

theorem Follows.fill (h : Follows a b) (hopen : b.filled hole = none)
    (hnew : ¬ hole.Old a.main.length a.serial) : Follows a (b.fill hole t) :=
  h.trans (Draft.grown_fill hopen hnew)

theorem Draft.extends_fill (hopen : a.filled hole = none) : Extends a (a.fill hole t) :=
  grown_fill hopen (by cases hole <;> exact Nat.not_lt_zero _)

theorem Draft.extends_jump (op : Opcode) : Extends a (a.jump op) := by
  refine grown_emit fun hole hmem _ => ?_
  rw [List.mem_singleton.mp hmem]
  exact Nat.not_lt_zero _

theorem Draft.follows_open (kind : StatementKind) (scope : Option BlockScope) :
    Follows a (a.open kind scope) := grown_open _ _ kind scope

theorem Draft.grown_withTop : Grown n s a (a.withTop outer o) := { Grown.refl n s a with }

theorem Draft.grown_depth (depth : Int) : Grown n s a { a with depth := a.depth.set depth } :=
  { Grown.refl n s a with high := Nat.le_max_left _ _ }

theorem Draft.grown_close (hsound : a.Sound) (ho : o ∈ a.opens) (hs : s ≤ o.serial) :
    Grown n s a (a.close outer o) := by
  refine { Grown.refl n s a with filled := ?_, kept := ?_ }
  · exact fun hole t ht => hsound.closing_mono ho ht
  · intro hole hold
    refine filled_closing_ne fun chain heq => ?_
    rw [heq] at hold
    exact absurd hold (Nat.not_lt.mpr hs)

end Follow

/-! ## Offsets and jumps in waiting -/

/-- A cell has been reached at an offset. -/
structure Draft.Placed (b : Draft) (k pc : Nat) : Prop where
  reached : k ≤ b.main.length
  offset : pc = position b.main k

/-- A jump waits for its destination. -/
structure Draft.Waits (b : Draft) (op : Opcode) (frame : Frame) (k pc : Nat) : Prop where
  cell : b.main[k]? = some (.jump op (.arm k 0) frame)
  unfilled : b.filled (.arm k 0) = none
  offset : pc = position b.main k

section Waiting

variable {n s k pc : Nat} {a b d : Draft} {op : Opcode} {frame : Frame} {g g' : Generator}

theorem Draft.Placed.grown (h : b.Placed k pc) (hgrown : Grown n s b d) : d.Placed k pc :=
  ⟨Nat.le_trans h.reached hgrown.length, h.offset.trans (hgrown.position_eq h.reached).symm⟩

theorem Built.placed (h : Built g a) (hok : offset g = .ok pc g') :
    a.Placed a.main.length pc ∧ g' = g := by
  obtain ⟨rfl, rfl⟩ := h.offset_ok hok
  exact ⟨⟨Nat.le_refl _, rfl⟩, rfl⟩

namespace Draft.Waits

variable (h : b.Waits op frame k pc)

include h

theorem lt : k < b.main.length := lt_of_getElem? h.cell

theorem grown (hgrown : Grown n s b d) (hk : k < n) : d.Waits op frame k pc :=
  ⟨hgrown.main k _ h.cell, (hgrown.kept (.arm k 0) hk).trans h.unfilled,
    h.offset.trans (hgrown.position_eq (Nat.le_of_lt h.lt)).symm⟩

theorem follows (hfollows : Follows b d) : d.Waits op frame k pc :=
  h.grown hfollows h.lt

/-- Another jump gets its destination. -/
theorem fill (hne : hole ≠ .arm k 0) : (b.fill hole t).Waits op frame k pc :=
  ⟨h.cell, (filled_fill_ne (Ne.symm hne)).trans h.unfilled, h.offset⟩

theorem setDepth (depth : Int) : Draft.Waits { b with depth := b.depth.set depth } op frame k pc :=
  ⟨h.cell, h.unfilled, h.offset⟩

end Draft.Waits

/-- A jump whose destination is set later waits for it. -/
theorem Drafted.begin (h : Drafted g a) (hok : Emit.beginJump op g = .ok pc g')
    (hop : op.format = .jump) (hfinal : op.spec.placeholder = false) :
    Drafted g' (a.jump op) ∧ (a.jump op).Waits op a.frame a.main.length pc := by
  obtain ⟨rfl, h'⟩ := h.beginJump hok hop hfinal
  refine ⟨h', Draft.getElem?_emit_last, h.built.sound.arm_open 0, ?_⟩
  exact (position_append (Nat.le_refl _)).symm

/-- A waiting jump is let lead to the next cell. -/
theorem Drafted.land (h : Drafted g b) (hwaits : b.Waits op frame k pc)
    (hok : Emit.landHere pc g = .ok () g') : Drafted g' (b.fill (.arm k 0) b.main.length) := by
  rw [hwaits.offset] at hok
  exact h.landHere hwaits.cell rfl hwaits.unfilled hok

/-- A jump back to a place. -/
theorem Drafted.back (h : Drafted g b) (hplaced : b.Placed k pc) {pc' : Nat}
    (hok : Emit.jumpTo op pc g = .ok pc' g') (hop : op.format = .jump)
    (hfinal : op.spec.placeholder = false) :
    Drafted g' ((b.jump op).fill (.arm b.main.length 0) k) ∧
      ((b.jump op).fill (.arm b.main.length 0) k).Placed b.main.length pc' := by
  rw [hplaced.offset] at hok
  obtain ⟨rfl, h'⟩ := h.jumpTo hplaced.reached hok hop hfinal
  refine ⟨h', ?_, (position_append (Nat.le_refl _)).symm⟩
  show b.main.length ≤ (b.jump op).main.length
  rw [Draft.jump, Draft.length_emit]
  exact Nat.le_succ _

/-- A jump back fills the hole of its own. -/
theorem Follows.back (h : Follows a b) (hsound : b.Sound) (op : Opcode) (t : Nat) :
    Follows a ((b.jump op).fill (.arm b.main.length 0) t) :=
  (h.jump op).fill (hsound.arm_open 0) (Nat.not_lt.mpr h.length)

end Waiting

end ScriptCompiler
