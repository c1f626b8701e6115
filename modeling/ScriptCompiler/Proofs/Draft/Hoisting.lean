import ScriptCompiler.Proofs.Draft.Progress

/-!
# Declarations and regions

Declarations are hoisted to the front of a unit and regions stand in a table of
their own, so neither leaves a trace where it comes about.
-/

namespace ScriptCompiler

open Bytes Emit

section Hoisting

variable {r : Setting} {g g' : Generator} {a : Draft}

theorem inProlog_ok {step : Emit Unit} (hok : Walk.inProlog step g = .ok () g') :
    ∃ g₁, step { g with current := .prolog } = .ok () g₁ ∧ g' = { g₁ with current := .main } := by
  rw [Walk.inProlog] at hok
  split at hok
  · rename_i u g₁ hstep
    cases hok
    exact ⟨g₁, hstep, rfl⟩
  · cases hok

/-- The draft with one more hoisted declaration. -/
def Draft.hoisted (a : Draft) (c : Cell Nat) : Draft :=
  { a with
    prolog := a.prolog ++ [c]
    depth := a.depth.apply 0 0 0
    quiet := a.quiet ∧ 0 ≤ a.depth.depth }

theorem Draft.grown_hoisted (n s : Nat) (c : Cell Nat) : Grown n s a (a.hoisted c) :=
  { Grown.refl n s a with
    prolog := List.subset_append_left _ _
    high := StackDepth.high_le_apply _ _ _ _ }

theorem Draft.mark_hoisted (c : Cell Nat) : (a.hoisted c).mark = a.mark.hoisted := by
  rw [mark, frame, hoisted, StackDepth.apply_depth]
  rfl

/-- A variable is declared. -/
theorem Drafted.declare (h : Drafted g a) {name : String}
    (hok : Walk.declare name g = .ok () g') : Reaches r [.declare name] a g' := by
  obtain ⟨g₁, hstep, rfl⟩ := inProlog_ok hok
  simp only [Walk.literalOp, Emit.opLiteral, bind_ok, pure_ok] at hstep
  obtain ⟨_, _, ⟨i, g₂, hindex, hop⟩, -, rfl⟩ := hstep
  obtain ⟨table, rfl, hindexes⟩ := literalIndex_ok hindex
  obtain ⟨literals, hincl, hget, hdrafted⟩ := h.literal hindexes
  have hi := lt_of_getElem? hget
  let b : Draft := Draft.hoisted { a with literals } (.plain .defVar (le16 i.toNat).toList ⟨0⟩)
  have h' : Drafted _ b :=
    hdrafted.hoist (by decide) ⟨i.toNat, i.toNat_lt, .inl ⟨hi, rfl⟩⟩ hop
  have hmark : b.mark = a.mark.hoisted := Draft.mark_hoisted _
  refine ⟨b, h', (Draft.grown_literals _ _ hincl).trans (Draft.grown_hoisted _ _ _), rfl,
    fun hn hfills hin hplaced => ?_⟩
  have hmem := hfills.prolog (List.mem_append_right _ (List.mem_singleton.mpr rfl))
  refine .declare (hfills.literal hget) hmem ?_
  rw [hmark]
  exact .nil _

/-- Notes of hoisted declarations do not show in a draft. -/
theorem Drafted.noted_prolog (h : Drafted g a) (hnoted : Noted { g with current := .prolog } g') :
    Drafted { g' with current := .main } a ∧ g'.current = .prolog := by
  obtain ⟨notes, offset, line, rfl⟩ := hnoted
  obtain ⟨hbuilt, hstacked⟩ := h
  exact ⟨⟨{ hbuilt with main := rfl }, hstacked⟩, rfl⟩

/-! ## Regions -/

/-- The draft with one more region. -/
def Draft.protect (a : Draft) (e : Extent) : Draft := { a with regions := a.regions ++ [e] }

theorem Draft.grown_protect (n s : Nat) (e : Extent) : Grown n s a (a.protect e) :=
  { Grown.refl n s a with regions := List.prefix_append _ _ }

/-- A region whose ends have been reached. -/
theorem Drafted.protect (h : Drafted g a) {kind : RegionKind} {depth : Int} {i j start stop : Nat}
    (hi : a.Placed i start) (hj : a.Placed j stop)
    (hok : Emit.regionAtDepth kind depth start stop g = .ok () g') :
    ∃ n : Nat, depth = n ∧ Drafted g' (a.protect ⟨kind, n, i, j⟩) := by
  rw [hi.offset, hj.offset] at hok
  exact h.regionAtDepth hi.reached hj.reached hok

theorem Draft.mark_protect (e : Extent) : (a.protect e).mark = a.mark.guarded := by
  simp [Draft.mark, Draft.protect, Mark.guarded, Draft.frame]

theorem Fills.extent {fill : Hole → Nat} {P : Program} {n : Nat} {e : Extent}
    (h : Fills fill P n (a.protect e)) : P.regions[a.mark.closed]? = some e := by
  obtain ⟨more, hmore⟩ := h.regions
  rw [← hmore, Draft.protect, List.append_assoc]
  simp [Draft.mark]

end Hoisting

end ScriptCompiler
