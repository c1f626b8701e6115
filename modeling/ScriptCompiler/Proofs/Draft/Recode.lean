import ScriptCompiler.Proofs.Draft.Logic

/-!
# Another opcode for a cell

An instruction without offsets may get another opcode of the same length. All
that depends on where cells are and on how they are linked stays.
-/

namespace ScriptCompiler

open Bytes Emit Cell

/-! ## Links depend on destinations alone -/

section Links

variable {cells cells' : List (Cell Hole)}

section

variable (h : cells'.map dests = cells.map dests) (hole : Hole)

include h hole

theorem links_congr (k : Nat) : Links cells' hole k ↔ Links cells hole k := by
  rw [Links, Links, ← List.getElem?_map, ← List.getElem?_map, h]

theorem linkBefore_congr (n : Nat) : linkBefore cells' hole n = linkBefore cells hole n := by
  induction n with
  | zero => rfl
  | succ n ih => simp only [linkBefore, links_congr h, ih]

theorem linkFrom_congr (k n : Nat) : linkFrom cells' hole k n = linkFrom cells hole k n := by
  induction n with
  | zero => rfl
  | succ n ih => simp only [linkFrom, links_congr h, ih]

end

/-- Offsets depend on where cells are and on how they are linked. -/
theorem Hole.offset_congr (hforms : cells'.map form = cells.map form)
    (hdests : cells'.map dests = cells.map dests) (filled : Hole → Option Nat) (k : Nat)
    (hole : Hole) : hole.offset filled cells' k = hole.offset filled cells k := by
  have hlength : cells'.length = cells.length := by
    simpa using congrArg List.length hforms
  simp only [offset, link, position_congr hforms, linkBefore_congr hdests, linkFrom_congr hdests,
    hlength]

end Links

variable {g g' : Generator} {a : Draft} {k : Nat} {op op' : Opcode} {bytes : List UInt8}
  {frame : Frame}

/-- The draft with another cell at an index. -/
def Draft.recode (a : Draft) (k : Nat) (c : Cell Hole) : Draft := { a with main := a.main.set k c }

section Recode

variable (hk : a.main[k]? = some (.plain op bytes frame))

include hk

theorem Draft.forms_recode (op' : Opcode) :
    (a.recode k (.plain op' bytes frame)).main.map form = a.main.map form :=
  map_form_set hk rfl

theorem Draft.dests_recode (op' : Opcode) :
    (a.recode k (.plain op' bytes frame)).main.map dests = a.main.map dests := by
  obtain ⟨hlt, hget⟩ := List.getElem?_eq_some_iff.mp hk
  refine List.ext_getElem? fun j => ?_
  rw [List.getElem?_map, List.getElem?_map, recode, List.getElem?_set]
  split
  · rename_i heq
    subst heq
    rw [hk]
    rfl
  · rfl

omit hk in
/-- Cells other than the new one are as before. -/
theorem Draft.getElem?_recode {j : Nat} {c d : Cell Hole} (hj : (a.recode k d).main[j]? = some c) :
    (j = k ∧ c = d) ∨ (j ≠ k ∧ a.main[j]? = some c) := by
  rw [recode, List.getElem?_set] at hj
  split at hj
  · rename_i heq
    split at hj
    · exact .inl ⟨heq.symm, (Option.some.inj hj).symm⟩
    · cases hj
  · rename_i hne
    exact .inr ⟨Ne.symm hne, hj⟩

theorem Draft.Sound.recode (h : a.Sound) (hop : op'.Simple bytes.length) :
    (a.recode k (.plain op' bytes frame)).Sound := by
  have hlength : (a.recode k (.plain op' bytes frame)).main.length = a.main.length :=
    List.length_set
  -- a cell with destinations is none that has been changed
  have hold : ∀ {j : Nat} {c : Cell Hole} {hole : Hole},
      (a.recode k (.plain op' bytes frame)).main[j]? = some c → hole ∈ c.dests →
      a.main[j]? = some c := by
    intro j c hole hj hmem
    rcases getElem?_recode hj with ⟨-, rfl⟩ | ⟨-, hj⟩
    · cases hmem
    · exact hj
  refine { h with cells := ?_, used := ?_, fresh := ?_, targets := ?_, updates := ?_, pending := ?_,
                  settled := ?_, regions := ?_ }
  · intro j c hj
    rcases getElem?_recode hj with ⟨rfl, rfl⟩ | ⟨-, hj⟩
    · exact
        { shaped := .of_plain hop.1 hop.2.1 frame
          final := Opcode.placeholder_of_plain hop.1
          holes := trivial
          literal := fun heq => absurd heq hop.2.2.2.1
          function := fun heq => absurd heq hop.2.2.2.2 }
    · exact h.cells j c hj
  · intro j c hj hole hmem
    rw [hlength]
    exact h.used j c (hold hj hmem) hole hmem
  · intro hole hfresh
    rw [hlength] at hfresh
    exact h.fresh hole hfresh
  · intro hole t ht hne
    rw [hlength]
    exact h.targets hole t ht hne
  · intro o ho
    rw [hlength]
    exact h.updates o ho
  · exact fun j c hj serial chain hmem => h.pending j c (hold hj hmem) serial chain hmem
  · exact fun j c hj hlt hole hmem => h.settled j c (hold hj hmem) hlt hole hmem
  · intro r hr
    rw [hlength]
    exact h.regions r hr

/-- What stands in the code changes at one place. -/
theorem Draft.cells_recode : (a.recode k (.plain op' bytes frame)).cells =
    a.cells.set k (.plain op' bytes frame) := by
  have hforms := Draft.forms_recode hk op'
  have hdests := Draft.dests_recode hk op'
  obtain ⟨hlt, -⟩ := List.getElem?_eq_some_iff.mp hk
  refine List.ext_getElem? fun j => ?_
  rw [List.getElem?_set]
  split
  · rename_i heq
    subst heq
    have hset : (a.recode k (.plain op' bytes frame)).main[k]? = some (.plain op' bytes frame) := by
      rw [recode, List.getElem?_set, if_pos rfl, if_pos hlt]
    rw [cells, getElem?_shown hset, cells, length_shown, if_pos hlt]
    rfl
  · rename_i hne
    have hsame : (a.recode k (.plain op' bytes frame)).main[j]? = a.main[j]? := by
      rw [recode, List.getElem?_set, if_neg hne]
    cases hj : a.main[j]? with
    | none =>
      rw [hj] at hsame
      simp [cells, shown, hsame, hj]
    | some d =>
      rw [hj] at hsame
      have hoffset : Hole.offset a.filled (a.recode k (.plain op' bytes frame)).main j =
          Hole.offset a.filled a.main j := funext (Hole.offset_congr hforms hdests a.filled j)
      rw [cells, getElem?_shown hsame, cells, getElem?_shown hj, Cell.shown, Cell.shown, ← hoffset]
      rfl

/-- An instruction without offsets gets another opcode. -/
theorem Drafted.recode (h : Drafted g a) (hs : a.settled ≤ k) (hop : op'.Simple bytes.length)
    (hok : Emit.setOp (position a.main k) op' g = .ok () g') :
    Drafted g' (a.recode k (.plain op' bytes frame)) := by
  have hforms := Draft.forms_recode hk op'
  have hposition : ∀ j, position (a.recode k (.plain op' bytes frame)).main j = position a.main j :=
    position_congr hforms
  have hlength : (a.recode k (.plain op' bytes frame)).main.length = a.main.length :=
    List.length_set
  rw [← Draft.position_cells] at hok
  obtain ⟨code, spans, heq, hcodes⟩ := setOpcode_coded (.plain op bytes frame) h.built.code
    (Draft.getElem?_cells hk) hs (.of_plain hop.1 hop.2.1 frame)
  obtain rfl := (setOp_main h.built.main hok).trans heq
  obtain ⟨hbuilt, hstacked⟩ := h
  refine ⟨{ hbuilt with sound := hbuilt.sound.recode hk hop, code := ?_, regions := ?_ }, ?_⟩
  · rw [Draft.cells_recode hk]
    exact hcodes
  · intro i r e hr he
    have hcovers := hbuilt.regions i r e hr he
    exact ⟨hcovers.kind, hcovers.depth, by rw [hposition]; exact hcovers.start,
      by rw [hposition]; exact hcovers.stop⟩
  · refine { hstacked with entries := fun i e o he ho => ?_ }
    have hstated := hstacked.entries i e o he ho
    refine { hstated with update := fun hloop => ?_, link := fun chain => ?_ }
    · rw [hposition]
      exact hstated.update hloop
    · rw [hstated.link, Draft.head, Draft.head, hlength,
        linkBefore_congr (Draft.dests_recode hk op'), funext hposition]
      rfl

end Recode

end ScriptCompiler
