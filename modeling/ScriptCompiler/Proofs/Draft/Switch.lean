import ScriptCompiler.Proofs.Draft.Progress
import ScriptCompiler.Compile.Switch

/-!
# Switch instructions

A switch is emitted before its bodies, with a hole for each of its arms and, in a
lookup switch, for each of its literals. They are filled one by one once all bodies
are in place.
-/

namespace ScriptCompiler

open Bytes Emit Draft

variable {g g' g₁ g₂ : Generator} {a : Draft} {pc n k : Nat} {c : Cell Hole} {op : Opcode}

/-! ## Emission -/

/-- What stands in the code for a switch whose holes are all open. -/
theorem Cell.shown_armed {filled : Hole → Option Nat} {cells : List (Cell Hole)}
    (hdests : c.dests = (List.range n).map (.arm k)) (hopen : ∀ i, filled (.arm k i) = none) :
    c.shown filled cells k =
      ⟨c.op, c.wide, c.operands.standing filled k, .replicate n 0, c.frame⟩ := by
  have hop : c.standing filled = c.op := by
    simp only [standing]
    split
    · rename_i hole hone
      obtain ⟨i, -, rfl⟩ : ∃ i ∈ List.range n, .arm k i = hole := by
        rw [← List.mem_map, ← hdests, hone]
        exact List.mem_singleton_self hole
      simp [hopen, Hole.placeholder?]
    · rfl
  have hoffsets : c.dests.map (Hole.offset filled cells k) = .replicate n 0 := by
    rw [hdests, List.map_map]
    refine List.eq_replicate_iff.mpr ⟨by simp, fun z hz => ?_⟩
    obtain ⟨i, -, rfl⟩ := List.mem_map.mp hz
    simp only [Function.comp_apply, Hole.offset, hopen]
    rfl
  rw [shown, hop, hoffsets]

/-- A switch is emitted with a hole for each arm. -/
theorem Drafted.emitArmed (h : Drafted g a)
    (hok : CellOk a.literals.length a.functions.length a.main.length c)
    (hdests : c.dests = (List.range c.operands.arms).map (.arm a.main.length))
    (hemitted : Emitted g g' ⟨c.op, c.wide, c.operands.standing a.filled a.main.length,
      .replicate c.operands.arms 0, c.frame⟩ a.settled a.cells) : Drafted g' (a.emit c) := by
  have harm : ∀ hole ∈ c.dests, ∃ i, hole = .arm a.main.length i := by
    intro hole hmem
    rw [hdests] at hmem
    obtain ⟨i, -, rfl⟩ := List.mem_map.mp hmem
    exact ⟨i, rfl⟩
  refine h.emit ⟨hok, fun hole hmem => ?_, fun serial chain hmem => ?_⟩ (fun hole hone => ?_) ?_
  · obtain ⟨i, rfl⟩ := harm hole hmem
    exact Nat.lt_succ_self _
  · obtain ⟨i, heq⟩ := harm _ hmem
    cases heq
  · obtain ⟨i, rfl⟩ := harm hole (by rw [hone]; exact List.mem_singleton_self hole)
    rfl
  · rw [Cell.shown_armed hdests h.built.sound.arm_open]
    exact hemitted

/-- The cell of a table switch. -/
def Draft.tableCell (a : Draft) (low high : Int) : Cell Hole :=
  .table low high ((List.range (keyCount low high + 1)).map (.arm a.main.length)) a.frame

/-- The cell of a lookup switch with `n` pairs. -/
def Draft.lookupCell (a : Draft) (n : Nat) : Cell Hole :=
  .lookup (.replicate n 0) ((List.range (n + 1)).map (.arm a.main.length)) a.frame

/-- A reserved instruction starts behind all others. -/
theorem Built.opZeroed_offset (h : Built g a) {extra : Nat} (hok : opZeroed op extra g = .ok pc g')
    (huses : op.spec.uses.isSome) (hdefs : op.spec.defs.isSome) :
    pc = position a.main a.main.length :=
  (opZeroed_ok hok h.main (c := .plain op [] a.frame) rfl huses hdefs).1.trans h.size

theorem Drafted.tableSwitch (h : Drafted g a) {low high : Int} {g₃ : Generator}
    (hop : opZeroed .tableSwitch (2 * (3 + keyCount low high)) g = .ok pc g₁)
    (hlow : setI16 (pc + 3) low g₁ = .ok () g₂) (hhigh : setI16 (pc + 5) high g₂ = .ok () g₃)
    (hregister : Walk.registerSwitch pc g₃ = .ok () g') (hlow16 : fits16 low)
    (hhigh16 : fits16 high) : Drafted g' (a.emit (a.tableCell low high)) := by
  obtain ⟨-, hemitted⟩ := tableSwitch_emitted hop hlow hhigh hregister h.built.code h.built.main
    hlow16 hhigh16 a.frame
  refine h.emitArmed ?_ rfl hemitted
  exact ⟨⟨by simp [Draft.tableCell, Cell.table, Operands.arms], ⟨rfl, hlow16, hhigh16⟩, (by rintro ⟨⟩)⟩, rfl,
    rfl, (by rintro ⟨⟩), (by rintro ⟨⟩)⟩

theorem Drafted.lookupSwitch (h : Drafted g a)
    (hop : opZeroed .lookupSwitch (4 + 4 * n) g = .ok pc g₁)
    (hset : setU16 (pc + 3) n g₁ = .ok () g₂) (hregister : Walk.registerSwitch pc g₂ = .ok () g')
    (hn : n < 65536) : Drafted g' (a.emit (a.lookupCell n)) := by
  obtain ⟨-, hemitted⟩ := lookupSwitch_emitted hop hset hregister h.built.code h.built.main hn a.frame
  have harms : (a.lookupCell n).operands.arms = n + 1 := by
    simp [Draft.lookupCell, Cell.lookup, Operands.arms]
  have hdests : (a.lookupCell n).dests =
      (List.range (a.lookupCell n).operands.arms).map (.arm a.main.length) := by
    rw [harms]
    rfl
  have hstanding : (a.lookupCell n).operands.standing a.filled a.main.length =
      .lookup (.replicate n 0) := by
    have hliteral : ∀ i, a.filled (.literal a.main.length i) = none := fun i =>
      h.built.sound.fresh _ (Nat.lt_irrefl _)
    simp only [Draft.lookupCell, Cell.lookup, Operands.standing, List.length_replicate, hliteral,
      Option.getD_none, Operands.lookup.injEq]
    exact List.eq_replicate_iff.mpr ⟨by simp, by simp⟩
  refine h.emitArmed ⟨⟨by rw [hdests]; simp, ⟨rfl, by simpa using hn⟩, (by rintro ⟨⟩)⟩, rfl, hdests, (by rintro ⟨⟩),
    (by rintro ⟨⟩)⟩ hdests ?_
  rw [hstanding, harms]
  exact hemitted

/-- A reserved instruction without operands is an instruction without operands. -/
theorem opZeroed_zero (hop : op.spec.uses.isSome) (hok : opZeroed op 0 g = .ok pc g') :
    Emit.op op g = .ok pc g' := by
  simp only [opZeroed, appendCode, bind_ok, guard_throw_ok, modify_ok, pure_ok, hop, if_true] at hok
  obtain ⟨_, _, ⟨n, g₁, hn, _, _, rfl, rfl, rfl⟩, -, -, _, _, ⟨_, g₂, hm, _, _, rfl, -, rfl⟩, _, _,
    hupdate, rfl, rfl⟩ := hok
  obtain rfl : g₂ = g₁.modifySection fun s => { s with code := s.code ++ #[op.toByte] } := by
    simp only [offset, get_bind, pure_ok] at hm
    exact hm.2.symm
  simp only [Emit.op, Emit.instruction, appendCode, bind_ok, modify_ok, pure_ok]
  refine ⟨n, _, ⟨n, g₁, hn, (), _, rfl, rfl, rfl⟩, (), _, ?_, rfl, rfl⟩
  have hsame : (g₁.modifySection fun s => { s with code := s.code ++ #[op.toByte] }).modifySection
      (fun s => { s with code := s.code ++ Array.replicate 0 0 }) =
      g₁.modifySection fun s => { s with code := s.code ++ (#[op.toByte] ++ #[]) } := by
    simp only [Generator.modifySection]
    cases g₁.current <;> simp
  rw [← hsame]
  exact hupdate

/-! ## Filling in -/

/-- No destination is a literal. -/
theorem Draft.Sound.ne_literal (h : a.Sound) {j : Nat} {d : Cell Hole} (hj : a.main[j]? = some d)
    {hole : Hole} (hmem : hole ∈ d.dests) (k i : Nat) : hole ≠ .literal k i := by
  rintro rfl
  rcases (h.cells j d hj).hole_cases hmem with ⟨-, -, hfits⟩ | ⟨i', heq⟩
  · exact hfits
  · cases heq

/-- The literal of a pair is written. -/
theorem Drafted.setPairLiteral (h : Drafted g a) {i : Nat} {literals : List Nat}
    (hk : a.main[k]? = some c) (hc : c.operands = .lookup literals) (hi : i < literals.length)
    (hnone : a.filled (.literal k i) = none) (hs : a.settled ≤ k) (hn : n < a.literals.length)
    (hok : setU16 (position a.main k + 5 + 4 * i) n g = .ok () g') :
    Drafted g' (a.fill (.literal k i) n) := by
  have hsound := h.built.sound
  obtain ⟨-, rfl⟩ := setU16_ok hok h.built.main
  let held : List Nat := (List.range literals.length).map fun j => (a.filled (.literal k j)).getD 0
  have hoperands : (c.shown a.filled a.main k).operands = .lookup held := by
    rw [Cell.shown, hc]
    rfl
  have hheld : (List.range literals.length).map (fun j =>
      ((a.fill (.literal k i) n).filled (.literal k j)).getD 0) = held.set i n := by
    refine List.ext_getElem? fun j => ?_
    rw [List.getElem?_map, List.getElem?_set]
    by_cases hij : i = j
    · subst hij
      simp [held, hi, filled_fill_self]
    · have hne : Hole.literal k j ≠ .literal k i := fun heq => hij (Hole.literal.inj heq).2.symm
      rw [if_neg hij, List.getElem?_map]
      by_cases hj : j < literals.length
      · simp [List.getElem?_range hj, filled_fill_ne hne]
      · rw [List.getElem?_eq_none (by simpa using hj)]
        rfl
  have hcells : (a.fill (.literal k i) n).cells = a.cells.set k
      { c.shown a.filled a.main k with operands := .lookup (held.set i n) } := by
    have hshown : c.shown (a.fill (.literal k i) n).filled a.main k =
        { c.shown a.filled a.main k with operands := .lookup (held.set i n) } := by
      have hdests : c.dests.map (Hole.offset (a.fill (.literal k i) n).filled a.main k) =
          c.dests.map (Hole.offset a.filled a.main k) := List.map_congr_left fun hole hmem => by
        rw [Hole.offset, Hole.offset, filled_fill_ne (hsound.ne_literal hk hmem k i)]
      have hop : c.standing (a.fill (.literal k i) n).filled = c.standing a.filled := by
        simp only [Cell.standing]
        split
        · rename_i hole hone
          rw [filled_fill_ne (hsound.ne_literal hk (by simp [hone]) k i)]
        · rfl
      rw [Cell.shown, Cell.shown, hdests, hop, hc, Operands.standing, hheld]
    rw [← hshown]
    exact shown_set hk fun j d hj hne =>
      ⟨fun hole hmem => (filled_fill_ne (hsound.ne_literal hj hmem k i)).symm,
      fun j' => (filled_fill_ne fun heq => hne (Hole.literal.inj heq).1).symm⟩
  have hcodes := Layered.setLiteral h.built.code (getElem?_cells hk) hs hoperands
    (by simpa [held] using hi) n
  rw [position_cells, ← hcells] at hcodes
  refine h.of_coded rfl ⟨_, _, rfl, ?_⟩ ?_ (h.stacked.fill fun _ _ _ heq => by cases heq)
  · rw [Codes, Bytes.size_setU16]
    exact hcodes
  · exact hsound.fill hnone (lt_of_getElem? hk) (fun hne => absurd rfl (hne k i))
      (fun k' i' _ => hn) (fun _ _ _ _ heq => by cases heq)

end ScriptCompiler
