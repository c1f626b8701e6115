import ScriptCompiler.Proofs.Code.Resolution
import ScriptCompiler.Proofs.Draft.Jumps

/-!
# Resolving a draft

Between top-level statements no jump waits for a destination. Resolving the
spans then leaves a draft as it is, but for the width of its jumps.
-/

namespace ScriptCompiler

open Bytes Emit

variable {k n : Nat} {c : Cell Hole} {at' : Nat → Nat}

namespace Draft

variable {a : Draft}

/-- No jump waits for a destination. -/
def Closed (a : Draft) : Prop :=
  ∀ (k : Nat) (c : Cell Hole), a.main[k]? = some c → ∀ h ∈ c.dests,
    ∃ t ≤ a.main.length, a.filled h = some t

/-- All cells get the width they keep. -/
def settle (a : Draft) (wides : Nat → Bool) : Draft :=
  { a with
    main := a.main.mapIdx fun k c => if k < a.settled then c else { c with wide := wides k }
    settled := a.main.length }

/-- Every wide cell has an offset that does not fit a narrow field. -/
def Tight (a : Draft) : Prop :=
  ∀ (k : Nat) (c : Cell Int), a.cells[k]? = some c → c.wide = true →
    ∃ z ∈ c.dests, fits16 z = false

variable {wides : Nat → Bool}

theorem length_settle : (a.settle wides).main.length = a.main.length := by
  simp [settle]

theorem getElem?_settle (wides : Nat → Bool) (hk : a.main[k]? = some c) :
    ∃ wide, (a.settle wides).main[k]? = some { c with wide } ∧
      (k < a.settled → wide = c.wide) ∧ (a.settled ≤ k → wide = wides k) := by
  by_cases hlt : k < a.settled
  · exact ⟨c.wide, by simp [settle, hk, hlt], fun _ => rfl, fun hge => absurd hlt (by omega)⟩
  · exact ⟨wides k, by simp [settle, hk, hlt], fun h => absurd h hlt, fun _ => rfl⟩

theorem of_getElem?_settle {c' : Cell Hole} (hk : (a.settle wides).main[k]? = some c') :
    ∃ c, a.main[k]? = some c ∧ c' = { c with wide := c'.wide } := by
  have hlt : k < a.main.length := by
    have := lt_of_getElem? hk
    rwa [length_settle] at this
  obtain ⟨c, hc⟩ : ∃ c, a.main[k]? = some c := ⟨_, List.getElem?_eq_getElem hlt⟩
  obtain ⟨wide, hsettle, -, -⟩ := getElem?_settle wides hc
  rw [hsettle] at hk
  cases hk
  exact ⟨c, hc, rfl⟩

theorem mark_settle : (a.settle wides).mark = a.mark := by
  rw [mark, length_settle]
  rfl

/-- A closed draft stays sound. -/
theorem Sound.settle (hsound : a.Sound) (hclosed : a.Closed)
    (hwides : ∀ (k : Nat) (c : Cell Hole), a.main[k]? = some c → a.settled ≤ k → wides k →
      c.op.widened.isSome) : (a.settle wides).Sound where
  cells := fun k c' hk => by
    obtain ⟨c, hc, heq⟩ := of_getElem?_settle hk
    obtain ⟨wide, hsettle, hfront, hback⟩ := getElem?_settle wides hc
    rw [hk] at hsettle
    have hcell := hsound.cells k c hc
    have hwide : c'.wide = wide := congrArg Cell.wide (Option.some.inj hsettle)
    rw [heq, hwide]
    refine ⟨⟨hcell.shaped.count, hcell.shaped.fits, fun htrue => ?_⟩, hcell.final, hcell.holes,
      hcell.literal, hcell.function⟩
    rcases Nat.lt_or_ge k a.settled with hlt | hge
    · exact hcell.shaped.twin ((hfront hlt).symm.trans htrue)
    · exact hwides k c hc hge ((hback hge).symm.trans htrue)
  used := fun k c' hk h hmem => by
    obtain ⟨c, hc, heq⟩ := of_getElem?_settle hk
    rw [heq] at hmem
    rw [length_settle]
    exact hsound.used k c hc h hmem
  fresh := fun h hold => by
    rw [length_settle] at hold
    exact hsound.fresh h hold
  targets := fun h t ht hne => by
    rw [length_settle]
    exact hsound.targets h t ht hne
  literals := hsound.literals
  serials := hsound.serials
  distinct := hsound.distinct
  updates := fun o ho => by
    rw [length_settle]
    exact hsound.updates o ho
  pending := fun k c' hk serial chain hmem hnone => by
    obtain ⟨c, hc, heq⟩ := of_getElem?_settle hk
    rw [heq] at hmem
    exact hsound.pending k c hc serial chain hmem hnone
  unfilled := hsound.unfilled
  settled := fun k c' hk _ h hmem => by
    obtain ⟨c, hc, heq⟩ := of_getElem?_settle hk
    rw [heq] at hmem
    exact hclosed k c hc h hmem
  regions := fun r hr => by
    rw [length_settle]
    exact hsound.regions r hr
  high := hsound.high
  prolog := hsound.prolog
  nested := hsound.nested

theorem Closed.settle (h : a.Closed) : (a.settle wides).Closed := fun k c' hk hole hmem => by
  obtain ⟨c, hc, heq⟩ := of_getElem?_settle hk
  rw [heq] at hmem
  rw [length_settle]
  exact h k c hc hole hmem

end Draft

/-- What a draft may lead to does not depend on widths. -/
theorem Fills.of_settle {a : Draft} {wides : Nat → Bool} {fill : Hole → Nat} {P : Program}
    (h : Fills fill P n (a.settle wides)) : Fills fill P n a where
  filled := h.filled
  main := fun k c hn hk => by
    obtain ⟨wide, hsettle, -, -⟩ := Draft.getElem?_settle wides hk
    obtain ⟨wide', hat⟩ := h.main k _ hn hsettle
    exact ⟨wide', hat⟩
  prolog := h.prolog
  literals := h.literals
  functions := h.functions
  regions := h.regions
  high := h.high

variable {g g' : Generator} {a : Draft}

/-- What stands in the code for a cell whose holes are all filled. -/
theorem Cell.shown_op {filled : Hole → Option Nat} {cells : List (Cell Hole)}
    (h : ∀ hole ∈ c.dests, (filled hole).isSome) : (c.shown filled cells k).op = c.op := by
  show c.standing filled = c.op
  rw [Cell.standing]
  split
  · rename_i hole hdests
    rw [if_pos (h hole (by simp [hdests]))]
  · rfl

namespace Draft

variable {wides : Nat → Bool}

theorem position_settle (hk : k ≤ a.settled) :
    position (a.settle wides).main k = position a.main k := by
  have htake : (a.settle wides).main.take a.settled = a.main.take a.settled := by
    refine List.ext_getElem? fun i => ?_
    by_cases hi : i < a.settled
    · rw [List.getElem?_take_of_lt hi, List.getElem?_take_of_lt hi]
      cases hc : a.main[i]? with
      | none => simp [settle, hc]
      | some c => simp [settle, hc, hi]
    · rw [List.getElem?_eq_none_iff.mpr (by simp; omega),
        List.getElem?_eq_none_iff.mpr (by simp; omega)]
  rcases Nat.lt_or_ge a.main.length k with hlong | hshort
  · rw [position_of_length_le (Nat.le_of_lt hlong),
      position_of_length_le (by rw [length_settle]; omega), length_settle]
    have := congrArg (fun l => position l a.main.length) htake
    simp only [List.take_of_length_le (show a.main.length ≤ a.settled by omega)] at this
    rw [List.take_of_length_le (by rw [length_settle]; omega)] at this
    exact this
  · rw [← List.take_append_drop a.settled (a.settle wides).main,
      ← List.take_append_drop a.settled a.main, htake, position_append (by simp; omega),
      position_append (by simp; omega)]

/-- The offset of a destination that has been reached. -/
theorem Closed.offset (hclosed : a.Closed) (hk : a.main[k]? = some c) {hole : Hole}
    (hmem : hole ∈ c.dests) (cells : List (Cell Hole)) :
    ∃ t ≤ a.main.length, a.filled hole = some t ∧
      hole.offset a.filled cells k = (position cells t : Int) - position cells k := by
  obtain ⟨t, hle, ht⟩ := hclosed k c hk hole hmem
  exact ⟨t, hle, ht, by rw [Hole.offset, ht]⟩

theorem Closed.shown_op (hclosed : a.Closed) (hk : a.main[k]? = some c) (cells : List (Cell Hole)) :
    (c.shown a.filled cells k).op = c.op :=
  Cell.shown_op fun hole hmem => by
    obtain ⟨t, -, ht⟩ := hclosed k c hk hole hmem
    rw [ht]
    rfl

/-- The cells of a closed draft, before and after they get their widths. -/
theorem widened_settle (hsound : a.Sound) (wides : Nat → Bool) :
    Widened wides a.settled a.cells (a.settle wides).cells where
  length := by rw [cells, cells, length_shown, length_shown, length_settle]
  front := fun k hk => by
    cases hc : a.main[k]? with
    | none =>
      have hlong := List.getElem?_eq_none_iff.mp hc
      rw [List.getElem?_eq_none_iff.mpr (by rw [cells, length_shown, length_settle]; exact hlong),
        List.getElem?_eq_none_iff.mpr (by rw [cells, length_shown]; exact hlong)]
    | some c =>
      obtain ⟨wide, hsettle, hfront, -⟩ := getElem?_settle wides hc
      rw [hfront hk] at hsettle
      rw [getElem?_cells hc, getElem?_cells hsettle]
      refine congrArg some (congrArg (Cell.mk _ _ _ · _) (List.map_congr_left fun hole hmem => ?_))
      obtain ⟨t, hle, ht⟩ := hsound.settled k c hc hk hole hmem
      show hole.offset a.filled (a.settle wides).main k = hole.offset a.filled a.main k
      rw [Hole.offset, Hole.offset, ht]
      simp only
      rw [position_settle hle, position_settle (Nat.le_of_lt hk)]
  back := fun k s s' hge hs hs' => by
    have hlt : k < a.main.length := by
      have := lt_of_getElem? hs
      rwa [cells, length_shown] at this
    obtain ⟨c, hc⟩ : ∃ c, a.main[k]? = some c := ⟨_, List.getElem?_eq_getElem hlt⟩
    obtain ⟨wide, hsettle, -, hback⟩ := getElem?_settle wides hc
    rw [getElem?_cells hc] at hs
    rw [getElem?_cells hsettle] at hs'
    cases hs
    cases hs'
    refine ⟨rfl, hback hge, rfl, ?_⟩
    show (c.dests.map _).length = (c.dests.map _).length
    rw [List.length_map, List.length_map]

/-- The offsets of a closed draft lead to where their targets move. -/
theorem Closed.aims (hclosed : a.Closed)
    (hposition : ∀ k ≤ a.main.length, position (a.settle wides).main k = at' (position a.main k)) :
    Aims a.settled a.cells (a.settle wides).cells at' fun k i =>
      position a.main (((a.main[k]?.bind fun c => c.dests[i]?).bind a.filled).getD 0) := by
  intro k s s' hge hs hs' i z hz
  have hlt := lt_of_getElem? hs
  rw [cells, length_shown] at hlt
  obtain ⟨c, hc⟩ : ∃ c, a.main[k]? = some c := ⟨_, List.getElem?_eq_getElem hlt⟩
  obtain ⟨wide, hsettle, -, -⟩ := getElem?_settle wides hc
  rw [getElem?_cells hc] at hs
  rw [getElem?_cells hsettle] at hs'
  cases hs
  cases hs'
  obtain ⟨hole, hhole, rfl⟩ : ∃ hole, c.dests[i]? = some hole ∧
      hole.offset a.filled a.main k = z := by
    simpa [Cell.shown] using hz
  obtain ⟨t, hle, ht, hoffset⟩ := hclosed.offset hc (List.mem_of_getElem? hhole) a.main
  have htarget : ((a.main[k]?.bind fun c => c.dests[i]?).bind a.filled).getD 0 = t := by
    simp [hc, hhole, ht]
  simp only [htarget]
  refine ⟨?_, ?_⟩
  · rw [position_cells]
    exact hoffset
  · have hnew : hole.offset a.filled (a.settle wides).main k =
        (position (a.settle wides).main t : Int) - position (a.settle wides).main k := by
      rw [Hole.offset, ht]
    rw [position_cells, ← hposition t hle, ← hnew]
    show (c.dests.map _)[i]? = _
    rw [List.getElem?_map, hhole]
    rfl

end Draft

/-- The regions of a draft move with its cells. -/
theorem Built.covers_moved {is : List Instruction} {promoted : Instruction → Bool}
    {main' : List (Cell Hole)} (h : Built g a) (hm : Moved g g' is promoted at')
    (hposition : ∀ k ≤ a.main.length, position main' k = at' (position a.main k)) {i : Nat}
    {r' : Region} {e : Extent} (hr' : g'.regions[i]? = some r') (he : a.regions[i]? = some e) :
    Covers main' r' e := by
  have hlt := Nat.lt_of_lt_of_eq (Array.getElem?_eq_some_iff.mp hr').1 hm.count
  obtain ⟨r, hr⟩ : ∃ r, g.regions[i]? = some r := ⟨_, Array.getElem?_eq_getElem hlt⟩
  obtain ⟨hkind, hdepth, hstart, hstop⟩ := h.regions i r e hr he
  obtain ⟨hstarts, hstops⟩ := h.sound.regions e (List.mem_of_getElem? he)
  obtain ⟨_, hnew, hkind', hdepth', hstart', hstop'⟩ := hm.regions i r hr
  obtain rfl := Option.some.inj (hnew.symm.trans hr')
  refine ⟨hkind'.trans hkind, hdepth'.trans hdepth, ?_, ?_⟩
  · rw [hstart', hstart, hposition _ hstarts]
  · rw [hstop', hstop, hposition _ hstops]

/-- Without a waiting jump, resolving the spans leaves a draft as it is, but for the widths. -/
theorem Drafted.resolveSpans (h : Drafted g a) (hclosed : a.Closed) (hopens : a.opens = [])
    (hok : Emit.resolveSpans g = .ok () g') :
    Drafted g' a ∨ ∃ wides, Drafted g' (a.settle wides) ∧ (a.Tight → (a.settle wides).Tight) := by
  cases hon : g.spans.active with
  | false =>
    obtain rfl := resolveSpans_off hon hok
    exact .inl h
  | true =>
    right
    have hsound := h.built.sound
    have hcodes := h.built.code
    obtain ⟨promoted, at', hm⟩ := (recorded_views hcodes hon).moved hok
    obtain ⟨-, -, code, notes, last, regions, -, -, -, -, -, rfl⟩ := resolveSpans_ok hon hok
    obtain ⟨wides, hwides⟩ : ∃ wides : Nat → Bool, ∀ (k : Nat) (c : Cell Int),
        a.cells[k]? = some c → a.settled ≤ k → wides k = promoted (c.view (position a.cells k)) :=
      ⟨fun k => (a.cells[k]?.map fun c => promoted (c.view (position a.cells k))).getD false,
        fun k c hk _ => by simp [hk]⟩
    have hwidened := Draft.widened_settle hsound wides
    have hposition : ∀ k ≤ a.main.length,
        position (a.settle wides).main k = at' (position a.main k) := fun k hk => by
      have hcells := position_widened hcodes hm hwidened hwides (k := k)
        (by rw [Draft.cells, length_shown]; exact hk)
      rwa [Draft.position_cells, Draft.position_cells] at hcells
    have htwins : ∀ (k : Nat) (c : Cell Hole), a.main[k]? = some c → a.settled ≤ k →
        wides k → c.op.widened.isSome := by
      intro k c hk hge htrue
      have hcell := Draft.getElem?_cells hk
      rw [hwides k _ hcell hge] at htrue
      have htwin := hm.twin _ (view_mem hcodes.settled_le hcell hge) htrue
      have hop : ((c.shown a.filled a.main k).view (position a.cells k)).op = c.op := by
        show (c.shown a.filled a.main k).opcode = c.op
        rw [Cell.opcode, hcodes.narrow k _ hcell hge, hclosed.shown_op hk]
        rfl
      rwa [hop] at htwin
    have hmoved := Resolved.mk hcodes hm hwidened hwides (hclosed.aims hposition)
    have hresolved := hmoved.codes rfl
    rw [Draft.cells, length_shown] at hresolved
    have hnone : ∀ i : Nat, (a.settle wides).opens[i]? = none := fun i => by
      rw [show (a.settle wides).opens = [] from hopens]
      rfl
    refine ⟨wides, ⟨{ h.built with
      sound := hsound.settle hclosed htwins, code := hresolved
      closed := hm.count.trans h.built.closed
      regions := fun i r e => h.built.covers_moved hm hposition },
      { h.stacked with entries := fun i e o he ho => by rw [hnone i] at ho; cases ho }⟩,
      fun htight k c' hk hwide => ?_⟩
    rcases Nat.lt_or_ge k a.settled with hfront | hback
    · rw [hwidened.front k hfront] at hk
      exact htight k c' hk hwide
    · exact hmoved.tight hback hk hwide

/-- What is emitted since the last resolution is narrow. -/
theorem Draft.Tight.grown {s : Nat} {a a' : Draft} (h : a.Tight) (hgrown : Grown n s a a')
    (hdrafted : Drafted g a) (hdrafted' : Drafted g' a') : a'.Tight := by
  intro k c' hk hwide
  have hlength : a.settled ≤ a.main.length := by
    have hle := hdrafted.built.code.settled_le
    rwa [Draft.cells, length_shown] at hle
  have hlt : k < a.settled := by
    by_contra hge
    rw [hdrafted'.built.code.narrow k c' hk (by rw [hgrown.settled]; omega)] at hwide
    cases hwide
  obtain ⟨c, hc⟩ : ∃ c, a.main[k]? = some c := ⟨_, List.getElem?_eq_getElem (by omega)⟩
  rw [Draft.getElem?_cells (hgrown.main k c hc)] at hk
  cases hk
  obtain ⟨z, hz, hlarge⟩ := h k _ (Draft.getElem?_cells hc) hwide
  refine ⟨z, ?_, hlarge⟩
  -- a resolved cell has all its destinations, which have not moved
  obtain ⟨hole, hhole, rfl⟩ := List.mem_map.mp hz
  refine List.mem_map.mpr ⟨hole, hhole, ?_⟩
  obtain ⟨t, hle, ht⟩ := hdrafted.built.sound.settled k c hc hlt hole hhole
  rw [Hole.offset, Hole.offset, ht, hgrown.filled hole t ht]
  simp only
  rw [hgrown.position_eq (by omega), hgrown.position_eq (by omega)]

end ScriptCompiler
