import Mathlib.Logic.Function.Basic
import ScriptCompiler.Proofs.Code.Runs
import ScriptCompiler.Proofs.Code.Totality

/-!
# The table of spans is not seen from outside

In every state a run gets to, each offset since the last resolution can be read.
Turning the table on changes none of them and lists each once, in the order of
the code. Setting one changes that one alone, whether the offset goes into the
code, into the table, or turns the table on.
-/

namespace ScriptCompiler

open Bytes Emit

variable {z : Int} {field : Nat}

/-- The offsets of instructions, by the positions of their fields. The first offset of an instruction
is also read by the position of the instruction. -/
def Reads (g : Generator) (is : List Instruction) (offset : Nat → Int) : Prop :=
  ∀ i ∈ is, ∀ field ∈ i.fields, Emit.offsetAt field g = .ok (offset field) g ∧
    (field = i.pc + 1 → Emit.jumpOffset i.pc g = .ok (offset field) g)

/-- The offsets of cells, by the positions of their fields. -/
def OffsetsOf (settled : Nat) (cells : List (Cell Int)) (offset : Nat → Int) : Prop :=
  ∀ (k : Nat) (c : Cell Int), settled ≤ k → cells[k]? = some c → ∀ (j : Nat) (z : Int),
    c.dests[j]? = some z → offset (c.field (position cells k) j) = z

section

variable {g g' : Generator} {settled k j : Nat} {cells : List (Cell Int)} {c d : Cell Int}
  {is : List Instruction} {offset : Nat → Int}

/-- Different offsets have different fields. -/
theorem field_inj {l m : Nat} (hk : cells[k]? = some c) (hl : cells[l]? = some d)
    (hj : j < c.operands.arms) (hm : m < d.operands.arms)
    (h : c.field (position cells k) j = d.field (position cells l) m) : k = l ∧ j = m := by
  have hin := c.field_bounds (position cells k) hj
  have hin' := d.field_bounds (position cells l) hm
  have hwidth := offsetWidth_pos c.wide
  have hwidth' := offsetWidth_pos d.wide
  rw [Cell.width] at hin hin'
  obtain rfl | hapart := position_apart hk hl
  · obtain rfl : c = d := Option.some.inj (hk.symm.trans hl)
    refine ⟨rfl, ?_⟩
    by_contra hne
    have hfields : c.field (position cells k) j + c.width ≤ c.field (position cells k) m ∨
        c.field (position cells k) m + c.width ≤ c.field (position cells k) j :=
      c.operands.field_apart hne
    rw [Cell.width] at hfields
    omega
  · omega

theorem map_form_setDest (hk : cells[k]? = some c) (j : Nat) (z : Int) :
    (cells.set k (c.setDest j z)).map Cell.form = cells.map Cell.form := map_form_set hk rfl

theorem Codes.exists_offsets (h : Codes g.main.code g.spans settled cells) :
    ∃ offset, OffsetsOf settled cells offset := by
  refine ⟨fun field => Classical.epsilon fun z => offsetAt field g = .ok z g,
    fun k c hs hk j z hz => ?_⟩
  have hread := offsetAt_eq h hk hs hz
  have hspec := Classical.epsilon_spec
    (p := fun w => offsetAt (c.field (position cells k) j) g = .ok w g) ⟨z, hread⟩
  exact (offsetAt_ok h hk hs hz hspec).1

/-- Setting one offset of the cells changes that one alone. -/
theorem OffsetsOf.set (ho : OffsetsOf settled cells offset) (hk : cells[k]? = some c)
    (hj : j < c.operands.arms) (hshaped : ∀ d ∈ cells, d.Shaped) (z : Int) :
    OffsetsOf settled (cells.set k (c.setDest j z))
      (Function.update offset (c.field (position cells k) j) z) := by
  intro l d hs hl m w hw
  rw [position_congr (map_form_setDest hk j z)]
  by_cases hkl : k = l
  · subst hkl
    rw [List.getElem?_set_self (lt_of_getElem? hk)] at hl
    obtain rfl := Option.some.inj hl
    by_cases hjm : j = m
    · subst hjm
      have hlen : j < c.dests.length := by rwa [(hshaped c (List.mem_of_getElem? hk)).count]
      simp only [Cell.setDest, List.getElem?_set_self hlen, Option.some.injEq] at hw
      rw [← hw]
      exact Function.update_self ..
    · simp only [Cell.setDest, List.getElem?_set_ne hjm] at hw
      have hm : m < c.operands.arms := by
        rw [← (hshaped c (List.mem_of_getElem? hk)).count]
        exact lt_of_getElem? hw
      rw [Function.update_of_ne]
      · exact ho k c hs hk m w hw
      · exact fun heq => hjm (field_inj hk hk hm hj heq).2.symm
  · rw [List.getElem?_set_ne hkl] at hl
    have hm : m < d.operands.arms := by
      rw [← (hshaped d (List.mem_of_getElem? hl)).count]
      exact lt_of_getElem? hw
    rw [Function.update_of_ne]
    · exact ho l d hs hl m w hw
    · exact fun heq => hkl (field_inj hl hk hm hj heq).1.symm

theorem Codes.shaped (h : Codes g.main.code g.spans settled cells) : ∀ c ∈ cells, c.Shaped :=
  fun c hc => by
    obtain ⟨k, hk⟩ := List.mem_iff_getElem?.mp hc
    exact (h.stands k c hk).shaped

/-- What stands in the cells is what is read. -/
theorem OffsetsOf.reads (ho : OffsetsOf settled cells offset)
    (h : Codes g.main.code g.spans settled cells) (hrecent : Recent g is)
    (hsize : g.main.code.size ≤ 18446744073709551616) : Reads g is offset := by
  intro i hi field hfield
  obtain ⟨k, c, hs, hk, rfl⟩ := hrecent.cell h hi
  obtain ⟨j, hj, rfl⟩ := (h.stands k c hk).shaped.mem_fields.mp hfield
  have hlen : j < c.dests.length := by rwa [(h.stands k c hk).shaped.count]
  have hz : c.dests[j]? = some c.dests[j] := List.getElem?_eq_getElem hlen
  have hread := offsetAt_eq h hk hs hz
  rw [ho k c hs hk j _ hz]
  refine ⟨hread, fun hfirst => ?_⟩
  have hlt := field_lt_size h hk hj
  rw [hfirst] at hread hlt
  exact (jumpOffset_iff (Nat.lt_of_lt_of_le hlt hsize)).mpr hread

theorem views_set (hk : cells[k]? = some c) (j : Nat) (z : Int) (pc : Nat) :
    views pc (cells.set k (c.setDest j z)) = views pc cells := by
  induction cells generalizing k pc with
  | nil => rfl
  | cons d cells ih =>
    cases k with
    | zero =>
      obtain rfl : d = c := Option.some.inj hk
      rfl
    | succ k =>
      rw [List.set_cons_succ, views, views, ih hk]

/-- Setting an offset changes no instruction. -/
theorem Recent.set (hrecent : Recent g is) (h : Codes g.main.code g.spans settled cells)
    (hk : cells[k]? = some c) (hs : settled ≤ k)
    (h' : Codes g'.main.code g'.spans settled (cells.set k (c.setDest j z))) : Recent g' is := by
  have hwhole := whole_recent h'
  obtain ⟨m, rfl⟩ := Nat.exists_eq_add_of_le hs
  have hdrop : (cells.drop settled)[m]? = some c := by rwa [List.getElem?_drop]
  rw [position_congr (map_form_setDest hk j z), List.drop_set,
    if_neg (by omega), Nat.add_sub_cancel_left, views_set hdrop, ← hrecent.eq_views h] at hwhole
  exact hwhole

/-- Every offset since the last resolution leads to a place in the code, or, if it is that of a
placeholder, back to the link before it. -/
def Admissible (g : Generator) (is : List Instruction) : Prop :=
  ∀ i ∈ is, ∀ field ∈ i.fields, ∀ z, Emit.offsetAt field g = .ok z g → Admits i.op i.pc z

theorem Admissible.admitted (ha : Admissible g is) (hrecent : Recent g is)
    (h : Codes g.main.code g.spans settled cells) : Admitted settled cells := by
  intro k c hs hk z hz
  obtain ⟨j, hz⟩ := List.mem_iff_getElem?.mp hz
  have hj := arms_of_dest h hk hz
  have hadmits := ha _ (hrecent.mem_view h hk hs) (c.field (position cells k) j)
    ((h.stands k c hk).shaped.mem_fields.mpr ⟨j, hj, rfl⟩) z (offsetAt_eq h hk hs hz)
  rw [view_op h hk hs] at hadmits
  exact hadmits

namespace Emit

theorem locateSpan_state {r : Nat × Span} (hok : locateSpan field g = .ok r g') : g' = g := by
  simp only [locateSpan, get_bind, lift_bind_ok, lift_ok] at hok
  obtain ⟨-, -, -, rfl⟩ := hok
  rfl

/-- A span gets its target while the table stays as it is, on or off. -/
theorem setSpan_active
    (hok : ((locateSpan field) >>= fun r => setSpanTarget r.1 r.2.top z) g = .ok () g') :
    g'.spans.active = g.spans.active := by
  obtain ⟨r, g₁, hlocate, hset⟩ := bind_ok.mp hok
  obtain rfl := locateSpan_state hlocate
  obtain ⟨-, rfl⟩ := setSpanTarget_ok hset
  rfl

/-- Setting an offset turns the table on if the offset does not fit its field. -/
theorem setOffsetAt_active (h : Codes g.main.code g.spans settled cells)
    (hok : setOffsetAt field z g = .ok () g') :
    g'.spans.active = (g.spans.active || !fits16 z) := by
  simp only [setOffsetAt, get_bind] at hok
  cases hon : g.spans.active with
  | true =>
    rw [if_neg (by simp [hon])] at hok
    rw [setSpan_active hok, hon]
    rfl
  | false =>
    rw [if_pos (by simp [hon])] at hok
    cases hfits : fits16 z with
    | true =>
      rw [if_pos hfits] at hok
      obtain ⟨_, g₁, hset, hpure⟩ := bind_ok.mp hok
      obtain ⟨-, rfl⟩ := setMainU16_ok hset
      obtain ⟨-, rfl⟩ := pure_ok.mp hpure
      exact hon
    | false =>
      rw [if_neg (by simp [hfits])] at hok
      obtain ⟨_, g₁, hbuild, hset⟩ := bind_ok.mp hok
      obtain ⟨code, spans, rfl, hon', -⟩ := buildSpans_codes h hon hbuild
      rw [setSpan_active hset]
      exact hon'

end Emit

end

/-- In every state a run gets to, the table of spans is not seen from outside. The offsets of the
instructions since the last resolution can be read. Turning the table on changes none of them, and it
lists each once, in the order of the code. Each can be set to whatever leads to a place in the code
and fits 32 bits, which changes that one alone and turns the table on only if it has to. -/
theorem offsets_transparent {g : Generator} {is : List Instruction} (hg : Reached g)
    (hrecent : Recent g is) (hadmissible : Admissible g is)
    (hsize : g.main.code.size ≤ 18446744073709551616) :
    ∃ offset : Nat → Int, Reads g is offset ∧
      (g.spans.active = false → ∃ g', Emit.buildSpans g = .ok () g' ∧ Recorded g' is ∧
        g'.spans.Ascending ∧ Reads g' is offset) ∧
      ∀ i ∈ is, ∀ field ∈ i.fields, ∀ z : Int, fits32 z = true → 0 ≤ (i.pc : Int) + z →
        ∃ g', Emit.setOffsetAt field z g = .ok () g' ∧
          (field = i.pc + 1 → Emit.setJumpOffset i.pc z g = .ok () g') ∧
          g'.spans.active = (g.spans.active || !fits16 z) ∧
          Recent g' is ∧ Reads g' is (Function.update offset field z) := by
  obtain ⟨settled, cells, h⟩ := hg.codes
  obtain ⟨offset, ho⟩ := h.exists_offsets
  have hadmitted := hadmissible.admitted hrecent h
  refine ⟨offset, ho.reads h hrecent hsize, fun hoff => ?_, fun i hi field hfield z hfits hpos => ?_⟩
  · obtain ⟨g', hbuild⟩ := Emit.buildSpans_total h hoff hadmitted
    obtain ⟨code, spans, hg', hon, hcodes⟩ := Emit.buildSpans_codes h hoff hbuild
    have h' : Codes g'.main.code g'.spans settled cells := by rw [hg']; exact hcodes
    have hrecorded := Emit.recorded_views h' (by rw [hg']; exact hon)
    rw [← hrecent.eq_views h] at hrecorded
    refine ⟨g', hbuild, hrecorded, h'.ascending, ho.reads h' hrecorded.whole ?_⟩
    rw [h'.size, ← h.size]
    exact hsize
  · obtain ⟨k, c, hs, hk, rfl⟩ := hrecent.cell h hi
    obtain ⟨j, hj, rfl⟩ := (h.stands k c hk).shaped.mem_fields.mp hfield
    obtain ⟨g', hset⟩ := Emit.setOffsetAt_total h hk hs hj hadmitted hfits hpos
    have h' := (Emit.setOffsetAt_coded h hk hs hj hset).codes
    have hrecent' := hrecent.set h hk hs h'
    have hsize' : g'.main.code.size = g.main.code.size := by
      rw [h'.size, h.size, List.length_set,
        position_congr (map_form_setDest hk j z)]
    refine ⟨g', hset, fun hfirst => ?_, Emit.setOffsetAt_active h hset, hrecent',
      (ho.set hk hj h.shaped z).reads h' hrecent' (by omega)⟩
    have hlt := Emit.field_lt_size h hk hj
    rw [hfirst] at hset hlt
    exact (Emit.setJumpOffset_iff (Nat.lt_of_lt_of_le hlt hsize)).mpr hset

/-- A jump whose target is not known yet. -/
def openJump : Generator :=
  { Generator.new "unit" 1 .standard with main := ⟨#[Opcode.goto.toByte, 0, 0], #[], 0, 1⟩ }

/-- The same with the first link of a chain behind it. -/
def openChain : Generator :=
  { Generator.new "unit" 1 .standard with
    main := ⟨#[Opcode.goto.toByte, 0, 0, Opcode.backpatch.toByte, 4, 0], #[], 0, 1⟩ }

theorem openJump_emitted : jump .goto 0 (Generator.new "unit" 1 .standard) = .ok 0 openJump :=
  rfl

theorem openChain_emitted : jump .backpatch 4 openJump = .ok 3 openChain := rfl

theorem openJump_reached : Reached openJump :=
  .step (.new "unit" 1 .standard) (.jump rfl openJump_emitted)

theorem openChain_reached : Reached openChain :=
  .step openJump_reached (.jump rfl openChain_emitted)

theorem openChain_recent : Recent openChain [⟨0, .goto, 3⟩, ⟨3, .backpatch, 3⟩] :=
  ⟨rfl, by decide, by decide, rfl, by decide, by decide, rfl⟩

theorem openChain_offsets : offsetAt 1 openChain = .ok 0 openChain ∧
    offsetAt 4 openChain = .ok 4 openChain := by
  simp only [offsetAt, Emit.get_bind]
  rw [if_neg (by decide)]
  exact ⟨mainI16_ok.mpr ⟨by decide, rfl⟩, mainI16_ok.mpr ⟨by decide, rfl⟩⟩

theorem openChain_admissible : Admissible openChain [⟨0, .goto, 3⟩, ⟨3, .backpatch, 3⟩] := by
  intro i hi field hfield z hz
  rcases List.mem_pair.mp hi with rfl | rfl
  · obtain rfl := List.mem_singleton.mp hfield
    rw [openChain_offsets.1] at hz
    cases hz
    decide
  · obtain rfl := List.mem_singleton.mp hfield
    rw [openChain_offsets.2] at hz
    cases hz
    decide

/-- A target that is far away turns the table on while a chain is open. -/
theorem offsets_transparent_openChain :
    Reached openChain ∧ Recent openChain [⟨0, .goto, 3⟩, ⟨3, .backpatch, 3⟩] ∧
      Admissible openChain [⟨0, .goto, 3⟩, ⟨3, .backpatch, 3⟩] ∧
      openChain.main.code.size ≤ 18446744073709551616 ∧
      ∃ g', Emit.setJumpOffset 0 40000 openChain = .ok () g' ∧ g'.spans.active = true ∧
        Emit.jumpOffset 0 g' = .ok 40000 g' ∧ Emit.jumpOffset 3 g' = .ok 4 g' := by
  have hsize : openChain.main.code.size ≤ 18446744073709551616 := by decide
  refine ⟨openChain_reached, openChain_recent, openChain_admissible, hsize, ?_⟩
  obtain ⟨offset, hreads, -, hset⟩ :=
    offsets_transparent openChain_reached openChain_recent openChain_admissible hsize
  obtain ⟨g', -, hjump, hactive, -, hreads'⟩ :=
    hset ⟨0, .goto, 3⟩ (by simp) 1 (by decide) 40000 (by decide) (by decide)
  have hlink : offset 4 = 4 := by
    have hread := (hreads ⟨3, .backpatch, 3⟩ (by simp) 4 (by decide)).1
    rw [openChain_offsets.2] at hread
    exact (EStateM.Result.ok.inj hread).1.symm
  refine ⟨g', hjump rfl, hactive, ?_, ?_⟩
  · have hread := (hreads' ⟨0, .goto, 3⟩ (by simp) 1 (by decide)).2 rfl
    rwa [Function.update_self] at hread
  · have hread := (hreads' ⟨3, .backpatch, 3⟩ (by simp) 4 (by decide)).2 rfl
    rwa [Function.update_of_ne (by decide), hlink] at hread

end ScriptCompiler
