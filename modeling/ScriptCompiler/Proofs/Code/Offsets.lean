import ScriptCompiler.Proofs.Code.Spans

/-!
# Reading and setting offsets

Whether or not the table of spans is on, reading an offset answers what the
cells say, and setting one changes that one alone. The table may come on on the
way.
-/

namespace ScriptCompiler

open Bytes SpanTable

variable {z z' delta : Int} {op : Opcode}

namespace Emit

variable {g g' : Generator} {settled k i : Nat} {cells : List (Cell Int)} {c : Cell Int}

/-- Only code and spans change; they stand for the given cells afterwards. -/
def Coded (g g' : Generator) (settled : Nat) (cells : List (Cell Int)) : Prop :=
  ∃ code spans, g' = { g with main := { g.main with code }, spans } ∧
    Codes code spans settled cells

theorem Coded.codes (h : Coded g g' settled cells) : Codes g'.main.code g'.spans settled cells := by
  obtain ⟨code, spans, rfl, hcodes⟩ := h
  exact hcodes

theorem Coded.trans {g'' : Generator} {settled' : Nat} {cells' : List (Cell Int)}
    (h : Coded g g' settled cells) (h' : Coded g' g'' settled' cells') :
    Coded g g'' settled' cells' := by
  obtain ⟨code, spans, rfl, -⟩ := h
  obtain ⟨code', spans', rfl, hcodes⟩ := h'
  exact ⟨code', spans', rfl, hcodes⟩

section

variable (h : Codes g.main.code g.spans settled cells)

include h

/-- A field of a cell lies inside the code. -/
theorem field_lt_size (hk : cells[k]? = some c) (hi : i < c.operands.arms) :
    c.field (position cells k) i < g.main.code.size := by
  have hin := c.field_bounds (position cells k) hi
  have hend := position_add_size hk (lt_of_getElem? hk)
  have hwidth := offsetWidth_pos c.wide
  rw [Cell.width] at hin
  rw [h.size]
  omega

theorem arms_of_dest (hk : cells[k]? = some c) (hz : c.dests[i]? = some z) :
    i < c.operands.arms := by
  rw [← (h.stands k c hk).shaped.count]
  exact lt_of_getElem? hz

/-- The span of a field is found. -/
theorem locateSpan_eq (hon : g.spans.active) (hk : cells[k]? = some c) (hs : settled ≤ k)
    (hz : c.dests[i]? = some z) :
    ∃ (index : Nat) (span : Span), locateSpan (c.field (position cells k) i) g = .ok (index, span) g ∧
      g.spans.spans[index]? = some span ∧ g.spans.offsetOf span = z ∧
      ∃ destination, span = ⟨position cells k, c.field (position cells k) i, destination⟩ := by
  have hi := arms_of_dest h hk hz
  have hlt := field_lt_size h hk hi
  rw [Codes, hon, if_pos rfl] at h
  have hoffset := (h.stands k c hk).offsets i z hz
  rw [OffsetAt, if_pos ⟨h.todo_le hk hs hi, hlt⟩] at hoffset
  obtain ⟨index, destination, hget, hholds, -, hz'⟩ := hoffset
  have hmark : mark index % 65536 = mark index := by
    simp only [mark, searchMark]
    omega
  refine ⟨index, _, ?_, hget, hz', destination, rfl⟩
  simp only [locateSpan, get_bind, lift_bind_ok]
  refine ⟨mark index, by rw [hholds.u16?, hmark]; rfl, ?_⟩
  rw [h.ascending.locate?_mark hget]
  rfl

/-- Reading an offset answers the offset of the cell. -/
theorem offsetAt_eq (hk : cells[k]? = some c) (hs : settled ≤ k) (hz : c.dests[i]? = some z) :
    offsetAt (c.field (position cells k) i) g = .ok z g := by
  simp only [offsetAt, get_bind]
  cases hon : g.spans.active with
  | true =>
    obtain ⟨index, span, hlocate, -, rfl, -⟩ := locateSpan_eq h hon hk hs hz
    rw [if_pos rfl, bind_of_ok hlocate]
    rfl
  | false =>
    have hi := arms_of_dest h hk hz
    rw [Codes, hon, if_neg (by simp)] at h
    have hoffset := (h.stands k c hk).offsets i z hz
    rw [OffsetAt, if_neg (by omega), h.narrow k c hk hs] at hoffset
    rw [if_neg (by simp)]
    exact mainI16_ok.mpr ⟨hoffset.holds.i16? hoffset.fits, rfl⟩

theorem offsetAt_ok (hk : cells[k]? = some c) (hs : settled ≤ k) (hz : c.dests[i]? = some z)
    (hok : offsetAt (c.field (position cells k) i) g = .ok z' g') : z' = z ∧ g' = g := by
  rw [offsetAt_eq h hk hs hz] at hok
  cases hok
  exact ⟨rfl, rfl⟩

/-- A table that is on takes a new target. -/
theorem setSpanTarget_coded (hon : g.spans.active) (hk : cells[k]? = some c)
    (hs : settled ≤ k) (hi : i < c.operands.arms) {index : Nat} {destination : Destination}
    (hget : g.spans.spans[index]? =
      some ⟨position cells k, c.field (position cells k) i, destination⟩)
    (hok : setSpanTarget index (position cells k) z g = .ok () g') :
    Coded g g' settled (cells.set k (c.setDest i z)) := by
  obtain ⟨hpos, rfl⟩ := setSpanTarget_ok hok
  have hlt := field_lt_size h hk hi
  rw [Codes, hon, if_pos rfl] at h
  obtain ⟨entry, hspans, hknown, hoffset⟩ :=
    setTarget_entry h.sound index ((position cells k : Int) + z).toNat
  have hon' : (g.spans.setTarget index ((position cells k : Int) + z).toNat).active := hon
  refine ⟨_, _, rfl, ?_⟩
  rw [Codes, hon', if_pos rfl]
  refine h.retarget hk hs hi hlt hget (grows_setTarget h.sound _ _) hspans hknown ?_
  rw [hoffset]
  omega

/-- Setting an offset sets that of the cell. -/
theorem setOffsetAt_coded (hk : cells[k]? = some c) (hs : settled ≤ k) (hi : i < c.operands.arms)
    (hok : setOffsetAt (c.field (position cells k) i) z g = .ok () g') :
    Coded g g' settled (cells.set k (c.setDest i z)) := by
  have hlt : i < c.dests.length := by rwa [(h.stands k c hk).shaped.count]
  have hz : c.dests[i]? = some c.dests[i] := List.getElem?_eq_getElem hlt
  -- once the table is on, the span is found and gets the target
  have hactive : ∀ {g₁ : Generator}, Codes g₁.main.code g₁.spans settled cells →
      g₁.spans.active → ((locateSpan (c.field (position cells k) i)) >>= fun r =>
        setSpanTarget r.1 r.2.top z) g₁ = .ok () g' →
      Coded g₁ g' settled (cells.set k (c.setDest i z)) := by
    intro g₁ h₁ hon hrun
    obtain ⟨index, _, hlocate, hget, -, destination, rfl⟩ := locateSpan_eq h₁ hon hk hs hz
    rw [bind_of_ok hlocate] at hrun
    exact setSpanTarget_coded h₁ hon hk hs hi hget hrun
  simp only [setOffsetAt, get_bind] at hok
  cases hon : g.spans.active with
  | true =>
    rw [if_neg (by simp [hon])] at hok
    exact hactive h hon hok
  | false =>
    rw [if_pos (by simp [hon])] at hok
    split at hok
    · rename_i hfits
      simp only [bind_ok] at hok
      obtain ⟨_, g₁, hset, hok⟩ := hok
      obtain ⟨-, rfl⟩ := setMainU16_ok hset
      obtain ⟨-, rfl⟩ := pure_ok.mp hok
      rw [Codes, hon, if_neg (by simp)] at h
      refine ⟨_, _, rfl, ?_⟩
      rw [Codes, hon, if_neg (by simp)]
      exact h.write hk hs hi (Nat.zero_le _) hfits
    · simp only [bind_ok] at hok
      obtain ⟨_, g₁, hbuild, hok⟩ := hok
      obtain ⟨code, spans, rfl, hon', hcodes⟩ := buildSpans_codes h hon hbuild
      have hcoded := hactive hcodes hon' (by simpa only [bind_ok] using hok)
      exact Coded.trans ⟨_, _, rfl, hcodes⟩ hcoded

end

theorem fieldOf_ok {pc n : Nat} (h : fieldOf pc g = .ok n g') : n = pc + 1 ∧ g' = g := by
  simp only [fieldOf, guard_throw_ok, pure_ok] at h
  exact ⟨h.2.1.symm, h.2.2.symm⟩

/-- The first offset of an instruction is read. -/
theorem jumpOffset_ok (hok : jumpOffset (position cells k) g = .ok z' g')
    (h : Codes g.main.code g.spans settled cells) (hk : cells[k]? = some c) (hs : settled ≤ k)
    (hz : c.dests[0]? = some z) : z' = z ∧ g' = g := by
  simp only [jumpOffset, bind_ok] at hok
  obtain ⟨field, g₁, hfield, hok⟩ := hok
  obtain ⟨rfl, rfl⟩ := fieldOf_ok hfield
  exact offsetAt_ok h hk hs hz hok

/-- The first offset of an instruction is set. -/
theorem setJumpOffset_coded (hok : setJumpOffset (position cells k) z g = .ok () g')
    (h : Codes g.main.code g.spans settled cells) (hk : cells[k]? = some c) (hs : settled ≤ k)
    (hi : 0 < c.operands.arms) : Coded g g' settled (cells.set k (c.setDest 0 z)) := by
  simp only [setJumpOffset, bind_ok] at hok
  obtain ⟨field, g₁, hfield, hok⟩ := hok
  obtain ⟨rfl, rfl⟩ := fieldOf_ok hfield
  exact setOffsetAt_coded h hk hs hi hok

/-- The opcode of a cell is overwritten. -/
theorem setOpcode_coded (c : Cell Int) (h : Codes g.main.code g.spans settled cells)
    (hk : cells[k]? = some c) (hs : settled ≤ k) (hshaped : ({ c with op } : Cell Int).Shaped) :
    Coded g { g with main :=
        { g.main with code := g.main.code.setIfInBounds (position cells k) op.toByte } }
      settled (cells.set k { c with op }) := by
  refine ⟨_, _, rfl, ?_⟩
  have hset := h.setOp hk hs hshaped
  rw [Codes, Array.size_setIfInBounds]
  exact hset

/-- A jump gets another offset, and then another opcode. -/
theorem relink_coded {op₀ : Opcode} {frame : Frame} {g₁ : Generator}
    (h : Codes g.main.code g.spans settled cells) (hk : cells[k]? = some (.jump op₀ delta frame))
    (hs : settled ≤ k) (hop : op.format = .jump)
    (hset : setJumpOffset (position cells k) z g = .ok () g₁) : Coded g { g₁ with main :=
        { g₁.main with code := g₁.main.code.setIfInBounds (position cells k) op.toByte } }
      settled (cells.set k (.jump op z frame)) := by
  have hcoded := setJumpOffset_coded hset h hk hs Nat.zero_lt_one
  have hk₁ : (cells.set k ((Cell.jump op₀ delta frame).setDest 0 z))[k]? =
      some (.jump op₀ z frame) := List.getElem?_set_self (lt_of_getElem? hk)
  have hopcode := setOpcode_coded _ hcoded.codes hk₁ hs (Cell.Shaped.of_jump hop z frame)
  have hforms : (cells.set k ((Cell.jump op₀ delta frame).setDest 0 z)).map Cell.form =
      cells.map Cell.form := map_form_set hk rfl
  rw [position_congr hforms, List.set_set] at hopcode
  exact hcoded.trans hopcode

/-- A jump becomes a link. -/
theorem setLinkDelta_coded (hok : setLinkDelta (position cells k) delta g = .ok () g')
    (h : Codes g.main.code g.spans settled cells) (hk : cells[k]? = some c) (hs : settled ≤ k)
    (hi : 0 < c.operands.arms) : Coded g g' settled (cells.set k (c.setDest 0 delta)) := by
  have hlt : 0 < c.dests.length := by rwa [(h.stands k c hk).shaped.count]
  have hz : c.dests[0]? = some c.dests[0] := List.getElem?_eq_getElem hlt
  -- once the table is on, the span is found and becomes a link
  have hactive : ∀ {g₁ : Generator}, Codes g₁.main.code g₁.spans settled cells →
      g₁.spans.active → (do
        let r ← locateSpan (position cells k + 1)
        if delta < 0 then inconsistent .negativeLink
        modify fun g => { g with spans := g.spans.setDestination r.1 (.link delta.toNat) } :
          Emit Unit) g₁ = .ok () g' →
      Coded g₁ g' settled (cells.set k (c.setDest 0 delta)) := by
    intro g₁ h₁ hon hrun
    obtain ⟨index, _, hlocate, hget, -, destination, rfl⟩ := locateSpan_eq (i := 0) h₁ hon hk hs hz
    have hlocate : locateSpan (position cells k + 1) g₁ = _ := hlocate
    rw [bind_of_ok hlocate] at hrun
    simp only [guard_inconsistent_ok, modify_ok, Int.not_lt] at hrun
    obtain ⟨hpos, rfl⟩ := hrun
    have hfield := field_lt_size h₁ hk hi
    rw [Codes, hon, if_pos rfl] at h₁
    have hon' : (g₁.spans.setDestination index (.link delta.toNat)).active := hon
    refine ⟨_, _, rfl, ?_⟩
    rw [Codes, hon', if_pos rfl]
    have hgrows : g₁.spans.Grows (g₁.spans.setDestination index (.link delta.toNat)) :=
      grows_spans h₁.sound _
    have hmodify : (g₁.spans.setDestination index (.link delta.toNat)).spans =
        g₁.spans.spans.modify index fun span => { span with destination := .link delta.toNat } := rfl
    refine h₁.retarget hk hs hi hfield hget hgrows hmodify trivial ?_
    simp only [offsetOf]
    omega
  rw [setLinkDelta, bind_ok] at hok
  obtain ⟨field, g₁, hfield, hok⟩ := hok
  obtain ⟨rfl, rfl⟩ := fieldOf_ok hfield
  simp only [get_bind] at hok
  cases hon : g₁.spans.active with
  | true =>
    rw [if_neg (by simp [hon])] at hok
    simp only [guard_tooLarge_ok, get_bind, hon, Bool.not_true, Bool.false_eq_true, if_false] at hok
    exact hactive h hon hok.2
  | false =>
    by_cases hsmall : delta < 32767
    · rw [if_pos (by simp [hon, hsmall])] at hok
      simp only [guard_inconsistent_ok, Bool.not_eq_true', Bool.not_eq_false, bind_ok] at hok
      obtain ⟨hfits, _, g₂, hset, hok⟩ := hok
      obtain ⟨-, rfl⟩ := setMainU16_ok hset
      obtain ⟨-, rfl⟩ := pure_ok.mp hok
      rw [Codes, hon, if_neg (by simp)] at h
      refine ⟨_, _, rfl, ?_⟩
      rw [Codes, hon, if_neg (by simp)]
      exact h.write hk hs hi (Nat.zero_le _) hfits
    · rw [if_neg (by simp [hsmall])] at hok
      simp only [guard_tooLarge_ok, get_bind, hon, Bool.not_false, if_true] at hok
      rw [bind_ok] at hok
      obtain ⟨-, _, g₂, hbuild, hok⟩ := hok
      obtain ⟨code, spans, rfl, hon', hcodes⟩ := buildSpans_codes h hon hbuild
      exact Coded.trans ⟨_, _, rfl, hcodes⟩ (hactive hcodes hon' hok)

end Emit

end ScriptCompiler
