import ScriptCompiler.Proofs.Draft.Closing
import ScriptCompiler.Proofs.Unit.Encoding

/-!
# Finishing a unit

When a unit is finished, its last spans are resolved and its sections are joined.
What comes out encodes the program that its draft has become.
-/

namespace ScriptCompiler

open Bytes Emit

/-! ## The steps of finishing -/

/-- Resolving the spans turns the table of spans off. -/
theorem resolveSpans_inactive {g g' : Generator} (hok : resolveSpans g = .ok () g') :
    g'.spans.active = false := by
  cases hon : g.spans.active with
  | false =>
    obtain rfl := resolveSpans_off hon hok
    exact hon
  | true =>
    obtain ⟨-, -, code, notes, last, regions, -, -, -, -, -, rfl⟩ := resolveSpans_ok hon hok
    rfl

/-- Joining the notes changes nothing else. -/
theorem joinNotes_ok {g g' : Generator} {notes : Bytes} (hmain : g.current = .main)
    (hok : joinNotes g = .ok notes g') :
    ∃ prolog main, g' = { g with prolog, main } ∧ prolog.code = g.prolog.code ∧
      main.code = g.main.code := by
  simp only [joinNotes, get_bind] at hok
  split at hok
  · simp only [switchTo, modify_bind, bind_ok, get_bind, pure_ok] at hok
    obtain ⟨_, g₁, hnote, -, rfl⟩ := hok
    obtain ⟨notes, last, line, rfl⟩ := note1_noted hnote
    exact ⟨{ g.prolog with notes, lastNoteOffset := last, line }, g.main,
      by simp [Generator.modifySection, ← hmain], rfl, rfl⟩
  · simp only [guard_throw_ok] at hok
    obtain ⟨-, hok⟩ := hok
    have hsame : ∃ prolog main, g = { g with prolog, main } ∧ prolog.code = g.prolog.code ∧
        main.code = g.main.code := ⟨g.prolog, g.main, rfl, rfl, rfl⟩
    cases hlead : g.main.notes[0]? with
    | none =>
      simp only [hlead, get_bind, pure_ok] at hok
      obtain ⟨-, rfl⟩ := hok
      exact hsame
    | some lead =>
      simp only [hlead] at hok
      split at hok
      · simp only [bind_ok, lift_ok, modify_ok, get_bind, pure_ok] at hok
        obtain ⟨more, _, ⟨-, rfl⟩, _, _, rfl, -, rfl⟩ := hok
        exact ⟨g.prolog, { g.main with notes := more }, rfl, rfl, rfl⟩
      · simp only [get_bind, pure_ok] at hok
        obtain ⟨-, rfl⟩ := hok
        exact hsame

/-- What a finished script holds. -/
theorem finish_ok {g g' : Generator} {s : Script} (hmain : g.current = .main)
    (hok : finish g = .ok s g') :
    ∃ g₁, resolveSpans g = .ok () g₁ ∧ (g₁.current = .main →
      s.code = g₁.prolog.code ++ g₁.main.code ∧ s.mainOffset = g₁.prolog.code.size ∧
      s.regions = g₁.regions ∧ s.literals = g₁.literals.entries ∧ s.functions = g₁.functions ∧
      s.maxStackDepth = g₁.depth.high ∧ s.warnings = g₁.warnings) := by
  simp only [finish, switchTo, modify_bind, bind_ok, get_bind, pure_ok] at hok
  obtain ⟨_, g₁, hresolve, notes, g₂, hjoin, rfl, -⟩ := hok
  rw [show ({ g with current := .main } : Generator) = g by rw [← hmain]] at hresolve
  refine ⟨g₁, hresolve, fun hmain₁ => ?_⟩
  obtain ⟨prolog, main, rfl, hprolog, hcode⟩ := joinNotes_ok hmain₁ hjoin
  exact ⟨by rw [hprolog, hcode], by rw [hprolog], rfl, rfl, rfl, rfl, rfl⟩

/-! ## Code behind other code -/

section Behind

variable {δ : Type} {front code : Bytes} {c : Cell δ} {pc : Nat}

theorem holds_behind {pos : Nat} {bytes : List UInt8} (h : Holds code pos bytes) :
    Holds (front ++ code) (front.size + pos) bytes := fun k hk => by
  rw [← h k hk, Nat.add_assoc, Array.getElem?_append_right (Nat.le_add_right _ _),
    Nat.add_sub_cancel_left]

theorem Cell.field_behind (n i : Nat) : c.field (n + pc) i = n + c.field pc i := by
  cases i with
  | zero => rfl
  | succ i =>
    simp only [field, Operands.field]
    omega

theorem Cell.raws_behind {n : Nat} {raw : Nat × List UInt8} (h : raw ∈ c.raws (n + pc)) :
    ∃ raw' ∈ c.raws pc, raw = (n + raw'.1, raw'.2) := by
  simp only [raws] at h ⊢
  generalize c.operands = operands at h ⊢
  cases operands with
  | plain bytes =>
    obtain rfl := List.mem_singleton.mp h
    exact ⟨_, List.mem_singleton.mpr rfl, by simp only [Nat.add_assoc]⟩
  | jump => cases h
  | table low high =>
    obtain rfl := List.mem_singleton.mp h
    exact ⟨_, List.mem_singleton.mpr rfl, by simp only [Nat.add_assoc]⟩
  | lookup literals =>
    rcases List.mem_cons.mp h with rfl | h
    · exact ⟨_, List.mem_cons_self .., by simp only [Nat.add_assoc]⟩
    · obtain ⟨p, hp, rfl⟩ := List.mem_map.mp h
      exact ⟨_, List.mem_cons_of_mem _ (List.mem_map_of_mem hp), by simp only [Nat.add_assoc]⟩

end Behind

/-! ## Hoisted declarations -/

theorem Declares.shaped {literals functions : Nat} {c : Cell Nat}
    (h : Declares literals functions c) : c.Shaped ∧ c.opcode = c.op ∧
      ∃ op i, c = .plain op (le16 i).toList ⟨0⟩ := by
  obtain ⟨i, -, ⟨-, rfl⟩ | ⟨-, rfl⟩⟩ := h
  · exact ⟨.of_plain rfl rfl _, rfl, _, i, rfl⟩
  · exact ⟨.of_plain rfl rfl _, rfl, _, i, rfl⟩

/-- Hoisted declarations stand one behind the other. -/
theorem holds_prolog {literals functions : Nat} {cells : List (Cell Nat)}
    (h : ∀ c ∈ cells, Declares literals functions c) :
    (cells.flatMap Cell.bytes).length = position cells cells.length ∧
      ∀ (k : Nat) (c : Cell Nat), cells[k]? = some c → ∃ pre post,
        cells.flatMap Cell.bytes = pre ++ c.bytes ++ post ∧ pre.length = position cells k := by
  induction cells with
  | nil => exact ⟨rfl, fun k c hk => by cases hk⟩
  | cons d cells ih =>
    obtain ⟨hlength, hcells⟩ := ih fun c hc => h c (List.mem_cons_of_mem _ hc)
    have hsize : d.bytes.length = d.size := by
      obtain ⟨-, -, op, i, rfl⟩ := (h d (List.mem_cons_self ..)).shaped
      simp [Cell.bytes, Cell.plain, Cell.size, Operands.size, Nat.add_comm]
    rw [List.flatMap_cons]
    refine ⟨by rw [List.length_append, hsize, hlength, List.length_cons, position_cons_succ],
      fun k c hk => ?_⟩
    cases k with
    | zero =>
      cases hk
      exact ⟨[], cells.flatMap Cell.bytes, rfl, (position_zero _).symm⟩
    | succ k =>
      obtain ⟨pre, post, hsplit, hpre⟩ := hcells k c hk
      refine ⟨d.bytes ++ pre, post, by rw [hsplit]; simp, ?_⟩
      rw [List.length_append, hsize, hpre, position_cons_succ]

/-! ## The program of a draft -/

/-- What is known of a program besides its code. -/
structure Program.Sound (P : Program) : Prop where
  final : ∀ c ∈ P.main, c.op.spec.placeholder = false
  literal : ∀ c ∈ P.main, c.op.format = .literal → c.operands.immediate < P.literals.length
  function : ∀ c ∈ P.main, c.op.format = .function → c.operands.immediate < P.functions.length
  prolog : ∀ c ∈ P.prolog, Declares P.literals.length P.functions.length c

namespace Draft

variable {a : Draft} {g : Generator}

/-- Where the filled holes of a draft lead. -/
def leads (a : Draft) (h : Hole) : Nat := (a.filled h).getD 0

theorem fills_leads : Fills a.leads (a.program a.leads) 0 a :=
  fills_program fun hole t ht => by rw [leads, ht, Option.getD_some]

theorem form_closed (fill : Hole → Nat) (k : Nat) (c : Cell Hole) :
    (c.closed fill k).form = c.form := by
  simp only [Cell.form, Cell.closed]
  cases c.operands with
  | lookup literals =>
    simp only [Operands.closed, Operands.form, List.map_map, Prod.mk.injEq, and_true,
      Operands.lookup.injEq]
    refine List.ext_getElem? fun i => ?_
    simp only [List.getElem?_map]
    by_cases hi : i < literals.length <;> simp [hi]
  | _ => rfl

theorem position_program (fill : Hole → Nat) (k : Nat) :
    position (a.program fill).main k = position a.main k := by
  refine position_congr (List.ext_getElem? fun k => ?_) k
  simp only [program, List.getElem?_map, List.getElem?_mapIdx, Option.map_map]
  cases a.main[k]? with
  | none => rfl
  | some c => simp [form_closed]

theorem length_program (fill : Hole → Nat) : (a.program fill).main.length = a.main.length := by
  simp [program]

theorem of_getElem?_program {fill : Hole → Nat} {k : Nat} {c : Cell Nat}
    (hk : (a.program fill).main[k]? = some c) : ∃ d, a.main[k]? = some d ∧ c = d.closed fill k := by
  simp only [program, List.getElem?_mapIdx, Option.map_eq_some_iff] at hk
  obtain ⟨d, hd, rfl⟩ := hk
  exact ⟨d, hd, rfl⟩

theorem Sound.program (h : a.Sound) (fill : Hole → Nat) : (a.program fill).Sound where
  final := fun c hc => by
    obtain ⟨k, hk⟩ := List.mem_iff_getElem?.mp hc
    obtain ⟨d, hd, rfl⟩ := of_getElem?_program hk
    exact (h.cells k d hd).final
  literal := fun c hc hformat => by
    obtain ⟨k, hk⟩ := List.mem_iff_getElem?.mp hc
    obtain ⟨d, hd, rfl⟩ := of_getElem?_program hk
    show (d.operands.closed fill k).immediate < _
    rw [Operands.immediate_closed]
    exact (h.cells k d hd).literal hformat
  function := fun c hc hformat => by
    obtain ⟨k, hk⟩ := List.mem_iff_getElem?.mp hc
    obtain ⟨d, hd, rfl⟩ := of_getElem?_program hk
    show (d.operands.closed fill k).immediate < _
    rw [Operands.immediate_closed]
    exact (h.cells k d hd).function hformat
  prolog := h.prolog

/-- The operands that stand in the code are those of the program. -/
theorem operands_leads (o : Operands) (k : Nat) : o.closed a.leads k = o.standing a.filled k := by
  cases o <;> rfl

/-- A cell of a closed draft as it stands in the code and in the program. -/
theorem Closed.shown_eq (h : a.Closed) {k : Nat} {c : Cell Hole} (hk : a.main[k]? = some c) :
    (c.shown a.filled a.main k).op = (c.closed a.leads k).op ∧
      (c.shown a.filled a.main k).wide = (c.closed a.leads k).wide ∧
      (c.shown a.filled a.main k).operands = (c.closed a.leads k).operands :=
  ⟨h.shown_op hk _, rfl, (operands_leads _ _).symm⟩

end Draft

section Encoding

variable {g : Generator} {a : Draft} {s : Script} {k : Nat} {c : Cell Nat}

/-- The body starts behind the hoisted declarations. -/
theorem Built.offset_program (h : Built g a) (k : Nat) :
    (a.program a.leads).offset k = g.prolog.code.size + position a.main k := by
  have hfront : g.prolog.code.size = position a.prolog a.prolog.length := by
    rw [← (holds_prolog h.sound.prolog).1, ← h.prolog, Array.length_toList]
  rw [Program.offset, Program.cells, position_append_length, Draft.position_program, hfront]
  rfl

/-- A hoisted declaration is in place. -/
theorem Built.stands_prolog (h : Built g a) (hcode : s.code = g.prolog.code ++ g.main.code)
    (hk : a.prolog[k]? = some c) :
    c.Shaped ∧ s.code[position a.prolog k]? = some c.opcode.toByte ∧
      ∀ raw ∈ c.raws (position a.prolog k), Holds s.code raw.1 raw.2 := by
  obtain ⟨pre, post, hsplit, hpre⟩ := (holds_prolog h.sound.prolog).2 k c hk
  obtain ⟨hshaped, hopcode, op, i, rfl⟩ := (h.sound.prolog c (List.mem_of_getElem? hk)).shaped
  have hall : s.code.toList = pre ++ (Cell.plain op (le16 i).toList ⟨0⟩ : Cell Nat).bytes ++
      (post ++ g.main.code.toList) := by
    rw [hcode, Array.toList_append, h.prolog, hsplit]
    simp
  have hholds := holds_of_toList hall
  rw [Cell.bytes, holds_cons] at hholds
  rw [← hpre]
  refine ⟨hshaped, by rw [hopcode]; exact hholds.1, fun raw hraw => ?_⟩
  obtain rfl := List.mem_singleton.mp hraw
  exact hholds.2

/-- A cell of the body is in place, and its offsets lead to the cells of its destinations. -/
theorem Drafted.stands_main (h : Drafted g a) (hclosed : a.Closed) (hoff : g.spans.active = false)
    (hcode : s.code = g.prolog.code ++ g.main.code) (hk : (a.program a.leads).main[k]? = some c) :
    c.Shaped ∧ s.code[(a.program a.leads).offset k]? = some c.opcode.toByte ∧
      (∀ raw ∈ c.raws ((a.program a.leads).offset k), Holds s.code raw.1 raw.2) ∧
      ∀ (i t : Nat), c.dests[i]? = some t → Direct s.code c.wide
        (c.field ((a.program a.leads).offset k) i)
        (((a.program a.leads).offset t : Int) - (a.program a.leads).offset k) := by
  have hoffset := h.built.offset_program
  have hcodes : Layered g.main.code g.spans 0 a.settled a.cells := by
    have hlayered := h.built.code
    rwa [Codes, hoff] at hlayered
  obtain ⟨d, hd, rfl⟩ := Draft.of_getElem?_program hk
  obtain ⟨hop, hwide, hoperands⟩ := hclosed.shown_eq hd
  have hcell := hcodes.stands k _ (Draft.getElem?_cells hd)
  rw [Draft.position_cells] at hcell
  have hopcode : (d.shown a.filled a.main k).opcode = (d.closed a.leads k).opcode := by
    rw [Cell.opcode, Cell.opcode, hop, hwide]
  have hwidth : (d.shown a.filled a.main k).width = (d.closed a.leads k).width := by
    rw [Cell.width, Cell.width, hwide]
  refine ⟨⟨?_, ?_, ?_⟩, ?_, fun raw hraw => ?_, fun i t ht => ?_⟩
  · rw [← hoperands, ← hcell.shaped.count]
    simp [Cell.closed, Cell.shown]
  · rw [← hoperands, ← hop]
    exact hcell.shaped.fits
  · rw [← hop, ← hwide]
    exact hcell.shaped.twin
  · rw [hoffset, hcode, Array.getElem?_append_right (Nat.le_add_right _ _),
      Nat.add_sub_cancel_left, ← hopcode]
    exact hcell.opcode
  · rw [hoffset] at hraw
    obtain ⟨raw', hraw', rfl⟩ := Cell.raws_behind hraw
    rw [Cell.raws, ← hoperands, ← hwidth] at hraw'
    rw [hcode]
    exact holds_behind (hcell.raws raw' hraw')
  · obtain ⟨hole, hhole, rfl⟩ : ∃ hole, d.dests[i]? = some hole ∧ a.leads hole = t := by
      simpa [Cell.closed] using ht
    obtain ⟨t, -, ht, hz⟩ := hclosed.offset hd (List.mem_of_getElem? hhole) a.main
    have hat := hcell.offsets i _ (show (d.dests.map _)[i]? = _ by
      rw [List.getElem?_map, hhole]; rfl)
    rw [OffsetAt, if_neg (by omega), hz] at hat
    have hlead : a.leads hole = t := by rw [Draft.leads, ht, Option.getD_some]
    rw [hlead, hoffset, hoffset, hcode, Cell.field_behind, Cell.field, ← hoperands, ← hwidth]
    have hdifference : ((g.prolog.code.size + position a.main t : Nat) : Int) -
        (g.prolog.code.size + position a.main k : Nat) =
        (position a.main t : Int) - position a.main k := by omega
    rw [hdifference, ← hwide]
    exact ⟨hat.fits, holds_behind hat.holds⟩

/-- The regions protect what the draft says. -/
theorem Built.protects (h : Built g a) : List.Forall₂ (a.program a.leads).Protects
    g.regions.toList (a.program a.leads).regions := by
  have hcount : g.regions.toList.length = a.regions.length := by
    rw [Array.length_toList, h.closed]
  refine List.forall₂_iff_get.mpr ⟨hcount, fun i hi hi' => ?_⟩
  have hr : g.regions[i]? = some (g.regions.toList.get ⟨i, hi⟩) := by
    rw [← Array.getElem?_toList, List.get_eq_getElem, List.getElem?_eq_getElem hi]
  have he : a.regions[i]? = some ((a.program a.leads).regions.get ⟨i, hi'⟩) := by
    rw [List.get_eq_getElem]
    exact List.getElem?_eq_getElem hi'
  obtain ⟨hkind, hdepth, hstart, hstop⟩ := h.regions i _ _ hr he
  refine ⟨hkind, hdepth, ?_, ?_⟩
  · rw [h.offset_program, h.offset_program, position_zero, Nat.add_zero, hstart]
  · rw [h.offset_program, h.offset_program, position_zero, Nat.add_zero, Nat.add_assoc, hstop]

/-- A script that holds a closed draft encodes its program. -/
theorem Drafted.encodes (h : Drafted g a) (hclosed : a.Closed) (hoff : g.spans.active = false)
    (hcode : s.code = g.prolog.code ++ g.main.code) (hstart : s.mainOffset = g.prolog.code.size)
    (hregions : s.regions = g.regions) (hliterals : s.literals = g.literals.entries)
    (hfunctions : s.functions = g.functions) (hhigh : s.maxStackDepth = g.depth.high) :
    Encodes s (a.program a.leads) where
  size := by
    rw [hcode, Array.size_append, h.built.size, Program.length_cells, Draft.length_program]
    exact (h.built.offset_program a.main.length).symm
  start := by rw [hstart, h.built.offset_program, position_zero, Nat.add_zero]
  stands k c hk := by
    have hcells : (a.program a.leads).cells = a.prolog ++ (a.program a.leads).main := rfl
    rw [Nat.zero_add]
    rcases Nat.lt_or_ge k a.prolog.length with hlt | hge
    · rw [hcells, List.getElem?_append_left hlt] at hk
      rw [hcells, position_append (Nat.le_of_lt hlt)]
      exact h.built.stands_prolog hcode hk
    · rw [hcells, List.getElem?_append_right hge] at hk
      obtain ⟨hshaped, hopcode, hraws, -⟩ := h.stands_main hclosed hoff hcode hk
      have hposition : (a.program a.leads).offset (k - a.prolog.length) =
          position (a.program a.leads).cells k := by
        rw [Program.offset]
        exact congrArg _ (Nat.add_sub_cancel' hge)
      rw [hposition] at hopcode hraws
      exact ⟨hshaped, hopcode, hraws⟩
  offsets k c hk := (h.stands_main hclosed hoff hcode hk).2.2.2
  literals := by rw [hliterals]; exact h.built.literals
  functions := by rw [hfunctions]; exact h.built.functions
  regions := by rw [hregions]; exact h.built.protects
  high := by rw [hhigh, h.built.depth]; rfl

end Encoding

end ScriptCompiler
