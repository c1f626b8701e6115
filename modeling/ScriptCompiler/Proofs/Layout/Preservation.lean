import ScriptCompiler.Layout.Resolution
import ScriptCompiler.Generator.Jumps
import ScriptCompiler.Proofs.Emission
import ScriptCompiler.Proofs.Layout.Covering
import ScriptCompiler.Proofs.Layout.Minimality
import ScriptCompiler.Proofs.SpanTable

/-!
# Resolution preserves the code

Resolving the spans of a generator keeps every instruction. Each stands where
the growth in front of it puts it, possibly as its wide twin, with its operands
unchanged and with every offset measured anew to where its target has moved.
-/

namespace ScriptCompiler

open Instruction Emit

variable {i : Instruction} {g g' : Generator}

/-- The jump offset at a position, as wide as the opcode says. -/
def offsetIn? (code : Bytes) (op : Opcode) (position : Nat) : Option Int :=
  if op.isWide then Bytes.i32? code position else Bytes.i16? code position

/-- Main code since the last resolution is made of narrow instructions, and the table of spans
lists all their offsets. -/
structure Recorded (g : Generator) (is : List Instruction) : Prop where
  /-- The table is on. -/
  active : g.spans.active = true
  /-- The code is made of whole instructions. -/
  whole : Whole g.main.code g.spans.todo is
  /-- Wide forms only come from resolution. -/
  narrow : ∀ i ∈ is, i.op.isWide = false
  /-- The spans are the offsets, in order. -/
  listed : Layout.Lists g.spans.spans.toList is
  /-- Each field holds the position of its span. -/
  marked : ∀ k span, g.spans.spans[k]? = some span →
    Bytes.u16? g.main.code span.field = some (SpanTable.mark k)

/-- The promoted instructions of a resolution say where every byte has gone. -/
structure Preserved (g g' : Generator) (is : List Instruction) (promoted : Instruction → Bool)
    (at' : Nat → Nat) : Prop where
  /-- A byte moves by two for each offset of a promoted instruction in front of it. -/
  moved : at' = Layout.grown ((is.filter promoted).flatMap Instruction.fields)
  /-- Promoted instructions have a wide twin. -/
  twin : ∀ i ∈ is, promoted i = true → i.op.widened.isSome = true
  /-- The code ends where its end has moved. -/
  size : g'.main.code.size = at' g.main.code.size
  /-- What had been resolved before stays. -/
  settled : ∀ x < g.spans.todo, g'.main.code[x]? = g.main.code[x]?
  /-- The instructions follow one another without gaps. -/
  whole : Whole g'.main.code g.spans.todo (is.map fun i => i.relocate at' (promoted i))
  /-- Operands that are no offsets are unchanged. -/
  operands : ∀ i ∈ is, ∀ x, i.pc < x → x < i.pc + i.length →
    (∀ field ∈ i.fields, x < field ∨ field + 2 ≤ x) → g'.main.code[at' x]? = g.main.code[x]?
  /-- The offsets of the relocated instruction are the relocated offsets. -/
  fields : ∀ i ∈ is, (i.relocate at' (promoted i)).fields = i.fields.map at'
  /-- An offset that led from `i` to a target leads to where the target has moved. -/
  offsets : ∀ i ∈ is, ∀ field ∈ i.fields, ∃ offset : Int, Emit.offsetAt field g = .ok offset g ∧
    0 ≤ (i.pc : Int) + offset ∧
    offsetIn? g'.main.code (i.relocate at' (promoted i)).op (at' field) =
      some ((at' ((i.pc : Int) + offset).toNat : Int) - at' i.pc)

namespace Layout

theorem jumpLen_of_narrow (hnarrow : i.op.isWide = false) :
    i.op.format.jumpLen = none ∨ i.op.format.jumpLen = some 2 := by
  cases hj : i.op.format.jumpLen with
  | none => exact .inl rfl
  | some width =>
    rcases Format.jumpLen_eq hj with rfl | rfl
    · exact .inr rfl
    · simp [Opcode.isWide, hj] at hnarrow

/-- Listed spans have ascending fields. -/
theorem pairwise_fields {code : Bytes} {is : List Instruction} {pc : Nat} (hw : Whole code pc is)
    (hnarrow : ∀ i ∈ is, i.op.isWide = false) :
    (is.flatMap Instruction.fields).Pairwise (· < ·) ∧
      ∀ field ∈ is.flatMap Instruction.fields, pc < field := by
  induction is generalizing pc with
  | nil => simp
  | cons i is ih =>
    obtain ⟨rfl, hop, hlen, hrest⟩ := hw
    obtain ⟨hpair, hlow⟩ := ih hrest fun j hj => hnarrow j (by simp [hj])
    have hordered := i.fieldsOrdered hop hlen (hnarrow i (by simp))
    obtain ⟨-, hown⟩ := fieldsOrdered_bounds hordered
    have hascend : ∀ {lo hi : Nat} {fields : List Nat}, FieldsOrdered lo fields hi →
        fields.Pairwise (· < ·) := by
      intro lo hi fields h
      induction fields generalizing lo with
      | nil => exact .nil
      | cons field fields ih =>
        refine List.pairwise_cons.mpr ⟨fun f hf => ?_, ih h.2⟩
        have := (fieldsOrdered_bounds h.2).2 f hf
        omega
    rw [List.flatMap_cons]
    refine ⟨List.pairwise_append.mpr ⟨hascend hordered, hpair, ?_⟩, ?_⟩
    · intro a ha b hb
      have := hown a ha
      have := hlow b hb
      omega
    · intro field hf
      rcases List.mem_append.mp hf with hf | hf
      · have := hown field hf
        omega
      · have := hlow field hf
        omega

end Layout

/-- The table of recorded instructions is searchable. -/
theorem Recorded.ascending {is : List Instruction} (h : Recorded g is) : g.spans.Ascending := by
  have hsame : g.spans.spans.toList.map Span.field = is.flatMap Instruction.fields := by
    have hsecond := congrArg (List.map Prod.snd) h.listed
    simpa [List.map_flatMap, Function.comp_def] using hsecond
  have hpair := (Layout.pairwise_fields h.whole h.narrow).1
  rw [← hsame] at hpair
  exact List.pairwise_map.mp hpair

/-- The offset in a recorded field is that of its span. -/
theorem Recorded.offsetAt {is : List Instruction} (h : Recorded g is) {span : Span}
    (hs : span ∈ g.spans.spans.toList) :
    Emit.offsetAt span.field g = .ok (g.spans.offsetOf span) g := by
  obtain ⟨k, hk⟩ := List.getElem?_of_mem hs
  rw [Array.getElem?_toList] at hk
  have hlocate := h.ascending.locate?_mark hk
  have hmark := h.marked k span hk
  simp [Emit.offsetAt, locateSpan, h.active, bind_ok, hmark, Error.inBounds, hlocate,
    Error.orInconsistent]

namespace Layout

section Relocated

variable {code code' : Bytes} {todo : Nat} {is : List Instruction} {spans : List Span}
  {sites : List Site} {targets : TargetIndex} {wide : Nat → Bool}

/-- The fields of an instruction lie behind its opcode and inside it. -/
theorem fields_inside (hw : Whole code todo is) (hnarrow : ∀ i ∈ is, i.op.isWide = false)
    (hi : i ∈ is) : ∀ field ∈ i.fields, i.pc + 1 ≤ field ∧ field + 2 ≤ i.pc + i.length := by
  obtain ⟨-, -, hop, hlen⟩ := hw.bounds.2 i hi
  exact (fieldsOrdered_bounds (i.fieldsOrdered hop hlen (hnarrow i hi))).2

/-- The site at an instruction has its offsets. -/
theorem Mirrors.fields_of_top (hw : Whole code todo is) (hm : Mirrors is spans sites) (hi : i ∈ is)
    {site : Site} (hs : site ∈ sites) (htop : site.top = i.pc) :
    site.arms.map Arm.field = i.fields := by
  obtain ⟨j, hj, hpc, -, hfields⟩ := hm.exists_instruction hs
  have hpos := instructionLength?_pos (hw.bounds.2 i hi).2.2.1 (hw.bounds.2 i hi).2.2.2
  have hpos' := instructionLength?_pos (hw.bounds.2 j hj).2.2.1 (hw.bounds.2 j hj).2.2.2
  rcases eq_or_apart hw hi hj with rfl | happart
  · exact hfields.symm
  · omega

/-- Sites that mirror instructions are among them. -/
theorem Mirrors.covers (hw : Whole code todo is) (hnarrow : ∀ i ∈ is, i.op.isWide = false)
    (hm : Mirrors is spans sites) : Covers is sites where
  instruction site hs := by
    obtain ⟨i, hi, htop, hop, hfields⟩ := hm.exists_instruction hs
    refine ⟨i, hi, htop, hop, fun arm ha => ?_, fun _ => hfields.symm⟩
    have := fields_inside hw hnarrow hi arm.field (by rw [hfields]; exact List.mem_map_of_mem ha)
    omega
  narrow := hm.narrow hnarrow

/-- An instruction is promoted if it has offsets and its site is wide. -/
theorem Mirrors.promoted_eq (hw : Whole code todo is) (hnarrow : ∀ i ∈ is, i.op.isWide = false)
    (hm : Mirrors is spans sites) (wide : Nat → Bool) (hi : i ∈ is) :
    promoted sites wide i = (wide i.pc && !i.fields.isEmpty) := by
  rw [Bool.eq_iff_iff, promoted_iff, Bool.and_eq_true, Bool.not_eq_true', List.isEmpty_eq_false_iff]
  constructor
  · rintro ⟨site, hs, htop, hwide⟩
    obtain ⟨-, hne, -⟩ := (sitesOrdered_of_whole hw hnarrow hm.same).bounds site hs
    rw [← hm.fields_of_top hw hi hs htop, ← htop]
    exact ⟨hwide, fun hnil => hne (List.map_eq_nil_iff.mp hnil)⟩
  · rintro ⟨hwide, hne⟩
    obtain ⟨site, hs, htop, -⟩ := hm.exists_site hi hne
    exact ⟨site, hs, htop, htop ▸ hwide⟩

/-- A relocated jump or switch has the format of the narrow one, in its new width. -/
theorem relocate_format (hm : Mirrors is spans sites) (hp : Promotable sites wide) (at' : Nat → Nat)
    (hi : i ∈ is) (hj : i.op.format.jumpLen = some 2) :
    (i.relocate at' (wide i.pc)).op.format.jumpLen = some (Bytes.offsetWidth (wide i.pc)) ∧
      (i.relocate at' (wide i.pc)).op.format.isSwitch = i.op.format.isSwitch ∧
      (i.relocate at' (wide i.pc)).op.format.isTable = i.op.format.isTable := by
  cases hwi : wide i.pc with
  | false => exact ⟨hj, rfl, rfl⟩
  | true =>
    have hne : i.fields ≠ [] := by simp [Instruction.fields, hj]
    obtain ⟨site, hs, htop, hsop, -⟩ := hm.exists_site hi hne
    have hsome := hp site hs (by rw [htop, hwi])
    rw [hsop] at hsome
    obtain ⟨twin, htwin⟩ := Option.isSome_iff_exists.mp hsome
    obtain ⟨-, hlen, hswitch, htable⟩ := Opcode.widened_format htwin
    simp only [Instruction.relocate, htwin, Option.getD_some, if_true]
    exact ⟨hlen, hswitch, htable⟩

/-- Arms at equal distances in front of one of them. -/
theorem countP_range_lt {base stride : Nat} (hstride : 0 < stride) {n k : Nat} (hk : k ≤ n) :
    ((List.range n).map fun j => base + stride * j).countP (· < base + stride * k) = k := by
  have hlt : ∀ j, decide (base + stride * j < base + stride * k) = decide (j < k) := by
    intro j
    rw [decide_eq_decide, Nat.add_lt_add_iff_left, Nat.mul_lt_mul_left hstride]
  have hcount : ∀ n, k ≤ n → (List.range n).countP (· < k) = k := by
    intro n hn
    induction n with
    | zero =>
      have : k = 0 := by omega
      subst this
      rfl
    | succ n ih =>
      rw [List.range_succ, List.countP_append, List.countP_singleton]
      rcases Nat.lt_or_eq_of_le hn with h | rfl
      · rw [ih (by omega), if_neg (by simp; omega), Nat.add_zero]
      · have hbelow : (List.range n).countP (· < n + 1) = (List.range n).length := by
          apply countP_lt_eq_length
          intro w hw
          have := List.mem_range.mp hw
          omega
        rw [hbelow, List.length_range, if_pos (by simp)]
  have hindex : ((fun w => decide (w < base + stride * k)) ∘ fun j => base + stride * j) =
      fun j => decide (j < k) := funext hlt
  rw [List.countP_map, hindex]
  exact hcount n hk

/-- In front of an arm of a narrow switch lie its default and the arms before it. -/
theorem countP_switch_lt (hj : i.op.format.jumpLen = some 2) (hs : i.op.format.isSwitch)
    {k : Nat} (hk : k ≤ i.armCount 2) :
    i.fields.countP (· < i.pc + 7 + i.armStride 2 * k) = k + 1 := by
  have hstride : 0 < i.armStride 2 := by
    simp only [armStride]
    split <;> omega
  rw [fields_switch hj hs, List.countP_cons_of_pos (by simp; omega),
    countP_range_lt hstride hk]

/-- Number of arms of a relocated switch. -/
theorem armCount_relocate (hop : opcodeAt? code i.pc = some i.op)
    (hlen : instructionLength? code i.pc = some i.length) (hj : i.op.format.jumpLen = some 2)
    (hs : i.op.format.isSwitch) {at' : Nat → Nat} {b : Bool}
    (htable : (i.relocate at' b).op.format.isTable = i.op.format.isTable) :
    (i.relocate at' b).armCount (Bytes.offsetWidth b) = i.armCount 2 := by
  have hlength := i.length_switch hop hlen hj hs
  have hcount : i.fields.length = i.armCount 2 + 1 := by
    rw [fields_switch hj hs]
    simp
  obtain ⟨n, hn⟩ : ∃ n, n = i.armCount 2 := ⟨_, rfl⟩
  rw [← hn] at hlength hcount ⊢
  simp only [armCount, armStride, htable, Bytes.offsetWidth] at hlength ⊢
  have hsize : (i.relocate at' b).length = i.length + if b then 2 * (n + 1) else 0 := by
    simp [Instruction.relocate, hcount]
  rw [hsize, hlength]
  cases i.op.format.isTable <;> cases b <;>
    simp only [if_true, if_false, Bool.false_eq_true] <;> omega

/-- The offsets of a relocated instruction are the relocated offsets. -/
theorem fields_relocated (hw : Whole code todo is) (hnarrow : ∀ i ∈ is, i.op.isWide = false)
    (hm : Mirrors is spans sites) (hp : Promotable sites wide) (hi : i ∈ is) :
    (i.relocate (grown (promotedFields is wide)) (wide i.pc)).fields =
      i.fields.map (grown (promotedFields is wide)) := by
  obtain ⟨-, -, hop, hlen⟩ := hw.bounds.2 i hi
  have hpos := instructionLength?_pos hop hlen
  have hfirst : grown (promotedFields is wide) (i.pc + 1) =
      grown (promotedFields is wide) i.pc + 1 := by
    rw [grown_inside hw hnarrow wide hi (by omega) (by omega), countP_lt_eq_zero]
    · simp
    · intro w hfield
      exact (fields_inside hw hnarrow hi w hfield).1
  rcases jumpLen_of_narrow (hnarrow i hi) with hj | hj
  · have hplain := Opcode.widened_eq_none hj
    rw [fields_plain hj, fields_plain]
    · rfl
    · simp [Instruction.relocate, hplain, hj]
  · obtain ⟨hj', hswitch, htable⟩ :=
      relocate_format hm hp (grown (promotedFields is wide)) hi hj
    cases hs : i.op.format.isSwitch with
    | false =>
      rw [fields_jump hj hs, fields_jump hj' (by rw [hswitch, hs])]
      simp [Instruction.relocate, hfirst]
    | true =>
      rw [fields_switch hj hs, fields_switch hj' (by rw [hswitch, hs]),
        armCount_relocate hop hlen hj hs htable, List.map_cons, List.map_map, hfirst]
      congr 1
      apply List.map_congr_left
      intro k hk
      have hk := List.mem_range.mp hk
      have hlength := i.length_switch hop hlen hj hs
      have hkn : i.armStride 2 * (k + 1) ≤ i.armStride 2 * i.armCount 2 :=
        Nat.mul_le_mul_left _ hk
      have hstride : 2 ≤ i.armStride 2 := by
        simp only [armStride]
        split <;> omega
      rw [Nat.mul_succ] at hkn
      have hin : i.pc + 7 + i.armStride 2 * k ≤ i.pc + i.length := by
        cases ht : i.op.format.isTable <;>
          simp only [ht, armStride, Bool.false_eq_true, if_false, if_true]
            at hlength hkn ⊢ <;> omega
      simp only [Function.comp]
      rw [grown_inside hw hnarrow wide hi (by omega) hin, countP_switch_lt hj hs (by omega)]
      have hstride' : (i.relocate (grown (promotedFields is wide)) (wide i.pc)).armStride
          (Bytes.offsetWidth (wide i.pc)) = i.armStride 2 + if wide i.pc then 2 else 0 := by
        simp only [armStride, htable]
        cases i.op.format.isTable <;> cases wide i.pc <;> rfl
      rw [hstride']
      simp only [Instruction.relocate, Bytes.offsetWidth]
      cases wide i.pc with
      | false =>
        simp only [Bool.false_eq_true, if_false, Nat.add_zero]
        omega
      | true =>
        simp only [if_true, Nat.add_mul]
        omega

/-- An offset leads to where its target has moved. -/
theorem offsetIn?_relocated (hnarrow : ∀ i ∈ is, i.op.isWide = false) (hm : Mirrors is spans sites)
    (hp : Promotable sites wide) (hr : Relocated sites targets wide code code') (hi : i ∈ is)
    {field : Nat} (hf : field ∈ i.fields) :
    ∃ destination, ⟨i.pc, field, destination⟩ ∈ spans ∧ ∃ offset : Int,
      armSpan targets i.pc ⟨field, field, destination⟩ = .ok offset ∧ 0 ≤ (i.pc : Int) + offset ∧
      offsetIn? code' (i.relocate (grown (promotedFields is wide)) (wide i.pc)).op
        (grown (promotedFields is wide) field) =
          some ((grown (promotedFields is wide) ((i.pc : Int) + offset).toNat : Int) -
            grown (promotedFields is wide) i.pc) := by
  have hne : i.fields ≠ [] := List.ne_nil_of_mem hf
  have hj : i.op.format.jumpLen = some 2 := by
    rcases jumpLen_of_narrow (hnarrow i hi) with hj | hj
    · exact absurd (fields_plain hj) hne
    · exact hj
  obtain ⟨site, hs, htop, -, hfields⟩ := hm.exists_site hi hne
  rw [← hfields] at hf
  obtain ⟨arm, ha, rfl⟩ := List.mem_map.mp hf
  obtain ⟨span, hspan, hfit, hholds⟩ := (hr.written site hs).offsets arm ha
  rw [widenedFields_of_instructions hm.same wide, htop] at hspan hholds
  rw [htop] at hfit
  have hrecorded := hm.recorded site hs arm ha
  rw [htop] at hrecorded
  have hwide : (i.relocate (grown (promotedFields is wide)) (wide i.pc)).op.isWide = wide i.pc := by
    rw [Opcode.isWide, (relocate_format hm hp _ hi hj).1]
    cases wide i.pc <;> rfl
  have hread : offsetIn? code' (i.relocate (grown (promotedFields is wide)) (wide i.pc)).op
      (grown (promotedFields is wide) arm.field) = some span := by
    rw [offsetIn?, hwide]
    cases hwi : wide i.pc with
    | true =>
      rw [hwi] at hfit hholds
      simpa using Bytes.Holds.i32? hholds hfit
    | false =>
      rw [hwi] at hfit hholds
      simpa using Bytes.Holds.i16? hholds hfit
  refine ⟨arm.destination, hrecorded, ?_⟩
  rw [hread]
  cases hdest : arm.destination with
  | link delta =>
    simp only [armSpan, hdest] at hspan
    cases hspan
  | unset =>
    simp only [armSpan, hdest, Except.ok.injEq] at hspan
    refine ⟨0, rfl, by omega, ?_⟩
    simp [← hspan]
  | target entry =>
    simp only [armSpan, hdest, Except.ok.injEq, offset_moveTargets] at hspan
    refine ⟨_, rfl, by omega, ?_⟩
    rw [← hspan]
    congr 4
    omega

end Relocated

end Layout

/-- With the table of spans off, resolution does nothing. -/
theorem resolveSpans_off (hon : g.spans.active = false) (h : resolveSpans g = .ok () g') :
    g = g' := by
  simp only [resolveSpans, get_bind, hon, Bool.not_false, if_true, pure_ok] at h
  exact h.2

/-- What resolution does, step by step. Only code, notes and regions of the generator change, and
the table of spans is off afterwards. -/
theorem resolveSpans_ok (hactive : g.spans.active) (h : resolveSpans g = .ok () g') :
    ∃ sites layout code notes lastNoteOffset regions,
      Layout.sitesOf g.main.code g.spans.spans = .ok sites ∧
      Layout.widen g.tooLarge sites g.spans.targets = .ok layout ∧
      layout.relocate g.tooLarge g.main.code = .ok code ∧
      (if 0 < layout.growth then ∃ grown,
        Layout.fixNotes g.tooLarge ⟨layout.arms, layout.growth⟩ g.main.notes = .ok (notes, grown) ∧
          lastNoteOffset = g.main.lastNoteOffset + grown
      else notes = g.main.notes ∧ lastNoteOffset = g.main.lastNoteOffset) ∧
      (if 0 < layout.growth then
        g.regions.mapM (Layout.fixRegion g.tooLarge ⟨layout.arms, layout.growth⟩) = .ok regions
      else g.regions = regions) ∧
      g' = { g with
        main := { g.main with code, notes, lastNoteOffset }
        regions := regions
        spans := g.spans.reset code.size } := by
  simp only [resolveSpans, get_bind, hactive, Bool.not_true, Bool.false_eq_true,
    if_false, lift_bind_ok, modify_bind] at h
  obtain ⟨sites, hsites, layout, hlayout, code, hcode, h⟩ := h
  split at h
  · rename_i hgrowth
    simp only [lift_bind_ok, modify_bind, modify_ok] at h
    obtain ⟨⟨notes, grown⟩, hnotes, regions, hregions, rfl⟩ := h
    refine ⟨sites, layout, code, notes, _, regions, hsites, hlayout, hcode, ?_, ?_, rfl⟩
    · rw [if_pos hgrowth]
      exact ⟨grown, hnotes, rfl⟩
    · rw [if_pos hgrowth]
      exact hregions
  · rename_i hgrowth
    simp only [modify_ok] at h
    refine ⟨sites, layout, code, _, _, g.regions, hsites, hlayout, hcode, ?_, ?_, h.symm⟩
    · rw [if_neg hgrowth]
      exact ⟨rfl, rfl⟩
    · rw [if_neg hgrowth]

/-- The layout that resolution arrives at, and the code moved accordingly. No promoted site fits. -/
theorem Recorded.relocated {is : List Instruction} (h : Recorded g is)
    (hok : resolveSpans g = .ok () g') :
    ∃ sites layout wide, Layout.Mirrors is g.spans.spans.toList sites ∧
      Layout.SitesOrdered g.spans.todo sites g.main.code.size ∧
      Layout.Describes sites g.spans.targets wide layout ∧
      Layout.Relocated sites g.spans.targets wide g.main.code g'.main.code ∧
      (if 0 < layout.growth then
        g.regions.mapM (Layout.fixRegion g.tooLarge ⟨layout.arms, layout.growth⟩) = .ok g'.regions
      else g.regions = g'.regions) ∧
      ∀ site ∈ sites, wide site.top → Layout.Exceeds sites g.spans.targets wide site := by
  obtain ⟨sites, layout, code, notes, last, regions, hsites, hlayout, hcode, -, hregions, rfl⟩ :=
    resolveSpans_ok h.active hok
  have hm := Layout.sitesOf_mirrors h.whole h.listed hsites
  have horder := Layout.sitesOrdered_of_whole h.whole h.narrow hm.same
  have hnarrow := hm.narrow h.narrow
  obtain ⟨wide, hd, -, hsteps, -⟩ :=
    Layout.settle_unmoved ⟨⟨_, _, horder⟩, hnarrow⟩ hm.unmoved hlayout
  exact ⟨sites, layout, wide, hm, horder, hd, Layout.relocate_ok horder hnarrow hd hcode, hregions,
    Layout.steps_tight horder hsteps⟩

/-- An instruction without offsets is the same whether promoted or not. -/
theorem relocate_eq_of_fields (hnarrow : i.op.isWide = false) (at' : Nat → Nat) (b : Bool) :
    i.relocate at' (b && !i.fields.isEmpty) = i.relocate at' b := by
  rcases Layout.jumpLen_of_narrow hnarrow with hj | hj
  · have hplain := Opcode.widened_eq_none hj
    cases b <;> simp [Instruction.relocate, fields_plain hj, hplain]
  · have hne : i.fields.isEmpty = false := by simp [Instruction.fields, hj]
    simp [hne]

/-- Nothing moves up to where the recorded instructions start. -/
theorem Recorded.grown_front {is : List Instruction} (h : Recorded g is) (wide : Nat → Bool)
    {x : Nat} (hx : x ≤ g.spans.todo) : Layout.grown (Layout.promotedFields is wide) x = x := by
  rw [Layout.grown, Layout.countP_lt_eq_zero, Nat.mul_zero, Nat.add_zero]
  intro w hw
  obtain ⟨i, hi, hw⟩ := List.mem_flatMap.mp hw
  have hi := (List.mem_filter.mp hi).1
  have := (h.whole.bounds.2 i hi).1
  have := Layout.fields_inside h.whole h.narrow hi w hw
  omega

/-- Code in front of the recorded instructions is kept. -/
theorem Recorded.kept_front {is : List Instruction} (h : Recorded g is) {sites : List Site}
    {wide : Nat → Bool} {code : Bytes} (hm : Layout.Mirrors is g.spans.spans.toList sites)
    (hr : Layout.Relocated sites g.spans.targets wide g.main.code code) {x : Nat}
    (hx : x < g.spans.todo) : code[x]? = g.main.code[x]? := by
  have hin : x < g.main.code.size := Nat.lt_of_lt_of_le hx h.whole.bounds.1
  have hkept := hr.kept x hin ?_
  · rw [Layout.widenedFields_of_instructions hm.same wide, h.grown_front wide (by omega)] at hkept
    exact hkept
  · intro site hs
    obtain ⟨i, hi, htop, -, hfields⟩ := hm.exists_instruction hs
    have hpc := (h.whole.bounds.2 i hi).1
    refine ⟨by omega, fun arm ha => .inl ?_⟩
    have := Layout.fields_inside h.whole h.narrow hi arm.field
      (by rw [hfields]; exact List.mem_map_of_mem ha)
    omega

/-- The moved code keeps every instruction. -/
theorem Recorded.preserved_of_relocated {is : List Instruction} (h : Recorded g is)
    {sites : List Site} {layout : Layout} {wide : Nat → Bool}
    (hm : Layout.Mirrors is g.spans.spans.toList sites)
    (hd : Layout.Describes sites g.spans.targets wide layout)
    (hr : Layout.Relocated sites g.spans.targets wide g.main.code g'.main.code) :
    Preserved g g' is (fun i => wide i.pc && !i.fields.isEmpty)
      (Layout.grown (Layout.promotedFields is wide)) := by
  have hsame : ∀ i ∈ is, i.relocate (Layout.grown (Layout.promotedFields is wide))
      (wide i.pc && !i.fields.isEmpty) =
        i.relocate (Layout.grown (Layout.promotedFields is wide)) (wide i.pc) :=
    fun i hi => relocate_eq_of_fields (h.narrow i hi) _ _
  have hgrown := Layout.widenedFields_of_instructions hm.same wide
  have hc := hm.covers h.whole h.narrow
  have hsize : g'.main.code.size =
      Layout.grown (Layout.promotedFields is wide) g.main.code.size := by
    rw [hr.size, hgrown]
  refine ⟨?_, ?_, hsize, ?_, ?_, ?_, ?_, ?_⟩
  · rw [Layout.promotedFields_eq]
  · intro i hi hpromoted
    simp only [Bool.and_eq_true] at hpromoted
    obtain ⟨hwide, hne⟩ := hpromoted
    have hne : i.fields ≠ [] := by
      rintro hnil
      rw [hnil] at hne
      cases hne
    obtain ⟨site, hs, htop, hsop, -⟩ := hm.exists_site hi hne
    rw [← hsop]
    exact hd.promotable site hs (by rw [htop, hwide])
  · intro x hx
    exact h.kept_front hm hr hx
  · have hwhole := hc.whole h.whole
      (Layout.sitesOrdered_of_whole h.whole h.narrow hm.same) hd.promotable hr
    rw [hgrown, h.grown_front wide (Nat.le_refl _), List.map_congr_left fun i hi => by
      rw [hm.promoted_eq h.whole h.narrow wide hi]] at hwhole
    exact hwhole
  · intro i hi x hlo hhi hfree
    rw [← hgrown]
    refine hc.kept h.whole hr hi (Nat.le_of_lt hlo) hhi fun site hs htop => ⟨by omega, fun arm ha =>
      hfree arm.field ?_⟩
    rw [← hm.fields_of_top h.whole hi hs htop]
    exact List.mem_map_of_mem ha
  · intro i hi
    rw [hsame i hi]
    exact Layout.fields_relocated h.whole h.narrow hm hd.promotable hi
  · intro i hi field hf
    obtain ⟨destination, hmem, offset, hspan, hpos, hread⟩ :=
      Layout.offsetIn?_relocated h.narrow hm hd.promotable hr hi hf
    refine ⟨offset, ?_, hpos, ?_⟩
    · rw [h.offsetAt hmem]
      congr 1
      cases destination with
      | unset => simpa [Layout.armSpan, SpanTable.offsetOf] using hspan
      | target entry => simpa [Layout.armSpan, SpanTable.offsetOf] using hspan
      | link delta => cases hspan
    · rw [hsame i hi]
      exact hread

/-- Resolution keeps the code: every instruction stands where the growth in front of it puts it,
in its narrow form or as its wide twin, with its operands, and its offsets lead to where their
targets have moved. -/
theorem resolveSpans_preserves {g g' : Generator} {is : List Instruction} (h : Recorded g is)
    (hok : Emit.resolveSpans g = .ok () g') :
    ∃ promoted at', Preserved g g' is promoted at' := by
  obtain ⟨sites, layout, wide, hm, -, hd, hr, -⟩ := h.relocated hok
  exact ⟨_, _, h.preserved_of_relocated hm hd hr⟩

/-- A jump over more than 16 bits, recorded but not resolved. -/
def farJump : Generator :=
  { Generator.new "" 1 .standard with
    main := ⟨#[Opcode.goto.toByte, 0, 0, Opcode.nop.toByte], #[], 0, 1⟩
    spans := ⟨#[⟨0, 1, .target 0⟩], ⟨#[40000], .node 0 0 .leaf .leaf, [], 1⟩, true, 0⟩ }

/-- The same jump as its wide twin. Its target has moved by two bytes. -/
def farJumpResolved : Generator :=
  { farJump with
    main := ⟨#[Opcode.gotoX.toByte, 0x42, 0x9c, 0, 0, Opcode.nop.toByte], #[], 0, 1⟩
    spans := farJump.spans.reset 6 }

theorem farJump_recorded : Recorded farJump [⟨0, .goto, 3⟩, ⟨3, .nop, 1⟩] := by
  refine ⟨rfl, ⟨rfl, by decide, by decide, rfl, by decide, by decide, rfl⟩, by decide, rfl, ?_⟩
  intro k span hspan
  cases k with
  | zero =>
    cases hspan
    decide
  | succ k => simp [farJump] at hspan

theorem farJump_resolves : resolveSpans farJump = .ok () farJumpResolved := by
  simp only [resolveSpans, get_bind]
  rw [if_neg (by decide)]
  simp only [lift_bind_ok, modify_bind]
  refine ⟨[⟨0, .goto, [⟨1, 1, .target 0⟩]⟩], rfl,
    ⟨[⟨0, .gotoX, [⟨1, 1, .target 0⟩]⟩], ⟨#[40002], .node 0 0 .leaf .leaf, [], 1⟩, 2, 2⟩,
    by decide +kernel, #[Opcode.gotoX.toByte, 0x42, 0x9c, 0, 0, Opcode.nop.toByte], rfl, ?_⟩
  rw [if_pos (by decide)]
  simp only [lift_bind_ok, modify_bind]
  have hregions : farJump.regions = #[] := rfl
  exact ⟨(#[], 0), rfl, #[], by rw [hregions, Array.mapM_empty]; rfl, rfl⟩

theorem resolveSpans_preserves_farJump :
    Recorded farJump [⟨0, .goto, 3⟩, ⟨3, .nop, 1⟩] ∧
      Emit.resolveSpans farJump = .ok () farJumpResolved ∧
      ∃ promoted at', Preserved farJump farJumpResolved [⟨0, .goto, 3⟩, ⟨3, .nop, 1⟩] promoted at' :=
  ⟨farJump_recorded, farJump_resolves, resolveSpans_preserves farJump_recorded farJump_resolves⟩

end ScriptCompiler
