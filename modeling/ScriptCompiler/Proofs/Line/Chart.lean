import ScriptCompiler.Proofs.Code.Spans
import ScriptCompiler.Proofs.Layout.Covering

/-!
# The instructions in the table of spans

The table of spans lists the offsets of the instructions it knows, one
instruction behind the other. Turning the table on enters the narrow jumps and
switches since the last resolution; a jump emitted later is entered as it is
emitted. What the table lists is enough to tell the sites of a layout: a jump
takes three bytes whatever its opcode has been rewritten to, and a switch is
never rewritten.
-/

namespace ScriptCompiler

open Bytes Layout

variable {is : List Instruction} {code : Bytes} {todo : Nat} {j : Instruction}

/-! ## Entering offsets -/

/-- The offsets a table lists, each with the instruction it belongs to. -/
def SpanTable.pairs (t : SpanTable) : List (Nat × Nat) :=
  t.spans.toList.map fun span => (span.top, span.field)

/-- Offsets have been entered into the table. -/
def Enters (g g' : Generator) (pairs : List (Nat × Nat)) : Prop :=
  ∃ code spans, g' = { g with main := { g.main with code }, spans } ∧ g.spans.Grows spans ∧
    spans.pairs = g.spans.pairs ++ pairs ∧ code.size = g.main.code.size

namespace Enters

variable {g g' g'' : Generator} {pairs pairs' : List (Nat × Nat)}

theorem refl (h : g.spans.targets.Sound) : Enters g g [] :=
  ⟨_, _, rfl, .refl h, by simp, rfl⟩

theorem trans (h : Enters g g' pairs) (h' : Enters g' g'' pairs') :
    Enters g g'' (pairs ++ pairs') := by
  obtain ⟨code, spans, rfl, hgrows, hpairs, hsize⟩ := h
  obtain ⟨code', spans', rfl, hgrows', hpairs', hsize'⟩ := h'
  refine ⟨code', spans', rfl, hgrows.trans hgrows', ?_, hsize'.trans hsize⟩
  rw [hpairs', hpairs, List.append_assoc]

theorem sound (h : Enters g g' pairs) : g'.spans.targets.Sound := by
  obtain ⟨code, spans, rfl, hgrows, -⟩ := h
  exact hgrows.sound

end Enters

namespace Emit

variable {g g' : Generator} {pairs : List (Nat × Nat)}

theorem addSpan_enters {top field : Nat} {z : Int} (hs : g.spans.targets.Sound)
    (h : addSpan top field z g = .ok () g') : Enters g g' [(top, field)] := by
  obtain ⟨destination, spans, hgrows, hpush, -, -, rfl⟩ := addSpan_ok hs h
  refine ⟨_, spans, rfl, hgrows, ?_, size_setU16 ..⟩
  simp [SpanTable.pairs, hpush]

theorem enterOffsets_enters (hs : g.spans.targets.Sound) (h : enterOffsets pairs g = .ok () g') :
    Enters g g' pairs := by
  induction pairs generalizing g with
  | nil =>
    obtain ⟨-, rfl⟩ := pure_ok.mp h
    exact .refl hs
  | cons p pairs ih =>
    simp only [enterOffsets, bind_ok, mainI16_ok] at h
    obtain ⟨z, _, ⟨-, rfl⟩, _, g₁, hadd, h⟩ := h
    have hfirst := addSpan_enters hs hadd
    exact hfirst.trans (ih hfirst.sound h)

/-- Turning the table on enters the narrow jumps and switches since the last resolution. -/
theorem buildSpans_enters (hw : Whole g.main.code g.spans.todo is) (hs : g.spans.targets.Sound)
    (h : buildSpans g = .ok () g') :
    Enters { g with spans := { g.spans with active := true } } g' (offsetPairs (narrowJumps is)) := by
  rw [buildSpans_offsets hw] at h
  exact enterOffsets_enters hs h

end Emit

/-! ## What the table knows -/

/-- An instruction whose offsets are in the table, among instructions with the given bounds. -/
structure Charted (code : Bytes) (bounds : List (Nat × Nat)) (todo : Nat) (j : Instruction) :
    Prop where
  narrow : j.op.format.jumpLen = some 2
  /-- A jump may have become another instruction of three bytes; a switch is the one recorded. -/
  kind : j.op.format.isSwitch = false ∧ j.length = 3 ∨
    j.op.format.isSwitch = true ∧ opcodeAt? code j.pc = some j.op
  ordered : FieldsOrdered (j.pc + 1) j.fields (j.pc + j.length)
  recent : todo ≤ j.pc
  logged : (j.pc, j.length) ∈ bounds

theorem Charted.fields_ne_nil {bounds : List (Nat × Nat)} (h : Charted code bounds todo j) :
    j.fields ≠ [] := by
  simp [Instruction.fields, h.narrow]

/-- The table lists the offsets of instructions that lie apart. -/
structure Chart (code : Bytes) (bounds : List (Nat × Nat)) (spans : SpanTable)
    (js : List Instruction) : Prop where
  listed : Layout.Lists spans.spans.toList js
  apart : js.Pairwise fun i j => i.pc + i.length ≤ j.pc
  each : ∀ j ∈ js, Charted code bounds spans.todo j

/-- Offset and length of each instruction. -/
def boundsOf (is : List Instruction) : List (Nat × Nat) := is.map fun i => (i.pc, i.length)

theorem mem_boundsOf {pc length : Nat} :
    (pc, length) ∈ boundsOf is ↔ ∃ i ∈ is, i.pc = pc ∧ i.length = length := by
  simp [boundsOf]

/-- An instruction of three bytes is no switch and has no wide offset. -/
theorem Instruction.of_length_three {i : Instruction} (hop : opcodeAt? code i.pc = some i.op)
    (hlen : instructionLength? code i.pc = some i.length) (hthree : i.length = 3) :
    i.op.format.isSwitch = false ∧ i.op.isWide = false := by
  cases hj : i.op.format.jumpLen with
  | none =>
    refine ⟨?_, by rw [Opcode.isWide, hj]; rfl⟩
    cases hs : i.op.format.isSwitch with
    | false => rfl
    | true =>
      obtain ⟨width, hwidth⟩ := Format.jumpLen_of_isSwitch hs
      rw [hj] at hwidth
      cases hwidth
  | some width =>
    cases hs : i.op.format.isSwitch with
    | true =>
      have hlength := i.length_switch hop hlen hj hs
      rcases Format.jumpLen_eq hj with rfl | rfl <;> split at hlength <;> omega
    | false =>
      refine ⟨rfl, ?_⟩
      obtain ⟨-, ⟨-, hl⟩ | ⟨hs', -⟩⟩ := (instructionLength?_eq_some hop).mp hlen
      · rw [Opcode.length_of_jump hj hs, hthree] at hl
        obtain rfl : width = 2 := by
          have := Option.some.inj hl
          omega
        rw [Opcode.isWide, hj]
        rfl
      · rw [hs] at hs'
        cases hs'

/-- The instruction at a charted place: its fields, if it can be promoted, and its width. -/
theorem Charted.instruction (h : Charted code (boundsOf is) todo j) (hw : Whole code 0 is) :
    ∃ i ∈ is, i.pc = j.pc ∧
      i.length = j.length ∧ i.op.isWide = false ∧ (i.op.widened.isSome → i.fields = j.fields) := by
  obtain ⟨i, hi, hpc, hlength⟩ := mem_boundsOf.mp h.logged
  obtain ⟨-, -, hop, hlen⟩ := hw.bounds.2 i hi
  obtain ⟨hplain, hthree⟩ | ⟨-, hop'⟩ := h.kind
  · obtain ⟨hswitch, hnarrow⟩ := i.of_length_three hop hlen (hlength.trans hthree)
    refine ⟨i, hi, hpc, hlength, hnarrow, fun htwin => ?_⟩
    obtain ⟨twin, htwin⟩ := Option.isSome_iff_exists.mp htwin
    rw [Instruction.fields_jump (Opcode.widened_format htwin).1 hswitch,
      Instruction.fields_jump h.narrow hplain, hpc]
  · rw [hpc, hop'] at hop
    have hsame : i = j := by
      cases i
      cases j
      simp_all
    subst hsame
    exact ⟨i, hi, rfl, rfl, by rw [Opcode.isWide, h.narrow]; rfl, fun _ => rfl⟩

/-- The sites of a charted table are among the instructions of the code. -/
theorem Chart.sites {js : List Instruction} {spans : SpanTable}
    (h : Chart code (boundsOf is) spans js) (hw : Whole code 0 is) (htodo : spans.todo ≤ code.size)
    {sites : List Site} (hsites : sitesOf code spans.spans = .ok sites) :
    Layout.Covers is sites ∧ Layout.SitesOrdered spans.todo sites code.size ∧
      ∀ site ∈ sites, ∀ arm ∈ site.arms, arm.place = arm.field := by
  have hinside : ∀ j ∈ js, ∀ field ∈ j.fields, j.pc + 1 ≤ field ∧ field + 2 ≤ j.pc + j.length :=
    fun j hj => (fieldsOrdered_bounds (h.each j hj).ordered).2
  have hpc : js.Pairwise fun i j => i.pc < j.pc := by
    refine h.apart.imp_of_mem fun {i j} hi _ hij => ?_
    obtain ⟨field, hfield⟩ := List.exists_mem_of_ne_nil _ (h.each i hi).fields_ne_nil
    have := hinside i hi field hfield
    omega
  have hgroups := sitesOf_listed hpc h.listed hsites
  rw [List.filter_eq_self.mpr fun j hj => by simpa using (h.each j hj).fields_ne_nil] at hgroups
  have howned : ∀ site ∈ sites, ∃ j ∈ js, j.pc = site.top ∧ j.fields = site.arms.map Arm.field := by
    intro site hs
    have hmem : (site.top, site.arms.map Arm.field) ∈ js.map fun j => (j.pc, j.fields) := by
      rw [← hgroups]
      exact List.mem_map_of_mem hs
    obtain ⟨j, hj, heq⟩ := List.mem_map.mp hmem
    exact ⟨j, hj, Prod.mk.inj heq⟩
  refine ⟨⟨fun site hs => ?_, fun site hs => ?_⟩, ?_, fun site hs arm ha => ?_⟩
  · obtain ⟨j, hj, htop, hfields⟩ := howned site hs
    obtain ⟨i, hi, hipc, hlength, -, htwin⟩ := (h.each j hj).instruction hw
    have hop := (hw.bounds.2 i hi).2.2.1
    rw [hipc, htop, (of_sitesOf hsites hs).1] at hop
    refine ⟨i, hi, hipc.trans htop, (Option.some.inj hop).symm, fun arm ha => ?_, fun hsome => ?_⟩
    · have := hinside j hj arm.field (by rw [hfields]; exact List.mem_map_of_mem ha)
      omega
    · rw [← hfields, htwin hsome]
  · obtain ⟨j, hj, htop, -⟩ := howned site hs
    obtain ⟨i, hi, hipc, -, hnarrow, -⟩ := (h.each j hj).instruction hw
    have hop := (hw.bounds.2 i hi).2.2.1
    rw [hipc, htop, (of_sitesOf hsites hs).1] at hop
    rwa [← Option.some.inj hop] at hnarrow
  · refine sitesOrdered_of_groups hgroups (fun j hj => (h.each j hj).fields_ne_nil)
      (fun j hj => (h.each j hj).ordered) h.apart (fun j hj => (h.each j hj).recent)
      (fun j hj => ?_) htodo
    obtain ⟨i, hi, hipc, hlength, -⟩ := (h.each j hj).instruction hw
    have := (hw.bounds.2 i hi).2.1
    omega
  · obtain ⟨span, -, -, rfl⟩ := (of_sitesOf hsites hs).2.2 arm ha
    rfl

end ScriptCompiler
