import ScriptCompiler.Proofs.Layout.Relocation
import ScriptCompiler.Proofs.Layout.Sites

/-!
# Code of which some offsets are in the table

A caller may put jumps into the code that the table of spans does not know,
wide ones among them, and may rewrite a recorded jump to an opcode that is no
jump. Relocation still keeps every instruction whole: one without a site is
moved as it is, a narrow site is overwritten inside itself, and a site that is
promoted has all of its offsets in the table.
-/

namespace ScriptCompiler

open Instruction

variable {i : Instruction} {x : Nat}

/-- An instruction at its new offset, in its wide form if it has been promoted. -/
def Instruction.relocate (at' : Nat → Nat) (promoted : Bool) (i : Instruction) : Instruction where
  pc := at' i.pc
  op := if promoted then i.op.widened.getD i.op else i.op
  length := i.length + if promoted then 2 * i.fields.length else 0

namespace Layout

variable {code code' : Bytes} {is : List Instruction} {sites : List Site} {targets : TargetIndex}
  {wide : Nat → Bool} {lo hi : Nat}

/-! ## Instructions elsewhere -/

/-- Two instructions of a run are the same or lie apart. -/
theorem eq_or_apart (hw : Whole code lo is) {j : Instruction} (hi : i ∈ is) (hj : j ∈ is) :
    i = j ∨ i.pc + i.length ≤ j.pc ∨ j.pc + j.length ≤ i.pc := by
  obtain ⟨left, right, rfl⟩ := List.append_of_mem hi
  obtain ⟨hleft, hright⟩ := hw.around
  rcases List.mem_append.mp hj with hj | hj
  · exact .inr (.inr (hleft j hj))
  · rcases List.mem_cons.mp hj with rfl | hj
    · exact .inl rfl
    · exact .inr (.inl (hright j hj))

/-- Between its default and its first arm a switch has one offset behind. -/
theorem countP_switch_head (hj : i.op.format.jumpLen = some 2) (hs : i.op.format.isSwitch)
    (hlo : i.pc + 1 < x) (hhi : x ≤ i.pc + 7) : i.fields.countP (· < x) = 1 := by
  rw [fields_switch hj hs, List.countP_cons_of_pos (by simpa using hlo),
    countP_lt_eq_zero]
  intro w hw
  obtain ⟨k, -, rfl⟩ := List.mem_map.mp hw
  omega

/-- The wide twin of a switch has two bytes more in each offset. -/
theorem length_relocate_switch (hop : opcodeAt? code i.pc = some i.op)
    (hlen : instructionLength? code i.pc = some i.length) {width : Nat}
    (hj : i.op.format.jumpLen = some width) (hs : i.op.format.isSwitch) (at' : Nat → Nat)
    (b : Bool) : (i.relocate at' b).length =
      (if i.op.format.isTable then width + 5 else width + 3) + (if b then 2 else 0) +
        (i.armStride width + if b then 2 else 0) * i.armCount width := by
  have hcount : i.fields.length = i.armCount width + 1 := by
    rw [fields_switch hj hs]
    simp
  have hlength := i.length_switch hop hlen hj hs
  simp only [Instruction.relocate, hcount]
  cases b with
  | false =>
    simp only [Bool.false_eq_true, if_false, Nat.add_zero]
    exact hlength
  | true =>
    simp only [if_true, Nat.add_mul]
    omega

/-- An instruction that stands elsewhere, narrow as before or as its wide twin, is whole if the
operand that gives its length is. -/
theorem instructionLength?_moved (hop : opcodeAt? code i.pc = some i.op)
    (hlen : instructionLength? code i.pc = some i.length) {pc' : Nat} {at' : Nat → Nat} {b : Bool}
    (hop' : opcodeAt? code' pc' = some (i.relocate at' b).op)
    (htwin : b → i.op.widened.isSome)
    (hfit : pc' + (i.relocate at' b).length ≤ code'.size)
    (hhead : ∀ width, i.op.format.jumpLen = some width → i.op.format.isSwitch → ∀ d,
      1 + width ≤ d → d + 2 ≤ width + 5 → d + 2 ≤ i.length →
      Bytes.u16? code' (pc' + d + if b then 2 else 0) = Bytes.u16? code (i.pc + d)) :
    instructionLength? code' pc' = some (i.relocate at' b).length := by
  refine (instructionLength?_eq_some hop').mpr ⟨hfit, ?_⟩
  -- the twin has the same operands, each offset two bytes wider
  have hformat : ∀ width, i.op.format.jumpLen = some width →
      (i.relocate at' b).op.format.jumpLen = some (width + if b then 2 else 0) ∧
      (i.relocate at' b).op.format.isSwitch = i.op.format.isSwitch ∧
      (i.relocate at' b).op.format.isTable = i.op.format.isTable := by
    intro width hj
    cases b with
    | false => exact ⟨hj, rfl, rfl⟩
    | true =>
      obtain ⟨twin, htwin⟩ := Option.isSome_iff_exists.mp (htwin rfl)
      obtain ⟨hnarrow, hwide, hswitch, htable⟩ := Opcode.widened_format htwin
      obtain rfl : width = 2 := Option.some.inj (hj.symm.trans hnarrow)
      simp only [Instruction.relocate, htwin, Option.getD_some, if_true]
      exact ⟨hwide, hswitch, htable⟩
  obtain ⟨hs, hl⟩ | ⟨hs, width, hj, hl⟩ := ((instructionLength?_eq_some hop).mp hlen).2
  · left
    cases hj : i.op.format.jumpLen with
    | none =>
      have hplain := Opcode.widened_eq_none hj
      simp [Instruction.relocate, hplain, fields_plain hj, hs, hl]
    | some width =>
      obtain ⟨hj', hswitch, -⟩ := hformat width hj
      refine ⟨hswitch.trans hs, ?_⟩
      rw [Opcode.length_of_jump hj' (hswitch.trans hs)]
      rw [Opcode.length_of_jump hj hs, Option.some.injEq] at hl
      simp only [Instruction.relocate, fields_jump hj hs, ← hl, List.length_singleton]
      cases b <;> simp [Nat.add_assoc]
  · right
    obtain ⟨hj', hswitch, htable⟩ := hformat width hj
    have hlength := i.length_switch hop hlen hj hs
    have hrelocated := length_relocate_switch hop hlen hj hs at' b
    have hat : pc' + (1 + (width + if b then 2 else 0)) =
        pc' + (1 + width) + if b then 2 else 0 := by omega
    refine ⟨hswitch.trans hs, _, hj', ?_⟩
    rw [htable]
    cases ht : i.op.format.isTable with
    | true =>
      rw [ht] at hl
      simp only [armStride, ht, if_true] at hlength hrelocated
      obtain ⟨low, high, hlow, hhigh, hl⟩ := switchLength?_table hl
      have hn : keyCount low high = i.armCount width := by
        rcases Format.jumpLen_eq hj with rfl | rfl <;> omega
      have hlow' : Bytes.i16? code' (pc' + (1 + (width + if b then 2 else 0))) = some low := by
        rw [hat, Bytes.i16?, hhead width hj hs _ (Nat.le_refl _) (by omega) (by omega)]
        exact hlow
      have hhigh' : Bytes.i16? code' (pc' + (1 + (width + if b then 2 else 0)) + 2) = some high := by
        rw [hat, Nat.add_right_comm, Nat.add_assoc pc', Bytes.i16?,
          hhead width hj hs _ (by omega) (by omega) (by omega)]
        exact hhigh
      simp only [switchLength?, hlow', hhigh', Option.bind_eq_bind, Option.bind_some, if_true,
        Option.pure_def, Option.some.injEq, hrelocated, hn]
      rw [Nat.mul_comm]
      omega
    | false =>
      rw [ht] at hl
      simp only [armStride, ht, Bool.false_eq_true, if_false] at hlength hrelocated
      obtain ⟨pairs, hpairs, hl⟩ := switchLength?_lookup hl
      have hn : pairs = i.armCount width := by
        rcases Format.jumpLen_eq hj with rfl | rfl <;> omega
      have hpairs' : Bytes.u16? code' (pc' + (1 + (width + if b then 2 else 0))) = some pairs := by
        rw [hat, hhead width hj hs _ (Nat.le_refl _) (by omega) (by omega)]
        exact hpairs
      simp only [switchLength?, hpairs', Option.bind_eq_bind, Option.bind_some,
        Bool.false_eq_true, if_false, Option.pure_def, Option.some.injEq, hrelocated, hn]
      rw [Nat.mul_comm, Nat.add_comm 2, Nat.add_right_comm width 2]
      omega

/-! ## Sites among instructions -/

/-- The narrow switches have wide twins. -/
theorem widened_of_switch {op : Opcode} (hs : op.format.isSwitch)
    (hnarrow : op.isWide = false) : op.widened.isSome := by
  cases op <;> first | rfl | exact absurd hs (by decide) | exact absurd hnarrow (by decide)

/-- Sites among whole instructions. -/
structure Covers (is : List Instruction) (sites : List Site) : Prop where
  /-- Each site is one of the instructions and its fields lie in it. -/
  instruction : ∀ site ∈ sites, ∃ i ∈ is, i.pc = site.top ∧ i.op = site.op ∧
    (∀ arm ∈ site.arms, i.pc < arm.field ∧ arm.field + 2 ≤ i.pc + i.length) ∧
    (i.op.widened.isSome = true → site.arms.map Arm.field = i.fields)
  /-- Wide forms only come from resolution. -/
  narrow : ∀ site ∈ sites, site.op.isWide = false

/-- Whether there is a promoted site at an instruction. -/
def promoted (sites : List Site) (wide : Nat → Bool) (i : Instruction) : Bool :=
  sites.any fun site => decide (site.top = i.pc) && wide site.top

theorem promoted_iff : promoted sites wide i = true ↔
    ∃ site ∈ sites, site.top = i.pc ∧ wide site.top := by
  simp [promoted]

theorem SitesOrdered.pairwise (h : SitesOrdered lo sites hi) :
    sites.Pairwise fun site site' => site.top < site'.top := by
  induction sites generalizing lo with
  | nil => exact .nil
  | cons site sites ih =>
    obtain ⟨-, -, mid, harms, hrest⟩ := h
    refine List.pairwise_cons.mpr ⟨fun site' hs => ?_, ih hrest⟩
    have := harms.le
    have := (hrest.bounds site' hs).1
    omega

section Moving

variable (hw : Whole code lo is) (hc : Covers is sites) (horder : SitesOrdered hi sites code.size)

include hw hc in
/-- The instruction of a site whose top or field lies in an instruction is that instruction. -/
theorem Covers.eq_of_inside (hi : i ∈ is) {site : Site} (hs : site ∈ sites)
    (hin : (i.pc ≤ site.top ∧ site.top < i.pc + i.length) ∨
      ∃ arm ∈ site.arms, i.pc ≤ arm.field + 1 ∧ arm.field < i.pc + i.length) :
    site.top = i.pc ∧ i.op = site.op ∧
      (∀ arm ∈ site.arms, i.pc < arm.field ∧ arm.field + 2 ≤ i.pc + i.length) ∧
      (i.op.widened.isSome → site.arms.map Arm.field = i.fields) := by
  obtain ⟨j, hj, htop, hop, hfields, htwin⟩ := hc.instruction site hs
  obtain ⟨-, -, hopj, hlenj⟩ := hw.bounds.2 j hj
  have hpos := instructionLength?_pos hopj hlenj
  rcases eq_or_apart hw hi hj with rfl | happart
  · exact ⟨htop.symm, hop, hfields, htwin⟩
  · exfalso
    rcases hin with hin | ⟨arm, ha, hin⟩
    · omega
    · have := hfields arm ha
      omega

include hw hc in
/-- A widened field at an instruction belongs to the promoted site there. -/
theorem Covers.lt_iff_of_unpromoted (hi : i ∈ is) (hnot : promoted sites wide i = false)
    (hlo : i.pc ≤ x) (hhi : x ≤ i.pc + i.length) {w : Nat} (hmem : w ∈ widenedFields sites wide) :
    w < x ↔ w < i.pc := by
  obtain ⟨site, hs, hfield⟩ := List.mem_flatMap.mp hmem
  obtain ⟨hs, hwide⟩ := List.mem_filter.mp hs
  obtain ⟨arm, ha, rfl⟩ := List.mem_map.mp hfield
  constructor
  · intro hlt
    rcases Nat.lt_or_ge arm.field i.pc with hfront | hbehind
    · exact hfront
    · obtain ⟨htop, -⟩ := hc.eq_of_inside hw hi hs (.inr ⟨arm, ha, by omega, by omega⟩)
      rw [promoted_iff.mpr ⟨site, hs, htop, hwide⟩] at hnot
      cases hnot
  · intro hlt
    omega

include hw hc horder in
/-- Inside an instruction the code grows at its own offsets, if it is promoted. -/
theorem Covers.grown_inside (hi : i ∈ is) (hlo : i.pc ≤ x) (hhi : x ≤ i.pc + i.length)
    (htwin : Promotable sites wide) :
    grown (widenedFields sites wide) x = grown (widenedFields sites wide) i.pc + (x - i.pc) +
      if promoted sites wide i then 2 * i.fields.countP (· < x) else 0 := by
  cases hpromoted : promoted sites wide i with
  | false =>
    have hcount : (widenedFields sites wide).countP (· < x) =
        (widenedFields sites wide).countP (· < i.pc) :=
      List.countP_congr fun w hmem => by
        simpa using hc.lt_iff_of_unpromoted hw hi hpromoted hlo hhi hmem
    simp only [grown, hcount, Bool.false_eq_true, if_false]
    omega
  | true =>
    obtain ⟨site, hs, htop, hwide⟩ := promoted_iff.mp hpromoted
    obtain ⟨-, -, hop, hlen⟩ := hw.bounds.2 i hi
    have hpos := instructionLength?_pos hop hlen
    obtain ⟨-, hopeq, hfields, hall⟩ := hc.eq_of_inside hw hi hs (.inl (by omega))
    have hall := hall (by rw [hopeq]; exact htwin site hs hwide)
    obtain ⟨left, right, rfl⟩ := List.append_of_mem hs
    have hpair := horder.pairwise
    -- the other sites lie in other instructions
    have hothers : ∀ others : List Site, (∀ s ∈ others, s ∈ left ++ site :: right) →
        (∀ s ∈ others, s.top ≠ i.pc) → (widenedFields others wide).countP (· < x) =
          (widenedFields others wide).countP (· < i.pc) := by
      intro others hsub hne
      have hc' : Covers is others :=
        ⟨fun s hs => hc.instruction s (hsub s hs), fun s hs => hc.narrow s (hsub s hs)⟩
      have hnot : promoted others wide i = false := by
        rw [← Bool.not_eq_true, promoted_iff]
        rintro ⟨s, hs, htop, -⟩
        exact hne s hs htop
      exact List.countP_congr fun w hmem => by
        simpa using hc'.lt_iff_of_unpromoted hw hi hnot hlo hhi hmem
    have hleft := hothers left (fun s hs => by simp [hs]) fun s hs heq => by
      have := (List.pairwise_append.mp hpair).2.2 s hs site (by simp)
      omega
    have hright := hothers right (fun s hs => by simp [hs]) fun s hs heq => by
      have := (List.pairwise_cons.mp (List.pairwise_append.mp hpair).2.1).1 s hs
      omega
    have hsplit : ∀ y, (widenedFields (left ++ site :: right) wide).countP (· < y) =
        (widenedFields left wide).countP (· < y) + (i.fields.countP (· < y) +
          (widenedFields right wide).countP (· < y)) := by
      intro y
      simp only [widenedFields, List.filter_append, List.filter_cons, hwide, if_true,
        List.flatMap_append, List.flatMap_cons, List.countP_append, hall]
    have hnone : i.fields.countP (· < i.pc) = 0 := by
      apply countP_lt_eq_zero
      intro w hmem
      rw [← hall] at hmem
      obtain ⟨arm, ha, rfl⟩ := List.mem_map.mp hmem
      have := hfields arm ha
      omega
    simp only [grown, hsplit, hleft, hright, hnone, if_true]
    omega

include hw hc in
/-- Bytes of an instruction that are neither an opcode nor an offset of a site are kept. -/
theorem Covers.kept (hr : Relocated sites targets wide code code') (hi : i ∈ is) (hlo : i.pc ≤ x)
    (hhi : x < i.pc + i.length)
    (hfree : ∀ site ∈ sites, site.top = i.pc → x ≠ i.pc ∧
      ∀ arm ∈ site.arms, x < arm.field ∨ arm.field + 2 ≤ x) :
    code'[grown (widenedFields sites wide) x]? = code[x]? := by
  have hsize := (hw.bounds.2 i hi).2.1
  refine hr.kept x (by omega) fun site hs => ⟨fun heq => ?_, fun arm ha => ?_⟩
  · obtain ⟨htop, -⟩ := hc.eq_of_inside hw hi hs (.inl (by omega))
    exact (hfree site hs htop).1 (heq.trans htop)
  · by_cases hin : i.pc ≤ arm.field + 1 ∧ arm.field < i.pc + i.length
    · obtain ⟨htop, -⟩ := hc.eq_of_inside hw hi hs (.inr ⟨arm, ha, hin⟩)
      exact (hfree site hs htop).2 arm ha
    · omega

include hw hc in
/-- The opcode of every instruction stands at its new offset, or its twin does. -/
theorem Covers.opcodeAt? (hr : Relocated sites targets wide code code') (hi : i ∈ is) :
    opcodeAt? code' (grown (widenedFields sites wide) i.pc) =
      some (i.relocate (grown (widenedFields sites wide)) (promoted sites wide i)).op := by
  obtain ⟨-, -, hop, hlen⟩ := hw.bounds.2 i hi
  have hpos := instructionLength?_pos hop hlen
  by_cases hsite : ∃ site ∈ sites, site.top = i.pc
  · obtain ⟨site, hs, htop⟩ := hsite
    obtain ⟨-, hopeq, -⟩ := hc.eq_of_inside hw hi hs (.inl (by omega))
    have hpromoted : promoted sites wide i = wide i.pc := by
      cases hwide : wide i.pc with
      | true => exact promoted_iff.mpr ⟨site, hs, htop, by rw [htop, hwide]⟩
      | false =>
        rw [← Bool.not_eq_true, promoted_iff]
        rintro ⟨s, -, hstop, hswide⟩
        rw [hstop, hwide] at hswide
        cases hswide
    have hwritten := (hr.written site hs).opcode
    rw [htop, ← hopeq] at hwritten
    simp [ScriptCompiler.opcodeAt?, hwritten, Instruction.relocate, hpromoted]
  · have hpromoted : promoted sites wide i = false := by
      rw [← Bool.not_eq_true, promoted_iff]
      rintro ⟨s, hs, htop, -⟩
      exact hsite ⟨s, hs, htop⟩
    have hkept := hc.kept hw hr hi (Nat.le_refl _) (by omega) fun site hs htop =>
      absurd ⟨site, hs, htop⟩ hsite
    simp only [ScriptCompiler.opcodeAt?, hkept, hpromoted, Instruction.relocate, Bool.false_eq_true,
      if_false]
    exact hop

include hw hc horder in
/-- The end of an instruction moves by what has been widened in it. -/
theorem Covers.grown_end (hp : Promotable sites wide) (hi : i ∈ is) :
    grown (widenedFields sites wide) (i.pc + i.length) = grown (widenedFields sites wide) i.pc +
      (i.relocate (grown (widenedFields sites wide)) (promoted sites wide i)).length := by
  rw [hc.grown_inside hw horder hi (by omega) (Nat.le_refl _) hp]
  cases hpromoted : promoted sites wide i with
  | false =>
    simp only [Instruction.relocate, Bool.false_eq_true, if_false]
    omega
  | true =>
    obtain ⟨-, -, hop, hlen⟩ := hw.bounds.2 i hi
    have hpos := instructionLength?_pos hop hlen
    obtain ⟨site, hs, htop, hwide⟩ := promoted_iff.mp hpromoted
    obtain ⟨-, hopeq, hfields, hall⟩ := hc.eq_of_inside hw hi hs (.inl (by omega))
    have hall := hall (by rw [hopeq]; exact hp site hs hwide)
    have hcount : i.fields.countP (· < i.pc + i.length) = i.fields.length := by
      apply countP_lt_eq_length
      intro w hmem
      rw [← hall] at hmem
      obtain ⟨arm, ha, rfl⟩ := List.mem_map.mp hmem
      have := hfields arm ha
      omega
    simp only [hcount, Instruction.relocate, if_true]
    omega

include hw hc horder in
/-- A relocated instruction is whole. -/
theorem Covers.instructionLength? (hp : Promotable sites wide)
    (hr : Relocated sites targets wide code code') (hi : i ∈ is) :
    instructionLength? code' (grown (widenedFields sites wide) i.pc) =
      some (i.relocate (grown (widenedFields sites wide)) (promoted sites wide i)).length := by
  obtain ⟨-, hsize, hop, hlen⟩ := hw.bounds.2 i hi
  have hpos := instructionLength?_pos hop hlen
  refine instructionLength?_moved hop hlen (hc.opcodeAt? hw hr hi) (fun hpromoted => ?_) ?_
    fun width hj hswitch d hlo hhi hin => ?_
  · obtain ⟨site, hs, htop, hwide⟩ := promoted_iff.mp hpromoted
    obtain ⟨-, hopeq, -⟩ := hc.eq_of_inside hw hi hs (.inl (by omega))
    rw [hopeq]
    exact hp site hs hwide
  · rw [← hc.grown_end hw horder hp hi, hr.size]
    exact grown_le_grown _ hsize
  · -- the operand with the length stands between the default and the first arm
    have hat : ∀ e, 1 + width ≤ e → e < width + 5 → e < i.length →
        code'[grown (widenedFields sites wide) i.pc + e + if promoted sites wide i then 2 else 0]? =
          code[i.pc + e]? := by
      intro e he he' hel
      have hnarrow : (∃ site ∈ sites, site.top = i.pc) → width = 2 := by
        rintro ⟨site, hs, htop⟩
        obtain ⟨-, hopeq, -⟩ := hc.eq_of_inside hw hi hs (.inl (by omega))
        have hnarrow := hc.narrow site hs
        rw [← hopeq, Opcode.isWide, hj] at hnarrow
        rcases Format.jumpLen_eq hj with rfl | rfl
        · rfl
        · cases hnarrow
      have hgrown := hc.grown_inside hw horder hi (x := i.pc + e) (by omega) (by omega) hp
      have hkept := hc.kept hw hr hi (x := i.pc + e) (by omega) (by omega) fun site hs htop => by
        obtain rfl := hnarrow ⟨site, hs, htop⟩
        obtain ⟨-, hopeq, -, hall⟩ := hc.eq_of_inside hw hi hs (.inl (by omega))
        have hall := hall (widened_of_switch hswitch (by rw [hopeq]; exact hc.narrow site hs))
        refine ⟨by omega, fun arm ha => ?_⟩
        have hmem : arm.field ∈ i.fields := by
          rw [← hall]
          exact List.mem_map_of_mem ha
        rw [fields_switch hj hswitch] at hmem
        rcases List.mem_cons.mp hmem with heq | hmem
        · omega
        · obtain ⟨k, -, heq⟩ := List.mem_map.mp hmem
          omega
      rw [← hkept, hgrown]
      cases hpromoted : promoted sites wide i with
      | false =>
        congr 1
        simp only [Bool.false_eq_true, if_false]
        omega
      | true =>
        obtain ⟨site, hs, htop, -⟩ := promoted_iff.mp hpromoted
        obtain rfl := hnarrow ⟨site, hs, htop⟩
        rw [countP_switch_head hj hswitch (by omega) (by omega)]
        congr 1
        simp only [if_true]
        omega
    have h0 := hat d hlo (by omega) (by omega)
    have h1 : code'[grown (widenedFields sites wide) i.pc + d +
        (if promoted sites wide i then 2 else 0) + 1]? = code[i.pc + d + 1]? := by
      rw [Nat.add_assoc i.pc, ← hat (d + 1) (by omega) (by omega) (by omega)]
      congr 1
      omega
    rw [Bytes.u16?, Bytes.u16?, h0, h1]

end Moving

/-- Relocation keeps every instruction whole, with or without a site. -/
theorem Covers.whole (hc : Covers is sites) (hw : Whole code lo is)
    (horder : SitesOrdered hi sites code.size) (hp : Promotable sites wide)
    (hr : Relocated sites targets wide code code') :
    Whole code' (grown (widenedFields sites wide) lo) (is.map fun i =>
      i.relocate (grown (widenedFields sites wide)) (promoted sites wide i)) :=
  hw.map hr.size.symm (fun _ _ => rfl) (fun _ hi => hc.opcodeAt? hw hr hi)
    (fun _ hi => hc.instructionLength? hw horder hp hr hi) fun _ hi => hc.grown_end hw horder hp hi

end Layout

end ScriptCompiler
