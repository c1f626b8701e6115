import ScriptCompiler.Proofs.Emission
import ScriptCompiler.Proofs.Instruction
import ScriptCompiler.Proofs.Layout.Widening

/-!
# Sites of recorded instructions

When the spans of a table are the offsets of the instructions of the code, in
order, the sites made from the table are the jumps and switches among these
instructions. The widened fields are then those of the promoted instructions,
and inside one instruction the code grows at its own fields only.
-/

namespace ScriptCompiler.Layout

variable {pc lo hi todo : Nat} {code : Bytes} {site : Site} {arms : List Arm} {i : Instruction}

/-- The spans are the offsets of the instructions, in order. -/
def Lists (spans : List Span) (is : List Instruction) : Prop :=
  spans.map (fun span => (span.top, span.field)) =
    is.flatMap fun i => i.fields.map fun field => (i.pc, field)

/-- Spans of one opcode become one group. -/
theorem foldr_group_same {own : List Span} (hown : ∀ span ∈ own, span.top = pc) (hne : own ≠ [])
    {groups : List (Nat × List Arm)} (hfirst : ∀ group ∈ groups, group.1 ≠ pc) :
    own.foldr group groups =
      (pc, own.map fun span => ⟨span.field, span.field, span.destination⟩) :: groups := by
  induction own with
  | nil => exact absurd rfl hne
  | cons span own ih =>
    have htop : span.top = pc := hown span (by simp)
    cases own with
    | nil =>
      cases groups with
      | nil => simp [group, htop]
      | cons first rest =>
        have : ¬pc = first.1 := fun h => hfirst first (by simp) h.symm
        simp [group, htop, this]
    | cons next own =>
      rw [List.foldr_cons, ih (fun s hs => hown s (by simp [hs])) (by simp)]
      simp [group, htop]

/-- The groups of listed spans are the jumps and switches. -/
theorem foldr_group {is : List Instruction} (hpc : is.Pairwise fun i j => i.pc < j.pc)
    {spans : List Span} (h : Lists spans is) :
    (spans.foldr group []).map (fun g => (g.1, g.2.map Arm.field)) =
      (is.filter fun i => !i.fields.isEmpty).map fun i => (i.pc, i.fields) := by
  induction is generalizing spans with
  | nil =>
    obtain rfl : spans = [] := by simpa [Lists] using h
    rfl
  | cons i is ih =>
    rw [List.pairwise_cons] at hpc
    rw [Lists, List.flatMap_cons, List.map_eq_append_iff] at h
    obtain ⟨own, rest, rfl, hown, hrest⟩ := h
    have ih := ih hpc.2 hrest
    have htop : ∀ span ∈ own, span.top = i.pc := by
      intro span hs
      have hm : (span.top, span.field) ∈ i.fields.map fun field => (i.pc, field) := by
        rw [← hown]
        exact List.mem_map_of_mem hs
      obtain ⟨field, -, heq⟩ := List.mem_map.mp hm
      exact (congrArg Prod.fst heq).symm
    have hfields : own.map Span.field = i.fields := by
      have hsecond := congrArg (List.map Prod.snd) hown
      simpa [Function.comp_def] using hsecond
    rw [List.foldr_append]
    by_cases hempty : i.fields = []
    · obtain rfl : own = [] := List.map_eq_nil_iff.mp (hfields.trans hempty)
      rw [List.filter_cons_of_neg (by simp [hempty])]
      exact ih
    · rw [foldr_group_same htop (by rintro rfl; exact hempty hfields.symm) ?_,
        List.filter_cons_of_pos (by simpa using hempty), List.map_cons, List.map_cons, ih,
        List.map_map, ← hfields]
      · rfl
      · intro g hg heq
        have hm : (g.1, g.2.map Arm.field) ∈ (rest.foldr group []).map fun g =>
            (g.1, g.2.map Arm.field) := List.mem_map_of_mem hg
        rw [ih] at hm
        obtain ⟨j, hj, hpair⟩ := List.mem_map.mp hm
        have := hpc.1 j (List.mem_filter.mp hj).1
        have := (Prod.mk.inj hpair).1
        omega

/-- A span joins the first group, or starts one of its own. -/
theorem group_cases (span : Span) (groups : List (Nat × List Arm)) :
    (∃ arms rest, groups = (span.top, arms) :: rest ∧ group span groups =
      (span.top, ⟨span.field, span.field, span.destination⟩ :: arms) :: rest) ∨
    ((∀ arms rest, groups ≠ (span.top, arms) :: rest) ∧ group span groups =
      (span.top, [⟨span.field, span.field, span.destination⟩]) :: groups) := by
  cases groups with
  | nil => exact .inr ⟨fun _ _ => (List.cons_ne_nil _ _).symm, rfl⟩
  | cons first rest =>
    obtain ⟨top, arms⟩ := first
    by_cases h : span.top = top
    · subst h
      exact .inl ⟨arms, rest, rfl, if_pos rfl⟩
    · refine .inr ⟨fun arms' rest' heq => ?_, if_neg h⟩
      exact h (congrArg Prod.fst (List.cons.inj heq).1).symm

/-- The arms of a group are the spans of its opcode. -/
theorem mem_foldr_group {spans : List Span} {top : Nat} (h : (top, arms) ∈ spans.foldr group []) :
    arms ≠ [] ∧ ∀ arm ∈ arms, ∃ span ∈ spans,
      span.top = top ∧ arm = ⟨span.field, span.field, span.destination⟩ := by
  induction spans generalizing top arms with
  | nil => cases h
  | cons span spans ih =>
    rw [List.foldr_cons] at h
    have hkeep : (top, arms) ∈ spans.foldr group [] → arms ≠ [] ∧ ∀ arm ∈ arms,
        ∃ span' ∈ span :: spans, span'.top = top ∧
          arm = ⟨span'.field, span'.field, span'.destination⟩ := fun hmem =>
      ⟨(ih hmem).1, fun arm ha => by
        obtain ⟨span', hs, heq⟩ := (ih hmem).2 arm ha
        exact ⟨span', List.mem_cons_of_mem _ hs, heq⟩⟩
    obtain ⟨own, rest, hsame, hgroup⟩ | ⟨-, hgroup⟩ := group_cases span (spans.foldr group [])
    · rw [hgroup] at h
      rcases List.mem_cons.mp h with heq | hmem
      · cases heq
        refine ⟨List.cons_ne_nil _ _, List.forall_mem_cons.mpr
          ⟨⟨span, List.mem_cons_self, rfl, rfl⟩, fun arm ha => ?_⟩⟩
        obtain ⟨span', hs, heq⟩ := (ih (by rw [hsame]; exact List.mem_cons_self)).2 arm ha
        exact ⟨span', List.mem_cons_of_mem _ hs, heq⟩
      · exact hkeep (by rw [hsame]; exact List.mem_cons_of_mem _ hmem)
    · rw [hgroup] at h
      rcases List.mem_cons.mp h with heq | hmem
      · cases heq
        refine ⟨List.cons_ne_nil _ _, fun arm ha => ?_⟩
        rw [List.mem_singleton.mp ha]
        exact ⟨span, List.mem_cons_self, rfl, rfl⟩
      · exact hkeep hmem

/-- The site of a group has the opcode that stands in the code. -/
theorem siteOf_ok {g : Nat × List Arm} (h : siteOf code g = .ok site) :
    (site.top, site.arms) = g ∧ opcodeAt? code site.top = some site.op := by
  rw [siteOf, except_bind_ok] at h
  obtain ⟨byte, hbyte, h⟩ := h
  rw [except_bind_ok] at h
  obtain ⟨op, hop, h⟩ := h
  cases h
  have hbyte' : code[g.1]? = some byte := by
    cases hb : code[g.1]? <;> rw [hb] at hbyte <;> cases hbyte
    rfl
  have hop' : Opcode.ofByte? byte = some op := by
    cases ho : Opcode.ofByte? byte <;> rw [ho] at hop <;> cases hop
    rfl
  exact ⟨rfl, by simp [opcodeAt?, hbyte', hop']⟩

/-- The sites of groups, one for each. -/
theorem mapM_siteOf {groups : List (Nat × List Arm)} {sites : List Site}
    (h : groups.mapM (siteOf code) = .ok sites) :
    sites.map (fun site => (site.top, site.arms)) = groups ∧
      ∀ site ∈ sites, opcodeAt? code site.top = some site.op := by
  induction groups generalizing sites with
  | nil =>
    rw [List.mapM_nil] at h
    cases h
    exact ⟨rfl, by simp⟩
  | cons g groups ih =>
    rw [List.mapM_cons, except_bind_ok] at h
    obtain ⟨site, hsite, h⟩ := h
    rw [except_bind_ok] at h
    obtain ⟨rest, hrest, h⟩ := h
    cases h
    obtain ⟨hsame, hop⟩ := siteOf_ok hsite
    obtain ⟨hmap, hops⟩ := ih hrest
    refine ⟨by rw [List.map_cons, hmap, hsame], ?_⟩
    intro s hs
    rcases List.mem_cons.mp hs with rfl | hs
    · exact hop
    · exact hops s hs

/-- A site comes from spans with its opcode. -/
theorem of_sitesOf {spans : Array Span} {sites : List Site} (h : sitesOf code spans = .ok sites)
    (hs : site ∈ sites) :
    opcodeAt? code site.top = some site.op ∧ site.arms ≠ [] ∧ ∀ arm ∈ site.arms,
      ∃ span ∈ spans.toList, span.top = site.top ∧
        arm = ⟨span.field, span.field, span.destination⟩ := by
  rw [sitesOf, ← Array.foldr_toList] at h
  obtain ⟨hgroups, hops⟩ := mapM_siteOf h
  refine ⟨hops site hs, mem_foldr_group ?_⟩
  rw [← hgroups]
  exact List.mem_map_of_mem hs

/-- The sites of listed spans are the jumps and switches. -/
theorem sitesOf_listed {is : List Instruction} (hpc : is.Pairwise fun i j => i.pc < j.pc)
    {spans : Array Span} (hl : Lists spans.toList is) {sites : List Site}
    (h : sitesOf code spans = .ok sites) :
    sites.map (fun site => (site.top, site.arms.map Arm.field)) =
      (is.filter fun i => !i.fields.isEmpty).map fun i => (i.pc, i.fields) := by
  rw [sitesOf, ← Array.foldr_toList] at h
  rw [← foldr_group hpc hl, ← (mapM_siteOf h).1, List.map_map]
  rfl

/-- The sites are the jumps and switches among the instructions. -/
structure Mirrors (is : List Instruction) (spans : List Span) (sites : List Site) : Prop where
  /-- Site by site: offset, opcode and fields. -/
  same : sites.map (fun site => (site.top, site.op, site.arms.map Arm.field)) =
    (is.filter fun i => !i.fields.isEmpty).map fun i => (i.pc, i.op, i.fields)
  /-- Nothing has moved yet. -/
  unmoved : ∀ site ∈ sites, ∀ arm ∈ site.arms, arm.place = arm.field
  /-- Every arm is one of the spans. -/
  recorded : ∀ site ∈ sites, ∀ arm ∈ site.arms, ⟨site.top, arm.field, arm.destination⟩ ∈ spans

/-- Instructions one behind the other lie apart. -/
theorem pairwise_apart {is : List Instruction} (h : Whole code pc is) :
    is.Pairwise fun i j => i.pc + i.length ≤ j.pc := by
  induction is generalizing pc with
  | nil => exact .nil
  | cons i is ih =>
    obtain ⟨rfl, -, -, hrest⟩ := h
    exact List.pairwise_cons.mpr ⟨fun j hj => (hrest.bounds.2 j hj).1, ih hrest⟩

theorem pairwise_pc {is : List Instruction} (h : Whole code pc is) :
    is.Pairwise fun i j => i.pc < j.pc :=
  (pairwise_apart h).imp_of_mem fun {i j} hi _ hle => by
    have := instructionLength?_pos (h.bounds.2 i hi).2.2.1 (h.bounds.2 i hi).2.2.2
    omega

/-- The sites of listed spans. -/
theorem sitesOf_mirrors {is : List Instruction} (hw : Whole code todo is) {spans : Array Span}
    (hl : Lists spans.toList is) {sites : List Site} (h : sitesOf code spans = .ok sites) :
    Mirrors is spans.toList sites := by
  refine ⟨?_, fun site hs arm ha => ?_, fun site hs arm ha => ?_⟩
  · -- the opcode of a site is the one that stands in the code
    let read : Nat × List Nat → Nat × Opcode × List Nat := fun p =>
      (p.1, (opcodeAt? code p.1).getD .nop, p.2)
    have hsites : sites.map (fun site => (site.top, site.op, site.arms.map Arm.field)) =
        (sites.map fun site => (site.top, site.arms.map Arm.field)).map read := by
      rw [List.map_map]
      exact List.map_congr_left fun site hs => by simp [read, (of_sitesOf h hs).1]
    rw [hsites, sitesOf_listed (pairwise_pc hw) hl h, List.map_map]
    refine List.map_congr_left fun i hi => ?_
    simp [read, (hw.bounds.2 i (List.mem_filter.mp hi).1).2.2.1]
  · obtain ⟨span, -, -, rfl⟩ := (of_sitesOf h hs).2.2 arm ha
    rfl
  · obtain ⟨span, hspan, htop, rfl⟩ := (of_sitesOf h hs).2.2 arm ha
    rw [← htop]
    exact hspan

namespace Mirrors

variable {is : List Instruction} {spans : List Span} {sites : List Site}

/-- Every site is an instruction. -/
theorem exists_instruction (h : Mirrors is spans sites) (hs : site ∈ sites) :
    ∃ i ∈ is, i.pc = site.top ∧ i.op = site.op ∧ i.fields = site.arms.map Arm.field := by
  have hm : (site.top, site.op, site.arms.map Arm.field) ∈
      sites.map fun site => (site.top, site.op, site.arms.map Arm.field) := List.mem_map_of_mem hs
  rw [h.same] at hm
  obtain ⟨i, hi, heq⟩ := List.mem_map.mp hm
  simp only [Prod.mk.injEq] at heq
  exact ⟨i, (List.mem_filter.mp hi).1, heq⟩

/-- Every instruction with offsets is a site. -/
theorem exists_site (h : Mirrors is spans sites) (hi : i ∈ is) (hne : i.fields ≠ []) :
    ∃ site ∈ sites, site.top = i.pc ∧ site.op = i.op ∧ site.arms.map Arm.field = i.fields := by
  have hf : i ∈ is.filter fun i => !i.fields.isEmpty := by
    refine List.mem_filter.mpr ⟨hi, ?_⟩
    cases hfields : i.fields with
    | nil => exact absurd hfields hne
    | cons field fields => rfl
  have hm : (i.pc, i.op, i.fields) ∈
      (is.filter fun i => !i.fields.isEmpty).map fun i => (i.pc, i.op, i.fields) :=
    List.mem_map_of_mem hf
  rw [← h.same] at hm
  obtain ⟨site, hs, heq⟩ := List.mem_map.mp hm
  simp only [Prod.mk.injEq] at heq
  exact ⟨site, hs, heq⟩

theorem narrow (h : Mirrors is spans sites) (hnarrow : ∀ i ∈ is, i.op.isWide = false) :
    ∀ site ∈ sites, site.op.isWide = false := by
  intro site hs
  obtain ⟨i, hi, -, hop, -⟩ := h.exists_instruction hs
  rw [← hop]
  exact hnarrow i hi

end Mirrors

theorem armsOrdered_of_fields (h : FieldsOrdered lo (arms.map Arm.field) hi) :
    ArmsOrdered lo arms hi := by
  induction arms generalizing lo with
  | nil => exact h
  | cons arm arms ih => exact ⟨h.1, ih h.2⟩

/-- Sites taken from instructions lie one behind the other. -/
theorem sitesOrdered_of_groups {js : List Instruction} {sites : List Site}
    (hgroups : sites.map (fun site => (site.top, site.arms.map Arm.field)) =
      js.map fun j => (j.pc, j.fields)) (hne : ∀ j ∈ js, j.fields ≠ [])
    (hordered : ∀ j ∈ js, FieldsOrdered (j.pc + 1) j.fields (j.pc + j.length))
    (hapart : js.Pairwise fun i j => i.pc + i.length ≤ j.pc) (hlo : ∀ j ∈ js, lo ≤ j.pc)
    (hhi : ∀ j ∈ js, j.pc + j.length ≤ hi) (hle : lo ≤ hi) : SitesOrdered lo sites hi := by
  induction js generalizing sites lo with
  | nil =>
    obtain rfl : sites = [] := by simpa using hgroups
    exact hle
  | cons j js ih =>
    rw [List.map_cons, List.map_eq_cons_iff] at hgroups
    obtain ⟨site, sites, rfl, hsite, hgroups⟩ := hgroups
    obtain ⟨htop, hfields⟩ := Prod.mk.inj hsite
    obtain ⟨hbehind, hapart⟩ := List.pairwise_cons.mp hapart
    have hj := hordered j (by simp)
    rw [← htop, ← hfields] at hj
    refine ⟨by rw [htop]; exact hlo j (by simp), fun hnone => ?_, site.top + j.length,
      armsOrdered_of_fields hj, ih hgroups (fun i hi => hne i (by simp [hi]))
        (fun i hi => hordered i (by simp [hi])) hapart (fun i hi => ?_)
        (fun i hi => hhi i (by simp [hi])) ?_⟩
    · rw [hnone] at hfields
      exact hne j (by simp) hfields.symm
    · rw [htop]
      exact hbehind i hi
    · rw [htop]
      exact hhi j (by simp)

theorem sitesOrdered_of_whole {is : List Instruction} (hw : Whole code pc is)
    (hnarrow : ∀ i ∈ is, i.op.isWide = false) {sites : List Site}
    (h : sites.map (fun site => (site.top, site.op, site.arms.map Arm.field)) =
      (is.filter fun i => !i.fields.isEmpty).map fun i => (i.pc, i.op, i.fields)) :
    SitesOrdered pc sites code.size := by
  have hgroups := congrArg (List.map fun p : Nat × Opcode × List Nat => (p.1, p.2.2)) h
  simp only [List.map_map, Function.comp_def] at hgroups
  have hmem : ∀ i ∈ is.filter fun i => !i.fields.isEmpty, i ∈ is :=
    fun i hi => (List.mem_filter.mp hi).1
  refine sitesOrdered_of_groups hgroups (fun i hi => by simpa using (List.mem_filter.mp hi).2)
    (fun i hi => ?_) ((pairwise_apart hw).filter _) (fun i hi => (hw.bounds.2 i (hmem i hi)).1)
    (fun i hi => (hw.bounds.2 i (hmem i hi)).2.1) hw.bounds.1
  obtain ⟨-, -, hop, hlen⟩ := hw.bounds.2 i (hmem i hi)
  exact i.fieldsOrdered hop hlen (hnarrow i (hmem i hi))

/-- The offsets of the promoted instructions. -/
def promotedFields (is : List Instruction) (wide : Nat → Bool) : List Nat :=
  (is.filter fun i => wide i.pc).flatMap Instruction.fields

/-- Instructions without offsets do not matter. -/
theorem promotedFields_eq (is : List Instruction) (wide : Nat → Bool) :
    promotedFields is wide =
      (is.filter fun i => wide i.pc && !i.fields.isEmpty).flatMap Instruction.fields := by
  rw [promotedFields]
  induction is with
  | nil => rfl
  | cons i is ih =>
    cases hw : wide i.pc <;> cases hfields : i.fields <;> simp [hw, hfields, ih]

/-- The widened fields are those of the promoted instructions. -/
theorem widenedFields_of_instructions {is : List Instruction} {sites : List Site}
    (h : sites.map (fun site => (site.top, site.op, site.arms.map Arm.field)) =
      (is.filter fun i => !i.fields.isEmpty).map fun i => (i.pc, i.op, i.fields))
    (wide : Nat → Bool) :
    widenedFields sites wide = promotedFields is wide := by
  induction is generalizing sites with
  | nil =>
    have hnil : sites = [] := by simpa using h
    subst hnil
    rfl
  | cons i is ih =>
    cases hfields : i.fields with
    | nil =>
      rw [List.filter_cons_of_neg (by simp [hfields])] at h
      rw [ih h]
      cases hw : wide i.pc <;> simp [promotedFields, hw, hfields]
    | cons field fields =>
      rw [List.filter_cons_of_pos (by simp [hfields]), List.map_cons, List.map_eq_cons_iff] at h
      obtain ⟨site, sites, rfl, hsite, h⟩ := h
      simp only [Prod.mk.injEq] at hsite
      obtain ⟨htop, -, harms⟩ := hsite
      rw [widenedFields_cons, ih h, htop, harms]
      cases hw : wide i.pc <;> simp [promotedFields, hw]

theorem fieldsOrdered_bounds {fields : List Nat} (h : FieldsOrdered lo fields hi) :
    lo ≤ hi ∧ ∀ field ∈ fields, lo ≤ field ∧ field + 2 ≤ hi := by
  induction fields generalizing lo with
  | nil => exact ⟨h, by simp⟩
  | cons field fields ih =>
    obtain ⟨hlo, hrest⟩ := h
    obtain ⟨hle, hall⟩ := ih hrest
    refine ⟨by omega, fun f hf => ?_⟩
    rcases List.mem_cons.mp hf with rfl | hf
    · omega
    · have := hall f hf
      omega

/-- Inside an instruction the code grows at its own fields, if it is promoted. -/
theorem grown_inside {is : List Instruction} (hw : Whole code todo is)
    (hnarrow : ∀ i ∈ is, i.op.isWide = false) (wide : Nat → Bool) (hi : i ∈ is) {x : Nat}
    (hlo : i.pc ≤ x) (hhi : x ≤ i.pc + i.length) :
    grown (promotedFields is wide) x = grown (promotedFields is wide) i.pc + (x - i.pc) +
      if wide i.pc then 2 * i.fields.countP (· < x) else 0 := by
  have hfields : ∀ j ∈ is, ∀ field ∈ j.fields, j.pc + 1 ≤ field ∧ field + 2 ≤ j.pc + j.length := by
    intro j hj
    obtain ⟨-, -, hop, hlen⟩ := hw.bounds.2 j hj
    exact (fieldsOrdered_bounds (j.fieldsOrdered hop hlen (hnarrow j hj))).2
  obtain ⟨left, right, rfl⟩ := List.append_of_mem hi
  obtain ⟨hleft, hright⟩ := hw.around
  -- fields in front of the instruction count for both, fields behind it for neither
  have hbefore : ∀ y, i.pc ≤ y →
      (promotedFields left wide).countP (· < y) = (promotedFields left wide).length := by
    intro y hy
    apply countP_lt_eq_length
    intro w hw
    obtain ⟨j, hj, hw⟩ := List.mem_flatMap.mp hw
    have hj := (List.mem_filter.mp hj).1
    have := hfields j (by simp [hj]) w hw
    have := hleft j hj
    omega
  have hbehind : ∀ y, y ≤ i.pc + i.length →
      (promotedFields right wide).countP (· < y) = 0 := by
    intro y hy
    apply countP_lt_eq_zero
    intro w hw
    obtain ⟨j, hj, hw⟩ := List.mem_flatMap.mp hw
    have hj := (List.mem_filter.mp hj).1
    have := hfields j (by simp [hj]) w hw
    have := hright j hj
    omega
  have hown : i.fields.countP (· < i.pc) = 0 := by
    apply countP_lt_eq_zero
    intro w hw
    have := hfields i hi w hw
    omega
  have hsplit : promotedFields (left ++ i :: right) wide =
      promotedFields left wide ++ ((if wide i.pc then i.fields else []) ++
        promotedFields right wide) := by
    cases hwi : wide i.pc <;> simp [promotedFields, hwi]
  rw [hsplit]
  simp only [grown, List.countP_append, hbefore x hlo, hbefore i.pc (Nat.le_refl _),
    hbehind x hhi, hbehind i.pc (by omega)]
  cases wide i.pc with
  | false =>
    simp only [Bool.false_eq_true, if_false, List.countP_nil]
    omega
  | true =>
    simp only [if_true, hown]
    omega

end ScriptCompiler.Layout
