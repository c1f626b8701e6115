import ScriptCompiler.Proofs.Layout.Ascending
import ScriptCompiler.Proofs.Layout.Notes

/-!
# Side tables follow the code

A resolution moves main code by one map of its offsets: a byte goes up by two
for each widened field in front of it. Notes and regions are moved by walks of
their own, each with its own way to find the growth in front of an offset. All
of them come to the same map.
-/

namespace ScriptCompiler

open Bytes NoteBytes

variable {W : List Nat} {n : PlacedNote} {sites : List Site} {wide : Nat → Bool} {layout : Layout}

/-- Where a distance from `start` leads. -/
def Direction.reach : Direction → Nat → Nat → Nat
  | .forward, start, span => start + span
  | .backward, start, span => start - span

/-- A note of code whose bytes have moved. A distance is taken between the places where its two ends
have gone. -/
def PlacedNote.carry (at' : Nat → Nat) (n : PlacedNote) : PlacedNote :=
  { n with
    offset := at' n.offset
    operands := (n.kind.spec.measures.map fun direction => n.operands.map fun span =>
      ((at' (direction.reach (n.offset + n.kind.spec.bias) span) : Int) -
        at' (n.offset + n.kind.spec.bias)).natAbs).getD n.operands }

/-- A region of code whose bytes have moved. -/
def Region.carry (at' : Nat → Nat) (r : Region) : Region :=
  { r with start := at' r.start, length := at' (r.start + r.length) - at' r.start }

/-- Main code is made of whole instructions, its jumps are listed in order while the table of spans is
on, and its notes are whole notes at the starts of instructions. -/
structure Annotated (g : Generator) (is : List Instruction) : Prop where
  whole : Whole g.main.code 0 is
  ascends : g.spans.active = true → g.spans.Ascends g.main.code
  /-- A listed field lies in the instruction of its opcode. -/
  inside : g.spans.active = true → ∀ span ∈ g.spans.spans.toList,
    ∃ i ∈ is, i.pc = span.top ∧ span.field + 2 ≤ i.pc + i.length
  /-- The deltas of the notes add up to where the last note is. -/
  notes : ∃ cs, Spells g.main.notes cs ∧ CodedNote.extent cs = g.main.lastNoteOffset
  boundary : ∀ n ∈ noteList g.main.notes, n.offset = g.main.code.size ∨ ∃ i ∈ is, i.pc = n.offset
  /-- No distance leads to a place before the code. -/
  measured : ∀ n ∈ noteList g.main.notes, n.kind.spec.measures = some .backward →
    ∀ span ∈ n.operands, span ≤ n.offset + n.kind.spec.bias

/-- Main code has been moved, and the opcodes of `wide` promoted. -/
structure Relocates (g g' : Generator) (wide : Nat → Bool) : Prop where
  size : g'.main.code.size = Layout.grown (g.spans.widened wide) g.main.code.size
  /-- What is no opcode of a span and no field goes where the widened fields put it. -/
  kept : ∀ x < g.main.code.size, (∀ span ∈ g.spans.spans.toList, x ≠ span.top ∧
      (x < span.field ∨ span.field + 2 ≤ x)) →
    g'.main.code[Layout.grown (g.spans.widened wide) x]? = g.main.code[x]?
  /-- So do the opcodes, which are wide now if their fields have grown. -/
  opcodes : g.spans.active = true → ∀ span ∈ g.spans.spans.toList, ∃ op op',
    opcodeAt? g.main.code span.top = some op ∧
    opcodeAt? g'.main.code (Layout.grown (g.spans.widened wide) span.top) = some op' ∧
    op'.isWide = wide span.top ∧ (op' = op ∨ op.widened = some op')

/-- Notes and regions have gone where the code has gone. -/
structure Carried (g g' : Generator) (at' : Nat → Nat) : Prop where
  notes : noteList g'.main.notes = (noteList g.main.notes).map (PlacedNote.carry at')
  last : g'.main.lastNoteOffset = at' g.main.lastNoteOffset
  regions : g'.regions = g.regions.map (Region.carry at')

/-! ## Notes -/

theorem NoteKind.bias_le_one (kind : NoteKind) : kind.spec.bias ≤ 1 := by
  cases kind <;> decide

/-- Where no field grows, nothing is put between two bytes. -/
theorem Layout.grown_add {x d : Nat} (h : ∀ w ∈ W, w < x ∨ x + d ≤ w) :
    grown W (x + d) = grown W x + d := by
  have hcount : W.countP (· < x + d) = W.countP (· < x) := by
    refine List.countP_congr fun w hw => ?_
    simp only [decide_eq_true_eq]
    have := h w hw
    omega
  simp only [grown, hcount]
  omega

/-- A distance taken again is the distance between the two new places. -/
theorem Direction.remeasure_eq (direction : Direction) {offset bias span : Nat}
    (hstart : Layout.grown W (offset + bias) = Layout.grown W offset + bias) :
    direction.remeasure (Layout.grown W) offset bias span =
      ((Layout.grown W (direction.reach (offset + bias) span) : Int) -
        Layout.grown W (offset + bias)).natAbs := by
  rw [remeasure]
  cases direction with
  | forward =>
    have hle := Layout.grown_le_grown W (Nat.le_add_right (offset + bias) span)
    rw [← hstart, reach]
    by_cases hzero : span = 0
    · rw [if_pos hzero, hzero]
      simp
    · rw [if_neg hzero, if_pos rfl]
      omega
  | backward =>
    have hle := Layout.grown_le_grown W (Nat.sub_le (offset + bias) span)
    rw [← hstart, reach]
    by_cases hzero : span = 0
    · rw [if_pos hzero, hzero]
      simp
    · rw [if_neg hzero, if_neg (by simp)]
      omega

/-- A note that stands in front of no field goes where its code goes. -/
theorem PlacedNote.relocate_eq_carry (h : ∀ w ∈ W, w < n.offset ∨ n.offset + n.kind.spec.bias ≤ w) :
    n.relocate (Layout.grown W) = n.carry (Layout.grown W) := by
  have hstart := Layout.grown_add h
  have hsame : ∀ direction : Direction,
      n.operands.map (direction.remeasure (Layout.grown W) n.offset n.kind.spec.bias) =
        n.operands.map fun span =>
          ((Layout.grown W (direction.reach (n.offset + n.kind.spec.bias) span) : Int) -
            Layout.grown W (n.offset + n.kind.spec.bias)).natAbs := fun direction =>
    List.map_congr_left fun span _ => direction.remeasure_eq hstart
  simp only [relocate, carry, hsame]

/-- Where nothing grows, a note stays. -/
theorem PlacedNote.carry_nil
    (h : n.kind.spec.measures = some .backward →
    ∀ span ∈ n.operands, span ≤ n.offset + n.kind.spec.bias) : n.carry (Layout.grown []) = n := by
  have hsame : (n.kind.spec.measures.map fun direction => n.operands.map fun span =>
      ((direction.reach (n.offset + n.kind.spec.bias) span : Int) -
        (n.offset + n.kind.spec.bias : Nat)).natAbs).getD n.operands = n.operands := by
    cases hmeasures : n.kind.spec.measures with
    | none => rfl
    | some direction =>
      rw [Option.map_some, Option.getD_some, List.map_congr_left (g := id), List.map_id]
      intro span hspan
      cases direction with
      | forward =>
        simp only [Direction.reach, id]
        omega
      | backward =>
        have := h hmeasures span hspan
        simp only [Direction.reach, id]
        omega
  simp only [carry, Layout.grown_nil, hsame]

/-- A note at the start of an instruction stands in front of no listed field. -/
theorem Annotated.clear {g : Generator} {is : List Instruction} (h : Annotated g is)
    (hon : g.spans.active) (wide : Nat → Bool) (hn : n ∈ noteList g.main.notes) :
    ∀ w ∈ g.spans.widened wide, w < n.offset ∨ n.offset + n.kind.spec.bias ≤ w := by
  intro w hw
  obtain ⟨span, hspan, rfl⟩ := List.mem_map.mp hw
  have hmem := (List.mem_filter.mp hspan).1
  obtain ⟨i, hi, hpc, hend⟩ := h.inside hon span hmem
  have hbehind := (h.ascends hon).behind span hmem
  have hsize := (h.whole.bounds.2 i hi).2.1
  have hbias := n.kind.bias_le_one
  rcases h.boundary n hn with hlast | ⟨j, hj, hat⟩
  · omega
  · rcases Layout.eq_or_apart h.whole hi hj with rfl | hapart | hapart
    · omega
    · omega
    · have hlen := (h.whole.bounds.2 j hj).2.2
      have hpos := instructionLength?_pos hlen.1 hlen.2
      omega

/-! ## Regions -/

theorem Region.carry_nil (r : Region) : r.carry (Layout.grown []) = r := by
  cases r
  simp [carry]

/-- Regions whose two ends have moved. -/
theorem Layout.Describes.fixRegions {lo hi : Nat} {targets : TargetIndex}
    (hd : Describes sites targets wide layout) (horder : SitesOrdered lo sites hi)
    {tooLarge : Error} {regions regions' : Array Region}
    (h : regions.mapM (Layout.fixRegion tooLarge ⟨layout.arms, layout.growth⟩) = .ok regions') :
    regions' = regions.map (Region.carry (grown (widenedFields sites wide))) := by
  obtain ⟨hsize, hall⟩ := getElem?_of_mapM h
  refine Array.ext_getElem? fun i => ?_
  rw [Array.getElem?_map]
  cases hr : regions[i]? with
  | none =>
    have hle : regions.size ≤ i := by simpa using hr
    simp only [Option.map_none]
    exact Array.getElem?_eq_none (by omega)
  | some r =>
    obtain ⟨r', hr', hfix⟩ := hall i r hr
    obtain ⟨hkind, hdepth, hstart, hstop⟩ := hd.fixRegion horder hfix
    rw [hr', Option.map_some]
    obtain ⟨kind, depth, start, length⟩ := r'
    simp only at hkind hdepth hstart hstop
    rw [Region.carry, ← hkind, ← hdepth, ← hstart, ← hstop, Nat.add_sub_cancel_left]

/-! ## Resolution -/

section Resolution

variable {g g' : Generator} {is : List Instruction}

/-- Moved code, in terms of the table of spans. -/
theorem Layout.Relocated.relocates (hascends : g.spans.Ascends g.main.code)
    (hsites : Layout.sitesOf g.main.code g.spans.spans = .ok sites)
    (hd : Describes sites g.spans.targets wide layout)
    (hr : Relocated sites g.spans.targets wide g.main.code g'.main.code) : Relocates g g' wide := by
  have hfields := SpanTable.Ascends.widenedFields_eq hsites wide
  have hnarrow := hascends.sites_narrow hsites
  refine ⟨by rw [← hfields]; exact hr.size, fun x hx hfree => ?_, fun _ span hspan => ?_⟩
  · rw [← hfields]
    refine hr.kept x hx fun site hs => ?_
    obtain ⟨-, hne, harms⟩ := of_sitesOf hsites hs
    obtain ⟨first, hfirst⟩ := List.exists_mem_of_ne_nil _ hne
    obtain ⟨span, hspan, htop, -⟩ := harms first hfirst
    refine ⟨by rw [← htop]; exact (hfree span hspan).1, fun arm ha => ?_⟩
    obtain ⟨span, hspan, -, rfl⟩ := harms arm ha
    exact (hfree span hspan).2
  · -- every span belongs to a site with its opcode
    have hmem : (span.top, span.field) ∈ g.spans.spans.toList.map fun span =>
        (span.top, span.field) := List.mem_map_of_mem hspan
    rw [← SpanTable.Ascends.pairs hsites] at hmem
    obtain ⟨site, hs, harm⟩ := List.mem_flatMap.mp hmem
    obtain ⟨arm, -, heq⟩ := List.mem_map.mp harm
    obtain ⟨htop, -⟩ := Prod.mk.inj heq
    have hop : opcodeAt? g.main.code site.top = some site.op := by
      rw [Layout.sitesOf, ← Array.foldr_toList] at hsites
      exact (mapM_siteOf hsites).2 site hs
    have hwritten := (hr.written site hs).opcode
    have hwide := isWide_placeSite hnarrow hd.promotable hs id
    rw [hfields, htop] at hwritten
    rw [htop] at hop
    refine ⟨site.op, _, hop, by simp [opcodeAt?, hwritten]; rfl, ?_, ?_⟩
    · rw [← htop]
      exact hwide
    · cases hw : wide span.top with
      | false => exact .inl rfl
      | true =>
        obtain ⟨twin, htwin⟩ := Option.isSome_iff_exists.mp
          (hd.promotable site hs (by rw [htop, hw]))
        exact .inr (by rw [htwin]; rfl)

/-- Where nothing has grown, notes and regions stay. -/
theorem Annotated.carried_nil (h : Annotated g is) (hnotes : g'.main.notes = g.main.notes)
    (hlast : g'.main.lastNoteOffset = g.main.lastNoteOffset) (hregions : g'.regions = g.regions) :
    Carried g g' (Layout.grown []) := by
  refine ⟨?_, by rw [hlast, Layout.grown_nil], ?_⟩
  · rw [hnotes, List.map_congr_left (g := id), List.map_id]
    intro n hn
    exact PlacedNote.carry_nil (h.measured n hn)
  · rw [hregions, Array.map_congr_left (g := id), Array.map_id]
    intro r _
    exact r.carry_nil

/-- A resolution moves the code by one map of its offsets, and the side tables follow it: every note
goes where the code at it goes and measures the distance between the same two places as before,
and every region ends up between the new places of its two ends. -/
theorem resolveSpans_carries (h : Annotated g is) (hok : Emit.resolveSpans g = .ok () g') :
    ∃ wide, Relocates g g' wide ∧ Carried g g' (Layout.grown (g.spans.widened wide)) := by
  cases hon : g.spans.active with
  | false =>
    obtain rfl := resolveSpans_off hon hok
    have hnone : g.spans.widened (fun _ => false) = [] := by simp [SpanTable.widened]
    refine ⟨fun _ => false, ⟨?_, fun x _ _ => ?_, fun hactive => ?_⟩, ?_⟩
    · rw [hnone, Layout.grown_nil]
    · rw [hnone, Layout.grown_nil]
    · rw [hon] at hactive
      cases hactive
    · rw [hnone]
      exact h.carried_nil rfl rfl rfl
  | true =>
    have hascends := h.ascends hon
    obtain ⟨sites, layout, code, notes, last, regions, hsites, hlayout, hcode, hnotes, hregions, rfl⟩ :=
      resolveSpans_ok hon hok
    have horder := hascends.ordered hsites fun span hspan => by
      obtain ⟨i, hi, -, hend⟩ := h.inside hon span hspan
      exact Nat.le_trans hend (h.whole.bounds.2 i hi).2.1
    have hnarrow := hascends.sites_narrow hsites
    obtain ⟨wide, hd, -⟩ := Layout.settle_unmoved ⟨⟨_, _, horder⟩, hnarrow⟩
      (SpanTable.Ascends.unmoved hsites) hlayout
    have hfields := SpanTable.Ascends.widenedFields_eq hsites wide
    refine ⟨wide, Layout.Relocated.relocates hascends hsites hd
      (Layout.relocate_ok horder hnarrow hd hcode), ?_⟩
    by_cases hgrowth : 0 < layout.growth
    · rw [if_pos hgrowth] at hnotes hregions
      obtain ⟨grown, hfix, rfl⟩ := hnotes
      obtain ⟨cs, hspells, hextent⟩ := h.notes
      obtain ⟨cs', hspells', hplaced, -, hlast⟩ := Layout.fixNotes_ok (hd.follows horder)
        (Layout.grown_zero _) hspells hfix
      rw [hfields] at hplaced hlast
      refine ⟨?_, ?_, ?_⟩
      · show noteList notes = _
        rw [hspells'.noteList, hplaced, ← hspells.noteList]
        exact List.map_congr_left fun n hn => PlacedNote.relocate_eq_carry (h.clear hon wide hn)
      · rw [← hextent]
        exact hlast
      · rw [← hfields]
        exact hd.fixRegions horder hregions
    · rw [if_neg hgrowth] at hnotes hregions
      obtain ⟨rfl, rfl⟩ := hnotes
      have hnone : g.spans.widened wide = [] := by
        rw [hd.growth, hfields] at hgrowth
        exact List.length_eq_zero_iff.mp (by omega)
      rw [hnone]
      exact h.carried_nil rfl rfl hregions.symm

end Resolution

/-- A jump over more than 16 bits in a region, with a note that measures its length and a note behind
it that measures back to its start. -/
def annotatedJump : Generator :=
  { farJump with
    main := ⟨farJump.main.code, #[160, 8, 3, 131, 3], 3, 1⟩
    regions := #[⟨.catchBlock, 0, 0, 3⟩] }

/-- The jump is two bytes longer, and so are the region and both distances. -/
def annotatedJumpResolved : Generator :=
  { farJumpResolved with
    main := ⟨farJumpResolved.main.code, #[160, 8, 5, 133, 5], 5, 1⟩
    regions := #[⟨.catchBlock, 0, 0, 5⟩] }

theorem annotatedJump_annotated :
    Annotated annotatedJump [⟨0, .goto, 3⟩, ⟨3, .nop, 1⟩] := by
  obtain ⟨cs, hspells, hextent, hplaced⟩ : ∃ cs, Spells annotatedJump.main.notes cs ∧
      CodedNote.extent cs = 3 ∧
      CodedNote.placed 0 cs = [⟨.whileLoop, 0, [3]⟩, ⟨.pcBase, 3, [3]⟩] :=
    ⟨[⟨.whileLoop, 0, [⟨3, false, by decide, by decide⟩], by decide, by decide, by decide⟩,
      ⟨.pcBase, 3, [⟨3, false, by decide, by decide⟩], by decide, by decide, by decide⟩],
      rfl, rfl, rfl⟩
  have hnotes := hspells.noteList.trans hplaced
  refine ⟨farJump_recorded.whole, fun _ => ⟨by decide, by decide, fun span hspan op hop => ?_⟩,
    fun _ => by decide, ⟨cs, hspells, hextent⟩, ?_, ?_⟩
  · have hgoto : ∀ span ∈ annotatedJump.spans.spans.toList,
        opcodeAt? annotatedJump.main.code span.top = some .goto := by decide
    rw [hgoto span hspan] at hop
    cases hop
    rfl
  · rw [hnotes]
    decide
  · rw [hnotes]
    decide

theorem annotatedJump_resolves :
    Emit.resolveSpans annotatedJump = .ok () annotatedJumpResolved := by
  simp only [Emit.resolveSpans, Emit.get_bind]
  rw [if_neg (by decide)]
  simp only [Emit.lift_bind_ok, Emit.modify_bind]
  refine ⟨[⟨0, .goto, [⟨1, 1, .target 0⟩]⟩], rfl,
    ⟨[⟨0, .gotoX, [⟨1, 1, .target 0⟩]⟩], ⟨#[40002], .node 0 0 .leaf .leaf, [], 1⟩, 2, 2⟩,
    by decide +kernel, farJumpResolved.main.code, rfl, ?_⟩
  rw [if_pos (by decide)]
  simp only [Emit.lift_bind_ok, Emit.modify_bind]
  refine ⟨(#[160, 8, 5, 133, 5], 2), by decide +kernel, #[⟨.catchBlock, 0, 0, 5⟩], ?_, rfl⟩
  decide +kernel

theorem resolveSpans_carries_annotatedJump :
    Annotated annotatedJump [⟨0, .goto, 3⟩, ⟨3, .nop, 1⟩] ∧
      Emit.resolveSpans annotatedJump = .ok () annotatedJumpResolved ∧
      ∃ wide, Relocates annotatedJump annotatedJumpResolved wide ∧
        Carried annotatedJump annotatedJumpResolved
          (Layout.grown (annotatedJump.spans.widened wide)) :=
  ⟨annotatedJump_annotated, annotatedJump_resolves,
    resolveSpans_carries annotatedJump_annotated annotatedJump_resolves⟩

end ScriptCompiler
