import ScriptCompiler.Proofs.Layout.Sites

/-!
# Tables of spans in the order of the code

Spans in ascending order, those of one opcode next to each other, give sites in
the order of the code. Nothing else is asked of a table for its sites to be
widened and moved as a whole.
-/

namespace ScriptCompiler

open Layout

/-- The spans of narrow jumps and switches in the order of the code: fields do not overlap, and the
opcode of a field lies right behind the last field in front of it or is shared with it. -/
structure SpanTable.Ascends (t : SpanTable) (code : Bytes) : Prop where
  behind : ∀ span ∈ t.spans.toList, span.top < span.field
  apart : t.spans.toList.Pairwise fun s s' => s.field + 2 ≤ s'.field ∧
    (s'.top = s.top ∨ s.field + 2 ≤ s'.top)
  narrow : ∀ span ∈ t.spans.toList, ∀ op, opcodeAt? code span.top = some op → op.isWide = false

namespace Layout

/-- Arms that start later. -/
theorem ArmsOrdered.of_le {lo lo' hi : Nat} {arms : List Arm} (h : ArmsOrdered lo arms hi)
    (hne : arms ≠ []) (hge : ∀ arm ∈ arms, lo' ≤ arm.field) : ArmsOrdered lo' arms hi := by
  cases arms with
  | nil => exact absurd rfl hne
  | cons arm arms => exact ⟨hge arm List.mem_cons_self, h.2⟩

/-- A span that does not join the first group lies in front of all opcodes behind it. -/
theorem opcodes_behind {span : Span} {spans : List Span}
    (hbehind : ∀ s ∈ span :: spans, s.top < s.field)
    (hapart : (span :: spans).Pairwise fun s s' => s.field + 2 ≤ s'.field ∧
      (s'.top = s.top ∨ s.field + 2 ≤ s'.top))
    (hother : ∀ arms rest, spans.foldr group [] ≠ (span.top, arms) :: rest) :
    ∀ s ∈ spans, span.field + 2 ≤ s.top := by
  obtain ⟨hspan, hrest⟩ := List.pairwise_cons.mp hapart
  cases spans with
  | nil => simp
  | cons first spans =>
    have hfirst : span.field + 2 ≤ first.top := by
      refine (hspan first List.mem_cons_self).2.resolve_left fun heq => ?_
      rw [List.foldr_cons, ← heq] at hother
      obtain ⟨arms, rest, -, hgroup⟩ | ⟨-, hgroup⟩ := group_cases first (spans.foldr group [])
      · exact hother _ _ hgroup
      · exact hother _ _ hgroup
    have hfield := hbehind first (List.mem_cons_of_mem _ List.mem_cons_self)
    obtain ⟨hlater, -⟩ := List.pairwise_cons.mp hrest
    intro s hs
    rcases List.mem_cons.mp hs with rfl | hs
    · exact hfirst
    · have := (hlater s hs).2
      omega

/-- The sites of ascending spans come in the order of the code. -/
theorem sitesOrdered_of_ascending {spans : List Span} (hbehind : ∀ s ∈ spans, s.top < s.field)
    (hapart : spans.Pairwise fun s s' => s.field + 2 ≤ s'.field ∧
      (s'.top = s.top ∨ s.field + 2 ≤ s'.top)) {sites : List Site}
    (hgroups : sites.map (fun site => (site.top, site.arms)) = spans.foldr group [])
    {lo hi : Nat} (hlo : ∀ s ∈ spans, lo ≤ s.top) (hhi : ∀ s ∈ spans, s.field + 2 ≤ hi)
    (hle : lo ≤ hi) : SitesOrdered lo sites hi := by
  induction spans generalizing sites lo with
  | nil =>
    obtain rfl : sites = [] := by simpa using hgroups
    exact hle
  | cons span spans ih =>
    have hspan := hbehind span List.mem_cons_self
    have hfield := hhi span List.mem_cons_self
    obtain ⟨hlater, hrest⟩ := List.pairwise_cons.mp hapart
    have hbehind' : ∀ s ∈ spans, s.top < s.field := fun s hs => hbehind s (List.mem_cons_of_mem _ hs)
    have hhi' : ∀ s ∈ spans, s.field + 2 ≤ hi := fun s hs => hhi s (List.mem_cons_of_mem _ hs)
    rw [List.foldr_cons] at hgroups
    obtain ⟨arms, rest, hsame, hgroup⟩ | ⟨hother, hgroup⟩ :=
      group_cases span (spans.foldr group [])
    · rw [hgroup, List.map_eq_cons_iff] at hgroups
      obtain ⟨site, sites, rfl, hsite, hgroups⟩ := hgroups
      obtain ⟨htop, harms⟩ := Prod.mk.inj hsite
      have hordered := @ih hbehind' hrest (⟨span.top, site.op, arms⟩ :: sites)
        (by rw [List.map_cons, hgroups, hsame]) lo
        (fun s hs => hlo s (List.mem_cons_of_mem _ hs)) hhi' hle
      obtain ⟨hfirst, hne, mid, hmid, hsites⟩ := hordered
      refine ⟨by rw [htop]; exact hfirst, by rw [harms]; exact List.cons_ne_nil _ _, mid, ?_, hsites⟩
      rw [htop, harms]
      refine ⟨hspan, hmid.of_le hne fun arm ha => ?_⟩
      obtain ⟨span', hs, -, rfl⟩ :=
        (mem_foldr_group (by rw [hsame]; exact List.mem_cons_self)).2 arm ha
      exact (hlater span' hs).1
    · rw [hgroup, List.map_eq_cons_iff] at hgroups
      obtain ⟨site, sites, rfl, hsite, hgroups⟩ := hgroups
      obtain ⟨htop, harms⟩ := Prod.mk.inj hsite
      refine ⟨by rw [htop]; exact hlo span List.mem_cons_self, by rw [harms]; exact List.cons_ne_nil _ _,
        span.field + 2, ?_, ?_⟩
      · rw [htop, harms]
        exact ⟨hspan, Nat.le_refl _⟩
      · exact ih hbehind' hrest hgroups (opcodes_behind hbehind hapart hother) hhi' hfield

/-- The groups hold the fields of the spans, in order, each with its opcode. -/
theorem flatMap_foldr_group (spans : List Span) :
    ((spans.foldr group []).flatMap fun g => g.2.map fun arm => (g.1, arm.field)) =
      spans.map fun span => (span.top, span.field) := by
  induction spans with
  | nil => rfl
  | cons span spans ih =>
    rw [List.foldr_cons]
    obtain ⟨arms, rest, hsame, hgroup⟩ | ⟨-, hgroup⟩ := group_cases span (spans.foldr group [])
    · rw [hgroup, List.map_cons, ← ih, hsame]
      rfl
    · rw [hgroup, List.map_cons, ← ih]
      rfl

/-- The widened fields from the fields of all sites, each with its opcode. -/
theorem widenedFields_eq_filter (sites : List Site) (wide : Nat → Bool) :
    widenedFields sites wide = ((sites.flatMap fun site => site.arms.map fun arm =>
      (site.top, arm.field)).filter fun p => wide p.1).map Prod.snd := by
  induction sites with
  | nil => rfl
  | cons site sites ih =>
    rw [widenedFields_cons, List.flatMap_cons, List.filter_append, List.map_append, ih]
    congr 1
    cases hwide : wide site.top with
    | false => simp [List.filter_map, Function.comp_def, hwide]
    | true => simp [List.filter_map, Function.comp_def, hwide]

end Layout

/-- The fields of the spans whose opcodes are promoted. -/
def SpanTable.widened (t : SpanTable) (wide : Nat → Bool) : List Nat :=
  (t.spans.toList.filter fun span => wide span.top).map Span.field

namespace SpanTable.Ascends

variable {t : SpanTable} {code : Bytes} {sites : List Site}

/-- The sites hold the fields of the spans, in order, each with its opcode. -/
theorem pairs (hsites : sitesOf code t.spans = .ok sites) :
    (sites.flatMap fun site => site.arms.map fun arm => (site.top, arm.field)) =
      t.spans.toList.map fun span => (span.top, span.field) := by
  rw [sitesOf, ← Array.foldr_toList] at hsites
  obtain ⟨hgroups, -⟩ := mapM_siteOf hsites
  rw [← Layout.flatMap_foldr_group, ← hgroups, List.flatMap_map]

theorem widenedFields_eq (hsites : sitesOf code t.spans = .ok sites) (wide : Nat → Bool) :
    Layout.widenedFields sites wide = t.widened wide := by
  rw [Layout.widenedFields_eq_filter, pairs hsites, List.filter_map, List.map_map]
  rfl

/-- The sites come in the order of the code. -/
theorem ordered (h : t.Ascends code) (hsites : sitesOf code t.spans = .ok sites) {stop : Nat}
    (hstop : ∀ span ∈ t.spans.toList, span.field + 2 ≤ stop) : Layout.SitesOrdered 0 sites stop := by
  rw [sitesOf, ← Array.foldr_toList] at hsites
  obtain ⟨hgroups, -⟩ := mapM_siteOf hsites
  exact Layout.sitesOrdered_of_ascending h.behind h.apart hgroups (fun _ _ => Nat.zero_le _) hstop
    (Nat.zero_le _)

/-- Some place lies behind all fields. -/
theorem exists_stop (t : SpanTable) : ∃ stop, ∀ span ∈ t.spans.toList, span.field + 2 ≤ stop := by
  generalize t.spans.toList = spans
  induction spans with
  | nil => exact ⟨0, by simp⟩
  | cons span spans ih =>
    obtain ⟨stop, hstop⟩ := ih
    exact ⟨max (span.field + 2) stop, List.forall_mem_cons.mpr ⟨Nat.le_max_left _ _, fun s hs =>
      Nat.le_trans (hstop s hs) (Nat.le_max_right _ _)⟩⟩

theorem sites_narrow (h : t.Ascends code) (hsites : sitesOf code t.spans = .ok sites) :
    ∀ site ∈ sites, site.op.isWide = false := by
  intro site hs
  obtain ⟨hop, hne, hall⟩ := of_sitesOf hsites hs
  obtain ⟨arm, ha⟩ := List.exists_mem_of_ne_nil _ hne
  obtain ⟨span, hspan, htop, -⟩ := hall arm ha
  exact h.narrow span hspan site.op (by rw [htop]; exact hop)

theorem unmoved (hsites : sitesOf code t.spans = .ok sites) :
    ∀ site ∈ sites, ∀ arm ∈ site.arms, arm.place = arm.field := by
  intro site hs arm ha
  obtain ⟨span, -, -, rfl⟩ := (of_sitesOf hsites hs).2.2 arm ha
  rfl

/-- The sites are ready to be widened. -/
theorem toSites (h : t.Ascends code) (hsites : sitesOf code t.spans = .ok sites) :
    Layout.Sites sites := by
  obtain ⟨stop, hstop⟩ := exists_stop t
  exact ⟨⟨0, stop, h.ordered hsites hstop⟩, h.sites_narrow hsites⟩

end SpanTable.Ascends

end ScriptCompiler
