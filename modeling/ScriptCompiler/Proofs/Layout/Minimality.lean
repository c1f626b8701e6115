import ScriptCompiler.Proofs.Layout.Widening
import Mathlib.Data.List.Basic
import Mathlib.Logic.Relation

/-!
# Widening promotes no more sites than it has to

Widening more sites never brings the two ends of a span closer, so a span that
does not fit goes on not fitting. Two things follow for the sites promoted one
after the other: each of them does not fit in the final layout either, and every
set of sites that leaves nothing out of range contains them all.
-/

namespace ScriptCompiler.Layout

variable {wide wide' : Nat → Bool} {x y lo hi : Nat} {site : Site}

/-- The larger set of promoted sites widens the fields of the smaller one and some more. -/
theorem widenedFields_sublist {sites : List Site}
    (h : ∀ site ∈ sites, wide site.top → wide' site.top) :
    (widenedFields sites wide).Sublist (widenedFields sites wide') := by
  induction sites with
  | nil => exact List.Sublist.refl _
  | cons site sites ih =>
    obtain ⟨hsite, hsites⟩ := List.forall_mem_cons.mp h
    rw [widenedFields_cons, widenedFields_cons]
    refine List.Sublist.append ?_ (ih hsites)
    split
    · next hwide =>
      rw [if_pos (hsite hwide)]
    · exact List.nil_sublist _

/-- Fields before `y` lie before `x` or between the two. -/
theorem countP_lt_split (W : List Nat) (h : x ≤ y) :
    W.countP (· < y) = W.countP (· < x) + W.countP fun w => decide (x ≤ w) && decide (w < y) := by
  induction W with
  | nil => rfl
  | cons w W ih =>
    simp only [List.countP_cons, ih, Bool.and_eq_true, decide_eq_true_eq]
    split_ifs <;> omega

/-- More growth moves two bytes no closer together. -/
theorem grown_spread {W V : List Nat} (hsub : W.Sublist V) (h : x ≤ y) :
    grown W y + grown V x ≤ grown V y + grown W x := by
  have hbetween := hsub.countP_le (p := fun w => decide (x ≤ w) && decide (w < y))
  simp only [grown, countP_lt_split _ h]
  omega

variable {sites : List Site} {targets : TargetIndex}

/-- A site that does not fit does not fit either once more sites are wide. -/
theorem Exceeds.mono (h : ∀ s ∈ sites, wide s.top → wide' s.top)
    (hexceeds : Exceeds sites targets wide site) : Exceeds sites targets wide' site := by
  obtain ⟨arm, ha, span, hspan, hlarge⟩ := hexceeds
  have hsub := widenedFields_sublist h
  simp only [spanIn, armSpan] at hspan
  cases hdest : arm.destination with
  | unset =>
    rw [hdest] at hspan
    cases hspan
    cases hlarge
  | link delta =>
    rw [hdest] at hspan
    cases hspan
  | target entry =>
    rw [hdest] at hspan
    cases hspan
    refine ⟨arm, ha, _, by rw [spanIn, armSpan, hdest], ?_⟩
    rw [offset_moveTargets] at hlarge ⊢
    simp only [Bytes.fits16, Bool.and_eq_false_iff, decide_eq_false_iff_not] at hlarge ⊢
    -- a jump forward grows upwards, a jump backward downwards
    rcases Nat.le_total site.top (targets.offset entry) with hle | hle
    · have hspread := grown_spread hsub hle
      have hforward := grown_le_grown (widenedFields sites wide) hle
      omega
    · have hspread := grown_spread hsub hle
      have hback := grown_le_grown (widenedFields sites wide) hle
      omega

/-- A site does not both fit and exceed. -/
theorem Exceeds.not_fits (h : Exceeds sites targets wide site) :
    ¬ Fits sites targets wide site := by
  intro hfits
  obtain ⟨arm, ha, span, hspan, hlarge⟩ := h
  obtain ⟨span', hspan', hsmall⟩ := hfits arm ha
  rw [hspan] at hspan'
  cases hspan'
  rw [hlarge] at hsmall
  cases hsmall

theorem Promotion.le (h : Promotion sites targets wide wide') :
    ∀ s ∈ sites, wide s.top → wide' s.top := by
  obtain ⟨site, -, -, -, rfl⟩ := h
  intro s _ hs
  simp [hs]

/-- What is promoted step by step lies in every set that leaves nothing out of range. -/
theorem steps_least {other : Nat → Bool}
    (h : Relation.ReflTransGen (Promotion sites targets) (fun _ => false) wide)
    (hother : Settles sites targets other) :
    ∀ site ∈ sites, wide site.top → other site.top := by
  induction h with
  | refl =>
    intro site _ hwide
    cases hwide
  | tail _ hstep ih =>
    obtain ⟨promoted, hmem, -, hexceeds, rfl⟩ := hstep
    intro site hs hwide
    rcases Bool.or_eq_true_iff.mp hwide with hwide | hwide
    · exact ih site hs hwide
    · rw [beq_iff_eq.mp hwide]
      by_contra hnarrow
      exact (hexceeds.mono ih).not_fits (hother promoted hmem (by simpa using hnarrow))

/-- Sites in the order of the code have different opcodes. -/
theorem SitesOrdered.eq_of_top (h : SitesOrdered lo sites hi) {s t : Site} (hs : s ∈ sites)
    (ht : t ∈ sites) (htop : s.top = t.top) : s = t := by
  induction sites generalizing lo with
  | nil => cases hs
  | cons site sites ih =>
    obtain ⟨-, -, mid, harms, hrest⟩ := h
    have hmid := harms.le
    rcases List.mem_cons.mp hs with rfl | hs'
    · rcases List.mem_cons.mp ht with rfl | ht'
      · rfl
      · have := hrest.bounds t ht'
        omega
    · rcases List.mem_cons.mp ht with rfl | ht'
      · have := hrest.bounds s hs'
        omega
      · exact ih hrest hs' ht'

/-- No site promoted step by step fits in the end. -/
theorem steps_tight (hordered : SitesOrdered lo sites hi)
    (h : Relation.ReflTransGen (Promotion sites targets) (fun _ => false) wide) :
    ∀ site ∈ sites, wide site.top → Exceeds sites targets wide site := by
  induction h with
  | refl =>
    intro site _ hwide
    cases hwide
  | tail _ hstep ih =>
    intro site hs hwide
    have hle := hstep.le
    obtain ⟨promoted, hmem, -, hexceeds, rfl⟩ := hstep
    rcases Bool.or_eq_true_iff.mp hwide with hwide | hwide
    · exact (ih site hs hwide).mono hle
    · rw [hordered.eq_of_top hs hmem (beq_iff_eq.mp hwide)]
      exact hexceeds.mono hle

end ScriptCompiler.Layout
