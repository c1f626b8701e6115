import ScriptCompiler.Layout.Widening
import Mathlib.Data.List.Basic
import Mathlib.Logic.Relation

/-!
# Where widening puts everything

`grown W x` is where the byte at `x` ends up when the fields of the list `W`
have become wide. A layout is described by the set of promoted sites alone:
fields and targets stand where `grown` puts them. One visit of a site keeps
this description, with the site added if it has been promoted, and so does
every run of passes. A site is added only if it does not fit as things stand
then, and passes end when every site that is left out fits.
-/

namespace ScriptCompiler.Layout

variable {lo hi x y mid fuel pivot passes : Nat} {arms : List Arm} {sites : List Site}
  {wide' wide₀ : Nat → Bool} {targets : TargetIndex} {tooLarge : Error} {pass' : Pass}
  {W : List Nat} {at' : Nat → Nat} {layout : Layout}

/-- Where the byte at `x` ends up once every field of `W` has grown by two bytes. -/
def grown (W : List Nat) (x : Nat) : Nat := x + 2 * W.countP (· < x)

@[simp] theorem grown_nil (x : Nat) : grown [] x = x := rfl

/-- The first byte never moves. -/
@[simp] theorem grown_zero (W : List Nat) : grown W 0 = 0 := by
  simp [grown]

/-- Growth of two lists of fields adds up. -/
theorem grown_append (W V : List Nat) (x : Nat) :
    grown (W ++ V) x = grown W x + 2 * V.countP (· < x) := by
  simp only [grown, List.countP_append]
  omega

/-- The order of two groups of fields does not matter. -/
theorem grown_swap (W V U : List Nat) (x : Nat) : grown (W ++ V ++ U) x = grown (W ++ U ++ V) x := by
  simp only [grown, List.countP_append]
  omega

/-- Bytes keep their order. -/
theorem grown_lt_grown (W : List Nat) (h : x < y) : grown W x < grown W y := by
  have hc : W.countP (· < x) ≤ W.countP (· < y) :=
    List.countP_mono_left fun z _ hz => by
      simp only [decide_eq_true_eq] at hz ⊢
      omega
  simp only [grown]
  omega

theorem grown_le_grown (W : List Nat) (h : x ≤ y) : grown W x ≤ grown W y := by
  rcases Nat.lt_or_eq_of_le h with h | rfl
  · exact Nat.le_of_lt (grown_lt_grown W h)
  · exact Nat.le_refl _

@[simp] theorem grown_lt_grown_iff (W : List Nat) : grown W x < grown W y ↔ x < y := by
  constructor
  · intro h
    by_contra hn
    have := grown_le_grown W (Nat.le_of_not_lt hn)
    omega
  · exact grown_lt_grown W

@[simp] theorem grown_inj (W : List Nat) : grown W x = grown W y ↔ x = y := by
  constructor
  · intro h
    rcases Nat.lt_trichotomy x y with hlt | heq | hgt
    · have := grown_lt_grown W hlt
      omega
    · exact heq
    · have := grown_lt_grown W hgt
      omega
  · rintro rfl
    rfl

/-- Fields at or behind `x` do not move it. -/
theorem countP_lt_eq_zero (h : ∀ w ∈ W, x ≤ w) : W.countP (· < x) = 0 := by
  rw [List.countP_eq_zero]
  intro w hw
  have := h w hw
  simp only [decide_eq_true_eq]
  omega

/-- Fields before `x` all move it. -/
theorem countP_lt_eq_length (h : ∀ w ∈ W, w < x) : W.countP (· < x) = W.length := by
  rw [List.countP_eq_length]
  intro w hw
  have := h w hw
  simpa only [decide_eq_true_eq] using this

/-! ## Sites in the order of the code -/

/-- Arms whose fields of two bytes lie one behind the other between `lo` and `hi`. -/
def ArmsOrdered : Nat → List Arm → Nat → Prop
  | lo, [], hi => lo ≤ hi
  | lo, arm :: arms, hi => lo ≤ arm.field ∧ ArmsOrdered (arm.field + 2) arms hi

/-- Sites that lie one behind the other between `lo` and `hi`, the fields of each behind its
opcode. -/
def SitesOrdered : Nat → List Site → Nat → Prop
  | lo, [], hi => lo ≤ hi
  | lo, site :: sites, hi =>
    lo ≤ site.top ∧ site.arms ≠ [] ∧
      ∃ mid, ArmsOrdered (site.top + 1) site.arms mid ∧ SitesOrdered mid sites hi

theorem ArmsOrdered.le (h : ArmsOrdered lo arms hi) : lo ≤ hi := by
  induction arms generalizing lo with
  | nil => exact h
  | cons arm arms ih =>
    have := ih h.2
    have := h.1
    omega

/-- Every field lies between the bounds. -/
theorem ArmsOrdered.field_bounds (h : ArmsOrdered lo arms hi) :
    ∀ arm ∈ arms, lo ≤ arm.field ∧ arm.field + 2 ≤ hi := by
  induction arms generalizing lo with
  | nil => simp
  | cons arm arms ih =>
    intro a ha
    have hle := h.2.le
    rcases List.mem_cons.mp ha with rfl | ha
    · exact ⟨h.1, hle⟩
    · have := ih h.2 a ha
      have := h.1
      omega

theorem SitesOrdered.le (h : SitesOrdered lo sites hi) : lo ≤ hi := by
  induction sites generalizing lo with
  | nil => exact h
  | cons site sites ih =>
    obtain ⟨hlo, -, mid, harms, hrest⟩ := h
    have := harms.le
    have := ih hrest
    omega

/-- Ordered sites cut in two. -/
theorem sitesOrdered_append {left right : List Site} :
    SitesOrdered lo (left ++ right) hi ↔
      ∃ mid, SitesOrdered lo left mid ∧ SitesOrdered mid right hi := by
  induction left generalizing lo with
  | nil =>
    constructor
    · intro h
      exact ⟨lo, Nat.le_refl lo, h⟩
    · rintro ⟨mid, hle, h⟩
      cases right with
      | nil => exact Nat.le_trans hle h
      | cons site sites => exact ⟨Nat.le_trans hle h.1, h.2⟩
  | cons site left ih =>
    constructor
    · rintro ⟨hlo, hne, mid, harms, hrest⟩
      obtain ⟨cut, hl, hr⟩ := ih.mp hrest
      exact ⟨cut, ⟨hlo, hne, mid, harms, hl⟩, hr⟩
    · rintro ⟨cut, ⟨hlo, hne, mid, harms, hl⟩, hr⟩
      exact ⟨hlo, hne, mid, harms, ih.mpr ⟨cut, hl, hr⟩⟩

/-- Every site lies between the bounds, its fields behind its opcode. -/
theorem SitesOrdered.bounds (h : SitesOrdered lo sites hi) :
    ∀ site ∈ sites, lo ≤ site.top ∧ site.arms ≠ [] ∧ site.top < hi ∧
      ∀ arm ∈ site.arms, site.top < arm.field ∧ arm.field + 2 ≤ hi := by
  induction sites generalizing lo with
  | nil => simp
  | cons site sites ih =>
    obtain ⟨hlo, hne, mid, harms, hrest⟩ := h
    have hmid := hrest.le
    have hle := harms.le
    intro s hs
    rcases List.mem_cons.mp hs with rfl | hs
    · refine ⟨hlo, hne, by omega, fun arm ha => ?_⟩
      have := harms.field_bounds arm ha
      omega
    · obtain ⟨h1, h2, h3, h4⟩ := ih hrest s hs
      exact ⟨by omega, h2, h3, h4⟩

/-! ## Layouts by the set of promoted sites -/

/-- The fields of the promoted sites, sites being named by the offset of their opcode. -/
def widenedFields (sites : List Site) (wide : Nat → Bool) : List Nat :=
  (sites.filter fun site => wide site.top).flatMap fun site => site.arms.map Arm.field

/-- A site with its fields where a layout puts them, promoted or not. -/
def placeSite (wide : Nat → Bool) (at' : Nat → Nat) (site : Site) : Site where
  top := site.top
  op := if wide site.top then site.op.widened.getD site.op else site.op
  arms := site.arms.map fun arm => { arm with place := at' arm.field }

/-- The target index with every target where a layout puts it. -/
def moveTargets (targets : TargetIndex) (at' : Nat → Nat) : TargetIndex :=
  { targets with offsets := targets.offsets.map at' }

theorem offset_moveTargets (targets : TargetIndex) (W : List Nat) (entry : Nat) :
    (moveTargets targets (grown W)).offset entry = grown W (targets.offset entry) := by
  simp only [TargetIndex.offset, moveTargets, Array.getElem?_map]
  cases targets.offsets[entry]? with
  | none => simp
  | some offset => rfl

@[simp] theorem widenedFields_nil (wide : Nat → Bool) : widenedFields [] wide = [] := rfl

theorem widenedFields_append (left right : List Site) (wide : Nat → Bool) :
    widenedFields (left ++ right) wide = widenedFields left wide ++ widenedFields right wide := by
  simp [widenedFields]

theorem widenedFields_cons (site : Site) (sites : List Site) (wide : Nat → Bool) :
    widenedFields (site :: sites) wide =
      (if wide site.top then site.arms.map Arm.field else []) ++ widenedFields sites wide := by
  by_cases h : wide site.top <;> simp [widenedFields, h]

theorem widenedFields_congr {wide : Nat → Bool} (h : ∀ site ∈ sites, wide site.top = wide' site.top) :
    widenedFields sites wide = widenedFields sites wide' := by
  simp only [widenedFields]
  rw [List.filter_congr h]

theorem mem_widenedFields {wide : Nat → Bool} :
    x ∈ widenedFields sites wide ↔
      ∃ site ∈ sites, wide site.top ∧ ∃ arm ∈ site.arms, arm.field = x := by
  simp only [widenedFields, List.mem_flatMap, List.mem_filter, List.mem_map, and_assoc]

theorem widenedFields_bounds (h : SitesOrdered lo sites hi) (wide : Nat → Bool) :
    ∀ x ∈ widenedFields sites wide, lo < x ∧ x + 2 ≤ hi := by
  intro x hx
  obtain ⟨site, hs, -, arm, ha, rfl⟩ := mem_widenedFields.mp hx
  obtain ⟨hlo, -, -, harms⟩ := h.bounds site hs
  have := harms arm ha
  omega

theorem placeSite_congr {wide : Nat → Bool} {at'' : Nat → Nat} {site : Site}
    (hwide : wide site.top = wide' site.top)
    (hat : ∀ arm ∈ site.arms, at' arm.field = at'' arm.field) :
    placeSite wide at' site = placeSite wide' at'' site := by
  have harms : site.arms.map (fun arm : Arm => { arm with place := at' arm.field }) =
      site.arms.map (fun arm : Arm => { arm with place := at'' arm.field }) := by
    apply List.map_congr_left
    intro arm ha
    rw [hat arm ha]
  simp only [placeSite, hwide, harms]

/-- No widened field lies between the opcode of a site and its first field. -/
theorem widenedFields_clear (h : SitesOrdered lo sites hi) (wide : Nat → Bool) {site : Site}
    (hmem : site ∈ sites) {first : Arm} {rest : List Arm} (harms : site.arms = first :: rest) :
    ∀ w ∈ widenedFields sites wide, w < site.top ∨ first.field ≤ w := by
  obtain ⟨left, right, rfl⟩ := List.append_of_mem hmem
  obtain ⟨mid, hleft, htop, -, cut, horder, hright⟩ := sitesOrdered_append.mp h
  rw [harms] at horder
  intro w hw
  rw [widenedFields_append, widenedFields_cons, harms] at hw
  rcases List.mem_append.mp hw with hw | hw
  · have := widenedFields_bounds hleft wide w hw
    omega
  · rcases List.mem_append.mp hw with hw | hw
    · split at hw
      · obtain ⟨arm, ha, rfl⟩ := List.mem_map.mp hw
        rcases List.mem_cons.mp ha with rfl | ha
        · exact .inr (Nat.le_refl _)
        · have := horder.2.field_bounds arm ha
          omega
      · simp at hw
    · have hb := widenedFields_bounds hright wide w hw
      have := horder.2.le
      omega

/-- The opcode of a placed site stands where the layout puts it. -/
theorem pivot_placeSite (h : SitesOrdered lo sites hi) (wide : Nat → Bool) {site : Site}
    (hmem : site ∈ sites) :
    (placeSite wide (grown (widenedFields sites wide)) site).pivot =
      grown (widenedFields sites wide) site.top := by
  obtain ⟨-, hne, -, hbehind⟩ := h.bounds site hmem
  match harms : site.arms with
  | [] => exact absurd harms hne
  | first :: rest =>
    have hfirst := (hbehind first (by simp [harms])).1
    have hcount : (widenedFields sites wide).countP (· < first.field) =
        (widenedFields sites wide).countP (· < site.top) := by
      apply List.countP_congr
      intro w hw
      simp only [decide_eq_true_eq]
      have := widenedFields_clear h wide hmem harms w hw
      omega
    simp only [Site.pivot, placeSite, harms, List.map_cons, grown, hcount]
    omega

/-! ## Widening one site -/

/-- Moving the targets behind a field that has just been widened. -/
theorem shiftAbove_moveTargets (targets : TargetIndex) (W : List Nat) (field : Nat) :
    (moveTargets targets (grown W)).shiftAbove (grown W field) 2 =
      moveTargets targets (grown (W ++ [field])) := by
  simp only [TargetIndex.shiftAbove, moveTargets, Array.map_map, TargetIndex.mk.injEq, and_true]
  apply Array.map_congr_left
  intro offset _
  simp only [Function.comp, grown_lt_grown_iff, grown_append, List.countP_singleton]
  by_cases h : field < offset <;> simp [h]

/-- Widening the arms of a site one after the other, `done` being the fields of those that are wide
already. The fields behind an arm do not move it, so every arm ends up where all of them
together put it. -/
theorem widenArms_eq (horder : ArmsOrdered lo arms hi) (targets : TargetIndex) (W done : List Nat)
    (hdone : ∀ x ∈ done, x < lo) (acc : List Arm) :
    widenArms acc done.length (moveTargets targets (grown (W ++ done)))
        (arms.map fun arm => { arm with place := grown W arm.field }) =
      (acc.reverse ++ arms.map (fun arm =>
          { arm with place := grown (W ++ done ++ arms.map Arm.field) arm.field }),
        moveTargets targets (grown (W ++ done ++ arms.map Arm.field))) := by
  induction arms generalizing lo done acc with
  | nil => simp [widenArms]
  | cons arm arms ih =>
    obtain ⟨hlo, hrest⟩ := horder
    have hplace : grown W arm.field + 2 * done.length = grown (W ++ done) arm.field := by
      rw [grown_append, countP_lt_eq_length]
      intro x hx
      have := hdone x hx
      omega
    have hlater : grown (W ++ done ++ (arm :: arms).map Arm.field) arm.field =
        grown (W ++ done) arm.field := by
      rw [grown_append, countP_lt_eq_zero, Nat.mul_zero, Nat.add_zero]
      intro x hx
      obtain ⟨a, ha, rfl⟩ := List.mem_map.mp hx
      rcases List.mem_cons.mp ha with rfl | ha
      · exact Nat.le_refl _
      · have := hrest.field_bounds a ha
        omega
    have hstep := ih hrest (done ++ [arm.field]) (by
      intro x hx
      rcases List.mem_append.mp hx with hx | hx
      · have := hdone x hx
        omega
      · have : x = arm.field := by simpa using hx
        omega) ({ arm with place := grown (W ++ done) arm.field } :: acc)
    rw [List.length_append, List.length_singleton, ← List.append_assoc] at hstep
    simp only [List.map_cons, widenArms, hplace, shiftAbove_moveTargets]
    rw [hstep]
    simp only [List.reverse_cons, List.append_assoc, List.cons_append, List.nil_append,
      Prod.mk.injEq, List.append_cancel_left_eq, List.cons.injEq, and_true]
    have hat := hlater
    simp only [List.append_assoc, List.map_cons] at hat
    rw [hat]

/-! ## Passes over all sites -/

/-- What is fixed while the sites of a table are widened. -/
structure Sites (sites : List Site) : Prop where
  /-- The sites come in the order of the code. -/
  ordered : ∃ lo hi, SitesOrdered lo sites hi
  /-- Before widening every opcode is a narrow one. -/
  narrow : ∀ site ∈ sites, site.op.isWide = false

/-- A set of promoted sites all of which have a wide twin. -/
def Promotable (sites : List Site) (wide : Nat → Bool) : Prop :=
  ∀ site ∈ sites, wide site.top = true → site.op.widened.isSome = true

/-- The span of an arm, its opcode at `top`, once exactly the sites of `wide` are wide. -/
def spanIn (sites : List Site) (targets : TargetIndex) (wide : Nat → Bool) (top : Nat) (arm : Arm) :
    Except Error Int :=
  armSpan (moveTargets targets (grown (widenedFields sites wide)))
    (grown (widenedFields sites wide) top) arm

/-- Every span of a site fits 16 bits once exactly the sites of `wide` are wide. -/
def Fits (sites : List Site) (targets : TargetIndex) (wide : Nat → Bool) (site : Site) : Prop :=
  ∀ arm ∈ site.arms, ∃ span, spanIn sites targets wide site.top arm = .ok span ∧
    Bytes.fits16 span = true

/-- Some span of a site does not fit 16 bits once exactly the sites of `wide` are wide. -/
def Exceeds (sites : List Site) (targets : TargetIndex) (wide : Nat → Bool) (site : Site) : Prop :=
  ∃ arm ∈ site.arms, ∃ span, spanIn sites targets wide site.top arm = .ok span ∧
    Bytes.fits16 span = false

/-- One more site is promoted, which does not fit as things stand. -/
def Promotion (sites : List Site) (targets : TargetIndex) (wide wide' : Nat → Bool) : Prop :=
  ∃ site ∈ sites, wide site.top = false ∧ Exceeds sites targets wide site ∧
    wide' = fun x => wide x || x == site.top

/-- The sites left out of `wide` that there are still to promote. -/
def narrowCount (sites : List Site) (wide : Nat → Bool) : Nat :=
  sites.countP fun site => !wide site.top

/-- The arms of a placed site are those of the site, moved. -/
theorem mem_arms_placeSite {wide : Nat → Bool} {site : Site} {placed : Arm} :
    placed ∈ (placeSite wide at' site).arms ↔
      ∃ arm ∈ site.arms, { arm with place := at' arm.field } = placed :=
  List.mem_map

theorem overflows_eq_false (h : overflows targets pivot arms = .ok false) :
    ∀ arm ∈ arms, ∃ span, armSpan targets pivot arm = .ok span ∧ Bytes.fits16 span := by
  induction arms with
  | nil => simp
  | cons arm arms ih =>
    simp only [overflows] at h
    split at h
    · next span hspan =>
      split at h
      · next hfits =>
        intro a ha
        rcases List.mem_cons.mp ha with rfl | ha
        · exact ⟨span, hspan, hfits⟩
        · exact ih h a ha
      · cases h
    · cases h

theorem overflows_eq_true (h : overflows targets pivot arms = .ok true) :
    ∃ arm ∈ arms, ∃ span, armSpan targets pivot arm = .ok span ∧ Bytes.fits16 span = false := by
  induction arms with
  | nil => cases h
  | cons arm arms ih =>
    simp only [overflows] at h
    split at h
    · next span hspan =>
      split at h
      · obtain ⟨a, ha, hlarge⟩ := ih h
        exact ⟨a, List.mem_cons_of_mem _ ha, hlarge⟩
      · next hlarge => exact ⟨arm, List.mem_cons_self, span, hspan, by simpa using hlarge⟩
    · cases h

/-- A pass has visited the sites `before`, has started from the promoted sites `wide₀` and has
arrived at `wide`. -/
structure Progress (targets : TargetIndex) (wide₀ : Nat → Bool) (before after : List Site)
    (pass : Pass) (wide : Nat → Bool) : Prop where
  /-- Visited sites are in place. -/
  visited : pass.visited.reverse =
    before.map (placeSite wide (grown (widenedFields (before ++ after) wide)))
  /-- The targets are in place. -/
  targets : pass.targets = moveTargets targets (grown (widenedFields (before ++ after) wide))
  /-- The growth of the pass is what its promotions have added. -/
  growth : 2 * (widenedFields before wide₀).length + pass.growth =
    2 * (widenedFields before wide).length
  /-- The sites not visited yet are as they were. -/
  agree : ∀ site ∈ after, wide site.top = wide₀ site.top
  /-- Every promoted site has a wide twin. -/
  promotable : Promotable (before ++ after) wide

/-- A placed site is wide exactly if it is promoted. -/
theorem isWide_placeSite (hs : ∀ site ∈ sites, site.op.isWide = false) {wide : Nat → Bool}
    (hp : Promotable sites wide) {site : Site} (hmem : site ∈ sites) (at' : Nat → Nat) :
    (placeSite wide at' site).op.isWide = wide site.top := by
  by_cases h : wide site.top = true
  · obtain ⟨twin, htwin⟩ := Option.isSome_iff_exists.mp (hp site hmem h)
    simp [placeSite, h, htwin, Opcode.isWide_of_widened htwin]
  · simp only [Bool.not_eq_true] at h
    simp [placeSite, h, hs site hmem]

/-- The growth of a pass brings the sites not visited yet into place. -/
theorem moveBy_placeSite {before : List Site} {site : Site} {after : List Site}
    (hbefore : SitesOrdered lo before mid) (hafter : SitesOrdered mid (site :: after) hi)
    {wide : Nat → Bool} {growth : Nat}
    (hgrowth : 2 * (widenedFields before wide₀).length + growth =
      2 * (widenedFields before wide).length)
    (hagree : ∀ s ∈ site :: after, wide s.top = wide₀ s.top) :
    (placeSite wide₀ (grown (widenedFields (before ++ site :: after) wide₀)) site).moveBy growth =
      placeSite wide (grown (widenedFields (before ++ site :: after) wide)) site := by
  have htail : widenedFields (site :: after) wide = widenedFields (site :: after) wide₀ :=
    widenedFields_congr hagree
  have hsite := hafter.bounds site List.mem_cons_self
  have hplace : ∀ arm ∈ site.arms,
      grown (widenedFields (before ++ site :: after) wide₀) arm.field + growth =
        grown (widenedFields (before ++ site :: after) wide) arm.field := by
    intro arm ha
    have hfield := (hsite.2.2.2 arm ha).1
    have hall : ∀ w : Nat → Bool, (widenedFields before w).countP (· < arm.field) =
        (widenedFields before w).length := by
      intro w
      apply countP_lt_eq_length
      intro x hx
      have := widenedFields_bounds hbefore w x hx
      omega
    simp only [grown, widenedFields_append, List.countP_append, hall, htail]
    omega
  have harms : (site.arms.map fun arm : Arm =>
        { arm with place := grown (widenedFields (before ++ site :: after) wide₀) arm.field + growth })
      = site.arms.map fun arm : Arm =>
        { arm with place := grown (widenedFields (before ++ site :: after) wide) arm.field } := by
    apply List.map_congr_left
    intro arm ha
    rw [hplace arm ha]
  simp only [Site.moveBy, placeSite, List.map_map, Function.comp_def, harms,
    hagree site List.mem_cons_self]

/-- Promoting one more site changes nothing in front of it. -/
theorem placeSite_before_promoted {before : List Site} {site : Site} {after : List Site}
    (hbefore : SitesOrdered lo before mid) (hafter : SitesOrdered mid (site :: after) hi)
    (wide : Nat → Bool) :
    before.map (placeSite wide (grown (widenedFields (before ++ site :: after) wide))) =
      before.map (placeSite (fun x => wide x || x == site.top)
        (grown (widenedFields (before ++ site :: after) wide ++ site.arms.map Arm.field))) := by
  have hsite := hafter.bounds site List.mem_cons_self
  apply List.map_congr_left
  intro s hs
  have hb := hbefore.bounds s hs
  refine placeSite_congr ?_ ?_
  · have hne : (s.top == site.top) = false := by
      simp only [beq_eq_false_iff_ne]
      omega
    simp [hne]
  · intro arm ha
    rw [grown_append, countP_lt_eq_zero, Nat.mul_zero, Nat.add_zero]
    intro x hx
    obtain ⟨a, haa, rfl⟩ := List.mem_map.mp hx
    have h1 := (hb.2.2.2 arm ha).2
    have h2 := (hsite.2.2.2 a haa).1
    omega

/-- What one visit does: it moves the site, and promotes it if it is narrow and does not fit. -/
theorem visit_cases {pass : Pass} {site : Site} (h : visit tooLarge pass site = .ok pass') :
    (((site.moveBy pass.growth).op.isWide = true ∨
        overflows pass.targets (site.moveBy pass.growth).pivot
          (site.moveBy pass.growth).arms = .ok false) ∧
      pass' = ⟨site.moveBy pass.growth :: pass.visited, pass.targets, pass.growth,
        pass.promoted⟩) ∨
    ((site.moveBy pass.growth).op.isWide = false ∧
      overflows pass.targets (site.moveBy pass.growth).pivot
        (site.moveBy pass.growth).arms = .ok true ∧
      ∃ twin, (site.moveBy pass.growth).op.widened = some twin ∧
        pass' =
          ⟨⟨site.top, twin, (widenArms [] 0 pass.targets (site.moveBy pass.growth).arms).1⟩ ::
              pass.visited,
            (widenArms [] 0 pass.targets (site.moveBy pass.growth).arms).2,
            pass.growth +
              2 * (widenArms [] 0 pass.targets (site.moveBy pass.growth).arms).1.length,
            true⟩) := by
  obtain ⟨visited, targets, growth, promoted⟩ := pass
  simp only [visit, bind, Except.bind] at h
  by_cases hw : (site.moveBy growth).op.isWide = true
  · rw [if_pos hw] at h
    exact .inl ⟨.inl hw, (Except.ok.inj h).symm⟩
  · rw [if_neg hw] at h
    cases ho : overflows targets (site.moveBy growth).pivot (site.moveBy growth).arms with
    | error e =>
      rw [ho] at h
      cases h
    | ok overflow =>
      rw [ho] at h
      cases overflow with
      | false => exact .inl ⟨.inr rfl, (Except.ok.inj h).symm⟩
      | true =>
        simp only [if_true] at h
        cases ht : (site.moveBy growth).op.widened with
        | none =>
          rw [ht] at h
          cases h
        | some twin =>
          rw [ht] at h
          exact .inr ⟨by simpa using hw, rfl, twin, rfl, (Except.ok.inj h).symm⟩

/-- What a visit decides about a site, given whether a site has been promoted in the pass before
and after it: the site stays as it is, being wide or fitting, or it is promoted. -/
def Verdict (sites : List Site) (targets : TargetIndex) (site : Site) (promoted promoted' : Bool)
    (wide wide' : Nat → Bool) : Prop :=
  (wide' = wide ∧ promoted' = promoted ∧
    (wide site.top = true ∨ Fits sites targets wide site)) ∨
  (wide site.top = false ∧ Exceeds sites targets wide site ∧ promoted' = true ∧
    wide' = fun x => wide x || x == site.top)

section Promoting

variable {before after : List Site} {site : Site} {wide : Nat → Bool}

/-- No other site starts where a site does. -/
theorem top_ne_of_ordered (hbefore : SitesOrdered lo before mid)
    (hafter : SitesOrdered mid (site :: after) hi) {s : Site} (hmem : s ∈ before ++ after) :
    s.top ≠ site.top := by
  obtain ⟨htop, -, cut, harms, hrest⟩ := hafter
  have hle := harms.le
  rcases List.mem_append.mp hmem with hb | ha
  · have := hbefore.bounds s hb
    omega
  · have := hrest.bounds s ha
    omega

theorem widenedFields_other {top : Nat} (h : ∀ s ∈ sites, s.top ≠ top) :
    widenedFields sites (fun x => wide x || x == top) = widenedFields sites wide :=
  widenedFields_congr fun s hmem => by rw [beq_eq_false_iff_ne.mpr (h s hmem), Bool.or_false]

/-- The fields of a promoted site join the widened ones. -/
theorem grown_promoted (hother : ∀ s ∈ before ++ after, s.top ≠ site.top)
    (hnarrow : wide site.top = false) :
    grown (widenedFields (before ++ site :: after) wide ++ site.arms.map Arm.field) =
      grown (widenedFields (before ++ site :: after) fun x => wide x || x == site.top) := by
  funext x
  simp only [widenedFields_append, widenedFields_cons,
    widenedFields_other fun s hmem => hother s (List.mem_append_left _ hmem),
    widenedFields_other fun s hmem => hother s (List.mem_append_right _ hmem), hnarrow,
    beq_self_eq_true, Bool.or_true, Bool.false_eq_true, if_true, if_false, List.nil_append]
  rw [grown_swap, List.append_assoc]

theorem Promotable.promote (hp : Promotable (before ++ site :: after) wide)
    (hother : ∀ s ∈ before ++ after, s.top ≠ site.top) (htwin : site.op.widened.isSome) :
    Promotable (before ++ site :: after) fun x => wide x || x == site.top := by
  intro s hmem hw
  by_cases heq : s.top = site.top
  · rcases List.mem_append.mp hmem with hb | ha
    · exact absurd heq (hother s (List.mem_append_left _ hb))
    · rcases List.mem_cons.mp ha with rfl | ha
      · exact htwin
      · exact absurd heq (hother s (List.mem_append_right _ ha))
  · refine hp s hmem ?_
    simpa only [beq_eq_false_iff_ne.mpr heq, Bool.or_false] using hw

end Promoting

/-- A visit makes progress by one site. -/
theorem Progress.visit {wide : Nat → Bool} {before after : List Site} {site : Site} {pass : Pass}
    (hs : Sites (before ++ site :: after))
    (hp : Progress targets wide₀ before (site :: after) pass wide)
    (hvisit : Layout.visit tooLarge pass
      (placeSite wide₀ (grown (widenedFields (before ++ site :: after) wide₀)) site) = .ok pass') :
    ∃ wide', Progress targets wide₀ (before ++ [site]) after pass' wide' ∧
      Verdict (before ++ site :: after) targets site pass.promoted pass'.promoted wide wide' := by
  obtain ⟨lo, hi, hordered⟩ := hs.ordered
  obtain ⟨mid, hbefore, hafter⟩ := sitesOrdered_append.mp hordered
  have hmoved := moveBy_placeSite hbefore hafter hp.growth hp.agree
  have hmem : site ∈ before ++ site :: after := by simp
  have hiswide := isWide_placeSite hs.narrow hp.promotable hmem
    (grown (widenedFields (before ++ site :: after) wide))
  have hsame : wide site.top = wide₀ site.top := hp.agree site List.mem_cons_self
  have hpivot := pivot_placeSite hordered wide hmem
  have hsites : before ++ [site] ++ after = before ++ site :: after := by simp
  have hcases := visit_cases hvisit
  rw [hmoved, hiswide, hpivot, hp.targets] at hcases
  rcases hcases with ⟨hfits, rfl⟩ | ⟨hnarrow, hexceeds, twin, htwin, rfl⟩
  · -- nothing is promoted, so the same set describes one more site
    refine ⟨wide, ⟨?_, by rw [hsites], ?_, fun s hmem' => hp.agree s (List.mem_cons_of_mem _ hmem'),
      hsites ▸ hp.promotable⟩, .inl ⟨rfl, rfl, hfits.imp_right fun hfits arm ha => ?_⟩⟩
    · rw [hsites, List.reverse_cons, hp.visited, List.map_append, List.map_cons, List.map_nil]
    · have hg := hp.growth
      simp only [widenedFields_append, widenedFields_cons, widenedFields_nil, hsame,
        List.length_append]
      omega
    · exact overflows_eq_false hfits
        { arm with place := grown (widenedFields (before ++ site :: after) wide) arm.field }
        (mem_arms_placeSite.mpr ⟨arm, ha, rfl⟩)
  · have hother : ∀ s ∈ before ++ after, s.top ≠ site.top := fun s hmem =>
      top_ne_of_ordered hbefore hafter hmem
    have hgrown := grown_promoted hother hnarrow
    obtain ⟨-, -, cut, harms, -⟩ := id hafter
    have hwiden := widenArms_eq harms targets (widenedFields (before ++ site :: after) wide) []
      (by simp) []
    rw [List.append_nil, List.length_nil, hgrown] at hwiden
    have hop : (placeSite wide (grown (widenedFields (before ++ site :: after) wide)) site).op =
        site.op := by simp [placeSite, hnarrow]
    rw [hop] at htwin
    have hwidened : widenArms [] 0
        (moveTargets targets (grown (widenedFields (before ++ site :: after) wide)))
        (placeSite wide (grown (widenedFields (before ++ site :: after) wide)) site).arms = _ := hwiden
    rw [hwidened]
    obtain ⟨placed, hplaced, hlarge⟩ := overflows_eq_true hexceeds
    obtain ⟨arm, ha, rfl⟩ := mem_arms_placeSite.mp hplaced
    refine ⟨fun x => wide x || x == site.top, ⟨?_, by rw [hsites], ?_, fun s hmem' => ?_,
      hsites ▸ hp.promotable.promote hother (by rw [htwin]; rfl)⟩,
      .inr ⟨hnarrow, ⟨arm, ha, hlarge⟩, rfl, rfl⟩⟩
    · have hb := placeSite_before_promoted hbefore hafter wide
      rw [hgrown] at hb
      rw [hsites, List.reverse_cons, hp.visited, hb, List.map_append, List.map_cons, List.map_nil]
      simp only [placeSite, beq_self_eq_true, Bool.or_true, if_true, htwin, Option.getD_some,
        List.reverse_nil, List.nil_append]
    · have hg := hp.growth
      simp only [widenedFields_append, widenedFields_cons, widenedFields_nil,
        widenedFields_other fun s hmem => hother s (List.mem_append_left _ hmem), ← hsame,
        hnarrow, beq_self_eq_true, Bool.or_true, Bool.false_eq_true, if_true, if_false,
        List.length_append, List.length_map, List.length_nil, List.reverse_nil, List.nil_append]
      omega
    · rw [beq_eq_false_iff_ne.mpr (hother s (List.mem_append_right _ hmem')), Bool.or_false]
      exact hp.agree s (List.mem_cons_of_mem _ hmem')

/-- What a pass over the sites `visited` comes to: promotions that lead from `wide` to `wide'`. -/
structure Passed (sites : List Site) (targets : TargetIndex) (visited : List Site)
    (promoted promoted' : Bool) (wide wide' : Nat → Bool) : Prop where
  /-- One site after the other is promoted. -/
  steps : Relation.ReflTransGen (Promotion sites targets) wide wide'
  /-- If nothing is promoted, every visited site is wide or fits. -/
  quiet : promoted' = false → promoted = false ∧ wide' = wide ∧
    ∀ site ∈ visited, wide site.top = true ∨ Fits sites targets wide site
  /-- If something is, fewer sites are left. -/
  fewer : promoted' = true → promoted = true ∨ narrowCount sites wide' < narrowCount sites wide

/-- A promotion leaves fewer sites to promote. -/
theorem Promotion.narrowCount_lt {wide : Nat → Bool} (h : Promotion sites targets wide wide') :
    narrowCount sites wide' < narrowCount sites wide := by
  obtain ⟨site, hs, hnarrow, -, rfl⟩ := h
  obtain ⟨left, right, rfl⟩ := List.append_of_mem hs
  have hle : ∀ part : List Site, part.countP (fun s => !(wide s.top || s.top == site.top)) ≤
      part.countP fun s => !wide s.top := by
    intro part
    apply List.countP_mono_left
    intro s _ hs
    simp only [Bool.not_or, Bool.and_eq_true] at hs
    exact hs.1
  have hl := hle left
  have hr := hle right
  simp only [narrowCount, List.countP_append, List.countP_cons, hnarrow, beq_self_eq_true,
    Bool.or_true, Bool.not_true, Bool.not_false, Bool.false_eq_true, if_true, if_false]
  omega

theorem narrowCount_le_of_steps {wide : Nat → Bool}
    (h : Relation.ReflTransGen (Promotion sites targets) wide wide') :
    narrowCount sites wide' ≤ narrowCount sites wide := by
  induction h with
  | refl => exact Nat.le_refl _
  | tail _ hstep ih => exact Nat.le_trans (Nat.le_of_lt hstep.narrowCount_lt) ih

/-- The first visit of a pass and the rest of it. -/
theorem Passed.cons {visited : List Site} {site : Site} {promoted promoted' promoted'' : Bool}
    {wide wide'' : Nat → Bool} (hs : site ∈ sites)
    (h : Verdict sites targets site promoted promoted' wide wide')
    (hrest : Passed sites targets visited promoted' promoted'' wide' wide'') :
    Passed sites targets (site :: visited) promoted promoted'' wide wide'' := by
  rcases h with ⟨rfl, rfl, hsite⟩ | ⟨hnarrow, hexceeds, rfl, hwide⟩
  · refine ⟨hrest.steps, fun hquiet => ?_, hrest.fewer⟩
    obtain ⟨hnone, rfl, hfits⟩ := hrest.quiet hquiet
    exact ⟨hnone, rfl, List.forall_mem_cons.mpr ⟨hsite, hfits⟩⟩
  · have hstep : Promotion sites targets wide wide' := ⟨site, hs, hnarrow, hexceeds, hwide⟩
    refine ⟨.head hstep hrest.steps, fun hquiet => ?_, fun _ => .inr ?_⟩
    · cases (hrest.quiet hquiet).1
    · exact Nat.lt_of_le_of_lt (narrowCount_le_of_steps hrest.steps) hstep.narrowCount_lt

/-- A whole pass. -/
theorem Progress.run {before after : List Site} {pass : Pass} {wide : Nat → Bool}
    (hs : Sites (before ++ after)) (hp : Progress targets wide₀ before after pass wide)
    (hrun : (after.map (placeSite wide₀ (grown (widenedFields (before ++ after) wide₀)))).foldlM
      (Layout.visit tooLarge) pass = .ok pass') :
    ∃ wide', Progress targets wide₀ (before ++ after) [] pass' wide' ∧
      Passed (before ++ after) targets after pass.promoted pass'.promoted wide wide' := by
  induction after generalizing before pass wide with
  | nil =>
    simp only [List.map_nil, List.foldlM_nil] at hrun
    cases hrun
    rw [List.append_nil]
    exact ⟨wide, hp, .refl, fun h => ⟨h, rfl, by simp⟩, .inl⟩
  | cons site after ih =>
    simp only [List.map_cons, List.foldlM_cons, bind, Except.bind] at hrun
    cases hv : Layout.visit tooLarge pass
        (placeSite wide₀ (grown (widenedFields (before ++ site :: after) wide₀)) site) with
    | error e =>
      rw [hv] at hrun
      cases hrun
    | ok next =>
      rw [hv] at hrun
      obtain ⟨wide', hnext, hverdict⟩ := hp.visit hs hv
      have hmem : site ∈ before ++ site :: after := by simp
      have hsame : before ++ site :: after = before ++ [site] ++ after := by simp
      rw [hsame] at hs hrun hverdict hmem ⊢
      obtain ⟨wide'', hlast, hpassed⟩ := ih hs hnext hrun
      exact ⟨wide'', hlast, hpassed.cons hmem hverdict⟩

/-- A layout is described by a set of promoted sites. -/
structure Describes (sites : List Site) (targets : TargetIndex) (wide : Nat → Bool)
    (layout : Layout) : Prop where
  /-- The sites are where the widened fields put them. -/
  placed : layout.sites = sites.map (placeSite wide (grown (widenedFields sites wide)))
  /-- So are the targets. -/
  moved : layout.targets = moveTargets targets (grown (widenedFields sites wide))
  /-- The code grows by two bytes for each widened field. -/
  growth : layout.growth = 2 * (widenedFields sites wide).length
  /-- Every promoted site has a wide twin. -/
  promotable : Promotable sites wide

/-- Every site left out of `wide` fits once exactly the sites of `wide` are wide. -/
def Settles (sites : List Site) (targets : TargetIndex) (wide : Nat → Bool) : Prop :=
  ∀ site ∈ sites, wide site.top = false → Fits sites targets wide site

/-- Sites and targets in place for one more pass. -/
theorem Progress.start (targets : TargetIndex) {wide : Nat → Bool} (hwide : Promotable sites wide) :
    Progress targets wide [] sites
      ⟨[], moveTargets targets (grown (widenedFields sites wide)), 0, false⟩ wide :=
  ⟨rfl, rfl, rfl, fun _ _ => rfl, hwide⟩

/-- Where a pass leaves the sites, the targets and the growth. -/
theorem pass_ok (hs : Sites sites) {wide : Nat → Bool} (hwide : Promotable sites wide) {done : Pass}
    (h : pass tooLarge (sites.map (placeSite wide (grown (widenedFields sites wide))))
      (moveTargets targets (grown (widenedFields sites wide))) = .ok done) :
    ∃ wide', done.visited.reverse =
        sites.map (placeSite wide' (grown (widenedFields sites wide'))) ∧
      done.targets = moveTargets targets (grown (widenedFields sites wide')) ∧
      2 * (widenedFields sites wide).length + done.growth = 2 * (widenedFields sites wide').length ∧
      Promotable sites wide' ∧ Passed sites targets sites false done.promoted wide wide' := by
  obtain ⟨wide', hdone, hpassed⟩ := (Progress.start targets hwide).run (by simpa using hs) h
  have hvisited := hdone.visited
  have htargets := hdone.targets
  have hpromotable := hdone.promotable
  rw [List.nil_append, List.append_nil] at hvisited htargets hpromotable
  exact ⟨wide', hvisited, htargets, hdone.growth, hpromotable, hpassed⟩

/-- Repeated passes end in a layout described by its promoted sites. They were promoted one after
the other, the rest fit, and every pass but the last has promoted a site. -/
theorem settle_describes (hs : Sites sites) {wide : Nat → Bool} (hwide : Promotable sites wide)
    (h : settle tooLarge (sites.map (placeSite wide (grown (widenedFields sites wide))))
      (moveTargets targets (grown (widenedFields sites wide)))
      (2 * (widenedFields sites wide).length) passes fuel = .ok layout) :
    ∃ wide', Describes sites targets wide' layout ∧ Settles sites targets wide' ∧
      Relation.ReflTransGen (Promotion sites targets) wide wide' ∧
      layout.passes ≤ passes + narrowCount sites wide + 1 := by
  induction fuel generalizing wide passes with
  | zero => cases h
  | succ fuel ih =>
    simp only [settle, bind, Except.bind] at h
    cases hrun : pass tooLarge (sites.map (placeSite wide (grown (widenedFields sites wide))))
        (moveTargets targets (grown (widenedFields sites wide))) with
    | error e =>
      rw [hrun] at h
      cases h
    | ok done =>
      rw [hrun] at h
      obtain ⟨wide', hvisited, htargets, hgrowth, hpromotable, hpassed⟩ := pass_ok hs hwide hrun
      obtain ⟨visited, targets', added, promoted⟩ := done
      simp only at h hvisited htargets hgrowth hpassed
      cases promoted with
      | true =>
        simp only [if_true, hvisited, htargets, hgrowth] at h
        obtain ⟨wide'', hdescribes, hsettles, hsteps, hpasses⟩ := ih hpromotable h
        have hfewer := (hpassed.fewer rfl).resolve_left (by simp)
        exact ⟨wide'', hdescribes, hsettles, hpassed.steps.trans hsteps, by omega⟩
      | false =>
        simp only [Bool.false_eq_true, if_false] at h
        cases h
        obtain ⟨-, rfl, hfits⟩ := hpassed.quiet rfl
        refine ⟨wide', ⟨hvisited, htargets, hgrowth, hpromotable⟩, fun site hsite hnarrow => ?_,
          .refl, ?_⟩
        · exact (hfits site hsite).resolve_left (by simp [hnarrow])
        · exact Nat.add_le_add_right (Nat.le_add_right passes _) 1

/-- The bound on the passes is never what ends them: any two that exceed the number of sites left
to promote give the same answer. -/
theorem settle_eq_of_lt (hs : Sites sites) {wide : Nat → Bool} (hwide : Promotable sites wide)
    {fuel' : Nat} (hfuel : narrowCount sites wide < fuel) (hfuel' : narrowCount sites wide < fuel') :
    settle tooLarge (sites.map (placeSite wide (grown (widenedFields sites wide))))
        (moveTargets targets (grown (widenedFields sites wide)))
        (2 * (widenedFields sites wide).length) passes fuel =
      settle tooLarge (sites.map (placeSite wide (grown (widenedFields sites wide))))
        (moveTargets targets (grown (widenedFields sites wide)))
        (2 * (widenedFields sites wide).length) passes fuel' := by
  induction fuel generalizing wide passes fuel' with
  | zero => omega
  | succ fuel ih =>
    obtain ⟨fuel', rfl⟩ : ∃ n, fuel' = n + 1 := ⟨fuel' - 1, by omega⟩
    simp only [settle, bind, Except.bind]
    cases hrun : pass tooLarge (sites.map (placeSite wide (grown (widenedFields sites wide))))
        (moveTargets targets (grown (widenedFields sites wide))) with
    | error e => rfl
    | ok done =>
      obtain ⟨wide', hvisited, htargets, hgrowth, hpromotable, hpassed⟩ := pass_ok hs hwide hrun
      obtain ⟨visited, targets', added, promoted⟩ := done
      simp only at hvisited htargets hgrowth hpassed
      cases promoted with
      | false => rfl
      | true =>
        have hfewer := (hpassed.fewer rfl).resolve_left (by simp)
        simp only [if_true, hvisited, htargets, hgrowth]
        exact ih hpromotable (by omega) (by omega)

/-- Before widening every site and target is in place for the empty set of promoted sites. -/
theorem settle_start (hplace : ∀ site ∈ sites, ∀ arm ∈ site.arms, arm.place = arm.field)
    (targets : TargetIndex) (tooLarge : Error) (fuel : Nat) :
    settle tooLarge sites targets 0 0 fuel = settle tooLarge
      (sites.map (placeSite (fun _ => false) (grown (widenedFields sites fun _ => false))))
      (moveTargets targets (grown (widenedFields sites fun _ => false)))
      (2 * (widenedFields sites fun _ => false).length) 0 fuel := by
  have hnone : widenedFields sites (fun _ => false) = [] := by simp [widenedFields]
  have hsame : sites.map (placeSite (fun _ => false) (grown [])) = sites := by
    have hid : ∀ site ∈ sites, placeSite (fun _ => false) (grown []) site = site := by
      intro site hmem
      have harms : (site.arms.map fun arm : Arm => { arm with place := grown [] arm.field }) =
          site.arms := by
        rw [List.map_congr_left (g := id), List.map_id]
        intro arm ha
        have hp := hplace site hmem arm ha
        cases arm
        simp_all
      simp only [placeSite, harms, Bool.false_eq_true, if_false]
    rw [List.map_congr_left (g := id) hid, List.map_id]
  have htargets : moveTargets targets (grown []) = targets := by
    have hid : grown [] = id := rfl
    rw [moveTargets, hid, Array.map_id]
  rw [hnone, hsame, htargets]
  rfl

/-- More passes than are needed change nothing. -/
theorem settle_mono {targets : TargetIndex} {growth passes more : Nat}
    (h : settle tooLarge sites targets growth passes fuel = .ok layout) (hle : fuel ≤ more) :
    settle tooLarge sites targets growth passes more = .ok layout := by
  induction fuel generalizing sites targets growth passes more with
  | zero => cases h
  | succ fuel ih =>
    obtain ⟨more, rfl⟩ := Nat.exists_eq_add_of_le' (Nat.zero_lt_of_lt hle)
    simp only [settle, bind, Except.bind] at h ⊢
    cases hrun : pass tooLarge sites targets with
    | error e =>
      rw [hrun] at h
      cases h
    | ok found =>
      simp only [hrun] at h ⊢
      split
      · rename_i hpromoted
        rw [if_pos hpromoted] at h
        exact ih h (by omega)
      · rename_i hpromoted
        rwa [if_neg hpromoted] at h

variable (hs : Sites sites) (hplace : ∀ site ∈ sites, ∀ arm ∈ site.arms, arm.place = arm.field)

include hs hplace

/-- Widening sites whose fields have not moved yet, however many passes are allowed. -/
theorem settle_unmoved (h : settle tooLarge sites targets 0 0 fuel = .ok layout) :
    ∃ wide, Describes sites targets wide layout ∧ Settles sites targets wide ∧
      Relation.ReflTransGen (Promotion sites targets) (fun _ => false) wide ∧
      layout.passes ≤ sites.length + 1 := by
  rw [settle_start hplace] at h
  obtain ⟨wide, hdescribes, hsettles, hsteps, hpasses⟩ :=
    settle_describes hs (fun _ _ hw => by cases hw) h
  have hcount : narrowCount sites (fun _ => false) ≤ sites.length := List.countP_le_length
  exact ⟨wide, hdescribes, hsettles, hsteps, by omega⟩

/-- Nor does it matter how many passes are allowed, if there are enough of them. -/
theorem settle_eq_widen (targets : TargetIndex) (tooLarge : Error) (hfuel : sites.length < fuel) :
    settle tooLarge sites targets 0 0 fuel = widen tooLarge sites targets := by
  have hcount : narrowCount sites (fun _ => false) ≤ sites.length := List.countP_le_length
  rw [widen, settle_start hplace, settle_start hplace targets tooLarge (sites.length + 1)]
  exact settle_eq_of_lt hs (fun _ _ hw => by cases hw) (by omega) (by omega)

end ScriptCompiler.Layout
