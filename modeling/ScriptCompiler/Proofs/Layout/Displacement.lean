import ScriptCompiler.Proofs.Layout.Preservation

/-!
# How far an offset moves

The growth in front of an offset is what the first field not before it has
moved. Regions are moved that way, so both of their ends go where the code at
them goes.
-/

namespace ScriptCompiler

variable {k : Nat} {arm : Arm} {g : Generator} {is : List Instruction}

namespace Layout

/-- The fields of a layout in order. -/
theorem arms_placed {sites : List Site} {wide : Nat → Bool} {at' : Nat → Nat} {layout : Layout}
    (h : layout.sites = sites.map (placeSite wide at')) :
    layout.arms.toList = (sites.flatMap Site.arms).map fun arm => { arm with place := at' arm.field } := by
  have hfold : ∀ (sites : List Site) (arms : Array Arm),
      (sites.foldl (fun arms site => arms.appendList site.arms) arms).toList =
        arms.toList ++ sites.flatMap Site.arms := by
    intro sites
    induction sites with
    | nil => simp
    | cons site sites ih =>
      intro arms
      rw [List.foldl_cons, ih]
      simp
  rw [Layout.arms, hfold, h, List.flatMap_map, List.map_flatMap]
  rfl

theorem ArmsOrdered.pairwise {lo hi : Nat} {arms : List Arm} (h : ArmsOrdered lo arms hi) :
    (arms.map Arm.field).Pairwise (· < ·) := by
  induction arms generalizing lo with
  | nil => exact .nil
  | cons arm arms ih =>
    refine List.pairwise_cons.mpr ⟨fun field hfield => ?_, ih h.2⟩
    obtain ⟨other, hother, rfl⟩ := List.mem_map.mp hfield
    have := (h.2.field_bounds other hother).1
    omega

variable {lo hi : Nat} {sites : List Site} {targets : TargetIndex} {wide : Nat → Bool}
  {layout : Layout}

theorem Describes.fields (hd : Describes sites targets wide layout) :
    layout.arms.toList.map Arm.field = (sites.flatMap Site.arms).map Arm.field := by
  rw [arms_placed hd.placed, List.map_map]
  rfl

/-- How far a field has moved. -/
theorem Describes.moved_field (hd : Describes sites targets wide layout)
    (hk : layout.arms[k]? = some arm) :
    Displacement.moved ⟨layout.arms, layout.growth⟩ k =
      2 * (widenedFields sites wide).countP (· < arm.field) := by
  have hmem : arm ∈ layout.arms.toList := Array.mem_toList_iff.mpr (Array.mem_of_getElem? hk)
  rw [arms_placed hd.placed] at hmem
  obtain ⟨arm', -, rfl⟩ := List.mem_map.mp hmem
  simp only [Displacement.moved, hk, Option.map_some, Option.getD_some, Arm.moved, grown]
  omega

theorem Displacement.field_eq {d : Displacement} (hk : d.arms[k]? = some arm) :
    d.field k = arm.field := by
  simp [Displacement.field, hk]

variable (hd : Describes sites targets wide layout)

include hd

/-- The fields ascend. -/
theorem Describes.field_lt (horder : SitesOrdered lo sites hi) {j : Nat} (hjk : j < k)
    (hk : k < layout.arms.size) :
    Displacement.field ⟨layout.arms, layout.growth⟩ j <
      Displacement.field ⟨layout.arms, layout.growth⟩ k := by
  have hordered : ArmsOrdered lo (sites.flatMap Site.arms) hi := by
    have hall := armsOrdered_flatMap horder fun _ => true
    rwa [List.filter_eq_self.mpr fun _ _ => rfl] at hall
  have hpairwise := hordered.pairwise
  rw [← hd.fields] at hpairwise
  have hj : j < layout.arms.size := Nat.lt_trans hjk hk
  rw [Displacement.field_eq (Array.getElem?_eq_getElem hj),
    Displacement.field_eq (Array.getElem?_eq_getElem hk)]
  have hlt := List.pairwise_iff_getElem.mp hpairwise j k (by simpa using hj) (by simpa using hk) hjk
  simpa only [List.getElem_map, Array.getElem_toList] using hlt

/-- The fields that grow are among the fields. -/
theorem Describes.exists_field {w : Nat} (hw : w ∈ widenedFields sites wide) :
    ∃ k < layout.arms.size,
      Displacement.field ⟨layout.arms, layout.growth⟩ k = w := by
  obtain ⟨site, hsite, hw⟩ := List.mem_flatMap.mp hw
  have hmem : w ∈ layout.arms.toList.map Arm.field := by
    rw [hd.fields, List.map_flatMap]
    exact List.mem_flatMap.mpr ⟨site, (List.mem_filter.mp hsite).1, hw⟩
  obtain ⟨arm, harm, rfl⟩ := List.mem_map.mp hmem
  obtain ⟨k, hk⟩ := List.mem_iff_getElem?.mp harm
  have hk : layout.arms[k]? = some arm := by simpa using hk
  exact ⟨k, (Array.getElem?_eq_some_iff.mp hk).1, Displacement.field_eq hk⟩

/-- What stands between two fields has moved as far as the later one. -/
theorem Describes.moved_between (horder : SitesOrdered lo sites hi) {x n : Nat}
    (hn : n ≤ layout.arms.size)
    (hbefore : ∀ k < n, Displacement.field ⟨layout.arms, layout.growth⟩ k < x)
    (hbehind : n < layout.arms.size → x ≤ Displacement.field ⟨layout.arms, layout.growth⟩ n) :
    x + Displacement.moved ⟨layout.arms, layout.growth⟩ n = grown (widenedFields sites wide) x := by
  rcases Nat.lt_or_eq_of_le hn with hin | rfl
  · have harm := Array.getElem?_eq_getElem hin
    have hx := hbehind hin
    have hfield := Displacement.field_eq (d := ⟨layout.arms, layout.growth⟩) harm
    rw [hd.moved_field harm, grown]
    congr 2
    refine List.countP_congr fun w hw => ?_
    obtain ⟨k, hk, rfl⟩ := hd.exists_field hw
    simp only [decide_eq_true_eq]
    constructor
    · intro hwlt
      rcases Nat.lt_or_ge k n with hlow | hlow
      · exact hbefore k hlow
      · rcases Nat.lt_or_eq_of_le hlow with hlow | rfl
        · have := hd.field_lt horder hlow hk
          omega
        · omega
    · intro hwlt
      omega
  · have hmoved : Displacement.moved ⟨layout.arms, layout.growth⟩ layout.arms.size =
        layout.growth := by
      simp [Displacement.moved]
    rw [hmoved, hd.growth, grown, countP_lt_eq_length]
    intro w hw
    obtain ⟨k, hk, rfl⟩ := hd.exists_field hw
    exact hbefore k hk

/-- The growth in front of an offset. -/
theorem Describes.moved_nearest (horder : SitesOrdered lo sites hi) (x first : Nat)
    (hfirst : ∀ k < min first layout.arms.size,
      Displacement.field ⟨layout.arms, layout.growth⟩ k < x) :
    x + Displacement.moved ⟨layout.arms, layout.growth⟩
      (Displacement.nearest ⟨layout.arms, layout.growth⟩ x first) =
        grown (widenedFields sites wide) x ∧
      ∀ k < min (Displacement.nearest ⟨layout.arms, layout.growth⟩ x first) layout.arms.size,
        Displacement.field ⟨layout.arms, layout.growth⟩ k < x := by
  have hmono : ∀ i j, min first layout.arms.size ≤ i → i ≤ j → j < layout.arms.size →
      Displacement.field ⟨layout.arms, layout.growth⟩ i ≤
        Displacement.field ⟨layout.arms, layout.growth⟩ j := by
    intro i j _ hij hj
    rcases Nat.lt_or_eq_of_le hij with hlt | rfl
    · exact Nat.le_of_lt (hd.field_lt horder hlt hj)
    · exact Nat.le_refl _
  obtain ⟨-, hle, hbelow, habove⟩ :=
    @lowerBound_bounds _ x _ _ (Nat.min_le_right first layout.arms.size) hmono
  have hnearest : lowerBound (Displacement.field ⟨layout.arms, layout.growth⟩) x
      (min first layout.arms.size) layout.arms.size =
        Displacement.nearest ⟨layout.arms, layout.growth⟩ x first := rfl
  rw [hnearest] at hle hbelow habove
  -- all fields in front of the one found lie before the offset
  have hbefore : ∀ k < Displacement.nearest ⟨layout.arms, layout.growth⟩ x first,
      Displacement.field ⟨layout.arms, layout.growth⟩ k < x := by
    intro k hk
    rcases Nat.lt_or_ge k (min first layout.arms.size) with hlow | hlow
    · exact hfirst k hlow
    · exact hbelow k hlow hk
  exact ⟨hd.moved_between horder hle hbefore (habove _ (Nat.le_refl _)),
    fun k hk => hbefore k (by omega)⟩

/-- A region moves with the code at its ends. -/
theorem Describes.fixRegion (horder : SitesOrdered lo sites hi) {tooLarge : Error} {r r' : Region}
    (h : Layout.fixRegion tooLarge ⟨layout.arms, layout.growth⟩ r = .ok r') :
    r'.kind = r.kind ∧ r'.depth = r.depth ∧
      r'.start = grown (widenedFields sites wide) r.start ∧
      r'.start + r'.length = grown (widenedFields sites wide) (r.start + r.length) := by
  obtain ⟨hstart, hbefore⟩ := hd.moved_nearest horder r.start 0 (by simp)
  obtain ⟨hstop, -⟩ := hd.moved_nearest horder (r.start + r.length)
    (Displacement.nearest ⟨layout.arms, layout.growth⟩ r.start 0) fun k hk =>
      Nat.lt_of_lt_of_le (hbefore k hk) (Nat.le_add_right _ _)
  have hle : (widenedFields sites wide).countP (· < r.start) ≤
      (widenedFields sites wide).countP (· < r.start + r.length) :=
    List.countP_mono_left fun w _ hw => by
      simp only [decide_eq_true_eq] at hw ⊢
      omega
  simp only [grown] at hstart hstop ⊢
  simp only [Layout.fixRegion, bind, Except.bind, throw, throwThe, MonadExceptOf.throw, pure,
    Except.pure] at h
  split at h
  · cases h
  · split at h
    · rename_i hsame
      rw [hsame] at hstop
      cases h
      refine ⟨rfl, rfl, hstart, ?_⟩
      simp only
      omega
    · split at h
      · cases h
      · cases h
        refine ⟨rfl, rfl, hstart, ?_⟩
        simp only
        omega

end Layout

/-- A function that may fail is applied to each element. -/
theorem getElem?_of_mapM {α β ε : Type} {f : α → Except ε β} {xs : Array α} {ys : Array β}
    (h : xs.mapM f = .ok ys) : ys.size = xs.size ∧
      ∀ (i : Nat) (x : α), xs[i]? = some x → ∃ y, ys[i]? = some y ∧ f x = .ok y := by
  have hlist : ∀ {xs : List α} {ys : List β}, xs.mapM f = .ok ys → ys.length = xs.length ∧
      ∀ (i : Nat) (x : α), xs[i]? = some x → ∃ y, ys[i]? = some y ∧ f x = .ok y := by
    intro xs
    induction xs with
    | nil =>
      intro ys h
      rw [List.mapM_nil] at h
      cases h
      exact ⟨rfl, fun i x hi => by simp at hi⟩
    | cons x xs ih =>
      intro ys h
      rw [List.mapM_cons, except_bind_ok] at h
      obtain ⟨y, hy, h⟩ := h
      rw [except_bind_ok] at h
      obtain ⟨rest, hrest, h⟩ := h
      cases h
      obtain ⟨hlength, hall⟩ := ih hrest
      refine ⟨by simp [hlength], fun i x' hi => ?_⟩
      cases i with
      | zero =>
        cases hi
        exact ⟨y, rfl, hy⟩
      | succ i => exact hall i x' (by simpa using hi)
  have htoList : xs.toList.mapM f = .ok ys.toList := by
    rw [← Array.toList_mapM, h]
    rfl
  obtain ⟨hlength, hall⟩ := hlist htoList
  exact ⟨by simpa using hlength, fun i x hi => by simpa using hall i x (by simpa using hi)⟩

/-- The offset of a promoted site that does not fit, as an offset of its instruction. -/
theorem Recorded.offset_of_exceeds (h : Recorded g is) {sites : List Site} {wide : Nat → Bool}
    (hm : Layout.Mirrors is g.spans.spans.toList sites) {site : Site} (hs : site ∈ sites)
    (hexceeds : Layout.Exceeds sites g.spans.targets wide site) :
    ∃ arm ∈ site.arms, ∃ offset : Int, Emit.offsetAt arm.field g = .ok offset g ∧
      Bytes.fits16 ((Layout.grown (Layout.widenedFields sites wide)
        ((site.top : Int) + offset).toNat : Int) -
          Layout.grown (Layout.widenedFields sites wide) site.top) = false := by
  obtain ⟨arm, ha, span, hspan, hlarge⟩ := hexceeds
  have hread := h.offsetAt (hm.recorded site hs arm ha)
  simp only [SpanTable.offsetOf] at hread
  simp only [Layout.spanIn, Layout.armSpan] at hspan
  cases hdest : arm.destination with
  | unset =>
    rw [hdest] at hspan
    obtain rfl := Except.ok.inj hspan
    simp [Bytes.fits16] at hlarge
  | link delta =>
    rw [hdest] at hspan
    cases hspan
  | target entry =>
    rw [hdest] at hspan hread
    obtain rfl := Except.ok.inj hspan
    refine ⟨arm, ha, _, hread, ?_⟩
    rw [Layout.offset_moveTargets] at hlarge
    have hland : ((site.top : Int) + ((g.spans.targets.offset entry : Int) - site.top)).toNat =
        g.spans.targets.offset entry := by omega
    rw [hland]
    exact hlarge

/-- What a resolution does to the code and to where its bytes are. -/
structure Moved (g g' : Generator) (is : List Instruction) (promoted : Instruction → Bool)
    (at' : Nat → Nat) : Prop extends Preserved g g' is promoted at' where
  /-- Nothing moves up to where the instructions start. -/
  front : ∀ x ≤ g.spans.todo, at' x = x
  /-- Inside an instruction the code grows at its own offsets, if it is promoted. -/
  inside : ∀ i ∈ is, ∀ x, i.pc ≤ x → x ≤ i.pc + i.length →
    at' x = at' i.pc + (x - i.pc) + if promoted i then 2 * i.fields.countP (· < x) else 0
  /-- There is a region for each region. -/
  count : g'.regions.size = g.regions.size
  /-- A region moves with the code at its ends. -/
  regions : ∀ (i : Nat) (r : Region), g.regions[i]? = some r → ∃ r', g'.regions[i]? = some r' ∧
    r'.kind = r.kind ∧ r'.depth = r.depth ∧ r'.start = at' r.start ∧
      r'.start + r'.length = at' (r.start + r.length)
  /-- A promoted instruction has an offset that does not fit a narrow field. -/
  tight : ∀ i ∈ is, promoted i = true → ∃ field ∈ i.fields, ∃ offset : Int,
    Emit.offsetAt field g = .ok offset g ∧
      Bytes.fits16 ((at' ((i.pc : Int) + offset).toNat : Int) - at' i.pc) = false

theorem Recorded.moved {g' : Generator} (h : Recorded g is) (hok : Emit.resolveSpans g = .ok () g') :
    ∃ promoted at', Moved g g' is promoted at' := by
  obtain ⟨sites, layout, wide, hm, horder, hd, hr, hregions, htight⟩ := h.relocated hok
  have hfields := Layout.widenedFields_of_instructions hm.same wide
  obtain ⟨hcount, hregions⟩ : g'.regions.size = g.regions.size ∧
      ∀ (i : Nat) (r : Region), g.regions[i]? = some r → ∃ r', g'.regions[i]? = some r' ∧
        r'.kind = r.kind ∧ r'.depth = r.depth ∧
        r'.start = Layout.grown (Layout.promotedFields is wide) r.start ∧
        r'.start + r'.length = Layout.grown (Layout.promotedFields is wide) (r.start + r.length) := by
    rw [← hfields]
    split at hregions
    · obtain ⟨hcount, hall⟩ := getElem?_of_mapM hregions
      refine ⟨hcount, fun i r hi => ?_⟩
      obtain ⟨r', hr', hfix⟩ := hall i r hi
      exact ⟨r', hr', hd.fixRegion horder hfix⟩
    · rename_i hgrowth
      have hnil : Layout.widenedFields sites wide = [] := by
        rw [hd.growth] at hgrowth
        exact List.length_eq_zero_iff.mp (by omega)
      rw [hnil, ← hregions]
      exact ⟨rfl, fun i r hi => ⟨r, hi, rfl, rfl, rfl, rfl⟩⟩
  refine ⟨_, _, h.preserved_of_relocated hm hd hr, fun x hx => h.grown_front wide hx,
    fun i hi x hlo hhi => ?_, hcount, hregions, fun i hi hpromoted => ?_⟩
  · rw [Layout.grown_inside h.whole h.narrow wide hi hlo hhi]
    cases hw : wide i.pc with
    | false => simp
    | true =>
      cases hfields : i.fields with
      | nil => simp
      | cons field fields => simp
  · obtain ⟨hwide, hne⟩ := Bool.and_eq_true_iff.mp hpromoted
    obtain ⟨site, hs, htop, -, harms⟩ := hm.exists_site hi (by simpa using hne)
    obtain ⟨arm, ha, offset, hread, hlarge⟩ :=
      h.offset_of_exceeds hm hs (htight site hs (by rw [htop, hwide]))
    refine ⟨arm.field, by rw [← harms]; exact List.mem_map_of_mem ha, offset, hread, ?_⟩
    rwa [hfields, htop] at hlarge

end ScriptCompiler
