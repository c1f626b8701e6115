import ScriptCompiler.Layout.Relocation
import ScriptCompiler.Proofs.Bytes
import ScriptCompiler.Proofs.Layout.Widening

/-!
# Where relocation puts every byte

Moving the code backwards, chunk by chunk, takes the byte at `x` to
`grown W x`, where `W` lists the widened fields, unless the byte belongs to
a widened field. Writing the sites afterwards touches nothing but opcodes of
sites and their fields, and these hold the settled values at the end.
-/

namespace ScriptCompiler.Layout

open Bytes

variable {lo hi cursor cursor' pivot : Nat} {left right arms : List Arm}
  {code code' buffer buffer' : Bytes} {arm : Arm} {tooLarge : Error} {targets : TargetIndex}
  {sites : List Site} {wide : Nat → Bool} {site : Site} {layout : Layout}

/-! ## Moving -/

/-- The arms of the wide sites, collected last one first. -/
theorem wideArms_eq (layout : Layout) :
    layout.wideArms = ((layout.sites.filter fun site => site.op.isWide).flatMap Site.arms).reverse := by
  have hpush : ∀ (arms acc : List Arm),
      arms.foldl (fun acc arm => arm :: acc) acc = arms.reverse ++ acc := by
    intro arms
    induction arms with
    | nil => simp
    | cons arm arms ih => simp [ih]
  have hall : ∀ (sites : List Site) (acc : List Arm),
      sites.foldl (fun arms site =>
        if site.op.isWide then site.arms.foldl (fun arms arm => arm :: arms) arms else arms) acc =
      ((sites.filter fun site => site.op.isWide).flatMap Site.arms).reverse ++ acc := by
    intro sites
    induction sites with
    | nil => simp
    | cons site sites ih =>
      intro acc
      rw [List.foldl_cons, ih]
      by_cases h : site.op.isWide <;> simp [h, hpush]
  have := hall layout.sites []
  simpa [wideArms] using this

/-- Arms whose fields are the widened ones, each at its place. -/
structure Moving (code : Bytes) (arms : List Arm) : Prop where
  /-- The fields lie one behind the other inside the code. -/
  ordered : ArmsOrdered 0 arms code.size
  /-- Each stands where the growth before it puts it. -/
  placed : ∀ arm ∈ arms, arm.place = grown (arms.map Arm.field) arm.field

/-- The code while chunks move: `left` are the arms whose chunks are still to move. The bytes before
`cursor` have not moved, the others have. -/
structure Moved (code : Bytes) (arms left : List Arm) (buffer : Bytes) (cursor : Nat) : Prop where
  size : buffer.size = code.size + 2 * arms.length
  cursor_le : cursor ≤ code.size
  left_before : ArmsOrdered 0 left cursor
  kept : ∀ x < cursor, buffer[x]? = code[x]?
  moved : ∀ x, cursor ≤ x → x < code.size →
    (∀ arm ∈ arms, x < arm.field ∨ arm.field + 2 ≤ x) →
    buffer[grown (arms.map Arm.field) x]? = code[x]?

theorem armsOrdered_append :
    ArmsOrdered lo (left ++ right) hi ↔
      ∃ mid, ArmsOrdered lo left mid ∧ ArmsOrdered mid right hi := by
  induction left generalizing lo with
  | nil =>
    constructor
    · intro h
      exact ⟨lo, Nat.le_refl lo, h⟩
    · rintro ⟨mid, hle, h⟩
      cases right with
      | nil => exact Nat.le_trans hle h
      | cons arm arms => exact ⟨Nat.le_trans hle h.1, h.2⟩
  | cons arm left ih =>
    constructor
    · rintro ⟨hlo, hrest⟩
      obtain ⟨mid, hl, hr⟩ := ih.mp hrest
      exact ⟨mid, ⟨hlo, hl⟩, hr⟩
    · rintro ⟨mid, ⟨hlo, hl⟩, hr⟩
      exact ⟨hlo, ih.mpr ⟨mid, hl, hr⟩⟩

/-- One chunk moves behind its widened field. -/
theorem Moved.step (hm : Moving code (left ++ arm :: right))
    (h : Moved code (left ++ arm :: right) (left ++ [arm]) buffer cursor)
    (hright : ∀ a ∈ right, cursor ≤ a.field)
    (hstep : moveBehind (buffer, cursor) arm = .ok (buffer', cursor')) :
    cursor' = arm.field ∧ Moved code (left ++ arm :: right) left buffer' cursor' := by
  simp only [moveBehind] at hstep
  split at hstep
  · cases hstep
  · rename_i hcheck
    simp only [not_or, Nat.not_lt] at hcheck
    cases hstep
    refine ⟨rfl, ?_⟩
    obtain ⟨mid, hleft, hlo, hhi⟩ := armsOrdered_append.mp h.left_before
    simp only [ArmsOrdered] at hhi
    have hsize := h.size
    have hcursor := h.cursor_le
    -- fields in front of the arm, the arm itself, fields at or behind the cursor
    have hbefore : ∀ a ∈ left, a.field + 2 ≤ arm.field := by
      intro a ha
      have := hleft.field_bounds a ha
      omega
    have hcount : ∀ x, ((left ++ arm :: right).map Arm.field).countP (· < x) =
        (left.map Arm.field).countP (· < x) + ((if arm.field < x then 1 else 0) +
          (right.map Arm.field).countP (· < x)) := by
      intro x
      rw [List.map_append, List.map_cons, List.countP_append, List.countP_cons]
      simp only [decide_eq_true_eq]
      omega
    have hleftAll : ∀ x, arm.field ≤ x → (left.map Arm.field).countP (· < x) = left.length := by
      intro x hx
      rw [countP_lt_eq_length, List.length_map]
      intro w hw
      obtain ⟨a, ha, rfl⟩ := List.mem_map.mp hw
      have := hbefore a ha
      omega
    have hrightNone : ∀ x, x ≤ cursor → (right.map Arm.field).countP (· < x) = 0 := by
      intro x hx
      apply countP_lt_eq_zero
      intro w hw
      obtain ⟨a, ha, rfl⟩ := List.mem_map.mp hw
      have := hright a ha
      omega
    have hplace : arm.place = arm.field + 2 * left.length := by
      rw [hm.placed arm (by simp), grown, hcount, hleftAll _ (Nat.le_refl _),
        hrightNone _ (by omega)]
      simp
    have hcopy : ∀ k, (copyUp buffer (arm.field + 2) (arm.place + 4)
        (cursor - (arm.field + 2)))[k]? =
        if arm.place + 4 ≤ k ∧ k < arm.place + 4 + (cursor - (arm.field + 2)) then
          buffer[arm.field + 2 + (k - (arm.place + 4))]? else buffer[k]? :=
      getElem?_copyUp (by omega) (by omega)
    refine ⟨by rw [size_copyUp, hsize], by omega, ?_, ?_, ?_⟩
    · have hwider : ArmsOrdered 0 (left ++ []) arm.field := armsOrdered_append.mpr ⟨mid, hleft, hlo⟩
      rwa [List.append_nil] at hwider
    · intro x hx
      rw [hcopy, if_neg (by omega)]
      exact h.kept x (by omega)
    · intro x hx hlt hfree
      have hown := hfree arm (by simp)
      have hgrown : grown ((left ++ arm :: right).map Arm.field) x =
          x + 2 * (left.length + 1 + (right.map Arm.field).countP (· < x)) := by
        rw [grown, hcount, hleftAll x hx, if_pos (by omega)]
        omega
      by_cases hxc : x < cursor
      · rw [hgrown, hrightNone x (by omega), hcopy, if_pos (by omega)]
        rw [show arm.field + 2 + (x + 2 * (left.length + 1 + 0) - (arm.place + 4)) = x by omega]
        exact h.kept x hxc
      · rw [hcopy, if_neg (by omega)]
        exact h.moved x (by omega) hlt hfree

/-- All chunks move, the last one first. -/
theorem Moved.run (hm : Moving code (left.reverse ++ right))
    (h : Moved code (left.reverse ++ right) left.reverse buffer cursor)
    (hright : ∀ a ∈ right, cursor ≤ a.field)
    (hrun : left.foldlM moveBehind (buffer, cursor) = .ok (buffer', cursor')) :
    ∃ last, Moved code (left.reverse ++ right) [] buffer' last ∧
      ∀ a ∈ left.reverse ++ right, last ≤ a.field := by
  induction left generalizing right buffer cursor with
  | nil =>
    simp only [List.foldlM_nil] at hrun
    cases hrun
    exact ⟨_, h, by simpa using hright⟩
  | cons arm left ih =>
    simp only [List.foldlM_cons, bind, Except.bind] at hrun
    cases hstep : moveBehind (buffer, cursor) arm with
    | error e =>
      rw [hstep] at hrun
      cases hrun
    | ok next =>
      rw [hstep] at hrun
      obtain ⟨buffer₁, cursor₁⟩ := next
      have hassoc : (arm :: left).reverse ++ right = left.reverse ++ arm :: right := by simp
      rw [hassoc] at hm h ⊢
      rw [List.reverse_cons] at h
      obtain ⟨hcursor, hnext⟩ := h.step hm hright hstep
      refine ih hm hnext ?_ hrun
      intro a ha
      rcases List.mem_cons.mp ha with rfl | ha
      · omega
      · obtain ⟨mid, -, hbehind⟩ := armsOrdered_append.mp hm.ordered
        have := hbehind.2.field_bounds a ha
        omega

/-- After moving, the byte at `x` stands where the layout puts it, if it belongs to no widened
field. -/
theorem move_getElem? {moved : Bytes} (hm : Moving code arms)
    (hrun : arms.reverse.foldlM moveBehind
      (code ++ Array.replicate (2 * arms.length) 0, code.size) = .ok (moved, cursor)) :
    moved.size = code.size + 2 * arms.length ∧
      ∀ x < code.size, (∀ arm ∈ arms, x < arm.field ∨ arm.field + 2 ≤ x) →
        moved[grown (arms.map Arm.field) x]? = code[x]? := by
  have hcode : ∀ x < code.size,
      (code ++ Array.replicate (2 * arms.length) (0 : UInt8))[x]? = code[x]? := by
    intro x hx
    rw [Array.getElem?_append_left hx]
  have hstart : Moved code (arms.reverse.reverse ++ []) arms.reverse.reverse
      (code ++ Array.replicate (2 * arms.length) 0) code.size := by
    rw [List.reverse_reverse, List.append_nil]
    refine ⟨by simp, Nat.le_refl _, hm.ordered, hcode, ?_⟩
    intro x hx hlt
    omega
  have hm' : Moving code (arms.reverse.reverse ++ []) := by simpa using hm
  obtain ⟨last, hdone, hlast⟩ := hstart.run hm' (by simp) hrun
  rw [List.reverse_reverse, List.append_nil] at hdone hlast
  refine ⟨hdone.size, fun x hx hfree => ?_⟩
  by_cases hxl : x < last
  · have hstays : grown (arms.map Arm.field) x = x := by
      rw [grown, countP_lt_eq_zero, Nat.mul_zero, Nat.add_zero]
      intro w hw
      obtain ⟨a, ha, rfl⟩ := List.mem_map.mp hw
      have := hlast a ha
      omega
    rw [hstays]
    exact hdone.kept x hxl
  · exact hdone.moved x (by omega) hx hfree

/-! ## Writing -/

/-- Writing an arm changes its field and nothing else. -/
theorem writeArm_ok {wide : Bool} (h : writeArm tooLarge targets wide pivot code arm = .ok code') :
    ∃ span, armSpan targets pivot arm = .ok span ∧ offsetFits wide span ∧
      code'.size = code.size ∧ Holds code' arm.place (offsetBytes wide span) ∧
      ∀ y, y < arm.place ∨ arm.place + offsetWidth wide ≤ y → code'[y]? = code[y]? := by
  simp only [writeArm, bind, Except.bind] at h
  cases hspan : armSpan targets pivot arm with
  | error e =>
    rw [hspan] at h
    cases h
  | ok span =>
    rw [hspan] at h
    refine ⟨span, rfl, ?_⟩
    cases wide with
    | true =>
      simp only [if_true] at h
      by_cases hfit : fits32 span = true
      · simp only [hfit, Bool.not_true, Bool.false_eq_true, if_false] at h
        by_cases hroom : code.size < arm.place + 4
        · rw [if_pos hroom] at h
          cases h
        · rw [if_neg hroom] at h
          cases h
          refine ⟨hfit, size_setU32 .., holds_setU32 _ (by omega), fun y hy => ?_⟩
          exact getElem?_setU32_of_ne _ hy
      · simp only [Bool.not_eq_true] at hfit
        simp only [hfit, Bool.not_false, if_true] at h
        cases h
    | false =>
      simp only [Bool.false_eq_true, if_false] at h
      by_cases hfit : fits16 span = true
      · simp only [hfit, Bool.not_true, Bool.false_eq_true, if_false] at h
        by_cases hroom : code.size < arm.place + 2
        · rw [if_pos hroom] at h
          cases h
        · rw [if_neg hroom] at h
          cases h
          refine ⟨hfit, size_setU16 .., holds_setU16 _ (by omega), fun y hy => ?_⟩
          exact getElem?_setU16_of_ne _ hy
      · simp only [Bool.not_eq_true] at hfit
        simp only [hfit, Bool.not_false, if_true] at h
        cases h

/-- Writing all arms of a site. Fields that lie one behind the other do not disturb one another. -/
theorem writeArms_ok {wide : Bool} {W : List Nat} (horder : ArmsOrdered lo arms hi)
    (hroom : ∀ arm ∈ arms, grown W arm.field + offsetWidth wide ≤ grown W (arm.field + 2))
    (h : (arms.map fun arm => { arm with place := grown W arm.field }).foldlM
      (writeArm tooLarge targets wide pivot) code = .ok code') :
    code'.size = code.size ∧
      (∀ arm ∈ arms, ∃ span, armSpan targets pivot arm = .ok span ∧ offsetFits wide span ∧
        Holds code' (grown W arm.field) (offsetBytes wide span)) ∧
      ∀ y, (∀ arm ∈ arms, y < grown W arm.field ∨ grown W (arm.field + 2) ≤ y) →
        code'[y]? = code[y]? := by
  induction arms generalizing lo code with
  | nil =>
    simp only [List.map_nil, List.foldlM_nil] at h
    cases h
    exact ⟨rfl, by simp, fun _ _ => rfl⟩
  | cons arm arms ih =>
    obtain ⟨hlo, hrest⟩ := horder
    simp only [List.map_cons, List.foldlM_cons, bind, Except.bind] at h
    cases hw : writeArm tooLarge targets wide pivot code { arm with place := grown W arm.field } with
    | error e =>
      rw [hw] at h
      cases h
    | ok next =>
      rw [hw] at h
      obtain ⟨span, hspan, hfit, hsize, hholds, hkeep⟩ := writeArm_ok hw
      obtain ⟨hsize', harms, hkeep'⟩ := ih hrest (fun a ha => hroom a (List.mem_cons_of_mem _ ha)) h
      have hown := hroom arm List.mem_cons_self
      have hbehind : ∀ a ∈ arms, grown W (arm.field + 2) ≤ grown W a.field := by
        intro a ha
        exact grown_le_grown W (hrest.field_bounds a ha).1
      refine ⟨by rw [hsize', hsize], ?_, ?_⟩
      · intro a ha
        rcases List.mem_cons.mp ha with rfl | ha
        · refine ⟨span, hspan, hfit, hholds.of_eq fun y hy hy' => hkeep' y fun b hb => ?_⟩
          rw [length_offsetBytes] at hy'
          have := hbehind b hb
          simp only at hy'
          omega
        · exact harms a ha
      · intro y hy
        rw [hkeep' y fun a ha => hy a (List.mem_cons_of_mem _ ha), hkeep y]
        have := hy arm List.mem_cons_self
        simp only
        omega

/-- What is written for one site of a layout. -/
structure SiteWritten (sites : List Site) (targets : TargetIndex) (wide : Nat → Bool) (code : Bytes)
    (site : Site) : Prop where
  /-- Its opcode, or the wide twin. -/
  opcode : code[grown (widenedFields sites wide) site.top]? =
    some (if wide site.top then site.op.widened.getD site.op else site.op).toByte
  /-- Its offsets, measured in the new layout. -/
  offsets : ∀ arm ∈ site.arms, ∃ span,
    armSpan (moveTargets targets (grown (widenedFields sites wide)))
      (grown (widenedFields sites wide) site.top) arm = .ok span ∧
    offsetFits (wide site.top) span = true ∧
    Holds code (grown (widenedFields sites wide) arm.field) (offsetBytes (wide site.top) span)

/-- There is room for a field of either width in front of what follows it. -/
theorem offsetWidth_le_grown (wide : Nat → Bool) (hmem : site ∈ sites) (ha : arm ∈ site.arms) :
    grown (widenedFields sites wide) arm.field + offsetWidth (wide site.top) ≤
      grown (widenedFields sites wide) (arm.field + 2) := by
  have hmono : (widenedFields sites wide).countP (· < arm.field) ≤
      (widenedFields sites wide).countP (· < arm.field + 2) :=
    List.countP_mono_left fun z _ hz => by
      simp only [decide_eq_true_eq] at hz ⊢
      omega
  cases hw : wide site.top with
  | false =>
    simp only [grown, offsetWidth, Bool.false_eq_true, if_false]
    omega
  | true =>
    -- the field itself is a widened one, and it lies in front of its end
    have hfield : arm.field ∈ widenedFields sites wide :=
      mem_widenedFields.mpr ⟨site, hmem, hw, arm, ha, rfl⟩
    have hstrict : (widenedFields sites wide).countP (· < arm.field) <
        (widenedFields sites wide).countP (· < arm.field + 2) := by
      obtain ⟨left, right, heq⟩ := List.append_of_mem hfield
      rw [heq]
      have hl : left.countP (· < arm.field) ≤ left.countP (· < arm.field + 2) :=
        List.countP_mono_left fun z _ hz => by
          simp only [decide_eq_true_eq] at hz ⊢
          omega
      have hr : right.countP (· < arm.field) ≤ right.countP (· < arm.field + 2) :=
        List.countP_mono_left fun z _ hz => by
          simp only [decide_eq_true_eq] at hz ⊢
          omega
      simp only [List.countP_append, List.countP_cons, decide_eq_true_eq, Nat.lt_irrefl, if_false,
        Nat.lt_add_of_pos_right (show 0 < 2 by omega), if_true]
      omega
    simp only [grown, offsetWidth, if_true]
    omega

section

variable (horder : SitesOrdered lo sites hi) (hnarrow : ∀ site ∈ sites, site.op.isWide = false)
  (hp : Promotable sites wide)

include horder hnarrow hp

/-- Writing one placed site. -/
theorem writeSite_ok (hmem : site ∈ sites)
    (h : writeSite tooLarge (moveTargets targets (grown (widenedFields sites wide))) code
      (placeSite wide (grown (widenedFields sites wide)) site) = .ok code') :
    code'.size = code.size ∧ SiteWritten sites targets wide code' site ∧
      ∀ y, y ≠ grown (widenedFields sites wide) site.top →
        (∀ arm ∈ site.arms, y < grown (widenedFields sites wide) arm.field ∨
          grown (widenedFields sites wide) (arm.field + 2) ≤ y) → code'[y]? = code[y]? := by
  have hpivot := pivot_placeSite horder wide hmem
  have hwide := isWide_placeSite hnarrow hp hmem (grown (widenedFields sites wide))
  obtain ⟨-, -, -, hfields⟩ := horder.bounds site hmem
  obtain ⟨left, right, rfl⟩ := List.append_of_mem hmem
  obtain ⟨mid, -, -, -, cut, harms, -⟩ := sitesOrdered_append.mp horder
  simp only [writeSite, bind, Except.bind, hpivot, hwide] at h
  split at h
  · cases h
  · rename_i hbound
    simp only [Nat.not_le] at hbound
    have hroom : ∀ arm ∈ site.arms,
        grown (widenedFields (left ++ site :: right) wide) arm.field + offsetWidth (wide site.top) ≤
          grown (widenedFields (left ++ site :: right) wide) (arm.field + 2) :=
      fun arm ha => offsetWidth_le_grown wide hmem ha
    obtain ⟨hsize, hwritten, hkeep⟩ := writeArms_ok harms hroom h
    refine ⟨by rw [hsize, Array.size_setIfInBounds], ⟨?_, hwritten⟩, ?_⟩
    · rw [hkeep, Array.getElem?_setIfInBounds_self_of_lt hbound]
      · rfl
      · intro arm ha
        exact .inl (grown_lt_grown _ (hfields arm ha).1)
    · intro y hy hfree
      rw [hkeep y hfree, Array.getElem?_setIfInBounds_ne (Ne.symm hy)]

/-- Writing sites one after the other. A site lies in front of the ones behind it, so what has been
written for it stays. -/
theorem writeSites_ok {rest : List Site} {lo' hi' : Nat} (hrest : SitesOrdered lo' rest hi')
    (hsub : ∀ site ∈ rest, site ∈ sites)
    (h : (rest.map (placeSite wide (grown (widenedFields sites wide)))).foldlM
      (writeSite tooLarge (moveTargets targets (grown (widenedFields sites wide)))) code =
        .ok code') :
    code'.size = code.size ∧ (∀ site ∈ rest, SiteWritten sites targets wide code' site) ∧
      ∀ y, (∀ site ∈ rest, y ≠ grown (widenedFields sites wide) site.top ∧
        ∀ arm ∈ site.arms, y < grown (widenedFields sites wide) arm.field ∨
          grown (widenedFields sites wide) (arm.field + 2) ≤ y) → code'[y]? = code[y]? := by
  induction rest generalizing lo' code with
  | nil =>
    simp only [List.map_nil, List.foldlM_nil] at h
    cases h
    exact ⟨rfl, by simp, fun _ _ => rfl⟩
  | cons site rest ih =>
    obtain ⟨hlo, hne, cut, harms, hbehind⟩ := hrest
    have hmem := hsub site List.mem_cons_self
    simp only [List.map_cons, List.foldlM_cons, bind, Except.bind] at h
    cases hw : writeSite tooLarge (moveTargets targets (grown (widenedFields sites wide))) code
        (placeSite wide (grown (widenedFields sites wide)) site) with
    | error e =>
      rw [hw] at h
      cases h
    | ok next =>
      rw [hw] at h
      obtain ⟨hsize, hwritten, hkeep⟩ := writeSite_ok horder hnarrow hp hmem hw
      obtain ⟨hsize', hothers, hkeep'⟩ :=
        ih hbehind (fun s hs => hsub s (List.mem_cons_of_mem _ hs)) h
      -- whatever lies in front of the next site is left alone
      have hfront : ∀ y, y < grown (widenedFields sites wide) cut → code'[y]? = next[y]? := by
        intro y hy
        apply hkeep'
        intro s hs
        obtain ⟨htop, -, -, hfields⟩ := hbehind.bounds s hs
        have h1 := grown_le_grown (widenedFields sites wide) htop
        refine ⟨by omega, fun arm ha => .inl ?_⟩
        have h2 := grown_lt_grown (widenedFields sites wide) (hfields arm ha).1
        omega
      have hcut := harms.le
      refine ⟨by rw [hsize', hsize], ?_, ?_⟩
      · intro s hs
        rcases List.mem_cons.mp hs with rfl | hs
        · refine ⟨?_, fun arm ha => ?_⟩
          · rw [hfront _ (grown_lt_grown _ (by omega))]
            exact hwritten.opcode
          · obtain ⟨span, hspan, hfit, hholds⟩ := hwritten.offsets arm ha
            refine ⟨span, hspan, hfit, hholds.of_eq fun y hy hy' => hfront y ?_⟩
            rw [length_offsetBytes] at hy'
            have h1 := offsetWidth_le_grown wide hmem ha
            have h2 := grown_le_grown (widenedFields sites wide) (harms.field_bounds arm ha).2
            omega
        · exact hothers s hs
      · intro y hy
        obtain ⟨htop, hfields⟩ := hy site List.mem_cons_self
        rw [hkeep' y fun s hs => hy s (List.mem_cons_of_mem _ hs), hkeep y htop hfields]

end

/-! ## The relocated code -/

/-- The arms of the wide sites of a described layout. -/
theorem wideArms_described (hnarrow : ∀ site ∈ sites, site.op.isWide = false)
    (hd : Describes sites targets wide layout) :
    layout.wideArms = (((sites.filter fun site => wide site.top).flatMap Site.arms).map fun arm =>
      { arm with place := grown (widenedFields sites wide) arm.field }).reverse := by
  have hfilter : ((sites.map (placeSite wide (grown (widenedFields sites wide)))).filter
      fun site => site.op.isWide) =
      (sites.filter fun site => wide site.top).map
        (placeSite wide (grown (widenedFields sites wide))) := by
    rw [List.filter_map]
    congr 1
    apply List.filter_congr
    intro site hmem
    exact isWide_placeSite hnarrow hd.promotable hmem _
  rw [wideArms_eq, hd.placed, hfilter, List.flatMap_map, List.map_flatMap]
  rfl

theorem armsOrdered_flatMap (h : SitesOrdered lo sites hi) (wide : Nat → Bool) :
    ArmsOrdered lo ((sites.filter fun site => wide site.top).flatMap Site.arms) hi := by
  induction sites generalizing lo with
  | nil => exact h
  | cons site sites ih =>
    obtain ⟨hlo, -, mid, harms, hrest⟩ := h
    have hnext := ih hrest
    by_cases hw : wide site.top = true
    · simp only [List.filter_cons, hw, if_true, List.flatMap_cons]
      have hone : ArmsOrdered lo ([] ++ (site.arms ++
          (sites.filter fun site => wide site.top).flatMap Site.arms)) hi := by
        refine armsOrdered_append.mpr ⟨site.top + 1, ?_, armsOrdered_append.mpr ⟨mid, harms, hnext⟩⟩
        simp only [ArmsOrdered]
        omega
      simpa using hone
    · have hle := harms.le
      simp only [Bool.not_eq_true] at hw
      simp only [List.filter_cons, hw, Bool.false_eq_true, if_false]
      have hone : ArmsOrdered lo ([] ++
          (sites.filter fun site => wide site.top).flatMap Site.arms) hi := by
        refine armsOrdered_append.mpr ⟨mid, ?_, hnext⟩
        simp only [ArmsOrdered]
        omega
      simpa using hone

theorem armsOrdered_replace (h : ArmsOrdered lo arms hi) (at' : Nat → Nat) :
    ArmsOrdered lo (arms.map fun arm => { arm with place := at' arm.field }) hi := by
  induction arms generalizing lo with
  | nil => exact h
  | cons arm arms ih => exact ⟨h.1, ih h.2⟩

/-- What the relocated code holds: every byte that belongs to no opcode of a site and to no field
stands where the layout puts it, and every site is written in its new form. -/
structure Relocated (sites : List Site) (targets : TargetIndex) (wide : Nat → Bool)
    (code code' : Bytes) : Prop where
  size : code'.size = grown (widenedFields sites wide) code.size
  kept : ∀ x < code.size, (∀ site ∈ sites, x ≠ site.top ∧
    ∀ arm ∈ site.arms, x < arm.field ∨ arm.field + 2 ≤ x) →
    code'[grown (widenedFields sites wide) x]? = code[x]?
  written : ∀ site ∈ sites, SiteWritten sites targets wide code' site

/-- Relocation of a described layout. -/
theorem relocate_ok (horder : SitesOrdered lo sites code.size)
    (hnarrow : ∀ site ∈ sites, site.op.isWide = false) (hd : Describes sites targets wide layout)
    (h : layout.relocate tooLarge code = .ok code') : Relocated sites targets wide code code' := by
  obtain ⟨arms, harms⟩ : ∃ arms, arms = ((sites.filter fun site => wide site.top).flatMap
      Site.arms).map fun arm =>
        { arm with place := grown (widenedFields sites wide) arm.field } := ⟨_, rfl⟩
  have hfields : arms.map Arm.field = widenedFields sites wide := by
    rw [harms, List.map_map, widenedFields, List.map_flatMap]
    rfl
  have hlength : (widenedFields sites wide).length = arms.length := by
    rw [← hfields, List.length_map]
  have hordered : ArmsOrdered 0 arms code.size := by
    have hlo : ArmsOrdered 0 ([] ++ arms) code.size := by
      refine armsOrdered_append.mpr ⟨lo, Nat.zero_le lo, ?_⟩
      rw [harms]
      exact armsOrdered_replace (armsOrdered_flatMap horder wide) _
    simpa using hlo
  have hmoving : Moving code arms := by
    refine ⟨hordered, fun arm ha => ?_⟩
    rw [hfields]
    rw [harms] at ha
    obtain ⟨a, -, rfl⟩ := List.mem_map.mp ha
    rfl
  have hsizeW : grown (widenedFields sites wide) code.size = code.size + 2 * arms.length := by
    rw [grown, countP_lt_eq_length, hlength]
    intro w hw
    have := widenedFields_bounds horder wide w hw
    omega
  simp only [relocate, bind, Except.bind, hd.growth, hlength, wideArms_described hnarrow hd,
    ← harms] at h
  cases hrun : arms.reverse.foldlM moveBehind
      (code ++ Array.replicate (2 * arms.length) 0, code.size) with
  | error e =>
    rw [hrun] at h
    cases h
  | ok result =>
    obtain ⟨moved, cursor⟩ := result
    rw [hrun] at h
    simp only at h
    rw [hd.placed, hd.moved] at h
    obtain ⟨hsize, hmoved⟩ := move_getElem? hmoving hrun
    rw [hfields] at hmoved
    obtain ⟨hsize', hwritten, hkeep⟩ :=
      writeSites_ok horder hnarrow hd.promotable horder (fun _ hs => hs) h
    refine ⟨by rw [hsize', hsize, hsizeW], fun x hx hfree => ?_, hwritten⟩
    rw [hkeep, hmoved x hx]
    · intro arm ha
      rw [harms] at ha
      obtain ⟨a, hin, rfl⟩ := List.mem_map.mp ha
      obtain ⟨site, hs, has⟩ := List.mem_flatMap.mp hin
      exact (hfree site (List.mem_filter.mp hs).1).2 a has
    · intro site hs
      obtain ⟨htop, hfield⟩ := hfree site hs
      refine ⟨by simpa using htop, fun arm ha => ?_⟩
      rcases hfield arm ha with hlt | hle
      · exact .inl (grown_lt_grown _ hlt)
      · exact .inr (grown_le_grown _ hle)

end ScriptCompiler.Layout
