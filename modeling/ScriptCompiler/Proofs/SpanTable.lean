import ScriptCompiler.SpanTable
import Mathlib.Data.List.Basic

/-!
# Finding spans

The spans of a table stand in the order of their fields, so the search by
halving finds the span of a field, and the mark in a field leads to its span
also where the position is too great for the mark.
-/

namespace ScriptCompiler

variable {t : SpanTable} {i j k : Nat} {s₁ s₂ span : Span}

/-- Halving an ascending range ends between the keys below the bound and the others. -/
theorem lowerBound_bounds {key : Nat → Nat} {bound lo hi : Nat} (hle : lo ≤ hi)
    (hmono : ∀ i j, lo ≤ i → i ≤ j → j < hi → key i ≤ key j) :
    lo ≤ lowerBound key bound lo hi ∧ lowerBound key bound lo hi ≤ hi ∧
      (∀ k, lo ≤ k → k < lowerBound key bound lo hi → key k < bound) ∧
      ∀ k, lowerBound key bound lo hi ≤ k → k < hi → bound ≤ key k := by
  fun_induction lowerBound key bound lo hi with
  | case1 lo hi hlt middle hkey ih =>
    obtain ⟨hl, hh, hbelow, habove⟩ := ih (by omega) fun i j hi hij hj => hmono i j (by omega) hij hj
    refine ⟨by omega, hh, fun k hk hk' => ?_, habove⟩
    by_cases hm : middle + 1 ≤ k
    · exact hbelow k hm hk'
    · have := hmono k middle hk (by omega) (by omega)
      omega
  | case2 lo hi hlt middle hkey ih =>
    obtain ⟨hl, hh, hbelow, habove⟩ :=
      ih (by omega) fun i j hi hij hj => hmono i j hi hij (by omega)
    refine ⟨hl, by omega, hbelow, fun k hk hk' => ?_⟩
    by_cases hm : k < middle
    · exact habove k hk hm
    · have := hmono middle k (by omega) (by omega) hk'
      omega
  | case3 lo hi hlt =>
    refine ⟨by omega, hle, fun k hk hk' => by omega, fun k hk hk' => by omega⟩

namespace SpanTable

/-- The fields of the spans ascend. -/
def Ascending (t : SpanTable) : Prop := t.spans.toList.Pairwise fun s₁ s₂ => s₁.field < s₂.field

/-- Spans at two positions of a table have their fields in the same order. -/
theorem Ascending.field_lt (h : t.Ascending) (hi : t.spans[i]? = some s₁)
    (hj : t.spans[j]? = some s₂) (hij : i < j) : s₁.field < s₂.field := by
  obtain ⟨hil, hi⟩ := Array.getElem?_eq_some_iff.mp hi
  obtain ⟨hjl, hj⟩ := Array.getElem?_eq_some_iff.mp hj
  have hget := List.pairwise_iff_getElem.mp h i j (by simpa using hil) (by simpa using hjl) hij
  simpa [hi, hj] using hget

/-- Only one span has a given field. -/
theorem Ascending.eq_of_field_eq (h : t.Ascending) (hi : t.spans[i]? = some s₁)
    (hj : t.spans[j]? = some s₂) (hf : s₁.field = s₂.field) : i = j ∧ s₁ = s₂ := by
  have hij : i = j := by
    rcases Nat.lt_trichotomy i j with hlt | heq | hlt
    · have := h.field_lt hi hj hlt
      omega
    · exact heq
    · have := h.field_lt hj hi hlt
      omega
  subst hij
  rw [hi] at hj
  exact ⟨rfl, Option.some.inj hj⟩

/-- The search finds the position of a field. -/
theorem Ascending.nearest_field (h : t.Ascending) (hk : t.spans[k]? = some span) :
    t.nearest span.field = k := by
  have hfield : ∀ i, i < t.spans.size →
      ∃ s, t.spans[i]? = some s ∧ (t.spans[i]?.map Span.field).getD 0 = s.field := by
    intro i hi
    exact ⟨t.spans[i], Array.getElem?_eq_getElem hi, by rw [Array.getElem?_eq_getElem hi]; rfl⟩
  have hkl := (Array.getElem?_eq_some_iff.mp hk).1
  have hmono : ∀ i j, 0 ≤ i → i ≤ j → j < t.spans.size →
      (t.spans[i]?.map Span.field).getD 0 ≤ (t.spans[j]?.map Span.field).getD 0 := by
    intro i j _ hij hj
    obtain ⟨s₁, hs₁, hf₁⟩ := hfield i (by omega)
    obtain ⟨s₂, hs₂, hf₂⟩ := hfield j hj
    rw [hf₁, hf₂]
    rcases Nat.lt_or_eq_of_le hij with hlt | rfl
    · exact Nat.le_of_lt (h.field_lt hs₁ hs₂ hlt)
    · rw [hs₁] at hs₂
      cases hs₂
      exact Nat.le_refl _
  have hbounds := @lowerBound_bounds (fun i => (t.spans[i]?.map Span.field).getD 0) span.field 0
    t.spans.size (Nat.zero_le _) hmono
  obtain ⟨-, hhi, hbelow, habove⟩ := hbounds
  rw [nearest]
  generalize hr : lowerBound (fun i => (t.spans[i]?.map Span.field).getD 0) span.field 0
    t.spans.size = r at hhi hbelow habove ⊢
  rcases Nat.lt_trichotomy r k with hlt | heq | hlt
  · obtain ⟨s, hs, hf⟩ := hfield r (by omega)
    have := habove r (Nat.le_refl _) (by omega)
    have := h.field_lt hs hk hlt
    omega
  · exact heq
  · have := hbelow k (Nat.zero_le _) hlt
    simp only [hk, Option.map_some, Option.getD_some] at this
    omega

/-- The mark of a position leads to the span at that position. -/
theorem Ascending.locate?_mark (h : t.Ascending) (hk : t.spans[k]? = some span) :
    t.locate? span.field (mark k) = some (k, span) := by
  have hindex : (if mark k = searchMark then t.nearest span.field else mark k) = k := by
    split
    · exact h.nearest_field hk
    · rename_i hm
      simp only [mark, searchMark] at hm ⊢
      omega
  simp only [locate?, hindex, hk, Option.bind_eq_bind, Option.bind_some, if_true]

end SpanTable

end ScriptCompiler
