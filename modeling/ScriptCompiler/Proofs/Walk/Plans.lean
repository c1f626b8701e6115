import ScriptCompiler.Compile.Switch
import ScriptCompiler.Proofs.Walk.Basic

/-!
# How a switch is planned

Choosing a plan only reads. If a table is chosen, then the tests are distinct
integers in its range.
-/

namespace ScriptCompiler

open Bytes Emit Lowering

variable {w : Walk} {g g' : Generator} {test : NodeId} {key : Option Int} {range : KeyRange}

theorem caseKey_ok {key : Option Literal} (hok : w.caseKey test g = .ok key g') :
    key = caseKey? w.tree test ∧ g' = g := by
  simp only [Walk.caseKey, bind_ok, pure_ok] at hok
  obtain ⟨node, _, hnode, rfl, rfl⟩ := hok
  obtain ⟨hget, rfl⟩ := node_ok hnode
  rw [caseKey?, hget]
  exact ⟨rfl, rfl⟩

theorem tableKey_ok (hok : w.tableKey test g = .ok key g') :
    key = tableKey? w.tree test ∧ g' = g := by
  simp only [Walk.tableKey, bind_ok, pure_ok] at hok
  obtain ⟨node, _, hnode, rfl, rfl⟩ := hok
  obtain ⟨hget, rfl⟩ := node_ok hnode
  rw [tableKey?, hget]
  exact ⟨rfl, rfl⟩

/-- What is known of some keys once they have been taken into account, as long as they are
dense. -/
structure KeyRange.Holds (range : KeyRange) (keys : List (Option Int)) : Prop where
  bounds : ∀ key ∈ keys, ∃ z, key = some z ∧ range.low ≤ z ∧ z ≤ range.high
  seen : ∀ z, some z ∈ keys → range.seen.contains z = true
  distinct : keys.Nodup

theorem KeyRange.Holds.add {keys : List (Option Int)} (h : range.dense → range.Holds keys)
    (hdense : (range.add key).dense) : (range.add key).Holds (keys ++ [key]) := by
  cases key with
  | none => cases hdense
  | some z =>
    rw [KeyRange.add] at hdense ⊢
    split at hdense
    · rename_i hnew
      simp only [Bool.and_eq_true, Bool.not_eq_true'] at hnew
      obtain ⟨hdense', hnew⟩ := hnew
      have hholds := h hdense'
      rw [if_pos (by simp [hdense', hnew])]
      refine ⟨fun key hkey => ?_, fun z' hz' => ?_, ?_⟩
      · rcases List.mem_append.mp hkey with hkey | hkey
        · obtain ⟨z', rfl, hlow, hhigh⟩ := hholds.bounds key hkey
          exact ⟨z', rfl, by simp only; omega, by simp only; omega⟩
        · exact ⟨z, List.mem_singleton.mp hkey, by simp only; omega, by simp only; omega⟩
      · rw [Std.HashSet.contains_insert]
        rcases List.mem_append.mp hz' with hz' | hz'
        · simp [hholds.seen z' hz']
        · cases List.mem_singleton.mp hz'
          simp
      · refine List.nodup_append.mpr ⟨hholds.distinct, by simp, fun key hkey key' hkey' heq => ?_⟩
        rw [List.mem_singleton.mp hkey'] at heq
        subst heq
        rw [hholds.seen z hkey] at hnew
        cases hnew
    · cases hdense

/-- Taking tests into account only reads. -/
theorem keyRange_ok (keys : List (Option Int)) {tests : List NodeId} {result : Option KeyRange}
    (hok : w.keyRange range tests g = .ok result g') (h : range.dense → range.Holds keys) :
    g' = g ∧ ∀ r, result = some r → r.dense →
      r.Holds (keys ++ tests.map (tableKey? w.tree)) := by
  induction tests generalizing range keys with
  | nil =>
    obtain ⟨rfl, rfl⟩ := pure_ok.mp hok
    refine ⟨rfl, fun r hr hdense => ?_⟩
    cases hr
    simpa using h hdense
  | cons test tests ih =>
    simp only [Walk.keyRange, bind_ok] at hok
    obtain ⟨key, g₁, hcase, hok⟩ := hok
    obtain ⟨-, rfl⟩ := caseKey_ok hcase
    split at hok
    · obtain ⟨rfl, rfl⟩ := pure_ok.mp hok
      exact ⟨rfl, (by rintro _ ⟨⟩)⟩
    · rw [bind_ok] at hok
      obtain ⟨z, g₂, htable, hok⟩ := hok
      obtain ⟨rfl, rfl⟩ := tableKey_ok htable
      have hrest := ih _ hok fun hdense => KeyRange.Holds.add h hdense
      simpa using hrest

/-- Choosing a plan only reads, and a table fits the tests. -/
theorem planSwitch_ok {clauses : List Case} {plan : SwitchPlan}
    (hok : w.planSwitch (clauses.filterMap Case.test) g = .ok plan g') :
    g' = g ∧ ∀ low high, plan = .table low high →
      tableFits w.tree low high clauses := by
  rw [Walk.planSwitch] at hok
  split at hok
  · rename_i hempty
    obtain ⟨rfl, rfl⟩ := pure_ok.mp hok
    refine ⟨rfl, fun low high hplan => ?_⟩
    rw [tableFits, tableKeys, List.isEmpty_iff.mp hempty]
    rfl
  · rw [bind_ok] at hok
    obtain ⟨result, g₁, hrange, hok⟩ := hok
    obtain ⟨rfl, hfits⟩ := keyRange_ok [] hrange fun _ => ⟨(by rintro _ ⟨⟩), (by rintro _ ⟨⟩), .nil⟩
    cases result with
    | none =>
      obtain ⟨rfl, rfl⟩ := pure_ok.mp hok
      exact ⟨rfl, (by rintro _ _ ⟨⟩)⟩
    | some range =>
      simp only at hok
      split at hok
      · rename_i hdense
        obtain ⟨rfl, rfl⟩ := pure_ok.mp hok
        refine ⟨rfl, fun low high hplan => ?_⟩
        cases hplan
        have hholds := hfits range rfl hdense.1
        rw [List.nil_append] at hholds
        rw [tableFits, Bool.and_eq_true, List.all_eq_true, decide_eq_true_eq]
        refine ⟨fun key hkey => ?_, hholds.distinct⟩
        obtain ⟨z, rfl, hlow, hhigh⟩ := hholds.bounds key hkey
        simp [hlow, hhigh]
      · simp only [get_bind] at hok
        split at hok
        · obtain ⟨rfl, rfl⟩ := pure_ok.mp hok
          exact ⟨rfl, (by rintro _ _ ⟨⟩)⟩
        · obtain ⟨rfl, rfl⟩ := pure_ok.mp hok
          exact ⟨rfl, (by rintro _ _ ⟨⟩)⟩

end ScriptCompiler
