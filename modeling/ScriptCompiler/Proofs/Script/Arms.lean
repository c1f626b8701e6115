import ScriptCompiler.Proofs.Instruction
import ScriptCompiler.Script.Basic

/-!
# The arms of switches

The loops that read the arms of a switch go from one offset to the next and give
up at the first one that leads to a place before the code. What they yield is said
at once for all arms, from the offsets that are in the code.
-/

namespace ScriptCompiler

open Bytes Script

variable {code : Bytes} {pc width fallback count : Nat} {index : Nat → Nat} {offset : Nat → Int}

theorem add_offset (pc t : Nat) : (pc : Int) + ((t : Int) - pc) = t := by omega

theorem landing?_eq (pc t : Nat) : landing? pc ((t : Int) - pc) = some t := by
  rw [landing?, add_offset, if_pos (Int.natCast_nonneg t), Int.toNat_natCast]

/-- The arms of a table that holds `offset i` for its key of number `i`. -/
theorem tableArms_eq (arms : Array SwitchArm) (key : Int) (pos : Nat)
    (h : ∀ i < count, offsetAt? code width (pos + width * i) = some (offset i)) :
    tableArms code pc width fallback arms key pos count =
      .ok (if ∀ i < count, 0 ≤ (pc : Int) + offset i then
        some (arms ++ ((List.range count).map fun (i : Nat) => (⟨.integer (key + i),
          if (pc + offset i).toNat = pc then fallback else (pc + offset i).toNat⟩ :
            SwitchArm)).toArray)
      else none) := by
  induction count generalizing arms key pos offset with
  | zero => simp [tableArms]
  | succ count ih =>
    have hfirst : offsetAt? code width pos = some (offset 0) := by
      simpa using h 0 (Nat.succ_pos _)
    have hrest : ∀ i < count,
        offsetAt? code width (pos + width + width * i) = some (offset (i + 1)) := fun i hi => by
      rw [← h (i + 1) (Nat.succ_lt_succ hi), Nat.mul_succ, Nat.add_comm (width * i), Nat.add_assoc]
    have hkey : ∀ i : Nat, key + 1 + (i : Int) = key + ((i : Int) + 1) := fun i => by omega
    by_cases hland : 0 ≤ (pc : Int) + offset 0
    · simp only [tableArms, hfirst, landing?, if_pos hland]
      rw [ih _ _ _ hrest, List.range_succ_eq_map]
      simp only [Nat.forall_lt_succ_left, hland, true_and]
      simp [hkey, Function.comp_def]
    · simp only [tableArms, hfirst, landing?, Nat.forall_lt_succ_left, hland, false_and,
        if_false]

/-- The arms of a lookup switch that holds the literal `index i` and `offset i` in its pair of
number `i`. -/
theorem lookupArms_eq (arms : Array SwitchArm) (pos : Nat)
    (hindex : ∀ i < count, u16? code (pos + (width + 2) * i) = some (index i))
    (h : ∀ i < count, offsetAt? code width (pos + 2 + (width + 2) * i) = some (offset i)) :
    lookupArms code pc width arms pos count =
      .ok (if ∀ i < count, 0 ≤ (pc : Int) + offset i then
        some (arms ++ ((List.range count).map fun (i : Nat) =>
          (⟨.literal (index i), (pc + offset i).toNat⟩ : SwitchArm)).toArray)
      else none) := by
  induction count generalizing arms pos index offset with
  | zero => simp [lookupArms]
  | succ count ih =>
    have hliteral : u16? code pos = some (index 0) := by simpa using hindex 0 (Nat.succ_pos _)
    have hfirst : offsetAt? code width (pos + 2) = some (offset 0) := by
      simpa using h 0 (Nat.succ_pos _)
    have hnext : ∀ n i, n + (width + 2) * (i + 1) = n + 2 + width + (width + 2) * i := fun n i => by
      rw [Nat.mul_succ]
      omega
    have hindexes : ∀ i < count,
        u16? code (pos + 2 + width + (width + 2) * i) = some (index (i + 1)) := fun i hi => by
      rw [← hindex (i + 1) (Nat.succ_lt_succ hi), hnext]
    have hrest : ∀ i < count, offsetAt? code width (pos + 2 + width + 2 + (width + 2) * i) =
        some (offset (i + 1)) := fun i hi => by
      rw [← h (i + 1) (Nat.succ_lt_succ hi), hnext, Nat.add_right_comm (pos + 2)]
    by_cases hland : 0 ≤ (pc : Int) + offset 0
    · simp only [lookupArms, hliteral, hfirst, landing?, if_pos hland]
      rw [ih _ _ hindexes hrest, List.range_succ_eq_map]
      simp only [Nat.forall_lt_succ_left, hland, true_and]
      simp [Function.comp_def]
    · simp only [lookupArms, hliteral, hfirst, landing?, Nat.forall_lt_succ_left, hland,
        false_and, if_false]

end ScriptCompiler
