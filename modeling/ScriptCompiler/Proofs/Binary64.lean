import ScriptCompiler.Binary64
import ScriptCompiler.Bytes
import Mathlib.Algebra.Order.Ring.Nat

/-!
# Integers among the binary64 numbers

The image of an integer is the finite number of the same value; zero has the
positive zero as its image. Larger bits stand for larger magnitudes, so an
integer has at most one image, and a signed 32-bit integer is found from it.
-/

namespace ScriptCompiler.Binary64

/-- The bits without the sign. -/
def magnitude (v : Binary64) : Nat := v.bits.toNat % 1 <<< 63

/-- Whether the sign bit is set. -/
def negative (v : Binary64) : Bool := 1 <<< 63 ≤ v.bits.toNat

/-- A finite number has the value of an integer. A zero with a sign is no integer. -/
structure IsImage (v : Binary64) (z : Int) : Prop where
  finite : v.magnitude < 2047 <<< 52
  units : unitsOf v.magnitude = z.natAbs <<< 1074
  sign : v.negative = decide (z < 0)

/-! ## Magnitudes -/

theorem unitsOf_fields {e f : Nat} (hf : f < 2 ^ 52) :
    unitsOf (e <<< 52 + f) = if e = 0 then f else (f + 2 ^ 52) <<< (e - 1) := by
  have hexp : (e <<< 52 + f) >>> 52 = e := by omega
  have hfrac : (e <<< 52 + f) % 2 ^ 52 = f := by omega
  simp only [unitsOf, Nat.one_shiftLeft, hexp, hfrac]

/-- Exponent and fraction. -/
theorem exists_fields (m : Nat) : ∃ e f, f < 2 ^ 52 ∧ m = e <<< 52 + f :=
  ⟨m >>> 52, m % 2 ^ 52, by omega, by omega⟩

/-- Larger bits stand for larger magnitudes. -/
theorem unitsOf_lt {m n : Nat} (h : m < n) : unitsOf m < unitsOf n := by
  obtain ⟨e, f, hf, rfl⟩ := exists_fields m
  obtain ⟨e', f', hf', rfl⟩ := exists_fields n
  rw [unitsOf_fields hf, unitsOf_fields hf']
  simp only [Nat.shiftLeft_eq] at h ⊢
  rcases Nat.lt_or_eq_of_le (show e ≤ e' by omega) with hlt | rfl
  · -- the significand has 53 bits, and the next exponent makes up for the last of them
    have hbelow : (if e = 0 then f else (f + 2 ^ 52) * 2 ^ (e - 1)) < 2 ^ 52 * 2 ^ e := by
      split
      · rename_i he
        rw [he]
        omega
      · rename_i he
        have hpow : 2 ^ e = 2 * 2 ^ (e - 1) := by
          rw [← Nat.pow_succ', Nat.succ_eq_add_one, Nat.sub_add_cancel (Nat.pos_of_ne_zero he)]
        rw [hpow, ← Nat.mul_assoc]
        exact Nat.mul_lt_mul_of_pos_right (by omega) (Nat.two_pow_pos _)
    have hpow : 2 ^ e ≤ 2 ^ (e' - 1) := Nat.pow_le_pow_right (by decide) (by omega)
    rw [if_neg (show ¬ e' = 0 by omega)]
    exact Nat.lt_of_lt_of_le hbelow (Nat.mul_le_mul (Nat.le_add_left _ _) hpow)
  · split
    · omega
    · exact Nat.mul_lt_mul_of_pos_right (by omega) (Nat.two_pow_pos _)

/-- The whole part of a number is that of its units. -/
theorem truncatedMagnitude_eq (v : Binary64) :
    v.truncatedMagnitude = unitsOf v.magnitude >>> 1074 := by
  obtain ⟨e, f, hf, hm⟩ := exists_fields v.magnitude
  have hexp : v.bits.toNat >>> 52 % 2048 = e := by
    rw [magnitude, Nat.one_shiftLeft] at hm
    omega
  have hfrac : v.bits.toNat % 2 ^ 52 = f := by
    rw [magnitude, Nat.one_shiftLeft] at hm
    omega
  simp only [truncatedMagnitude, Nat.one_shiftLeft, hexp, hfrac, hm, unitsOf_fields hf]
  split
  · rw [show 1074 = 52 + 1022 from rfl, Nat.shiftRight_add, Nat.shiftRight_eq_zero _ _ hf,
      Nat.zero_shiftRight]
  · split
    · rw [show e - 1 = (e - 1075) + 1074 by omega, Nat.shiftLeft_add, Nat.shiftLeft_shiftRight]
    · rw [show 1074 = (e - 1) + (1075 - e) by omega, Nat.shiftRight_add, Nat.shiftLeft_shiftRight]

/-- Integers of 53 bits need no rounding. -/
theorem magnitudeBits_exact {n : Nat} (hn : n < 2 ^ 53) :
    magnitudeBits n < 2047 <<< 52 ∧ unitsOf (magnitudeBits n) = n <<< 1074 := by
  by_cases h0 : n = 0
  · subst h0
    exact ⟨by decide, rfl⟩
  · have htop : n.log2 ≤ 52 := Nat.le_of_lt_succ ((Nat.log2_lt h0).mpr hn)
    have hlow : 2 ^ 52 ≤ n * 2 ^ (52 - n.log2) := by
      calc 2 ^ 52 = 2 ^ n.log2 * 2 ^ (52 - n.log2) := by
            rw [← Nat.pow_add, Nat.add_sub_cancel' htop]
        _ ≤ n * 2 ^ (52 - n.log2) := Nat.mul_le_mul_right _ (Nat.log2_self_le h0)
    have hhigh : n * 2 ^ (52 - n.log2) < 2 ^ 53 := by
      calc n * 2 ^ (52 - n.log2) < 2 ^ (n.log2 + 1) * 2 ^ (52 - n.log2) :=
            Nat.mul_lt_mul_of_pos_right Nat.lt_log2_self (Nat.two_pow_pos _)
        _ = 2 ^ 53 := by rw [← Nat.pow_add]; congr 1; omega
    have hbits : magnitudeBits n =
        (n.log2 + 1023) <<< 52 + (n <<< (52 - n.log2) - 2 ^ 52) := by
      simp only [magnitudeBits, Nat.one_shiftLeft, if_neg h0,
        if_neg (show ¬ 1023 < n.log2 by omega), if_pos htop]
    rw [← Nat.shiftLeft_eq] at hlow hhigh
    rw [hbits, unitsOf_fields (by omega), if_neg (by omega), Nat.sub_add_cancel (by omega),
      ← Nat.shiftLeft_add, show 52 - n.log2 + (n.log2 + 1023 - 1) = 1074 by omega]
    exact ⟨by omega, rfl⟩

/-! ## Images -/

theorem toNat_bits (v : Binary64) :
    v.bits.toNat = v.magnitude + if v.negative then 1 <<< 63 else 0 := by
  have hlt := v.bits.toNat_lt
  simp only [magnitude, negative, decide_eq_true_eq, Nat.one_shiftLeft]
  split <;> omega

theorem isImage_ofInt {z : Int} (hz : z.natAbs < 2 ^ 53) : (ofInt z).IsImage z := by
  obtain ⟨hfinite, hunits⟩ := magnitudeBits_exact hz
  have hbits : (ofInt z).bits.toNat = magnitudeBits z.natAbs + if z < 0 then 2 ^ 63 else 0 := by
    simp only [ofInt, ofMagnitude, decide_eq_true_eq, UInt64.toNat_ofNat', Nat.shiftLeft_eq] at hfinite ⊢
    split <;> omega
  have hmagnitude : (ofInt z).magnitude = magnitudeBits z.natAbs := by
    rw [magnitude, hbits]
    simp only [Nat.shiftLeft_eq] at hfinite ⊢
    split <;> omega
  refine ⟨hmagnitude ▸ hfinite, hmagnitude ▸ hunits, ?_⟩
  simp only [negative, hbits, Nat.shiftLeft_eq, decide_eq_decide] at hfinite ⊢
  split <;> omega

/-- An integer has one image. -/
theorem IsImage.unique {v w : Binary64} {z : Int} (hv : v.IsImage z) (hw : w.IsImage z) : v = w := by
  have hmagnitude : v.magnitude = w.magnitude := by
    rcases Nat.lt_trichotomy v.magnitude w.magnitude with h | h | h
    · exact absurd (unitsOf_lt h) (by rw [hv.units, hw.units]; exact Nat.lt_irrefl _)
    · exact h
    · exact absurd (unitsOf_lt h) (by rw [hv.units, hw.units]; exact Nat.lt_irrefl _)
  have hbits : v.bits = w.bits := UInt64.toNat_inj.mp (by
    rw [toNat_bits, toNat_bits, hmagnitude, hv.sign, hw.sign])
  cases v
  cases w
  exact congrArg _ hbits

/-- The signed 32-bit integers are found from their images. -/
theorem toInt32?_eq_some {v : Binary64} {z : Int} :
    v.toInt32? = some z ↔ Bytes.fits32 z ∧ v.IsImage z := by
  simp only [Bytes.fits32, Bool.and_eq_true, decide_eq_true_eq]
  constructor
  · intro h
    obtain ⟨hfound, hz⟩ := Option.ite_none_right_eq_some.mp h
    rw [Option.some.inj hz] at hfound
    obtain ⟨hlow, hhigh, rfl⟩ := hfound
    exact ⟨⟨hlow, hhigh⟩, isImage_ofInt (by omega)⟩
  · rintro ⟨hfits, himage⟩
    have hwhole : v.truncatedMagnitude = z.natAbs := by
      rw [truncatedMagnitude_eq, himage.units, Nat.shiftLeft_shiftRight]
    have hcandidate : (if 1 <<< 63 ≤ v.bits.toNat then -(v.truncatedMagnitude : Int)
        else v.truncatedMagnitude) = z := by
      have hsign : 1 <<< 63 ≤ v.bits.toNat ↔ z < 0 := decide_eq_decide.mp himage.sign
      rw [hwhole]
      split <;> omega
    simp only [toInt32?, hcandidate]
    rw [if_pos ⟨hfits.1, hfits.2, (isImage_ofInt (by omega)).unique himage⟩]

end ScriptCompiler.Binary64
