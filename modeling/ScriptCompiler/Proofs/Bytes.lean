import ScriptCompiler.Bytes
import Mathlib.Data.List.Basic
import Mathlib.Tactic.SplitIfs

/-!
# Immediates in byte strings

What the writing operations leave at each position, and which value is read
where the bytes of an immediate stand. `Holds` says that a list of bytes stands
in a byte string from a position on; every reading lemma goes through it.
-/

namespace ScriptCompiler

/-- An element that is found stands inside the list. -/
theorem lt_of_getElem? {α : Type} {l : List α} {k : Nat} {x : α} (h : l[k]? = some x) :
    k < l.length := (List.getElem?_eq_some_iff.mp h).1

namespace Bytes

variable {b : Bytes} {i pos k n : Nat} {bytes : List UInt8} {z : Int}

/-- A list of bytes stands in a byte string from a position on. -/
def Holds (b : Bytes) (pos : Nat) (bytes : List UInt8) : Prop :=
  ∀ k < bytes.length, b[pos + k]? = bytes[k]?

/-- Nothing is demanded by the empty list. -/
theorem holds_nil (b : Bytes) (pos : Nat) : Holds b pos [] := by
  intro k h
  simp at h

/-- One byte and the bytes behind it. -/
theorem holds_cons {byte : UInt8} :
    Holds b pos (byte :: bytes) ↔ b[pos]? = some byte ∧ Holds b (pos + 1) bytes := by
  constructor
  · intro h
    refine ⟨?_, ?_⟩
    · simpa using h 0 (by simp)
    · intro k hk
      have hs := h (k + 1) (by simpa using hk)
      rw [show pos + 1 + k = pos + (k + 1) by omega]
      simpa using hs
  · rintro ⟨h0, hs⟩ k hk
    cases k with
    | zero => simpa using h0
    | succ k =>
      have hr := hs k (by simpa using hk)
      rw [show pos + (k + 1) = pos + 1 + k by omega]
      simpa using hr

/-- Two lists one behind the other. -/
theorem holds_append {left right : List UInt8} :
    Holds b pos (left ++ right) ↔ Holds b pos left ∧ Holds b (pos + left.length) right := by
  induction left generalizing pos with
  | nil => simp [holds_nil]
  | cons byte left ih =>
    rw [List.cons_append, holds_cons, holds_cons, ih, List.length_cons, and_assoc,
      show pos + 1 + left.length = pos + (left.length + 1) by omega]

/-- Bytes that stand somewhere lie inside. -/
theorem Holds.le_size (h : Holds b pos bytes) (hne : bytes ≠ []) : pos + bytes.length ≤ b.size := by
  have hlen := List.length_pos_of_ne_nil hne
  have hl := h (bytes.length - 1) (by omega)
  rw [List.getElem?_eq_getElem (by omega)] at hl
  obtain ⟨hb, -⟩ := Array.getElem?_eq_some_iff.mp hl
  omega

/-- A byte string whose view is cut in three holds the middle part behind the first. -/
theorem holds_of_toList {pre post : List UInt8} (h : b.toList = pre ++ bytes ++ post) :
    Holds b pre.length bytes := by
  intro k hk
  rw [← Array.getElem?_toList, h, List.append_assoc, List.getElem?_append_right (by omega),
    Nat.add_sub_cancel_left, List.getElem?_append_left hk]

/-! ## Writing -/

/-- The two bytes written. -/
theorem holds_setU16 (n : Nat) (h : i + 2 ≤ b.size) : Holds (setU16 b i n) i (le16 n).toList := by
  have h1 : i + 1 < b.size := by omega
  have h0 : i < b.size := by omega
  simp [setU16, le16, holds_cons, holds_nil, h0, h1]

/-- Writing two bytes leaves the others alone. -/
theorem getElem?_setU16_of_ne (n : Nat) (h : k < i ∨ i + 2 ≤ k) : (setU16 b i n)[k]? = b[k]? := by
  rw [setU16, Array.getElem?_setIfInBounds_ne (by omega), Array.getElem?_setIfInBounds_ne (by omega)]

/-- Writing four bytes leaves the others alone. -/
theorem getElem?_setU32_of_ne (n : Nat) (h : k < i ∨ i + 4 ≤ k) : (setU32 b i n)[k]? = b[k]? := by
  rw [setU32, getElem?_setU16_of_ne _ (by omega), getElem?_setU16_of_ne _ (by omega)]

/-- Bytes that stand apart from a change are still there. -/
theorem Holds.of_eq {b' : Bytes} (h : Holds b pos bytes)
    (heq : ∀ k, pos ≤ k → k < pos + bytes.length → b'[k]? = b[k]?) : Holds b' pos bytes := by
  intro k hk
  rw [heq (pos + k) (by omega) (by omega)]
  exact h k hk

/-- The four bytes written. -/
theorem holds_setU32 (n : Nat) (h : i + 4 ≤ b.size) : Holds (setU32 b i n) i (le32 n).toList := by
  have hlow : Holds (setU16 b i n) i (le16 n).toList := holds_setU16 n (by omega)
  have hhigh : Holds (setU16 (setU16 b i n) (i + 2) (n / 65536)) (i + 2)
      (le16 (n / 65536)).toList := holds_setU16 _ (by simp; omega)
  have hkept : Holds (setU16 (setU16 b i n) (i + 2) (n / 65536)) i (le16 n).toList := by
    refine hlow.of_eq fun k hk hk' => getElem?_setU16_of_ne _ ?_
    simp [le16] at hk'
    omega
  have hsplit : (le32 n).toList = (le16 n).toList ++ (le16 (n / 65536)).toList := by
    simp [le32, le16, Nat.div_div_eq_div_mul]
  rw [hsplit, holds_append]
  exact ⟨hkept, hhigh⟩

/-- What stands where after bytes have been copied to a higher position. -/
theorem getElem?_copyUp {src dst count : Nat} (hle : src ≤ dst) (hfit : dst + count ≤ b.size)
    (k : Nat) :
    (copyUp b src dst count)[k]? =
      if dst ≤ k ∧ k < dst + count then b[src + (k - dst)]? else b[k]? := by
  induction count generalizing b with
  | zero =>
    rw [if_neg (by omega)]
    rfl
  | succ count ih =>
    have hs : src + count < b.size := by omega
    have hget : b[src + count]? = some b[src + count] := Array.getElem?_eq_getElem hs
    simp only [copyUp, hget]
    rw [ih (by simp; omega)]
    split_ifs with h1 h2 h2
    · rw [Array.getElem?_setIfInBounds_ne (by omega)]
    · omega
    · have hk : k = dst + count := by omega
      subst hk
      rw [Array.getElem?_setIfInBounds_self_of_lt (by omega), Nat.add_sub_cancel_left, hget]
    · rw [Array.getElem?_setIfInBounds_ne (by omega)]

/-! ## Reading -/

/-- Where the two bytes of a number stand, the number is read modulo 2^16. -/
theorem Holds.u16? (h : Holds b i (le16 n).toList) : Bytes.u16? b i = some (n % 65536) := by
  simp only [le16, holds_cons] at h
  obtain ⟨h0, h1, -⟩ := h
  simp only [Bytes.u16?, h0, h1, Option.bind_eq_bind, Option.bind_some, Option.pure_def,
    UInt8.toNat_ofNat']
  congr 1
  omega

/-- An integer that fits is read back from its two bytes. -/
theorem Holds.i16? (h : Holds b i (le16 (image16 z)).toList) (hfit : fits16 z) :
    Bytes.i16? b i = some z := by
  simp only [fits16, Bool.and_eq_true, decide_eq_true_eq] at hfit
  obtain ⟨n, hn⟩ : ∃ n, n = image16 z % 65536 := ⟨_, rfl⟩
  have hread : Bytes.u16? b i = some n := by rw [h.u16?, hn]
  have hbmod : Int.bmod (n : Int) 65536 = z := by
    rw [image16] at hn
    rw [Int.bmod_def]
    omega
  rw [Bytes.i16?, hread]
  exact congrArg some hbmod

/-- An integer that fits is read back from its four bytes. -/
theorem Holds.i32? (h : Holds b i (le32 (image32 z)).toList) (hfit : fits32 z) :
    Bytes.i32? b i = some z := by
  simp only [fits32, Bool.and_eq_true, decide_eq_true_eq] at hfit
  have hsplit : (le32 (image32 z)).toList =
      (le16 (image32 z)).toList ++ (le16 (image32 z / 65536)).toList := by
    simp [le32, le16, Nat.div_div_eq_div_mul]
  rw [hsplit, holds_append] at h
  obtain ⟨lo, hlo⟩ : ∃ lo, lo = image32 z % 65536 := ⟨_, rfl⟩
  obtain ⟨hi, hhi⟩ : ∃ hi, hi = image32 z / 65536 % 65536 := ⟨_, rfl⟩
  have hlow : Bytes.u16? b i = some lo := by rw [h.1.u16?, hlo]
  have hhigh : Bytes.u16? b (i + 2) = some hi := by
    have hread := h.2.u16?
    rwa [← hhi] at hread
  have hbmod : Int.bmod (lo + 65536 * hi : Nat) 4294967296 = z := by
    rw [image32] at hlo hhi
    rw [Int.bmod_def]
    omega
  rw [Bytes.i32?, hlow, hhigh]
  exact congrArg some hbmod

/-- The bytes of a number that is read. -/
theorem holds_of_u16? (h : Bytes.u16? b i = some n) : n < 65536 ∧ Holds b i (le16 n).toList := by
  simp only [Bytes.u16?, Option.bind_eq_bind, Option.bind_eq_some_iff, Option.pure_def,
    Option.some.injEq] at h
  obtain ⟨lo, hlo, hi, hhi, rfl⟩ := h
  have hlt := lo.toNat_lt
  have hlt' := hi.toNat_lt
  have hlow : UInt8.ofNat (lo.toNat + 256 * hi.toNat) = lo := by
    apply UInt8.toNat_inj.mp
    rw [UInt8.toNat_ofNat']
    omega
  have hhigh : UInt8.ofNat ((lo.toNat + 256 * hi.toNat) / 256) = hi := by
    apply UInt8.toNat_inj.mp
    rw [UInt8.toNat_ofNat']
    omega
  refine ⟨by omega, ?_⟩
  simp only [le16, hlow, hhigh]
  exact holds_cons.mpr ⟨hlo, holds_cons.mpr ⟨hhi, holds_nil _ _⟩⟩

/-- The bytes of an integer that is read from two bytes. -/
theorem holds_of_i16? (h : Bytes.i16? b i = some z) :
    fits16 z ∧ Holds b i (le16 (image16 z)).toList := by
  simp only [Bytes.i16?, Option.map_eq_some_iff, Option.bind_eq_bind, Option.bind_eq_some_iff,
    Option.pure_def, Option.some.injEq] at h
  obtain ⟨_, ⟨n, hn, rfl⟩, rfl⟩ := h
  obtain ⟨hlt, hholds⟩ := holds_of_u16? hn
  have himage : image16 (Int.bmod n 65536) = n := by
    rw [image16, Int.bmod_def]
    omega
  refine ⟨?_, by rwa [himage]⟩
  simp only [fits16, Bool.and_eq_true, decide_eq_true_eq]
  rw [Int.bmod_def]
  omega

/-- The bytes of an integer that is read from four bytes. -/
theorem holds_of_i32? (h : Bytes.i32? b i = some z) :
    fits32 z ∧ Holds b i (le32 (image32 z)).toList := by
  simp only [Bytes.i32?, Option.bind_eq_bind, Option.bind_eq_some_iff, Option.pure_def,
    Option.some.injEq] at h
  obtain ⟨lo, hlo, hi, hhi, rfl⟩ := h
  obtain ⟨hlt, hlow⟩ := holds_of_u16? hlo
  obtain ⟨hlt', hhigh⟩ := holds_of_u16? hhi
  have himage : image32 (Int.bmod (lo + 65536 * hi : Nat) 4294967296) = lo + 65536 * hi := by
    rw [image32, Int.bmod_def]
    omega
  have hsplit : (le32 (lo + 65536 * hi)).toList = (le16 lo).toList ++ (le16 hi).toList := by
    have h0 : UInt8.ofNat (lo + 65536 * hi) = UInt8.ofNat lo := by
      apply UInt8.toNat_inj.mp
      rw [UInt8.toNat_ofNat', UInt8.toNat_ofNat']
      omega
    have h1 : UInt8.ofNat ((lo + 65536 * hi) / 256) = UInt8.ofNat (lo / 256) := by
      apply UInt8.toNat_inj.mp
      rw [UInt8.toNat_ofNat', UInt8.toNat_ofNat']
      omega
    have h2 : (lo + 65536 * hi) / 65536 = hi := by omega
    have h3 : (lo + 65536 * hi) / 16777216 = hi / 256 := by omega
    simp [le32, le16, h0, h1, h2, h3]
  refine ⟨?_, ?_⟩
  · simp only [fits32, Bool.and_eq_true, decide_eq_true_eq]
    rw [Int.bmod_def]
    omega
  · rw [himage, hsplit]
    exact holds_append.mpr ⟨hlow, hhigh⟩

/-! ## Jump offsets of either width -/

/-- The bytes of a jump offset, four of them in a wide instruction and two in a narrow one. -/
def offsetBytes (wide : Bool) (z : Int) : List UInt8 :=
  if wide then (le32 (image32 z)).toList else (le16 (image16 z)).toList

/-- Number of bytes of a jump offset. -/
def offsetWidth (wide : Bool) : Nat := if wide then 4 else 2

/-- Whether a jump offset fits its field. -/
def offsetFits (wide : Bool) (z : Int) : Bool := if wide then fits32 z else fits16 z

@[simp] theorem length_offsetBytes (wide : Bool) (z : Int) :
    (offsetBytes wide z).length = offsetWidth wide := by
  cases wide <;> rfl

end Bytes

end ScriptCompiler
