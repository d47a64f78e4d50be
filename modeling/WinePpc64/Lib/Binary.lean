import Mathlib

namespace WinePpc64.Lib

open Nat

structure BinaryFormat where
  exponent : ℕ
  fraction : ℕ

def binary32 : BinaryFormat := ⟨8, 23⟩
def binary64 : BinaryFormat := ⟨11, 52⟩

inductive FloatValue
  | finite (negative : Bool) (magnitude : ℚ)
  | infinite (negative : Bool)
  | nan

namespace BinaryFormat

variable (f : BinaryFormat)

def bias : ℤ := 2 ^ (f.exponent - 1) - 1

def decode (negative : Bool) (e m : ℕ) : FloatValue :=
  if e = 2 ^ f.exponent - 1 then if m = 0 then .infinite negative else .nan
  else if e = 0 then .finite negative (m * 2 ^ (1 - f.bias - f.fraction))
  else .finite negative ((2 ^ f.fraction + m : ℕ) * 2 ^ (e - f.bias - f.fraction))

def pack (negative : Bool) (e m : ℕ) : ℕ :=
  negative.toNat * 2 ^ (f.exponent + f.fraction) + e * 2 ^ f.fraction + m

def negativeOf (x : ℕ) : Bool := x.testBit (f.exponent + f.fraction)
def exponentOf (x : ℕ) : ℕ := x / 2 ^ f.fraction % 2 ^ f.exponent
def fractionOf (x : ℕ) : ℕ := x % 2 ^ f.fraction

def value (x : ℕ) : FloatValue := f.decode (f.negativeOf x) (f.exponentOf x) (f.fractionOf x)

variable {f} {negative : Bool}

theorem fields_lt {e m : ℕ} (he : e < 2 ^ f.exponent) (hm : m < 2 ^ f.fraction) :
    e * 2 ^ f.fraction + m < 2 ^ (f.exponent + f.fraction) := by
  rw [pow_add]
  nlinarith

theorem value_pack {e m : ℕ} (he : e < 2 ^ f.exponent) (hm : m < 2 ^ f.fraction) :
    f.value (f.pack negative e m) = f.decode negative e m := by
  have hlow := fields_lt he hm
  have hneg : f.negativeOf (f.pack negative e m) = negative := by
    unfold negativeOf pack
    cases negative with
    | false => simpa [Nat.add_assoc] using testBit_lt_two_pow hlow
    | true =>
      rw [Nat.add_assoc, Bool.toNat_true, one_mul, testBit_two_pow_add_eq,
        testBit_lt_two_pow hlow]
      rfl
  have hpack : f.pack negative e m = 2 ^ f.fraction * (negative.toNat * 2 ^ f.exponent + e) + m := by
    unfold pack
    ring
  have hexp : f.exponentOf (f.pack negative e m) = e := by
    rw [exponentOf, hpack, mul_add_div (by positivity), div_eq_of_lt hm, Nat.add_zero,
      Nat.mul_comm, mul_add_mod, mod_eq_of_lt he]
  have hfrac : f.fractionOf (f.pack negative e m) = m := by
    rw [fractionOf, hpack, mul_add_mod, mod_eq_of_lt hm]
  rw [value, hneg, hexp, hfrac]

theorem pack_lt {e m : ℕ} (he : e < 2 ^ f.exponent) (hm : m < 2 ^ f.fraction) :
    f.pack negative e m < 2 ^ (f.exponent + f.fraction + 1) := by
  have hlow := fields_lt he hm
  unfold pack
  cases negative with
  | false => simp only [Bool.toNat_false]; omega
  | true => simp only [Bool.toNat_true]; omega

theorem decode_normal {e m : ℕ} (h1 : e ≠ 2 ^ f.exponent - 1) (h0 : e ≠ 0) :
    f.decode negative e m =
      .finite negative ((2 ^ f.fraction + m : ℕ) * 2 ^ (e - f.bias - f.fraction)) := by
  rw [decode, if_neg h1, if_neg h0]

theorem exponentOf_lt (f : BinaryFormat) (x : ℕ) : f.exponentOf x < 2 ^ f.exponent :=
  mod_lt _ (by positivity)

theorem fractionOf_lt (f : BinaryFormat) (x : ℕ) : f.fractionOf x < 2 ^ f.fraction :=
  mod_lt _ (by positivity)

end BinaryFormat

open BinaryFormat

/-- The fields a binary32 datum has in binary64, where every binary32 value is exact: a subnormal
is normalised, everything else keeps its fraction. -/
def widenFields (e m : ℕ) : ℕ × ℕ :=
  if e = 255 then (2047, m * 2 ^ 29)
  else if e ≠ 0 then (e + 896, m * 2 ^ 29)
  else if m = 0 then (0, 0)
  else (Nat.log2 m + 874, (m - 2 ^ Nat.log2 m) * 2 ^ (52 - Nat.log2 m))

def widen (x : BitVec 32) : BitVec 64 :=
  let e := binary32.exponentOf x.toNat
  let m := binary32.fractionOf x.toNat
  BitVec.ofNat 64 (binary64.pack (binary32.negativeOf x.toNat) (widenFields e m).1 (widenFields e m).2)

theorem log2_lt {m : ℕ} (hm : m < 2 ^ 23) (h0 : m ≠ 0) : Nat.log2 m ≤ 22 := by
  have := (Nat.log2_lt h0).mpr hm
  omega

theorem widenFields_lt {e m : ℕ} (he : e < 2 ^ 8) (hm : m < 2 ^ 23) :
    (widenFields e m).1 < 2 ^ 11 ∧ (widenFields e m).2 < 2 ^ 52 := by
  unfold widenFields
  split_ifs with h1 h2 h3
  · omega
  · omega
  · omega
  · have hlog := log2_lt hm h3
    have hlt : m < 2 ^ Nat.log2 m * 2 := by
      exact lt_log2_self
    refine ⟨by dsimp only; omega, ?_⟩
    calc (m - 2 ^ Nat.log2 m) * 2 ^ (52 - Nat.log2 m)
        < 2 ^ Nat.log2 m * 2 ^ (52 - Nat.log2 m) :=
          Nat.mul_lt_mul_of_pos_right (by omega) (by positivity)
      _ = 2 ^ 52 := by rw [← pow_add]; congr 1; omega

theorem scale_magnitude {k a : ℕ} {z : ℤ} : ((2 ^ k * a : ℕ) : ℚ) * 2 ^ (z - k) = a * 2 ^ z := by
  rw [zpow_sub₀ two_ne_zero, zpow_natCast]
  push_cast
  field_simp

theorem decode_widenFields {e m : ℕ} (he : e < 2 ^ 8) (hm : m < 2 ^ 23) {negative : Bool} :
    binary64.decode negative (widenFields e m).1 (widenFields e m).2 = binary32.decode negative e m := by
  unfold widenFields
  split_ifs with h1 h2 h3
  · simp [decode, binary64, binary32, h1]
  · rw [decode_normal (by norm_num [binary64]; omega) (by omega),
      decode_normal h1 h2]
    have hmag : 2 ^ binary64.fraction + m * 2 ^ 29 = 2 ^ 29 * (2 ^ binary32.fraction + m) := by
      norm_num [binary64, binary32]
      ring
    have hexp : ((e + 896 : ℕ) : ℤ) - binary64.bias - binary64.fraction =
        (e : ℤ) - binary32.bias - binary32.fraction - (29 : ℕ) := by
      norm_num [bias, binary64, binary32]
      ring
    rw [hmag, hexp, scale_magnitude]
  · simp [decode, binary64, binary32, h3, not_not.mp h2]
  · have hlog := log2_lt hm h3
    have hle : 2 ^ Nat.log2 m ≤ m := log2_self_le h3
    rw [decode_normal (by norm_num [binary64]; omega) (by omega), decode,
      if_neg (by norm_num [binary32, not_not.mp h2]), if_pos (not_not.mp h2)]
    have hmag : 2 ^ binary64.fraction + (m - 2 ^ Nat.log2 m) * 2 ^ (52 - Nat.log2 m) =
        2 ^ (52 - Nat.log2 m) * m := by
      have h52 : 2 ^ binary64.fraction = 2 ^ Nat.log2 m * 2 ^ (52 - Nat.log2 m) := by
        rw [← pow_add]
        congr 1
        change 52 = _
        omega
      rw [h52, ← Nat.add_mul, Nat.add_sub_cancel' hle, Nat.mul_comm]
    have hexp : ((Nat.log2 m + 874 : ℕ) : ℤ) - binary64.bias - binary64.fraction =
        1 - binary32.bias - binary32.fraction - (52 - Nat.log2 m : ℕ) := by
      norm_num [bias, binary64, binary32]
      omega
    rw [hmag, hexp, scale_magnitude]

theorem value_widen {x : BitVec 32} : binary64.value (widen x).toNat = binary32.value x.toNat := by
  have he := binary32.exponentOf_lt x.toNat
  have hm := binary32.fractionOf_lt x.toNat
  obtain ⟨he', hm'⟩ := widenFields_lt he hm
  have hlt : binary64.pack (binary32.negativeOf x.toNat) _ _ < 2 ^ 64 := pack_lt he' hm'
  rw [widen, BitVec.toNat_ofNat, mod_eq_of_lt hlt, value_pack he' hm',
    decode_widenFields he hm, value]

end WinePpc64.Lib
