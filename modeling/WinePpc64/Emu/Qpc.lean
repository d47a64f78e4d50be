import Mathlib

namespace WinePpc64.Emu.Qpc

abbrev Word := BitVec 64

structure Session where
  multiplier : Word
  bias : Word
  tbFreq : Word

def mulhi (a b : Word) : Word := ((a.setWidth 128 * b.setWidth 128) >>> 64).setWidth 64

def emuQpcNative (s : Session) (tb : Word) : Word := mulhi tb s.multiplier + s.bias

structure Guest where
  multiplier : Word
  bias : Word
  enabled : BitVec 8
  shift : BitVec 8
  tscSample : Word

/-- The `qpc` body of `emit_fast_body` where the counter reads `tsc`: the value it stores if the block is armed, or
the block with the sample if the call goes on to the trap. -/
def qpc (g : Guest) (tsc : Word) : Word ⊕ Guest :=
  let rax := tsc.setWidth 32
  let rdx := (tsc >>> 32).setWidth 32
  let rax := rdx.setWidth 64 <<< 32 ||| rax.setWidth 64
  if g.enabled = 1 then
    let rdx := mulhi rax g.multiplier
    -- `shrq` takes its count modulo 64
    .inl (rdx >>> (g.shift.toNat % 64) + g.bias)
  else .inr { g with tscSample := rax }

def maxShift : ℕ := 16

def near (sample tb tbFreq : Word) (s : ℕ) : Bool :=
  let guess := sample >>> s
  decide ((if guess > tb then guess - tb else tb - guess) < tbFreq * 2)

/-- The loop of `qpc_arm_module` over the scales, `none` if none of them matches. -/
def armShift (sample tb tbFreq : Word) : Option ℕ := (List.range (maxShift + 1)).find? (near sample tb tbFreq)

theorem toNat_mulhi {a b : Word} : (mulhi a b).toNat = a.toNat * b.toNat / 2 ^ 64 := by
  have hprod : a.toNat * b.toNat < 2 ^ 128 := by nlinarith [a.isLt, b.isLt]
  have hwide (x : Word) : x.toNat % 2 ^ 128 = x.toNat := Nat.mod_eq_of_lt (by have := x.isLt; omega)
  simp only [mulhi, BitVec.toNat_setWidth, BitVec.toNat_ushiftRight, BitVec.toNat_mul, hwide]
  rw [Nat.mod_eq_of_lt hprod, Nat.shiftRight_eq_div_pow]
  exact Nat.mod_eq_of_lt (Nat.div_lt_of_lt_mul (by omega))

theorem join_halves {tsc : Word} :
    ((tsc >>> 32).setWidth 32).setWidth 64 <<< 32 ||| (tsc.setWidth 32).setWidth 64 = tsc := by
  apply BitVec.eq_of_getLsbD_eq
  intro i hi
  by_cases h : i < 32
  · simp [h, hi]
  · have hlow : i - 32 < 32 := by omega
    simp [h, hi, hlow, show 32 + (i - 32) = i by omega, show i - 32 < 64 by omega]

theorem shifted_toNat {tb : Word} {k : ℕ} (h : tb.toNat < 2 ^ (64 - k)) : (tb <<< k).toNat = tb.toNat * 2 ^ k := by
  rw [BitVec.toNat_shiftLeft, Nat.shiftLeft_eq]
  by_cases hk : k ≤ 64
  · apply Nat.mod_eq_of_lt
    calc tb.toNat * 2 ^ k < 2 ^ (64 - k) * 2 ^ k := Nat.mul_lt_mul_of_pos_right h (by positivity)
      _ = 2 ^ 64 := by rw [← pow_add, Nat.sub_add_cancel hk]
  · rw [show 64 - k = 0 by omega, pow_zero, Nat.lt_one_iff] at h
    rw [h, zero_mul, Nat.zero_mod]

theorem mulhi_shifted {tb : Word} {k : ℕ} (h : tb.toNat < 2 ^ (64 - k)) {m : Word} :
    mulhi (tb <<< k) m >>> (k % 64) = mulhi tb m := by
  apply BitVec.eq_of_toNat_eq
  rw [BitVec.toNat_ushiftRight, toNat_mulhi, toNat_mulhi, shifted_toNat h, Nat.shiftRight_eq_div_pow]
  by_cases hk : k < 64
  · rw [Nat.mod_eq_of_lt hk, Nat.div_div_eq_div_mul, Nat.mul_right_comm]
    exact Nat.mul_div_mul_right _ _ (by positivity)
  · rw [show 64 - k = 0 by omega, pow_zero, Nat.lt_one_iff] at h
    simp [h]

theorem near_iff {sample tb tbFreq : Word} (hfreq : 6 * tbFreq.toNat ≤ tb.toNat) {s : ℕ} :
    near sample tb tbFreq s = true ↔ sample.toNat / 2 ^ s < tb.toNat + 2 * tbFreq.toNat ∧
      tb.toNat < sample.toNat / 2 ^ s + 2 * tbFreq.toNat := by
  have hguess : (sample >>> s).toNat = sample.toNat / 2 ^ s := by
    rw [BitVec.toNat_ushiftRight, Nat.shiftRight_eq_div_pow]
  have htwo : (tbFreq * 2).toNat = tbFreq.toNat * 2 := by
    exact Nat.mod_eq_of_lt (show tbFreq.toNat * 2 < 2 ^ 64 by omega)
  simp only [near, decide_eq_true_eq]
  split
  next h =>
    rw [gt_iff_lt, BitVec.lt_def] at h
    rw [BitVec.lt_def, BitVec.toNat_sub_of_le h.le]
    omega
  next h =>
    rw [gt_iff_lt, BitVec.lt_def] at h
    rw [BitVec.lt_def, htwo, BitVec.toNat_sub_of_le (by rw [BitVec.le_def]; omega)]
    omega

section Arming

variable {sample t tb tbFreq : Word} {s₀ : ℕ}

theorem near_scaled (hsample : sample.toNat = t.toNat * 2 ^ s₀) (habove : t.toNat < tb.toNat + 2 * tbFreq.toNat)
    (hbelow : tb.toNat < t.toNat + 2 * tbFreq.toNat) (hfreq : 6 * tbFreq.toNat ≤ tb.toNat) (s : ℕ) :
    near sample tb tbFreq s = true ↔ s = s₀ := by
  rw [near_iff hfreq, hsample]
  rcases lt_trichotomy s s₀ with h | rfl | h
  · obtain ⟨k, rfl⟩ := Nat.exists_eq_add_of_lt h
    have hguess : t.toNat * 2 ^ (s + k + 1) / 2 ^ s = 2 * (t.toNat * 2 ^ k) := by
      rw [show t.toNat * 2 ^ (s + k + 1) = 2 * (t.toNat * 2 ^ k) * 2 ^ s by ring]
      exact Nat.mul_div_cancel _ (by positivity)
    have hle : t.toNat ≤ t.toNat * 2 ^ k := Nat.le_mul_of_pos_right _ (by positivity)
    omega
  · rw [Nat.mul_div_cancel _ (by positivity)]
    exact iff_of_true ⟨habove, hbelow⟩ rfl
  · obtain ⟨k, rfl⟩ := Nat.exists_eq_add_of_lt h
    have hguess : t.toNat * 2 ^ s₀ / 2 ^ (s₀ + k + 1) ≤ t.toNat / 2 := by
      rw [show 2 ^ (s₀ + k + 1) = 2 ^ s₀ * 2 ^ (k + 1) by ring, ← Nat.div_div_eq_div_mul,
        Nat.mul_div_cancel _ (by positivity)]
      exact Nat.div_le_div_left (Nat.le_self_pow (by omega) 2) (by omega)
    omega

end Arming

theorem guest_counter_agrees :
    (∀ (s : Session) (g : Guest) (tb : Word), g.enabled = 1 → g.multiplier = s.multiplier → g.bias = s.bias →
      tb.toNat < 2 ^ (64 - g.shift.toNat) → qpc g (tb <<< g.shift.toNat) = .inl (emuQpcNative s tb)) ∧
    (∀ (s : Session) (tb tb' : Word), tb ≤ tb' → (mulhi tb' s.multiplier).toNat + s.bias.toNat < 2 ^ 64 →
      emuQpcNative s tb ≤ emuQpcNative s tb') ∧
    ∀ (s : Session) (sample t tb : Word) (s₀ : ℕ), sample.toNat = t.toNat * 2 ^ s₀ →
      t.toNat < tb.toNat + 2 * s.tbFreq.toNat → tb.toNat < t.toNat + 2 * s.tbFreq.toNat →
      6 * s.tbFreq.toNat ≤ tb.toNat → s₀ ≤ maxShift →
      armShift sample tb s.tbFreq = some s₀ ∧ ∀ k, near sample tb s.tbFreq k = true → k = s₀ := by
  refine ⟨fun s g tb hon hm hb htb => ?_, fun s tb tb' hle hwrap => ?_, ?_⟩
  · unfold qpc
    dsimp only
    rw [if_pos hon, join_halves, mulhi_shifted htb, hm, hb]
    rfl
  · have hprod : (mulhi tb s.multiplier).toNat ≤ (mulhi tb' s.multiplier).toNat := by
      rw [toNat_mulhi, toNat_mulhi]
      exact Nat.div_le_div_right (Nat.mul_le_mul_right _ hle)
    rw [BitVec.le_def, emuQpcNative, emuQpcNative, BitVec.toNat_add, BitVec.toNat_add,
      Nat.mod_eq_of_lt hwrap, Nat.mod_eq_of_lt (by omega)]
    omega
  · intro s sample t tb s₀ hsample habove hbelow hfreq hs
    have hnear := near_scaled hsample habove hbelow hfreq
    refine ⟨?_, fun k hk => (hnear k).mp hk⟩
    rw [armShift, List.find?_range_eq_some]
    refine ⟨(hnear s₀).mpr rfl, List.mem_range.mpr (by omega), fun j hj => ?_⟩
    rw [Bool.not_eq_true', ← Bool.not_eq_true, hnear]
    exact hj.ne

namespace Mhz512

def session : Session := ⟨5 * 2 ^ 56, 0, 512000000⟩

theorem guest_counter_agrees_armed :
    qpc ⟨5 * 2 ^ 56, 0, 1, 1, 0⟩ (1024000000#64 <<< 1) = .inl (emuQpcNative session 1024000000) ∧
    emuQpcNative session 1024000000 ≤ emuQpcNative session 1536000000 ∧
    armShift (5120000000#64 <<< 1) 5120000001 512000000 = some 1 :=
  ⟨guest_counter_agrees.1 session ⟨5 * 2 ^ 56, 0, 1, 1, 0⟩ 1024000000 rfl rfl rfl (by decide),
    guest_counter_agrees.2.1 session _ _ (by decide) (by decide),
    (guest_counter_agrees.2.2 session _ 5120000000 _ 1 rfl (by decide) (by decide) (by decide) (by decide)).1⟩

theorem scale17_not_armed : armShift (5120000000#64 <<< 17) 5120000000 512000000 = none := by
  decide

end Mhz512

end WinePpc64.Emu.Qpc
