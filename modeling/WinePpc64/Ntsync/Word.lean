import Mathlib

namespace WinePpc64.Ntsync

open BitVec Nat

abbrev Word := BitVec 64

def countMask : Word := 0x00000000ffffffff
def waiterOne : Word := 0x0000000100000000
def waiterMask : Word := 0x1fffffff00000000
def fHold : Word := 0x2000000000000000
def fWaitAll : Word := 0x4000000000000000
def fNoTouch : Word := 0xc000000000000000
def fNoRelease : Word := 0xe000000000000000

namespace Word

variable (w : Word) {m : Word} {n k c i : ℕ}

def count : ℕ := (w.extractLsb' 0 32).toNat
def waiters : ℕ := (w.extractLsb' 32 29).toNat
def hold : Bool := w.getLsbD 61
def waitAll : Bool := w.getLsbD 62
def noFastpath : Bool := w.getLsbD 63

def take : Word := w - 1

def takeHold : Word := (w - 1) ||| fHold

def holdDone : Word := w &&& ~~~fHold

def giveBack : Word :=
  (w &&& ~~~(countMask ||| fHold)) ||| BitVec.ofNat 64 ((count w + 1) % 2 ^ 32)

def addCount (n : ℕ) : Word := (w &&& ~~~countMask) ||| BitVec.ofNat 64 (count w + n)

def addWaiter : Word := if w &&& waiterMask = waiterMask then w else w + waiterOne

def delWaiter : Word := if w &&& waiterMask = 0 then w else w - waiterOne

def setWaitAll : Word := w ||| fWaitAll

def clearWaitAll : Word := w &&& ~~~fWaitAll

structure Fields where
  count : ℕ
  waiters : ℕ
  hold : Bool
  waitAll : Bool
  noFastpath : Bool
  deriving DecidableEq

def fields : Fields := ⟨count w, waiters w, hold w, waitAll w, noFastpath w⟩

theorem count_eq : count w = w.toNat % 2 ^ 32 := by
  simp [count, extractLsb'_toNat]

theorem waiters_eq : waiters w = w.toNat / 2 ^ 32 % 2 ^ 29 := by
  simp [waiters, extractLsb'_toNat, shiftRight_eq_div_pow]

theorem getLsbD_eq : w.getLsbD i = decide (w.toNat / 2 ^ i % 2 = 1) := by
  rw [BitVec.getLsbD, testBit_eq_decide_div_mod_eq]

theorem fields_of_toNat {v w : Word} (h : v.toNat = w.toNat + c - k)
    (hlow : w.toNat % 2 ^ 32 + c < 2 ^ 32 + k) (hk : k ≤ w.toNat % 2 ^ 32 + c) :
    fields v = { fields w with count := count w + c - k } := by
  have hdiv : v.toNat / 2 ^ 32 = w.toNat / 2 ^ 32 := by omega
  have hmod : v.toNat % 2 ^ 32 = w.toNat % 2 ^ 32 + c - k := by omega
  have hhigh : ∀ i, 32 ≤ i → v.getLsbD i = w.getLsbD i := by
    intro i hi
    have hsplit : ∀ n : ℕ, n / 2 ^ i = n / 2 ^ 32 / 2 ^ (i - 32) := by
      intro n
      rw [Nat.div_div_eq_div_mul, ← pow_add, Nat.add_sub_cancel' hi]
    rw [getLsbD_eq, getLsbD_eq, hsplit, hsplit w.toNat, hdiv]
  simp only [fields, hold, waitAll, noFastpath, waiters_eq, count_eq, hdiv, hmod,
    hhigh 61 (by decide), hhigh 62 (by decide), hhigh 63 (by decide)]

theorem and_countMask : w &&& countMask = 0 ↔ count w = 0 := by
  have hmask : (w &&& countMask).toNat = count w := by
    exact and_two_pow_sub_one_eq_mod w.toNat 32
  rw [← hmask, toNat_eq]
  rfl

theorem and_waiterMask_toNat : (w &&& waiterMask).toNat = waiters w * 2 ^ 32 := by
  rw [waiters_eq, toNat_and]
  apply eq_of_testBit_eq
  intro i
  have hm : waiterMask.toNat = (2 ^ 29 - 1) * 2 ^ 32 := rfl
  rw [hm, testBit_and, testBit_mul_two_pow, testBit_mul_two_pow, testBit_mod_two_pow,
    testBit_div_two_pow, testBit_two_pow_sub_one]
  by_cases hi : 32 ≤ i
  · simp [hi, Nat.sub_add_cancel hi, Bool.and_comm]
  · simp [hi]

theorem and_waiterMask : w &&& waiterMask = 0 ↔ waiters w = 0 := by
  rw [toNat_eq, and_waiterMask_toNat]
  simp

theorem and_waiterMask_full : w &&& waiterMask = waiterMask ↔ waiters w = 2 ^ 29 - 1 := by
  rw [toNat_eq, and_waiterMask_toNat]
  have hm : waiterMask.toNat = (2 ^ 29 - 1) * 2 ^ 32 := rfl
  rw [hm]
  exact Nat.mul_left_inj (by decide)

theorem and_twoPow_eq_zero (hi : i < 64) : w &&& BitVec.twoPow 64 i = 0 ↔ w.getLsbD i = false := by
  rw [and_twoPow]
  cases h : w.getLsbD i with
  | false => simp
  | true =>
    have hne : BitVec.twoPow 64 i ≠ 0#64 := by
      intro h0
      have hbit : (BitVec.twoPow 64 i).getLsbD i = false := by
        rw [h0]
        exact getLsbD_zero
      simp [hi] at hbit
    simpa using hne

theorem and_fNoTouch : w &&& fNoTouch = 0 ↔ waitAll w = false ∧ noFastpath w = false := by
  have hor : fNoTouch = BitVec.twoPow 64 62 ||| BitVec.twoPow 64 63 := by decide
  rw [hor, BitVec.and_or_distrib_left, waitAll, noFastpath, ← and_twoPow_eq_zero w (by decide),
    ← and_twoPow_eq_zero w (by decide)]
  exact or_eq_zero_iff

theorem and_fNoRelease : w &&& fNoRelease = 0 ↔
    hold w = false ∧ waitAll w = false ∧ noFastpath w = false := by
  have hor : fNoRelease = BitVec.twoPow 64 61 ||| fNoTouch := by decide
  rw [hor, BitVec.and_or_distrib_left, hold, ← and_twoPow_eq_zero w (by decide), ← and_fNoTouch]
  exact or_eq_zero_iff

theorem fields_take (h : count w ≠ 0) : fields (take w) = { fields w with count := count w - 1 } := by
  have hc := h
  rw [count_eq] at hc
  have hnat : (take w).toNat = w.toNat + 0 - 1 := by
    rw [take]
    bv_omega
  exact fields_of_toNat hnat (by omega) (by omega)

theorem fields_or (h0 : m.extractLsb' 0 32 = 0) (h1 : m.extractLsb' 32 29 = 0) :
    fields (w ||| m) = { fields w with
      hold := hold w || hold m
      waitAll := waitAll w || waitAll m
      noFastpath := noFastpath w || noFastpath m } := by
  simp only [fields, count, waiters, hold, waitAll, noFastpath, extractLsb'_or, h0, h1,
    getLsbD_or]
  rw [show (0 : BitVec 32) = 0#32 from rfl, show (0 : BitVec 29) = 0#29 from rfl, BitVec.or_zero,
    BitVec.or_zero]

theorem fields_and (h0 : m.extractLsb' 0 32 = BitVec.allOnes 32)
    (h1 : m.extractLsb' 32 29 = BitVec.allOnes 29) :
    fields (w &&& m) = { fields w with
      hold := hold w && hold m
      waitAll := waitAll w && waitAll m
      noFastpath := noFastpath w && noFastpath m } := by
  simp only [fields, count, waiters, hold, waitAll, noFastpath, extractLsb'_and, h0, h1,
    getLsbD_and, and_allOnes]

theorem fields_takeHold (h : count w ≠ 0) :
    fields (takeHold w) = { fields w with count := count w - 1, hold := true } := by
  have htake := fields_take w h
  rw [take] at htake
  simp only [fields, Fields.mk.injEq] at htake
  obtain ⟨hc, hw, -, ha, hn⟩ := htake
  rw [takeHold, fields_or (w - 1) (by decide) (by decide)]
  simp only [fields, hc, hw, ha, hn, show hold fHold = true from rfl, show waitAll fHold = false from rfl,
    show noFastpath fHold = false from rfl, Bool.or_true, Bool.or_false]

theorem fields_holdDone : fields (holdDone w) = { fields w with hold := false } := by
  rw [holdDone, fields_and w (by decide) (by decide)]
  simp only [fields, show hold (~~~fHold) = false from rfl, show waitAll (~~~fHold) = true from rfl,
    show noFastpath (~~~fHold) = true from rfl, Bool.and_true, Bool.and_false]

theorem fields_setWaitAll : fields (setWaitAll w) = { fields w with waitAll := true } := by
  rw [setWaitAll, fields_or w (by decide) (by decide)]
  simp only [fields, show hold fWaitAll = false from rfl, show waitAll fWaitAll = true from rfl,
    show noFastpath fWaitAll = false from rfl, Bool.or_true, Bool.or_false]

theorem fields_clearWaitAll : fields (clearWaitAll w) = { fields w with waitAll := false } := by
  rw [clearWaitAll, fields_and w (by decide) (by decide)]
  simp only [fields, show hold (~~~fWaitAll) = true from rfl, show waitAll (~~~fWaitAll) = false from rfl,
    show noFastpath (~~~fWaitAll) = true from rfl, Bool.and_true, Bool.and_false]

theorem fields_or_count (hn : n < 2 ^ 32) (h0 : m.extractLsb' 0 32 = 0)
    (h1 : m.extractLsb' 32 29 = BitVec.allOnes 29) :
    fields ((w &&& m) ||| BitVec.ofNat 64 n) = { fields w with
      count := n
      hold := hold w && hold m
      waitAll := waitAll w && waitAll m
      noFastpath := noFastpath w && noFastpath m } := by
  have hlow : (BitVec.ofNat 64 n).extractLsb' 0 32 = BitVec.ofNat 32 n := by
    apply eq_of_toNat_eq
    simp only [extractLsb'_toNat, toNat_ofNat, shiftRight_zero]
    omega
  have hmid : (BitVec.ofNat 64 n).extractLsb' 32 29 = 0#29 := by
    apply eq_of_toNat_eq
    simp only [extractLsb'_toNat, toNat_ofNat, shiftRight_eq_div_pow]
    omega
  have hbit (i : ℕ) (hi : 32 ≤ i) : (BitVec.ofNat 64 n).getLsbD i = false := by
    rw [getLsbD_eq, toNat_ofNat]
    have hpow : 2 ^ 32 ≤ 2 ^ i := Nat.pow_le_pow_right (by decide) hi
    rw [div_eq_of_lt (by omega)]
    decide
  simp only [fields, count, waiters, hold, waitAll, noFastpath, extractLsb'_or,
    extractLsb'_and, h0, h1, hlow, hmid, getLsbD_or, getLsbD_and,
    hbit 61 (by decide), hbit 62 (by decide), hbit 63 (by decide), Bool.or_false, and_allOnes,
    BitVec.or_zero]
  have hcount : (BitVec.extractLsb' 0 32 w &&& 0 ||| BitVec.ofNat 32 n).toNat = n := by
    rw [show (0 : BitVec 32) = 0#32 from rfl, BitVec.and_zero, BitVec.zero_or, BitVec.toNat_ofNat]
    omega
  rw [hcount]

theorem fields_addCount (h : count w + n < 2 ^ 32) :
    fields (addCount w n) = { fields w with count := count w + n } := by
  rw [addCount, fields_or_count w h (by decide) (by decide)]
  simp only [fields, show hold (~~~countMask) = true from rfl, show waitAll (~~~countMask) = true from rfl,
    show noFastpath (~~~countMask) = true from rfl, Bool.and_true]

theorem fields_giveBack (h : count w + 1 < 2 ^ 32) :
    fields (giveBack w) = { fields w with count := count w + 1, hold := false } := by
  rw [giveBack, mod_eq_of_lt h, fields_or_count w h (by decide) (by decide)]
  simp only [fields, show hold (~~~(countMask ||| fHold)) = false from rfl,
    show waitAll (~~~(countMask ||| fHold)) = true from rfl,
    show noFastpath (~~~(countMask ||| fHold)) = true from rfl, Bool.and_true, Bool.and_false]

theorem fields_of_waiters {v w : Word} (hk : k < 2 ^ 29)
    (h : v.toNat + waiters w * 2 ^ 32 = w.toNat + k * 2 ^ 32) :
    fields v = { fields w with waiters := k } := by
  have hw := waiters_eq w
  have hmod : v.toNat % 2 ^ 32 = w.toNat % 2 ^ 32 := by omega
  have hmid : v.toNat / 2 ^ 32 % 2 ^ 29 = k := by omega
  have hhigh : ∀ i, 61 ≤ i → v.getLsbD i = w.getLsbD i := by
    intro i hi
    have hsplit : ∀ n : ℕ, n / 2 ^ i = n / 2 ^ 61 / 2 ^ (i - 61) := by
      intro n
      rw [Nat.div_div_eq_div_mul, ← pow_add, Nat.add_sub_cancel' hi]
    have hdiv : v.toNat / 2 ^ 61 = w.toNat / 2 ^ 61 := by omega
    rw [getLsbD_eq, getLsbD_eq, hsplit, hsplit w.toNat, hdiv]
  simp only [fields, hold, waitAll, noFastpath, count_eq, hmod, waiters_eq v, hmid,
    hhigh 61 (by decide), hhigh 62 (by decide), hhigh 63 (by decide)]

theorem fields_addWaiter (h : waiters w + 1 < 2 ^ 29) :
    fields (addWaiter w) = { fields w with waiters := waiters w + 1 } := by
  have hfull : ¬ w &&& waiterMask = waiterMask := by
    rw [and_waiterMask_full]
    omega
  rw [addWaiter, if_neg hfull]
  apply fields_of_waiters h
  have hw := waiters_eq w
  have hnat : (w + waiterOne).toNat = w.toNat + 2 ^ 32 := by
    rw [toNat_add, show waiterOne.toNat = 2 ^ 32 from rfl]
    omega
  omega

theorem fields_delWaiter (h : waiters w ≠ 0) :
    fields (delWaiter w) = { fields w with waiters := waiters w - 1 } := by
  rw [delWaiter, if_neg (mt (and_waiterMask w).mp h)]
  have hw := waiters_eq w
  apply fields_of_waiters (by omega)
  have hnat : (w - waiterOne).toNat = w.toNat - 2 ^ 32 := by
    rw [toNat_sub, show waiterOne.toNat = 2 ^ 32 from rfl]
    omega
  omega

end Word

end WinePpc64.Ntsync
