import Mathlib

namespace WinePpc64.Lib

open BitVec

abbrev Mem := BitVec 64 → BitVec 8

def Mem.read (m : Mem) (a : BitVec 64) : (n : ℕ) → BitVec (8 * n)
  | 0 => 0#0
  | n + 1 => m.read (a + 1) n ++ m a

def Mem.write (m : Mem) (a : BitVec 64) (n : ℕ) (v : BitVec (8 * n)) : Mem := fun x =>
  if (x - a).toNat < n then (v >>> (8 * (x - a).toNat)).setWidth 8 else m x

def Apart (a : BitVec 64) (n : ℕ) (b : BitVec 64) (k : ℕ) : Prop :=
  ∀ i < n, ∀ j < k, a + BitVec.ofNat 64 i ≠ b + BitVec.ofNat 64 j

namespace Mem

variable {m m' : Mem} {a b x : BitVec 64} {n k i : ℕ} {v : BitVec (8 * k)}

theorem add_ofNat_succ (a : BitVec 64) (i : ℕ) : a + 1 + BitVec.ofNat 64 i = a + BitVec.ofNat 64 (i + 1) := by
  rw [ofNat_add, BitVec.add_assoc, BitVec.add_comm 1]
  rfl

theorem getLsbD_read (m : Mem) (a : BitVec 64) (hi : i < 8 * n) :
    (m.read a n).getLsbD i = (m (a + BitVec.ofNat 64 (i / 8))).getLsbD (i % 8) := by
  induction n generalizing a i with
  | zero => omega
  | succ n ih =>
    rw [read, getLsbD_append]
    by_cases h8 : i < 8
    · have hdiv : i / 8 = 0 := by omega
      have hmod : i % 8 = i := by omega
      simp [h8, hdiv, hmod]
    · have hdiv : (i - 8) / 8 + 1 = i / 8 := by omega
      have hmod : (i - 8) % 8 = i % 8 := by omega
      rw [if_neg h8, ih (a + 1) (by omega), add_ofNat_succ, hdiv, hmod]

theorem read_congr (h : ∀ i < n, m (a + BitVec.ofNat 64 i) = m' (b + BitVec.ofNat 64 i)) :
    m.read a n = m'.read b n := by
  apply eq_of_getLsbD_eq
  intro i hi
  rw [getLsbD_read m a hi, getLsbD_read m' b hi, h (i / 8) (by omega)]

theorem read_setWidth (h : n ≤ k) : (m.read a k).setWidth (8 * n) = m.read a n := by
  apply eq_of_getLsbD_eq
  intro i hi
  rw [getLsbD_setWidth, decide_eq_true hi, Bool.true_and, getLsbD_read m a (by omega),
    getLsbD_read m a hi]

theorem ofNat_add_sub (a : BitVec 64) (hi : i < 2 ^ 64) : (a + BitVec.ofNat 64 i - a).toNat = i := by
  rw [BitVec.add_comm, BitVec.add_sub_cancel, toNat_ofNat, Nat.mod_eq_of_lt hi]

theorem read_write_same {v : BitVec (8 * n)} (hn : n ≤ 2 ^ 64) : (m.write a n v).read a n = v := by
  apply eq_of_getLsbD_eq
  intro i hi
  have hoff := ofNat_add_sub a (i := i / 8) (by omega)
  rw [getLsbD_read _ a hi, write, hoff, if_pos (by omega), getLsbD_setWidth,
    decide_eq_true (Nat.mod_lt i (by decide)), Bool.true_and, getLsbD_ushiftRight,
    Nat.div_add_mod]

theorem write_apart (h : ∀ j < k, x ≠ b + BitVec.ofNat 64 j) : m.write b k v x = m x := by
  rw [write, if_neg]
  intro hlt
  apply h _ hlt
  rw [ofNat_toNat, setWidth_eq, BitVec.add_comm, BitVec.sub_add_cancel]

theorem read_write_apart (h : Apart a n b k) : (m.write b k v).read a n = m.read a n :=
  read_congr fun i hi => write_apart (h i hi)

def offset (a x : BitVec 64) : ℕ := (x - a).toNat

theorem offset_add (hi : i < 2 ^ 64) : offset a (a + BitVec.ofNat 64 i) = i :=
  ofNat_add_sub a hi

theorem write_offset_ne (v : BitVec (8 * n)) (hk : k + n ≤ 2 ^ 64)
    (h : offset a x < k ∨ k + n ≤ offset a x) :
    m.write (a + BitVec.ofNat 64 k) n v x = m x := by
  apply write_apart
  intro j hj heq
  rw [BitVec.add_assoc, ← ofNat_add] at heq
  rw [heq, offset_add (by omega)] at h
  omega

end Mem

namespace Apart

variable {a b : BitVec 64} {n k : ℕ}

variable (h : Apart a n b k)
include h

theorem symm : Apart b k a n := fun j hj i hi heq => h i hi j hj heq.symm

theorem sub {i n' j k' : ℕ} (hi : i + n' ≤ n) (hj : j + k' ≤ k) :
    Apart (a + BitVec.ofNat 64 i) n' (b + BitVec.ofNat 64 j) k' := by
  intro p hp q hq heq
  rw [BitVec.add_assoc, BitVec.add_assoc, ← ofNat_add, ← ofNat_add] at heq
  exact h (i + p) (by omega) (j + q) (by omega) heq

theorem sub_left {i n' : ℕ} (hi : i + n' ≤ n) : Apart (a + BitVec.ofNat 64 i) n' b k := by
  have := h.sub hi (show 0 + k ≤ k by omega)
  simpa using this

theorem sub_right {j k' : ℕ} (hj : j + k' ≤ k) :
    Apart a n (b + BitVec.ofNat 64 j) k' := (h.symm.sub_left hj).symm

omit h

theorem of_offsets (a : BitVec 64) {i j : ℕ} (h : i + n ≤ j ∨ j + k ≤ i) (hi : i + n ≤ 2 ^ 64)
    (hj : j + k ≤ 2 ^ 64) : Apart (a + BitVec.ofNat 64 i) n (a + BitVec.ofNat 64 j) k := by
  intro p hp q hq heq
  rw [BitVec.add_assoc, BitVec.add_assoc, ← ofNat_add, ← ofNat_add,
    BitVec.add_right_inj] at heq
  have := congrArg BitVec.toNat heq
  rw [toNat_ofNat, toNat_ofNat, Nat.mod_eq_of_lt (by omega),
    Nat.mod_eq_of_lt (by omega)] at this
  omega

end Apart

end WinePpc64.Lib
