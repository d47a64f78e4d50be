import Mathlib

namespace WinePpc64.Lib

open List

abbrev Octet := BitVec 8

def leBytes : ℕ → ℕ → List Octet
  | 0, _ => []
  | w + 1, n => BitVec.ofNat 8 n :: leBytes w (n / 256)

def leNat : List Octet → ℕ
  | [] => 0
  | b :: l => b.toNat + 256 * leNat l

variable {n w : ℕ}

@[simp]
theorem length_leBytes : (leBytes w n).length = w := by
  induction w generalizing n with
  | zero => rfl
  | succ w ih => simp [leBytes, ih]

theorem leNat_leBytes (h : n < 256 ^ w) : leNat (leBytes w n) = n := by
  induction w generalizing n with
  | zero =>
    have : n = 0 := by simpa using h
    simp [leBytes, leNat, this]
  | succ w ih =>
    have hdiv : n / 256 < 256 ^ w := Nat.div_lt_of_lt_mul (by rwa [pow_succ, mul_comm] at h)
    simp only [leBytes, leNat, ih hdiv, BitVec.toNat_ofNat]
    omega

theorem leBytes_leNat (l : List Octet) : leBytes l.length (leNat l) = l := by
  induction l with
  | nil => rfl
  | cons b l ih =>
    have hhead : BitVec.ofNat 8 (b.toNat + 256 * leNat l) = b := by
      apply BitVec.eq_of_toNat_eq
      rw [BitVec.toNat_ofNat]
      omega
    have htail : (b.toNat + 256 * leNat l) / 256 = leNat l := by omega
    simp only [length_cons, leBytes, leNat, hhead, htail, ih]

theorem leNat_lt (l : List Octet) : leNat l < 256 ^ l.length := by
  induction l with
  | nil => simp [leNat]
  | cons b l ih =>
    simp only [leNat, length_cons, pow_succ]
    omega

def pack : List (ℕ × ℕ) → List Octet
  | [] => []
  | (w, n) :: fs => leBytes w n ++ pack fs

def unpack : List ℕ → List Octet → List ℕ
  | [], _ => []
  | w :: ws, l => leNat (l.take w) :: unpack ws (l.drop w)

variable {fs : List (ℕ × ℕ)}

theorem length_pack : (pack fs).length = (fs.map Prod.fst).sum := by
  induction fs with
  | nil => rfl
  | cons f fs ih => simp [pack, ih]

theorem unpack_pack (h : ∀ f ∈ fs, f.2 < 256 ^ f.1) :
    unpack (fs.map Prod.fst) (pack fs) = fs.map Prod.snd := by
  induction fs with
  | nil => rfl
  | cons f fs ih =>
    obtain ⟨w, n⟩ := f
    have hn : leNat (leBytes w n) = n := leNat_leBytes (h (w, n) (by simp))
    have hfs := ih fun f hf => h f (by simp [hf])
    simp [unpack, pack, take_left' length_leBytes, drop_left' length_leBytes, hn, hfs]

def recvAll (n : ℕ) (stream : List Octet) : Option (List Octet × List Octet) :=
  if n ≤ stream.length then some (stream.take n, stream.drop n) else none

theorem recvAll_append {l rest : List Octet} (h : l.length = n) : recvAll n (l ++ rest) = some (l, rest) := by
  subst h
  simp [recvAll]

theorem recvAll_length {stream l rest : List Octet} (h : recvAll n stream = some (l, rest)) :
    l.length = n ∧ stream = l ++ rest := by
  simp only [recvAll, Option.ite_none_right_eq_some, Option.some.injEq, Prod.mk.injEq] at h
  obtain ⟨hn, rfl, rfl⟩ := h
  exact ⟨length_take_of_le hn, (take_append_drop n stream).symm⟩

abbrev ByteMem := ℕ → Octet

namespace ByteMem

def load (m : ByteMem) (a n : ℕ) : List Octet := (List.range n).map fun i => m (a + i)

def store (m : ByteMem) (a : ℕ) (l : List Octet) : ByteMem := fun x =>
  if a ≤ x ∧ x < a + l.length then l.getD (x - a) 0 else m x

variable {m m' : ByteMem} {a x i : ℕ} {l : List Octet}

@[simp]
theorem length_load : (m.load a n).length = n := by simp [load]

theorem getD_load (h : i < n) : (m.load a n).getD i 0 = m (a + i) := by
  simp [load, getD_eq_getElem?_getD, h]

theorem store_in (h : i < l.length) : m.store a l (a + i) = l.getD i 0 := by
  rw [store, if_pos (by omega), Nat.add_sub_cancel_left]

theorem store_in_zero (h : i < l.length) : m.store 0 l i = l.getD i 0 := by
  have hi : m.store 0 l (0 + i) = l.getD i 0 := store_in h
  rwa [Nat.zero_add] at hi

theorem store_out (h : x < a ∨ a + l.length ≤ x) : m.store a l x = m x := by
  rw [store, if_neg (by omega)]

def storeAll (m : ByteMem) (ws : List (ℕ × List Octet)) : ByteMem := ws.foldl (fun m w => m.store w.1 w.2) m

def Within (w : ℕ × List Octet) (x : ℕ) : Prop := w.1 ≤ x ∧ x < w.1 + w.2.length

instance (w : ℕ × List Octet) (x : ℕ) : Decidable (Within w x) := inferInstanceAs (Decidable (_ ∧ _))

def lastByte : List (ℕ × List Octet) → ℕ → Option Octet
  | [], _ => none
  | w :: ws, x =>
    match lastByte ws x with
    | some b => some b
    | none => if Within w x then some (w.2.getD (x - w.1) 0) else none

theorem storeAll_cons {w : ℕ × List Octet} {ws : List (ℕ × List Octet)} :
    m.storeAll (w :: ws) = (m.store w.1 w.2).storeAll ws := rfl

theorem storeAll_apply (m : ByteMem) (ws : List (ℕ × List Octet)) (x : ℕ) :
    m.storeAll ws x = (lastByte ws x).getD (m x) := by
  induction ws generalizing m with
  | nil => rfl
  | cons w ws ih =>
    rw [storeAll_cons, ih, lastByte]
    cases lastByte ws x with
    | some b => rfl
    | none =>
      by_cases h : Within w x
      · simp [h, store, h.1, h.2]
      · rw [if_neg h]
        exact store_out (by simp only [Within] at h; omega)

variable {ws : List (ℕ × List Octet)} {b : Octet}

theorem lastByte_eq_none : lastByte ws x = none ↔ ∀ w ∈ ws, ¬ Within w x := by
  induction ws with
  | nil => simp [lastByte]
  | cons w ws ih =>
    rw [lastByte, forall_mem_cons, ← ih]
    cases lastByte ws x <;> simp

theorem lastByte_eq_some
    (h : ∀ w ∈ ws, Within w x → w.2.getD (x - w.1) 0 = b) (hx : ∃ w ∈ ws, Within w x) :
    lastByte ws x = some b := by
  induction ws with
  | nil => simp at hx
  | cons w ws ih =>
    rw [lastByte]
    by_cases hws : ∃ w ∈ ws, Within w x
    · rw [ih (fun w' hw' => h w' (by simp [hw'])) hws]
    have hnone : lastByte ws x = none := by
      rw [lastByte_eq_none]
      exact fun w' hw' hx' => hws ⟨w', hw', hx'⟩
    obtain ⟨w', hw', hx'⟩ := hx
    rcases mem_cons.mp hw' with rfl | hw'
    · simp [hnone, hx', ← h w' (by simp) hx']
    · exact absurd ⟨w', hw', hx'⟩ hws

theorem storeAll_out (h : ∀ w ∈ ws, ¬ Within w x) : m.storeAll ws x = m x := by
  rw [storeAll_apply, lastByte_eq_none.mpr h]
  rfl

theorem storeAll_eq
    (h : ∀ w ∈ ws, Within w x → w.2.getD (x - w.1) 0 = b) (hx : (∃ w ∈ ws, Within w x) ∨ m x = b) :
    m.storeAll ws x = b := by
  by_cases hw : ∃ w ∈ ws, Within w x
  · rw [storeAll_apply, lastByte_eq_some h hw]
    rfl
  · rw [storeAll_out fun w hm hx => hw ⟨w, hm, hx⟩]
    exact hx.resolve_left hw

theorem storeAll_congr (m m' : ByteMem) (ws : List (ℕ × List Octet)) (h : m x = m' x) :
    m.storeAll ws x = m'.storeAll ws x := by
  rw [storeAll_apply, storeAll_apply, h]

theorem storeAll_filter {α : Type} {ws : List α} {g : α → ℕ × List Octet} {p : α → Bool}
    (hone : ∀ w ∈ ws, ∀ w' ∈ ws, Within (g w) x → Within (g w') x → w = w')
    (hsame : ∀ w ∈ ws, p w = false → Within (g w) x → (g w).2.getD (x - (g w).1) 0 = m x) :
    m.storeAll ((ws.filter p).map g) x = m.storeAll (ws.map g) x := by
  by_cases hx : ∃ w ∈ ws, Within (g w) x
  · obtain ⟨w, hw, hwx⟩ := hx
    have hbyte : ∀ l : List α, (∀ v ∈ l, v ∈ ws) → ∀ u ∈ l.map g, Within u x →
        u.2.getD (x - u.1) 0 = (g w).2.getD (x - (g w).1) 0 := by
      intro l hl u hu hux
      obtain ⟨v, hv, rfl⟩ := mem_map.mp hu
      rw [hone v (hl v hv) w hw hux hwx]
    have hall : m.storeAll (ws.map g) x = (g w).2.getD (x - (g w).1) 0 :=
      storeAll_eq (hbyte ws fun v hv => hv) (.inl ⟨g w, mem_map_of_mem hw, hwx⟩)
    rw [hall]
    apply storeAll_eq (hbyte _ fun v hv => (mem_filter.mp hv).1)
    cases hp : p w with
    | true => exact .inl ⟨g w, mem_map_of_mem (mem_filter.mpr ⟨hw, hp⟩), hwx⟩
    | false => exact .inr (hsame w hw hp hwx).symm
  · have hout : ∀ l : List α, (∀ v ∈ l, v ∈ ws) → m.storeAll (l.map g) x = m x := by
      intro l hl
      apply storeAll_out
      intro u hu hux
      obtain ⟨v, hv, rfl⟩ := mem_map.mp hu
      exact hx ⟨v, hl v hv, hux⟩
    rw [hout _ fun v hv => (mem_filter.mp hv).1, hout ws fun v hv => hv]

end ByteMem

end WinePpc64.Lib
