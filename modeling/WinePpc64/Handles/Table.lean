import Mathlib

namespace WinePpc64.Handles

open Function

abbrev Handle := BitVec 32

abbrev Rights := BitVec 32

def minHandleEntries : ℕ := 32

def maxHandleEntries : ℕ := 0x00ffffff

def reservedShift : ℕ := 26

def reservedInherit : Rights := 1 <<< 26

def reservedCloseProtect : Rights := 2 <<< 26

def reservedAll : Rights := reservedInherit ||| reservedCloseProtect

def indexToHandle (index : ℕ) : Handle := BitVec.ofNat 32 ((index + 1) * 4)

def handleToIndex (handle : Handle) : ℤ := (handle.toNat / 4 : ℕ) - 1

def obfuscator : Handle := 0x544a4def

def handleIsGlobal (handle : Handle) : Bool :=
  decide ((handle ^^^ obfuscator).toNat ≤ maxHandleEntries * 4)

def handleLocalToGlobal (handle : Handle) : Handle := if handle = 0 then 0 else handle ^^^ obfuscator

def handleGlobalToLocal (handle : Handle) : Handle := handle ^^^ obfuscator

inductive Fault
  | nullProcess
  | outOfBounds
  | assertion
  deriving DecidableEq, Repr

structure Entry where
  obj : ℕ
  access : Rights
  deriving DecidableEq, Repr

structure Table where
  count : ℕ
  used : ℕ
  free : ℕ
  entries : ℕ → Option Entry

def Table.read (t : Table) (i : ℤ) : Except Fault (Option Entry) :=
  if 0 ≤ i ∧ i < t.count then .ok (t.entries i.toNat) else .error .outOfBounds

def Table.write (t : Table) (i : ℤ) (e : Option Entry) : Except Fault Table :=
  if 0 ≤ i ∧ i < t.count then .ok { t with entries := update t.entries i.toNat e }
  else .error .outOfBounds

def allocHandleTable (count : ℕ) : Table :=
  ⟨if count < minHandleEntries then minHandleEntries else count, 0, 0, fun _ => none⟩

def growHandleTable (t : Table) (realloc : Bool) : Option Table :=
  let count := min (t.count * 2) maxHandleEntries
  if count = t.count ∨ realloc = false then none else some { t with count := count }

def findFree (t : Table) : ℕ → ℕ → Except Fault ℕ
  | i, 0 => .ok i
  | i, n + 1 => (t.read i).bind fun e => if e.isNone then .ok i else findFree t (i + 1) n

def allocEntry (t : Table) (obj : ℕ) (access : Rights) (realloc : Bool) : Except Fault (Table × Handle) :=
  (findFree t t.free (t.used - t.free)).bind fun i =>
    if i < t.used then
      (t.write i (some ⟨obj, access⟩)).map fun t => ({ t with free := i + 1 }, indexToHandle i)
    else
      match if t.count ≤ i then growHandleTable t realloc else some t with
      | none => .ok (t, 0)
      | some t =>
        (t.write i (some ⟨obj, access⟩)).map fun t =>
          ({ t with used := i + 1, free := i + 1 }, indexToHandle i)

def trim (t : Table) : ℕ → Except Fault ℕ
  | 0 => .ok 0
  | n + 1 => (t.read n).bind fun e => if e.isNone then trim t n else .ok (n + 1)

def shrinkHandleTable (t : Table) (realloc : Bool) : Except Fault Table :=
  (trim t t.used).map fun used =>
    if t.count / 4 < used ∨ t.count < minHandleEntries * 2 ∨ realloc = false then { t with used := used }
    else { t with used := used, count := t.count / 2 }

def clearEntry (t : Table) (index : ℤ) (realloc : Bool) : Except Fault Table :=
  (t.write index none).bind fun t =>
    let t := if index < t.free then { t with free := index.toNat } else t
    if index = t.used - 1 then shrinkHandleTable t realloc else .ok t

def Table.lookup (t : Table) (i : ℕ) : Option Entry := if i < t.used ∧ i < t.count then t.entries i else none

/-- There is a free entry, or the table can grow. -/
def Table.HasRoom (t : Table) (realloc : Bool) : Prop :=
  (∃ i < t.count, t.lookup i = none) ∨ (t.count < maxHandleEntries ∧ realloc = true)

structure Table.Ok (t : Table) : Prop where
  min : minHandleEntries ≤ t.count
  max : t.count ≤ maxHandleEntries
  used_le : t.used ≤ t.count
  free_le : t.free ≤ t.used
  below : ∀ i < t.free, t.entries i ≠ none
  top : ∀ i, t.used = i + 1 → t.entries i ≠ none

section Numbers

theorem indexToHandle_ne_zero {i : ℕ} (h : i < maxHandleEntries) : indexToHandle i ≠ 0 := by
  intro h0
  have hnat : (i + 1) * 4 % 2 ^ 32 = 0 := congrArg BitVec.toNat h0
  simp only [maxHandleEntries] at h
  omega

theorem handleToIndex_global {h : Handle} (hg : handleIsGlobal h = true) :
    (maxHandleEntries : ℤ) ≤ handleToIndex h := by
  have hx : (h ^^^ obfuscator).toNat < 2 ^ 26 := by
    have := of_decide_eq_true hg
    simp only [maxHandleEntries] at this
    omega
  have hshift : (h ^^^ obfuscator).toNat >>> 26 = 0 := by
    rw [Nat.shiftRight_eq_div_pow]
    exact Nat.div_eq_of_lt hx
  have hobf : obfuscator.toNat >>> 26 = 21 := by decide
  have hhigh : h.toNat >>> 26 = 21 := by
    have hxor := congrArg (· ^^^ 21) hshift
    simpa [Nat.shiftRight_xor_distrib, hobf, Nat.xor_assoc] using hxor
  simp only [handleToIndex, maxHandleEntries]
  omega

end Numbers

section Tables

variable {t t' : Table} {i n k : ℕ}

theorem Table.read_lt (h : i < t.count) : t.read i = .ok (t.entries i) := by
  rw [Table.read, if_pos (by omega), Int.toNat_natCast]

theorem Table.write_lt (h : i < t.count) (e : Option Entry) :
    t.write i e = .ok { t with entries := update t.entries i e } := by
  rw [Table.write, if_pos (by omega), Int.toNat_natCast]

theorem Table.write_ge {i : ℤ} (h : (t.count : ℤ) ≤ i) {e : Option Entry} :
    t.write i e = .error .outOfBounds := by
  rw [Table.write, if_neg (by omega)]

theorem Table.lookup_of_lt (h : t.used ≤ t.count) (hi : i < t.used) : t.lookup i = t.entries i := by
  rw [lookup, if_pos ⟨hi, by omega⟩]

theorem Table.lookup_of_le (hi : t.used ≤ i) : t.lookup i = none := by
  rw [lookup, if_neg (by omega)]

theorem findFree_eq (h : i + n ≤ t.count) :
    ∃ j, findFree t i n = .ok j ∧ i ≤ j ∧ j ≤ i + n ∧ (∀ k, i ≤ k → k < j → t.entries k ≠ none) ∧
      (j < i + n → t.entries j = none) := by
  induction n generalizing i with
  | zero => exact ⟨i, rfl, le_refl _, by omega, by omega, by omega⟩
  | succ n ih =>
    rw [findFree, Table.read_lt (by omega)]
    cases he : t.entries i with
    | none => exact ⟨i, by simp [Except.bind], le_refl _, by omega, by omega, fun _ => he⟩
    | some e =>
      obtain ⟨j, hj, h₁, h₂, h₃, h₄⟩ := ih (i := i + 1) (by omega)
      refine ⟨j, by simpa [Except.bind] using hj, by omega, by omega, ?_, fun hlt => h₄ (by omega)⟩
      intro k hk hkj
      rcases Nat.eq_or_lt_of_le hk with rfl | hk
      · simp [he]
      · exact h₃ k hk hkj

theorem growHandleTable_some {realloc : Bool} (hg : growHandleTable t realloc = some t')
    (h : t.Ok) : realloc = true ∧ t.count < t'.count ∧ t'.count ≤ maxHandleEntries ∧ t' = { t with count := t'.count } := by
  simp only [growHandleTable] at hg
  rw [Option.ite_none_left_eq_some] at hg
  obtain ⟨hne, hg⟩ := hg
  push Not at hne
  cases hg
  have hmax := h.max
  refine ⟨by simpa using hne.2, ?_, ?_, rfl⟩
  · dsimp only at hne ⊢
    omega
  · dsimp only
    omega

theorem growHandleTable_none {realloc : Bool} (hg : growHandleTable t realloc = none) (h : t.Ok) :
    ¬(t.count < maxHandleEntries ∧ realloc = true) := by
  rintro ⟨hlt, rfl⟩
  simp only [growHandleTable, ite_eq_left_iff, reduceCtorEq, imp_false, not_not, Bool.true_eq_false, or_false] at hg
  have hmin : 32 ≤ t.count := h.min
  omega

theorem update_ne_none {f : ℕ → Option Entry} {e : Entry} (h : k ≠ i → f k ≠ none) :
    update f i (some e) k ≠ none := by
  by_cases hki : k = i
  · simp [hki]
  · rw [update_of_ne hki]
    exact h hki

theorem Table.Ok.set (h : t.Ok) (i : ℕ) (e : Entry) :
    Table.Ok { t with entries := update t.entries i (some e) } :=
  { h with
    below := fun k hk => update_ne_none fun _ => h.below k hk
    top := fun k hk => update_ne_none fun _ => h.top k hk }

structure Table.FirstFree (t : Table) (i : ℕ) : Prop where
  le : i ≤ t.used
  before : ∀ k < i, t.entries k ≠ none
  free : i < t.used → t.entries i = none

theorem allocEntry_eq (h : t.Ok) {obj : ℕ} {access : Rights} {realloc : Bool} :
    ∃ t' res, allocEntry t obj access realloc = .ok (t', res) ∧ t'.Ok ∧
      ((¬t.HasRoom realloc ∧ res = 0 ∧ t' = t) ∨ (t.HasRoom realloc ∧ res ≠ 0 ∧ ∃ i, t.FirstFree i ∧ t'.used = max t.used (i + 1) ∧
        res = indexToHandle i ∧ t'.entries = update t.entries i (some ⟨obj, access⟩))) := by
  have hfree := h.free_le
  have hused := h.used_le
  have hmax := h.max
  obtain ⟨i, hi, h₁, h₂, h₃, h₄⟩ :=
    findFree_eq (t := t) (i := t.free) (n := t.used - t.free) (by omega)
  rw [allocEntry, hi]
  simp only [Except.bind]
  have hbelow : ∀ k < i, t.entries k ≠ none := by
    intro k hk
    by_cases hkf : k < t.free
    · exact h.below k hkf
    · exact h₃ k (by omega) hk
  have hbelow' : ∀ k < i + 1, update t.entries i (some ⟨obj, access⟩) k ≠ none :=
    fun k hk => update_ne_none fun hki => hbelow k (by omega)
  by_cases hlt : i < t.used
  · rw [if_pos hlt, Table.write_lt (by omega)]
    have hset := h.set i ⟨obj, access⟩
    exact ⟨_, _, rfl, { hset with free_le := hlt, below := hbelow' },
      .inr ⟨.inl ⟨i, by omega, (Table.lookup_of_lt hused hlt).trans (h₄ (by omega))⟩,
        indexToHandle_ne_zero (by omega), i, ⟨hlt.le, hbelow, fun _ => h₄ (by omega)⟩,
        (max_eq_left hlt).symm, rfl, rfl⟩⟩
  · rw [if_neg hlt]
    have hiu : i = t.used := by omega
    cases hg : (if t.count ≤ i then growHandleTable t realloc else some t) with
    | none =>
      refine ⟨t, 0, rfl, h, .inl ⟨?_, rfl, rfl⟩⟩
      split at hg
      next hfull =>
        rintro (⟨k, hk, hnone⟩ | hroom)
        · rw [Table.lookup_of_lt hused (by omega)] at hnone
          exact hbelow k (by omega) hnone
        · exact growHandleTable_none hg h hroom
      next => cases hg
    | some u =>
      have hu : t.HasRoom realloc ∧ i < u.count ∧ t.count ≤ u.count ∧ u.count ≤ maxHandleEntries ∧
          u = { t with count := u.count } := by
        split at hg
        · obtain ⟨hrealloc, hlt', hmax', heq⟩ := growHandleTable_some hg h
          exact ⟨.inr ⟨by omega, hrealloc⟩, by omega, by omega, hmax', heq⟩
        next hroom =>
          cases hg
          exact ⟨.inl ⟨i, by omega, Table.lookup_of_le (by omega)⟩, by omega, le_refl _, hmax, rfl⟩
      obtain ⟨hroom, hiu', hcount, hmax', heq⟩ := hu
      dsimp only
      rw [Table.write_lt hiu', heq]
      exact ⟨_, _, rfl, ⟨h.min.trans hcount, hmax', hiu', le_refl _, hbelow',
          fun k hk => hbelow' k hk.symm.le⟩,
        .inr ⟨hroom, indexToHandle_ne_zero (by omega), i, ⟨hiu.le, hbelow, fun hlt' => absurd hlt' hlt⟩,
          (max_eq_right (by dsimp only; omega)).symm, rfl, rfl⟩⟩

theorem trim_eq (h : n ≤ t.count) :
    ∃ j, trim t n = .ok j ∧ j ≤ n ∧ (∀ k, j = k + 1 → t.entries k ≠ none) ∧
      ∀ k, j ≤ k → k < n → t.entries k = none := by
  induction n with
  | zero => exact ⟨0, rfl, le_refl _, by omega, by omega⟩
  | succ n ih =>
    rw [trim, Table.read_lt (by omega)]
    cases he : t.entries n with
    | some e =>
      refine ⟨n + 1, by simp [Except.bind], le_refl _, ?_, by omega⟩
      intro k hk
      obtain rfl : k = n := by omega
      simp [he]
    | none =>
      obtain ⟨j, hj, h₁, h₂, h₃⟩ := ih (by omega)
      refine ⟨j, by simpa [Except.bind] using hj, by omega, h₂, ?_⟩
      intro k hk hkn
      rcases Nat.eq_or_lt_of_le (Nat.le_of_lt_succ hkn) with rfl | hkn
      · exact he
      · exact h₃ k hk hkn

theorem shrinkHandleTable_eq (hmin : minHandleEntries ≤ t.count) (hmax : t.count ≤ maxHandleEntries)
    (hused : t.used ≤ t.count) (hfree : t.free ≤ t.used) (hbelow : ∀ i < t.free, t.entries i ≠ none)
    {realloc : Bool} :
    ∃ t', shrinkHandleTable t realloc = .ok t' ∧ t'.Ok ∧ t'.entries = t.entries := by
  obtain ⟨j, hj, h₁, h₂, h₃⟩ := trim_eq hused
  have hfj : t.free ≤ j := by
    by_contra hlt
    exact hbelow j (by omega) (h₃ j (le_refl _) (by omega))
  rw [shrinkHandleTable, hj]
  simp only [Except.map]
  split
  · exact ⟨_, rfl, ⟨hmin, hmax, by dsimp only; omega, hfj, hbelow, h₂⟩, rfl⟩
  rename_i hc
  push Not at hc
  simp only [minHandleEntries] at hc hmin
  refine ⟨_, rfl, ⟨?_, ?_, ?_, hfj, hbelow, h₂⟩, rfl⟩
  · simp only [minHandleEntries]
    omega
  · dsimp only
    omega
  · dsimp only
    omega

def Table.clear (t : Table) (i : ℕ) : Table :=
  { t with free := Min.min i t.free, entries := update t.entries i none }

theorem clearEntry_of_lt (h : i < t.count) {realloc : Bool} : clearEntry t i realloc =
    if (i : ℤ) = t.used - 1 then shrinkHandleTable (t.clear i) realloc else .ok (t.clear i) := by
  rw [clearEntry, Table.write_lt h]
  simp only [Except.bind, Int.toNat_natCast, Nat.cast_lt, Table.clear]
  by_cases hif : i < t.free
  · simp only [if_pos hif, min_eq_left hif.le]
  · simp only [if_neg hif, min_eq_right (not_lt.mp hif)]

theorem clearEntry_eq (h : t.Ok) (hi : i < t.used) {realloc : Bool} :
    ∃ t', clearEntry t i realloc = .ok t' ∧ t'.Ok ∧ t'.entries = update t.entries i none := by
  have hused := h.used_le
  have hle : (t.clear i).free ≤ t.used := (min_le_left ..).trans hi.le
  have hbelow : ∀ k < (t.clear i).free, (t.clear i).entries k ≠ none := by
    intro k hk
    obtain ⟨hki, hkf⟩ := lt_min_iff.mp hk
    exact (update_of_ne hki.ne ..).trans_ne (h.below k hkf)
  rw [clearEntry_of_lt (by omega)]
  split
  · exact shrinkHandleTable_eq (t := t.clear i) h.min h.max hused hle hbelow
  · refine ⟨_, rfl, ⟨h.min, h.max, hused, hle, hbelow, fun k hk => ?_⟩, rfl⟩
    have hk : t.used = k + 1 := hk
    exact (update_of_ne (by omega) ..).trans_ne (h.top k hk)

theorem allocHandleTable_ok (h : n ≤ maxHandleEntries) : (allocHandleTable n).Ok := by
  refine ⟨?_, ?_, Nat.zero_le _, le_refl _, ?_, ?_⟩
  · simp only [allocHandleTable]
    split
    · exact le_refl _
    · omega
  · simp only [allocHandleTable]
    split
    · decide
    · exact h
  · intro i hi
    exact absurd hi (Nat.not_lt_zero _)
  · intro i hi
    exact absurd hi (by simp [allocHandleTable])

end Tables

end WinePpc64.Handles
