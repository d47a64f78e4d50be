import Mathlib

namespace WinePpc64.Virtual.Vprot

open Option

/-- The second-level blocks of 0x100000 bytes, one byte a page. -/
abbrev PagesVprot := ℕ → Option (ℕ → BitVec 8)

structure Ptr where
  block : ℕ
  off : ℕ

def Ptr.add (p : Ptr) (n : ℕ) : Ptr := ⟨p.block, p.off + n⟩

def ptrTo (idx : ℕ) : Ptr := ⟨idx / 0x100000, idx % 0x100000⟩

def wordOf (byte : ℕ → BitVec 8) : BitVec 64 := .ofFnLE fun i => (byte (i / 8)).getLsbD (i % 8)

def wordFromByte (b : BitVec 8) : BitVec 64 := 0x101010101010101 * b.setWidth 64

section

variable (pagesVprot : PagesVprot)

/-- A read outside its block, or of a block that is not allocated, has no value. -/
def readByte (p : Ptr) : Option (BitVec 8) :=
  (pagesVprot p.block).bind fun block => if p.off < 0x100000 then some (block p.off) else none

def readWord (p : Ptr) : Option (BitVec 64) :=
  (pagesVprot p.block).bind fun block =>
    if p.off + 8 ≤ 0x100000 then some (wordOf fun i => block (p.off + i)) else none

-- both byte loops: the index at which they end
def byteLoop (vprot mask : BitVec 8) : ℕ → ℕ → Ptr → Option ℕ
  | 0, currIdx, _ => some currIdx
  | n + 1, currIdx, p => (readByte pagesVprot p).bind fun b =>
    if (vprot ^^^ b) &&& mask ≠ 0 then some currIdx else byteLoop vprot mask n (currIdx + 1) (p.add 1)

def wordLoop (vprot mask : BitVec 8) (endIdx : ℕ) : ℕ → ℕ → Ptr → Option (Option ℕ)
  | 0, _, _ => some none
  | n + 1, currIdx, p =>
    let p := if currIdx % 0x100000 = 0 then ⟨currIdx / 0x100000, 0⟩ else p
    (readWord pagesVprot p).bind fun w =>
      if (wordFromByte vprot ^^^ w) &&& wordFromByte mask ≠ 0 then
        (byteLoop pagesVprot vprot mask (endIdx - currIdx) currIdx p).map some
      else wordLoop vprot mask endIdx n (currIdx + 8) (p.add 8)

def getVprotRangeSize (base size : ℕ) (mask : BitVec 8) : Option (ℕ × BitVec 8) :=
  let startIdx := base >>> 12
  let endIdx := startIdx + size >>> 12
  let alignedStartIdx := min ((startIdx + 7) / 8 * 8) endIdx
  let p := ptrTo startIdx
  (readByte pagesVprot p).bind fun vprot =>
  (byteLoop pagesVprot vprot mask (alignedStartIdx - startIdx) startIdx p).bind fun currIdx =>
    if currIdx < alignedStartIdx then some ((currIdx - startIdx) <<< 12, vprot)
    else (wordLoop pagesVprot vprot mask endIdx ((endIdx - currIdx + 7) / 8) currIdx
      (p.add (currIdx - startIdx))).map fun
      | some currIdx => ((currIdx - startIdx) <<< 12, vprot)
      | none => (size, vprot)

def vprotOf (idx : ℕ) : BitVec 8 := ((pagesVprot (idx / 0x100000)).getD fun _ => 0) (idx % 0x100000)

def Agrees (vprot mask : BitVec 8) (idx : ℕ) : Prop := vprotOf pagesVprot idx &&& mask = vprot &&& mask

/-- The blocks of the range and of its first page are there; any other may be missing. -/
def Allocated (startIdx n : ℕ) : Prop :=
  ∀ idx, startIdx ≤ idx → idx < startIdx + max 1 n → (pagesVprot (idx / 0x100000)).isSome

end

/-- The end of the longest run of `ok` from `first` on, at most `last`. -/
structure Stops (ok : ℕ → Prop) (first last r : ℕ) : Prop where
  ge : min first last ≤ r
  le : r ≤ last
  run : ∀ i, first ≤ i → i < r → ok i
  stop : r < last → ¬ok r

variable {t : PagesVprot} {v m : BitVec 8} {byte : ℕ → BitVec 8} {n i k c e : ℕ} {p : Ptr}

theorem Stops.prepend {ok : ℕ → Prop} {a b r : ℕ} (h : Stops ok b e r) (hab : a ≤ b)
    (hrun : ∀ i, a ≤ i → i < b → i < e → ok i) : Stops ok a e r where
  ge := (min_le_min_right _ hab).trans h.ge
  le := h.le
  run i hi hr := (lt_or_ge i b).elim (fun hb => hrun i hi hb (hr.trans_le h.le)) fun hb => h.run i hb hr
  stop := h.stop

theorem masked_eq_iff {x : BitVec 8} : (v ^^^ x) &&& m = 0 ↔ x &&& m = v &&& m := by
  have hdistrib : (v ^^^ x) &&& m = (v &&& m) ^^^ (x &&& m) := by
    ext j
    simp [Bool.and_xor_distrib_right]
  rw [hdistrib, eq_comm (a := x &&& m)]
  exact BitVec.xor_eq_zero_iff

theorem getLsbD_wordOf (hi : i < 64) : (wordOf byte).getLsbD i = (byte (i / 8)).getLsbD (i % 8) := by
  simp [wordOf, hi]

theorem wordFromByte_eq : ∀ b, wordFromByte b = wordOf fun _ => b := by decide +kernel

theorem word_eq_iff : (wordFromByte v ^^^ wordOf byte) &&& wordFromByte m = 0 ↔
    ∀ i < 8, byte i &&& m = v &&& m := by
  simp only [wordFromByte_eq, ← masked_eq_iff]
  constructor
  · intro h i hi
    refine BitVec.eq_of_getLsbD_eq fun j hj => ?_
    have := congrArg (·.getLsbD (8 * i + j)) h
    simpa [getLsbD_wordOf (show 8 * i + j < 64 by omega), show (8 * i + j) / 8 = i by omega,
      show (8 * i + j) % 8 = j by omega] using this
  · intro h
    refine BitVec.eq_of_getLsbD_eq fun j hj => ?_
    have := congrArg (·.getLsbD (j % 8)) (h (j / 8) (by omega))
    simpa [getLsbD_wordOf hj] using this

theorem vprotOf_add {block : ℕ → BitVec 8} (h : t (c / 0x100000) = some block)
    (hk : c % 0x100000 + k < 0x100000) : vprotOf t (c + k) = block (c % 0x100000 + k) := by
  simp [vprotOf, show (c + k) / 0x100000 = c / 0x100000 by omega, h,
    show (c + k) % 0x100000 = c % 0x100000 + k by omega]

section

variable (h : (t (c / 0x100000)).isSome)
include h

theorem readByte_add (hk : c % 0x100000 + k < 0x100000) :
    readByte t ((ptrTo c).add k) = some (vprotOf t (c + k)) := by
  obtain ⟨block, hblock⟩ := isSome_iff_exists.mp h
  simp [readByte, ptrTo, Ptr.add, hblock, hk, vprotOf_add hblock hk]

theorem readWord_ptrTo (hdvd : 8 ∣ c) :
    readWord t (ptrTo c) = some (wordOf fun i => vprotOf t (c + i)) := by
  obtain ⟨block, hblock⟩ := isSome_iff_exists.mp h
  have hfits : c % 0x100000 + 8 ≤ 0x100000 := by omega
  simp only [readWord, ptrTo, hblock, bind_some]
  refine (if_pos hfits).trans (congrArg some (BitVec.eq_of_getLsbD_eq fun j hj => ?_))
  rw [getLsbD_wordOf hj, getLsbD_wordOf hj, vprotOf_add hblock (by omega)]

end

/-- A byte is read only when all before it agree. -/
theorem byteLoop_stops (h : ∀ j < n, (∀ i < j, Agrees t v m (c + i)) →
      readByte t (p.add j) = some (vprotOf t (c + j))) :
    ∃ r, byteLoop t v m n c p = some r ∧ Stops (Agrees t v m) c (c + n) r := by
  induction n generalizing c p with
  | zero => exact ⟨c, rfl, by simp, by simp, by omega, by simp⟩
  | succ n ih =>
    have hread : readByte t p = _ := h 0 (by omega) (by simp)
    simp only [byteLoop, hread, bind_some, ne_eq, masked_eq_iff]
    split
    next hbad => exact ⟨c, rfl, by simp, by omega, by omega, fun _ => hbad⟩
    next hok =>
      have hok : Agrees t v m c := not_not.mp hok
      obtain ⟨r, hr, hstops⟩ := ih (p := p.add 1) (c := c + 1) fun j hj hall => by
        have := h (j + 1) (by omega) fun i hi => by
          obtain _ | i := i
          · exact hok
          · simpa [add_assoc, add_comm 1] using hall i (by omega)
        simpa [Ptr.add, add_assoc, add_comm 1] using this
      refine ⟨r, hr, ?_⟩
      rw [add_assoc, add_comm 1] at hstops
      exact hstops.prepend (by omega) fun i hi hi' _ => by rwa [show i = c by omega]

theorem wordLoop_stops (hdvd : c < e → 8 ∣ c) (hn : e ≤ c + 8 * n ∧ c + 8 * n < e + 8)
    (hp : p = ptrTo c ∨ c % 0x100000 = 0) (h : ∀ i, c ≤ i → i < e → (t (i / 0x100000)).isSome) :
    ∃ r, wordLoop t v m e n c p = some r ∧ Stops (Agrees t v m) c e (r.getD e) := by
  induction n generalizing c p with
  | zero => exact ⟨none, rfl, by simp, by simp, fun i _ _ => by simp_all; omega, by simp⟩
  | succ n ih =>
    have hptr : (if c % 0x100000 = 0 then ⟨c / 0x100000, 0⟩ else p) = ptrTo c := by
      split
      next hz => rw [ptrTo, hz]
      next hnz => exact hp.resolve_right hnz
    have hlt : c < e := by omega
    have hblock := h c le_rfl hlt
    have hdvd := hdvd hlt
    simp only [wordLoop, hptr, readWord_ptrTo hblock hdvd, bind_some, ne_eq, word_eq_iff]
    split
    next hbad =>
      push Not at hbad
      obtain ⟨k, hk, hbad⟩ := hbad
      have hreads : ∀ j < e - c, (∀ i < j, Agrees t v m (c + i)) →
          readByte t ((ptrTo c).add j) = some (vprotOf t (c + j)) := by
        intro j _ hall
        have : j ≤ k := not_lt.mp fun hlt => hbad (hall k hlt)
        exact readByte_add hblock (by omega)
      obtain ⟨r, hr, hstops⟩ := byteLoop_stops hreads
      rw [show c + (e - c) = e by omega] at hstops
      exact ⟨some r, by rw [hr, map_some], hstops⟩
    next hok =>
      obtain ⟨r, hr, hstops⟩ := ih (c := c + 8) (p := (ptrTo c).add 8) (by omega) (by omega)
        (by simp only [ptrTo, Ptr.add, Ptr.mk.injEq]; omega) fun i hi => h i (by omega)
      refine ⟨r, hr, hstops.prepend (by omega) fun i hi hi' _ => ?_⟩
      have := not_not.mp hok (i - c) (by omega)
      rwa [show c + (i - c) = i by omega] at this

theorem get_vprot_range_size_longest (base pages : ℕ) (mask : BitVec 8) (h : Allocated t (base >>> 12) pages) :
    ∃ r, getVprotRangeSize t base (pages <<< 12) mask = some ((r - base >>> 12) <<< 12, vprotOf t (base >>> 12)) ∧
      Stops (Agrees t (vprotOf t (base >>> 12)) mask) (base >>> 12) (base >>> 12 + pages) r := by
  have hsize : pages <<< 12 >>> 12 = pages := by simp
  simp only [getVprotRangeSize, hsize]
  generalize base >>> 12 = start at *
  have hblock := h start le_rfl (by omega)
  have hfirst : readByte t (ptrTo start) = _ := readByte_add (k := 0) hblock (by omega)
  generalize haligned : min ((start + 7) / 8 * 8) (start + pages) = aligned
  obtain ⟨r, hr, hstops⟩ := byteLoop_stops (n := aligned - start) (v := vprotOf t start) (m := mask)
    fun j hj _ => readByte_add (k := j) hblock (by omega)
  rw [show start + (aligned - start) = aligned by omega] at hstops
  have hge := hstops.ge
  have hle := hstops.le
  simp only [hfirst, bind_some, add_zero, hr]
  split
  next hlt => exact ⟨r, rfl, by omega, by omega, hstops.run, fun _ => hstops.stop hlt⟩
  next =>
    obtain ⟨r', hr', hrest⟩ := wordLoop_stops (t := t) (n := (start + pages - r + 7) / 8)
      (p := (ptrTo start).add (r - start)) (v := vprotOf t start) (m := mask) (c := r) (e := start + pages)
      (by omega) (by omega) (by simp only [ptrTo, Ptr.add, Ptr.mk.injEq]; omega)
      fun i _ hi => h i (by omega) (by omega)
    refine ⟨r'.getD (start + pages), ?_, hrest.prepend (by omega) fun i hi hi' _ => hstops.run i hi hi'⟩
    rw [hr']
    cases r' with
    | none => simp
    | some _ => rfl

def nine : PagesVprot := fun block => if block = 0 then some fun i => if i = 9 then 3 else 1 else none

theorem get_vprot_range_size_longest_nine : ∃ r,
    getVprotRangeSize nine 0 (16 <<< 12) 0xff = some ((r - 0) <<< 12, 1) ∧
      Stops (Agrees nine 1 0xff) 0 (0 + 16) r := by
  have hthere : Allocated nine (0 >>> 12) 16 := by
    intro idx _ hidx
    have hblock : idx / 0x100000 = 0 := by omega
    rw [hblock]
    rfl
  exact get_vprot_range_size_longest 0 16 0xff hthere

end WinePpc64.Virtual.Vprot
