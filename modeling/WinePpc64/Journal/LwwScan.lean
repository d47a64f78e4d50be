import WinePpc64.Journal.Replay

namespace WinePpc64.Journal

open Lww

variable {lev : Levers} {t : Tables} {b : Bytes} {len w g g' : ℕ} {xs ys : List ℕ}

theorem isDead_init {off : ℕ} : isDead Lww.init.dead off = false := by simp [isDead, Lww.init]

theorem bit_and_bit : ∀ i < 8, ∀ j < 8, 1#8 <<< i &&& 1#8 <<< j ≠ 0#8 ↔ i = j := by decide

theorem or_and_ne_zero {x y m : BitVec 8} : (x ||| y) &&& m ≠ 0#8 ↔ x &&& m ≠ 0#8 ∨ y &&& m ≠ 0#8 := by
  have h : (x ||| y) &&& m = (x &&& m) ||| (y &&& m) := by
    ext i hi
    simp [Bool.and_or_distrib_right]
  rw [h, Ne, BitVec.or_eq_zero_iff, not_and_or]

theorem isDead_markDead (dead : Bitmap) (victim off : ℕ) :
    isDead (markDead dead victim) off = true ↔ isDead dead off = true ∨ victim / 8 = off / 8 := by
  simp only [isDead, markDead, bne_iff_ne]
  change _ ≠ 0#8 ↔ _ ≠ 0#8 ∨ _
  split_ifs with h
  · rw [or_and_ne_zero, bit_and_bit _ (by omega) _ (by omega)]
    exact or_congr Iff.rfl (by omega)
  · refine (or_iff_left ?_).symm
    omega

def starts (b : Bytes) (len : ℕ) : ℕ → ℕ → List ℕ
  | 0, _ => []
  | n + 1, off =>
    if off + 8 ≤ len ∧ 8 ≤ b.recSize off ∧ off + b.recSize off ≤ len then
      off :: starts b len n (off + b.recSize off)
    else []

theorem lwwLoop_eq_foldl {n off : ℕ} {st : Lww} :
    lwwLoop lev t b len n off st = (starts b len n off).foldl (fun st x => lwwRecord lev t b x st) st := by
  induction n generalizing off st with
  | zero => rfl
  | succ n ih =>
    unfold lwwLoop starts
    split_ifs with h1 h2 h3 h3
    · omega
    · rfl
    · rw [ih]; rfl
    · omega
    · omega
    · rfl

theorem starts_ge {n off x : ℕ} (h : x ∈ starts b len n off) : off ≤ x := by
  induction n generalizing off with
  | zero => simp [starts] at h
  | succ n ih =>
    unfold starts at h
    split_ifs at h
    · rcases List.mem_cons.mp h with rfl | h
      · exact le_rfl
      · have := ih h; omega
    · simp at h

theorem starts_pairwise (n off : ℕ) : (starts b len n off).Pairwise fun x y => x / 8 < y / 8 := by
  induction n generalizing off with
  | zero => exact .nil
  | succ n ih =>
    unfold starts
    split_ifs with h
    · refine List.pairwise_cons.mpr ⟨fun y hy => ?_, ih _⟩
      have := starts_ge hy
      omega
    · exact .nil

def NextKills (t : Tables) (b : Bytes) (g w : ℕ) : List ℕ → Prop
  | [] => False
  | x :: xs =>
    match t.setterAt b x with
    | none => False
    | some (g', d) =>
      if g' = g then d.lww = .any ∨ b.word w 0 = b.word x 0 ∧ b.word w 1 = b.word x 1
      else NextKills t b g w xs

theorem nextKills_append_consumer (hys : ∀ y ∈ ys.head?, t.setterAt b y = none) :
    NextKills t b g w (xs ++ ys) ↔ NextKills t b g w xs := by
  induction xs with
  | nil =>
    cases ys with
    | nil => rfl
    | cons y ys => simp [NextKills, hys y (by simp)]
  | cons x xs ih =>
    simp only [List.cons_append, NextKills]
    split
    · rfl
    · split_ifs
      · rfl
      · exact ih

def foldRecords (lev : Levers) (t : Tables) (b : Bytes) (xs : List ℕ) (st : Lww) : Lww :=
  xs.foldl (fun st x => lwwRecord lev t b x st) st

def KilledIn (t : Tables) (b : Bytes) (off : ℕ) : List ℕ → Prop
  | [] => False
  | x :: xs => (x / 8 = off / 8 ∧ ∃ g d, t.setterAt b x = some (g, d) ∧ NextKills t b g x xs) ∨
      KilledIn t b off xs

/-- The marks the scan of `xs` leaves: those there were, the records remembered as last of their row
that `xs` overwrites, and the records of `xs` that later ones overwrite. -/
def Marked (t : Tables) (b : Bytes) (st : Lww) (xs : List ℕ) (off : ℕ) : Prop :=
  isDead st.dead off = true ∨
    (∃ g, st.lastGen g = st.gen ∧ st.lastOff g / 8 = off / 8 ∧ NextKills t b g (st.lastOff g) xs) ∨
    KilledIn t b off xs

def Overwrites (b : Bytes) (d : JgDef) (w x : ℕ) : Prop :=
  d.lww = .any ∨ b.word w 0 = b.word x 0 ∧ b.word w 1 = b.word x 1

theorem not_killedIn_of_lt {off : ℕ} (h : ∀ x ∈ xs, off / 8 < x / 8) : ¬ KilledIn t b off xs := by
  induction xs with
  | nil => exact id
  | cons x xs ih =>
    rintro (⟨hunit, _⟩ | hk)
    · have := h x (by simp)
      omega
    · exact ih (fun y hy => h y (by simp [hy])) hk

section Step

variable {st : Lww} {x g off : ℕ} {d : JgDef} {xs : List ℕ}

theorem lwwRecord_consumer (hx : t.setterAt b x = none) :
    lwwRecord lev t b x st = { st with gen := st.gen + 1 } := by
  rw [lwwRecord, hx]

theorem lwwRecord_kill (hsab : lev.lwwSabotage = false) (hx : t.setterAt b x = some (g, d))
    (hkill : st.lastGen g = st.gen ∧ Overwrites b d (st.lastOff g) x) :
    lwwRecord lev t b x st = (st.kill (st.lastOff g)).setLast g x := by
  rw [lwwRecord, hx]
  simp only [hsab, Bool.false_eq_true, if_false]
  exact if_pos hkill

theorem lwwRecord_keep (hx : t.setterAt b x = some (g, d))
    (hkill : ¬ (st.lastGen g = st.gen ∧ Overwrites b d (st.lastOff g) x)) :
    lwwRecord lev t b x st = st.setLast g x := by
  rw [lwwRecord, hx]
  exact if_neg hkill

theorem marked_consumer (hx : t.setterAt b x = none) (hgen : ∀ g, st.lastGen g ≤ st.gen) :
    Marked t b { st with gen := st.gen + 1 } xs off ↔ Marked t b st (x :: xs) off := by
  have hstale : ∀ g, st.lastGen g ≠ st.gen + 1 := fun g => by have := hgen g; omega
  simp [Marked, KilledIn, NextKills, hx, hstale]

def OtherMarked (t : Tables) (b : Bytes) (st : Lww) (g : ℕ) (xs : List ℕ) (off : ℕ) : Prop :=
  ∃ g', g' ≠ g ∧ st.lastGen g' = st.gen ∧ st.lastOff g' / 8 = off / 8 ∧
    NextKills t b g' (st.lastOff g') xs

variable (hx : t.setterAt b x = some (g, d))
include hx

theorem nextKills_other (hg : g' ≠ g) : NextKills t b g' w (x :: xs) ↔ NextKills t b g' w xs := by
  simp [NextKills, hx, hg.symm]

theorem nextKills_same : NextKills t b g w (x :: xs) ↔ Overwrites b d w x := by
  simp [NextKills, hx, Overwrites]

theorem killedIn_setter :
    KilledIn t b off (x :: xs) ↔ (x / 8 = off / 8 ∧ NextKills t b g x xs) ∨ KilledIn t b off xs := by
  simp [KilledIn, hx]

theorem marked_setLast :
    Marked t b (st.setLast g x) xs off ↔
      isDead st.dead off = true ∨ OtherMarked t b st g xs off ∨ KilledIn t b off (x :: xs) := by
  have hlast : (∃ g', (st.setLast g x).lastGen g' = (st.setLast g x).gen ∧
      (st.setLast g x).lastOff g' / 8 = off / 8 ∧
      NextKills t b g' ((st.setLast g x).lastOff g') xs) ↔
      (x / 8 = off / 8 ∧ NextKills t b g x xs) ∨ OtherMarked t b st g xs off := by
    constructor
    · rintro ⟨g', h⟩
      by_cases hg : g' = g
      · subst hg
        exact .inl (by simpa [setLast] using h)
      · exact .inr ⟨g', hg, by simpa [setLast, hg] using h⟩
    · rintro (h | ⟨g', hg, h⟩)
      · exact ⟨g, by simpa [setLast] using h⟩
      · exact ⟨g', by simpa [setLast, hg] using h⟩
  rw [Marked, hlast, killedIn_setter hx]
  tauto

theorem marked_setter :
    Marked t b st (x :: xs) off ↔ isDead st.dead off = true ∨
      ((st.lastGen g = st.gen ∧ Overwrites b d (st.lastOff g) x) ∧ st.lastOff g / 8 = off / 8) ∨
      OtherMarked t b st g xs off ∨ KilledIn t b off (x :: xs) := by
  have hlast : (∃ g', st.lastGen g' = st.gen ∧ st.lastOff g' / 8 = off / 8 ∧
      NextKills t b g' (st.lastOff g') (x :: xs)) ↔
      ((st.lastGen g = st.gen ∧ Overwrites b d (st.lastOff g) x) ∧ st.lastOff g / 8 = off / 8) ∨
        OtherMarked t b st g xs off := by
    constructor
    · rintro ⟨g', hgen, hoff, h⟩
      by_cases hg : g' = g
      · subst hg
        exact .inl ⟨⟨hgen, (nextKills_same hx).mp h⟩, hoff⟩
      · exact .inr ⟨g', hg, hgen, hoff, (nextKills_other hx hg).mp h⟩
    · rintro (⟨⟨hgen, h⟩, hoff⟩ | ⟨g', hg, hgen, hoff, h⟩)
      · exact ⟨g, hgen, hoff, (nextKills_same hx).mpr h⟩
      · exact ⟨g', hgen, hoff, (nextKills_other hx hg).mpr h⟩
  rw [Marked, hlast]
  tauto

omit hx

theorem lwwRecord_gen (hsab : lev.lwwSabotage = false) (h : ∀ g, st.lastGen g ≤ st.gen) :
    ∀ g, (lwwRecord lev t b x st).lastGen g ≤ (lwwRecord lev t b x st).gen := by
  have hset : ∀ (st : Lww) g, (∀ g, st.lastGen g ≤ st.gen) →
      ∀ g', (st.setLast g x).lastGen g' ≤ (st.setLast g x).gen := by
    intro st g h g'
    by_cases hg : g' = g
    · simp [setLast, hg]
    · simpa [setLast, hg] using h g'
  cases hx : t.setterAt b x with
  | none =>
    rw [lwwRecord_consumer hx]
    exact fun g => (h g).trans (Nat.le_succ _)
  | some r =>
    by_cases hkill : st.lastGen r.1 = st.gen ∧ Overwrites b r.2 (st.lastOff r.1) x
    · rw [lwwRecord_kill hsab hx hkill]
      exact hset _ _ h
    · rw [lwwRecord_keep hx hkill]
      exact hset _ _ h

end Step

theorem foldRecords_marked (hsab : lev.lwwSabotage = false) (xs : List ℕ) (st : Lww)
    (hgen : ∀ g, st.lastGen g ≤ st.gen) (off : ℕ) :
    isDead (foldRecords lev t b xs st).dead off = true ↔ Marked t b st xs off := by
  induction xs generalizing st with
  | nil => simp [foldRecords, Marked, NextKills, KilledIn]
  | cons x xs ih =>
    have hstep := ih (lwwRecord lev t b x st) (lwwRecord_gen hsab hgen)
    refine hstep.trans ?_
    cases hx : t.setterAt b x with
    | none =>
      rw [lwwRecord_consumer hx]
      exact marked_consumer hx hgen
    | some r =>
      obtain ⟨g, d⟩ := r
      rw [marked_setter hx]
      by_cases hkill : st.lastGen g = st.gen ∧ Overwrites b d (st.lastOff g) x
      · rw [lwwRecord_kill hsab hx hkill, marked_setLast hx, kill, isDead_markDead, or_assoc]
        simp only [hkill, true_and]
        rfl
      · rw [lwwRecord_keep hx hkill, marked_setLast hx]
        simp only [hkill, false_and, false_or]

theorem journalLww_dead (hsab : lev.lwwSabotage = false) (off : ℕ) :
    isDead (journalLww lev t b len).dead off = true ↔ KilledIn t b off (starts b len len 0) := by
  have h := foldRecords_marked (t := t) (b := b) hsab (starts b len len 0) .init
    (fun _ => Nat.zero_le _) off
  have hnone : ∀ g, init.lastGen g ≠ init.gen := fun _ => Nat.zero_ne_one
  rw [journalLww, lwwLoop_eq_foldl]
  refine h.trans ?_
  simp [Marked, isDead_init, hnone]

theorem killedIn_split (hxs : xs.Pairwise fun x y => x / 8 < y / 8) {off : ℕ}
    {pre post : List ℕ} (hsplit : xs = pre ++ off :: post) (h : KilledIn t b off xs) :
    ∃ g d, t.setterAt b off = some (g, d) ∧ NextKills t b g off post := by
  induction xs generalizing pre with
  | nil => simp at hsplit
  | cons x xs ih =>
    obtain ⟨hx, hxs⟩ := List.pairwise_cons.mp hxs
    cases pre with
    | nil =>
      obtain ⟨rfl, rfl⟩ := List.cons.inj hsplit
      rcases h with ⟨_, h⟩ | h
      · exact h
      · exact absurd h (not_killedIn_of_lt hx)
    | cons y pre =>
      obtain ⟨rfl, rfl⟩ := List.cons.inj hsplit
      rcases h with ⟨hunit, _⟩ | h
      · have := hx off (by simp)
        omega
      · exact ih hxs rfl h

end WinePpc64.Journal
