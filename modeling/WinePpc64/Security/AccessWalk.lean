import WinePpc64.Security.Token

namespace WinePpc64.Security

open Lib

section Bits

variable {c d e : Rights}

def Among (c d : Rights) : Prop := ∀ i, c.getLsbD i = true → d.getLsbD i = true

theorem Among.trans (h : Among c d) (h' : Among d e) : Among c e := fun i hi => h' i (h i hi)

theorem eq_iff_getLsbD : c = d ↔ ∀ i, c.getLsbD i = d.getLsbD i :=
  ⟨fun h _ => h ▸ rfl, fun h => BitVec.eq_of_getLsbD_eq fun i _ => h i⟩

theorem and_eq_zero_iff : c &&& d = 0#32 ↔ ∀ i, c.getLsbD i = true → d.getLsbD i = false := by
  refine eq_iff_getLsbD.trans (forall_congr' fun i => ?_)
  rw [BitVec.getLsbD_and, BitVec.getLsbD_zero, Bool.and_eq_false_imp]

theorem and_not_eq_zero_iff : c &&& ~~~d = 0#32 ↔ Among c d := by
  refine and_eq_zero_iff.trans (forall₂_congr fun i hi => ?_)
  simp [BitVec.lt_of_getLsbD hi]

theorem and_eq_right_iff : c &&& d = d ↔ Among d c := by
  refine eq_iff_getLsbD.trans (forall_congr' fun i => ?_)
  rw [BitVec.getLsbD_and, Bool.and_eq_right_iff_imp]

variable {i j : ℕ}

theorem twoPow_getLsbD (hi : i < 32) : (BitVec.twoPow 32 i).getLsbD j = true ↔ j = i := by
  rw [BitVec.getLsbD_twoPow, Bool.and_eq_true, decide_eq_true_eq, decide_eq_true_eq]
  omega

theorem twoPow_and_eq_zero (hi : i < 32) (c : Rights) : BitVec.twoPow 32 i &&& c = 0#32 ↔ c.getLsbD i = false := by
  rw [and_eq_zero_iff]
  simp only [twoPow_getLsbD hi, forall_eq]

end Bits

def allowedRights (m : ByteMem) (t : Token) (mapping : GenericMap) (base : Rights) (aces : List ℕ) : Rights :=
  aces.foldl (fun c ace => if allows m t ace then c ||| aceRights m mapping ace else c) base

section Walk

variable {m : ByteMem} {t : Token} {mapping : GenericMap} {desired current denied : Rights}

variable {aces : List ℕ}

theorem allowedRights_getLsbD {base : Rights} {i : ℕ} : (allowedRights m t mapping base aces).getLsbD i = true ↔
      base.getLsbD i = true ∨ ∃ ace ∈ aces, allows m t ace = true ∧ (aceRights m mapping ace).getLsbD i = true := by
  induction aces generalizing base with
  | nil => simp [allowedRights]
  | cons ace rest ih =>
    have hcons : allowedRights m t mapping base (ace :: rest) =
        allowedRights m t mapping (if allows m t ace then base ||| aceRights m mapping ace else base) rest := rfl
    rw [hcons, ih]
    cases hallow : allows m t ace with
    | false => simp [hallow]
    | true => simp [hallow, or_assoc]

variable {ace : ℕ}

theorem inheritOnly_idle (h : (aceFlags m ace &&& inheritOnlyAce != 0) = true) :
    denies m t ace = false ∧ allows m t ace = false := by
  simp [denies, allows, applies, h]

theorem not_allows_of_denies (h : denies m t ace = true) : allows m t ace = false := by
  simp only [denies, applies, Bool.and_eq_true, beq_iff_eq] at h
  simp [allows, applies, h.1.2]

def Blocks (m : ByteMem) (t : Token) (mapping : GenericMap) (desired : Rights) (ace : ℕ) : Prop :=
  denies m t ace = true ∧ desired &&& aceRights m mapping ace ≠ 0

structure Covered (m : ByteMem) (t : Token) (mapping : GenericMap) (desired base : Rights) (aces : List ℕ) : Prop where
  all : Among desired (allowedRights m t mapping base aces)
  before : ∀ pre ace post, aces = pre ++ ace :: post → Blocks m t mapping desired ace →
    Among desired (allowedRights m t mapping base pre)

theorem covered_of_among (h : Among desired current) : Covered m t mapping desired current aces := by
  have hmore (l : List ℕ) : Among desired (allowedRights m t mapping current l) :=
    fun i hi => allowedRights_getLsbD.mpr (.inl (h i hi))
  exact ⟨hmore _, fun pre _ _ _ _ => hmore pre⟩

theorem covered_nil : Covered m t mapping desired current [] ↔ Among desired current :=
  ⟨fun h => h.all, covered_of_among⟩

theorem allowedRights_congr {base base' : Rights}
    (h : ∀ i, desired.getLsbD i = true → (base.getLsbD i = true ↔ base'.getLsbD i = true)) :
    Among desired (allowedRights m t mapping base aces) ↔ Among desired (allowedRights m t mapping base' aces) := by
  constructor
  · intro hall i hi
    rw [allowedRights_getLsbD, ← h i hi, ← allowedRights_getLsbD]
    exact hall i hi
  · intro hall i hi
    rw [allowedRights_getLsbD, h i hi, ← allowedRights_getLsbD]
    exact hall i hi

theorem forall_split_cons {α : Type} {a : α} {l : List α} {P : List α → α → Prop} :
    (∀ pre x post, a :: l = pre ++ x :: post → P pre x) ↔
      P [] a ∧ ∀ pre x post, l = pre ++ x :: post → P (a :: pre) x := by
  constructor
  · intro h
    exact ⟨h [] a l rfl, fun pre x post heq => h (a :: pre) x post (by rw [heq]; rfl)⟩
  · rintro ⟨hhead, hrest⟩ pre x post heq
    cases pre with
    | nil =>
      obtain ⟨rfl, -⟩ := List.cons.inj heq
      exact hhead
    | cons b pre =>
      obtain ⟨rfl, htail⟩ := List.cons.inj heq
      exact hrest pre x post htail

theorem covered_cons {rest : List ℕ} {next : Rights} (hblock : ¬Blocks m t mapping desired ace)
    (hnext : ∀ i, desired.getLsbD i = true → (next.getLsbD i = true ↔
      (if allows m t ace then current ||| aceRights m mapping ace else current).getLsbD i = true)) :
    Covered m t mapping desired next rest ↔ Covered m t mapping desired current (ace :: rest) := by
  have hcons (l : List ℕ) : Among desired (allowedRights m t mapping next l) ↔
      Among desired (allowedRights m t mapping current (ace :: l)) := allowedRights_congr hnext
  constructor
  · intro h
    refine ⟨(hcons rest).mp h.all, forall_split_cons.mpr ⟨fun hx => absurd hx hblock, ?_⟩⟩
    exact fun pre x post heq hx => (hcons pre).mp (h.before pre x post heq hx)
  · intro h
    refine ⟨(hcons rest).mpr h.all, fun pre x post heq hx => ?_⟩
    exact (hcons pre).mpr ((forall_split_cons.mp h.before).2 pre x post heq hx)

theorem covered_blocked {rest : List ℕ} (hblock : Blocks m t mapping desired ace) :
    Covered m t mapping desired current (ace :: rest) ↔ Among desired current :=
  ⟨fun h => h.before [] ace rest rfl hblock, covered_of_among⟩

theorem walk_specific (hmax : desired &&& maximumAllowed = 0) (hne : desired ≠ 0)
    (hdenied : ∀ i, desired.getLsbD i = true → denied.getLsbD i = false) :
    Among desired (walk m t mapping desired aces current denied).1 ↔ Covered m t mapping desired current aces := by
  have hmax : (desired &&& maximumAllowed != 0) = false := by
    rw [hmax]
    rfl
  have hne : (desired == 0) = false := beq_eq_false_iff_ne.mpr hne
  induction aces generalizing current denied with
  | nil => exact covered_nil.symm
  | cons ace rest ih =>
    unfold walk
    split
    next hinherit =>
      obtain ⟨hdeny, hallow⟩ := inheritOnly_idle hinherit
      refine (ih hdenied).trans ?_
      apply covered_cons fun hb => by cases hb.1.symm.trans hdeny
      rw [hallow]
      exact fun _ _ => Iff.rfl
    next =>
      unfold visitAce
      rw [hmax, hne]
      cases hdeny : denies m t ace with
      | true =>
        simp only [if_true, Bool.false_eq_true, if_false, Bool.or_false]
        split
        next htouch =>
          rw [covered_blocked ⟨hdeny, by simpa using htouch⟩]
        next htouch =>
          have htouch : desired &&& aceRights m mapping ace = 0 := by simpa using htouch
          refine (ih ?_).trans ?_
          · intro i hi
            rw [BitVec.getLsbD_or, BitVec.getLsbD_and, hdenied i hi, and_eq_zero_iff.mp htouch i hi]
            rfl
          · apply covered_cons fun hb => hb.2 htouch
            rw [not_allows_of_denies hdeny]
            exact fun _ _ => Iff.rfl
      | false =>
        have hblock : ¬Blocks m t mapping desired ace := fun hb => by cases hb.1.symm.trans hdeny
        simp only [Bool.false_eq_true, if_false, Bool.or_false]
        split
        next hallow =>
          refine (ih hdenied).trans ?_
          apply covered_cons hblock
          intro i hi
          rw [hallow, if_pos rfl, BitVec.getLsbD_or, BitVec.getLsbD_or, BitVec.getLsbD_and, BitVec.getLsbD_not,
            hdenied i hi]
          simp [BitVec.lt_of_getLsbD hi]
        next hallow =>
          refine (ih hdenied).trans ?_
          apply covered_cons hblock
          rw [if_neg hallow]
          exact fun _ _ => Iff.rfl

theorem walk_maximum (m : ByteMem) (t : Token) (mapping : GenericMap) (aces : List ℕ) (current denied : Rights)
    (hmax : desired &&& maximumAllowed ≠ 0) (i : ℕ) :
    ((walk m t mapping desired aces current denied).1.getLsbD i = true ↔ current.getLsbD i = true ∨
      ∃ ace ∈ aces, allows m t ace = true ∧ (aceRights m mapping ace).getLsbD i = true) ∧
    ((walk m t mapping desired aces current denied).2.getLsbD i = true ↔ denied.getLsbD i = true ∨
      ∃ ace ∈ aces, denies m t ace = true ∧ (aceRights m mapping ace).getLsbD i = true) := by
  have hne : (desired == 0) = false := by
    rw [beq_eq_false_iff_ne]
    rintro rfl
    exact hmax rfl
  have hmax : (desired &&& maximumAllowed != 0) = true := by simpa using hmax
  induction aces generalizing current denied with
  | nil => simp [walk]
  | cons ace rest ih =>
    unfold walk
    split
    next hinherit =>
      obtain ⟨hdeny, hallow⟩ := inheritOnly_idle (t := t) hinherit
      obtain ⟨hc, hd⟩ := ih current denied
      rw [hc, hd]
      simp [hdeny, hallow]
    next =>
      unfold visitAce
      rw [hmax, hne]
      cases hdeny : denies m t ace with
      | true =>
        have hallow := not_allows_of_denies hdeny
        simp only [if_true, Bool.or_false, Bool.false_eq_true, if_false]
        obtain ⟨hc, hd⟩ := ih current (denied ||| aceRights m mapping ace)
        rw [hc, hd]
        simp [hdeny, hallow, or_assoc]
      | false =>
        simp only [Bool.false_eq_true, if_false, if_true, Bool.or_false]
        split
        next hallow =>
          simp only [Bool.false_eq_true, if_false]
          obtain ⟨hc, hd⟩ := ih (current ||| aceRights m mapping ace) denied
          rw [hc, hd]
          simp [hdeny, hallow, or_assoc]
        next hallow =>
          simp only [Bool.false_eq_true, if_false]
          obtain ⟨hc, hd⟩ := ih current denied
          rw [hc, hd]
          simp [hdeny, hallow]

end Walk

end WinePpc64.Security
