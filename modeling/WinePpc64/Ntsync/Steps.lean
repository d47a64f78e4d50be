import WinePpc64.Ntsync.Effects

namespace WinePpc64.Ntsync

open Function List Eff Move Pc State

variable {Sem Tid : Type} [DecidableEq Sem] {e : Env Sem} {s s' : State Sem Tid} {t t' : Tid}
  {eff : Eff Sem} {p p' : Pc Sem} {x : Sem}

def Pc.tried : Pc Sem → Option ℕ
  | .sect _ _ (.tryAll q _ _) | .waitAll q (.tryAll _) => some q
  | _ => none

theorem Pc.holds_congr (h : ∀ q, p.tried = some q → (s'.queue q).objs = (s.queue q).objs) :
    p.Holds s' x ↔ p.Holds s x := by
  cases p with
  | sect y b sp =>
    cases sp with
    | tryAll q tp qs => simp only [Pc.Holds, unlocked, h q rfl]
    | _ => rfl
  | waitAll q ap =>
    cases ap with
    | tryAll tp => simp only [Pc.Holds, unlocked, h q rfl]
    | _ => rfl
  | _ => rfl

variable {q : ℕ}

theorem Inv.tried_lt (hi : Inv e s) (h : (s.pc t).tried = some q) : q < s.fresh := by
  unfold tried at h
  split at h
  · rename_i x b q' tp qs hpc
    cases h
    exact (hi.allWaiter (hi.tryOk hpc).1).2.1
  · rename_i q' tp hpc
    cases h
    exact hi.ownFresh t q (by rw [hpc]; rfl)
  · cases h

theorem Inv.tried_move_lt (hi : Inv e s) (hp : s.pc t = p) (hm : Move e s p eff p')
    (h : p'.tried = some q) : q < s.fresh := by
  have hold (h : p.tried = some q) : q < s.fresh := hi.tried_lt (by rw [hp, h])
  have hok := hi.ok t
  have hown := hi.ownFresh t
  rw [hp] at hok hown
  cases hm with
  | wakeAll x b q' qs =>
    cases h
    exact (hi.allWaiter (hok.2.2 q (mem_cons_self ..))).2.1
  | tryWake => exact hold h
  | allTry q' =>
    cases h
    exact hown q rfl
  | tryOwn => exact hold h
  | user hu hu' => cases p' <;> first | cases h | cases hu'
  | unlock x b | unlockMutex x b => cases b <;> cases h
  | _ => cases h

variable {x : Sem} {f : Word.Fields}

theorem Inv.mem_allWaiters_tried (hi : Inv e s) (h : (s.pc t).tried = some q)
    (hx : x ∈ (s.queue q).objs) : q ∈ s.allWaiters x := by
  unfold tried at h
  split at h
  · rename_i y b q' tp qs hpc
    cases h
    obtain ⟨t', ap, hpc', hq⟩ := hi.allOwner q y (hi.tryOk hpc).1
    have hno : (s.pc t').holdsMutex = false := by
      rw [← Bool.not_eq_true]
      intro hmutex
      obtain rfl := hi.mutex_unique (by rw [hpc]; rfl) hmutex
      cases hpc.symm.trans hpc'
    rw [hpc'] at hno
    refine hi.all t' q ap x hpc' ?_
    cases ap with
    | lock => cases hq
    | sleep | relock => exact hx
    | _ => cases hno
  · rename_i q' tp hpc
    cases h
    exact hi.all t q _ x hpc hx
  · cases h

omit [DecidableEq Sem] in
theorem Pc.holdsMutex_of_tried (h : p.tried = some q) : p.holdsMutex = true := by
  unfold tried at h
  split at h
  · rfl
  · rfl
  · cases h

theorem Inv.waitAll_of_tried (hi : Inv e s) (h : (s.pc t).tried = some q)
    (hx : x ∈ (s.queue q).objs) : (s.word x).waitAll = true := by
  have hmem := hi.mem_allWaiters_tried h hx
  obtain hflag | h0 | ⟨t', q', rest, hpc⟩ := hi.flag x
  · exact hflag
  · have hhint := hi.hint x
    have hpos := length_pos_of_mem hmem
    omega
  have hmutex : (s.pc t').holdsMutex = true := by rw [hpc]; rfl
  obtain rfl := hi.mutex_unique (holdsMutex_of_tried h) hmutex
  rw [hpc] at h
  cases h

omit [DecidableEq Sem] in
theorem exists_holder [DecidableEq Tid] {P : Pc Sem → Prop} {A K : Prop}
    (h : P p' ↔ A ∨ P (s.pc t) ∧ K) (hK : ¬ K → P (s.pc t))
    (huniq : ∀ t t', P (s.pc t) → P (s.pc t') → t = t') :
    (∃ t', P (update s.pc t p' t')) ↔ A ∨ (∃ t', P (s.pc t')) ∧ K := by
  constructor
  · rintro ⟨t', ht'⟩
    by_cases heq : t' = t
    · subst heq
      rw [update_self] at ht'
      exact (h.mp ht').imp_right fun hp => ⟨⟨t', hp.1⟩, hp.2⟩
    rw [update_of_ne heq] at ht'
    refine .inr ⟨⟨t', ht'⟩, ?_⟩
    by_contra hno
    exact heq (huniq t' t ht' (hK hno))
  · rintro (hA | ⟨⟨t', ht'⟩, hk⟩)
    · exact ⟨t, by rw [update_self]; exact h.mpr (.inl hA)⟩
    by_cases heq : t' = t
    · subst heq
      exact ⟨t', by rw [update_self]; exact h.mpr (.inr ⟨ht', hk⟩)⟩
    · exact ⟨t', by rwa [update_of_ne heq]⟩

theorem fields_hold : (eff.fields x f).hold = true ↔
    eff = .takeHold x ∨ f.hold = true ∧ eff ≠ .giveBack x ∧ eff ≠ .holdDone x := by
  cases eff with
  | takeHold y | giveBack y | holdDone y =>
    by_cases hxy : x = y
    · simp [fields, hxy]
    · simp [fields, hxy, Ne.symm hxy]
  | _ =>
    simp only [fields]
    (try split) <;> simp

theorem fields_noFastpath : (eff.fields x f).noFastpath = f.noFastpath := by
  cases eff <;> simp only [fields] <;> (try split) <;> rfl

theorem fields_waitAll (h : f.waitAll = true) (hne : eff ≠ .clearFlag x) :
    (eff.fields x f).waitAll = true := by
  cases eff with
  | clearFlag y =>
    have hxy : x ≠ y := by
      rintro rfl
      exact hne rfl
    simp [fields, hxy, h]
  | _ =>
    simp only [fields]
    (try split) <;> first | exact h | rfl

theorem mem_anyWaiters_apply {w : ℕ × ℕ} (h : w ∈ s.anyWaiters x)
    (hne : ∀ y, eff ≠ .unqueueAny y w.1 w.2) : w ∈ (eff.apply t s).anyWaiters x := by
  cases eff with
  | queueAny y q i =>
    by_cases hxy : x = y
    · subst hxy
      simp [apply, h]
    · simpa [apply, update_of_ne hxy] using h
  | unqueueAny y q i =>
    by_cases hxy : x = y
    · subst hxy
      have hw : w ≠ (q, i) := by
        rintro rfl
        exact hne x rfl
      simpa [apply] using (mem_erase_of_ne hw).mpr h
    · simpa [apply, update_of_ne hxy] using h
  | _ => exact h

theorem mem_allWaiters_apply (hnd : (s.allWaiters x).Nodup) : q ∈ (eff.apply t s).allWaiters x ↔
      eff = .queueAll x q ∨ q ∈ s.allWaiters x ∧ eff ≠ .unqueueAll x q := by
  cases eff with
  | queueAll y q' =>
    by_cases hxy : x = y
    · subst hxy
      simp [apply, eq_comm, or_comm]
    · simp [apply, update_of_ne hxy, Ne.symm hxy]
  | unqueueAll y q' =>
    by_cases hxy : x = y
    · subst hxy
      simp [apply, hnd.mem_erase_iff, and_comm, eq_comm]
    · simp [apply, update_of_ne hxy, Ne.symm hxy]
  | _ => simp [apply]

theorem Eff.pend_of_not_holdsMutex (hg : Guard e s p eff) (hp : p.holdsMutex = false) {k : ℕ} :
    eff.pend x k = k := by
  cases eff with
  | incHint y =>
    cases hg.1.symm.trans hp
  | queueAll y q | unqueueAll y q =>
    obtain ⟨rest, rfl⟩ := hg
    cases hp
  | decHint y =>
    obtain ⟨q, rest, rfl⟩ := hg
    cases hp
  | _ => rfl

theorem Inv.offers_unique (hi : Inv e s) (t t' : Tid) (h : (s.pc t).Offers x)
    (h' : (s.pc t').Offers x) : t = t' :=
  hi.owner_unique h.lends.holds h'.lends.holds

theorem Inv.lends_unique (hi : Inv e s) (t t' : Tid) (h : (s.pc t).Lends x) (h' : (s.pc t').Lends x) : t = t' :=
  hi.owner_unique h.holds h'.holds

theorem Inv.pend_eq (hi : Inv e s) (hp : (s.pc t).holdsMutex = true) (x : Sem) :
    s.pend x = (s.pc t).pend x := by
  rw [State.pend, (hi.mutex t).mpr hp]

section Step

variable [DecidableEq Tid] (hi : Inv e s) (hm : Move e s (s.pc t) eff p') (hen : eff.enabled s = true)

include hi hm

theorem Inv.owner_after (hen : eff.enabled s = true) (x : Sem) (t' : Tid) :
    (s.after t eff p').owner x = some t' ↔
      ((s.after t eff p').pc t').Holds (s.after t eff p') x := by
  have hg := guard hi rfl hm hen
  have howner : (s.after t eff p').owner x = some t' ↔ _ := apply_owner
  by_cases heq : t' = t
  · subst heq
    have hcongr : p'.Holds (s.after t' eff p') x ↔ p'.Holds s x :=
      holds_congr (fun q hq => (apply_queue (hi.tried_move_lt rfl hm hq)).1)
    have hpc : (s.after t' eff p').pc t' = p' := update_self ..
    rw [hpc, hcongr, holds hi rfl hm, howner, hi.owner]
    by_cases hlock : eff = .lockObj x
    · simp [hlock]
    · simp [hlock]
  · have hpc : (s.after t eff p').pc t' = s.pc t' := update_of_ne heq ..
    have hcongr : (s.pc t').Holds (s.after t eff p') x ↔ (s.pc t').Holds s x :=
      holds_congr (fun q hq => (apply_queue (hi.tried_lt hq)).1)
    rw [hpc, hcongr, howner, ← hi.owner]
    constructor
    · rintro (⟨-, rfl⟩ | ⟨h, -⟩)
      · exact absurd rfl heq
      · exact h
    intro h
    refine .inr ⟨h, ?_, ?_⟩
    · -- a lock is taken when it is free
      rintro rfl
      rw [Guard, h] at hg
      cases hg
    · rintro rfl
      exact heq (hi.owner_unique ((hi.owner x t').mp h) hg)

theorem Inv.mutex_after (hen : eff.enabled s = true) (t' : Tid) :
    (s.after t eff p').mutex = some t' ↔ ((s.after t eff p').pc t').holdsMutex = true := by
  have hmutex : (s.after t eff p').mutex = some t' ↔ _ := apply_mutex
  by_cases heq : t' = t
  · subst heq
    have hpc : (s.after t' eff p').pc t' = p' := update_self ..
    rw [hpc, hmutex, hm.holdsMutex, hi.mutex]
    by_cases hlock : eff = .lockMutex
    · simp [hlock]
    · simp [hlock]
  · have hpc : (s.after t eff p').pc t' = s.pc t' := update_of_ne heq ..
    rw [hpc, hmutex, ← hi.mutex]
    constructor
    · rintro (⟨-, rfl⟩ | ⟨h, -⟩)
      · exact absurd rfl heq
      · exact h
    intro h
    refine .inr ⟨h, ?_, ?_⟩
    · rintro rfl
      rw [enabled, h] at hen
      cases hen
    · rintro rfl
      exact heq (hi.mutex_unique ((hi.mutex t').mp h) (guard hi rfl hm rfl))

theorem Inv.loan_after (hen : eff.enabled s = true) (x : Sem) :
    (s.after t eff p').loan x = true ↔ ∃ t', ((s.after t eff p').pc t').Offers x := by
  have hg := guard hi rfl hm hen
  have hloan : (s.after t eff p').loan x = true ↔ _ := apply_loan
  have hkeep : ¬ (eff ≠ .giveBack x ∧ ∀ q i, eff ≠ .place x q i) → (s.pc t).Offers x := by
    intro hno
    by_cases hback : eff = .giveBack x
    · subst hback
      exact hg
    · simp only [ne_eq, hback, not_false_eq_true, true_and, not_forall, not_not] at hno
      obtain ⟨q, i, rfl⟩ := hno
      exact hg.1
  rw [hloan, hi.loan]
  exact (exists_holder (P := fun p => p.Offers x) hm.offers hkeep hi.offers_unique).symm

theorem Inv.hold_after (hen : eff.enabled s = true) (hb : ∀ x, (s.after t eff p').entries x < 2 ^ 29)
    (x : Sem) :
    ((s.after t eff p').word x).hold = true ↔ ∃ t', ((s.after t eff p').pc t').Lends x := by
  have hg := guard hi rfl hm hen
  have hfields : ((s.after t eff p').word x).fields = _ := fields_apply hi hg hb
  have hhold : ((s.after t eff p').word x).hold = (eff.fields x (s.word x).fields).hold :=
    congrArg Word.Fields.hold hfields
  have hkeep : ¬ (eff ≠ .giveBack x ∧ eff ≠ .holdDone x) → (s.pc t).Lends x := by
    intro hno
    by_cases hback : eff = .giveBack x
    · subst hback
      exact Pc.Offers.lends hg
    · obtain rfl : eff = .holdDone x := by simpa [hback] using hno
      exact hg.1
  rw [hhold, fields_hold, show (s.word x).fields.hold = (s.word x).hold from rfl, hi.hold]
  exact (exists_holder (P := fun p => p.Lends x) hm.lends hkeep hi.lends_unique).symm

theorem Inv.waiters_after (hen : eff.enabled s = true) (hb : ∀ x, (s.after t eff p').entries x < 2 ^ 29)
    (x : Sem) : ((s.after t eff p').word x).waiters = (s.after t eff p').entries x := by
  have hg := guard hi rfl hm hen
  have hfields : ((s.after t eff p').word x).fields = _ := fields_apply hi hg hb
  have hwaiters : ((s.after t eff p').word x).waiters = (eff.fields x (s.word x).fields).waiters :=
    congrArg Word.Fields.waiters hfields
  have hold : (s.word x).fields.waiters = (s.anyWaiters x).length + (s.allWaiters x).length := hi.waiters x
  rw [hwaiters]
  change _ = (eff.apply t s).entries x
  cases eff with
  | queueAny y q i | queueAll y q =>
    by_cases hxy : x = y
    · subst hxy
      simp [fields, entries, apply, hold]
      omega
    · simp [fields, entries, apply, hold, hxy]
  | unqueueAny y q i =>
    by_cases hxy : x = y
    · subst hxy
      have hpos := length_pos_of_mem hg.2.2
      simp [fields, entries, apply, hold, length_erase_of_mem hg.2.2]
      omega
    · simp [fields, entries, apply, hold, hxy]
  | unqueueAll y q =>
    by_cases hxy : x = y
    · subst hxy
      have hmem := hi.mem_of_unqueueAll hg
      have hpos := length_pos_of_mem hmem
      simp [fields, entries, apply, hold, length_erase_of_mem hmem]
      omega
    · simp [fields, entries, apply, hold, hxy]
  | _ =>
    simp only [fields, entries, apply]
    first | exact hold | (split <;> exact hold)

theorem Inv.pend_after (hen : eff.enabled s = true) : (s.after t eff p').pend x = eff.pend x (s.pend x) := by
  have hg := guard hi rfl hm hen
  have hself : (s.after t eff p').pc t = p' := update_self ..
  have hmutex := hi.mutex_after hm hen
  by_cases hheld : (s.pc t).holdsMutex = true
  · rw [hi.pend_eq hheld, ← hm.pend]
    by_cases hheld' : p'.holdsMutex = true
    · simp only [State.pend, (hmutex t).mpr (by rw [hself, hheld']), hself]
    have hun : eff = .unlockMutex := by
      by_contra hne
      exact hheld' (hm.holdsMutex.mpr (.inr ⟨hheld, hne⟩))
    subst hun
    rw [Bool.not_eq_true] at hheld'
    rw [pend_of_not_holdsMutex hheld']
    rfl
  · rw [Bool.not_eq_true] at hheld
    rw [pend_of_not_holdsMutex hg hheld]
    by_cases hlock : eff = .lockMutex
    · subst hlock
      have hnone : s.mutex = none := Option.isNone_iff_eq_none.mp hen
      have hpend : p'.pend x = 0 := by
        rw [hm.pend]
        exact pend_of_not_holdsMutex hheld
      have hsome : (s.after t .lockMutex p').mutex = some t := rfl
      rw [State.pend, hsome, State.pend, hnone]
      simp only [hself, hpend]
    · have hun : eff ≠ .unlockMutex := by
        rintro rfl
        rw [Guard, hheld] at hg
        cases hg
      have hsame : (s.after t eff p').mutex = s.mutex := by
        cases eff <;> first | rfl | exact absurd rfl hlock | exact absurd rfl hun
      cases hs : s.mutex with
      | none => simp only [State.pend, hsame, hs]
      | some t' =>
        have hne : t' ≠ t := by
          rintro rfl
          rw [(hi.mutex t').mp hs] at hheld
          cases hheld
        have hpc : (s.after t eff p').pc t' = s.pc t' := update_of_ne hne ..
        simp only [State.pend, hsame, hs, hpc]

theorem Inv.hint_after (hen : eff.enabled s = true) (x : Sem) : (s.after t eff p').allHint x =
    ((s.after t eff p').allWaiters x).length + (s.after t eff p').pend x := by
  have hg := guard hi rfl hm hen
  rw [hi.pend_after hm hen]
  change (eff.apply t s).allHint x = ((eff.apply t s).allWaiters x).length + _
  have hhint := hi.hint x
  cases eff with
  | incHint y =>
    have hpend := hi.pend_eq hg.1 x
    rw [hg.2] at hpend
    by_cases hxy : x = y
    · subst hxy
      simp [Eff.apply, Eff.pend, hhint, hpend]
    · simp [Eff.apply, Eff.pend, hhint, hxy, hpend]
  | queueAll y q =>
    obtain ⟨rest, hpc⟩ := hg
    have hpend := hi.pend_eq (by rw [hpc]; rfl) x
    rw [hpc] at hpend
    by_cases hxy : x = y
    · subst hxy
      simp [Eff.apply, Eff.pend, hhint, hpend, Pc.pend]
    · simp [Eff.apply, Eff.pend, hhint, hxy, hpend, Pc.pend]
  | unqueueAll y q =>
    have hmem := hi.mem_of_unqueueAll hg
    have hpos := length_pos_of_mem hmem
    obtain ⟨rest, hpc⟩ := hg
    have hpend := hi.pend_eq (by rw [hpc]; rfl) x
    rw [hpc] at hpend
    by_cases hxy : x = y
    · subst hxy
      simp [Eff.apply, Eff.pend, hhint, hpend, Pc.pend, length_erase_of_mem hmem]
      omega
    · simp [Eff.apply, Eff.pend, hhint, hxy, hpend, Pc.pend]
  | decHint y =>
    obtain ⟨q, rest, hpc⟩ := hg
    have hpend := hi.pend_eq (by rw [hpc]; rfl) x
    rw [hpc] at hpend
    by_cases hxy : x = y
    · subst hxy
      simp [Eff.apply, Eff.pend, hhint, hpend, Pc.pend]
    · simp [Eff.apply, Eff.pend, hhint, hxy, hpend, Pc.pend]
  | _ => exact hhint

theorem Inv.flag_after (hen : eff.enabled s = true) (hb : ∀ x, (s.after t eff p').entries x < 2 ^ 29)
    (x : Sem) : ((s.after t eff p').word x).waitAll = true ∨ (s.after t eff p').allHint x = 0 ∨
      ∃ t' q rest, (s.after t eff p').pc t' = .waitAll q (.flag x rest) := by
  have hg := guard hi rfl hm hen
  have hfields : ((s.after t eff p').word x).fields = _ := fields_apply hi hg hb
  have hall : ((s.after t eff p').word x).waitAll = (eff.fields x (s.word x).fields).waitAll :=
    congrArg Word.Fields.waitAll hfields
  have hself : (s.after t eff p').pc t = p' := update_self ..
  obtain hflag | h0 | ⟨t', q, rest, hpc⟩ := hi.flag x
  · by_cases hclear : eff = .clearFlag x
    · subst hclear
      obtain ⟨q, rest, hpc⟩ := hg
      have hok := hi.ok t
      rw [hpc] at hok
      exact .inr (.inl hok.2.2)
    · exact .inl (by rw [hall]; exact fields_waitAll hflag hclear)
  · by_cases hinc : eff = .incHint x
    · subst hinc
      have hflag : ∃ q rest, p' = .waitAll q (.flag x rest) := by
        generalize s.pc t = p at hm
        cases hm with
        | incFirst q x rest _ => exact ⟨q, rest, rfl⟩
        | incMore q x rest hne => exact absurd h0 hne
        | tryWake _ _ _ _ h => cases h
        | tryOwn _ h => cases h
        | scan _ _ _ h => cases h
      obtain ⟨q, rest, hp'⟩ := hflag
      exact .inr (.inr ⟨t, q, rest, hself.trans hp'⟩)
    · refine .inr (.inl ?_)
      change (eff.apply t s).allHint x = 0
      cases eff with
      | incHint y =>
        have hxy : x ≠ y := by
          rintro rfl
          exact hinc rfl
        simpa [apply, hxy] using h0
      | decHint y =>
        by_cases hxy : x = y
        · subst hxy
          simp [apply, h0]
        · simpa [apply, hxy] using h0
      | _ => exact h0
  · by_cases heq : t' = t
    · subst heq
      rw [hpc] at hm
      cases hm with
      | flag => exact .inl (by rw [hall]; simp [fields])
      | user hu => cases hu
      | took _ hu | release _ _ hu | releaseWake _ _ hu | ioctl _ _ hu | enterAny _ hu => cases hu
    · exact .inr (.inr ⟨t', q, rest, (update_of_ne heq ..).trans hpc⟩)

end Step

end WinePpc64.Ntsync
