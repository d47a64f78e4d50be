import WinePpc64.Ntsync.Steps

namespace WinePpc64.Ntsync

open Function List Eff Move State Word

variable {Sem Tid : Type} [DecidableEq Sem] {e : Env Sem} {s s' : State Sem Tid} {t t' : Tid}
  {eff : Eff Sem} {p p' : Pc Sem} {q : ℕ} {x : Sem} {ap : AllPc Sem}

theorem apply_fresh : s.fresh ≤ (eff.apply t s).fresh := by
  cases eff with
  | newQueue objs all => exact Nat.le_succ _
  | _ => exact Nat.le_refl _

section Waits

variable [DecidableEq Tid] (hi : Inv e s) (hm : Move e s (s.pc t) eff p')

include hi hm

theorem Inv.nodup_after (q : ℕ) (h : ((s.after t eff p').queue q).all = true) :
    ((s.after t eff p').queue q).objs.Nodup := by
  change ((eff.apply t s).queue q).all = true at h
  change ((eff.apply t s).queue q).objs.Nodup
  cases eff with
  | newQueue objs all =>
    by_cases hq : q = s.fresh
    · subst hq
      simp only [apply, update_self] at h ⊢
      generalize s.pc t = p at hm
      cases hm with
      | enterAny => cases h
      | enterAll objs hnd => exact hnd
      | tryWake _ _ _ _ h => cases h
      | tryOwn _ h => cases h
      | scan _ _ _ h => cases h
    · simp only [apply, update_of_ne hq] at h ⊢
      exact hi.nodup q h
  | place x q' i | claimAll q' =>
    by_cases hq : q = q'
    · subst hq
      simp only [apply, update_self] at h ⊢
      exact hi.nodup q h
    · simp only [apply, update_of_ne hq] at h ⊢
      exact hi.nodup q h
  | _ => exact hi.nodup q h

theorem Inv.ownFresh_after (t' : Tid) (q : ℕ) (h : ((s.after t eff p').pc t').own = some q) :
    q < (s.after t eff p').fresh := by
  have hle : s.fresh ≤ (s.after t eff p').fresh := apply_fresh
  by_cases heq : t' = t
  · subst heq
    rw [show (s.after t' eff p').pc t' = p' from update_self ..] at h
    obtain hold | ⟨rfl, -, all, rfl⟩ := hm.own h
    · exact (hi.ownFresh t' q hold).trans_le hle
    · exact Nat.lt_succ_self _
  · rw [show (s.after t eff p').pc t' = s.pc t' from update_of_ne heq ..] at h
    exact (hi.ownFresh t' q h).trans_le hle

omit [DecidableEq Tid] in
theorem Inv.own_ne (hne : t' ≠ t) (h : p'.own = some q) (h' : (s.pc t').own = some q) : False := by
  obtain hold | ⟨rfl, -⟩ := hm.own h
  · exact hne (hi.ownInj t' t q h' hold)
  · exact Nat.lt_irrefl _ (hi.ownFresh t' _ h')

theorem Inv.ownInj_after (t₁ t₂ : Tid) (q : ℕ) (h₁ : ((s.after t eff p').pc t₁).own = some q)
    (h₂ : ((s.after t eff p').pc t₂).own = some q) : t₁ = t₂ := by
  have hself : (s.after t eff p').pc t = p' := update_self ..
  have hother (t' : Tid) (hne : t' ≠ t) : (s.after t eff p').pc t' = s.pc t' := update_of_ne hne ..
  by_cases e₁ : t₁ = t
  · subst e₁
    by_contra hne
    rw [hself] at h₁
    rw [hother t₂ (Ne.symm hne)] at h₂
    exact hi.own_ne hm (Ne.symm hne) h₁ h₂
  · rw [hother t₁ e₁] at h₁
    by_cases e₂ : t₂ = t
    · subst e₂
      rw [hself] at h₂
      exact (hi.own_ne hm e₁ h₂ h₁).elim
    · rw [hother t₂ e₂] at h₂
      exact hi.ownInj t₁ t₂ q h₁ h₂

theorem Inv.any_after (hen : eff.enabled s = true) (t' : Tid) (q j : ℕ) (x : Sem)
    (hown : ((s.after t eff p').pc t').own = some q) (hj : ((s.after t eff p').pc t').AnyQueued j)
    (hx : ((s.after t eff p').queue q).objs[j]? = some x) : (q, j) ∈ (s.after t eff p').anyWaiters x := by
  have hg := guard hi rfl hm hen
  change ((eff.apply t s).queue q).objs[j]? = some x at hx
  change (q, j) ∈ (eff.apply t s).anyWaiters x
  by_cases heq : t' = t
  · subst heq
    rw [show (s.after t' eff p').pc t' = p' from update_self ..] at hown hj
    obtain hold | ⟨rfl, objs, all, rfl⟩ := hm.own hown
    · rw [(apply_queue (hi.ownFresh t' q hold)).1] at hx
      obtain ⟨hown', hj', hne⟩ | rfl := own_anyQueued hi rfl hm hown hj hx
      · exact mem_anyWaiters_apply (hi.any t' q j x hown' hj' hx) hne
      · simp [apply]
    · generalize s.pc t' = p at hm
      cases hm with
      | enterAny => exact absurd hj (Nat.not_lt_zero j)
      | enterAll => cases hj
      | tryWake _ _ _ _ h => cases h
      | tryOwn _ h => cases h
      | scan _ _ _ h => cases h
  · rw [show (s.after t eff p').pc t' = s.pc t' from update_of_ne heq ..] at hown hj
    rw [(apply_queue (hi.ownFresh t' q hown)).1] at hx
    refine mem_anyWaiters_apply (hi.any t' q j x hown hj hx) ?_
    rintro y rfl
    exact heq (hi.ownInj t' t q hown hg.2.1)

omit [DecidableEq Tid] hm in
theorem Inv.ne_unqueueAll (hg : Guard e s (s.pc t) eff) (hne : t' ≠ t)
    (hpc : s.pc t' = .waitAll q ap) : eff ≠ .unqueueAll x q := by
  rintro rfl
  obtain ⟨rest, hpc'⟩ := hg
  exact hne (hi.ownInj t' t q (by rw [hpc]; rfl) (by rw [hpc']; rfl))

theorem Inv.all_after (hen : eff.enabled s = true) (t' : Tid) (q : ℕ) (ap : AllPc Sem) (x : Sem)
    (hpc : (s.after t eff p').pc t' = .waitAll q ap)
    (hq : ap.Queued ((s.after t eff p').queue q).objs x) : q ∈ (s.after t eff p').allWaiters x := by
  have hg := guard hi rfl hm hen
  change ap.Queued ((eff.apply t s).queue q).objs x at hq
  change q ∈ (eff.apply t s).allWaiters x
  rw [mem_allWaiters_apply (hi.allNodup x)]
  by_cases heq : t' = t
  · subst heq
    rw [show (s.after t' eff p').pc t' = p' from update_self ..] at hpc
    by_cases hold : ∃ ap₀, s.pc t' = .waitAll q ap₀
    · obtain ⟨ap₀, hpc₀⟩ := hold
      have hlt : q < s.fresh := hi.ownFresh t' q (by rw [hpc₀]; rfl)
      rw [(apply_queue hlt).1] at hq
      rw [hpc₀] at hm
      obtain ⟨ap', hp', hiff⟩ | ⟨hp', -⟩ := allQueued hi hpc₀ hm
      · obtain rfl : ap' = ap := by
          cases hp'.symm.trans hpc
          rfl
        obtain heff | ⟨hqueued, hne⟩ := (hiff x).mp hq
        · exact .inl heff
        · exact .inr ⟨hi.all t' q ap₀ x hpc₀ hqueued, hne⟩
      · cases hp'.symm.trans hpc
    · obtain ⟨rfl, -⟩ := hm.waitAll_lock hpc fun ap₀ h => hold ⟨ap₀, h⟩
      cases hq
  · rw [show (s.after t eff p').pc t' = s.pc t' from update_of_ne heq ..] at hpc
    have hlt : q < s.fresh := hi.ownFresh t' q (by rw [hpc]; rfl)
    rw [(apply_queue hlt).1] at hq
    exact .inr ⟨hi.all t' q ap x hpc hq, hi.ne_unqueueAll hg heq hpc⟩

omit [DecidableEq Tid] in
theorem Inv.queued_after (hpc : s.pc t = .waitAll q ap)
    (h : eff = .queueAll x q ∨ ap.Queued (s.queue q).objs x ∧ eff ≠ .unqueueAll x q) :
    ∃ ap', p' = .waitAll q ap' ∧ ap'.Queued ((eff.apply t s).queue q).objs x := by
  have hlt : q < s.fresh := hi.ownFresh t q (by rw [hpc]; rfl)
  rw [(apply_queue hlt).1]
  rw [hpc] at hm
  obtain ⟨ap', hp', hiff⟩ | ⟨-, rfl, rfl⟩ := allQueued hi hpc hm
  · exact ⟨ap', hp', (hiff x).mpr h⟩
  · obtain h | h := h
    · cases h
    · exact h.1.elim

theorem Inv.allOwner_after (hen : eff.enabled s = true) (q : ℕ) (x : Sem)
    (h : q ∈ (s.after t eff p').allWaiters x) : ∃ t' ap, (s.after t eff p').pc t' = .waitAll q ap ∧
      ap.Queued ((s.after t eff p').queue q).objs x := by
  have hg := guard hi rfl hm hen
  have hself : (s.after t eff p').pc t = p' := update_self ..
  change q ∈ (eff.apply t s).allWaiters x at h
  rw [mem_allWaiters_apply (hi.allNodup x)] at h
  obtain rfl | ⟨hmem, hne⟩ := h
  · obtain ⟨rest, hpc⟩ := hg
    obtain ⟨ap', hp', hq⟩ := hi.queued_after hm hpc (.inl rfl)
    exact ⟨t, ap', hself.trans hp', hq⟩
  obtain ⟨t', ap, hpc, hq⟩ := hi.allOwner q x hmem
  by_cases heq : t' = t
  · subst heq
    obtain ⟨ap', hp', hq'⟩ := hi.queued_after hm hpc (.inr ⟨hq, hne⟩)
    exact ⟨t', ap', hself.trans hp', hq'⟩
  · refine ⟨t', ap, (update_of_ne heq ..).trans hpc, ?_⟩
    change ap.Queued ((eff.apply t s).queue q).objs x
    rwa [(apply_queue (hi.allWaiter hmem).2.1).1]

theorem Inv.allNodup_after (hen : eff.enabled s = true) (x : Sem) :
    ((s.after t eff p').allWaiters x).Nodup := by
  have hg := guard hi rfl hm hen
  change ((eff.apply t s).allWaiters x).Nodup
  cases eff with
  | queueAll y q =>
    by_cases hxy : x = y
    · subst hxy
      obtain ⟨rest, hpc⟩ := hg
      have hno : q ∉ s.allWaiters x := by
        intro hmem
        obtain ⟨t', ap, hpc', hq⟩ := hi.allOwner q x hmem
        obtain rfl := hi.ownInj t' t q (by rw [hpc']; rfl) (by rw [hpc]; rfl)
        cases hpc.symm.trans hpc'
        exact hq.2 (mem_cons_self ..)
      simpa [apply] using nodup_append.mpr
        ⟨hi.allNodup x, nodup_singleton q, fun a ha b hb hab => hno (by simp_all)⟩
    · simpa [apply, update_of_ne hxy] using hi.allNodup x
  | unqueueAll y q =>
    by_cases hxy : x = y
    · subst hxy
      simpa [apply] using (hi.allNodup x).erase q
    · simpa [apply, update_of_ne hxy] using hi.allNodup x
  | _ => exact hi.allNodup x

end Waits

section Places

theorem Body.ok_apply {b : Body} {sp : SectPc Sem}
    (hlt : ∀ q, (Pc.sect x b sp).own = some q → q < s.fresh) (h : b.Ok s x) : b.Ok (eff.apply t s) x := by
  cases b with
  | release n => trivial
  | queue q i | scan q i | unqueue q i =>
    obtain ⟨hobjs, hall⟩ := apply_queue (hlt q rfl)
    exact ⟨hall.trans h.1, by rw [hobjs]; exact h.2⟩

variable {locked : Option Sem} {tp tp' : TryPc Sem}

theorem TryMove.ok (hm : TryMove s q locked tp eff tp')
    (hnd : (s.queue q).objs.Nodup) (h : tp.Ok s q locked) : tp'.Ok (eff.apply t s) q locked := by
  cases hm with
  | locked => exact ⟨suffix_refl _, fun x hx hno => absurd hx hno⟩
  | lock x todo => exact (suffix_cons x todo).trans h
  | checked => exact fun x hx => h.2 x hx not_mem_nil
  | empty | lost | taken => exact suffix_refl _
  | check x rest hc =>
    refine ⟨(suffix_cons x rest).trans h.1, ?_⟩
    intro y hy hno
    by_cases hyx : y = x
    · subst hyx
      exact hc
    · exact h.2 y hy fun hmem => (mem_cons.mp hmem).elim hyx hno
  | claim =>
    have hobjs : (((claimAll q).apply t s).queue q).objs = (s.queue q).objs := by simp [apply]
    exact ⟨by rw [hobjs], h⟩
  | warn x rest hc => exact absurd hc (h.2 x (mem_cons_self ..))
  | take x rest hc =>
    refine ⟨(suffix_cons x rest).trans h.1, ?_⟩
    intro y hy
    have hyx : y ≠ x := by
      rintro rfl
      exact (nodup_cons.mp (hnd.sublist h.1.sublist)).1 hy
    have hword : ((takeAll x q).apply t s).word y = s.word y := update_of_ne hyx ..
    rw [hword]
    exact h.2 y (mem_cons_of_mem _ hy)
  | unlock x todo => exact (suffix_cons x todo).trans h

theorem TryMove.allWaiters
    (hm : TryMove s q locked tp eff tp') : (eff.apply t s).allWaiters = s.allWaiters := by
  cases hm <;> rfl

theorem ScanMove.ok {wakes all : Bool} {sp sp' : ScanPc} (hm : ScanMove s x sp eff sp')
    (h : (SectPc.scan all sp).Ok s x wakes) : (SectPc.scan all sp').Ok (eff.apply t s) x wakes := by
  cases hm with
  | takeHold w rest hc => exact h
  | place q i rest hq => exact ⟨h.1, (suffix_cons _ rest).trans h.2⟩
  | skip q i rest hq => exact ⟨h.1, (suffix_cons _ rest).trans h.2⟩
  | holdDone rest => exact h

theorem Move.ok (hi : Inv e s) (hp : s.pc t = p) (hm : Move e s p eff p') : p'.Ok (eff.apply t s) := by
  have hok := hi.ok t
  have hlt := hi.ownFresh t
  rw [hp] at hok hlt
  cases hm with
  | user hu hu' => exact Pc.ok_of_user hu'
  | took | release | anyReturn | allReturn => trivial
  | releaseWake | ioctl => exact ⟨trivial, trivial⟩
  | enterAny objs hu => simp [Pc.Ok, apply]
  | enterAll objs hnd => simp [Pc.Ok, AllPc.Ok, apply]
  | lock | noHint | hint | mutex | devLock | overflow | queue | unqueue | scanned | giveBack | unlockAll =>
    exact ⟨hok.1, trivial⟩
  | add => exact ⟨trivial, rfl, suffix_refl _⟩
  | addAll => exact ⟨trivial, rfl, fun q hq => hq⟩
  | scanBody => exact ⟨hok.1, rfl, suffix_refl _⟩
  | wakeAny => exact ⟨hok.1, hok.2.1, suffix_refl _⟩
  | wakeAll => exact ⟨hok.1, hok.2.1, hok.2.2, suffix_refl _⟩
  | tryWake x b q qs h =>
    obtain ⟨hq, htry⟩ := hi.tryOk hp
    refine ⟨Body.ok_apply hlt hok.1, hok.2.1, ?_, h.ok (hi.nodup_allWaiter hq) htry⟩
    rw [h.allWaiters]
    exact hok.2.2.1
  | triedWake x b q qs => exact ⟨hok.1, hok.2.1, fun q' hq' => hok.2.2.1 q' (mem_cons_of_mem _ hq')⟩
  | scan x b all h => exact ⟨Body.ok_apply hlt hok.1, h.ok hok.2⟩
  | unlock x b | unlockMutex x b =>
    cases b with
    | release n => trivial
    | queue q i | scan q i | unqueue q i => exact hok.1.1
  | anyQueue x q i hx | anyScan x q i hx | anyUnqueue x q i hx => exact ⟨⟨hok, hx⟩, trivial⟩
  | anyQueued | anyChecked | anyWoken => exact hok
  | allLock | allTry | allRelock => exact ⟨hok.1, suffix_refl _⟩
  | incFirst q x rest h0 =>
    have hhint := hi.hint x
    have hnil : s.allWaiters x = [] := eq_nil_of_length_eq_zero (by omega)
    exact ⟨hok.1, hok.2, hnil⟩
  | incMore q x rest h0 => exact hok
  | flag q x rest => exact ⟨hok.1, hok.2.1⟩
  | allAdd q x rest => exact ⟨hok.1, (suffix_cons x rest).trans hok.2⟩
  | tryOwn q h =>
    obtain ⟨hnd, htry⟩ := hi.allOk hp
    exact ⟨(apply_queue (hlt q rfl)).2.trans hok.1, h.ok hnd htry⟩
  | triedOwn | allUnlock | allWoken | allDeleted => exact ⟨hok.1, trivial⟩
  | allDel q x rest => exact hok
  | decLast q x rest h0 => exact ⟨hok.1, hok.2, by simpa [apply] using h0⟩
  | decMore q x rest h0 => exact ⟨hok.1, (suffix_cons x rest).trans hok.2⟩
  | clear q x rest => exact ⟨hok.1, (suffix_cons x rest).trans hok.2.1⟩

variable {t' : Tid} (hi : Inv e s) (hg : Guard e s (s.pc t) eff) (hne : t' ≠ t)

include hi hg hne

variable (hb : ∀ x, (eff.apply t s).entries x < 2 ^ 29)
include hb

theorem Inv.count_other (htried : (s.pc t').tried = some q) (hx : x ∈ (s.queue q).objs)
    (hholds : (s.pc t').Holds s x) : ((eff.apply t s).word x).count = (s.word x).count := by
  have hno : ¬ (s.pc t).Holds s x := fun h => hne (hi.owner_unique hholds h)
  have hcount : ((eff.apply t s).word x).count = (eff.fields x (s.word x).fields).count :=
    congrArg Word.Fields.count (fields_apply hi hg hb)
  rw [hcount]
  exact fields_count hg hno (hi.waitAll_of_tried htried hx)

theorem TryPc.ok_other (htried : (s.pc t').tried = some q)
    (hholds : ∀ x, locked = some x ∨ tp.Holds (s.unlocked q locked) x → (s.pc t').Holds s x)
    (h : tp.Ok s q locked) : tp.Ok (eff.apply t s) q locked := by
  have hlt := hi.tried_lt htried
  have hobjs : ((eff.apply t s).queue q).objs = (s.queue q).objs := (apply_queue hlt).1
  have hsame (hp : tp = .claim ∨ (∃ rest, tp = .check rest) ∨ ∃ rest, tp = .take rest) {x : Sem}
      (hx : x ∈ (s.queue q).objs) : ((eff.apply t s).word x).count = (s.word x).count :=
    hi.count_other hg hne hb htried hx (hholds x (TryMove.holds_objs hp hx))
  cases tp with
  | lock todo | unlock todo =>
    rw [TryPc.Ok, apply_unlocked hlt]
    exact h
  | check rest =>
    refine ⟨by rw [hobjs]; exact h.1, ?_⟩
    rw [hobjs]
    intro x hx hno
    rw [hsame (.inr (.inl ⟨_, rfl⟩)) hx]
    exact h.2 x hx hno
  | claim =>
    rw [TryPc.Ok, hobjs]
    intro x hx
    rw [hsame (.inl rfl) hx]
    exact h x hx
  | take rest =>
    refine ⟨by rw [hobjs]; exact h.1, ?_⟩
    intro x hx
    rw [hsame (.inr (.inr ⟨_, rfl⟩)) (h.1.subset hx)]
    exact h.2 x hx

theorem Inv.ok_other : (s.pc t').Ok (eff.apply t s) := by
  have hok := hi.ok t'
  have hlt := hi.ownFresh t'
  have hmutex (h : (s.pc t').holdsMutex = true) :
      (eff.apply t s).allWaiters = s.allWaiters ∧ (eff.apply t s).allHint = s.allHint := by
    refine apply_allWaiters hg ?_
    rw [← Bool.not_eq_true]
    exact fun h' => hne (hi.mutex_unique h h')
  have hany {x : Sem} (h : (s.pc t').Holds s x) : (eff.apply t s).anyWaiters x = s.anyWaiters x :=
    apply_anyWaiters hg fun h' => hne (hi.owner_unique h h')
  have htry {q : ℕ} {locked : Option Sem} {tp : TryPc Sem} (htried : (s.pc t').tried = some q)
      (hholds : ∀ x, locked = some x ∨ tp.Holds (s.unlocked q locked) x → (s.pc t').Holds s x)
      (h : tp.Ok s q locked) : tp.Ok (eff.apply t s) q locked :=
    TryPc.ok_other hi hg hne hb htried hholds h
  generalize s.pc t' = p at *
  cases p with
  | sect x b sp =>
    refine ⟨Body.ok_apply hlt hok.1, ?_⟩
    cases sp with
    | wakeAll qs =>
      refine ⟨hok.2.1, ?_⟩
      rw [(hmutex rfl).1]
      exact hok.2.2
    | tryAll q tp qs =>
      refine ⟨hok.2.1, ?_, htry rfl ?_ hok.2.2.2⟩
      · rw [(hmutex rfl).1]
        exact hok.2.2.1
      · intro y hy
        exact hy.imp_left fun h => (Option.some.inj h).symm
    | scan all p =>
      cases p with
      | take rest | offer rest | done rest =>
        refine ⟨hok.2.1, ?_⟩
        rw [hany rfl]
        exact hok.2.2
    | _ => trivial
  | waitAny q ap => exact (apply_queue (hlt q rfl)).2.trans hok
  | waitAll q ap =>
    obtain ⟨hobjs, hall⟩ := apply_queue (hlt q rfl)
    refine ⟨hall.trans hok.1, ?_⟩
    cases ap with
    | inc rest | del rest | add x rest | dec x rest =>
      rw [AllPc.Ok, hobjs]
      exact hok.2
    | flag x rest =>
      refine ⟨by rw [hobjs]; exact hok.2.1, ?_⟩
      rw [(hmutex rfl).1]
      exact hok.2.2
    | clear x rest =>
      refine ⟨by rw [hobjs]; exact hok.2.1, ?_⟩
      rw [(hmutex rfl).2]
      exact hok.2.2
    | tryAll tp => exact htry rfl (fun y hy => hy.elim nofun id) hok.2
    | _ => trivial
  | _ => trivial

end Places

section Alerts

variable {f : ℕ → Queue Sem} (hobjs : ∀ q, (f q).objs = (s.queue q).objs)
  (hall : ∀ q, (f q).all = (s.queue q).all)

include hobjs

theorem TryPc.ok_queue {locked : Option Sem} {tp : TryPc Sem} (h : tp.Ok s q locked) :
    tp.Ok { s with queue := f } q locked := by
  cases tp <;> simpa only [TryPc.Ok, unlocked, hobjs] using h

include hall

theorem Pc.ok_queue (h : p.Ok s) : p.Ok { s with queue := f } := by
  cases p with
  | sect x b sp =>
    refine ⟨?_, ?_⟩
    · cases b with
      | release n => trivial
      | _ => simpa only [Body.Ok, hobjs, hall] using h.1
    cases sp with
    | tryAll q tp qs => exact ⟨h.2.1, h.2.2.1, TryPc.ok_queue hobjs h.2.2.2⟩
    | scan all p => cases p <;> exact h.2
    | _ => exact h.2
  | waitAny q ap => exact (hall q).trans h
  | waitAll q ap =>
    refine ⟨(hall q).trans h.1, ?_⟩
    cases ap with
    | tryAll tp => exact TryPc.ok_queue hobjs h.2
    | lock | unlock | sleep | relock | finish => trivial
    | _ => simpa only [AllPc.Ok, hobjs] using h.2
  | _ => trivial

theorem Inv.queue (hi : Inv e s) : Inv e { s with queue := f } where
  owner x t := by
    have hcongr : (s.pc t).Holds { s with queue := f } x ↔ (s.pc t).Holds s x :=
      Pc.holds_congr (fun q _ => hobjs q)
    exact (hi.owner x t).trans hcongr.symm
  mutex := hi.mutex
  loan := hi.loan
  hold := hi.hold
  noFastpath := hi.noFastpath
  balanced := hi.balanced
  waiters := hi.waiters
  hint := hi.hint
  flag := hi.flag
  nodup q h := by
    rw [hobjs]
    exact hi.nodup q ((hall q).symm.trans h)
  ownFresh := hi.ownFresh
  ownInj := hi.ownInj
  any t q j x hown hj hx := by
    rw [hobjs] at hx
    exact hi.any t q j x hown hj hx
  all t q ap x hpc hq := by
    rw [hobjs] at hq
    exact hi.all t q ap x hpc hq
  allOwner q x h := by
    obtain ⟨t, ap, hpc, hq⟩ := hi.allOwner q x h
    refine ⟨t, ap, hpc, ?_⟩
    rwa [hobjs]
  allNodup := hi.allNodup
  ok t := Pc.ok_queue hobjs hall (hi.ok t)
  warned := hi.warned

end Alerts

section Runs

variable [DecidableEq Tid]

omit [DecidableEq Tid] [DecidableEq Sem] in
theorem fields_init (x : Sem) :
    ((State.init e : State Sem Tid).word x).fields = ⟨e.initial x, 0, false, false, false⟩ := by
  have hlt : e.initial x < 2 ^ 32 := (e.initial_le x).trans_lt (e.max_lt x)
  have h := Word.fields_addCount 0 (by simpa [Word.count] using hlt)
  simpa [Word.addCount, Word.fields, Word.count, Word.waiters, Word.hold, Word.waitAll,
    Word.noFastpath, State.init] using h

omit [DecidableEq Tid] in
theorem Inv.init : Inv e (State.init e : State Sem Tid) := by
  have hno (x : Sem) : ((State.init e : State Sem Tid).word x).hold = false :=
    congrArg Word.Fields.hold (fields_init x)
  have hcount (x : Sem) : ((State.init e : State Sem Tid).word x).count = e.initial x :=
    congrArg Word.Fields.count (fields_init x)
  exact
  { owner := fun x t => ⟨nofun, fun h => h.elim⟩
    mutex := fun t => ⟨nofun, nofun⟩
    loan := fun x => ⟨nofun, fun ⟨t, h⟩ => h.elim⟩
    hold := fun x => by
      rw [hno]
      exact ⟨nofun, fun ⟨t, h⟩ => h.elim⟩
    noFastpath := fun x => congrArg Word.Fields.noFastpath (fields_init x)
    balanced := fun x => by
      rw [ledger, hcount]
      exact ⟨rfl, e.initial_le x⟩
    waiters := fun x => congrArg Word.Fields.waiters (fields_init x)
    hint := fun x => rfl
    flag := fun x => .inr (.inl rfl)
    nodup := fun q h => by cases h
    ownFresh := fun t q h => by cases h
    ownInj := fun t t' q h => by cases h
    any := fun t q j x h => by cases h
    all := fun t q ap x h => by cases h
    allOwner := fun q x h => by cases h
    allNodup := fun x => nodup_nil
    ok := fun t => trivial
    warned := rfl }

def Bounded (e : Env Sem) (s : State Sem Tid) (a : Act Sem Tid) : Prop :=
  ∀ s', step e s a = some s' → ∀ x, s'.entries x < 2 ^ 29

theorem Inv.after (hi : Inv e s) (hm : Move e s (s.pc t) eff p') (hen : eff.enabled s = true)
    (hb : ∀ x, (s.after t eff p').entries x < 2 ^ 29) : Inv e (s.after t eff p') where
  owner := hi.owner_after hm hen
  mutex := hi.mutex_after hm hen
  loan := hi.loan_after hm hen
  hold := hi.hold_after hm hen hb
  noFastpath x := by
    have hg := guard hi rfl hm hen
    have hfields : ((s.after t eff p').word x).fields = _ := fields_apply hi hg hb
    have hno : ((s.after t eff p').word x).noFastpath = (eff.fields x (s.word x).fields).noFastpath :=
      congrArg Word.Fields.noFastpath hfields
    rw [hno, fields_noFastpath]
    exact hi.noFastpath x
  balanced x := (hi.ledger_step (guard hi rfl hm hen) hb x).balanced (hi.balanced x)
  waiters := hi.waiters_after hm hen hb
  hint := hi.hint_after hm hen
  flag := hi.flag_after hm hen hb
  nodup := hi.nodup_after hm
  ownFresh := hi.ownFresh_after hm
  ownInj := hi.ownInj_after hm
  any := hi.any_after hm hen
  all := hi.all_after hm hen
  allOwner := hi.allOwner_after hm hen
  allNodup := hi.allNodup_after hm hen
  ok t' := by
    by_cases heq : t' = t
    · subst heq
      rw [show (s.after t' eff p').pc t' = p' from update_self ..]
      exact Move.ok hi rfl hm
    · rw [show (s.after t eff p').pc t' = s.pc t' from update_of_ne heq ..]
      exact hi.ok_other (guard hi rfl hm hen) heq hb
  warned := by
    have hg := guard hi rfl hm hen
    cases eff with
    | warn => exact hg.elim
    | _ => exact hi.warned

omit [DecidableEq Sem] [DecidableEq Tid] in
theorem alerted_queue {q q' : ℕ} : ((s.alerted q).queue q').objs = (s.queue q').objs ∧
    ((s.alerted q).queue q').all = (s.queue q').all := by
  by_cases hq : q' = q
  · subst hq
    simp [alerted]
  · simp [alerted, update_of_ne hq]

theorem Inv.step {a : Act Sem Tid} (hi : Inv e s) (hb : Bounded e s a)
    (hs : step e s a = some s') : Inv e s' := by
  have hlt := hb s' hs
  obtain ⟨t, eff, p, hm, hen, rfl⟩ | ⟨q, -, -, rfl⟩ := step_cases hs
  · exact hi.after hm hen hlt
  · exact hi.queue (fun q' => alerted_queue.1) fun q' => alerted_queue.2

end Runs

end WinePpc64.Ntsync
