import WinePpc64.Ntsync.Invariant
import WinePpc64.Ntsync.Moves

namespace WinePpc64.Ntsync

open List Body Pc

variable {Sem Tid : Type} {e : Env Sem} {s : State Sem Tid} {t : Tid} {x : Sem} {b : Body}

section Places

variable {p : Pc Sem}

variable (hp : p.user = true)
include hp

theorem Pc.holdsMutex_of_user : p.holdsMutex = false := by
  cases p <;> first | rfl | cases hp

theorem Pc.not_offers_of_user : ¬ p.Offers x := by
  cases p <;> first | exact id | cases hp

theorem Pc.not_lends_of_user : ¬ p.Lends x := by
  cases p <;> first | exact id | cases hp

theorem Pc.own_of_user : p.own = none := by
  cases p <;> first | rfl | cases hp

omit hp

theorem Pc.Offers.lends (h : p.Offers x) : p.Lends x := by
  unfold Pc.Offers at h
  split at h
  · exact h
  · cases h

theorem Body.after_holdsMutex : (b.after : Pc Sem).holdsMutex = false := by
  cases b <;> rfl

theorem Body.anyQueued_of_wakes (hb : b.wakes = true) {p' : SectPc Sem} {q j : ℕ}
    (hown : (Pc.sect x b p').own = some q) {p : SectPc Sem} :
    (Pc.sect x b p).own = some q ∧ (Pc.sect x b p).AnyQueued j := by
  cases b with
  | release n => cases hown
  | scan q' i => exact ⟨hown, trivial⟩
  | queue q' i => cases hb
  | unqueue q' i => cases hb

theorem Body.after_offers : ¬ (b.after : Pc Sem).Offers x := by
  cases b <;> exact id

theorem Body.after_lends : ¬ (b.after : Pc Sem).Lends x := by
  cases b <;> exact id

variable [DecidableEq Sem]

theorem Pc.not_holds_of_user (hp : p.user = true) : ¬ p.Holds s x := by
  cases p <;> first | exact id | cases hp

theorem Pc.pend_of_user (hp : p.user = true) : p.pend x = 0 := by
  cases p <;> first | rfl | cases hp

theorem Pc.ok_of_user (hp : p.user = true) : p.Ok s := by
  cases p with
  | sect | waitAny | waitAll => cases hp
  | _ => trivial

theorem Pc.Lends.holds (h : p.Lends x) : p.Holds s x := by
  unfold Pc.Lends at h
  split at h
  · exact h
  · exact h
  · cases h

theorem Pc.pend_of_not_holdsMutex (h : p.holdsMutex = false) : p.pend x = 0 := by
  unfold pend
  split
  · cases h
  · cases h
  · cases h
  · rfl

theorem Body.after_holds : ¬ (b.after : Pc Sem).Holds s x := by
  cases b <;> exact id

theorem Body.after_pend : (b.after : Pc Sem).pend x = 0 := by
  cases b <;> rfl

end Places

variable [DecidableEq Sem]

section TryWakeAll

variable {q : ℕ} {locked : Option Sem} {p p' : TryPc Sem} {eff : Eff Sem}

theorem State.mem_unlocked : x ∈ s.unlocked q locked ↔ x ∈ (s.queue q).objs ∧ locked ≠ some x := by
  simp [State.unlocked]

theorem TryMove.holds (hm : TryMove s q locked p eff p') (hok : p.Ok s q locked)
    (hnd : (s.queue q).objs.Nodup) (x : Sem) :
    p'.Holds (s.unlocked q locked) x ↔
      eff = .lockObj x ∨ p.Holds (s.unlocked q locked) x ∧ eff ≠ .unlockObj x := by
  have hnd' : (s.unlocked q locked).Nodup := hnd.filter _
  cases hm with
  | lock y todo =>
    have hsuf : y :: todo <:+ s.unlocked q locked := hok
    have hy := (nodup_cons.mp (hnd'.sublist hsuf.sublist)).1
    have hmem : y ∈ s.unlocked q locked := hsuf.subset (mem_cons_self ..)
    by_cases hxy : x = y
    · subst hxy
      simp [TryPc.Holds, hy, hmem]
    · simp [TryPc.Holds, hxy, Ne.symm hxy]
  | unlock y todo =>
    have hsuf : y :: todo <:+ s.unlocked q locked := hok
    have hy := (nodup_cons.mp (hnd'.sublist hsuf.sublist)).1
    by_cases hxy : x = y
    · subst hxy
      simp [TryPc.Holds, hy]
    · simp [TryPc.Holds, hxy, Ne.symm hxy]
  | _ => simp [TryPc.Holds]

theorem TryMove.holds_objs (hp : p = .claim ∨ (∃ rest, p = .check rest) ∨ ∃ rest, p = .take rest)
    (hx : x ∈ (s.queue q).objs) : locked = some x ∨ p.Holds (s.unlocked q locked) x := by
  by_cases hl : locked = some x
  · exact .inl hl
  · right
    have hmem : x ∈ s.unlocked q locked := State.mem_unlocked.mpr ⟨hx, hl⟩
    obtain rfl | ⟨rest, rfl⟩ | ⟨rest, rfl⟩ := hp <;> exact hmem

end TryWakeAll

variable {p p' : Pc Sem} {eff : Eff Sem}

variable (hm : Move e s p eff p')
include hm

theorem Move.holdsMutex :
    p'.holdsMutex = true ↔ eff = .lockMutex ∨ p.holdsMutex = true ∧ eff ≠ .unlockMutex := by
  cases hm with
  | user hp hp' => simp [holdsMutex_of_user hp, holdsMutex_of_user hp']
  | took x hp | release x n hp | releaseWake x n hp | ioctl x n hp | enterAny objs hp =>
    simp only [holdsMutex_of_user hp]
    simp [holdsMutex]
  | unlock x b | unlockMutex x b =>
    simp only [after_holdsMutex]
    simp [holdsMutex]
  | tryWake x b q qs h => cases h <;> simp [holdsMutex]
  | tryOwn q h => cases h <;> simp [holdsMutex]
  | scan x b all h => cases all <;> cases h <;> simp [holdsMutex]
  | overflow x n all | queue x q i all | scanBody x q i all | unqueue x q i all | scanned x b all
  | giveBack x b all =>
    cases all <;> simp [holdsMutex]
  | _ => simp [holdsMutex]

theorem Move.offers :
    p'.Offers x ↔ eff = .takeHold x ∨
      p.Offers x ∧ eff ≠ .giveBack x ∧ ∀ q i, eff ≠ .place x q i := by
  cases hm with
  | user hp hp' => simp [not_offers_of_user hp, not_offers_of_user hp']
  | took x hp | release x n hp | releaseWake x n hp | ioctl x n hp | enterAny objs hp =>
    simp only [not_offers_of_user hp]
    simp [Pc.Offers]
  | unlock x b | unlockMutex x b =>
    simp only [after_offers]
    simp [Pc.Offers]
  | tryWake x b q qs h => cases h <;> simp [Pc.Offers]
  | tryOwn q h => cases h <;> simp [Pc.Offers]
  | scan y b all h =>
    cases h with
    | takeHold w rest hc => simp [Pc.Offers, eq_comm]
    | place q i rest hq =>
      by_cases hxy : x = y
      · simp [Pc.Offers, hxy]
      · simp [Pc.Offers, hxy]
    | skip q i rest hq => simp [Pc.Offers]
    | holdDone rest => simp [Pc.Offers]
  | giveBack y b all =>
    by_cases hxy : x = y
    · simp [Pc.Offers, hxy]
    · simp [Pc.Offers, hxy]
  | _ => simp [Pc.Offers]

theorem Move.lends : p'.Lends x ↔ eff = .takeHold x ∨ p.Lends x ∧ eff ≠ .giveBack x ∧ eff ≠ .holdDone x := by
  cases hm with
  | user hp hp' => simp [not_lends_of_user hp, not_lends_of_user hp']
  | took x hp | release x n hp | releaseWake x n hp | ioctl x n hp | enterAny objs hp =>
    simp only [not_lends_of_user hp]
    simp [Pc.Lends]
  | unlock x b | unlockMutex x b =>
    simp only [after_lends]
    simp [Pc.Lends]
  | tryWake x b q qs h => cases h <;> simp [Pc.Lends]
  | tryOwn q h => cases h <;> simp [Pc.Lends]
  | scan y b all h =>
    cases h with
    | takeHold w rest hc => simp [Pc.Lends, eq_comm]
    | place q i rest hq => simp [Pc.Lends]
    | skip q i rest hq => simp [Pc.Lends]
    | holdDone rest =>
      by_cases hxy : x = y
      · simp [Pc.Lends, hxy]
      · simp [Pc.Lends, hxy]
  | giveBack y b all =>
    by_cases hxy : x = y
    · simp [Pc.Lends, hxy]
    · simp [Pc.Lends, hxy]
  | _ => simp [Pc.Lends]

def Eff.pend : Eff Sem → Sem → ℕ → ℕ
  | .incHint y, x, _ | .unqueueAll y _, x, _ => if x = y then 1 else 0
  | .queueAll _ _, _, _ | .decHint _, _, _ => 0
  | _, _, k => k

theorem Move.pend : p'.pend x = eff.pend x (p.pend x) := by
  cases hm with
  | user hp hp' => simp [pend_of_user hp, pend_of_user hp', Eff.pend]
  | took x hp | release x n hp | releaseWake x n hp | ioctl x n hp | enterAny objs hp =>
    simp only [pend_of_user hp]
    rfl
  | unlock x b | unlockMutex x b => exact after_pend
  | tryWake x b q qs h => cases h <;> rfl
  | tryOwn q h => cases h <;> rfl
  | scan y b all h => cases h <;> rfl
  | _ => rfl

variable {q : ℕ} {ap : AllPc Sem}

theorem Move.own (h : p'.own = some q) :
    p.own = some q ∨ q = s.fresh ∧ ∃ objs all, eff = .newQueue objs all := by
  cases hm with
  | user hp hp' => simp [own_of_user hp'] at h
  | enterAny objs hp => exact .inr ⟨(Option.some.inj h).symm, objs, false, rfl⟩
  | enterAll objs hnd => exact .inr ⟨(Option.some.inj h).symm, objs, true, rfl⟩
  | unlock x b | unlockMutex x b => cases b <;> exact .inl h
  | took | release | releaseWake | ioctl | anyReturn | allReturn => cases h
  | lock x b | noHint x b | hint x b | mutex x b | devLock x b | wakeAny x b | wakeAll x b | tryWake x b
  | triedWake x b | scan x b | scanned x b | giveBack x b | unlockAll x b =>
    cases b <;> exact .inl h
  | overflow | add | addAll => cases h
  | _ => exact .inl h

omit hm

section Invariant

variable {x : Sem}

theorem AllPc.Queued.mem {p : AllPc Sem} (hok : p.Ok s q)
    (h : p.Queued (s.queue q).objs x) : x ∈ (s.queue q).objs := by
  cases p with
  | lock | finish => cases h
  | inc | flag | add => exact h.1
  | tryAll | unlock | sleep | relock => exact h
  | del rest => exact hok.subset h
  | dec y rest => exact hok.subset (mem_cons_of_mem _ h)
  | clear y rest => exact hok.1.subset (mem_cons_of_mem _ h)

theorem TryMove.guard {locked : Option Sem} {tp tp' : TryPc Sem}
    (hm : TryMove s q locked tp eff tp') (hok : tp.Ok s q locked) (hen : eff.enabled s = true)
    (hh : ∀ x, tp.Holds (s.unlocked q locked) x → p.Holds s x)
    (hl : ∀ x, locked = some x → p.Holds s x) : Guard e s p eff := by
  cases hm with
  | lock x todo => exact Option.isNone_iff_eq_none.mp hen
  | claim hq => exact hq
  | warn x rest hc => exact hok.2 x (mem_cons_self ..) hc
  | take x rest hc =>
    have hmem : x ∈ (s.queue q).objs := hok.1.subset (mem_cons_self ..)
    have hx : locked = some x ∨ (TryPc.take (x :: rest)).Holds (s.unlocked q locked) x :=
      TryMove.holds_objs (.inr (.inr ⟨_, rfl⟩)) hmem
    exact ⟨hx.elim (hl x) (hh x), hc⟩
  | unlock x todo => exact hh x (mem_cons_self ..)
  | _ => trivial

variable (hi : Inv e s)

include hi

theorem Inv.allWaiter (h : q ∈ s.allWaiters x) :
    (s.queue q).all = true ∧ q < s.fresh ∧ x ∈ (s.queue q).objs := by
  obtain ⟨t, p, hpc, hq⟩ := hi.allOwner q x h
  have hok := hi.ok t
  rw [hpc] at hok
  refine ⟨hok.1, hi.ownFresh t q ?_, hq.mem hok.2⟩
  rw [hpc]
  rfl

theorem Inv.nodup_allWaiter (h : q ∈ s.allWaiters x) : (s.queue q).objs.Nodup :=
  hi.nodup q (hi.allWaiter h).1

theorem Inv.tryOk {qs : List ℕ} {p : TryPc Sem}
    (hp : s.pc t = .sect x b (.tryAll q p qs)) : q ∈ s.allWaiters x ∧ p.Ok s q (some x) := by
  have hok := hi.ok t
  rw [hp] at hok
  exact ⟨hok.2.2.1 q (mem_cons_self ..), hok.2.2.2⟩

theorem Inv.allOk {p : AllPc Sem} (hp : s.pc t = .waitAll q p) : (s.queue q).objs.Nodup ∧ p.Ok s q := by
  have hok := hi.ok t
  rw [hp] at hok
  exact ⟨hi.nodup q hok.1, hok.2⟩

theorem Move.holds (hp : s.pc t = p) (hm : Move e s p eff p') :
    p'.Holds s x ↔ eff = .lockObj x ∨ p.Holds s x ∧ eff ≠ .unlockObj x := by
  cases hm with
  | user hu hu' => simp [not_holds_of_user hu, not_holds_of_user hu']
  | took y hu | release y n hu | releaseWake y n hu | ioctl y n hu | enterAny objs hu =>
    simp only [not_holds_of_user hu]
    simp [Pc.Holds]
  | unlock y b =>
    simp only [after_holds]
    simp [Pc.Holds, eq_comm]
  | unlockMutex y b =>
    simp only [after_holds]
    simp [Pc.Holds]
  | tryWake y b q qs h =>
    obtain ⟨hq, hok⟩ := hi.tryOk hp
    have htry := h.holds hok (hi.nodup_allWaiter hq) x
    simp only [Pc.Holds, htry]
    by_cases hxy : x = y
    · -- the caller's own object is not one that is unlocked
      have hne : ∀ z, z = y → eff ≠ .unlockObj z := by
        rintro z rfl rfl
        cases h with
        | unlock z todo =>
          have hmem : z ∈ s.unlocked q (some z) := List.IsSuffix.subset hok (mem_cons_self ..)
          exact (State.mem_unlocked.mp hmem).2 rfl
      simp [hxy, hne]
    · simp [hxy]
  | triedWake y b q qs => simp [Pc.Holds, TryPc.Holds]
  | tryOwn q h =>
    obtain ⟨hnd, hok⟩ := hi.allOk hp
    exact h.holds hok hnd x
  | triedOwn q => simp [Pc.Holds, TryPc.Holds]
  | allTry q => simp [Pc.Holds, TryPc.Holds]
  | wakeAll y b q qs => simp [Pc.Holds, TryPc.Holds]
  | scan y b all h => cases h <;> simp [Pc.Holds]
  | _ => simp [Pc.Holds, eq_comm]

theorem Move.guard (hp : s.pc t = p) (hm : Move e s p eff p') (hen : eff.enabled s = true) :
    Guard e s p eff := by
  have hok := hi.ok t
  rw [hp] at hok
  cases hm with
  | took x hu hflags hc => exact ⟨((Word.and_fNoTouch _).mp hflags).1, hc⟩
  | release x n hu hflags hroom | releaseWake x n hu hflags hroom =>
    obtain ⟨hhold, hall, -⟩ := (Word.and_fNoRelease _).mp hflags
    exact ⟨hroom, .inr ⟨hhold, hall⟩⟩
  | lock x b | devLock x b => exact Option.isNone_iff_eq_none.mp hen
  | hint x b | unlock x b | unlockAll x b => rfl
  | unlockMutex x b => rfl
  | allUnlock q | allReturn q => rfl
  | add x n hroom | addAll x n hroom => exact ⟨hroom, .inl ⟨rfl, id⟩⟩
  | queue x q i all => exact ⟨rfl, rfl, hok.1⟩
  | unqueue x q i all =>
    have hmem := hi.any t q i x
    rw [hp] at hmem
    exact ⟨rfl, rfl, hmem rfl (Nat.le_refl i) hok.1.2⟩
  | tryWake x b q qs h =>
    exact h.guard hok.2.2.2 hen (fun y hy => .inr hy) fun y hy => .inl (Option.some.inj hy).symm
  | scan x b all h =>
    cases h with
    | takeHold w rest hc => exact ⟨rfl, hc, id⟩
    | place q i rest hq => exact ⟨rfl, hok.2.2.subset (mem_cons_self ..), hq⟩
    | skip q i rest hq => trivial
    | holdDone rest => exact ⟨rfl, id⟩
  | giveBack x b all => rfl
  | incFirst q x rest h0 | incMore q x rest h0 => exact ⟨rfl, fun _ => rfl⟩
  | flag q x rest => exact ⟨q, rest, rfl⟩
  | allAdd q x rest => exact ⟨rest, rfl⟩
  | tryOwn q h =>
    exact h.guard hok.2 hen (fun y hy => hy) nofun
  | allDel q x rest => exact ⟨rest, rfl⟩
  | decLast q x rest h0 | decMore q x rest h0 => exact ⟨q, rest, rfl⟩
  | clear q x rest => exact ⟨q, rest, rfl⟩
  | _ => trivial

theorem Move.own_anyQueued (hp : s.pc t = p) (hm : Move e s p eff p') {j : ℕ}
    (hown : p'.own = some q) (h : p'.AnyQueued j) (hx : (s.queue q).objs[j]? = some x) :
    p.own = some q ∧ p.AnyQueued j ∧ (∀ y, eff ≠ .unqueueAny y q j) ∨ eff = .queueAny x q j := by
  have hok := hi.ok t
  rw [hp] at hok
  cases hm with
  | user hu hu' => simp [own_of_user hu'] at hown
  | took | release | releaseWake | ioctl | anyReturn | allReturn | overflow | add | addAll => cases hown
  | enterAny | enterAll => simp [Pc.AnyQueued] at h
  | queue y q' i all =>
    cases hown
    obtain rfl | hlt := Nat.eq_or_lt_of_le h
    · obtain rfl : y = x := Option.some.inj (hok.1.2.symm.trans hx)
      exact .inr rfl
    · exact .inl ⟨rfl, hlt, fun y => nofun⟩
  | unqueue y q' i all =>
    cases hown
    have hlt : i < j := h
    refine .inl ⟨rfl, hlt.le, ?_⟩
    rintro z heq
    cases heq
    exact Nat.lt_irrefl _ hlt
  | unlock y b | unlockMutex y b =>
    cases b with
    | release n => cases hown
    | queue q' i => exact .inl ⟨hown, Nat.lt_succ_iff.mp h, nofun⟩
    | scan q' i => exact .inl ⟨hown, trivial, nofun⟩
    | unqueue q' i => exact .inl ⟨hown, h, nofun⟩
  | lock y b | noHint y b | hint y b | mutex y b | devLock y b | unlockAll y b =>
    cases b with
    | release n => cases hown
    | queue q' i => exact .inl ⟨hown, h, nofun⟩
    | scan q' i => exact .inl ⟨hown, trivial, nofun⟩
    | unqueue q' i => exact .inl ⟨hown, h, nofun⟩
  | wakeAny y b | wakeAll y b | triedWake y b | giveBack y b | scanned y b =>
    obtain ⟨hown', hj⟩ := anyQueued_of_wakes hok.2.1 hown
    exact .inl ⟨hown', hj, nofun⟩
  | tryWake y b q' qs htry =>
    obtain ⟨hown', hj⟩ := anyQueued_of_wakes hok.2.1 hown
    exact .inl ⟨hown', hj, fun z => by cases htry <;> nofun⟩
  | scan y b all hscan =>
    have hb : b.wakes = true := by cases hscan <;> exact hok.2.1
    obtain ⟨hown', hj⟩ := anyQueued_of_wakes hb hown
    exact .inl ⟨hown', hj, fun z => by cases hscan <;> nofun⟩
  | scanBody y q' i all => exact .inl ⟨hown, trivial, nofun⟩
  | anyQueue y q' i hy => exact .inl ⟨hown, h, nofun⟩
  | anyQueued q' i hnone =>
    cases hown
    have hlt : j < i := by
      by_contra hle
      rw [List.getElem?_eq_none_iff] at hnone
      rw [getElem?_eq_none (by omega)] at hx
      cases hx
    exact .inl ⟨rfl, hlt, nofun⟩
  | anyScan | anyChecked => exact .inl ⟨hown, trivial, nofun⟩
  | anyWoken q' => exact .inl ⟨hown, trivial, nofun⟩
  | anyUnqueue y q' i hy => exact .inl ⟨hown, h, nofun⟩
  | _ => cases h

theorem Move.allQueued (hp : s.pc t = .waitAll q ap) (hm : Move e s (.waitAll q ap) eff p') :
    (∃ ap', p' = .waitAll q ap' ∧ ∀ x, ap'.Queued (s.queue q).objs x ↔
      eff = .queueAll x q ∨ ap.Queued (s.queue q).objs x ∧ eff ≠ .unqueueAll x q) ∨
    p' = .idle ∧ ap = .finish ∧ eff = .unlockMutex := by
  obtain ⟨hnd, hok⟩ := hi.allOk hp
  cases hm with
  | user hu => cases hu
  | took x hu | release x n hu | releaseWake x n hu | ioctl x n hu | enterAny objs hu => cases hu
  | allAdd q y rest =>
    have hsuf : y :: rest <:+ (s.queue q).objs := hok
    have hy := (nodup_cons.mp (hnd.sublist hsuf.sublist)).1
    have hmem : y ∈ (s.queue q).objs := hsuf.subset (mem_cons_self ..)
    refine .inl ⟨_, rfl, ?_⟩
    intro x
    by_cases hxy : x = y
    · subst hxy
      simp [AllPc.Queued, hy, hmem]
    · simp [AllPc.Queued, hxy, Ne.symm hxy]
  | allDel q y rest =>
    have hsuf : y :: rest <:+ (s.queue q).objs := hok
    have hy := (nodup_cons.mp (hnd.sublist hsuf.sublist)).1
    refine .inl ⟨_, rfl, ?_⟩
    intro x
    by_cases hxy : x = y
    · subst hxy
      simp [AllPc.Queued, hy]
    · simp [AllPc.Queued, hxy, Ne.symm hxy]
  | allReturn q => exact .inr ⟨rfl, rfl, rfl⟩
  | tryOwn q h => exact .inl ⟨_, rfl, fun x => by cases h <;> simp [AllPc.Queued]⟩
  | _ => exact .inl ⟨_, rfl, fun x => by simp [AllPc.Queued]⟩

omit hi in
theorem Move.waitAll_lock (hm : Move e s p eff p') (hp' : p' = .waitAll q ap)
    (hp : ∀ ap', p ≠ .waitAll q ap') : ap = .lock ∧ q = s.fresh ∧ ∃ objs, eff = .newQueue objs true := by
  cases hm with
  | enterAll objs hnd => cases hp'; exact ⟨rfl, rfl, objs, rfl⟩
  | user hu hu' => subst hp'; cases hu'
  | unlock x b | unlockMutex x b => cases b <;> cases hp'
  | _ => cases hp' <;> exact absurd rfl (hp _)

end Invariant

end WinePpc64.Ntsync
