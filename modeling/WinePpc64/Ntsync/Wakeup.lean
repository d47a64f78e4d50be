import WinePpc64.Ntsync.Conservation

namespace WinePpc64.Ntsync

open Function List Move State

variable {Sem Tid : Type}

def SectPc.early : SectPc Sem → Bool
  | .lock | .hint | .mutex | .devLock | .body _ => true
  | _ => false

inductive Pc.ServesAny (q i : ℕ) (x : Sem) : Pc Sem → Prop
  | wake {p : SectPc Sem} : p.early = true → ServesAny q i x (.sect x (.release 0) p)
  | wakeAll {b : Body} {qs : List ℕ} : ServesAny q i x (.sect x b (.wakeAll qs))
  | tryAll {b : Body} {q' : ℕ} {p : TryPc Sem} {qs : List ℕ} : ServesAny q i x (.sect x b (.tryAll q' p qs))
  | take {b : Body} {all : Bool} {rest : List (ℕ × ℕ)} : (q, i) ∈ rest →
      ServesAny q i x (.sect x b (.scan all (.take rest)))
  | offer {b : Body} {all : Bool} {rest : List (ℕ × ℕ)} : (q, i) ∈ rest →
      ServesAny q i x (.sect x b (.scan all (.offer rest)))
  | done {b : Body} {all : Bool} {rest : List (ℕ × ℕ)} : (q, i) ∈ rest →
      ServesAny q i x (.sect x b (.scan all (.done rest)))
  | check {p : SectPc Sem} : p.early = true → ServesAny q i x (.sect x (.scan q i) p)
  | queue {y : Sem} {j : ℕ} {p : SectPc Sem} : ServesAny q i x (.sect y (.queue q j) p)
  | before {y : Sem} {j : ℕ} {p : SectPc Sem} : j < i → ServesAny q i x (.sect y (.scan q j) p)
  | waitQueue {j : ℕ} : ServesAny q i x (.waitAny q (.queue j))
  | waitCheck {j : ℕ} : j ≤ i → ServesAny q i x (.waitAny q (.check j))

def TryPc.undecided : TryPc Sem → Bool
  | .lock _ | .check _ | .claim => true
  | .take _ | .unlock _ => false

def AllPc.setup : AllPc Sem → Bool
  | .lock | .inc _ | .flag _ _ | .add _ _ => true
  | .tryAll p => p.undecided
  | _ => false

inductive Pc.ServesAll (q : ℕ) : Pc Sem → Prop
  | wakeAll {x : Sem} {b : Body} {qs : List ℕ} : q ∈ qs → ServesAll q (.sect x b (.wakeAll qs))
  | later {x : Sem} {b : Body} {q' : ℕ} {p : TryPc Sem} {qs : List ℕ} : q ∈ qs →
      ServesAll q (.sect x b (.tryAll q' p qs))
  | tryAll {x : Sem} {b : Body} {p : TryPc Sem} {qs : List ℕ} : p.undecided = true →
      ServesAll q (.sect x b (.tryAll q p qs))
  | setup {p : AllPc Sem} : p.setup = true → ServesAll q (.waitAll q p)

def SectPc.plain : SectPc Sem → Bool
  | .body false | .scan false _ | .unlock false => true
  | _ => false

def AllPc.Before (x : Sem) : AllPc Sem → Prop
  | .inc _ | .flag _ _ | .add _ _ => True
  | .tryAll (.lock todo) => x ∈ todo
  | _ => False

def State.avail (s : State Sem Tid) (x : Sem) : ℕ := (s.word x).count + (s.loan x).toNat

structure Promises (s : State Sem Tid) : Prop where
  any : ∀ x q i, (q, i) ∈ s.anyWaiters x → (s.queue q).signaled = none → s.avail x ≠ 0 →
    ∃ t, (s.pc t).ServesAny q i x
  all : ∀ t q p, s.pc t = .waitAll q p → (∀ x ∈ (s.queue q).objs, q ∈ s.allWaiters x ∧ s.avail x ≠ 0) →
    (s.queue q).signaled = none → ∃ t', (s.pc t').ServesAll q
  plain : ∀ t x b p q, s.pc t = .sect x b p → p.plain = true → q ∈ s.allWaiters x →
    ∃ t' p', s.pc t' = .waitAll q p' ∧ p'.Before x

variable [DecidableEq Sem] {e : Env Sem} {s : State Sem Tid} {t : Tid} {eff : Eff Sem} {p p' : Pc Sem}

variable {x : Sem}

theorem Inv.avail_of_holds (hi : Inv e s) (hholds : (s.pc t).Holds s x)
    (hlends : ¬ (s.pc t).Lends x) : s.avail x = (s.word x).count := by
  rw [avail, hi.loan_of_holds hholds hlends]
  rfl

variable {q i : ℕ} {P : Pc Sem → Prop} {sp : SectPc Sem} {b : Body}

theorem Move.servesAny (hi : Inv e s) (hd : ∀ x q i, (q, i) ∈ s.anyWaiters x → (s.queue q).objs[i]? = some x)
    (hp : s.pc t = p) (hm : Move e s p eff p') (h : p.ServesAny q i x)
    (hmem : (q, i) ∈ s.anyWaiters x) (hsig : (s.queue q).signaled = none) (havail : s.avail x ≠ 0) :
    p'.ServesAny q i x ∨ ((eff.apply t s).queue q).signaled ≠ none := by
  cases hm with
  | user hu | took y hu | release y n hu | releaseWake y n hu | ioctl y n hu | enterAny objs hu =>
    cases h <;> cases hu
  | lock y b | noHint y b | hint y b | mutex y b | devLock y b =>
    cases h with
    | wake => exact .inl (.wake rfl)
    | check => exact .inl (.check rfl)
    | queue => exact .inl .queue
    | before hj => exact .inl (.before hj)
  | overflow y n all hmax =>
    cases h with
    | wake =>
      have hle := hi.count_le x
      omega
  | add y n =>
    cases h with
    | wake => exact .inl (.take hmem)
  | addAll y n =>
    cases h with
    | wake => exact .inl .wakeAll
  | queue y q' j all =>
    cases h with
    | queue => exact .inl .queue
  | scanBody y q' j all =>
    cases h with
    | check => exact .inl (.take hmem)
    | before hj => exact .inl (.before hj)
  | unqueue => cases h
  | wakeAny y b =>
    cases h with
    | wakeAll => exact .inl (.take hmem)
    | wake he | check he => cases he
    | queue => exact .inl .queue
    | before hj => exact .inl (.before hj)
  | wakeAll y b q' qs =>
    cases h with
    | wakeAll => exact .inl .tryAll
    | wake he | check he => cases he
    | queue => exact .inl .queue
    | before hj => exact .inl (.before hj)
  | tryWake y b q' qs =>
    cases h with
    | tryAll => exact .inl .tryAll
    | wake he | check he => cases he
    | queue => exact .inl .queue
    | before hj => exact .inl (.before hj)
  | triedWake y b q' qs =>
    cases h with
    | tryAll => exact .inl .wakeAll
    | wake he | check he => cases he
    | queue => exact .inl .queue
    | before hj => exact .inl (.before hj)
  | scan y b all hscan =>
    cases h with
    | wake he | check he => cases he
    | queue => exact .inl .queue
    | before hj => exact .inl (.before hj)
    | take hrest =>
      cases hscan with
      | takeHold w rest hc => exact .inl (.offer hrest)
    | offer hrest =>
      cases hscan with
      | place q' j rest hq' =>
        obtain heq | hrest := mem_cons.mp hrest
        · cases heq
          exact .inr (by simp [Eff.apply])
        · exact .inl (.done hrest)
      | skip q' j rest hq' =>
        obtain heq | hrest := mem_cons.mp hrest
        · cases heq
          exact absurd hsig hq'
        · exact .inl (.offer hrest)
    | done hrest =>
      cases hscan with
      | holdDone rest => exact .inl (.take hrest)
  | scanned y b all rest hend =>
    cases h with
    | wake he | check he => cases he
    | queue => exact .inl .queue
    | before hj => exact .inl (.before hj)
    | take hrest =>
      -- the scan stops early only where there is no unit left
      obtain rfl | hcount := hend
      · cases hrest
      · have hx := hi.avail_of_holds (by rw [hp]; rfl) (by rw [hp]; exact id)
        exact absurd (hx.trans hcount) havail
  | giveBack y b all =>
    cases h with
    | wake he | check he => cases he
    | queue => exact .inl .queue
    | before hj => exact .inl (.before hj)
    | offer hrest => cases hrest
  | unlock y b | unlockMutex y b =>
    cases h with
    | wake he | check he => cases he
    | queue => exact .inl .waitQueue
    | before hj => exact .inl (.waitCheck hj)
  | unlockAll y b =>
    cases h with
    | wake he | check he => cases he
    | queue => exact .inl .queue
    | before hj => exact .inl (.before hj)
  | anyQueue y q' j =>
    cases h with
    | waitQueue => exact .inl .queue
  | anyQueued q' j =>
    cases h with
    | waitQueue => exact .inl (.waitCheck (Nat.zero_le i))
  | anyScan y q' j hy =>
    cases h with
    | waitCheck hle =>
      obtain rfl | hlt := Nat.eq_or_lt_of_le hle
      · obtain rfl : y = x := Option.some.inj (hy.symm.trans (hd x q j hmem))
        exact .inl (.check rfl)
      · exact .inl (.before hlt)
  | anyChecked q' j hend =>
    cases h with
    | waitCheck hle =>
      obtain hnone | hne := hend
      · have hi' := (List.getElem?_eq_some_iff.mp (hd x q i hmem)).1
        rw [List.getElem?_eq_none_iff] at hnone
        omega
      · exact absurd hsig hne
  | _ => cases h

theorem TryMove.undecided {locked : Option Sem} {tp tp' : TryPc Sem}
    (hm : TryMove s q locked tp eff tp') (h : tp.undecided = true) (hsig : (s.queue q).signaled = none)
    (hcount : ∀ x ∈ (s.queue q).objs, (∃ rest, tp = .check (x :: rest)) → (s.word x).count ≠ 0)
    (hok : tp.Ok s q locked) : tp'.undecided = true ∨ ((eff.apply t s).queue q).signaled ≠ none := by
  cases hm with
  | locked | lock | checked | check => exact .inl rfl
  | empty x rest hc => exact absurd hc (hcount x (hok.1.subset (mem_cons_self ..)) ⟨rest, rfl⟩)
  | claim => exact .inr (by simp [Eff.apply])
  | lost hne => exact absurd hsig hne
  | taken | warn | take | unlock => cases h

theorem Move.servesAll (hi : Inv e s) (hp : s.pc t = p) (hm : Move e s p eff p') (h : p.ServesAll q)
    (hsig : (s.queue q).signaled = none) (havail : ∀ x ∈ (s.queue q).objs, s.avail x ≠ 0) :
    p'.ServesAll q ∨ ((eff.apply t s).queue q).signaled ≠ none := by
  cases hm with
  | user hu | took y hu | release y n hu | releaseWake y n hu | ioctl y n hu | enterAny objs hu =>
    cases h <;> cases hu
  | wakeAny y b =>
    cases h with
    | wakeAll hq => cases hq
  | wakeAll y b q' qs =>
    cases h with
    | wakeAll hq =>
      obtain rfl | hq := mem_cons.mp hq
      · exact .inl (.tryAll rfl)
      · exact .inl (.later hq)
  | @tryWake y b q' qs tp tp' eff' htry =>
    cases h with
    | later hq => exact .inl (.later hq)
    | tryAll hu =>
      have hok := (hi.tryOk hp).2
      refine (htry.undecided hu hsig ?_ hok).imp_left .tryAll
      rintro x hx ⟨rest, rfl⟩
      have hholds : (s.pc t).Holds s x := by
        rw [hp]
        exact (TryMove.holds_objs (.inr (.inl ⟨_, rfl⟩)) hx).imp_left fun h => (Option.some.inj h).symm
      rw [← hi.avail_of_holds hholds (by rw [hp]; exact id)]
      exact havail x hx
  | triedWake y b q' qs =>
    cases h with
    | later hq => exact .inl (.wakeAll hq)
    | tryAll hu => cases hu
  | @tryOwn q' tp tp' eff' htry =>
    cases h with
    | setup hu =>
      have hok := (hi.allOk hp).2
      refine (htry.undecided hu hsig ?_ hok).imp_left .setup
      rintro x hx ⟨rest, rfl⟩
      have hholds : (s.pc t).Holds s x := by
        rw [hp]
        have hx' : none = some x ∨ (TryPc.check (x :: rest)).Holds (s.unlocked q none) x :=
          TryMove.holds_objs (.inr (.inl ⟨_, rfl⟩)) hx
        exact hx'.resolve_left nofun
      rw [← hi.avail_of_holds hholds (by rw [hp]; exact id)]
      exact havail x hx
  | allLock | allTry | incFirst | incMore | flag | allAdd =>
    cases h with
    | setup => exact .inl (.setup rfl)
  | triedOwn | allUnlock | allWoken | allRelock | allDeleted | allDel | decLast | decMore | clear
  | allReturn =>
    cases h with
    | setup hu => cases hu
  | _ => cases h

theorem Inv.waitAll_of_mem (hi : Inv e s) (h : q ∈ s.allWaiters x) : (s.word x).waitAll = true := by
  obtain hflag | h0 | ⟨t, q', rest, hpc⟩ := hi.flag x
  · exact hflag
  · have hhint := hi.hint x
    have hpos := length_pos_of_mem h
    omega
  have hok := hi.ok t
  rw [hpc] at hok
  rw [hok.2.2] at h
  cases h

theorem apply_released (h : ∀ n, eff ≠ .addCount x n) : (eff.apply t s).released x = s.released x := by
  cases eff with
  | addCount y n =>
    have hne : x ≠ y := by
      rintro rfl
      exact h n rfl
    exact update_of_ne hne ..
  | _ => rfl

theorem Inv.avail_apply (hi : Inv e s) (hg : Guard e s (s.pc t) eff)
    (hb : ∀ x, (eff.apply t s).entries x < 2 ^ 29) (h : (eff.apply t s).avail x ≠ 0) :
    s.avail x ≠ 0 ∨ ∃ n, eff = .addCount x n := by
  by_cases hadd : ∃ n, eff = .addCount x n
  · exact .inr hadd
  have hrel := apply_released (t := t) (s := s) (not_exists.mp hadd)
  have hle := (hi.ledger_step hg hb x).count_add_loan_le (by simp only [ledger, hrel])
  have hle' : (eff.apply t s).avail x ≤ s.avail x := hle
  exact .inl (by omega)

theorem Move.before {ap : AllPc Sem} (hm : Move e s (.waitAll q ap) eff p')
    (hx : x ∈ (s.queue q).objs) (hlock : eff ≠ .lockObj x) (h : ap.Before x) :
    ∃ ap', p' = .waitAll q ap' ∧ ap'.Before x := by
  cases hm with
  | user hu | took y hu | release y n hu | releaseWake y n hu | ioctl y n hu | enterAny objs hu => cases hu
  | allTry => exact ⟨_, rfl, mem_unlocked.mpr ⟨hx, nofun⟩⟩
  | incFirst | incMore | flag | allAdd => exact ⟨_, rfl, trivial⟩
  | tryOwn q htry =>
    cases htry with
    | locked => cases h
    | lock y todo =>
      obtain rfl | h := mem_cons.mp h
      · exact absurd rfl hlock
      · exact ⟨_, rfl, h⟩
    | _ => cases h
  | _ => cases h

theorem Move.plain (hm : Move e s p eff p') (hp' : p' = .sect x b sp)
    (h : sp.plain = true) : (∃ sp₀, p = .sect x b sp₀ ∧ sp₀.plain = true) ∨ s.allHint x = 0 := by
  cases hm with
  | user hu hu' => subst hp'; cases hu'
  | noHint y b h0 => cases hp'; exact .inr h0
  | overflow y n all | queue y q i all | unqueue y q i all | scanBody y q i all | scanned y b all
  | giveBack y b all =>
    cases hp'
    cases all with
    | false => exact .inl ⟨_, rfl, rfl⟩
    | true => cases h
  | scan y b all hscan =>
    cases hp'
    cases all with
    | false => exact .inl ⟨_, rfl, rfl⟩
    | true => cases h
  | add => cases hp'; exact .inl ⟨_, rfl, rfl⟩
  | unlock y b | unlockMutex y b => cases b <;> cases hp'
  | _ => cases hp' <;> cases h

section Step

variable [DecidableEq Tid] (hi : Inv e s) (hd : Deliveries s) (hpr : Promises s)
  (hm : Move e s (s.pc t) eff p') (hen : eff.enabled s = true)
  (hb : ∀ x, (s.after t eff p').entries x < 2 ^ 29)

theorem exists_after {t₀ : Tid} (h : P (s.pc t₀)) (hmine : t₀ = t → P p') :
    ∃ t', P ((s.after t eff p').pc t') := by
  by_cases heq : t₀ = t
  · refine ⟨t, ?_⟩
    rw [show (s.after t eff p').pc t = p' from update_self ..]
    exact hmine heq
  · refine ⟨t₀, ?_⟩
    rwa [show (s.after t eff p').pc t₀ = s.pc t₀ from update_of_ne heq ..]

theorem exists_after_self (h : P p') : ∃ t', P ((s.after t eff p').pc t') := by
  refine ⟨t, ?_⟩
  rwa [show (s.after t eff p').pc t = p' from update_self ..]

include hi hd hpr hm hen hb

theorem Promises.any_after (x : Sem) (q i : ℕ) (hmem : (q, i) ∈ (s.after t eff p').anyWaiters x)
    (hsig : ((s.after t eff p').queue q).signaled = none) (havail : (s.after t eff p').avail x ≠ 0) :
    ∃ t', ((s.after t eff p').pc t').ServesAny q i x := by
  have hg := guard hi rfl hm hen
  have hsig₀ := hd.signaled_of_after hi hm hen hsig
  obtain hmem₀ | rfl := mem_anyWaiters_of_apply hmem
  · obtain havail₀ | ⟨n, rfl⟩ := hi.avail_apply hg hb havail
    · obtain ⟨t₀, ht₀⟩ := hpr.any x q i hmem₀ hsig₀ havail₀
      refine exists_after ht₀ ?_
      rintro rfl
      have hentry (x : Sem) (q i : ℕ) (h : (q, i) ∈ s.anyWaiters x) := (hd.entry x q i h).2.2
      exact (servesAny hi hentry rfl hm ht₀ hmem₀ hsig₀ havail₀).resolve_right (not_not.mpr hsig)
    · -- a unit is released while the entry is queued
      refine exists_after_self ?_
      generalize s.pc t = p at hm
      cases hm with
      | release x n hu hflags hroom hw =>
        have hpos := length_pos_of_mem hmem₀
        rw [hi.waiters, entries] at hw
        omega
      | releaseWake => exact .wake rfl
      | add => exact .take hmem₀
      | addAll => exact .wakeAll
      | tryWake _ _ _ _ h => cases h
      | tryOwn _ h => cases h
      | scan _ _ _ h => cases h
  · refine exists_after_self ?_
    generalize s.pc t = p at hm
    cases hm with
    | queue => exact .queue
    | tryWake _ _ _ _ h => cases h
    | tryOwn _ h => cases h
    | scan _ _ _ h => cases h

theorem Promises.all_after (t₀ : Tid) (q : ℕ) (ap : AllPc Sem) (hpc : (s.after t eff p').pc t₀ = .waitAll q ap)
    (hall : ∀ x ∈ ((s.after t eff p').queue q).objs,
      q ∈ (s.after t eff p').allWaiters x ∧ (s.after t eff p').avail x ≠ 0)
    (hsig : ((s.after t eff p').queue q).signaled = none) :
    ∃ t', ((s.after t eff p').pc t').ServesAll q := by
  have hg := guard hi rfl hm hen
  have hsig₀ := hd.signaled_of_after hi hm hen hsig
  by_cases hold : ∃ t₁ ap₁, s.pc t₁ = .waitAll q ap₁
  · obtain ⟨t₁, ap₁, hpc₁⟩ := hold
    have hlt : q < s.fresh := hi.ownFresh t₁ q (by rw [hpc₁]; rfl)
    rw [show ((s.after t eff p').queue q).objs = (s.queue q).objs from (apply_queue hlt).1] at hall
    by_cases hbefore : ∀ x ∈ (s.queue q).objs, q ∈ s.allWaiters x ∧ s.avail x ≠ 0
    · obtain ⟨t₂, ht₂⟩ := hpr.all t₁ q ap₁ hpc₁ hbefore hsig₀
      refine exists_after ht₂ ?_
      rintro rfl
      exact (servesAll hi rfl hm ht₂ hsig₀ fun x hx => (hbefore x hx).2).resolve_right
        (not_not.mpr hsig)
    · push Not at hbefore
      obtain ⟨x, hx, hno⟩ := hbefore
      obtain ⟨hmem, havail⟩ := hall x hx
      obtain rfl | ⟨hmem₀, -⟩ := (mem_allWaiters_apply (hi.allNodup x)).mp hmem
      · -- the wait is queued on its last object
        obtain ⟨rest, hpc'⟩ := hg
        refine exists_after_self ?_
        rw [hpc'] at hm
        cases hm with
        | allAdd => exact .setup rfl
      · obtain havail₀ | ⟨n, rfl⟩ := hi.avail_apply hg hb havail
        · exact absurd (hno hmem₀) havail₀
        -- a unit is released on its last object without one
        have hflag := hi.waitAll_of_mem hmem₀
        generalize hp : s.pc t = p at hm
        cases hm with
        | release x n hu hflags | releaseWake x n hu hflags =>
          rw [((Word.and_fNoRelease _).mp hflags).2.1] at hflag
          cases hflag
        | add x n =>
          obtain ⟨t₂, ap₂, hpc₂, hbef⟩ := hpr.plain t x _ _ q hp rfl hmem₀
          have hserve : (s.pc t₂).ServesAll q := by
            rw [hpc₂]
            refine .setup ?_
            cases ap₂ with
            | inc | flag | add => rfl
            | tryAll tp => cases tp <;> first | rfl | cases hbef
            | _ => cases hbef
          refine exists_after hserve ?_
          rintro rfl
          cases hp.symm.trans hpc₂
        | addAll x n => exact exists_after_self (.wakeAll hmem₀)
        | tryWake _ _ _ _ h => cases h
        | tryOwn _ h => cases h
        | scan _ _ _ h => cases h
  · -- the wait has just begun
    have hself : t₀ = t := by
      by_contra hne
      rw [show (s.after t eff p').pc t₀ = s.pc t₀ from update_of_ne hne ..] at hpc
      exact hold ⟨t₀, ap, hpc⟩
    subst hself
    rw [show (s.after t₀ eff p').pc t₀ = p' from update_self ..] at hpc
    obtain ⟨rfl, -⟩ := hm.waitAll_lock hpc fun ap' h => hold ⟨t₀, ap', h⟩
    exact exists_after_self (by rw [hpc]; exact .setup rfl)

omit hd hb in
theorem Promises.plain_after (u : Tid) (x : Sem) (b : Body) (sp : SectPc Sem) (q : ℕ)
    (hpc : (s.after t eff p').pc u = .sect x b sp) (hsp : sp.plain = true)
    (hmem : q ∈ (s.after t eff p').allWaiters x) :
    ∃ t' ap, (s.after t eff p').pc t' = .waitAll q ap ∧ ap.Before x := by
  have hg := guard hi rfl hm hen
  have hself : (s.after t eff p').pc t = p' := update_self ..
  have hother {t' : Tid} (h : t' ≠ t) : (s.after t eff p').pc t' = s.pc t' := update_of_ne h ..
  have hmem' := (mem_allWaiters_apply (hi.allNodup x)).mp hmem
  by_cases heq : u = t
  · subst heq
    rw [hself] at hpc
    obtain ⟨sp₀, hp₀, hsp₀⟩ | h0 := hm.plain hpc hsp
    · obtain rfl | ⟨hmem₀, -⟩ := hmem'
      · obtain ⟨rest, hp₀'⟩ := hg
        cases hp₀.symm.trans hp₀'
      obtain ⟨t₁, ap, hpc₁, hbef⟩ := hpr.plain u x b sp₀ q hp₀ hsp₀ hmem₀
      have hne : t₁ ≠ u := by
        rintro rfl
        cases hp₀.symm.trans hpc₁
      exact ⟨t₁, ap, (hother hne).trans hpc₁, hbef⟩
    · -- its lock is its own only if the hint said so
      have hhint := hi.hint x
      obtain rfl | ⟨hmem₀, -⟩ := hmem'
      · obtain ⟨rest, hp₀⟩ := hg
        rw [hp₀] at hm
        cases hm
        cases hpc
      · have hpos := length_pos_of_mem hmem₀
        omega
  · rw [hother heq] at hpc
    have hholds : (s.pc u).Holds s x := by
      rw [hpc]
      cases sp with
      | body | scan | unlock => rfl
      | _ => cases hsp
    obtain rfl | ⟨hmem₀, -⟩ := hmem'
    · obtain ⟨rest, hp₀⟩ := hg
      rw [hp₀] at hm
      cases hm with
      | allAdd => exact ⟨t, _, hself, trivial⟩
    · obtain ⟨t₁, ap, hpc₁, hbef⟩ := hpr.plain u x b sp q hpc hsp hmem₀
      by_cases hne : t₁ = t
      · subst hne
        have hlock : eff ≠ .lockObj x := by
          rintro rfl
          have howner := (hi.owner x u).mpr hholds
          rw [Guard, howner] at hg
          cases hg
        rw [hpc₁] at hm
        obtain ⟨ap', hp', hbef'⟩ := hm.before (hi.allWaiter hmem₀).2.2 hlock hbef
        exact ⟨t₁, ap', hself.trans hp', hbef'⟩
      · exact ⟨t₁, ap, (hother hne).trans hpc₁, hbef⟩

theorem Promises.after : Promises (s.after t eff p') where
  any := hpr.any_after hi hd hm hen hb
  all := hpr.all_after hi hd hm hen hb
  plain := hpr.plain_after hi hm hen

end Step

section Runs

variable [DecidableEq Tid]

omit [DecidableEq Sem] [DecidableEq Tid] in
theorem Promises.alerted (hpr : Promises s) : Promises (s.alerted q) := by
  have hnone {q' : ℕ} (h : ((s.alerted q).queue q').signaled = none) : (s.queue q').signaled = none := by
    by_cases heq : q' = q
    · subst heq
      simp [alerted] at h
    · simpa [State.alerted, update_of_ne heq] using h
  refine ⟨fun x q' i hmem hsig => hpr.any x q' i hmem (hnone hsig), ?_, hpr.plain⟩
  intro t q' p hpc hall hsig
  rw [alerted_queue.1] at hall
  exact hpr.all t q' p hpc hall (hnone hsig)

omit [DecidableEq Sem] [DecidableEq Tid] in
theorem Promises.init : Promises (State.init e : State Sem Tid) where
  any := nofun
  all := nofun
  plain := nofun

theorem reaches_promises (h : Lib.Reaches (step e) (Bounded e) (State.init e) s) :
    Inv e s ∧ Deliveries s ∧ Promises s := by
  refine h.invariant (P := fun s => Inv e s ∧ Deliveries s ∧ Promises s)
    ⟨Inv.init, Deliveries.init, Promises.init⟩ ?_
  rintro s a s' hb hs ⟨hi, hd, hpr⟩
  have hlt := hb s' hs
  refine ⟨hi.step hb hs, ?_⟩
  obtain ⟨t, eff, p, hm, hen, rfl⟩ | ⟨q, hq, hsig, rfl⟩ := step_cases hs
  · exact ⟨hd.after hi hm hen, hpr.after hi hd hm hen hlt⟩
  · exact ⟨hd.alerted hq hsig, hpr.alerted⟩

end Runs

def Pc.busy : Pc Sem → Bool
  | .release _ _ => true
  | .sect _ (.unqueue _ _) _ => false
  | .sect _ _ _ => true
  | .waitAny _ (.queue _) | .waitAny _ (.check _) => true
  | .waitAll _ .lock | .waitAll _ (.inc _) | .waitAll _ (.flag _ _) | .waitAll _ (.add _ _)
  | .waitAll _ (.tryAll _) | .waitAll _ .unlock => true
  | _ => false

omit [DecidableEq Sem] in
theorem Pc.busy_of_wakes (h : b.wakes = true) : (Pc.sect x b sp).busy = true := by
  cases b with
  | release | scan => rfl
  | queue | unqueue => cases h

theorem Pc.ServesAny.busy (h : p.ServesAny q i x) (hok : p.Ok s) : p.busy = true := by
  cases h with
  | wake | check | queue | before | waitQueue | waitCheck => rfl
  | wakeAll | tryAll | take | offer | done => exact Pc.busy_of_wakes hok.2.1

theorem Pc.ServesAll.busy (h : p.ServesAll q) (hok : p.Ok s) : p.busy = true := by
  cases h with
  | wakeAll | later | tryAll => exact Pc.busy_of_wakes hok.2.1
  | @setup ap h =>
    cases ap with
    | lock | inc | flag | add | tryAll => rfl
    | _ => cases h

theorem Pc.Offers.busy (h : p.Offers x) (hok : p.Ok s) : p.busy = true := by
  unfold Pc.Offers at h
  split at h
  · exact Pc.busy_of_wakes hok.2.1
  · cases h

/-- At rest, a wait-any is queued on semaphores without a unit and a wait-all has one without. -/
theorem no_lost_wakeup [DecidableEq Tid] {s : State Sem Tid}
    (h : Lib.Reaches (step e) (Bounded e) (State.init e) s) (hidle : ∀ t, (s.pc t).busy = false) :
    (∀ x q i, (q, i) ∈ s.anyWaiters x → (s.queue q).signaled = none → (s.word x).count = 0 ∧
      s.log.countP (fun d => d.1 = x) = e.initial x + s.released x) ∧
    ∀ t q p, s.pc t = .waitAll q p → (∀ x ∈ (s.queue q).objs, q ∈ s.allWaiters x) →
      (s.queue q).signaled = none → ∃ x ∈ (s.queue q).objs, (s.word x).count = 0 := by
  obtain ⟨hi, -, hpr⟩ := reaches_promises h
  have hloan (x : Sem) : s.loan x = false := by
    rw [← Bool.not_eq_true, hi.loan]
    rintro ⟨t, ht⟩
    exact Bool.noConfusion ((hidle t).symm.trans (ht.busy (hi.ok t)))
  have havail (x : Sem) : s.avail x = (s.word x).count := by
    rw [avail, hloan]
    rfl
  constructor
  · intro x q i hmem hsig
    have hcount : (s.word x).count = 0 := by
      by_contra hne
      obtain ⟨t, ht⟩ := hpr.any x q i hmem hsig (by rwa [havail])
      exact Bool.noConfusion ((hidle t).symm.trans (ht.busy (hi.ok t)))
    have hcons := (hi.balanced x).conserved
    simp only [ledger, hcount, hloan, Bool.toNat_false, Nat.zero_add] at hcons
    exact ⟨hcount, hcons⟩
  · intro t q p hpc hmem hsig
    by_contra hno
    push Not at hno
    have hall : ∀ x ∈ (s.queue q).objs, q ∈ s.allWaiters x ∧ s.avail x ≠ 0 := by
      intro x hx
      rw [havail]
      exact ⟨hmem x hx, hno x hx⟩
    obtain ⟨t', ht'⟩ := hpr.all t q p hpc hall hsig
    exact Bool.noConfusion ((hidle t').symm.trans (ht'.busy (hi.ok t')))

namespace OneSleeper

def env : Env Unit := ⟨fun _ => 1, fun _ => 0, fun _ => Nat.zero_le 1, OneWaiter.env.max_lt⟩

def acts : List (Act Unit Unit) := .start () (.waitAny [()]) :: List.replicate 13 (.run ())

theorem no_lost_wakeup_asleep : ∃ s : State Unit Unit,
    Lib.run (step env) (State.init env) acts = some s ∧ (∀ t, (s.pc t).busy = false) ∧
      (0, 0) ∈ s.anyWaiters () ∧ (s.queue 0).signaled = none ∧ (s.word ()).count = 0 := by
  have hrun : (Lib.run (step env) (init env) acts).map
      (fun s => ((s.pc ()).busy, s.anyWaiters (), (s.queue 0).signaled)) =
      some (false, [(0, 0)], none) := by decide +kernel
  have hok : Lib.okRun (step env) (boundedOn env [()]) (init env) acts = true := by decide +kernel
  obtain ⟨s, hs, hval⟩ := Option.map_eq_some_iff.mp hrun
  simp only [Prod.mk.injEq] at hval
  obtain ⟨hidle, hany, hsig⟩ := hval
  have hmem : (0, 0) ∈ s.anyWaiters () := by
    rw [hany]
    exact mem_singleton_self _
  have hreach := Lib.reaches_of_okRun (bounded_of_boundedOn (by decide)) hok hs
  have hwake := no_lost_wakeup hreach fun _ => hidle
  exact ⟨s, hs, fun _ => hidle, hmem, hsig, (hwake.1 () 0 0 hmem hsig).1⟩

end OneSleeper

end WinePpc64.Ntsync
