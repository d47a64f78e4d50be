import WinePpc64.Ntsync.Model

namespace WinePpc64.Ntsync

open Option Word

variable {Sem Tid : Type} [DecidableEq Sem]

def Pc.user : Pc Sem → Bool
  | .sect _ _ _ | .waitAny _ _ | .waitAll _ _ => false
  | _ => true

inductive TryMove (s : State Sem Tid) (q : ℕ) (locked : Option Sem) : TryPc Sem → Eff Sem → TryPc Sem → Prop
  | locked : TryMove s q locked (.lock []) .skip (.check (s.queue q).objs)
  | lock (x : Sem) (todo : List Sem) : TryMove s q locked (.lock (x :: todo)) (.lockObj x) (.lock todo)
  | checked : TryMove s q locked (.check []) .skip .claim
  | empty (x : Sem) (rest : List Sem) : (s.word x).count = 0 →
      TryMove s q locked (.check (x :: rest)) .skip (.unlock (s.unlocked q locked))
  | check (x : Sem) (rest : List Sem) : (s.word x).count ≠ 0 →
      TryMove s q locked (.check (x :: rest)) .skip (.check rest)
  | claim : (s.queue q).signaled = none →
      TryMove s q locked .claim (.claimAll q) (.take (s.queue q).objs)
  | lost : (s.queue q).signaled ≠ none →
      TryMove s q locked .claim .skip (.unlock (s.unlocked q locked))
  | taken : TryMove s q locked (.take []) .skip (.unlock (s.unlocked q locked))
  | warn (x : Sem) (rest : List Sem) : (s.word x).count = 0 →
      TryMove s q locked (.take (x :: rest)) .warn (.take rest)
  | take (x : Sem) (rest : List Sem) : (s.word x).count ≠ 0 →
      TryMove s q locked (.take (x :: rest)) (.takeAll x q) (.take rest)
  | unlock (x : Sem) (todo : List Sem) :
      TryMove s q locked (.unlock (x :: todo)) (.unlockObj x) (.unlock todo)

inductive ScanMove (s : State Sem Tid) (x : Sem) : ScanPc → Eff Sem → ScanPc → Prop
  | takeHold (w : ℕ × ℕ) (rest : List (ℕ × ℕ)) : (s.word x).count ≠ 0 →
      ScanMove s x (.take (w :: rest)) (.takeHold x) (.offer (w :: rest))
  | place (q i : ℕ) (rest : List (ℕ × ℕ)) : (s.queue q).signaled = none →
      ScanMove s x (.offer ((q, i) :: rest)) (.place x q i) (.done rest)
  | skip (q i : ℕ) (rest : List (ℕ × ℕ)) : (s.queue q).signaled ≠ none →
      ScanMove s x (.offer ((q, i) :: rest)) .skip (.offer rest)
  | holdDone (rest : List (ℕ × ℕ)) : ScanMove s x (.done rest) (.holdDone x) (.take rest)

inductive Move (e : Env Sem) (s : State Sem Tid) : Pc Sem → Eff Sem → Pc Sem → Prop
  | user {p p' : Pc Sem} : p.user = true → p'.user = true → Move e s p .skip p'
  | took {p : Pc Sem} (x : Sem) : p.user = true → s.word x &&& fNoTouch = 0 → (s.word x).count ≠ 0 →
      Move e s p (.fastAcquire x) .idle
  | release {p : Pc Sem} (x : Sem) (n : ℕ) : p.user = true → s.word x &&& fNoRelease = 0 →
      (s.word x).count + n ≤ e.max x → (s.word x).waiters = 0 → Move e s p (.addCount x n) .idle
  | releaseWake {p : Pc Sem} (x : Sem) (n : ℕ) : p.user = true → s.word x &&& fNoRelease = 0 →
      (s.word x).count + n ≤ e.max x → (s.word x).waiters ≠ 0 →
      Move e s p (.addCount x n) (.sect x (.release 0) .lock)
  | ioctl {p : Pc Sem} (x : Sem) (n : ℕ) : p.user = true → Move e s p .skip (.sect x (.release n) .lock)
  | enterAny {p : Pc Sem} (objs : List Sem) : p.user = true →
      Move e s p (.newQueue objs false) (.waitAny s.fresh (.queue 0))
  | enterAll (objs : List Sem) : objs.Nodup →
      Move e s .idle (.newQueue objs true) (.waitAll s.fresh .lock)
  | lock (x : Sem) (b : Body) : Move e s (.sect x b .lock) (.lockObj x) (.sect x b .hint)
  | noHint (x : Sem) (b : Body) : s.allHint x = 0 →
      Move e s (.sect x b .hint) .skip (.sect x b (.body false))
  | hint (x : Sem) (b : Body) : s.allHint x ≠ 0 →
      Move e s (.sect x b .hint) (.unlockObj x) (.sect x b .mutex)
  | mutex (x : Sem) (b : Body) : Move e s (.sect x b .mutex) .lockMutex (.sect x b .devLock)
  | devLock (x : Sem) (b : Body) : Move e s (.sect x b .devLock) (.lockObj x) (.sect x b (.body true))
  | overflow (x : Sem) (n : ℕ) (all : Bool) : e.max x < (s.word x).count + n →
      Move e s (.sect x (.release n) (.body all)) .skip (.sect x (.release n) (.unlock all))
  | add (x : Sem) (n : ℕ) : (s.word x).count + n ≤ e.max x →
      Move e s (.sect x (.release n) (.body false)) (.addCount x n)
        (.sect x (.release n) (.scan false (.take (s.anyWaiters x))))
  | addAll (x : Sem) (n : ℕ) : (s.word x).count + n ≤ e.max x →
      Move e s (.sect x (.release n) (.body true)) (.addCount x n)
        (.sect x (.release n) (.wakeAll (s.allWaiters x)))
  | queue (x : Sem) (q i : ℕ) (all : Bool) :
      Move e s (.sect x (.queue q i) (.body all)) (.queueAny x q i) (.sect x (.queue q i) (.unlock all))
  | scanBody (x : Sem) (q i : ℕ) (all : Bool) :
      Move e s (.sect x (.scan q i) (.body all)) .skip
        (.sect x (.scan q i) (.scan all (.take (s.anyWaiters x))))
  | unqueue (x : Sem) (q i : ℕ) (all : Bool) :
      Move e s (.sect x (.unqueue q i) (.body all)) (.unqueueAny x q i)
        (.sect x (.unqueue q i) (.unlock all))
  | wakeAny (x : Sem) (b : Body) :
      Move e s (.sect x b (.wakeAll [])) .skip (.sect x b (.scan true (.take (s.anyWaiters x))))
  | wakeAll (x : Sem) (b : Body) (q : ℕ) (qs : List ℕ) :
      Move e s (.sect x b (.wakeAll (q :: qs))) .skip
        (.sect x b (.tryAll q (.lock (s.unlocked q (some x))) qs))
  | tryWake (x : Sem) (b : Body) (q : ℕ) (qs : List ℕ) {p p' : TryPc Sem} {eff : Eff Sem} :
      TryMove s q (some x) p eff p' →
      Move e s (.sect x b (.tryAll q p qs)) eff (.sect x b (.tryAll q p' qs))
  | triedWake (x : Sem) (b : Body) (q : ℕ) (qs : List ℕ) :
      Move e s (.sect x b (.tryAll q (.unlock []) qs)) .skip (.sect x b (.wakeAll qs))
  | scan (x : Sem) (b : Body) (all : Bool) {p p' : ScanPc} {eff : Eff Sem} : ScanMove s x p eff p' →
      Move e s (.sect x b (.scan all p)) eff (.sect x b (.scan all p'))
  | scanned (x : Sem) (b : Body) (all : Bool) (rest : List (ℕ × ℕ)) : rest = [] ∨ (s.word x).count = 0 →
      Move e s (.sect x b (.scan all (.take rest))) .skip (.sect x b (.unlock all))
  | giveBack (x : Sem) (b : Body) (all : Bool) :
      Move e s (.sect x b (.scan all (.offer []))) (.giveBack x) (.sect x b (.unlock all))
  | unlock (x : Sem) (b : Body) : Move e s (.sect x b (.unlock false)) (.unlockObj x) b.after
  | unlockAll (x : Sem) (b : Body) :
      Move e s (.sect x b (.unlock true)) (.unlockObj x) (.sect x b .unlockMutex)
  | unlockMutex (x : Sem) (b : Body) : Move e s (.sect x b .unlockMutex) .unlockMutex b.after
  | anyQueue (x : Sem) (q i : ℕ) : (s.queue q).objs[i]? = some x →
      Move e s (.waitAny q (.queue i)) .skip (.sect x (.queue q i) .lock)
  | anyQueued (q i : ℕ) : (s.queue q).objs[i]? = none →
      Move e s (.waitAny q (.queue i)) .skip (.waitAny q (.check 0))
  | anyScan (x : Sem) (q i : ℕ) : (s.queue q).objs[i]? = some x → (s.queue q).signaled = none →
      Move e s (.waitAny q (.check i)) .skip (.sect x (.scan q i) .lock)
  | anyChecked (q i : ℕ) : (s.queue q).objs[i]? = none ∨ (s.queue q).signaled ≠ none →
      Move e s (.waitAny q (.check i)) .skip (.waitAny q .sleep)
  | anyWoken (q : ℕ) : Move e s (.waitAny q .sleep) .skip (.waitAny q (.unqueue 0))
  | anyUnqueue (x : Sem) (q i : ℕ) : (s.queue q).objs[i]? = some x →
      Move e s (.waitAny q (.unqueue i)) .skip (.sect x (.unqueue q i) .lock)
  | anyReturn (q i : ℕ) : (s.queue q).objs[i]? = none → Move e s (.waitAny q (.unqueue i)) .skip .idle
  | allLock (q : ℕ) : Move e s (.waitAll q .lock) .lockMutex (.waitAll q (.inc (s.queue q).objs))
  | allTry (q : ℕ) :
      Move e s (.waitAll q (.inc [])) .skip (.waitAll q (.tryAll (.lock (s.unlocked q none))))
  | incFirst (q : ℕ) (x : Sem) (rest : List Sem) : s.allHint x = 0 →
      Move e s (.waitAll q (.inc (x :: rest))) (.incHint x) (.waitAll q (.flag x rest))
  | incMore (q : ℕ) (x : Sem) (rest : List Sem) : s.allHint x ≠ 0 →
      Move e s (.waitAll q (.inc (x :: rest))) (.incHint x) (.waitAll q (.add x rest))
  | flag (q : ℕ) (x : Sem) (rest : List Sem) :
      Move e s (.waitAll q (.flag x rest)) (.setFlag x) (.waitAll q (.add x rest))
  | allAdd (q : ℕ) (x : Sem) (rest : List Sem) :
      Move e s (.waitAll q (.add x rest)) (.queueAll x q) (.waitAll q (.inc rest))
  | tryOwn (q : ℕ) {p p' : TryPc Sem} {eff : Eff Sem} : TryMove s q none p eff p' →
      Move e s (.waitAll q (.tryAll p)) eff (.waitAll q (.tryAll p'))
  | triedOwn (q : ℕ) : Move e s (.waitAll q (.tryAll (.unlock []))) .skip (.waitAll q .unlock)
  | allUnlock (q : ℕ) : Move e s (.waitAll q .unlock) .unlockMutex (.waitAll q .sleep)
  | allWoken (q : ℕ) : Move e s (.waitAll q .sleep) .skip (.waitAll q .relock)
  | allRelock (q : ℕ) : Move e s (.waitAll q .relock) .lockMutex (.waitAll q (.del (s.queue q).objs))
  | allDeleted (q : ℕ) : Move e s (.waitAll q (.del [])) .skip (.waitAll q .finish)
  | allDel (q : ℕ) (x : Sem) (rest : List Sem) :
      Move e s (.waitAll q (.del (x :: rest))) (.unqueueAll x q) (.waitAll q (.dec x rest))
  | decLast (q : ℕ) (x : Sem) (rest : List Sem) : s.allHint x - 1 = 0 →
      Move e s (.waitAll q (.dec x rest)) (.decHint x) (.waitAll q (.clear x rest))
  | decMore (q : ℕ) (x : Sem) (rest : List Sem) : s.allHint x - 1 ≠ 0 →
      Move e s (.waitAll q (.dec x rest)) (.decHint x) (.waitAll q (.del rest))
  | clear (q : ℕ) (x : Sem) (rest : List Sem) :
      Move e s (.waitAll q (.clear x rest)) (.clearFlag x) (.waitAll q (.del rest))
  | allReturn (q : ℕ) : Move e s (.waitAll q .finish) .unlockMutex .idle

variable {e : Env Sem} {s s' : State Sem Tid}

theorem fastAcquireSemaphore_took {w : Word} :
    fastAcquireSemaphore w = .took ↔ w &&& fNoTouch = 0 ∧ w.count ≠ 0 := by
  simp only [fastAcquireSemaphore, and_countMask]
  by_cases ht : w &&& fNoTouch = 0
  · by_cases hc : w.count = 0 <;> simp [hc, ht]
  · rw [if_pos ht]
    exact ⟨fun h => (nomatch h), fun h => absurd h.1 ht⟩

theorem tryNext_cases (q : ℕ) (locked : Option Sem) (p : TryPc Sem) :
    (∃ eff p', tryNext s q locked p = (eff, some p') ∧ TryMove s q locked p eff p') ∨ p = .unlock [] := by
  cases p with
  | lock todo =>
    cases todo with
    | nil => exact .inl ⟨_, _, rfl, .locked⟩
    | cons x todo => exact .inl ⟨_, _, rfl, .lock x todo⟩
  | check rest =>
    cases rest with
    | nil => exact .inl ⟨_, _, rfl, .checked⟩
    | cons x rest =>
      simp only [tryNext, and_countMask]
      split
      · exact .inl ⟨_, _, rfl, .empty x rest ‹_›⟩
      · exact .inl ⟨_, _, rfl, .check x rest ‹_›⟩
  | claim =>
    simp only [tryNext, isNone_iff_eq_none]
    split
    · exact .inl ⟨_, _, rfl, .claim ‹_›⟩
    · exact .inl ⟨_, _, rfl, .lost ‹_›⟩
  | take rest =>
    cases rest with
    | nil => exact .inl ⟨_, _, rfl, .taken⟩
    | cons x rest =>
      simp only [tryNext, and_countMask]
      split
      · exact .inl ⟨_, _, rfl, .warn x rest ‹_›⟩
      · exact .inl ⟨_, _, rfl, .take x rest ‹_›⟩
  | unlock todo =>
    cases todo with
    | nil => exact .inr rfl
    | cons x todo => exact .inl ⟨_, _, rfl, .unlock x todo⟩

variable {x : Sem} {b : Body}

theorem move_of_bodyNext {all : Bool} :
    Move e s (.sect x b (.body all)) (bodyNext e s x all b).1 (.sect x b (bodyNext e s x all b).2) := by
  cases b with
  | release n =>
    have hmax := e.max_lt x
    simp only [bodyNext]
    split
    · exact .overflow x n all (by omega)
    cases all with
    | false => exact .add x n (by omega)
    | true => exact .addAll x n (by omega)
  | queue q i => exact .queue x q i all
  | scan q i => exact .scanBody x q i all
  | unqueue q i => exact .unqueue x q i all

variable {r : Eff Sem × Pc Sem} {p : Pc Sem} {q n : ℕ}

theorem move_of_scan {all : Bool} {p : ScanPc} :
    Move e s (.sect x b (.scan all p)) (sectNext e s x b (.scan all p)).1
      (sectNext e s x b (.scan all p)).2 := by
  cases p with
  | take rest =>
    cases rest with
    | nil => exact .scanned x b all [] (.inl rfl)
    | cons w rest =>
      simp only [sectNext, scanNext, and_countMask]
      by_cases hc : (s.word x).count = 0
      · rw [if_pos hc]
        exact .scanned x b all _ (.inr hc)
      · rw [if_neg hc]
        exact .scan x b all (.takeHold w rest hc)
  | offer rest =>
    cases rest with
    | nil => exact .giveBack x b all
    | cons w rest =>
      obtain ⟨q, i⟩ := w
      simp only [sectNext, scanNext, isNone_iff_eq_none]
      by_cases hq : (s.queue q).signaled = none
      · rw [if_pos hq]
        exact .scan x b all (.place q i rest hq)
      · rw [if_neg hq]
        exact .scan x b all (.skip q i rest hq)
  | done rest => exact .scan x b all (.holdDone rest)

theorem move_of_sectNext {p : SectPc Sem} :
    Move e s (.sect x b p) (sectNext e s x b p).1 (sectNext e s x b p).2 := by
  cases p with
  | lock => exact .lock x b
  | hint =>
    simp only [sectNext]
    split
    · exact .noHint x b ‹_›
    · exact .hint x b ‹_›
  | mutex => exact .mutex x b
  | devLock => exact .devLock x b
  | body all => exact move_of_bodyNext
  | wakeAll qs =>
    cases qs with
    | nil => exact .wakeAny x b
    | cons q qs => exact .wakeAll x b q qs
  | tryAll q p qs =>
    obtain ⟨eff, p', hp, hmove⟩ | rfl := tryNext_cases (s := s) q (some x) p
    · simp only [sectNext, hp]
      exact .tryWake x b q qs hmove
    · exact .triedWake x b q qs
  | scan all p => exact move_of_scan
  | unlock all =>
    cases all with
    | false => exact .unlock x b
    | true => exact .unlockAll x b
  | unlockMutex => exact .unlockMutex x b

theorem move_of_anyNext {p : AnyPc} : Move e s (.waitAny q p) (anyNext s q p).1 (anyNext s q p).2 := by
  cases p with
  | queue i =>
    simp only [anyNext]
    split
    · exact .anyQueue _ q i ‹_›
    · exact .anyQueued q i ‹_›
  | check i =>
    simp only [anyNext]
    split
    · exact .anyScan _ q i ‹_› ‹_›
    rename_i hne
    refine .anyChecked q i ?_
    by_contra hcon
    push Not at hcon
    obtain ⟨x, hx⟩ := ne_none_iff_exists'.mp hcon.1
    exact hne x hx hcon.2
  | sleep => exact .anyWoken q
  | unqueue i =>
    simp only [anyNext]
    split
    · exact .anyUnqueue _ q i ‹_›
    · exact .anyReturn q i ‹_›

theorem move_of_allNext {p : AllPc Sem} : Move e s (.waitAll q p) (allNext s q p).1 (allNext s q p).2 := by
  cases p with
  | lock => exact .allLock q
  | inc rest =>
    cases rest with
    | nil => exact .allTry q
    | cons x rest =>
      simp only [allNext, Nat.add_eq_right]
      split
      · exact .incFirst q x rest ‹_›
      · exact .incMore q x rest ‹_›
  | flag x rest => exact .flag q x rest
  | add x rest => exact .allAdd q x rest
  | tryAll p =>
    obtain ⟨eff, p', hp, hmove⟩ | rfl := tryNext_cases (s := s) q none p
    · simp only [allNext, hp]
      exact .tryOwn q hmove
    · exact .triedOwn q
  | unlock => exact .allUnlock q
  | sleep => exact .allWoken q
  | relock => exact .allRelock q
  | del rest =>
    cases rest with
    | nil => exact .allDeleted q
    | cons x rest => exact .allDel q x rest
  | dec x rest =>
    simp only [allNext]
    split
    · exact .decLast q x rest ‹_›
    · exact .decMore q x rest ‹_›
  | clear x rest => exact .clear q x rest
  | finish => exact .allReturn q

theorem move_of_fastRelease :
    Move e s (.release x n) (fastReleaseNext e s x n).1 (fastReleaseNext e s x n).2 := by
  simp only [fastReleaseNext]
  split
  · exact .ioctl x n rfl
  rename_i hno
  push Not at hno
  obtain ⟨-, hflags, hroom⟩ := hno
  split
  · exact .releaseWake x n rfl hflags (by omega) (mt (and_waiterMask _).mpr ‹_›)
  · exact .release x n rfl hflags (by omega) ((and_waiterMask _).mp (not_not.mp ‹_›))

theorem move_of_took (hp : p.user = true)
    (h : fastAcquireSemaphore (s.word x) = .took) : Move e s p (.fastAcquire x) .idle := by
  obtain ⟨hflags, hcount⟩ := fastAcquireSemaphore_took.mp h
  exact .took x hp hflags hcount

theorem move_of_next (h : next e s p = some r) : Move e s p r.1 r.2 := by
  cases p with
  | idle => cases h
  | acquire x =>
    simp only [next] at h
    split at h
    · cases h; exact move_of_took rfl ‹_›
    · cases h; exact .user rfl rfl
    · cases h; exact .user rfl rfl
  | release x n => cases h; exact move_of_fastRelease
  | walk objs i =>
    simp only [next] at h
    split at h
    · cases h; exact .user rfl rfl
    split at h
    · cases h; exact move_of_took rfl ‹_›
    · cases h; exact .user rfl rfl
    · cases h; exact .enterAny objs rfl
  | spin objs i =>
    simp only [next] at h
    split at h
    · cases h; exact .user rfl rfl
    split at h
    · cases h; exact .enterAny objs rfl
    · split at h
      · cases h; exact .user rfl rfl
      · cases h; exact .user rfl rfl
  | spinTry objs i =>
    simp only [next] at h
    split at h
    · cases h; exact .user rfl rfl
    split at h
    · cases h; exact move_of_took rfl ‹_›
    · cases h; exact .user rfl rfl
    · cases h; exact .user rfl rfl
  | sect x b p => cases h; exact move_of_sectNext
  | waitAny q p => cases h; exact move_of_anyNext
  | waitAll q p => cases h; exact move_of_allNext

theorem move_of_begin {op : Op Sem} (h : op.begin s = some r) : Move e s .idle r.1 r.2 := by
  cases op with
  | acquire x => cases h; exact .user rfl rfl
  | release x n => cases h; exact .user rfl rfl
  | inprocWait objs => cases h; exact .user rfl rfl
  | semRelease x n => cases h; exact .ioctl x n rfl
  | waitAny objs => cases h; exact .enterAny objs rfl
  | waitAll objs =>
    simp only [Op.begin] at h
    split at h
    · cases h; exact .enterAll objs ‹_›
    · cases h

variable [DecidableEq Tid]

def State.after (s : State Sem Tid) (t : Tid) (eff : Eff Sem) (p : Pc Sem) : State Sem Tid :=
  { eff.apply t s with pc := Function.update s.pc t p }

def State.alerted (s : State Sem Tid) (q : ℕ) : State Sem Tid :=
  { s with
    queue := Function.update s.queue q { (s.queue q) with signaled := some (s.queue q).objs.length } }

theorem move_eq_some {t : Tid} (h : s.move t r = some s') : r.1.enabled s = true ∧ s' = s.after t r.1 r.2 := by
  simp only [State.move] at h
  split at h
  · cases h; exact ⟨‹_›, rfl⟩
  · cases h

theorem step_cases {a : Act Sem Tid} (h : step e s a = some s') :
    (∃ t eff p, Move e s (s.pc t) eff p ∧ eff.enabled s = true ∧ s' = s.after t eff p) ∨
      ∃ q, q < s.fresh ∧ (s.queue q).signaled = none ∧ s' = s.alerted q := by
  cases a with
  | start t op =>
    simp only [step] at h
    split at h
    · rename_i hidle
      obtain ⟨r, hr, hmove⟩ := bind_eq_some_iff.mp h
      obtain ⟨hen, rfl⟩ := move_eq_some hmove
      refine .inl ⟨t, r.1, r.2, ?_, hen, rfl⟩
      rw [hidle]
      exact move_of_begin hr
    · cases h
  | run t =>
    obtain ⟨r, hr, hmove⟩ := bind_eq_some_iff.mp h
    obtain ⟨hen, rfl⟩ := move_eq_some hmove
    exact .inl ⟨t, r.1, r.2, move_of_next hr, hen, rfl⟩
  | leave t =>
    simp only [step] at h
    split at h
    · rename_i objs i hpc
      split at h
      · obtain ⟨hen, rfl⟩ := move_eq_some h
        refine .inl ⟨t, _, _, ?_, hen, rfl⟩
        rw [hpc]
        exact .enterAny objs rfl
      · cases h
    · rename_i objs i hpc
      split at h
      · obtain ⟨hen, rfl⟩ := move_eq_some h
        refine .inl ⟨t, _, _, ?_, hen, rfl⟩
        rw [hpc]
        exact .enterAny objs rfl
      · cases h
    · cases h
  | alert q =>
    simp only [step] at h
    split at h
    · rename_i hq
      cases h
      exact .inr ⟨q, hq.1, hq.2, rfl⟩
    · cases h

end WinePpc64.Ntsync
