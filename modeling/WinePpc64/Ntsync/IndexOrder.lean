import WinePpc64.Ntsync.Conservation

namespace WinePpc64.Ntsync

open Function List Option

/-- If a semaphore has been without a signal since a call: not as far as is known, at an instant at
which its only unit was on loan and still is, or at an instant. -/
inductive Evidence
  | none
  | lent
  | shown
  deriving DecidableEq, Repr

section

variable {Sem Tid : Type} [DecidableEq Sem]

def Evidence.settle (s s' : State Sem Tid) (x : Sem) : Evidence → Evidence
  | .lent => if s'.loan x then .lent else if s'.log.length = s.log.length then .none else .shown
  | ev => ev

def Evidence.look (s : State Sem Tid) (x : Sem) (ev : Evidence) : Evidence :=
  if (s.word x).count = 0 then
    if s.loan x then if ev = .none then .lent else ev else .shown
  else ev

def Evidence.next (s s' : State Sem Tid) (x : Sem) (ev : Evidence) : Evidence :=
  (ev.settle s s' x).look s' x

def Pc.walked (k : ℕ) : Pc Sem → ℕ
  | .walk _ i => i
  | _ => k

def Pc.checked (k : ℕ) : Pc Sem → ℕ
  | .sect _ (.scan _ i) _ => i
  | _ => k

/-- A call of `inproc_wait`: what is known of each object, how many the walk has gone past, how many
the loop of `ntsync_wait_any` has scanned, and which have had the unit that they were known for given
back. -/
structure Call (Sem : Type) where
  objs : List Sem
  seen : ℕ → Evidence
  walked : ℕ
  checked : ℕ
  lentBack : ℕ → Bool

namespace Call

def start (s : State Sem Tid) (objs : List Sem) : Call Sem :=
  ⟨objs, fun j => objs[j]?.elim .none fun x => Evidence.none.look s x, 0, 0, fun _ => false⟩

def settle (s s' : State Sem Tid) (c : Call Sem) : Call Sem :=
  { c with
    seen := fun j => c.objs[j]?.elim (c.seen j) fun x => (c.seen j).settle s s' x
    lentBack := fun j => c.lentBack j ||
      c.objs[j]?.elim false fun x => c.seen j ≠ .none ∧ (c.seen j).settle s s' x = .none }

def next (s s' : State Sem Tid) (p : Pc Sem) (c : Call Sem) : Call Sem :=
  { c.settle s s' with
    seen := fun j => c.objs[j]?.elim (c.seen j) fun x => (c.seen j).next s s' x
    walked := p.walked c.walked
    checked := p.checked c.checked }

end Call

structure Hist (Sem Tid : Type) where
  calls : Tid → Option (Call Sem)
  returned : List (Call Sem × ℕ)

def returns (s : State Sem Tid) : Act Sem Tid → Option (Tid × ℕ)
  | .run t => match s.pc t with
    | .walk objs i | .spinTry objs i => match objs[i]? with
      | some x => if fastAcquireSemaphore (s.word x) = .took then some (t, i) else none
      | none => none
    | .waitAny q (.unqueue i) => match (s.queue q).objs[i]?, (s.queue q).signaled with
      | none, some k => if k < (s.queue q).objs.length then some (t, k) else none
      | _, _ => none
    | _ => none
  | _ => none

variable [DecidableEq Tid]

namespace Hist

def init : Hist Sem Tid := ⟨fun _ => none, []⟩

def goOn (h : Hist Sem Tid) (s s' : State Sem Tid) (t : Tid) : Option (Call Sem) :=
  match s'.pc t with
  | .idle => none
  | p => (h.calls t).map (Call.next s s' p)

def next (h : Hist Sem Tid) (s : State Sem Tid) (a : Act Sem Tid) (s' : State Sem Tid) : Hist Sem Tid where
  calls t := match a with
    | .start t' (.inprocWait objs) => if t = t' then some (.start s' objs) else h.goOn s s' t
    | _ => h.goOn s s' t
  returned := (match returns s a with
      | some (t, i) => ((h.calls t).map fun c => (c.next s s' (s'.pc t), i)).toList
      | none => []) ++ h.returned.map fun r => (r.1.settle s s', r.2)

end Hist

def stepHist (e : Env Sem) (u : State Sem Tid × Hist Sem Tid) (a : Act Sem Tid) :
    Option (State Sem Tid × Hist Sem Tid) :=
  (step e u.1 a).map fun s' => (s', u.2.next u.1 a s')

def InOrder (h : Hist Sem Tid) : Prop := ∀ r ∈ h.returned, ∀ j < r.2, r.1.seen j ≠ .none

/-- Nothing speaks for the object: the unit it was known for has been given back, or neither the walk
nor the scans of the call's own loop have come to it. -/
def Call.Unseen (c : Call Sem) (j : ℕ) : Prop :=
  c.lentBack j = true ∨ c.walked ≤ j ∧ c.checked ≤ j

/-- A step that returns an index does so with no object before it unseen, and a unit that a returned call
rests on is not given back: it stays on loan or is placed. -/
def Orderly (e : Env Sem) (u : State Sem Tid × Hist Sem Tid) (a : Act Sem Tid) : Prop :=
  ∀ s', step e u.1 a = some s' →
    (∀ t i c, returns u.1 a = some (t, i) → u.2.calls t = some c → ∀ j < i,
      ¬ (c.next u.1 s' (s'.pc t)).Unseen j) ∧
    ∀ r ∈ u.2.returned, ∀ j < r.2, ∀ x, r.1.objs[j]? = some x → r.1.seen j = .lent →
      s'.loan x = true ∨ s'.log.length ≠ u.1.log.length

end

variable {j q i : ℕ} {ev ev' : Evidence}

section Calls

variable {Sem Tid : Type} {e : Env Sem} {s s' : State Sem Tid} {t : Tid} {eff : Eff Sem}
  {p p' : Pc Sem} {c : Call Sem} {x : Sem}

theorem Evidence.next_shown : Evidence.shown.next s s' x = .shown := by
  simp only [Evidence.next, Evidence.settle, Evidence.look]
  split
  · split
    · rfl
    · rfl
  · rfl

theorem Evidence.look_of_count (h : (s.word x).count = 0) :
    ev.look s x ≠ .none ∧ (s.loan x = false → ev.look s x = .shown) := by
  simp only [Evidence.look, h, if_true]
  cases hl : s.loan x with
  | false => simp
  | true =>
    by_cases hev : ev = .none
    · simp [hev]
    · simp [hev]

theorem Evidence.look_ne_none (h : ev ≠ .none) : ev.look s x ≠ .none := by
  simp only [Evidence.look]
  split
  · split
    · exact h
    · nofun
  · exact h

structure Call.Ok (s : State Sem Tid) (c : Call Sem) : Prop where
  current : ∀ j x, c.objs[j]? = some x → (s.word x).count = 0 →
    c.seen j ≠ .none ∧ (s.loan x = false → c.seen j = .shown)
  walked : ∀ j < c.walked, c.seen j ≠ .none ∨ c.lentBack j = true
  checked : ∀ j < c.checked, c.seen j = .shown

def SectPc.Scans (w : ℕ × ℕ) (ev : Evidence) : SectPc Sem → Prop
  | .scan _ (.take rest) | .scan _ (.offer rest) | .scan _ (.done rest) => w ∈ rest
  | .unlock _ | .unlockMutex => ev = .shown
  | _ => True

def Checked (s : State Sem Tid) (c : Call Sem) : Pc Sem → Prop
  | .waitAny q (.check k) => (s.queue q).signaled = none → ∀ j < k, c.seen j = .shown
  | .sect _ (.scan q k) sp => (∀ j < k, c.seen j = .shown) ∧
      ((s.queue q).signaled = none → sp.Scans (q, k) (c.seen k))
  | _ => True

def InCall (s : State Sem Tid) (c : Call Sem) : Pc Sem → Prop
  | .walk objs i => objs = c.objs ∧ i = c.walked
  | .spin objs _ | .spinTry objs _ => objs = c.objs
  | p => (∃ q, p.own = some q ∧ (s.queue q).objs = c.objs) ∧ Checked s c p

theorem Call.next_shown (h : c.seen j = .shown) : (c.next s s' p).seen j = .shown := by
  change c.objs[j]?.elim (c.seen j) (fun x => (c.seen j).next s s' x) = .shown
  cases c.objs[j]? with
  | none => exact h
  | some x => simp only [elim_some, h, Evidence.next_shown]

theorem Call.next_seen (h : c.seen j ≠ .none ∨ c.lentBack j = true) :
    (c.next s s' p).seen j ≠ .none ∨ (c.next s s' p).lentBack j = true := by
  change c.objs[j]?.elim (c.seen j) (fun x => (c.seen j).next s s' x) ≠ .none ∨
    (c.lentBack j || c.objs[j]?.elim false fun x => c.seen j ≠ .none ∧ (c.seen j).settle s s' x = .none) = true
  obtain h | h := h
  · cases c.objs[j]? with
    | none => exact .inl h
    | some x =>
      by_cases hset : (c.seen j).settle s s' x = .none
      · exact .inr (by simp [h, hset])
      · exact .inl (Evidence.look_ne_none hset)
  · exact .inr (by rw [h, Bool.true_or])

theorem Call.next_current (j : ℕ) (x : Sem) (hx : (c.next s s' p).objs[j]? = some x)
    (h0 : (s'.word x).count = 0) : (c.next s s' p).seen j ≠ .none ∧
      (s'.loan x = false → (c.next s s' p).seen j = .shown) := by
  change c.objs[j]? = some x at hx
  change c.objs[j]?.elim (c.seen j) (fun x => (c.seen j).next s s' x) ≠ .none ∧
    (s'.loan x = false → c.objs[j]?.elim (c.seen j) (fun x => (c.seen j).next s s' x) = .shown)
  rw [hx]
  exact Evidence.look_of_count h0

theorem Call.Ok.next (hok : c.Ok s)
    (hwalk : ∀ objs i, p = .walk objs i → ∀ j, j < i → c.walked ≤ j → (c.next s s' p).seen j ≠ .none)
    (hcheck : ∀ x q k sp, p = .sect x (.scan q k) sp → ∀ j < k, (c.next s s' p).seen j = .shown) :
    (c.next s s' p).Ok s' where
  current := Call.next_current
  walked := by
    intro j hj
    by_cases hw : j < c.walked
    · exact Call.next_seen (hok.walked j hw)
    left
    cases p with
    | walk objs i => exact hwalk objs i rfl j hj (by omega)
    | _ => exact absurd hj hw
  checked := by
    intro j hj
    change j < p.checked c.checked at hj
    unfold Pc.checked at hj
    split at hj
    · exact hcheck _ _ _ _ rfl j hj
    · exact Call.next_shown (hok.checked j hj)

variable [DecidableEq Sem]

theorem Move.own_of_own (hm : Move e s p eff p') (h : p.own = some q) : p' = .idle ∨ p'.own = some q := by
  cases hm with
  | user hu | took y hu | release y n hu | releaseWake y n hu | ioctl y n hu | enterAny objs hu =>
    rw [Pc.own_of_user hu] at h
    cases h
  | enterAll => cases h
  | unlock y b | unlockMutex y b =>
    cases b with
    | release n => cases h
    | _ => exact .inr h
  | anyReturn | allReturn => exact .inl rfl
  | overflow | add | addAll => cases h
  | lock y b | noHint y b | hint y b | mutex y b | devLock y b | wakeAny y b | wakeAll y b | tryWake y b
  | triedWake y b | scan y b | scanned y b | giveBack y b | unlockAll y b =>
    cases b <;> exact .inr h
  | _ => exact .inr h

theorem Move.checked (hi : Inv e s) (hp : s.pc t = p) (hm : Move e s p eff p')
    (hsig : ∀ q, (s'.queue q).signaled = none → (s.queue q).signaled = none)
    (hplace : ∀ x q i, eff = .place x q i → (s'.queue q).signaled ≠ none)
    (hobjs : ∀ q, p.own = some q → (s.queue q).objs = c.objs) (hok : c.Ok s) (h : Checked s c p) :
    Checked s' (c.next s s' p') p' := by
  have hpc := hi.ok t
  have hany (q : ℕ) (j : ℕ) (x : Sem) := hi.any t q j x
  rw [hp] at hpc hany
  have hshown {k : ℕ} (h : ∀ j < k, c.seen j = .shown) : ∀ j < k, (c.next s s' p').seen j = .shown :=
    fun j hj => Call.next_shown (h j hj)
  cases hm with
  | user hu hu' => cases p' <;> trivial
  | anyQueued q i => exact fun _ j hj => absurd hj (Nat.not_lt_zero j)
  | anyScan x q k hx hnone => exact ⟨hshown (h hnone), fun _ => trivial⟩
  | lock x b | noHint x b | hint x b | mutex x b | devLock x b =>
    cases b with
    | scan q k => exact ⟨hshown h.1, fun _ => trivial⟩
    | _ => trivial
  | scanBody x q k all => exact ⟨hshown h.1, fun _ => hany q k x rfl trivial hpc.1.2⟩
  | wakeAny x b =>
    cases b with
    | scan q k => exact ⟨hshown h.1, fun _ => hany q k x rfl trivial hpc.1.2⟩
    | _ => trivial
  | wakeAll x b | tryWake x b | triedWake x b =>
    cases b with
    | scan q k => exact ⟨hshown h.1, fun _ => trivial⟩
    | _ => trivial
  | scan x b all hscan =>
    cases b with
    | scan q k =>
      refine ⟨hshown h.1, ?_⟩
      intro hnone
      have hrest := h.2 (hsig q hnone)
      cases hscan with
      | takeHold w rest hc => exact hrest
      | place q' i rest hq' =>
        obtain heq | hrest := mem_cons.mp hrest
        · cases heq
          exact absurd hnone (hplace x q k rfl)
        · exact hrest
      | skip q' i rest hq' =>
        obtain heq | hrest := mem_cons.mp hrest
        · cases heq
          exact absurd (hsig q hnone) hq'
        · exact hrest
      | holdDone rest => exact hrest
    | _ => trivial
  | scanned x b all rest hend =>
    cases b with
    | scan q k =>
      refine ⟨hshown h.1, ?_⟩
      intro hnone
      have hrest : (q, k) ∈ rest := h.2 (hsig q hnone)
      refine Call.next_shown ?_
      obtain rfl | hcount := hend
      · cases hrest
      have hx : c.objs[k]? = some x := by
        rw [← hobjs q rfl]
        exact hpc.1.2
      have hloan : s.loan x = false :=
        hi.loan_of_holds (by rw [hp]; rfl) (by rw [hp]; exact id)
      exact (hok.current k x hx hcount).2 hloan
    | _ => trivial
  | giveBack x b all =>
    cases b with
    | scan q k => exact ⟨hshown h.1, fun hnone => nomatch h.2 (hsig q hnone)⟩
    | _ => trivial
  | unlockAll x b =>
    cases b with
    | scan q k => exact ⟨hshown h.1, fun hnone => Call.next_shown (h.2 (hsig q hnone))⟩
    | _ => trivial
  | unlock x b | unlockMutex x b =>
    cases b with
    | scan q k =>
      intro hnone j hj
      refine Call.next_shown ?_
      obtain rfl | hlt := Nat.eq_or_lt_of_le (Nat.lt_succ_iff.mp hj)
      · exact h.2 (hsig q hnone)
      · exact h.1 j hlt
    | _ => trivial
  | _ => trivial

end Calls

section Steps

variable {Sem Tid : Type} [DecidableEq Sem] [DecidableEq Tid] {e : Env Sem} {s s' : State Sem Tid}
  {t : Tid} {a : Act Sem Tid} {c : Call Sem} {h : Hist Sem Tid}

variable {objs : List Sem} {r : Eff Sem × Pc Sem}

omit [DecidableEq Tid] in
theorem next_walk (h : next e s (.walk objs i) = some r) :
    r = (.skip, .spin objs 0) ∨ r.2 = .idle ∨ r = enterKernel s objs ∨
      r = (.skip, .walk objs (i + 1)) ∧ ∃ x, objs[i]? = some x ∧ (s.word x).count = 0 := by
  simp only [next] at h
  split at h
  · cases h; exact .inl rfl
  rename_i x hx
  split at h
  · cases h; exact .inr (.inl rfl)
  · rename_i hempty
    cases h
    refine .inr (.inr (.inr ⟨rfl, x, hx, ?_⟩))
    by_contra hne
    by_cases ht : s.word x &&& fNoTouch = 0
    · rw [fastAcquireSemaphore_took.mpr ⟨ht, hne⟩] at hempty
      cases hempty
    · rw [fastAcquireSemaphore, if_pos ht] at hempty
      cases hempty
  · cases h; exact .inr (.inr (.inl rfl))

variable {p : Pc Sem}

omit [DecidableEq Tid] in
theorem next_spin (hp : p = .spin objs i ∨ p = .spinTry objs i)
    (h : next e s p = some r) : r.2 = .idle ∨ r = enterKernel s objs ∨
      ∃ j, r.2 = .spin objs j ∨ r.2 = .spinTry objs j := by
  obtain rfl | rfl := hp
  · simp only [next] at h
    split at h
    · cases h; exact .inr (.inr ⟨0, .inl rfl⟩)
    split at h
    · cases h; exact .inr (.inl rfl)
    · split at h
      · cases h; exact .inr (.inr ⟨_, .inl rfl⟩)
      · cases h; exact .inr (.inr ⟨_, .inr rfl⟩)
  · simp only [next] at h
    split at h
    · cases h; exact .inr (.inr ⟨_, .inl rfl⟩)
    split at h
    · cases h; exact .inl rfl
    · cases h; exact .inr (.inr ⟨_, .inl rfl⟩)
    · cases h; exact .inr (.inr ⟨_, .inl rfl⟩)

def OwnStep (e : Env Sem) (s s' : State Sem Tid) (t : Tid) : Prop :=
  ∃ eff p, s' = s.after t eff p ∧ eff.enabled s = true ∧ (next e s (s.pc t) = some (eff, p) ∨
    ∃ objs i, (s.pc t = .walk objs i ∨ s.pc t = .spin objs i) ∧ (eff, p) = enterKernel s objs)

theorem thread_cases (hs : step e s a = some s') : s'.pc t = s.pc t ∨
    (∃ op, a = .start t op ∧ s.pc t = .idle) ∨ OwnStep e s s' t := by
  have hother {t' : Tid} {eff : Eff Sem} {p : Pc Sem} (hne : t ≠ t') : (s.after t' eff p).pc t = s.pc t :=
    update_of_ne hne ..
  cases a with
  | start t' op =>
    simp only [step] at hs
    split at hs
    · rename_i hidle
      obtain ⟨r, -, hmove⟩ := bind_eq_some_iff.mp hs
      obtain ⟨-, rfl⟩ := move_eq_some hmove
      by_cases heq : t = t'
      · subst heq
        exact .inr (.inl ⟨op, rfl, hidle⟩)
      · exact .inl (hother heq)
    · cases hs
  | run t' =>
    obtain ⟨r, hr, hmove⟩ := bind_eq_some_iff.mp hs
    obtain ⟨hen, rfl⟩ := move_eq_some hmove
    by_cases heq : t = t'
    · subst heq
      exact .inr (.inr ⟨r.1, r.2, rfl, hen, .inl hr⟩)
    · exact .inl (hother heq)
  | leave t' =>
    have hleave {objs : List Sem} {i : ℕ} (hpc : s.pc t' = .walk objs i ∨ s.pc t' = .spin objs i)
        (hmove : s.move t' (enterKernel s objs) = some s') : s'.pc t = s.pc t ∨ OwnStep e s s' t := by
      obtain ⟨hen, rfl⟩ := move_eq_some hmove
      by_cases heq : t = t'
      · subst heq
        exact .inr ⟨_, _, rfl, hen, .inr ⟨objs, i, hpc, rfl⟩⟩
      · exact .inl (hother heq)
    simp only [step] at hs
    split at hs
    · rename_i objs i hpc
      split at hs
      · exact (hleave (.inl hpc) hs).imp_right .inr
      · cases hs
    · rename_i objs i hpc
      split at hs
      · exact (hleave (.inr hpc) hs).imp_right .inr
      · cases hs
    · cases hs
  | alert q =>
    simp only [step] at hs
    split at hs
    · cases hs
      exact .inl rfl
    · cases hs

variable {eff : Eff Sem}

theorem inCall_enterKernel (hobjs : objs = c.objs)
    (hk : (eff, p) = enterKernel s objs) : InCall (s.after t eff p) (c.next s (s.after t eff p) p) p := by
  cases hk
  have hqueue : (s.after t (.newQueue objs false) (.waitAny s.fresh (.queue 0))).queue s.fresh =
      ⟨objs, false, none⟩ := update_self ..
  refine ⟨⟨s.fresh, rfl, ?_⟩, trivial⟩
  rw [hqueue]
  exact hobjs

theorem step_queue (hi : Inv e s) (hd : Deliveries s) (hs : step e s a = some s') :
    (∀ q < s.fresh, (s'.queue q).objs = (s.queue q).objs) ∧
      ∀ q, (s'.queue q).signaled = none → (s.queue q).signaled = none := by
  obtain ⟨t, eff, p, hm, hen, rfl⟩ | ⟨q, -, -, rfl⟩ := step_cases hs
  · exact ⟨fun q hq => (apply_queue hq).1, fun q hq => hd.signaled_of_after hi hm hen hq⟩
  refine ⟨fun q' _ => alerted_queue.1, ?_⟩
  intro q' hq'
  by_cases heq : q' = q
  · subst heq
    simp [State.alerted] at hq'
  · simpa [State.alerted, update_of_ne heq] using hq'

omit [DecidableEq Sem] [DecidableEq Tid] in
theorem SectPc.Scans.shown {w : ℕ × ℕ} {sp : SectPc Sem} (h : sp.Scans w ev)
    (hev : ev = .shown → ev' = .shown) : sp.Scans w ev' := by
  cases sp with
  | scan all p => cases p <;> exact h
  | unlock | unlockMutex => exact hev h
  | _ => trivial

omit [DecidableEq Tid] in
theorem inCall_other (hi : Inv e s) (hobjs : ∀ q < s.fresh, (s'.queue q).objs = (s.queue q).objs)
    (hsig : ∀ q, (s'.queue q).signaled = none → (s.queue q).signaled = none)
    (h : InCall s c (s.pc t)) : InCall s' (c.next s s' (s.pc t)) (s.pc t) := by
  have hlt := hi.ownFresh t
  generalize s.pc t = p at *
  have hkernel (hk : (∃ q, p.own = some q ∧ (s.queue q).objs = c.objs) ∧ Checked s c p) :
      (∃ q, p.own = some q ∧ (s'.queue q).objs = (c.next s s' p).objs) ∧ Checked s' (c.next s s' p) p := by
    obtain ⟨⟨q, hown, hq⟩, hch⟩ := hk
    refine ⟨⟨q, hown, (hobjs q (hlt q hown)).trans hq⟩, ?_⟩
    unfold Checked at hch ⊢
    split at hch
    · exact fun hnone j hj => Call.next_shown (hch (hsig _ hnone) j hj)
    · exact ⟨fun j hj => Call.next_shown (hch.1 j hj),
        fun hnone => (hch.2 (hsig _ hnone)).shown Call.next_shown⟩
    · trivial
  cases p with
  | walk objs i => exact ⟨h.1, rfl⟩
  | spin objs i | spinTry objs i => exact h
  | _ => exact hkernel h

omit [DecidableEq Sem] [DecidableEq Tid] in
theorem inCall_of_own (hown : p.own = some q) (hobjs : (s.queue q).objs = c.objs)
    (h : Checked s c p) : InCall s c p := by
  cases p with
  | walk | spin | spinTry => cases hown
  | _ => exact ⟨⟨q, hown, hobjs⟩, h⟩

theorem inCall_walk (hnext : next e s (.walk c.objs c.walked) = some (eff, p)) :
    (p = .idle ∨ InCall (s.after t eff p) (c.next s (s.after t eff p) p) p) ∧
      ∀ objs i, p = .walk objs i → ∀ j, j < i → c.walked ≤ j →
        (c.next s (s.after t eff p) p).seen j ≠ .none := by
  obtain hr | rfl | hr | ⟨hr, x, hx, h0⟩ := next_walk hnext
  · cases hr
    exact ⟨.inr rfl, nofun⟩
  · exact ⟨.inl rfl, nofun⟩
  · refine ⟨.inr (inCall_enterKernel rfl hr), ?_⟩
    cases hr
    nofun
  · cases hr
    refine ⟨.inr ⟨rfl, rfl⟩, ?_⟩
    intro objs i hw j hj hle
    cases hw
    obtain rfl : c.walked = j := by omega
    have h0' : ((s.after t .skip (.walk c.objs (c.walked + 1))).word x).count = 0 := h0
    exact (Call.next_current c.walked x hx h0').1

theorem inCall_spin {p₀ : Pc Sem} (hp₀ : p₀ = .spin c.objs i ∨ p₀ = .spinTry c.objs i)
    (hnext : next e s p₀ = some (eff, p)) :
    (p = .idle ∨ InCall (s.after t eff p) (c.next s (s.after t eff p) p) p) ∧ ∀ objs i, p ≠ .walk objs i := by
  obtain rfl | hr | ⟨j, rfl | rfl⟩ := next_spin hp₀ hnext
  · exact ⟨.inl rfl, nofun⟩
  · refine ⟨.inr (inCall_enterKernel rfl hr), ?_⟩
    cases hr
    nofun
  · exact ⟨.inr rfl, nofun⟩
  · exact ⟨.inr rfl, nofun⟩

theorem inCall_kernel (hi : Inv e s) (hd : Deliveries s) (hok : c.Ok s)
    (hown : (s.pc t).own = some q) (hobjs : (s.queue q).objs = c.objs) (hch : Checked s c (s.pc t))
    (hen : eff.enabled s = true) (hm : Move e s (s.pc t) eff p) :
    (p = .idle ∨ InCall (s.after t eff p) (c.next s (s.after t eff p) p) p) ∧ ∀ objs i, p ≠ .walk objs i := by
  have hobjs' : ((s.after t eff p).queue q).objs = c.objs :=
    (apply_queue (hi.ownFresh t q hown)).1.trans hobjs
  have hchecked : Checked (s.after t eff p) (c.next s (s.after t eff p) p) p := by
    refine Move.checked hi rfl hm (fun q hq => hd.signaled_of_after hi hm hen hq) ?_ ?_ hok hch
    · rintro x q' i rfl
      simp [State.after, Eff.apply]
    intro q' hq'
    cases hown.symm.trans hq'
    exact hobjs
  obtain rfl | hown' := hm.own_of_own hown
  · exact ⟨.inl rfl, by simp⟩
  · refine ⟨.inr (inCall_of_own hown' hobjs' hchecked), ?_⟩
    rintro objs i rfl
    cases hown'

theorem inCall_own (hi : Inv e s) (hd : Deliveries s) (hok : c.Ok s) (h : InCall s c (s.pc t))
    (hown : OwnStep e s s' t) : (s'.pc t = .idle ∨ InCall s' (c.next s s' (s'.pc t)) (s'.pc t)) ∧
      ∀ objs i, s'.pc t = .walk objs i → ∀ j, j < i → c.walked ≤ j →
        (c.next s s' (s'.pc t)).seen j ≠ .none := by
  obtain ⟨eff, p, rfl, hen, hstep⟩ := hown
  rw [show (s.after t eff p).pc t = p from update_self ..]
  obtain hnext | ⟨objs, i, hpc, hk⟩ := hstep
  · have hm := move_of_next hnext
    have hkernel (hk : (∃ q, (s.pc t).own = some q ∧ (s.queue q).objs = c.objs) ∧ Checked s c (s.pc t)) :
        (p = .idle ∨ InCall (s.after t eff p) (c.next s (s.after t eff p) p) p) ∧
          ∀ objs i, p ≠ .walk objs i := by
      obtain ⟨⟨q, hown, hobjs⟩, hch⟩ := hk
      exact inCall_kernel hi hd hok hown hobjs hch hen hm
    generalize hp : s.pc t = p₀ at h hnext hkernel
    cases p₀ with
    | walk objs i =>
      obtain ⟨rfl, rfl⟩ := h
      exact inCall_walk hnext
    | spin objs i =>
      obtain rfl := h
      exact (inCall_spin (.inl rfl) hnext).imp_right fun hne objs i hw => absurd hw (hne objs i)
    | spinTry objs i =>
      obtain rfl := h
      exact (inCall_spin (.inr rfl) hnext).imp_right fun hne objs i hw => absurd hw (hne objs i)
    | _ => exact (hkernel h).imp_right fun hne objs i hw => absurd hw (hne objs i)
  · have hobjs : objs = c.objs := by
      obtain hpc | hpc := hpc
      · rw [hpc] at h
        exact h.1
      · rw [hpc] at h
        exact h
    refine ⟨.inr (inCall_enterKernel hobjs hk), ?_⟩
    cases hk
    nofun

theorem Call.Ok.step (hi : Inv e s) (hd : Deliveries s) (hs : step e s a = some s') (hok : c.Ok s)
    (h : InCall s c (s.pc t)) : (c.next s s' (s'.pc t)).Ok s' ∧
      (s'.pc t = .idle ∨ InCall s' (c.next s s' (s'.pc t)) (s'.pc t)) := by
  obtain ⟨hobjs, hsig⟩ := step_queue hi hd hs
  obtain hsame | ⟨-, -, hidle⟩ | hown := thread_cases hs
  · have hin := inCall_other hi hobjs hsig h
    rw [hsame]
    refine ⟨hok.next ?_ ?_, .inr hin⟩
    · intro objs i hpc j hj hle
      rw [hpc] at h
      have hi := h.2
      omega
    · intro x q k sp hpc j hj
      rw [hpc] at hin ⊢
      exact hin.2.1 j hj
  · rw [hidle] at h
    obtain ⟨⟨q, hq, -⟩, -⟩ := h
    cases hq
  · obtain ⟨hin, hwalk⟩ := inCall_own hi hd hok h hown
    refine ⟨hok.next hwalk ?_, hin⟩
    intro x q k sp hpc j hj
    rw [hpc] at hin ⊢
    exact (hin.resolve_left nofun).2.1 j hj

structure HistOk (s : State Sem Tid) (h : Hist Sem Tid) : Prop where
  call : ∀ t c, h.calls t = some c → InCall s c (s.pc t) ∧ c.Ok s
  returned : ∀ r ∈ h.returned, ∀ j < r.2, r.1.seen j = .none → r.1.Unseen j

omit [DecidableEq Sem] [DecidableEq Tid] in
theorem Call.Ok.unseen (hok : c.Ok s) (h : c.seen j = .none) : c.Unseen j := by
  by_cases hw : j < c.walked
  · exact (hok.walked j hw).resolve_left (not_not.mpr h) |> .inl
  refine .inr ⟨by omega, ?_⟩
  by_contra hc
  rw [hok.checked j (by omega)] at h
  cases h

omit [DecidableEq Sem] [DecidableEq Tid] in
theorem Call.settle_unseen (h : c.seen j = .none → c.Unseen j)
    (h' : (c.settle s s').seen j = .none) : (c.settle s s').Unseen j := by
  by_cases hseen : c.seen j = .none
  · obtain hback | hno := h hseen
    · exact .inl (by simp [Call.settle, hback])
    · exact .inr hno
  left
  change c.objs[j]?.elim (c.seen j) (fun x => (c.seen j).settle s s' x) = .none at h'
  change (c.lentBack j || c.objs[j]?.elim false fun x =>
    c.seen j ≠ .none ∧ (c.seen j).settle s s' x = .none) = true
  cases hx : c.objs[j]? with
  | none =>
    rw [hx] at h'
    exact absurd h' hseen
  | some x =>
    rw [hx] at h'
    have h'' : (c.seen j).settle s s' x = .none := h'
    simp [hseen, h'']

omit [DecidableEq Sem] [DecidableEq Tid] in
theorem Call.start_ok {objs : List Sem} : (Call.start s objs).Ok s where
  current j x hx h0 := by
    change objs[j]? = some x at hx
    simp only [Call.start, hx, elim_some]
    exact Evidence.look_of_count h0
  walked j hj := absurd hj (Nat.not_lt_zero j)
  checked j hj := absurd hj (Nat.not_lt_zero j)

omit [DecidableEq Sem] in
theorem mem_returned {r : Call Sem × ℕ} : r ∈ (h.next s a s').returned ↔
    (∃ t c, returns s a = some (t, r.2) ∧ h.calls t = some c ∧ r.1 = c.next s s' (s'.pc t)) ∨
      ∃ r₀ ∈ h.returned, r = (r₀.1.settle s s', r₀.2) := by
  simp only [Hist.next, List.mem_append, List.mem_map, eq_comm (a := r)]
  refine or_congr ?_ Iff.rfl
  cases hr : returns s a with
  | none => simp
  | some ti =>
    obtain ⟨t, i⟩ := ti
    cases hc : h.calls t with
    | none => simp [hc]
    | some c =>
      obtain ⟨-, j⟩ := r
      simp only [hc, map_some, toList_some, mem_singleton, Prod.mk.injEq,
        Option.some.injEq]
      constructor
      · rintro ⟨rfl, rfl⟩
        exact ⟨t, c, ⟨rfl, rfl⟩, hc, rfl⟩
      · rintro ⟨t', c₀, ⟨rfl, rfl⟩, hc₀, rfl⟩
        cases hc.symm.trans hc₀
        exact ⟨rfl, rfl⟩

omit [DecidableEq Sem] in
theorem calls_next (hc : (h.next s a s').calls t = some c) :
    (∃ objs, a = .start t (.inprocWait objs) ∧ c = .start s' objs) ∨
      s'.pc t ≠ .idle ∧ ∃ c₀, h.calls t = some c₀ ∧ c = c₀.next s s' (s'.pc t) := by
  have hgo (hg : h.goOn s s' t = some c) :
      s'.pc t ≠ .idle ∧ ∃ c₀, h.calls t = some c₀ ∧ c = c₀.next s s' (s'.pc t) := by
    simp only [Hist.goOn] at hg
    split at hg
    · cases hg
    · rename_i hne
      obtain ⟨c₀, hc₀, rfl⟩ := map_eq_some_iff.mp hg
      exact ⟨hne, c₀, hc₀, rfl⟩
  simp only [Hist.next] at hc
  split at hc
  · rename_i t' objs
    split at hc
    · rename_i heq
      cases hc
      rw [heq]
      exact .inl ⟨objs, rfl, rfl⟩
    · exact .inr (hgo hc)
  · exact .inr (hgo hc)

theorem HistOk.step (hi : Inv e s) (hd : Deliveries s) (hh : HistOk s h) (hs : step e s a = some s') :
    HistOk s' (h.next s a s') where
  call t c hc := by
    obtain ⟨objs, rfl, rfl⟩ | ⟨hne, c₀, hc₀, rfl⟩ := calls_next hc
    · have hpc : s'.pc t = .walk objs 0 := by
        simp only [Ntsync.step] at hs
        split at hs
        · obtain ⟨r, hr, hmove⟩ := bind_eq_some_iff.mp hs
          obtain ⟨-, rfl⟩ := move_eq_some hmove
          cases hr
          exact update_self ..
        · cases hs
      rw [hpc]
      exact ⟨⟨rfl, rfl⟩, Call.start_ok⟩
    · obtain ⟨hin, hok⟩ := hh.call t c₀ hc₀
      obtain ⟨hok', hin'⟩ := hok.step hi hd hs hin
      exact ⟨hin'.resolve_left hne, hok'⟩
  returned := by
    intro r hr j hj hseen
    obtain ⟨t, c, -, hc, hr⟩ | ⟨r₀, hr₀, rfl⟩ := mem_returned.mp hr
    · obtain ⟨hin, hok⟩ := hh.call t c hc
      rw [hr] at hseen ⊢
      exact (hok.step hi hd hs hin).1.unseen hseen
    · exact Call.settle_unseen (hh.returned r₀ hr₀ j hj) hseen

theorem inOrder_step (hi : Inv e s) (hd : Deliveries s) (hh : HistOk s h) (hord : InOrder h)
    (hs : step e s a = some s') (hok : Orderly e (s, h) a) : InOrder (h.next s a s') := by
  intro r hr j hj hseen
  obtain ⟨hret, hback⟩ := hok s' hs
  have hunseen := (hh.step hi hd hs).returned r hr j hj hseen
  obtain ⟨t, c, hreturns, hc, hr⟩ | ⟨r₀, hr₀, rfl⟩ := mem_returned.mp hr
  · rw [hr] at hunseen
    exact hret t r.2 c hreturns hc j hj hunseen
  have hne := hord r₀ hr₀ j hj
  change r₀.1.objs[j]?.elim (r₀.1.seen j) (fun x => (r₀.1.seen j).settle s s' x) = .none at hseen
  cases hx : r₀.1.objs[j]? with
  | none =>
    rw [hx] at hseen
    exact hne hseen
  | some x =>
    rw [hx, elim_some] at hseen
    cases hev : r₀.1.seen j with
    | none => exact hne hev
    | shown =>
      rw [hev] at hseen
      cases hseen
    | lent =>
      have hkept := hback r₀ hr₀ j hj x hx hev
      simp only [hev, Evidence.settle] at hseen
      split_ifs at hseen with hloan hlog
      exact hkept.elim hloan fun hne => hne hlog

omit [DecidableEq Sem] [DecidableEq Tid] in
theorem HistOk.init : HistOk (State.init e : State Sem Tid) .init where
  call := nofun
  returned := nofun

theorem reaches_histOk {ok : State Sem Tid × Hist Sem Tid → Act Sem Tid → Prop}
    (hok : ∀ u a, ok u a → Bounded e u.1 a) {u : State Sem Tid × Hist Sem Tid}
    (hu : Lib.Reaches (stepHist e) ok (State.init e, .init) u) :
    Inv e u.1 ∧ Deliveries u.1 ∧ HistOk u.1 u.2 := by
  refine hu.invariant (P := fun u => Inv e u.1 ∧ Deliveries u.1 ∧ HistOk u.1 u.2)
    ⟨Inv.init, Deliveries.init, HistOk.init⟩ ?_
  rintro ⟨s, h⟩ a u' ha hstep ⟨hi, hd, hh⟩
  obtain ⟨s', hs, rfl⟩ := map_eq_some_iff.mp hstep
  refine ⟨hi.step (hok _ _ ha) hs, ?_, hh.step hi hd hs⟩
  obtain ⟨t, eff, p, hm, hen, rfl⟩ | ⟨q, hlt, hq, rfl⟩ := step_cases hs
  · exact hd.after hi hm hen
  · exact hd.alerted hlt hq

/-- An object before a returned index that was signalled all along is an unseen one, and in a run of orderly
steps there is none. -/
theorem index_order_of_orderly (e : Env Sem) :
    (∀ u : State Sem Tid × Hist Sem Tid,
      Lib.Reaches (stepHist e) (fun u a => Bounded e u.1 a) (State.init e, .init) u →
      ∀ r ∈ u.2.returned, ∀ j < r.2, r.1.seen j = .none → r.1.Unseen j) ∧
    ∀ u : State Sem Tid × Hist Sem Tid,
      Lib.Reaches (stepHist e) (fun u a => Bounded e u.1 a ∧ Orderly e u a) (State.init e, .init) u →
      InOrder u.2 := by
  constructor
  · intro u hu
    exact (reaches_histOk (fun _ _ h => h) hu).2.2.returned
  intro u hu
  induction hu with
  | refl => exact nofun
  | @tail v w a hv ha hstep ih =>
    obtain ⟨hi, hd, hh⟩ := reaches_histOk (fun _ _ h => h.1) hv
    obtain ⟨s', hs, rfl⟩ := map_eq_some_iff.mp hstep
    exact inOrder_step hi hd hh ih hs ha.2

end Steps

namespace TwoSemaphores

def env : Env Bool := ⟨fun _ => 1, fun x => x.toNat, fun x => by cases x <;> decide, fun _ => by decide⟩

abbrev St := State Bool (Fin 3) × Hist Bool (Fin 3)

def start : St := (State.init env, .init)

/-- Thread 0 is queued on `false` with its wait ended by something else; thread 1 releases a unit of
`false` and lends it; thread 2 walks past `false` and takes `true`; the unit of `false` is given back. -/
def acts : List (Act Bool (Fin 3)) :=
  [.start 0 (.waitAny [false]), .run 0, .run 0, .run 0, .run 0, .run 0, .alert 0,
    .start 1 (.semRelease false 1), .run 1, .run 1, .run 1, .run 1,
    .start 2 (.inprocWait [false, true]), .run 2, .run 2, .run 1, .run 1]

def bounded (u : St) (a : Act Bool (Fin 3)) : Bool := boundedOn env [false, true] u.1 a

theorem bounded_of_okRun (u : St) (a : Act Bool (Fin 3)) (h : bounded u a = true) : Bounded env u.1 a :=
  bounded_of_boundedOn (by decide) u.1 a h

theorem index_out_of_order : ∃ u : St,
    Lib.run (stepHist env) start acts = some u ∧
    Lib.Reaches (stepHist env) (fun u a => Bounded env u.1 a) start u ∧
    (u.1.word false).count = 1 ∧ ∃ c, u.2.returned = [(c, 1)] ∧ c.objs = [false, true] ∧ c.seen 0 = .none := by
  have hrun : (Lib.run (stepHist env) start acts).map (fun u =>
      ((u.1.word false).count, u.2.returned.map fun r => (r.1.objs, r.1.seen 0, r.2))) =
      some (1, [([false, true], .none, 1)]) := by decide +kernel
  have hok : Lib.okRun (stepHist env) bounded start acts = true := by decide +kernel
  obtain ⟨u, hu, hval⟩ := map_eq_some_iff.mp hrun
  obtain ⟨hcount, hret⟩ := Prod.mk.inj hval
  refine ⟨u, hu, Lib.reaches_of_okRun bounded_of_okRun hok hu, hcount, ?_⟩
  obtain ⟨⟨c, i⟩, hlist, hc⟩ := map_eq_singleton_iff.mp hret
  simp only [Prod.mk.injEq] at hc
  obtain ⟨hobjs, hseen, rfl⟩ := hc
  exact ⟨c, hlist, hobjs, hseen⟩

def orderly (u : St) (a : Act Bool (Fin 3)) : Bool :=
  bounded u a && u.2.returned = [] && match step env u.1 a, returns u.1 a with
    | some s', some (t, i) => (u.2.calls t).all fun c => (List.range i).all fun j =>
      !(c.next u.1 s' (s'.pc t)).lentBack j && decide (j < (c.next u.1 s' (s'.pc t)).walked)
    | _, _ => true

theorem orderly_of_okRun (u : St) (a : Act Bool (Fin 3)) (h : orderly u a = true) :
    Bounded env u.1 a ∧ Orderly env u a := by
  simp only [orderly, Bool.and_eq_true, decide_eq_true_eq] at h
  obtain ⟨⟨hb, hnone⟩, hord⟩ := h
  refine ⟨bounded_of_okRun u a hb, fun s' hs => ⟨fun t i c hret hc j hj => ?_, by simp [hnone]⟩⟩
  simp only [hs, hret, hc, Option.all_some, List.all_eq_true, List.mem_range, Bool.and_eq_true, Bool.not_eq_true',
    decide_eq_true_eq] at hord
  obtain ⟨hback, hwalked⟩ := hord j hj
  rintro (hlent | ⟨hle, -⟩)
  · rw [hback] at hlent
    cases hlent
  · omega

theorem index_order_of_orderly_walk : ∃ u : St,
    Lib.run (stepHist env) start [.start 2 (.inprocWait [false, true]), .run 2, .run 2] = some u ∧
      u.2.returned.map Prod.snd = [1] ∧ InOrder u.2 := by
  have hrun : (Lib.run (stepHist env) start
      [.start 2 (.inprocWait [false, true]), .run 2, .run 2]).map (fun u => u.2.returned.map Prod.snd) =
      some [1] := by decide +kernel
  have hok : Lib.okRun (stepHist env) orderly start
      [.start 2 (.inprocWait [false, true]), .run 2, .run 2] = true := by decide +kernel
  obtain ⟨u, hu, hret⟩ := map_eq_some_iff.mp hrun
  exact ⟨u, hu, hret, (index_order_of_orderly env).2 u (Lib.reaches_of_okRun orderly_of_okRun hok hu)⟩

end TwoSemaphores

end WinePpc64.Ntsync
