import WinePpc64.Ntsync.Reachable

namespace WinePpc64.Ntsync

open Function List Eff Move Pc State

variable {Sem Tid : Type} [DecidableEq Sem] {e : Env Sem} {s : State Sem Tid} {t : Tid}
  {eff : Eff Sem} {p p' : Pc Sem} {x : Sem}

def Pc.Taking : Pc Sem → ℕ → Sem → Prop
  | .sect _ _ (.tryAll q (.take rest) _), q', x | .waitAll q (.tryAll (.take rest)), q', x =>
    q' = q ∧ x ∈ rest
  | _, _, _ => False

def State.Satisfied (s : State Sem Tid) (q : ℕ) (x : Sem) : Prop :=
  if (s.queue q).all then
    (s.queue q).signaled = some 0 ∧ x ∈ (s.queue q).objs ∧ ∀ t, ¬ (s.pc t).Taking q x
  else ∃ i, (s.queue q).signaled = some i ∧ (s.queue q).objs[i]? = some x

section Taking

variable {q : ℕ}

omit [DecidableEq Sem] in
theorem Pc.Taking.tried (h : p.Taking q x) : p.tried = some q := by
  unfold Pc.Taking at h
  split at h
  · rw [h.1]
    rfl
  · rw [h.1]
    rfl
  · cases h

omit [DecidableEq Sem] in
theorem Pc.not_taking_of_user (hp : p.user = true) : ¬ p.Taking q x := by
  cases p <;> first | exact id | cases hp

omit [DecidableEq Sem] in
theorem Body.after_taking {b : Body} : ¬ (b.after : Pc Sem).Taking q x := by
  cases b <;> exact id

theorem TryMove.taking {locked : Option Sem} {tp tp' : TryPc Sem} (hok : tp.Ok s q locked)
    (hnd : (s.queue q).objs.Nodup) (hm : TryMove s q locked tp eff tp') (q' : ℕ) (x : Sem) :
    (Pc.waitAll q (.tryAll tp')).Taking q' x ↔ eff = .claimAll q' ∧ x ∈ (s.queue q').objs ∨
      (Pc.waitAll q (.tryAll tp)).Taking q' x ∧ eff ≠ .takeAll x q' := by
  cases hm with
  | claim hq =>
    simp only [Pc.Taking, claimAll.injEq, false_and, or_false, eq_comm]
    exact and_congr_right fun h => by rw [h]
  | warn y rest hc => exact absurd hc (hok.2 y (mem_cons_self ..))
  | take y rest hc =>
    have hy := (nodup_cons.mp (hnd.sublist hok.1.sublist)).1
    by_cases hxy : x = y
    · subst hxy
      simp only [Pc.Taking, hy]
      simp [eq_comm]
    · simp [Pc.Taking, hxy, Ne.symm hxy]
  | _ => simp [Pc.Taking]

theorem Move.taking (hi : Inv e s) (hp : s.pc t = p) (hm : Move e s p eff p') :
    p'.Taking q x ↔ eff = .claimAll q ∧ x ∈ (s.queue q).objs ∨ p.Taking q x ∧ eff ≠ .takeAll x q := by
  cases hm with
  | user hu hu' => simp [not_taking_of_user hu, not_taking_of_user hu']
  | took y hu | release y n hu | releaseWake y n hu | ioctl y n hu | enterAny objs hu =>
    simp only [not_taking_of_user hu]
    simp [Pc.Taking]
  | unlock y b | unlockMutex y b =>
    simp only [Body.after_taking]
    simp [Pc.Taking]
  | tryWake y b q' qs h =>
    obtain ⟨hq, hok⟩ := hi.tryOk hp
    have htry := h.taking hok (hi.nodup_allWaiter hq) q x
    cases h <;> exact htry
  | tryOwn q' h =>
    obtain ⟨hnd, hok⟩ := hi.allOk hp
    exact h.taking hok hnd q x
  | scan y b all h => cases h <;> simp [Pc.Taking]
  | _ => simp [Pc.Taking]

theorem Move.taking_of_takeAll (hm : Move e s p (.takeAll x q) p') : p.Taking q x := by
  cases hm with
  | tryWake y b q' qs h | tryOwn q' h =>
    cases h
    exact ⟨rfl, mem_cons_self ..⟩
  | scan y b all h => cases h

theorem Move.tried_of_claimAll (hm : Move e s p (.claimAll q) p') : p.tried = some q := by
  cases hm with
  | tryWake y b q' qs h | tryOwn q' h =>
    cases h
    rfl
  | scan y b all h => cases h

theorem Inv.taking_unique (hi : Inv e s) (t t' : Tid) (h : (s.pc t).Taking q x)
    (h' : (s.pc t').Taking q x) : t = t' :=
  hi.mutex_unique (holdsMutex_of_tried h.tried) (holdsMutex_of_tried h'.tried)

theorem Inv.all_of_tried (hi : Inv e s) (h : (s.pc t).tried = some q) : (s.queue q).all = true := by
  unfold tried at h
  split at h
  · rename_i x b q' tp qs hpc
    cases h
    exact (hi.allWaiter (hi.tryOk hpc).1).1
  · rename_i q' tp hpc
    cases h
    have hok := hi.ok t
    rw [hpc] at hok
    exact hok.1
  · cases h

theorem Inv.mem_of_taking (hi : Inv e s) (h : (s.pc t).Taking q x) : x ∈ (s.queue q).objs := by
  have hok := hi.ok t
  generalize s.pc t = p at h hok
  unfold Pc.Taking at h
  split at h
  · obtain ⟨rfl, hx⟩ := h
    exact hok.2.2.2.1.subset hx
  · obtain ⟨rfl, hx⟩ := h
    exact hok.2.1.subset hx
  · cases h

end Taking

theorem mem_anyWaiters_of_apply {w : ℕ × ℕ} (h : w ∈ (eff.apply t s).anyWaiters x) :
    w ∈ s.anyWaiters x ∨ eff = .queueAny x w.1 w.2 := by
  cases eff with
  | queueAny y q i =>
    by_cases hxy : x = y
    · subst hxy
      simp only [apply, update_self, mem_append, mem_singleton] at h
      exact h.imp_right fun h => by rw [h]
    · simp only [apply, update_of_ne hxy] at h
      exact .inl h
  | unqueueAny y q i =>
    by_cases hxy : x = y
    · subst hxy
      simp only [apply, update_self] at h
      exact .inl (mem_of_mem_erase h)
    · simp only [apply, update_of_ne hxy] at h
      exact .inl h
  | _ => exact .inl h

variable [DecidableEq Tid] {q j q' : ℕ}

structure Deliveries (s : State Sem Tid) : Prop where
  entry : ∀ x q i, (q, i) ∈ s.anyWaiters x →
    q < s.fresh ∧ (s.queue q).all = false ∧ (s.queue q).objs[i]? = some x
  unused : ∀ q, s.fresh ≤ q → (s.queue q).signaled = none
  claimed : ∀ t q x, (s.pc t).Taking q x → (s.queue q).signaled = some 0
  log : ∀ q x, (x, .wait q) ∈ s.log ↔ s.Satisfied q x
  once : ∀ q x, s.log.count (x, .wait q) ≤ 1

section Satisfied

omit [DecidableEq Sem] [DecidableEq Tid] in
theorem not_satisfied_of_none (h : (s.queue q).signaled = none) (x : Sem) : ¬ s.Satisfied q x := by
  unfold State.Satisfied
  split
  · rintro ⟨h0, -⟩
    cases h.symm.trans h0
  · rintro ⟨i, h0, -⟩
    cases h.symm.trans h0

omit [DecidableEq Sem] [DecidableEq Tid] in
theorem satisfied_congr {s' : State Sem Tid} (hq : s'.queue q = s.queue q)
    (ht : (∃ t, (s'.pc t).Taking q x) ↔ ∃ t, (s.pc t).Taking q x) : s'.Satisfied q x ↔ s.Satisfied q x := by
  simp only [State.Satisfied, hq, ← not_exists, ht]

variable (hi : Inv e s) (hd : Deliveries s) (hm : Move e s (s.pc t) eff p') (hen : eff.enabled s = true)

include hi hm

theorem Inv.exists_taking_after (q : ℕ) (x : Sem) : (∃ t', ((s.after t eff p').pc t').Taking q x) ↔
    eff = .claimAll q ∧ x ∈ (s.queue q).objs ∨ (∃ t', (s.pc t').Taking q x) ∧ eff ≠ .takeAll x q := by
  have hkeep : ¬ eff ≠ .takeAll x q → (s.pc t).Taking q x := by
    intro h
    obtain rfl := not_not.mp h
    exact hm.taking_of_takeAll
  exact exists_holder (P := fun p => p.Taking q x) (taking hi rfl hm) hkeep hi.taking_unique

include hd hen

theorem Deliveries.satisfied_after : (s.after t eff p').Satisfied q x ↔
    (∃ i, eff = .place x q i) ∨ eff = .takeAll x q ∨ s.Satisfied q x := by
  have hg := guard hi rfl hm hen
  have htake := hi.exists_taking_after hm q x
  have hsame (hq : (s.after t eff p').queue q = s.queue q) (hclaim : eff ≠ .claimAll q)
      (htk : eff ≠ .takeAll x q) : (s.after t eff p').Satisfied q x ↔ s.Satisfied q x :=
    satisfied_congr hq (by simpa [hclaim, htk] using htake)
  cases eff with
  | place y q' i =>
    by_cases hq : q = q'
    · subst hq
      obtain ⟨-, hall, hobj⟩ := hd.entry y q i hg.2.1
      have hno := not_satisfied_of_none hg.2.2 x
      have hsat : (s.after t (.place y q i) p').Satisfied q x ↔ y = x := by
        simp [State.Satisfied, State.after, Eff.apply, hall, hobj]
      simp [hsat, hno]
    · rw [hsame (update_of_ne hq ..) (by simp) (by simp)]
      simp [Ne.symm hq]
  | claimAll q' =>
    by_cases hq : q = q'
    · subst hq
      have hall := hi.all_of_tried hm.tried_of_claimAll
      have hno := not_satisfied_of_none (show (s.queue q).signaled = none from hg) x
      have hno' : ¬ (s.after t (.claimAll q) p').Satisfied q x := by
        simp only [State.Satisfied, State.after, Eff.apply, update_self, hall, if_true]
        rintro ⟨-, hx, hnone⟩
        obtain ⟨t', ht'⟩ := htake.mpr (.inl ⟨rfl, hx⟩)
        exact hnone t' ht'
      simp [hno, hno']
    · have hne : claimAll q' ≠ (.claimAll q : Eff Sem) := by simp [Ne.symm hq]
      simp [hsame (update_of_ne hq ..) hne (by simp)]
  | takeAll y q' =>
    by_cases hxq : y = x ∧ q' = q
    · obtain ⟨rfl, rfl⟩ := hxq
      have htk := hm.taking_of_takeAll
      have hsat : (s.after t (.takeAll y q') p').Satisfied q' y := by
        change if (s.queue q').all then _ else _
        rw [if_pos (hi.all_of_tried htk.tried)]
        exact ⟨hd.claimed t q' y htk, hi.mem_of_taking htk, by simpa using htake⟩
      simp [hsat]
    · have hne : takeAll y q' ≠ .takeAll x q := by simpa using hxq
      simp [hsame rfl (by simp) hne, hxq]
  | newQueue objs all =>
    by_cases hq : q = s.fresh
    · subst hq
      have hno := not_satisfied_of_none (hd.unused _ (Nat.le_refl _)) x
      have hno' : ¬ (s.after t (.newQueue objs all) p').Satisfied s.fresh x :=
        not_satisfied_of_none (by simp [State.after, Eff.apply]) x
      simp [hno, hno']
    · simp [hsame (update_of_ne hq ..) (by simp) (by simp)]
  | _ => simp [hsame rfl (by simp) (by simp)]

theorem Deliveries.entry_after (x : Sem) (q i : ℕ) (h : (q, i) ∈ (s.after t eff p').anyWaiters x) :
    q < (s.after t eff p').fresh ∧ ((s.after t eff p').queue q).all = false ∧
      ((s.after t eff p').queue q).objs[i]? = some x := by
  have hg := guard hi rfl hm hen
  have hold : q < s.fresh ∧ (s.queue q).all = false ∧ (s.queue q).objs[i]? = some x := by
    obtain h | rfl := mem_anyWaiters_of_apply h
    · exact hd.entry x q i h
    · exact ⟨hi.ownFresh t q hg.2.1, hg.2.2⟩
  obtain ⟨hlt, hall, hobj⟩ := hold
  obtain ⟨hobjs', hall'⟩ := apply_queue hlt
  refine ⟨hlt.trans_le apply_fresh, hall'.trans hall, ?_⟩
  change ((eff.apply t s).queue q).objs[i]? = some x
  rw [hobjs']
  exact hobj

theorem Deliveries.signaled_after (h : (s.queue q).signaled = some j) :
    ((s.after t eff p').queue q).signaled = some j := by
  have hg := guard hi rfl hm hen
  have hne {q' : ℕ} (h' : (s.queue q').signaled = none) : q ≠ q' := by
    rintro rfl
    cases h.symm.trans h'
  change ((eff.apply t s).queue q).signaled = some j
  cases eff with
  | place x q' i => simpa [apply, update_of_ne (hne hg.2.2)] using h
  | claimAll q' => simpa [apply, update_of_ne (hne hg)] using h
  | newQueue objs all =>
    simpa [apply, update_of_ne (hne (hd.unused _ (Nat.le_refl _)))] using h
  | _ => exact h

theorem Deliveries.signaled_of_after (h : ((s.after t eff p').queue q).signaled = none) :
    (s.queue q).signaled = none := by
  by_contra hne
  obtain ⟨j, hj⟩ := Option.ne_none_iff_exists'.mp hne
  rw [hd.signaled_after hi hm hen hj] at h
  cases h

theorem Deliveries.unused_after (q : ℕ) (h : (s.after t eff p').fresh ≤ q) :
    ((s.after t eff p').queue q).signaled = none := by
  have hg := guard hi rfl hm hen
  have hle : s.fresh ≤ q := le_trans apply_fresh h
  have hold := hd.unused q hle
  have hne {q' : ℕ} (h' : q' < s.fresh) : q ≠ q' := (h'.trans_le hle).ne'
  change ((eff.apply t s).queue q).signaled = none
  cases eff with
  | place x q' i =>
    simpa [apply, update_of_ne (hne (hd.entry x q' i hg.2.1).1)] using hold
  | claimAll q' => simpa [apply, update_of_ne (hne (hi.tried_lt hm.tried_of_claimAll))] using hold
  | newQueue objs all =>
    have hq : q ≠ s.fresh := (Nat.lt_of_succ_le h).ne'
    simpa [apply, update_of_ne hq] using hold
  | _ => exact hold

theorem Deliveries.claimed_after (t' : Tid) (q : ℕ) (x : Sem) (h : ((s.after t eff p').pc t').Taking q x) :
    ((s.after t eff p').queue q).signaled = some 0 := by
  obtain ⟨rfl, -⟩ | ⟨⟨t₀, ht₀⟩, -⟩ := (hi.exists_taking_after hm q x).mp ⟨t', h⟩
  · simp [State.after, Eff.apply]
  · exact hd.signaled_after hi hm hen (hd.claimed t₀ q x ht₀)

theorem Deliveries.log_after :
    ((x, .wait q) ∈ (s.after t eff p').log ↔ (s.after t eff p').Satisfied q x) ∧
      (s.after t eff p').log.count (x, .wait q) ≤ 1 := by
  have hg := guard hi rfl hm hen
  have hnew (h : ¬ s.Satisfied q x) : s.log.count (x, .wait q) = 0 :=
    count_eq_zero.mpr (mt (hd.log q x).mp h)
  have honce := hd.once q x
  rw [hd.satisfied_after hi hm hen, ← hd.log]
  change ((x, .wait q) ∈ (eff.apply t s).log ↔ _) ∧ (eff.apply t s).log.count (x, .wait q) ≤ 1
  cases eff with
  | fastAcquire y => simpa [apply] using honce
  | place y q' i =>
    by_cases hxq : y = x ∧ q' = q
    · obtain ⟨rfl, rfl⟩ := hxq
      simp [apply, hnew (not_satisfied_of_none hg.2.2 y)]
    have hne : (y, Receiver.wait q') ≠ ((x, .wait q) : Sem × Receiver Tid) := by simpa using hxq
    refine ⟨?_, ?_⟩
    · simp [apply, Ne.symm hne, hxq]
    · simpa [apply, count_cons_of_ne hne] using honce
  | takeAll y q' =>
    by_cases hxq : y = x ∧ q' = q
    · obtain ⟨rfl, rfl⟩ := hxq
      have htk := hm.taking_of_takeAll
      have hno : ¬ s.Satisfied q' y := by
        rw [State.Satisfied, if_pos (hi.all_of_tried htk.tried)]
        exact fun h => h.2.2 t htk
      simp [apply, hnew hno]
    · have hne : (y, Receiver.wait q') ≠ ((x, .wait q) : Sem × Receiver Tid) := by simpa using hxq
      refine ⟨?_, ?_⟩
      · simp [apply, Ne.symm hne, hxq]
      · simpa [apply, count_cons_of_ne hne] using honce
  | _ => exact ⟨by simp [apply], honce⟩

theorem Deliveries.after : Deliveries (s.after t eff p') where
  entry := hd.entry_after hi hm hen
  unused := hd.unused_after hi hm hen
  claimed := hd.claimed_after hi hm hen
  log _ _ := (hd.log_after hi hm hen).1
  once _ _ := (hd.log_after hi hm hen).2

end Satisfied

omit [DecidableEq Sem] [DecidableEq Tid] in
theorem satisfied_alerted (hq : (s.queue q).signaled = none) :
    (s.alerted q).Satisfied q' x ↔ s.Satisfied q' x := by
  by_cases heq : q' = q
  · subst heq
    have hno := not_satisfied_of_none hq x
    have hno' : ¬ (s.alerted q').Satisfied q' x := by
      simp only [State.Satisfied, alerted, update_self]
      split
      · rintro ⟨hlen, hx, -⟩
        have := length_pos_of_mem hx
        have := Option.some.inj hlen
        omega
      · rintro ⟨i, hlen, hx⟩
        cases hlen
        rw [getElem?_eq_none (Nat.le_refl _)] at hx
        cases hx
    simp only [hno, hno']
  · exact satisfied_congr (update_of_ne heq ..) Iff.rfl

theorem Deliveries.alerted (hd : Deliveries s) (hlt : q < s.fresh)
    (hq : (s.queue q).signaled = none) : Deliveries (s.alerted q) where
  entry x q' i h := by
    obtain ⟨hlt', hall, hobj⟩ := hd.entry x q' i h
    obtain ⟨hobjs', hall'⟩ := alerted_queue
    exact ⟨hlt', hall'.trans hall, by rw [hobjs']; exact hobj⟩
  unused q' h := by
    have hne : q' ≠ q := (hlt.trans_le h).ne'
    simpa [State.alerted, update_of_ne hne] using hd.unused q' h
  claimed t q' x h := by
    have hclaimed := hd.claimed t q' x h
    have hne : q' ≠ q := by
      rintro rfl
      cases hq.symm.trans hclaimed
    simpa [State.alerted, update_of_ne hne] using hclaimed
  log q' x := (hd.log q' x).trans (satisfied_alerted hq).symm
  once := hd.once

theorem Deliveries.init : Deliveries (State.init e : State Sem Tid) where
  entry := nofun
  unused _ _ := rfl
  claimed _ _ _ h := h.elim
  log _ x := ⟨nofun, fun h => absurd h (not_satisfied_of_none rfl x)⟩
  once _ _ := Nat.zero_le _

theorem reaches_deliveries
    (h : Lib.Reaches (step e) (Bounded e) (State.init e) s) : Inv e s ∧ Deliveries s := by
  refine h.invariant (P := fun s => Inv e s ∧ Deliveries s) ⟨Inv.init, Deliveries.init⟩ ?_
  rintro s a s' hb hs ⟨hi, hd⟩
  refine ⟨hi.step hb hs, ?_⟩
  obtain ⟨t, eff, p, hm, hen, rfl⟩ | ⟨q, hlt, hq, rfl⟩ := step_cases hs
  · exact hd.after hi hm hen
  · exact hd.alerted hlt hq

structure UnitsAccounted (e : Env Sem) (s : State Sem Tid) : Prop where
  /-- The count and the unit on loan are what was there and was released, less what was delivered. -/
  conserved : ∀ x, (s.word x).count + (s.loan x).toNat + s.log.countP (fun d => d.1 = x) =
    e.initial x + s.released x
  /-- A unit is on loan under `NTSYNC_F_HOLD`. -/
  held : ∀ x, s.loan x = true → (s.word x).hold = true
  bounded : ∀ x, (s.word x).count ≤ e.max x
  /-- `ntsync_sem_give_back` does not overshoot. -/
  givenBack : ∀ x, s.loan x = true → (s.word x).giveBack.count = (s.word x).count + 1 ∧
    (s.word x).giveBack.count ≤ e.max x
  /-- A satisfied wait has had one unit of the object that satisfied it, or of each of its objects, and
  no other wait has had any. -/
  waits : ∀ q x, (s.Satisfied q x → s.log.count (x, .wait q) = 1) ∧
    (¬ s.Satisfied q x → s.log.count (x, .wait q) = 0)
  waiters : ∀ x, (s.word x).waiters = s.entries x
  /-- No take of `try_wake_all` has failed. -/
  taken : s.warned = false

/-- In every run in which fewer entries are queued than the waiters' field can count. -/
theorem units_accounted {s : State Sem Tid} (h : Lib.Reaches (step e) (Bounded e) (State.init e) s) :
    UnitsAccounted e s := by
  obtain ⟨hi, hd⟩ := reaches_deliveries h
  have hroom (x : Sem) (hl : s.loan x = true) : (s.word x).count + 1 ≤ e.max x := by
    have hle := hi.count_le x
    rwa [hl] at hle
  refine ⟨fun x => (hi.balanced x).conserved, ?_, ?_, ?_, ?_, hi.waiters, hi.warned⟩
  · intro x hl
    obtain ⟨t, ht⟩ := (hi.loan x).mp hl
    exact (hi.hold x).mpr ⟨t, ht.lends⟩
  · intro x
    exact (Nat.le_add_right _ _).trans (hi.count_le x)
  · intro x hl
    have hlt := (hroom x hl).trans_lt (e.max_lt x)
    have hcount : (s.word x).giveBack.count = (s.word x).count + 1 :=
      congrArg Word.Fields.count (Word.fields_giveBack _ hlt)
    exact ⟨hcount, hcount.trans_le (hroom x hl)⟩
  · intro q x
    refine ⟨?_, fun hno => count_eq_zero.mpr (mt (hd.log q x).mp hno)⟩
    intro hsat
    have hpos := count_pos_iff.mpr ((hd.log q x).mpr hsat)
    have hle := hd.once q x
    omega

/-- The locks exclude, and while nobody has the mutex words and hints describe the queues. -/
theorem locks_exclude_and_words_agree {s : State Sem Tid} (h : Lib.Reaches (step e) (Bounded e) (State.init e) s) :
    (∀ x t u, (s.pc t).Holds s x → (s.pc u).Holds s x → t = u) ∧
    (∀ t u, (s.pc t).holdsMutex = true → (s.pc u).holdsMutex = true → t = u) ∧
    (∀ x, (s.word x).hold = true ↔ ∃ t, (s.pc t).Lends x) ∧
    (s.mutex = none → ∀ x, s.allHint x = (s.allWaiters x).length ∧
      (s.allWaiters x ≠ [] → (s.word x).waitAll = true)) ∧
    ∀ q x, q ∈ s.allWaiters x → (s.allWaiters x).count q = 1 ∧ ∃! t, (s.pc t).own = some q := by
  obtain ⟨hi, -⟩ := reaches_deliveries h
  refine ⟨?_, ?_, hi.hold, ?_, ?_⟩
  · intro x t u ht hu
    exact Option.some.inj (((hi.owner x t).mpr ht).symm.trans ((hi.owner x u).mpr hu))
  · intro t u ht hu
    exact Option.some.inj (((hi.mutex t).mpr ht).symm.trans ((hi.mutex u).mpr hu))
  · intro hnone x
    have hhint : s.allHint x = (s.allWaiters x).length := by simp [hi.hint, State.pend, hnone]
    refine ⟨hhint, fun hne => ?_⟩
    obtain hflag | hzero | ⟨t, q, rest, hpc⟩ := hi.flag x
    · exact hflag
    · exact absurd (length_eq_zero_iff.mp (hhint.symm.trans hzero)) hne
    · have hmutex : s.mutex = some t := (hi.mutex t).mpr (by rw [hpc]; rfl)
      cases hnone.symm.trans hmutex
  · intro q x hmem
    obtain ⟨t, p, hpc, -⟩ := hi.allOwner q x hmem
    have hown : (s.pc t).own = some q := by rw [hpc]; rfl
    exact ⟨count_eq_one_of_mem (hi.allNodup x) hmem, t, hown, fun u hu => hi.ownInj u t q hu hown⟩

def boundedOn (e : Env Sem) (xs : List Sem) (s : State Sem Tid) (a : Act Sem Tid) : Bool :=
  match step e s a with
  | none => true
  | some s' => xs.all fun x => s'.entries x < 2 ^ 29

theorem bounded_of_boundedOn {xs : List Sem} (hxs : ∀ x, x ∈ xs) (s : State Sem Tid) (a : Act Sem Tid)
    (h : boundedOn e xs s a = true) : Bounded e s a := by
  intro s' hs x
  simp only [boundedOn, hs, all_eq_true, decide_eq_true_eq] at h
  exact h x (hxs x)

namespace OneWaiter

def env : Env Unit := ⟨fun _ => 1, fun _ => 1, fun _ => Nat.le_refl 1, fun _ => by decide⟩

def acts : List (Act Unit Unit) := .start () (.waitAny [()]) :: List.replicate 11 (.run ())

theorem units_accounted_loan : ∃ s : State Unit Unit,
    Lib.run (step env) (State.init env) acts = some s ∧ s.loan () = true ∧ (s.word ()).count = 0 ∧
      UnitsAccounted env s := by
  have hrun : (Lib.run (step env) (init env) acts).map (fun s => (s.loan (), (s.word ()).count)) =
      some (true, 0) := by decide +kernel
  have hok : Lib.okRun (step env) (boundedOn env [()]) (init env) acts = true := by decide +kernel
  obtain ⟨s, hs, hval⟩ := Option.map_eq_some_iff.mp hrun
  obtain ⟨hloan, hcount⟩ := Prod.mk.inj hval
  exact ⟨s, hs, hloan, hcount,
    units_accounted (Lib.reaches_of_okRun (bounded_of_boundedOn (by decide)) hok hs)⟩

theorem locks_exclude_and_words_agree_loan : ∃ s : State Unit Unit,
    Lib.run (step env) (State.init env) acts = some s ∧ (s.word ()).hold = true ∧ ∃ t, (s.pc t).Lends () := by
  have hrun : (Lib.run (step env) (init env) acts).map (fun s => (s.word ()).hold) = some true := by decide +kernel
  have hok : Lib.okRun (step env) (boundedOn env [()]) (init env) acts = true := by decide +kernel
  obtain ⟨s, hs, hhold⟩ := Option.map_eq_some_iff.mp hrun
  have hwords := (locks_exclude_and_words_agree
    (Lib.reaches_of_okRun (bounded_of_boundedOn (by decide)) hok hs)).2.2.1
  exact ⟨s, hs, hhold, (hwords ()).mp hhold⟩

end OneWaiter

end WinePpc64.Ntsync
