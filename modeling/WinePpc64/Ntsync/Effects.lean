import WinePpc64.Ntsync.Control

namespace WinePpc64.Ntsync

open Function Eff State Word

variable {Sem Tid : Type} [DecidableEq Sem] {x y : Sem}

def Eff.fields (x : Sem) (f : Word.Fields) : Eff Sem → Word.Fields
  | .fastAcquire y | .takeAll y _ => if x = y then { f with count := f.count - 1 } else f
  | .addCount y n => if x = y then { f with count := f.count + n } else f
  | .takeHold y => if x = y then { f with count := f.count - 1, hold := true } else f
  | .holdDone y => if x = y then { f with hold := false } else f
  | .giveBack y => if x = y then { f with count := f.count + 1, hold := false } else f
  | .queueAny y _ _ | .queueAll y _ => if x = y then { f with waiters := f.waiters + 1 } else f
  | .unqueueAny y _ _ | .unqueueAll y _ => if x = y then { f with waiters := f.waiters - 1 } else f
  | .setFlag y => if x = y then { f with waitAll := true } else f
  | .clearFlag y => if x = y then { f with waitAll := false } else f
  | _ => f

theorem fields_update {s : State Sem Tid} {w : Word} {g : Word.Fields → Word.Fields}
    (h : w.fields = g (s.word y).fields) :
    (update s.word y w x).fields = if x = y then g (s.word x).fields else (s.word x).fields := by
  by_cases hxy : x = y
  · subst hxy
    rw [update_self, if_pos rfl, h]
  · rw [update_of_ne hxy, if_neg hxy]

variable {e : Env Sem} {s : State Sem Tid} {t : Tid} {eff : Eff Sem}

variable {x : Sem} {p : Pc Sem} {q n : ℕ} {t' : Tid}

variable (hi : Inv e s)
include hi

theorem Inv.loan_of_offers (h : (s.pc t).Offers x) : s.loan x = true :=
  (hi.loan x).mpr ⟨t, h⟩

theorem Inv.owner_unique (h : (s.pc t).Holds s x) (h' : (s.pc t').Holds s x) : t = t' :=
  Option.some.inj (((hi.owner x t).mpr h).symm.trans ((hi.owner x t').mpr h'))

theorem Inv.mutex_unique (h : (s.pc t).holdsMutex = true) (h' : (s.pc t').holdsMutex = true) : t = t' :=
  Option.some.inj (((hi.mutex t).mpr h).symm.trans ((hi.mutex t').mpr h'))

theorem Inv.loan_of_holds (hholds : (s.pc t).Holds s x) (hlends : ¬ (s.pc t).Lends x) : s.loan x = false := by
  rw [← Bool.not_eq_true]
  intro hloan
  obtain ⟨t', ht'⟩ := (hi.loan x).mp hloan
  obtain rfl := hi.owner_unique hholds ht'.lends.holds
  exact hlends ht'.lends

theorem Inv.loan_of_hold (hhold : (s.word x).hold = false) : s.loan x = false := by
  rw [← Bool.not_eq_true]
  intro hloan
  obtain ⟨t', ht'⟩ := (hi.loan x).mp hloan
  rw [(hi.hold x).mpr ⟨t', ht'.lends⟩] at hhold
  cases hhold

theorem Inv.loan_of_addCount (hg : Guard e s (s.pc t) (.addCount x n)) : s.loan x = false := by
  obtain ⟨hholds, hlends⟩ | ⟨hhold, -⟩ := hg.2
  · exact hi.loan_of_holds hholds hlends
  · exact hi.loan_of_hold hhold

theorem Inv.count_le (x : Sem) : (s.word x).count + (s.loan x).toNat ≤ e.max x :=
  (hi.balanced x).bounded

theorem Inv.mem_of_unqueueAll (hg : Guard e s (s.pc t) (.unqueueAll x q)) : q ∈ s.allWaiters x := by
  obtain ⟨rest, hpc⟩ := hg
  exact hi.all t q _ x hpc (List.mem_cons_self ..)

theorem fields_apply (hg : Guard e s (s.pc t) eff) (hb : ∀ x, (eff.apply t s).entries x < 2 ^ 29) :
    ((eff.apply t s).word x).fields = eff.fields x (s.word x).fields := by
  have hwaiters (y : Sem) (h : s.entries y ≠ 0) : (s.word y).waiters ≠ 0 := by rwa [hi.waiters y]
  cases eff with
  | fastAcquire y | takeAll y q =>
    exact fields_update (g := fun f => { f with count := f.count - 1 })
      (fields_take _ hg.2)
  | addCount y n =>
    have hmax := e.max_lt y
    exact fields_update (g := fun f => { f with count := f.count + n })
      (fields_addCount _ (lt_of_le_of_lt hg.1 hmax))
  | takeHold y =>
    exact fields_update (g := fun f => { f with count := f.count - 1, hold := true })
      (fields_takeHold _ hg.2.1)
  | holdDone y =>
    exact fields_update (g := fun f => { f with hold := false })
      (fields_holdDone _)
  | giveBack y =>
    have hle := hi.count_le y
    rw [hi.loan_of_offers hg] at hle
    exact fields_update (g := fun f => { f with count := f.count + 1, hold := false })
      (fields_giveBack _ (lt_of_le_of_lt hle (e.max_lt y)))
  | queueAny y q i | queueAll y q =>
    have hlt := hb y
    simp only [apply, entries, update_self, List.length_append,
      List.length_singleton] at hlt
    have hw := hi.waiters y
    simp only [entries] at hw
    exact fields_update (g := fun f => { f with waiters := f.waiters + 1 })
      (fields_addWaiter (s.word y) (by omega))
  | unqueueAny y q i =>
    have hpos := List.length_pos_of_mem hg.2.2
    exact fields_update (g := fun f => { f with waiters := f.waiters - 1 })
      (fields_delWaiter _ (hwaiters y (by rw [entries]; omega)))
  | unqueueAll y q =>
    have hpos := List.length_pos_of_mem (hi.mem_of_unqueueAll hg)
    exact fields_update (g := fun f => { f with waiters := f.waiters - 1 })
      (fields_delWaiter _ (hwaiters y (by rw [entries]; omega)))
  | setFlag y =>
    exact fields_update (g := fun f => { f with waitAll := true })
      (fields_setWaitAll _)
  | clearFlag y =>
    exact fields_update (g := fun f => { f with waitAll := false })
      (fields_clearWaitAll _)
  | _ => rfl

theorem Inv.ledger_step (hg : Guard e s (s.pc t) eff)
    (hb : ∀ x, (eff.apply t s).entries x < 2 ^ 29) (x : Sem) :
    Lib.Ledger.Step (e.max x) (s.ledger e x) ((eff.apply t s).ledger e x) := by
  have hcount : ((eff.apply t s).word x).count = (eff.fields x (s.word x).fields).count :=
    congrArg Word.Fields.count (fields_apply hi hg hb)
  have hidle (hc : (eff.fields x (s.word x).fields).count = (s.word x).count)
      (hl : (eff.apply t s).loan x = s.loan x)
      (hd : (eff.apply t s).log.countP (fun d => d.1 = x) = s.log.countP fun d => d.1 = x)
      (hr : (eff.apply t s).released x = s.released x) :
      Lib.Ledger.Step (e.max x) (s.ledger e x) ((eff.apply t s).ledger e x) := by
    simp only [ledger, hcount, hc, hl, hd, hr]
    exact .idle _
  have hledger : (eff.apply t s).ledger e x = ⟨(eff.fields x (s.word x).fields).count,
      ((eff.apply t s).loan x).toNat, (eff.apply t s).log.countP fun d => d.1 = x,
      e.initial x + (eff.apply t s).released x⟩ := by
    rw [ledger, hcount]
  cases eff with
  | fastAcquire y | takeAll y q =>
    by_cases hxy : x = y
    · subst hxy
      have h0 : (s.ledger e x).count ≠ 0 := hg.2
      rw [hledger]
      convert Lib.Ledger.Step.acquire h0 using 1
      simp [State.ledger, Eff.fields, Eff.apply, Word.fields]
    · apply hidle <;> simp [Eff.fields, Eff.apply, hxy, Ne.symm hxy, Word.fields]
  | addCount y n =>
    by_cases hxy : x = y
    · subst hxy
      have hloan := hi.loan_of_addCount hg
      have hroom : (s.ledger e x).count + (s.ledger e x).loan + n ≤ e.max x := by
        simpa [ledger, hloan] using hg.1
      rw [hledger]
      convert Lib.Ledger.Step.supply n hroom using 1
      simp [State.ledger, Eff.fields, Eff.apply, Word.fields, Nat.add_assoc]
    · apply hidle <;> simp [Eff.fields, Eff.apply, hxy, Word.fields]
  | takeHold y =>
    by_cases hxy : x = y
    · subst hxy
      have h0 : (s.ledger e x).count ≠ 0 := hg.2.1
      have hloan := hi.loan_of_holds hg.1 hg.2.2
      rw [hledger]
      convert Lib.Ledger.Step.lend h0 using 1
      simp [State.ledger, Eff.fields, Eff.apply, Word.fields, hloan]
    · apply hidle <;> simp [Eff.fields, Eff.apply, hxy, Word.fields]
  | place y q i =>
    by_cases hxy : x = y
    · subst hxy
      have hloan := hi.loan_of_offers hg.1
      have h0 : (s.ledger e x).loan ≠ 0 := by simp [ledger, hloan]
      convert Lib.Ledger.Step.place h0 using 1
      simp [State.ledger, Eff.apply, hloan]
    · apply hidle <;> simp [Eff.fields, Eff.apply, hxy, Ne.symm hxy, Word.fields]
  | giveBack y =>
    by_cases hxy : x = y
    · subst hxy
      have hloan := hi.loan_of_offers hg
      have h0 : (s.ledger e x).loan ≠ 0 := by simp [ledger, hloan]
      rw [hledger]
      convert Lib.Ledger.Step.giveBack h0 using 1
      simp [State.ledger, Eff.fields, Eff.apply, Word.fields, hloan]
    · apply hidle <;> simp [Eff.fields, Eff.apply, hxy, Word.fields]
  | _ =>
    refine hidle ?_ rfl rfl rfl
    simp only [Eff.fields]
    first | rfl | (split <;> rfl)

omit hi

section Unchanged

theorem apply_queue (hq : q < s.fresh) :
    ((eff.apply t s).queue q).objs = (s.queue q).objs ∧ ((eff.apply t s).queue q).all = (s.queue q).all := by
  cases eff with
  | place x q' i | claimAll q' =>
    by_cases h : q = q'
    · subst h
      simp [apply]
    · simp [apply, update_of_ne h]
  | newQueue objs all => simp [apply, update_of_ne hq.ne]
  | _ => exact ⟨rfl, rfl⟩

theorem apply_unlocked (hq : q < s.fresh) {locked : Option Sem} :
    (eff.apply t s).unlocked q locked = s.unlocked q locked := by
  rw [unlocked, unlocked, (apply_queue hq).1]

theorem apply_owner : (eff.apply t s).owner x = some t' ↔
    eff = .lockObj x ∧ t' = t ∨ s.owner x = some t' ∧ eff ≠ .lockObj x ∧ eff ≠ .unlockObj x := by
  cases eff with
  | lockObj y | unlockObj y =>
    by_cases h : x = y
    · subst h
      simp [apply, eq_comm]
    · simp [apply, update_of_ne h, Ne.symm h]
  | _ => simp [apply]

theorem apply_mutex : (eff.apply t s).mutex = some t' ↔
    eff = .lockMutex ∧ t' = t ∨ s.mutex = some t' ∧ eff ≠ .lockMutex ∧ eff ≠ .unlockMutex := by
  cases eff with
  | lockMutex => simp [apply, eq_comm]
  | _ => simp [apply]

theorem apply_loan : (eff.apply t s).loan x = true ↔
    eff = .takeHold x ∨ s.loan x = true ∧ eff ≠ .giveBack x ∧ ∀ q i, eff ≠ .place x q i := by
  cases eff with
  | takeHold y | place y q i | giveBack y =>
    by_cases h : x = y
    · subst h
      simp [apply]
    · simp [apply, update_of_ne h, Ne.symm h]
  | _ => simp [apply]

variable (hg : Guard e s p eff)
include hg

theorem apply_anyWaiters (hx : ¬ p.Holds s x) : (eff.apply t s).anyWaiters x = s.anyWaiters x := by
  cases eff with
  | queueAny y q i | unqueueAny y q i =>
    have hne : x ≠ y := by
      rintro rfl
      exact hx hg.1
    exact update_of_ne hne _ _
  | _ => rfl

theorem apply_allWaiters (hp : p.holdsMutex = false) :
    (eff.apply t s).allWaiters = s.allWaiters ∧ (eff.apply t s).allHint = s.allHint := by
  cases eff with
  | queueAll y q | unqueueAll y q =>
    obtain ⟨rest, rfl⟩ := hg
    cases hp
  | incHint y =>
    cases hg.1.symm.trans hp
  | decHint y =>
    obtain ⟨q, rest, rfl⟩ := hg
    cases hp
  | _ => exact ⟨rfl, rfl⟩

theorem fields_count (hx : ¬ p.Holds s x)
    (hall : (s.word x).waitAll = true) : (eff.fields x (s.word x).fields).count = (s.word x).count := by
  cases eff with
  | fastAcquire y =>
    have hne : x ≠ y := by
      rintro rfl
      cases hg.1.symm.trans hall
    simp [Eff.fields, hne, Word.fields]
  | addCount y n =>
    have hne : x ≠ y := by
      rintro rfl
      obtain ⟨hholds, -⟩ | ⟨-, hno⟩ := hg.2
      · exact hx hholds
      · cases hno.symm.trans hall
    simp [Eff.fields, hne, Word.fields]
  | takeHold y | takeAll y q =>
    have hne : x ≠ y := by
      rintro rfl
      exact hx hg.1
    simp [Eff.fields, hne, Word.fields]
  | giveBack y =>
    have hne : x ≠ y := by
      rintro rfl
      exact hx (Pc.Offers.lends hg).holds
    simp [Eff.fields, hne, Word.fields]
  | _ =>
    simp only [Eff.fields]
    first | rfl | (split <;> rfl)

end Unchanged

end WinePpc64.Ntsync
