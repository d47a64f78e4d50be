import WinePpc64.InprocSync.Counting
import WinePpc64.Lib.Placed

namespace WinePpc64.InprocSync

open Function Lib State

inductive Part
  | fd
  | shm
  deriving DecidableEq, Repr

def parts (fd : ℕ) (shm : Option ℕ) : Part → Option ℕ
  | .fd => some fd
  | .shm => shm

def Sync.own (p : Part) (d : Sync) : Option ℕ := parts d.fd d.shm p

def Ref.own (p : Part) : Ref → Option ℕ
  | .cached _ => none
  | .stack d => d.own p

def Pc.own (p : Part) : Pc → Option ℕ
  | .map _ d | .test _ d | .store _ d _ | .publish _ d => d.own p
  | .leave h | .checkType h | .checkAccess h | .held h => h.own p
  | .saveFd _ h | .saveShm _ h _ | .decrement _ h _ _ => h.own p
  | .unmap _ fd m => parts fd (some m) p
  | .closeFd _ fd => parts fd none p
  | _ => none

inductive Place (T : Type)
  | unborn
  | entry (i : ℕ)
  | agent (t : T)
  | log
  deriving DecidableEq

variable {T : Type}

namespace State

variable (s : State T)

def entryOwn (p : Part) (i : ℕ) : Option ℕ := if (s.cache i).refcount = 0 then none else (s.cache i).own p

def log : Part → List ℕ
  | .fd => s.closes
  | .shm => s.unmaps

def born : Part → ℕ
  | .fd => s.received.length
  | .shm => s.mapped

def At (p : Part) (r : ℕ) : Place T → Prop
  | .unborn => s.born p ≤ r
  | .entry i => s.entryOwn p i = some r
  | .agent t => (s.agent t).pc.own p = some r
  | .log => r ∈ s.log p

structure Owned : Prop where
  placed : ∀ p, Placed (s.At p)
  nodup : ∀ p, (s.log p).Nodup

end State

variable {s s' : State T} {t : T} {i r j fd : ℕ} {p : Part} {pc : Pc} {x : Agent} {e d : Sync}
  {q : Place T} (c : Caller)

theorem Caller.missed_own : (c.missed i).own p = none := by
  cases c <;> rfl

theorem Caller.tried_own {val : ℤ} : (c.tried i val).own p = none := by
  rw [Caller.tried]
  split
  · exact c.missed_own
  · rfl

theorem Caller.found_own : (c.found i).own p = none := by
  cases c <;> rfl

theorem After.next_own (k : After) : k.next.own p = none := by
  cases k with
  | missed c i => exact c.missed_own
  | done => rfl
  | handle i => rfl
  | server i => rfl

theorem After.dispose_own (k : After) {shm : Option ℕ} : (k.dispose fd shm).own p = parts fd shm p := by
  cases shm <;> rfl

theorem Field.next_own (f : Field) : (f.next i d).own p = d.own p := by
  cases f <;> rfl

theorem Moves.own_eq (h : Moves s x pc) (hok : s.Ok x.pc) : pc.own p = x.pc.own p := by
  cases h with
  | load hpc =>
    rw [Caller.tried_own]
    rcases hpc with hpc | ⟨val, hpc⟩ <;> rw [hpc] <;> rfl
  | found hpc => rw [hpc, Caller.found_own]; rfl
  | release hpc =>
    rcases hpc with hpc | hpc | hpc <;> rw [hpc] <;> rfl
  | @drop k d fd shm hpc =>
    rw [hpc] at hok ⊢
    obtain ⟨hone, rfl, rfl⟩ := hok
    have hzero : d.refcount - 1 = 0 := by
      simp only [Ref.Ok] at hone
      omega
    rw [hzero, After.dropped, if_neg (by decide), if_pos rfl, k.dispose_own]
    rfl
  | closed hpc | refused hpc | without hpc | alone hpc | claim hpc | typed hpc | granted hpc | saveFd hpc
    | saveShm hpc | close hpc | failed hpc => rw [hpc]; rfl

section Steps

variable [DecidableEq T] {x : Agent}

theorem At_iff (hagent : s'.agent = update s.agent t x)
    (hown : q = .agent t → x.pc.own p = (s.agent t).pc.own p)
    (hentry : ∀ i, q = .entry i → s'.entryOwn p i = s.entryOwn p i) (hlog : q = .log → s'.log p = s.log p)
    (hborn : q = .unborn → s'.born p = s.born p) (r : ℕ) : s'.At p r q ↔ s.At p r q := by
  cases q with
  | unborn => rw [State.At, State.At, hborn rfl]
  | entry i => rw [State.At, State.At, hentry i rfl]
  | agent u =>
    rw [State.At, State.At, hagent]
    by_cases hu : u = t
    · subst hu
      rw [update_self, hown rfl]
    · rw [update_of_ne hu]
  | log => rw [State.At, State.At, hlog rfl]

variable (h : Placed (s.At p)) (hagent : s'.agent = update s.agent t x)
include h hagent

theorem placed_quiet
    (hown : x.pc.own p = (s.agent t).pc.own p) (hentry : ∀ i, s'.entryOwn p i = s.entryOwn p i)
    (hlog : s'.log p = s.log p) (hborn : s'.born p = s.born p) : Placed (s'.At p) :=
  h.congr fun r _ => At_iff hagent (fun _ => hown) (fun i _ => hentry i) (fun _ => hlog) (fun _ => hborn) r

theorem placed_pass
    (hentry : ∀ i, q ≠ .entry i → s'.entryOwn p i = s.entryOwn p i) (hlog : q ≠ .log → s'.log p = s.log p)
    (hborn : q ≠ .unborn → s'.born p = s.born p)
    (hboth : ∀ r, x.pc.own p = some r ∨ s'.At p r q ↔ (s.agent t).pc.own p = some r ∨ s.At p r q)
    (hone : ∀ r, x.pc.own p = some r → ¬ s'.At p r q) : Placed (s'.At p) := by
  have hself : ∀ r, s'.At p r (.agent t) ↔ x.pc.own p = some r := fun r => by
    rw [State.At, hagent, update_self]
  apply h.between
  · intro q' ht hq
    refine At_iff hagent (fun e => absurd e ht) (fun i hi => hentry i ?_) (fun e => hlog ?_) fun e => hborn ?_
    · exact fun e => hq (hi.trans e.symm)
    · exact fun e' => hq (e.trans e'.symm)
    · exact fun e' => hq (e.trans e'.symm)
  · intro r
    rw [hself]
    exact hboth r
  · intro r hr
    exact hone r ((hself r).mp hr)

theorem placed_bear
    (hentry : ∀ i, s'.entryOwn p i = s.entryOwn p i) (hnone : (s.agent t).pc.own p = none)
    (hown : x.pc.own p = some (s.born p)) (hlog : s'.log p = s.log p) (hborn : s'.born p = s.born p + 1) :
    Placed (s'.At p) := by
  refine placed_pass h hagent (fun i _ => hentry i) (fun _ => hlog) (fun e => absurd rfl e)
    (fun r => ?_) fun r hr => ?_
  · rw [State.At, State.At, hown, hnone, hborn, Option.some.injEq]
    simp
    omega
  · rw [hown] at hr
    rw [State.At, ← Option.some.inj hr]
    omega

end Steps

section Entries

variable (hcache : s'.cache = update s.cache i e)
include hcache

theorem entryOwn_ne (hj : j ≠ i) : s'.entryOwn p j = s.entryOwn p j := by
  rw [entryOwn, entryOwn, hcache, update_of_ne hj]

theorem entryOwn_self : s'.entryOwn p i = if e.refcount = 0 then none else e.own p := by
  rw [entryOwn, hcache, update_self]

theorem entryOwn_update
    (hentry : ∀ p, (if e.refcount = 0 then none else e.own p) = s.entryOwn p i) : s'.entryOwn = s.entryOwn := by
  funext p j
  by_cases hj : j = i
  · subst hj
    rw [entryOwn_self hcache, hentry]
  · exact entryOwn_ne hcache hj

omit hcache

theorem entryOwn_free (h : (s.cache i).refcount = 0) : s.entryOwn p i = none := if_pos h

theorem entryOwn_live (h : (s.cache i).refcount ≠ 0) : s.entryOwn p i = (s.cache i).own p := if_neg h

end Entries

theorem init_owned : (State.init : State T).Owned where
  placed p := by
    have hborn : (init : State T).born p = 0 := by cases p <;> rfl
    have hlog : (init : State T).log p = [] := by cases p <;> rfl
    intro r
    have hat : (init : State T).At p r .unborn := by
      rw [State.At, hborn]
      exact Nat.zero_le r
    refine ⟨.unborn, hat, ?_⟩
    intro q hq
    cases q with
    | unborn => rfl
    | entry i => cases hq
    | agent t => cases hq
    | log =>
      have hmem : r ∈ (init : State T).log p := hq
      rw [hlog] at hmem
      cases hmem
  nodup p := by cases p <;> exact List.nodup_nil

theorem State.Owned.opens (h : s.Owned) : (s.opens i).Owned := ⟨h.placed, h.nodup⟩

theorem State.Owned.of_placed (h : s.Owned) (hplaced : ∀ p, Placed (s'.At p)) (hlog : s'.log = s.log) :
    s'.Owned := ⟨hplaced, hlog ▸ h.nodup⟩

theorem State.Owned.not_returned (h : s.Owned) (hat : s.At p r q) (hq : q ≠ .log) : r ∉ s.log p := by
  intro hlog
  have hat' : s.At p r .log := hlog
  exact hq ((h.placed p).unique hat hat')

section Runs

variable [DecidableEq T]

theorem State.Owned.quiet (h : s.Owned) (hagent : s'.agent = update s.agent t x)
    (hown : ∀ p, x.pc.own p = (s.agent t).pc.own p) (hentry : s'.entryOwn = s.entryOwn) (hlog : s'.log = s.log)
    (hborn : s'.born = s.born) : s'.Owned :=
  h.of_placed (fun p => placed_quiet (h.placed p) hagent (hown p) (fun i => by rw [hentry]) (by rw [hlog])
    (by rw [hborn])) hlog

theorem State.Owned.return (h : s.Owned) (hagent : s'.agent = update s.agent t x)
    (hcache : s'.cache = s.cache) (hborn : s'.born = s.born) (hown : (s.agent t).pc.own p = some r)
    (hnone : x.pc.own p = none) (hlog : s'.log p = r :: s.log p)
    (hrest : ∀ p', p' ≠ p → x.pc.own p' = (s.agent t).pc.own p' ∧ s'.log p' = s.log p') : s'.Owned := by
  have hentry : ∀ p' i, s'.entryOwn p' i = s.entryOwn p' i := by
    intro p' i
    rw [entryOwn, entryOwn, hcache]
  constructor
  · intro p'
    by_cases hp : p' = p
    · subst hp
      refine placed_pass (h.placed p') hagent (fun i _ => hentry p' i) (fun e => absurd rfl e)
        (fun _ => by rw [hborn]) (fun r' => ?_) fun r' hr' => ?_
      · rw [State.At, State.At, hlog, hnone, hown]
        simp [eq_comm]
      · cases hnone.symm.trans hr'
    · exact placed_quiet (h.placed p') hagent (hrest p' hp).1 (hentry p') (hrest p' hp).2 (by rw [hborn])
  · intro p'
    by_cases hp : p' = p
    · subst hp
      rw [hlog, List.nodup_cons]
      exact ⟨h.not_returned (q := .agent t) hown (by simp), h.nodup p'⟩
    · rw [(hrest p' hp).2]
      exact h.nodup p'

theorem State.Owned.swap (h : s.Owned) (hagent : s'.agent = update s.agent t x)
    (hcache : s'.cache = update s.cache i e) (hout : ∀ p, x.pc.own p = s.entryOwn p i)
    (hin : ∀ p, (if e.refcount = 0 then none else e.own p) = (s.agent t).pc.own p) (hlog : s'.log = s.log)
    (hborn : s'.born = s.born) : s'.Owned := by
  refine h.of_placed (fun p => ?_) hlog
  have hentry : s'.entryOwn p i = (s.agent t).pc.own p := (entryOwn_self hcache).trans (hin p)
  refine placed_pass (h.placed p) hagent (fun j hj => entryOwn_ne hcache fun e => hj (by rw [e]))
    (fun _ => by rw [hlog]) (fun _ => by rw [hborn]) (fun r => ?_) fun r hr hr' => ?_
  · rw [State.At, State.At, hentry, hout]
    exact or_comm
  · have hat : s.At p r (.entry i) := (hout p).symm.trans hr
    have hat' : s.At p r (.agent t) := hentry.symm.trans hr'
    cases (h.placed p).unique hat hat'

theorem State.Owned.map (h : s.Owned) (hpc : (s.agent t).pc = .map i d) (hshm : d.shm = none) :
    (s.mapFd.goto t (.test i { d with shm := some s.mapped })).Owned := by
  refine h.of_placed (fun p => ?_) rfl
  cases p with
  | fd => exact placed_quiet (h.placed .fd) rfl (by rw [hpc]; rfl) (fun i => rfl) rfl rfl
  | shm => exact placed_bear (h.placed .shm) rfl (fun i => rfl) (by rw [hpc]; exact hshm) rfl rfl rfl

variable [Fintype T]

theorem State.Owned.publish (h : s.Owned) (hinv : s.Inv) (hpc : (s.agent t).pc = .publish i d) :
    ((s.setCount i 2).goto t (.leave (.cached i))).Owned := by
  obtain ⟨⟨hentry, -⟩, -⟩ := hinv.publish hpc
  have hfree : (s.cache i).refcount = 0 := by rw [hentry]
  refine h.swap rfl rfl (fun p => (entryOwn_free hfree).symm) (fun p => ?_) rfl rfl
  rw [hentry, hpc]
  rfl

theorem State.Owned.decrement {k : After} {shm : Option ℕ} (h : s.Owned) (hinv : s.Inv)
    (hpc : (s.agent t).pc = .decrement k (.cached i) fd shm) :
    ((s.setCount i ((s.cache i).refcount - 1)).goto t (k.dropped fd shm ((s.cache i).refcount - 1))).Owned := by
  obtain ⟨hpos, -⟩ := hinv.decrement hpc
  have hlive : (s.cache i).refcount ≠ 0 := by omega
  have hok := hinv.ok t
  rw [hpc] at hok
  obtain ⟨-, rfl, rfl⟩ := hok
  by_cases hzero : (s.cache i).refcount - 1 = 0
  · refine h.swap rfl rfl (fun p => ?_) (fun p => ?_) rfl rfl
    · rw [Agent.goto_pc, After.dropped, if_neg (not_lt.mpr hpos), if_pos hzero, k.dispose_own, entryOwn_live hlive]
      rfl
    · rw [if_pos hzero, hpc]
      rfl
  · rw [k.dropped_pos _ _ (lt_of_le_of_ne hpos (Ne.symm hzero))]
    refine h.quiet rfl (fun p => ?_) (entryOwn_update rfl fun p => ?_) rfl rfl
    · rw [hpc]
      exact k.next_own
    · rw [if_neg hzero, entryOwn_live hlive]
      rfl

theorem Effect.owned (he : Effect s t s') (hinv : s.Inv) (h : s.Owned) : s'.Owned := by
  have hok := hinv.ok t
  cases he with
  | moves hmoves => exact h.quiet rfl (fun p => hmoves.own_eq hok) rfl rfl rfl
  | @increments c i hpc =>
    rw [hpc] at hok
    have hle := hinv.refs_le t i
    refine h.quiet rfl (fun p => by rw [hpc]; rfl) (entryOwn_update rfl fun p => ?_) rfl rfl
    have hnext : (s.cache i).refcount + 1 ≠ 0 := by omega
    rw [if_neg hnext, entryOwn_live hok]
    rfl
  | enters hpc hfree =>
    refine h.quiet rfl (fun p => ?_) rfl rfl rfl
    rcases hpc with ⟨hpc, -⟩ | ⟨hpc, -⟩ <;> rw [hpc] <;> rfl
  | receives hpc hopen =>
    refine h.of_placed (fun p => ?_) rfl
    cases p with
    | fd => exact placed_bear (h.placed .fd) rfl (fun i => rfl) (by rw [hpc]; rfl) rfl rfl List.length_append
    | shm => exact placed_quiet (h.placed .shm) rfl (by rw [hpc]; rfl) (fun i => rfl) rfl rfl
  | maps hpc =>
    rw [hpc] at hok
    exact h.map hpc hok.2
  | @mapsOnce i d hpc =>
    -- the page is mapped, and given back before it is anyone's
    rw [hpc] at hok
    refine (h.map hpc hok.2).return (p := .shm) (x := (s.agent t).goto (.test i d)) (update_idem _ _ _).symm rfl rfl ?_
      hok.2 rfl ?_
    · simp [goto, Pc.own, Sync.own, parts]
    · intro p hp
      cases p with
      | fd => simp [goto, Pc.own, Sync.own, parts, log, unmapShm, mapFd]
      | shm => exact absurd rfl hp
  | @stores i d f hpc =>
    rw [hpc] at hok
    refine h.quiet rfl (fun p => by rw [hpc]; exact f.next_own) (entryOwn_update rfl fun p => ?_) rfl rfl
    rw [f.store_refcount, if_pos hok.2.1, entryOwn_free hok.2.1]
  | publishes hpc =>
    obtain ⟨⟨hentry, hd⟩, -⟩ := hinv.publish hpc
    rw [if_pos ⟨by rw [hentry], hd.1⟩]
    exact h.publish hinv hpc
  | begins hpc | leaves hpc | fails hpc | shuts hpc hopen | finishes hpc =>
    exact h.quiet rfl (fun p => by rw [hpc]; rfl) rfl rfl rfl
  | decrements hpc => exact h.decrement hinv hpc
  | unmaps hpc =>
    refine h.return (p := .shm) rfl rfl rfl (by rw [hpc]; rfl) rfl rfl ?_
    intro p hp
    cases p with
    | fd => exact ⟨by rw [hpc]; rfl, rfl⟩
    | shm => exact absurd rfl hp
  | @closes k fd hpc =>
    refine h.return (p := .fd) rfl rfl rfl (by rw [hpc]; rfl) k.next_own rfl ?_
    intro p hp
    cases p with
    | fd => exact absurd rfl hp
    | shm => exact ⟨by rw [hpc]; exact k.next_own, rfl⟩
  | marks hpc => exact h.quiet rfl (fun p => by rw [hpc]; rfl) (entryOwn_update rfl fun p => rfl) rfl rfl

theorem State.Owned.step {e : Event T} (h : s.Owned) (hinv : s.Inv) (hstep : s.step e = some s') : s'.Owned := by
  rcases effect_of_step hstep with ⟨t, he⟩ | ⟨i, -, rfl⟩
  · exact he.owned hinv h
  · exact h.opens

end Runs

end WinePpc64.InprocSync
