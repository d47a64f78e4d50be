import WinePpc64.InprocSync.Effects
import WinePpc64.Lib.Totals

namespace WinePpc64.InprocSync

open Function Lib After Caller

def Ref.refs (i : ℕ) : Ref → ℕ
  | .cached j => if j = i then 1 else 0
  | .stack _ => 0

def After.refs (i : ℕ) : After → ℕ
  | .handle j => if j = i then 1 else 0
  | _ => 0

def Pc.refs (i : ℕ) : Pc → ℕ
  | .look _ j | .mark j => if j = i then 1 else 0
  | .leave h | .checkType h | .checkAccess h | .held h => h.refs i
  | .saveFd k h | .saveShm k h _ | .decrement k h _ _ => h.refs i + k.refs i
  | .unmap k _ _ | .closeFd k _ => k.refs i
  | _ => 0

def Caller.locked : Caller → Bool
  | .first => false
  | .second | .close => true

def After.locked : After → Bool
  | .missed c _ => c.locked
  | .done => false
  | .handle _ | .server _ => true

def Pc.locked : Pc → Bool
  | .load c _ | .increment c _ _ | .look c _ => c.locked
  | .request _ | .map _ _ | .test _ _ | .store _ _ _ | .publish _ _ | .leave _ | .leaveFailed => true
  | .saveFd k _ | .saveShm k _ _ | .decrement k _ _ _ | .unmap k _ _ | .closeFd k _ => k.locked
  | .mark _ | .closeHandle _ | .leaveClose _ => true
  | _ => false

def Sync.Private (d : Sync) : Prop := d.refcount = 1 ∧ d.closed = false

def Ref.Ok : Ref → Prop
  | .cached _ => True
  | .stack d => d.refcount = 1

def Field.Stored (e d : Sync) : Field → Prop
  | .fd => True
  | .access => e.fd = d.fd
  | .type => e.fd = d.fd ∧ e.access = d.access
  | .closed => e.fd = d.fd ∧ e.access = d.access ∧ e.type = d.type
  | .shm => e.fd = d.fd ∧ e.access = d.access ∧ e.type = d.type ∧ e.closed = d.closed

def Sync.Same (e d : Sync) : Prop := e.fd = d.fd ∧ e.access = d.access ∧ e.type = d.type ∧ e.shm = d.shm

variable {e : Sync}

theorem Sync.Same.refl : e.Same e := ⟨rfl, rfl, rfl, rfl⟩

variable {T : Type}

namespace State

variable (s : State T)

def handleRefs (i : ℕ) : ℕ := if (s.cache i).refcount ≠ 0 ∧ (s.cache i).closed = false then 1 else 0

def Ok : Pc → Prop
  | .increment _ _ val => val ≠ 0
  | .map _ d => d.Private ∧ d.shm = none
  | .test _ d => d.Private
  | .store i d f => d.Private ∧ (s.cache i).refcount = 0 ∧ f.Stored (s.cache i) d
  | .publish i d => d.Private ∧ s.cache i = { d with refcount := 0 }
  | .leave h | .checkType h | .checkAccess h | .held h | .saveFd _ h => h.Ok
  | .saveShm _ h fd => h.Ok ∧ fd = (s.sync h).fd
  | .decrement _ h fd shm => h.Ok ∧ fd = (s.sync h).fd ∧ shm = (s.sync h).shm
  | .mark i => (s.cache i).closed = false
  | .aborted => False
  | _ => True

structure Inv [Fintype T] : Prop where
  counts : ∀ i, (s.cache i).refcount = s.handleRefs i + total (fun x => x.pc.refs i) s.agent
  owner : ∀ t, (s.agent t).pc.locked = true → s.mutex = some t
  ok : ∀ t, s.Ok (s.agent t).pc

end State

variable {s s' : State T} {t u : T} {pc : Pc} {i : ℕ} {x : Agent} (c : Caller) (j : ℕ) {val : ℤ}
  {d : Sync}

theorem Caller.missed_refs : (c.missed j).refs i = 0 := by
  cases c <;> rfl

theorem Caller.missed_locked : (c.missed j).locked = c.locked := by
  cases c <;> rfl

theorem Caller.missed_ok : s.Ok (c.missed j) := by
  cases c <;> trivial

theorem Caller.tried_refs : (c.tried j val).refs i = 0 := by
  rw [tried]
  split
  · exact c.missed_refs j
  · rfl

theorem Caller.tried_locked : (c.tried j val).locked = c.locked := by
  rw [tried]
  split
  · exact c.missed_locked j
  · rfl

theorem Caller.tried_ok : s.Ok (c.tried j val) := by
  rw [tried]
  split
  · exact c.missed_ok j
  · assumption

theorem Caller.found_refs : (c.found j).refs i = if j = i then 1 else 0 := by
  cases c <;> rfl

theorem Caller.found_locked : (c.found j).locked = c.locked := by
  cases c <;> rfl

theorem After.next_refs (k : After) : k.next.refs i = k.refs i := by
  cases k with
  | missed c j => exact c.missed_refs j
  | done => rfl
  | handle j => exact Nat.add_zero _
  | server j => rfl

theorem After.next_locked (k : After) : k.next.locked = k.locked := by
  cases k with
  | missed c j => exact c.missed_locked j
  | done => rfl
  | handle j => rfl
  | server j => rfl

theorem After.next_ok (k : After) : s.Ok k.next := by
  cases k with
  | missed c j => exact c.missed_ok j
  | done => trivial
  | handle j => trivial
  | server j => trivial

section Dropped

variable (k : After) (fd : ℕ) (shm : Option ℕ) {ref : ℤ}

theorem After.dropped_pos (h : 0 < ref) : k.dropped fd shm ref = k.next := by
  rw [dropped, if_neg (not_lt.mpr h.le), if_neg h.ne']

theorem After.dropped_refs (h : 0 ≤ ref) : (k.dropped fd shm ref).refs i = k.refs i := by
  rw [dropped, if_neg (not_lt.mpr h)]
  split
  · cases shm <;> rfl
  · exact k.next_refs

theorem After.dropped_locked (h : 0 ≤ ref) : (k.dropped fd shm ref).locked = k.locked := by
  rw [dropped, if_neg (not_lt.mpr h)]
  split
  · cases shm <;> rfl
  · exact k.next_locked

theorem After.dropped_ok (h : 0 ≤ ref) : s.Ok (k.dropped fd shm ref) := by
  rw [dropped, if_neg (not_lt.mpr h)]
  split
  · cases shm <;> trivial
  · exact k.next_ok

end Dropped

theorem Field.next_refs {j : ℕ} (f : Field) : (f.next j d).refs i = 0 := by
  cases f <;> rfl

theorem Field.store_refcount (f : Field) : (f.store e d).refcount = e.refcount := by
  cases f <;> rfl

theorem Field.next_ok {f : Field} (hd : d.Private) (hfree : (s.cache i).refcount = 0)
    (hstored : f.Stored (s.cache i) d) (hentry : s'.cache i = f.store (s.cache i) d) : s'.Ok (f.next i d) := by
  have hcount : (s'.cache i).refcount = 0 := by rw [hentry, f.store_refcount, hfree]
  cases f with
  | fd => exact ⟨hd, hcount, by rw [hentry]; rfl⟩
  | access => exact ⟨hd, hcount, by rw [hentry]; exact ⟨hstored, rfl⟩⟩
  | type => exact ⟨hd, hcount, by rw [hentry]; exact ⟨hstored.1, hstored.2, rfl⟩⟩
  | closed => exact ⟨hd, hcount, by rw [hentry]; exact ⟨hstored.1, hstored.2.1, hstored.2.2, rfl⟩⟩
  | shm =>
    obtain ⟨hfd, haccess, htype, hclosed⟩ := hstored
    refine ⟨hd, ?_⟩
    rw [hentry, Field.store, ← hfd, ← haccess, ← htype, ← hclosed, ← hfree]

namespace Moves

variable {x : Agent}

theorem refs_eq (h : Moves s x pc) (hok : s.Ok x.pc) : pc.refs i = x.pc.refs i := by
  cases h with
  | load hpc =>
    rw [tried_refs]
    rcases hpc with hpc | ⟨val, hpc⟩ <;> rw [hpc] <;> rfl
  | closed hpc => rw [hpc]; rfl
  | found hpc => rw [hpc, found_refs]; rfl
  | release hpc =>
    rcases hpc with hpc | hpc | hpc <;> rw [hpc] <;> rfl
  | drop hpc =>
    rw [hpc] at hok ⊢
    have hone := hok.1
    simp only [Ref.Ok] at hone
    rw [dropped_refs _ _ _ (by omega)]
    exact (Nat.zero_add _).symm
  | refused hpc | without hpc | alone hpc | claim hpc | typed hpc | granted hpc | saveFd hpc | saveShm hpc
    | close hpc | failed hpc => rw [hpc]; rfl

theorem locked_eq (h : Moves s x pc) (hok : s.Ok x.pc) (hlocked : pc.locked = true) : x.pc.locked = true := by
  cases h with
  | load hpc =>
    rw [tried_locked] at hlocked
    rcases hpc with hpc | ⟨val, hpc⟩ <;> rw [hpc] <;> exact hlocked
  | found hpc =>
    rw [found_locked] at hlocked
    rw [hpc]
    exact hlocked
  | release hpc => cases hlocked
  | typed hpc => cases hlocked
  | granted hpc => cases hlocked
  | close hpc => cases hlocked
  | drop hpc =>
    rw [hpc] at hok ⊢
    have hone := hok.1
    simp only [Ref.Ok] at hone
    rwa [dropped_locked _ _ _ (by omega)] at hlocked
  | closed hpc | refused hpc | without hpc | alone hpc | claim hpc | saveFd hpc | saveShm hpc
    | failed hpc => rw [hpc]; exact hlocked

theorem ok (h : Moves s x pc) (hok : s.Ok x.pc) : s.Ok pc := by
  cases h with
  | load hpc => exact tried_ok _ _
  | closed hpc => trivial
  | @found c i hpc hclosed =>
    cases c with
    | first => trivial
    | second => trivial
    | close => exact hclosed
  | refused hpc => trivial
  | without hpc => rw [hpc] at hok; exact hok.1
  | alone hpc => rw [hpc] at hok; exact hok.1
  | claim hpc hfree => rw [hpc] at hok; exact ⟨hok, hfree, trivial⟩
  | release hpc =>
    rcases hpc with hpc | hpc | hpc <;> rw [hpc] at hok <;> exact hok
  | typed hpc | granted hpc => rw [hpc] at hok; exact hok
  | saveFd hpc => rw [hpc] at hok; exact ⟨hok, rfl⟩
  | saveShm hpc => rw [hpc] at hok; exact ⟨hok.1, hok.2, rfl⟩
  | drop hpc =>
    rw [hpc] at hok
    have hone := hok.1
    simp only [Ref.Ok] at hone
    exact dropped_ok _ _ _ (by omega)
  | close hpc => trivial
  | failed hpc => trivial

end Moves

structure Keeps (s : State T) (t : T) (s' : State T) : Prop where
  agent : ∀ u, u ≠ t → s'.agent u = s.agent u
  mutex : ∀ u, u ≠ t → s.mutex = some u → s'.mutex = some u
  data : ∀ i, (s.cache i).refcount ≠ 0 → (s'.cache i).Same (s.cache i)
  closed : s.mutex ≠ some t → ∀ i, (s'.cache i).closed = (s.cache i).closed
  free : s.mutex ≠ some t → ∀ i, (s.cache i).refcount = 0 → s'.cache i = s.cache i

theorem Keeps.forall_agent [DecidableEq T] (hk : Keeps s t s')
    (hagent : s'.agent = update s.agent t x) {P : T → Agent → Prop} (hself : P t x)
    (hother : ∀ u, u ≠ t → P u (s.agent u)) (u : T) : P u (s'.agent u) := by
  by_cases hu : u = t
  · subst hu
    rwa [hagent, update_self]
  · rw [hk.agent u hu]
    exact hother u hu

theorem Keeps.of_cache [DecidableEq T] (hagent : s'.agent = update s.agent t x)
    (hmutex : s'.mutex = s.mutex ∨ s.mutex = none ∨ s.mutex = some t) (hcache : s'.cache = s.cache) :
    Keeps s t s' where
  agent u hu := by rw [hagent, update_of_ne hu]
  mutex u hu h := by
    rcases hmutex with hsame | hnone | hself
    · rw [hsame, h]
    · cases hnone.symm.trans h
    · rw [hself] at h
      exact absurd (Option.some.inj h).symm hu
  data i _ := by rw [hcache]; exact .refl
  closed _ i := by rw [hcache]
  free _ i _ := by rw [hcache]

theorem Keeps.of_entry [DecidableEq T] (hagent : s'.agent = update s.agent t x)
    (hmutex : s'.mutex = s.mutex) (hcache : s'.cache = update s.cache i e)
    (hdata : (s.cache i).refcount ≠ 0 → e.Same (s.cache i))
    (hown : s.mutex = some t ∨ (s.cache i).refcount ≠ 0 ∧ e.closed = (s.cache i).closed) : Keeps s t s' where
  agent u hu := by rw [hagent, update_of_ne hu]
  mutex u _ h := by rw [hmutex, h]
  data j hj := by
    rw [hcache]
    by_cases hij : j = i
    · subst hij
      rw [update_self]
      exact hdata hj
    · rw [update_of_ne hij]
      exact .refl
  closed hm j := by
    rw [hcache]
    by_cases hij : j = i
    · subst hij
      rw [update_self, (hown.resolve_left hm).2]
    · rw [update_of_ne hij]
  free hm j hj := by
    have hij : j ≠ i := by
      rintro rfl
      exact (hown.resolve_left hm).1 hj
    rw [hcache, update_of_ne hij]

section Inv

variable [Fintype T]

theorem State.Inv.refs_le (h : s.Inv) (t : T) (i : ℕ) :
    (s.handleRefs i + (s.agent t).pc.refs i : ℤ) ≤ (s.cache i).refcount := by
  have hle := le_total (fun x => x.pc.refs i) s.agent t
  have hcount := h.counts i
  omega

theorem State.Inv.live (h : s.Inv) (hrefs : 0 < (s.agent t).pc.refs i) : (s.cache i).refcount ≠ 0 := by
  have hle := h.refs_le t i
  omega

theorem State.Inv.keep (h : s.Inv) (hk : Keeps s t s') (hu : u ≠ t) : s'.Ok (s.agent u).pc := by
  have hok := h.ok u
  have hother : (s.agent u).pc.locked = true → s.mutex ≠ some t := fun hl hm =>
    hu (Option.some.inj ((h.owner u hl).symm.trans hm))
  have hsync : ∀ r, (∀ i, r.refs i ≤ (s.agent u).pc.refs i) →
      (s'.sync r).fd = (s.sync r).fd ∧ (s'.sync r).shm = (s.sync r).shm := by
    intro r hr
    cases r with
    | cached i =>
      have hone := hr i
      simp only [Ref.refs, if_pos] at hone
      have hsame := hk.data i (h.live hone)
      exact ⟨hsame.1, hsame.2.2.2⟩
    | stack d => exact ⟨rfl, rfl⟩
  cases hpc : (s.agent u).pc <;> rw [hpc] at hok hother hsync
  case store i d f =>
    obtain ⟨hd, hfree, hstored⟩ := hok
    have hsame := hk.free (hother rfl) i hfree
    refine ⟨hd, ?_, ?_⟩ <;> rwa [hsame]
  case publish i d =>
    obtain ⟨hd, hentry⟩ := hok
    have hsame := hk.free (hother rfl) i (by rw [hentry])
    exact ⟨hd, hsame.trans hentry⟩
  case mark i => exact (hk.closed (hother rfl) i).trans hok
  case saveShm k r fd =>
    have hs := hsync r fun i => Nat.le_add_right _ _
    exact ⟨hok.1, hok.2.trans hs.1.symm⟩
  case decrement k r fd shm =>
    have hs := hsync r fun i => Nat.le_add_right _ _
    exact ⟨hok.1, hok.2.1.trans hs.1.symm, hok.2.2.trans hs.2.symm⟩
  all_goals exact hok

theorem State.Inv.after [DecidableEq T] (h : s.Inv) (hk : Keeps s t s')
    (hagent : s'.agent = update s.agent t x)
    (hcounts : ∀ i, (s'.cache i).refcount + s.handleRefs i + (s.agent t).pc.refs i =
      (s.cache i).refcount + s'.handleRefs i + x.pc.refs i)
    (howner : x.pc.locked = true → s'.mutex = some t) (hok : s'.Ok x.pc) : s'.Inv where
  counts i := by
    have hbal := hcounts i
    have hold := h.counts i
    have htotal := total_update (fun x => x.pc.refs i) s.agent t x
    rw [← hagent] at htotal
    omega
  owner := hk.forall_agent hagent (P := fun u x => x.pc.locked = true → s'.mutex = some u) howner
    fun u hu hl => hk.mutex u hu (h.owner u hl)
  ok := hk.forall_agent hagent (P := fun _ x => s'.Ok x.pc) hok fun u hu => h.keep hk hu

theorem State.init_inv : (State.init : State T).Inv where
  counts i := by
    have hzero : total (fun x => x.pc.refs i) (State.init : State T).agent = 0 :=
      Finset.sum_eq_zero fun _ _ => rfl
    rw [hzero]
    rfl
  owner _ h := by cases h
  ok _ := trivial

end Inv

end WinePpc64.InprocSync
