import WinePpc64.InprocSync.Invariant

namespace WinePpc64.InprocSync

open Function Lib Agent Pc Sync

def Sync.handle (e : Sync) : ℕ := if e.refcount ≠ 0 ∧ e.closed = false then 1 else 0

section Handle

variable {e : Sync}

theorem Sync.handle_free (h : e.refcount = 0) : e.handle = 0 := if_neg fun hc => hc.1 h

theorem Sync.handle_closed (h : e.closed = true) : e.handle = 0 :=
  if_neg fun hc => by simp [h] at hc

theorem Sync.handle_one (hlive : e.refcount ≠ 0) (hopen : e.closed = false) : e.handle = 1 :=
  if_pos ⟨hlive, hopen⟩

theorem Sync.handle_count {n : ℤ} (hn : n ≠ 0) (hlive : e.refcount ≠ 0) :
    Sync.handle { e with refcount := n } = e.handle := by
  simp [handle, hn, hlive]

end Handle

section Updates

variable {T : Type} {s : State T} {i : ℕ}

theorem setCount_entry {n : ℤ} : (s.setCount i n).cache i = { s.cache i with refcount := n } :=
  update_self _ _ _

theorem setEntry_entry {e : Sync} : (s.setEntry i e).cache i = e := update_self _ _ _

end Updates

variable {T : Type} [Fintype T] {s s' : State T} {t : T} {i : ℕ}

theorem State.Inv.opens (h : s.Inv) : (s.opens i).Inv := { h with }

structure Follows (s : State T) (t : T) (s' : State T) : Prop where
  keeps : Keeps s t s'
  inv : s'.Inv

variable [DecidableEq T] {d e : Sync}

section Entry

variable {x : Agent}

theorem State.Inv.afterEntry (h : s.Inv) (hagent : s'.agent = update s.agent t x)
    (hmutex : s'.mutex = s.mutex) (hcache : s'.cache = update s.cache i e)
    (hdata : (s.cache i).refcount ≠ 0 → e.Same (s.cache i))
    (hown : s.mutex = some t ∨ (s.cache i).refcount ≠ 0 ∧ e.closed = (s.cache i).closed)
    (hentry : e.refcount + (s.cache i).handle + (s.agent t).pc.refs i =
      (s.cache i).refcount + e.handle + x.pc.refs i)
    (hrefs : ∀ j, j ≠ i → x.pc.refs j = (s.agent t).pc.refs j)
    (howner : x.pc.locked = true → s'.mutex = some t) (hok : s'.Ok x.pc) : Follows s t s' := by
  have hk : Keeps s t s' := .of_entry hagent hmutex hcache hdata hown
  refine ⟨hk, h.after hk hagent (fun j => ?_) howner hok⟩
  change (s'.cache j).refcount + (s.cache j).handle + _ = (s.cache j).refcount + (s'.cache j).handle + _
  by_cases hj : j = i
  · subst hj
    rwa [hcache, update_self]
  · rw [hcache, update_of_ne hj, hrefs j hj]

theorem State.Inv.afterQuiet {pc : Pc} (h : s.Inv) (hpc : (s.agent t).pc = pc)
    (hagent : s'.agent = update s.agent t x)
    (hmutex : s'.mutex = s.mutex ∨ s.mutex = none ∨ s.mutex = some t) (hcache : s'.cache = s.cache)
    (hrefs : ∀ j, x.pc.refs j = pc.refs j) (howner : x.pc.locked = true → s'.mutex = some t)
    (hok : s'.Ok x.pc) : Follows s t s' := by
  have hk : Keeps s t s' := .of_cache hagent hmutex hcache
  refine ⟨hk, h.after hk hagent (fun j => ?_) howner hok⟩
  rw [State.handleRefs, State.handleRefs, hcache, hrefs j, hpc]

end Entry

variable (h : s.Inv)
include h

theorem State.Inv.increment {c : Caller}
    (hpc : (s.agent t).pc = .increment c i (s.cache i).refcount) :
    Follows s t ((s.setCount i ((s.cache i).refcount + 1)).goto t (.look c i)) := by
  have hlive : (s.cache i).refcount ≠ 0 := by
    have hok := h.ok t
    rwa [hpc] at hok
  have hpos := h.refs_le t i
  refine h.afterEntry rfl rfl rfl (fun _ => .refl) (.inr ⟨hlive, rfl⟩) ?_ ?_ ?_ trivial
  · have hnext : (s.cache i).refcount + 1 ≠ 0 := by omega
    rw [handle_count hnext hlive, hpc, goto_pc]
    simp only [refs, if_true]
    omega
  · intro j hj
    rw [hpc]
    exact if_neg (Ne.symm hj)
  · intro hlocked
    apply h.owner t
    rw [hpc]
    exact hlocked

theorem State.Inv.store {f : Field} (hpc : (s.agent t).pc = .store i d f) :
    Follows s t ((s.setEntry i (f.store (s.cache i) d)).goto t (f.next i d)) := by
  have hok := h.ok t
  have howner := h.owner t
  rw [hpc] at hok howner
  obtain ⟨hd, hfree, hstored⟩ := hok
  refine h.afterEntry rfl rfl rfl (fun hl => absurd hfree hl) (.inl (howner rfl)) ?_ ?_
    (fun _ => howner rfl) (Field.next_ok hd hfree hstored setEntry_entry)
  · rw [handle_free (f.store_refcount.trans hfree), handle_free hfree, f.store_refcount, hpc,
      goto_pc, f.next_refs]
    rfl
  · intro j _
    rw [hpc, goto_pc, f.next_refs]
    rfl

theorem State.Inv.publish (hpc : (s.agent t).pc = .publish i d) :
    (s.cache i = { d with refcount := 0 } ∧ d.Private) ∧
      Follows s t ((s.setCount i 2).goto t (.leave (.cached i))) := by
  have hok := h.ok t
  have howner := h.owner t
  rw [hpc] at hok howner
  obtain ⟨hd, hentry⟩ := hok
  have hfree : (s.cache i).refcount = 0 := by rw [hentry]
  have hclosed : (s.cache i).closed = false := by rw [hentry, hd.2]
  refine ⟨⟨hentry, hd⟩, h.afterEntry rfl rfl rfl (fun hl => absurd hfree hl) (.inl (howner rfl)) ?_ ?_
    (fun _ => howner rfl) trivial⟩
  · rw [handle_one (e := { s.cache i with refcount := 2 }) two_ne_zero hclosed, handle_free hfree, hfree,
      hpc]
    simp [refs, Ref.refs]
  · intro j hj
    rw [hpc]
    exact if_neg (Ne.symm hj)

theorem State.Inv.decrement {k : After} {fd : ℕ} {shm : Option ℕ}
    (hpc : (s.agent t).pc = .decrement k (.cached i) fd shm) : 0 ≤ (s.cache i).refcount - 1 ∧
      Follows s t ((s.setCount i ((s.cache i).refcount - 1)).goto t
        (k.dropped fd shm ((s.cache i).refcount - 1))) := by
  have hle : ((s.cache i).handle + (s.agent t).pc.refs i : ℤ) ≤ (s.cache i).refcount := h.refs_le t i
  have hrefs : ∀ j, (s.agent t).pc.refs j = (if i = j then 1 else 0) + k.refs j := by
    intro j
    rw [hpc]
    rfl
  rw [hrefs i, if_pos rfl] at hle
  have hpos : 0 ≤ (s.cache i).refcount - 1 := by omega
  have hlive : (s.cache i).refcount ≠ 0 := by omega
  refine ⟨hpos, h.afterEntry rfl rfl rfl (fun _ => .refl) (.inr ⟨hlive, rfl⟩) ?_ ?_ ?_
    (k.dropped_ok fd shm hpos)⟩
  · have hhandle : handle { s.cache i with refcount := (s.cache i).refcount - 1 } = (s.cache i).handle := by
      by_cases hzero : (s.cache i).refcount - 1 = 0
      · rw [handle_free hzero]
        omega
      · exact handle_count hzero hlive
    rw [hhandle, hrefs i, if_pos rfl, goto_pc, k.dropped_refs fd shm hpos]
    push_cast
    ring
  · intro j hj
    rw [hrefs j, if_neg (Ne.symm hj), Nat.zero_add, goto_pc, k.dropped_refs fd shm hpos]
  · intro hlocked
    apply h.owner t
    rw [goto_pc, k.dropped_locked fd shm hpos] at hlocked
    rw [hpc]
    exact hlocked

theorem State.Inv.mark (hpc : (s.agent t).pc = .mark i) :
    Follows s t ((s.setEntry i { s.cache i with closed := true }).goto t (.saveFd (.handle i) (.cached i))) := by
  have hok := h.ok t
  have howner := h.owner t
  rw [hpc] at hok howner
  have hlive : (s.cache i).refcount ≠ 0 := h.live (by rw [hpc]; simp [refs])
  refine h.afterEntry rfl rfl rfl (fun _ => .refl) (.inl (howner rfl)) ?_ ?_ (fun _ => howner rfl) trivial
  · rw [handle_closed (e := { s.cache i with closed := true }) rfl, handle_one hlive hok, hpc,
      goto_pc]
    simp only [refs, Ref.refs, After.refs, if_true]
    ring
  · intro j hj
    rw [hpc]
    simp [refs, Ref.refs, After.refs, Ne.symm hj]

theorem Effect.keep (he : Effect s t s') : Follows s t s' := by
  have hok := h.ok t
  have howner := h.owner t
  cases he with
  | moves hmoves =>
    exact h.afterQuiet rfl rfl (.inl rfl) rfl (fun _ => hmoves.refs_eq hok)
      (fun hlocked => howner (hmoves.locked_eq hok hlocked)) (hmoves.ok hok)
  | begins hpc => exact h.afterQuiet hpc rfl (.inl rfl) rfl (fun _ => rfl) nofun trivial
  | increments hpc => exact h.increment hpc
  | @enters c i hpc hfree =>
    obtain ⟨pc, hpc, hrefs⟩ : ∃ pc, (s.agent t).pc = pc ∧ ∀ j, (load c i).refs j = pc.refs j := by
      rcases hpc with ⟨hpc, -⟩ | ⟨hpc, -⟩ <;> exact ⟨_, hpc, fun _ => rfl⟩
    exact h.afterQuiet hpc rfl (.inr (.inl hfree)) rfl hrefs (fun _ => rfl) trivial
  | receives hpc hopen =>
    rw [hpc] at howner
    exact h.afterQuiet hpc rfl (.inl rfl) rfl (fun _ => rfl) (fun _ => howner rfl) ⟨⟨rfl, rfl⟩, rfl⟩
  | maps hpc | mapsOnce hpc =>
    rw [hpc] at howner hok
    exact h.afterQuiet hpc rfl (.inl rfl) rfl (fun _ => rfl) (fun _ => howner rfl) hok.1
  | stores hpc => exact h.store hpc
  | publishes hpc =>
    obtain ⟨⟨hentry, hd⟩, hkeep⟩ := h.publish hpc
    rwa [if_pos ⟨by rw [hentry], hd.1⟩]
  | leaves hpc =>
    rw [hpc] at howner hok
    exact h.afterQuiet hpc rfl (.inr (.inr (howner rfl))) rfl (fun _ => rfl) nofun hok
  | fails hpc | finishes hpc =>
    rw [hpc] at howner
    exact h.afterQuiet hpc rfl (.inr (.inr (howner rfl))) rfl (fun _ => rfl) nofun trivial
  | decrements hpc => exact (h.decrement hpc).2
  | unmaps hpc | shuts hpc hopen =>
    rw [hpc] at howner
    exact h.afterQuiet hpc rfl (.inl rfl) rfl (fun _ => rfl) howner trivial
  | @closes k fd hpc =>
    rw [hpc] at howner
    refine h.afterQuiet hpc rfl (.inl rfl) rfl (fun _ => k.next_refs) (fun hlocked => ?_) k.next_ok
    rw [goto_pc, k.next_locked] at hlocked
    exact howner hlocked
  | marks hpc => exact h.mark hpc

theorem State.Inv.step {e : Event T} (hstep : s.step e = some s') : s'.Inv := by
  rcases effect_of_step hstep with ⟨t, he⟩ | ⟨i, -, rfl⟩
  · exact (he.keep h).inv
  · exact h.opens

end WinePpc64.InprocSync
