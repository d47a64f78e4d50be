import WinePpc64.InprocSync.Ownership
import WinePpc64.InprocSync.Freshness

namespace WinePpc64.InprocSync

open Lib Pc Ref State

def Ref.private : Ref → Option Sync
  | .cached _ => none
  | .stack d => some d

def Pc.private : Pc → Option Sync
  | .map _ d | .test _ d | .store _ d _ | .publish _ d => some d
  | .leave h | .checkType h | .checkAccess h | .held h => h.private
  | .saveFd _ h | .saveShm _ h _ | .decrement _ h _ _ => h.private
  | _ => none

def Pc.disposes (p : Part) : Pc → Option ℕ
  | .unmap _ fd m => parts fd (some m) p
  | .closeFd _ fd => parts fd none p
  | _ => none

variable {T : Type}

namespace State

variable (s : State T)

def Referenced (p : Part) (r : ℕ) : Prop :=
  (∃ i, (s.cache i).own p = some r ∧ (0 < s.handleRefs i ∨ ∃ t, 0 < (s.agent t).pc.refs i)) ∨
    ∃ t d, (s.agent t).pc.private = some d ∧ d.own p = some r

def Disposing (p : Part) (r : ℕ) : Prop := ∃ t, (s.agent t).pc.disposes p = some r

end State

variable {s s' : State T} {t : T} {i r : ℕ} {p : Part} {pc : Pc}

theorem Ref.own_iff {h : Ref} : h.own p = some r ↔ ∃ d, h.private = some d ∧ d.own p = some r := by
  cases h with
  | cached i => simp [Ref.own, Ref.private]
  | stack d => simp [Ref.own, Ref.private]

theorem Pc.own_iff : pc.own p = some r ↔
    (∃ d, pc.private = some d ∧ d.own p = some r) ∨ pc.disposes p = some r := by
  cases pc <;> simp [Pc.own, Pc.private, Pc.disposes, Ref.own_iff]

section Counts

variable [Fintype T]

theorem State.Inv.live_iff (h : s.Inv) :
    (s.cache i).refcount ≠ 0 ↔ 0 < s.handleRefs i ∨ ∃ t, 0 < (s.agent t).pc.refs i := by
  constructor
  · intro hlive
    by_contra hnone
    rw [not_or, not_exists] at hnone
    have hzero : total (fun x => x.pc.refs i) s.agent = 0 :=
      Finset.sum_eq_zero fun t _ => Nat.eq_zero_of_not_pos (hnone.2 t)
    have hcount := h.counts i
    omega
  · rintro (hhandle | ⟨t, ht⟩)
    · have hcount := h.counts i
      omega
    · exact h.live ht

theorem State.Inv.entryOwn_iff (h : s.Inv) : s.entryOwn p i = some r ↔
    (s.cache i).own p = some r ∧ (0 < s.handleRefs i ∨ ∃ t, 0 < (s.agent t).pc.refs i) := by
  rw [← h.live_iff, entryOwn]
  by_cases hfree : (s.cache i).refcount = 0
  · simp [hfree]
  · simp [hfree]

theorem State.Inv.referenced_iff (h : s.Inv) : s.Referenced p r ∨ s.Disposing p r ↔
    (∃ i, s.At p r (.entry i)) ∨ ∃ t, s.At p r (.agent t) := by
  simp only [State.Referenced, State.Disposing, State.At, h.entryOwn_iff, Pc.own_iff, exists_or, or_assoc]

theorem State.Owned.not_referenced (h : s.Owned) (hinv : s.Inv) (hdispose : s.Disposing p r) :
    ¬ s.Referenced p r := by
  obtain ⟨t, ht⟩ := hdispose
  have hat : s.At p r (.agent t) := own_iff.mpr (.inr ht)
  rintro (⟨i, hi⟩ | ⟨u, d, hu, hd⟩)
  · have hentry : s.At p r (.entry i) := hinv.entryOwn_iff.mpr hi
    cases (h.placed p).unique hat hentry
  have huse : s.At p r (.agent u) := own_iff.mpr (.inl ⟨d, hu, hd⟩)
  cases (h.placed p).unique hat huse
  -- an agent that gives back has no structure of its own
  cases hpc : (s.agent t).pc <;> rw [hpc] at ht hu <;> simp [Pc.private, Pc.disposes] at ht hu

theorem State.Owned.mem_log_iff (h : s.Owned) (hinv : s.Inv) :
    r ∈ s.log p ↔ r < s.born p ∧ ¬ s.Referenced p r ∧ ¬ s.Disposing p r := by
  rw [← not_or, hinv.referenced_iff]
  constructor
  · intro hlog
    have hat : s.At p r .log := hlog
    refine ⟨?_, ?_⟩
    · by_contra hborn
      have hunborn : s.At p r .unborn := not_lt.mp hborn
      cases (h.placed p).unique hat hunborn
    · rintro (⟨i, hi⟩ | ⟨t, ht⟩)
      · cases (h.placed p).unique hat hi
      · cases (h.placed p).unique hat ht
  · rintro ⟨hborn, hnone⟩
    obtain ⟨q, hq, -⟩ := h.placed p r
    cases q with
    | unborn => exact absurd hborn (not_lt.mpr hq)
    | entry i => exact absurd (.inl ⟨i, hq⟩) hnone
    | agent t => exact absurd (.inr ⟨t, hq⟩) hnone
    | log => exact hq

end Counts

section Runs

variable [DecidableEq T]

theorem disposing_ends {a : Answer} (h : s.Disposing p r) :
    ∃ t n s', Lib.run State.step s (List.replicate n (.next t a)) = some s' ∧ r ∈ s'.log p := by
  obtain ⟨t, ht⟩ := h
  have hclose : ∀ (u : State T) (k : After) (fd : ℕ), (u.agent t).pc = .closeFd k fd →
      u.step (.next t a) = some ((u.closeFd fd).goto t k.next) := by
    intro u k fd hpc
    simp only [step, next, hpc]
  cases hpc : (s.agent t).pc <;> rw [hpc] at ht <;> try cases ht
  case unmap k fd m =>
    have hunmap : s.step (.next t a) = some ((s.unmapShm m).goto t (.closeFd k fd)) := by
      simp only [step, next, hpc]
    have hself : (((s.unmapShm m).goto t (.closeFd k fd)).agent t).pc = .closeFd k fd := by
      simp [goto, Agent.goto]
    refine ⟨t, 2, (((s.unmapShm m).goto t (.closeFd k fd)).closeFd fd).goto t k.next, ?_, ?_⟩
    · simp only [List.replicate, Lib.run, hunmap, Option.bind_some, hclose _ k fd hself]
    cases p with
    | fd =>
      cases ht
      exact List.mem_cons_self
    | shm =>
      cases ht
      exact List.mem_cons_self
  case closeFd k fd =>
    cases p with
    | fd =>
      obtain rfl := Option.some.inj ht
      refine ⟨t, 1, (s.closeFd fd).goto t k.next, ?_, List.mem_cons_self⟩
      simp only [List.replicate, Lib.run, hclose s k fd hpc, Option.bind_some]
    | shm => cases ht

variable [Fintype T]

theorem reachable_inv (hr : Reaches State.step Free State.init s) : s.Inv ∧ s.Owned ∧ s.Current := by
  apply hr.invariant (P := fun s => s.Inv ∧ s.Owned ∧ s.Current) ⟨init_inv, init_owned, init_current⟩
  rintro u e v - hstep ⟨hinv, howned, hcurrent⟩
  exact ⟨hinv.step hstep, howned.step hinv hstep, hcurrent.step hinv hstep⟩

/-- In every interleaving a descriptor is closed, and a page unmapped, once and when it is due. -/
theorem inproc_sync_lifetime (s : State T) (hr : Reaches State.step Free State.init s) :
    (∀ p r, (s.log p).count r ≤ 1 ∧
      (r ∈ s.log p ↔ r < s.born p ∧ ¬ s.Referenced p r ∧ ¬ s.Disposing p r) ∧
      (s.Disposing p r → ¬ s.Referenced p r ∧ ∀ a, ∃ t n s',
        Lib.run State.step s (List.replicate n (.next t a)) = some s' ∧ r ∈ s'.log p)) ∧
    (∀ e s', s.step e = some s' → ∀ t i, 0 < (s.agent t).pc.refs i → (s'.cache i).Same (s.cache i)) ∧
    (∀ i, 0 ≤ (s.cache i).refcount) ∧ (∀ t, (s.agent t).pc ≠ .aborted) ∧
    (∀ t h, (s.agent t).pc = .held h → ∃ q, s.received[(s.sync h).fd]? = some q ∧ q ∉ (s.agent t).seen) := by
  obtain ⟨hinv, howned, hcurrent⟩ := reachable_inv hr
  refine ⟨fun p r => ⟨?_, howned.mem_log_iff hinv, fun hdispose => ⟨?_, ?_⟩⟩, ?_, ?_, ?_, ?_⟩
  · exact List.nodup_iff_count_le_one.mp (howned.nodup p) r
  · exact howned.not_referenced hinv hdispose
  · intro a
    exact disposing_ends hdispose
  · intro e s' hstep t i hrefs
    rcases effect_of_step hstep with ⟨u, he⟩ | ⟨j, -, rfl⟩
    · exact (he.keep hinv).1.data i (hinv.live hrefs)
    · exact .refl
  · intro i
    have hcount := hinv.counts i
    omega
  · intro t hpc
    have hok := hinv.ok t
    rwa [hpc] at hok
  · intro t h hpc
    have hfresh := hcurrent.fresh t
    rw [State.Fresh, hpc] at hfresh
    exact hfresh

end Runs

namespace Reopened

def answer : Answer := ⟨some (0x1f0003, .semaphore), .kept, true, true⟩

def nexts (t : Fin 2) (n : ℕ) : List (Event (Fin 2)) := List.replicate n (.next t answer)

def events : List (Event (Fin 2)) :=
  [.opens 0, .get 0 0 .semaphore 2] ++ nexts 0 15 ++ [.close 1 0] ++ nexts 1 13 ++
    [.opens 0, .get 1 0 .semaphore 2] ++ nexts 1 19 ++ [.release 0] ++ nexts 0 5

def final : Option (State (Fin 2)) := Lib.run State.step State.init events

theorem inproc_sync_lifetime_reopened : ∃ s, final = some s ∧ s.closes = [0] ∧ s.unmaps = [0] ∧
    ¬ s.Referenced .fd 0 ∧ ∃ h, (s.agent 1).pc = .held h ∧
      ∃ q, s.received[(s.sync h).fd]? = some q ∧ q ∉ (s.agent 1).seen := by
  have hend : final.map (fun s => (s.closes, s.unmaps, (s.agent 1).pc)) =
      some ([0], [0], .held (.stack ⟨1, 1, 0x1f0003, .semaphore, false, some 1⟩)) := by decide +kernel
  obtain ⟨s, hs, hs'⟩ := Option.map_eq_some_iff.mp hend
  obtain ⟨hcloses, hrest⟩ := Prod.mk.inj hs'
  obtain ⟨hunmaps, hheld⟩ := Prod.mk.inj hrest
  obtain ⟨honce, -, -, -, hget⟩ := inproc_sync_lifetime s (reaches_of_run hs)
  refine ⟨s, hs, hcloses, hunmaps, ((honce .fd 0).2.1.mp ?_).2.1, _, hheld, hget 1 _ hheld⟩
  change 0 ∈ s.closes
  rw [hcloses]
  exact List.mem_cons_self

end Reopened

end WinePpc64.InprocSync
