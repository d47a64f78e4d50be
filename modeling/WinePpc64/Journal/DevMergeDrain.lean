import WinePpc64.Journal.DevMergeRing
import WinePpc64.Lib.QueueMerge

/-!
One drain with no append beside it. While it merges, the records from `cons` to `snap` of the
rings are the queues of a merge by stamp; a held or dropped ring is a closed queue.
-/

namespace WinePpc64.Journal.Merge

open Com Lib List DevRing Merging State

variable {sf : Surface} {devSlotMap : ℕ → ℕ → Bool} {s s₁ t : State} {P : State → Prop}
variable {tid cut b r : ℕ} {todo : List ℕ} {g : DevRing}

variable (sf devSlotMap) in
def Ends (P : State → Prop) (s : State) : Prop :=
  ∀ now : ℕ → BitVec 64, ∃ n t,
    run (step sf devSlotMap) s ((List.range n).map fun k => .drain (now k)) = some t ∧ P t

theorem Ends.next (h : ∀ now, ∃ t, wcDevDrain sf devSlotMap s now = some t ∧
    Ends sf devSlotMap P t) : Ends sf devSlotMap P s := by
  intro now
  obtain ⟨t, hs, ht⟩ := h (now 0)
  obtain ⟨n, u, hu, hP⟩ := ht fun k => now (k + 1)
  refine ⟨n + 1, u, ?_, hP⟩
  rw [range_succ_eq_map, map_cons, map_map]
  exact Option.bind_eq_some_iff.mpr ⟨t, hs, hu⟩

def DevRing.reclaim (g : DevRing) (tid : ℕ) : DevRing :=
  if g.ownerTid = tid ∧ g.cons = g.pos then g.reset else g

theorem DevRing.reclaim_cons_lt {tid : ℕ} : (g.reclaim tid).cons < (g.reclaim tid).pos ↔ g.cons < g.pos := by
  by_cases h : g.ownerTid = tid ∧ g.cons = g.pos
  · simp [reclaim, reset, h]
  · simp [reclaim, h]

def State.reclaimAll (s : State) (tid : ℕ) (todo : List ℕ) : State :=
  { s with
    ring := fun r => if r ∈ todo then (s.ring r).reclaim tid else s.ring r
    dirty := s.dirty || todo.any fun r => decide ((s.ring r).cons < (s.ring r).pos)
    phase := .idle }

theorem wcDevDrain_reclaim (hp : s.phase = .reclaim tid (r :: todo)) {now : BitVec 64} :
    wcDevDrain sf devSlotMap s now = some (((s.setRing r ((s.ring r).reclaim tid)).setDirty
      (s.dirty || decide ((s.ring r).cons < (s.ring r).pos))).setPhase (.reclaim tid todo)) := by
  simp only [wcDevDrain, hp, reclaim]
  split_ifs with hown hlt
  · simp [setDirty, setRing, setPhase, hown.2]
  · simp [setDirty, setRing, setPhase, hlt]
  · simp [setDirty, setRing, setPhase, hlt]

def State.queue (s : State) (r : ℕ) : List Entry :=
  if r ∈ s.registry then (s.ring r).records (s.ring r).cons (s.ring r).snap else []

theorem State.queue_setRing (hb : b ∈ s.registry) (g : DevRing) :
    (s.setRing b g).queue = Function.update s.queue b (g.records g.cons g.snap) := by
  funext r
  by_cases hr : r = b
  · subst hr
    simp [queue, hb]
  · simp [queue, hr]

def State.unread (s : State) : ℕ :=
  (s.registry.map fun r => (s.ring r).snap - (s.ring r).cons).sum

theorem State.unread_setRing_lt (hb : b ∈ s.registry)
    (hg : g.snap - g.cons < (s.ring b).snap - (s.ring b).cons) :
    (s.setRing b g).unread < s.unread := by
  refine sum_lt_sum _ _ (fun r _ => ?_) ⟨b, hb, by simpa using hg⟩
  by_cases hr : r = b
  · subst hr
    simpa using hg.le
  · simp [hr]

structure Merges (sf : Surface) (devSlotMap : ℕ → ℕ → Bool) (cut : ℕ) (s₁ s : State)
    (m : Merging ℕ Entry) : Prop where
  registry : s.registry = s₁.registry
  proxies : s.proxies = s₁.proxies
  log : s.log = s₁.log ++ m.out.map fun p => p.2.replay p.1
  queues : m.queues = s.queue
  ordered : m.Ordered Entry.stamp
  registered : ∀ p ∈ m.out, p.1 ∈ s₁.registry
  ring : ∀ r ∈ s₁.registry, DevRing.Progress (fun e => wellFormed sf devSlotMap s₁.proxies e.bytes)
    cut (s₁.ring r) (s.ring r) (Merging.taken m.out r)

variable {m : Merging ℕ Entry}

variable (h : Merges sf devSlotMap cut s₁ s m)
include h

theorem Merges.queue_eq (hb : b ∈ s₁.registry) (hlt : (s.ring b).cons < (s.ring b).snap) :
    m.queues b = (s.ring b).head ::
      (s.ring b).records ((s.ring b).cons + devRecBytes) (s.ring b).snap := by
  rw [h.queues, queue, if_pos (h.registry ▸ hb)]
  exact (records_cons hlt (h.ring b hb).snapped.cons_dvd (h.ring b hb).snapped.snap_dvd).2

variable (hbest : best s.ring s.registry = some b)
include hbest

theorem Merges.best_min {j : ℕ} {y : Entry} {ys : List Entry}
    (hj : m.queues j = y :: ys) : (s.ring b).head.stamp ≤ y.stamp := by
  by_cases hmem : j ∈ s₁.registry
  · have hlt : (s.ring j).cons < (s.ring j).snap := by
      by_contra hle
      have hs := (h.ring j hmem).snapped.le_snap
      rw [h.queues, queue, if_pos (h.registry ▸ hmem),
        show (s.ring j).snap = (s.ring j).cons by omega, records_self] at hj
      cases hj
    rw [h.queue_eq hmem hlt] at hj
    cases hj
    exact (best_eq_some hbest).2.2 j (h.registry ▸ hmem) hlt
  · rw [h.queues, queue, if_neg (h.registry ▸ hmem)] at hj
    cases hj

theorem Merges.advance (hgood : wellFormed sf devSlotMap s.proxies (s.ring b).head.bytes = true)
    (hcut : (s.ring b).head.stamp < cut) :
    ∃ m', Merges sf devSlotMap cut s₁
      ((s.setRing b (s.ring b).advance).addLog ((s.ring b).head.replay b)) m' := by
  obtain ⟨hmem, hlt, -⟩ := best_eq_some hbest
  have hb : b ∈ s₁.registry := h.registry ▸ hmem
  have hq := h.queue_eq hb hlt
  refine ⟨_, h.registry, h.proxies, ?_, ?_,
    h.ordered.emit hq fun j y ys hj => h.best_min hbest hj, ?_, fun r hr => ?_⟩
  · simp [Merging.emit, h.log]
  · exact (congrArg (Function.update · b _) h.queues).trans (queue_setRing hmem (s.ring b).advance).symm
  · intro p hp
    obtain hp | hp := mem_append.mp hp
    · exact h.registered p hp
    · rw [mem_singleton.mp hp]
      exact hb
  · by_cases hrb : r = b
    · subst hrb
      simpa [Merging.emit, taken_singleton_self] using
        (h.ring r hr).advance hlt (h.proxies ▸ hgood) hcut
    · simpa [Merging.emit, taken_singleton_ne hrb, hrb] using h.ring r hr

theorem Merges.reject
    (hgood : wellFormed sf devSlotMap s.proxies (s.ring b).head.bytes = false) {now : BitVec 64} :
    ∃ m', Merges sf devSlotMap cut s₁ (s.setRing b ((s.ring b).reject now)) m' := by
  obtain ⟨hmem, hlt, -⟩ := best_eq_some hbest
  have hb : b ∈ s₁.registry := h.registry ▸ hmem
  obtain ⟨hprog, hclosed⟩ := (h.ring b hb).reject hlt (h.proxies ▸ hgood) now
  refine ⟨m.close b, h.registry, h.proxies, h.log, ?_, h.ordered.close, h.registered,
    fun r hr => ?_⟩
  · rw [queue_setRing hmem, hclosed, records_self, ← h.queues]
    rfl
  by_cases hrb : r = b
  · subst hrb
    simpa [close] using hprog
  · simpa [close, hrb] using h.ring r hr

theorem Merges.visit (hcut : (s.ring b).head.stamp < cut) {now : BitVec 64} :
    (∃ m', Merges sf devSlotMap cut s₁ (visit sf devSlotMap s b now) m') ∧
      (visit sf devSlotMap s b now).unread < s.unread := by
  obtain ⟨hmem, hlt, -⟩ := best_eq_some hbest
  have hprog := h.ring b (h.registry ▸ hmem)
  cases hgood : wellFormed sf devSlotMap s.proxies (s.ring b).head.bytes with
  | true =>
    rw [Merge.visit, if_pos hgood]
    refine ⟨h.advance hbest hgood hcut, unread_setRing_lt hmem ?_⟩
    simp only [DevRing.advance, devRecBytes]
    omega
  | false =>
    rw [Merge.visit, if_neg (by simp [hgood])]
    refine ⟨h.reject hbest hgood, unread_setRing_lt hmem ?_⟩
    have hclosed := (hprog.reject hlt (h.proxies ▸ hgood) now).2
    omega

omit hbest

def State.Stopped (s : State) (cut : ℕ) : Prop :=
  ∀ r ∈ s.registry, (s.ring r).snap ≤ (s.ring r).cons ∨ cut ≤ (s.ring r).head.stamp

omit h

def DevRing.due (g : DevRing) (good : Entry → Bool) (cut : ℕ) : List Entry :=
  (g.pending.takeWhile good).filter fun e => e.stamp < cut

theorem due_eq_of_split {good : Entry → Bool} {pending out rest : List Entry}
    (hsplit : pending = out ++ rest) (hout : ∀ e ∈ out, good e = true ∧ e.stamp < cut)
    (hrest : ∀ e ∈ rest.takeWhile good, cut ≤ e.stamp) :
    ((pending.takeWhile good).filter fun e => e.stamp < cut) = out := by
  rw [hsplit, takeWhile_append_of_pos fun e he => (hout e he).1, filter_append,
    filter_eq_self.mpr fun e he => decide_eq_true (hout e he).2,
    filter_eq_nil_iff.mpr (by simpa using hrest), append_nil]

theorem DevRing.Progress.due_eq {good : Entry → Bool} {g₀ : DevRing} {out : List Entry}
    (h : g₀.Progress good cut g out) (hs : g₀.pending.Pairwise (·.stamp ≤ ·.stamp))
    (hstop : g.snap ≤ g.cons ∨ cut ≤ g.head.stamp) : g₀.due good cut = out := by
  obtain ⟨hp, hq⟩ | ⟨-, -, -, e, es, hp, he⟩ := h.rest
  · refine due_eq_of_split hp h.replayed fun e he => ?_
    by_cases hlt : g.cons < g.snap
    · have hall : ∀ x ∈ g.pending, g.head.stamp ≤ x.stamp := by
        rw [hp, pairwise_append] at hs
        have hpair := hs.2.1
        rw [h.pending_eq hlt] at hpair ⊢
        intro x hx
        obtain rfl | hx := mem_cons.mp hx
        · exact le_rfl
        · exact rel_of_pairwise_cons hpair hx
      have hmem := (takeWhile_sublist good).subset he
      exact (hstop.resolve_left (by omega)).trans (hall e hmem)
    · have hle := h.snapped.le_snap
      obtain hsnap | ⟨-, x, xs, hx, hbad⟩ := hq
      · rw [pending, show g.cons = g.pos by omega, records_self] at he
        simp at he
      · simp [hx, hbad] at he
  · exact due_eq_of_split hp h.replayed fun x hx => by simp [he] at hx

structure Drained (sf : Surface) (devSlotMap : ℕ → ℕ → Bool) (tid cut : ℕ) (s t : State) :
    Prop where
  idle : t.phase = .idle
  registry : t.registry = s.registry
  /-- Each ring's due records in its own order, all of them in the order of their stamps. -/
  replays : ∃ out : List (ℕ × Entry), t.log = s.log ++ out.map (fun p => p.2.replay p.1) ∧
    out.Pairwise (·.2.stamp ≤ ·.2.stamp) ∧ (∀ p ∈ out, p.1 ∈ s.registry) ∧
    ∀ r ∈ s.registry, Merging.taken out r =
      (s.ring r).due (fun e => wellFormed sf devSlotMap s.proxies e.bytes) cut
  dirty : t.dirty = true ↔ ∃ r ∈ s.registry, (t.ring r).cons < (t.ring r).pos
  /-- A ring is as long as before, or it is the thread's own, starts over, and nothing of it is
  left: all of it was replayed, or what was not is dropped as corrupt. -/
  reset : ∀ r ∈ s.registry, (t.ring r).pos = (s.ring r).pos ∧ (s.ring r).cons ≤ (t.ring r).cons ∨
    (t.ring r).pos = 0 ∧ (t.ring r).cons = 0 ∧ (s.ring r).ownerTid = tid ∧
      ((s.ring r).due (fun e => wellFormed sf devSlotMap s.proxies e.bytes) cut =
          (s.ring r).pending ∨
        (t.ring r).dropped = true ∧ ∃ e es, (s.ring r).pending =
          (s.ring r).due (fun e => wellFormed sf devSlotMap s.proxies e.bytes) cut ++ e :: es ∧
            wellFormed sf devSlotMap s.proxies e.bytes = false)

structure State.Formed (s : State) : Prop where
  idle : s.phase = .idle
  ring : ∀ r ∈ s.registry, (s.ring r).Formed
  announced : ∀ r ∈ s.registry, (s.ring r).cons < (s.ring r).pos → s.dirty = true

def State.Quiet (s : State) : Prop := ∀ r ∈ s.registry, (s.ring r).unmarked = false

def State.Stamped (s : State) : Prop :=
  ∀ r ∈ s.registry, (s.ring r).pending.Pairwise (·.stamp ≤ ·.stamp)

theorem Merges.drained (h : Merges sf devSlotMap cut s t m) (hs : s.Stamped)
    (hstop : t.Stopped cut)
    (hdirty : t.dirty = true → ∃ r ∈ t.registry, (t.ring r).cons < (t.ring r).pos) :
    Drained sf devSlotMap tid cut s (t.reclaimAll tid t.registry) := by
  have hdue : ∀ r ∈ s.registry,
      (s.ring r).due (fun e => wellFormed sf devSlotMap s.proxies e.bytes) cut =
        taken m.out r :=
    fun r hr => (h.ring r hr).due_eq (hs r hr) (hstop r (h.registry ▸ hr))
  refine ⟨rfl, h.registry, ⟨m.out, h.log, h.ordered.out, h.registered,
    fun r hr => (hdue r hr).symm⟩, ?_, fun r hr => ?_⟩
  · have hring : ∀ r ∈ s.registry, ((t.reclaimAll tid t.registry).ring r).cons <
        ((t.reclaimAll tid t.registry).ring r).pos ↔ (t.ring r).cons < (t.ring r).pos := by
      intro r hr
      simp [reclaimAll, h.registry, hr, reclaim_cons_lt]
    constructor
    · intro hd
      have hex : ∃ r ∈ s.registry, (t.ring r).cons < (t.ring r).pos := by
        obtain hd | hd := Bool.or_eq_true_iff.mp hd
        · exact h.registry ▸ hdirty hd
        · simpa [h.registry] using hd
      obtain ⟨r, hr, hlt⟩ := hex
      exact ⟨r, hr, (hring r hr).mpr hlt⟩
    · rintro ⟨r, hr, hlt⟩
      refine Bool.or_eq_true_iff.mpr (.inr (any_eq_true.mpr ⟨r, h.registry ▸ hr, ?_⟩))
      exact decide_eq_true ((hring r hr).mp hlt)
  · have hprog := h.ring r hr
    have hring : (t.reclaimAll tid t.registry).ring r = (t.ring r).reclaim tid := by
      simp [reclaimAll, h.registry, hr]
    rw [hring, reclaim]
    split_ifs with hown
    · refine .inr ⟨rfl, rfl, hprog.owner ▸ hown.1, ?_⟩
      rw [hdue r hr]
      obtain ⟨hp, -⟩ | ⟨hdrop, -, -, e, es, hp, hbad⟩ := hprog.rest
      · refine .inl ?_
        rw [hp, pending, hown.2, records_self, append_nil]
      · exact .inr ⟨hdrop, e, es, hp, hbad⟩
    · exact .inl ⟨hprog.pos, hprog.cons_le⟩

theorem DevRing.pending_eq_nil (h : g.Formed) (hle : g.pos ≤ g.cons) : g.pending = [] := by
  rw [pending, Nat.le_antisymm h.le hle, records_self]

end WinePpc64.Journal.Merge
