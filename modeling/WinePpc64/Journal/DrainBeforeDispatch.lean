import WinePpc64.Journal.CtxDispatch
import WinePpc64.Journal.DevDispatch

/-!
Drain before dispatch, for both journals. The dirty byte is tested without the lock, so a
thread that finds it clear goes on even while the thread that cleared it is still replaying.
-/

namespace WinePpc64.Journal

open Lib

/-- The drains come back when every append complete at their call has been replayed. -/
theorem drain_before_dispatch {n : ℕ} {recorder : ℕ → ℕ} {d₀ d : Dev.State} {c₀ c : Ctx.State}
    (hd₀ : Dev.Rest n d₀) (hd : Reaches (Dev.step n) Dev.NoneInFlight d₀ d)
    (hc₀ : Ctx.Announced c₀) (hc : Reaches (Ctx.step recorder) Ctx.Waits c₀ c) (t : ℕ) :
    (∀ need d', (d.pc t).need = some need → Dev.NoneInFlight d (t, .go) →
      Dev.step n d (t, .go) = some d' → d'.pc t = .idle →
      ∀ r < n, need r ≤ (d'.rings r).replayed.length) ∧
    ∀ need c', (c.pc t).need = some need → Ctx.Waits c (t, .go) →
      Ctx.step recorder c (t, .go) = some c' → c'.pc t = .idle →
      ∀ r, (c'.rings r).host = true → need r ≤ (c'.rings r).replayed.length :=
  ⟨fun _ _ hneed hwait hs hret _ => Dev.wcDevDrain_replayed hd₀ hd hneed hwait hs hret,
    fun _ _ hneed hwait hs hret _ => Ctx.wcCtxDrainAll_replayed hc₀ hc hneed hwait hs hret⟩

/-- In every interleaving each ring is replayed in order, by one thread at a time. -/
theorem device_calls_in_order {n : ℕ} {ok : Dev.State → ℕ × Dev.Act → Prop} {s₀ s : Dev.State}
    (h₀ : Dev.Rest n s₀) (h : Reaches (Dev.step n) ok s₀ s) :
    (∀ r, ∃ pending, (s.rings r).appended = (s.rings r).replayed ++ pending ∧
      Encodes (s.rings r).data (s.rings r).cons (s.rings r).pos pending) ∧
    (∀ t u, (s.pc t).holds = true → (s.pc u).holds = true → t = u) ∧
    (s.dirty = false → (∀ t, (s.pc t).inFlight = false) →
      ∀ r < n, (s.rings r).completed ≤ (s.rings r).replayed.length) := by
  have hinv := Dev.reaches_inv h₀ h
  refine ⟨fun r => (hinv.ring r).pending, ?_, ?_⟩
  · intro t u ht hu
    exact Option.some.inj ((hinv.held t ht).symm.trans (hinv.held u hu))
  · intro hdirty hidle r hr
    obtain hd | hall := hinv.announced
    · cases hdirty.symm.trans hd
    obtain hdone | ⟨t, ht⟩ := hall r hr
    · exact hdone
    · cases (hidle t).symm.trans (Dev.Pc.inFlight_of_covers ht)

namespace Skip

def devEmpty : Dev.DevRing :=
  { pos := 0, cap := 0x8000, cons := 0, snap := 0, data := fun _ => none, appended := [],
    replayed := [], completed := 0 }

def devPool : Dev.State :=
  { rings := fun _ => devEmpty, owner := none, draining := false, dirty := false, clock := 0,
    pc := fun _ => .idle }

theorem devPool_rest : Dev.Rest 1 devPool :=
  ⟨fun _ => rfl, rfl, rfl, fun _ => ⟨⟨[], rfl, rfl⟩, Nat.zero_le _, rfl, le_rfl, nofun⟩,
    .inr fun _ _ => le_rfl⟩

theorem ctxPool_announced : Ctx.Announced Ctx.TwoThreads.pool :=
  ⟨Ctx.TwoThreads.pool_attached, fun r hr => by
    have : r = 0 := by simpa [Ctx.TwoThreads.pool, Ctx.TwoThreads.emptyRing] using hr
    exact this ▸ (by decide), .inr fun _ _ => le_rfl⟩

def devGoes (t k : ℕ) : List (ℕ × Dev.Act) := List.replicate k (t, .go)

def devSkipping : List (ℕ × Dev.Act) :=
  [(0, Dev.Act.append 1)] ++ devGoes 0 5 ++ [(1, Dev.Act.drain)] ++ devGoes 1 4 ++
    [(2, Dev.Act.drain)]

def ctxSkipping : List (ℕ × Ctx.Act) :=
  [(0, Ctx.Act.append 0 Ctx.TwoThreads.draw)] ++ Ctx.goes 0 5 ++ [(1, Ctx.Act.drainAll)] ++
    Ctx.goes 1 2 ++ [(2, Ctx.Act.drainAll)]

theorem drain_skips_drain_in_flight :
    (∃ s s' need, run (Dev.step 1) devPool devSkipping = some s ∧
      (s.pc 2).need = some need ∧ Dev.step 1 s (2, .go) = some s' ∧ s'.pc 2 = .idle ∧
        need 0 = 1 ∧ (s'.rings 0).replayed = []) ∧
    ∃ s s' need, run (Ctx.step fun _ => 0) Ctx.TwoThreads.pool ctxSkipping = some s ∧
      (s.pc 2).need = some need ∧ Ctx.step (fun _ => 0) s (2, .go) = some s' ∧ s'.pc 2 = .idle ∧
        need 0 = 1 ∧ (s'.rings 0).replayed = [] :=
  ⟨⟨_, _, _, rfl, rfl, rfl, rfl, rfl, rfl⟩, ⟨_, _, _, rfl, rfl, rfl, rfl, rfl, rfl⟩⟩

def devDraining : List (ℕ × Dev.Act) :=
  [(0, Dev.Act.append 1)] ++ devGoes 0 5 ++ [(1, Dev.Act.drain)] ++ devGoes 1 11

def ctxDraining : List (ℕ × Ctx.Act) :=
  [(0, Ctx.Act.append 0 Ctx.TwoThreads.draw)] ++ Ctx.goes 0 5 ++ [(1, Ctx.Act.drainAll)] ++
    Ctx.goes 1 31

def devDirty (s : Dev.State) (l : ℕ × Dev.Act) : Bool :=
  match s.pc l.1 with
  | .test _ => s.dirty
  | _ => true

def ctxDirty (s : Ctx.State) (l : ℕ × Ctx.Act) : Bool :=
  Ctx.TwoThreads.keepsJournal l && match s.pc l.1 with
    | .allTest _ => s.dirty
    | _ => true

theorem noneInFlight_of_devDirty {s : Dev.State} {l : ℕ × Dev.Act} (h : devDirty s l = true) :
    Dev.NoneInFlight s l := by
  obtain ⟨t, a⟩ := l
  cases a with
  | go =>
    simp only [devDirty] at h
    simp only [Dev.NoneInFlight]
    split
    case h_1 hpc => exact .inl (by simpa [hpc] using h)
    case h_2 => trivial
  | _ => trivial

theorem waits_of_ctxDirty {s : Ctx.State} {l : ℕ × Ctx.Act} (h : ctxDirty s l = true) : Ctx.Waits s l := by
  obtain ⟨t, a⟩ := l
  simp only [ctxDirty, Bool.and_eq_true] at h
  refine ⟨fun ha => ?_, ?_⟩
  · obtain rfl : a = .disable := ha
    cases h.1
  cases a with
  | go =>
    simp only [Ctx.NoneInFlight]
    split
    case h_1 hpc => exact .inl (by simpa [hpc] using h.2)
    case h_2 => trivial
  | _ => trivial

def devReturning : Dev.State := (run (Dev.step 1) devPool devDraining).get (by decide +kernel)

def ctxReturning : Ctx.State :=
  (run (Ctx.step fun _ => 0) Ctx.TwoThreads.pool ctxDraining).get (by decide +kernel)

theorem devReturning_reached : Reaches (Dev.step 1) Dev.NoneInFlight devPool devReturning :=
  reaches_of_okRun (fun _ _ => noneInFlight_of_devDirty) (by decide +kernel)
    (Option.some_get _).symm

theorem ctxReturning_reached : Reaches (Ctx.step fun _ => 0) Ctx.Waits Ctx.TwoThreads.pool ctxReturning :=
  reaches_of_okRun (fun _ _ => waits_of_ctxDirty) (by decide +kernel) (Option.some_get _).symm

theorem drain_before_dispatch_oneRecord :
    (∃ s', Dev.step 1 devReturning (1, .go) = some s' ∧ 1 ≤ (s'.rings 0).replayed.length) ∧
      ∃ s', Ctx.step (fun _ => 0) ctxReturning (1, .go) = some s' ∧
        1 ≤ (s'.rings 0).replayed.length := by
  have h := drain_before_dispatch devPool_rest devReturning_reached ctxPool_announced
    ctxReturning_reached 1
  refine ⟨⟨_, rfl, ?_⟩, ⟨_, rfl, ?_⟩⟩
  · exact h.1 _ _ rfl (noneInFlight_of_devDirty rfl) rfl rfl 0 (by decide)
  · exact h.2 _ _ rfl (waits_of_ctxDirty rfl) rfl rfl 0 rfl

theorem device_calls_in_order_oneRecord : ∃ x pending, (devReturning.rings 0).appended = [x] ∧
    (devReturning.rings 0).appended = (devReturning.rings 0).replayed ++ pending := by
  obtain ⟨pending, happ, -⟩ := (device_calls_in_order devPool_rest devReturning_reached).1 0
  exact ⟨⟨0, 1⟩, pending, by decide +kernel, happ⟩

end Skip

end WinePpc64.Journal
