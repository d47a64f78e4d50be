import WinePpc64.Thunk.RipCacheSafety

namespace WinePpc64.Thunk.RipCache

variable {s s' : State} {t : Tid} {w : Writer}

def Succeeds (s : State) (t : Tid) (rip : Word) (out : Fields) : Prop :=
  s.reader t = .loadField rip (s.table (thunkRipCacheSlot rip)).seq [] out ∧
    out .rip = rip ∧ rip ≠ 0

def LogStep (s s' : State) : Prop :=
  s'.log = s.log ∨ ∃ e, s'.log = e :: s.log ∧
    ∀ t rip out, e = .getTrue t rip out → Succeeds s t rip out

theorem logStep_emit {e : Event} (h : s'.log = e :: s.log)
    (he : ∀ t rip out, e ≠ .getTrue t rip out) : LogStep s s' :=
  .inr ⟨e, h, fun t rip out hg => absurd hg (he t rip out)⟩

theorem thunkRipCachePut_log (h : thunkRipCachePut s t w = some s') : LogStep s s' := by
  cases w with
  | putLoad rip val =>
    simp only [thunkRipCachePut] at h
    split_ifs at h <;> cases h <;> exact .inl rfl
  | putOdd rip val sq => cases h; exact logStep_emit rfl (by simp)
  | putField rip val sq rest =>
    cases rest with
    | nil => cases h; exact logStep_emit rfl (by simp)
    | cons f rest => cases h; exact .inl rfl
  | _ => cases h

theorem flushGuestThunkCache_log (h : flushGuestThunkCache s t w = some s') : LogStep s s' := by
  cases w with
  | flushTest n =>
    simp only [flushGuestThunkCache] at h
    split_ifs at h <;> cases h
    · exact .inl rfl
    · exact .inl rfl
    · exact logStep_emit rfl (by simp)
  | flushLoad i => cases h; exact .inl rfl
  | flushOdd i sq => cases h; exact logStep_emit rfl (by simp)
  | flushField i sq rest =>
    cases rest with
    | nil => cases h; exact logStep_emit rfl (by simp)
    | cons f rest => cases h; exact .inl rfl
  | _ => cases h

theorem thunkRipCacheGet_log (h : thunkRipCacheGet s t (s.reader t) = some s') : LogStep s s' := by
  cases hr : s.reader t with
  | idle => rw [hr] at h; cases h
  | loadSeq rip =>
    rw [hr] at h
    simp only [thunkRipCacheGet] at h
    split_ifs at h <;> cases h
    · exact logStep_emit rfl (by simp)
    · exact .inl rfl
  | loadField rip s1 rest out =>
    rw [hr] at h
    cases rest with
    | nil =>
      simp only [thunkRipCacheGet] at h
      split_ifs at h with hbad <;> cases h
      · exact logStep_emit rfl (by simp)
      refine .inr ⟨_, rfl, ?_⟩
      rintro u r o ⟨⟩
      push Not at hbad
      refine ⟨by rw [hr, hbad.1], hbad.2.1, ?_⟩
      rw [← hbad.2.1]
      exact hbad.2.2
    | cons f rest => cases h; exact .inl rfl

theorem step_log {l : Tid × Act} (h : step s l = some s') : LogStep s s' := by
  obtain ⟨t, a⟩ := l
  cases a with
  | read => exact thunkRipCacheGet_log h
  | write =>
    simp only [step] at h
    split at h
    next u w hw =>
      split_ifs at h
      rcases Option.or_eq_some_iff.mp h with hp | ⟨_, hf⟩
      · exact thunkRipCachePut_log hp
      · exact flushGuestThunkCache_log hf
    next => cases h
  | get rip =>
    simp only [step] at h
    split at h
    · cases h; exact logStep_emit rfl (by simp)
    · cases h
  | lock =>
    simp only [step] at h
    split_ifs at h
    cases h
    exact .inl rfl
  | _ =>
    simp only [step] at h
    split at h
    · split_ifs at h
      cases h
      exact .inl rfl
    · cases h

def Lookups (s : State) : Prop :=
  ∀ post pre mid t rip out, s.log = post ++ .getTrue t rip out :: pre → Began t rip pre mid →
    writes (thunkRipCacheSlot rip) mid < 2 ^ 31 → Current rip out pre

theorem lookups_step (hi : Inv s) (hl : Lookups s) (h : LogStep s s') : Lookups s' := by
  intro post pre mid t rip out hlog hb hw
  rcases h with h | ⟨e, h, he⟩
  · exact hl post pre mid t rip out (h ▸ hlog) hb hw
  rw [h] at hlog
  cases post with
  | nil =>
    simp only [List.nil_append, List.cons.injEq] at hlog
    obtain ⟨hg, rfl⟩ := hlog
    obtain ⟨hr, ho, hz⟩ := he t rip out hg
    exact loadField_current hi hr hb hw rfl ho hz
  | cons x post =>
    simp only [List.cons_append, List.cons.injEq] at hlog
    exact hl post pre mid t rip out hlog.2 hb hw

theorem reachable_lookups (h : Reachable s) : Inv s ∧ Lookups s := by
  refine h.invariant (P := fun s => Inv s ∧ Lookups s) ⟨inv_init, by simp [Lookups, init]⟩ ?_
  intro u l v _ hs hi
  exact ⟨inv_step hi.1 hs, lookups_step hi.1 hi.2 (step_log hs)⟩

theorem put_odd_unchanged {rip : Word} {val : Fields} (hw : s.writer = some (t, .putLoad rip val))
    (ho : isOdd (s.table (thunkRipCacheSlot rip)).seq = true) :
    step s (t, .write) = some (s.setWriter t .held) := by
  simp [step, hw, thunkRipCachePut, ho]

theorem thunkRipCacheGet_true_returns_one_put (h : Reachable s) :
    (∀ post pre mid t rip out, s.log = post ++ .getTrue t rip out :: pre → Began t rip pre mid →
      writes (thunkRipCacheSlot rip) mid < 2 ^ 31 → Current rip out pre) ∧
    ∀ (u v : State) (t : Tid) (rip : Word) (val : Fields),
      u.writer = some (t, .putLoad rip val) →
      isOdd (u.table (thunkRipCacheSlot rip)).seq = true → step u (t, .write) = some v →
      v.table = u.table ∧ v.writer = some (t, .held) := by
  refine ⟨(reachable_lookups h).2, ?_⟩
  intro u v t rip val hw ho hv
  rw [put_odd_unchanged hw ho] at hv
  cases hv
  exact ⟨rfl, rfl⟩

def putThenGet : List (Tid × Act) :=
  [(0, .lock), (0, .put 8 fun _ => 5)] ++ List.replicate 20 (0, .write) ++ [(1, .get 8)] ++
    List.replicate 19 (1, .read)

theorem thunkRipCacheGet_putThenGet : ∃ s pre out, Reachable s ∧
    s.log = .getTrue 1 8 out :: .getStart 1 8 :: pre ∧ out .statRow = 5 ∧
    Current 8 out (.getStart 1 8 :: pre) := by
  have hrun : (Lib.run step init putThenGet).isSome = true := by decide
  have hreach := Lib.reaches_of_run (Option.some_get hrun).symm
  refine ⟨_, [.put 8 fun _ => 5, .odd 1], _, hreach, rfl, rfl, ?_⟩
  exact (thunkRipCacheGet_true_returns_one_put hreach).1 [] _ [] 1 8 _ rfl ⟨⟨_, rfl⟩, by simp⟩
    (by decide)

end WinePpc64.Thunk.RipCache
