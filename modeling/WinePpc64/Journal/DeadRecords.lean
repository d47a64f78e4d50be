import WinePpc64.Journal.ReplayOrder
import WinePpc64.Lib.Overwrite

namespace WinePpc64.Journal

variable {t : Tables} {rt : Runtime} {b : Bytes} {Loc Val : Type}

def rangeKey (b : Bytes) (d : JgDef) (off : ℕ) : Option (Word × Word) :=
  if d.lww = .range then some (b.word off 0, b.word off 1) else none

structure SetterHost (t : Tables) (b : Bytes) (Loc Val : Type) where
  run : Call → (Loc → Val) → Loc → Val
  locs : ℕ → Option (Word × Word) → Set Loc
  run_setter : ∀ {g d} (c : Call), t.setterAt b c.off = some (g, d) → ∃ val : Loc → Val, ∀ s l,
    (l ∈ locs g (rangeKey b d c.off) → run c s l = val l) ∧
    (l ∉ locs g (rangeKey b d c.off) → run c s l = s l)

variable (h : SetterHost t b Loc Val) {d d' : JgDef} {x g w y : ℕ}

def SetterHost.observe : List Call → (Loc → Val) → List (Call × (Loc → Val)) × (Loc → Val)
  | [], s => ([], s)
  | c :: cs, s =>
    if (t.setterAt b c.off).isSome then observe cs (h.run c s)
    else ((c, s) :: (observe cs (h.run c s)).1, (observe cs (h.run c s)).2)

theorem recordCall_gen {off : ℕ} (hshape : b.shape off = jshGen) (p q : Option Word) :
    recordCall t rt b p off = recordCall t rt b q off := by
  simp [recordCall, hshape]

theorem recordCall_off {off : ℕ} {p : Option Word} {c : Call} (hc : recordCall t rt b p off = some c) :
    c.off = off := by
  unfold recordCall at hc
  split_ifs at hc
  · obtain ⟨r, _, hr⟩ := Option.bind_eq_some_iff.mp hc
    dsimp only at hr
    split_ifs at hr
    cases hr
    rfl
  · cases hc
    rfl

theorem overwrites_rangeKey (ho : Overwrites b d w x) : rangeKey b d w = rangeKey b d x := by
  unfold rangeKey
  rcases ho with ho | ⟨h0, h1⟩
  · simp [ho]
  · rw [h0, h1]

theorem setterAt_row (hx : t.setterAt b x = some (g, d)) (hy : t.setterAt b y = some (g, d')) : d = d' := by
  have hdef : ∀ {x : ℕ} {d : JgDef}, t.setterAt b x = some (g, d) → t.defs[g]? = some d := by
    intro x d hx
    exact gen_def (rowAt_eq_some (setterAt_eq_some hx).1).2.1
  exact Option.some.inj ((hdef hx).symm.trans (hdef hy))

def replayEffect (rt : Runtime) (off : ℕ) (m : Option Word × (Loc → Val)) : Option Word × (Loc → Val) :=
  match recordCall t rt b m.1 off with
  | none => m
  | some c => (c.proxy, h.run c m.2)

def writesOf (rt : Runtime) (off : ℕ) : Option (Set (Option Loc)) :=
  match t.setterAt b off with
  | none => none
  | some (g, d) =>
    if (recordCall t rt b none off).isSome then
      some (insert none (some '' h.locs g (rangeKey b d off)))
    else none

theorem writesOf_eq_some {off : ℕ} {S : Set (Option Loc)} (hS : writesOf h rt off = some S) :
    ∃ g d c, t.setterAt b off = some (g, d) ∧ (∀ p, recordCall t rt b p off = some c) ∧ c.off = off ∧
      S = insert none (some '' h.locs g (rangeKey b d off)) := by
  unfold writesOf at hS
  split at hS
  · cases hS
  rename_i g d hset
  split_ifs at hS with hc
  obtain ⟨c, hc⟩ := Option.isSome_iff_exists.mp hc
  have hshape := (rowAt_eq_some (setterAt_eq_some hset).1).1
  refine ⟨g, d, c, hset, fun p => (recordCall_gen hshape p none).trans hc, recordCall_off hc, ?_⟩
  exact (Option.some.inj hS).symm

def replayWrites (rt : Runtime) : Lib.Writes ℕ (Option Word × (Loc → Val)) (Option Loc) where
  run := replayEffect h rt
  sets := writesOf h rt
  agree C m m' := (none ∉ C → m.1 = m'.1) ∧ ∀ l, some l ∉ C → m.2 l = m'.2 l
  agree_refl := ⟨fun _ => rfl, fun _ _ => rfl⟩
  eq_of_agree := fun ⟨hp, hs⟩ => Prod.ext (hp (by simp)) (funext fun l => hs l (by simp))
  agree_run := by
    intro off S C m m' hS hm
    obtain ⟨g, d, c, hset, hc, hoff, rfl⟩ := writesOf_eq_some h hS
    obtain ⟨val, hval⟩ := h.run_setter c (by rw [hoff]; exact hset)
    simp only [replayEffect, hc]
    refine ⟨fun _ => trivial, fun l hl => ?_⟩
    by_cases hmem : l ∈ h.locs g (rangeKey b d off)
    · rw [(hval _ l).1 (by rwa [hoff]), (hval _ l).1 (by rwa [hoff])]
    · rw [(hval _ l).2 (by rwa [hoff]), (hval _ l).2 (by rwa [hoff])]
      exact hm.2 l (by simp [hmem, hl])
  agree_skip := by
    intro off S C m m' hS hsub hm
    obtain ⟨g, d, c, hset, hc, hoff, rfl⟩ := writesOf_eq_some h hS
    obtain ⟨val, hval⟩ := h.run_setter c (by rw [hoff]; exact hset)
    simp only [replayEffect, hc]
    refine ⟨fun hnone => absurd (hsub (Set.mem_insert _ _)) hnone, fun l hl => ?_⟩
    have hmem : l ∉ h.locs g (rangeKey b d off) := fun hmem =>
      hl (hsub (Set.mem_insert_of_mem _ (Set.mem_image_of_mem _ hmem)))
    rw [(hval _ l).2 (by rwa [hoff])]
    exact hm.2 l hl

def Unrefused (t : Tables) (rt : Runtime) (b : Bytes) (xs : List ℕ) : Prop :=
  ∀ x ∈ xs, t.setterAt b x ≠ none → (recordCall t rt b none x).isSome

theorem writesOf_setter (hlive : t.setterAt b x ≠ none →
    (recordCall t rt b none x).isSome) (hset : t.setterAt b x = some (g, d)) :
    writesOf h rt x = some (insert none (some '' h.locs g (rangeKey b d x))) := by
  rw [writesOf, hset]
  exact if_pos (hlive (by simp [hset]))

theorem writesOf_consumer (hset : t.setterAt b x = none) : writesOf h rt x = none := by
  rw [writesOf, hset]

theorem subset_covered {dead : ℕ → Bool} {xs : List ℕ}
    (hw : t.setterAt b w = some (g, d)) (hlive : Unrefused t rt b xs)
    (hskip : (replayWrites h rt).Skippable dead xs) (hkill : NextKills t b g w xs) :
    insert none (some '' h.locs g (rangeKey b d w)) ⊆ (replayWrites h rt).covered dead xs := by
  induction xs with
  | nil => exact hkill.elim
  | cons x xs ih =>
    obtain ⟨hx, hxs⟩ := hskip
    have hlive' : Unrefused t rt b xs := fun y hy => hlive y (by simp [hy])
    cases hset : t.setterAt b x with
    | none => simp [NextKills, hset] at hkill
    | some r =>
      obtain ⟨g', d'⟩ := r
      have hsets := writesOf_setter h (hlive x (by simp)) hset
      rw [Lib.Writes.covered, show (replayWrites h rt).sets x = _ from hsets]
      by_cases hg : g' = g
      · subst hg
        obtain rfl := setterAt_row hw hset
        rw [overwrites_rangeKey ((nextKills_same hset).mp hkill)]
        split_ifs with hdead
        · obtain ⟨S, hS, hsub⟩ := hx hdead
          cases hsets.symm.trans hS
          exact hsub
        · exact Set.subset_union_left
      · have hrest := ih hlive' hxs ((nextKills_other hset (Ne.symm hg)).mp hkill)
        split_ifs
        · exact hrest
        · exact hrest.trans Set.subset_union_right

end WinePpc64.Journal
