import WinePpc64.Journal.DevMerge

/-!
What a drain does to one ring: it replays from the head on until the cut, an ill-formed record
or the end.
-/

namespace WinePpc64.Journal.Merge

open List

namespace DevRing

variable {g : DevRing} {a b c : ℕ}

def records (g : DevRing) (a b : ℕ) : List Entry :=
  (List.range ((b - a) / devRecBytes)).map fun k => g.data (a + devRecBytes * k)

@[simp] theorem records_self : g.records a a = [] := by
  simp [records]

theorem records_append (hab : a ≤ b) (hbc : b ≤ c) (ha : devRecBytes ∣ a) (hb : devRecBytes ∣ b) :
    g.records a c = g.records a b ++ g.records b c := by
  obtain ⟨i, rfl⟩ := ha
  obtain ⟨j, rfl⟩ := hb
  have hij : i ≤ j := Nat.le_of_mul_le_mul_left hab (by decide)
  obtain ⟨d, rfl⟩ := Nat.exists_eq_add_of_le hij
  have hlen : (c - devRecBytes * i) / devRecBytes =
      d + (c - devRecBytes * (i + d)) / devRecBytes := by
    simp only [devRecBytes] at *
    omega
  have hd : (devRecBytes * (i + d) - devRecBytes * i) / devRecBytes = d := by
    rw [← Nat.mul_sub, Nat.add_sub_cancel_left, Nat.mul_div_cancel_left _ (by decide)]
  simp only [records, hlen, hd, range_add, map_append, map_map]
  congr 2
  funext k
  rw [Function.comp_apply]
  congr 1
  ring

theorem records_one : g.records a (a + devRecBytes) = [g.data a] := by
  simp [records, devRecBytes]

theorem records_cons (hab : a < b) (ha : devRecBytes ∣ a) (hb : devRecBytes ∣ b) :
    a + devRecBytes ≤ b ∧ g.records a b = g.data a :: g.records (a + devRecBytes) b := by
  have hle : a + devRecBytes ≤ b := by
    simp only [devRecBytes] at *
    omega
  exact ⟨hle, by
    rw [records_append (Nat.le_add_right a devRecBytes) hle ha (Nat.dvd_add_self_right.mpr ha),
      records_one, singleton_append]⟩

def pending (g : DevRing) : List Entry := g.records g.cons g.pos

structure Formed (g : DevRing) : Prop where
  le : g.cons ≤ g.pos
  fits : g.pos ≤ g.cap
  cons_dvd : devRecBytes ∣ g.cons
  pos_dvd : devRecBytes ∣ g.pos

structure Snapped (g : DevRing) : Prop where
  le_snap : g.cons ≤ g.snap
  le_pos : g.snap ≤ g.pos
  cons_dvd : devRecBytes ∣ g.cons
  snap_dvd : devRecBytes ∣ g.snap
  pos_dvd : devRecBytes ∣ g.pos

theorem Formed.takeSnap_snap (h : g.Formed) : g.takeSnap.snap = g.pos := by
  refine if_neg ?_
  push Not
  exact ⟨h.fits, Nat.mod_eq_zero_of_dvd h.pos_dvd⟩

theorem Formed.snapped (h : g.Formed) : g.takeSnap.Snapped where
  le_snap := h.takeSnap_snap ▸ h.le
  le_pos := h.takeSnap_snap.le
  cons_dvd := h.cons_dvd
  snap_dvd := h.takeSnap_snap ▸ h.pos_dvd
  pos_dvd := h.pos_dvd

theorem Snapped.hold (h : g.Snapped) {now : BitVec 64} :
    DevRing.Snapped { g with badCons := c, badSince := now, snap := g.cons } where
  le_snap := le_rfl
  le_pos := h.le_snap.trans h.le_pos
  cons_dvd := h.cons_dvd
  snap_dvd := h.cons_dvd
  pos_dvd := h.pos_dvd

theorem Snapped.drop (h : g.Snapped) : g.drop.Snapped where
  le_snap := le_rfl
  le_pos := h.le_pos
  cons_dvd := h.snap_dvd
  snap_dvd := h.snap_dvd
  pos_dvd := h.pos_dvd

theorem Snapped.advance (h : g.Snapped) (hlt : g.cons < g.snap) : g.advance.Snapped where
  le_snap := (records_cons (g := g) hlt h.cons_dvd h.snap_dvd).1
  le_pos := h.le_pos
  cons_dvd := Nat.dvd_add_self_right.mpr h.cons_dvd
  snap_dvd := h.snap_dvd
  pos_dvd := h.pos_dvd

theorem reject_cases (g : DevRing) {now : BitVec 64} :
    (∃ c since, g.reject now = { g with badCons := c, badSince := since, snap := g.cons }) ∨
      g.reject now = g.drop := by
  simp only [reject]
  split_ifs
  · exact .inl ⟨_, _, rfl⟩
  · exact .inr rfl
  · exact .inl ⟨_, _, rfl⟩

/-- What a drain has done with a ring that was `g₀` and is `g`: it replayed `out`, and what is
left is still queued, or stands behind an ill-formed record. -/
structure Progress (good : Entry → Bool) (cut : ℕ) (g₀ g : DevRing) (out : List Entry) : Prop where
  pos : g.pos = g₀.pos
  owner : g.ownerTid = g₀.ownerTid
  cons_le : g₀.cons ≤ g.cons
  snapped : g.Snapped
  replayed : ∀ e ∈ out, good e = true ∧ e.stamp < cut
  rest : (g₀.pending = out ++ g.pending ∧ (g.snap = g.pos ∨
        g.snap = g.cons ∧ ∃ e es, g.pending = e :: es ∧ good e = false)) ∨
      (g.dropped = true ∧ g.snap = g.cons ∧ g.cons = g.pos ∧
        ∃ e es, g₀.pending = out ++ e :: es ∧ good e = false)

namespace Progress

variable {good : Entry → Bool} {cut : ℕ} {g₀ : DevRing} {out : List Entry}

theorem start (h : g.Formed) : Progress good cut g g.takeSnap [] where
  pos := rfl
  owner := rfl
  cons_le := le_rfl
  snapped := h.snapped
  replayed := by simp
  rest := .inl ⟨rfl, .inl h.takeSnap_snap⟩

variable (h : Progress good cut g₀ g out) (hlt : g.cons < g.snap)
include h hlt

theorem queued : g.snap = g.pos ∧ g₀.pending = out ++ g.pending := by
  obtain ⟨hp, hs | ⟨hs, -⟩⟩ | ⟨-, hs, -⟩ := h.rest
  · exact ⟨hs, hp⟩
  · omega
  · omega

theorem pending_eq : g.pending = g.head :: g.advance.pending :=
  (records_cons (hlt.trans_le h.snapped.le_pos) h.snapped.cons_dvd h.snapped.pos_dvd).2

theorem advance (hgood : good g.head = true) (hcut : g.head.stamp < cut) :
    Progress good cut g₀ g.advance (out ++ [g.head]) where
  pos := h.pos
  owner := h.owner
  cons_le := h.cons_le.trans (Nat.le_add_right _ _)
  snapped := h.snapped.advance hlt
  replayed e he := by
    obtain he | he := mem_append.mp he
    · exact h.replayed e he
    · rw [mem_singleton.mp he]
      exact ⟨hgood, hcut⟩
  rest := by
    obtain ⟨hs, hp⟩ := h.queued hlt
    refine .inl ⟨?_, .inl hs⟩
    rw [hp, h.pending_eq hlt, append_assoc, singleton_append]

theorem reject (hgood : good g.head = false) (now : BitVec 64) :
    Progress good cut g₀ (g.reject now) out ∧ (g.reject now).snap = (g.reject now).cons := by
  obtain ⟨hs, hp⟩ := h.queued hlt
  obtain ⟨c, since, hk⟩ | hk := g.reject_cases
  · rw [hk]
    exact ⟨{ h with snapped := h.snapped.hold, rest := .inl ⟨hp, .inr ⟨rfl, _, _, h.pending_eq hlt, hgood⟩⟩ }, rfl⟩
  · rw [hk]
    exact ⟨⟨h.pos, h.owner, h.cons_le.trans h.snapped.le_snap, h.snapped.drop, h.replayed,
      .inr ⟨rfl, rfl, hs, _, _, hp.trans (by rw [h.pending_eq hlt]), hgood⟩⟩, rfl⟩

end Progress

end DevRing

end WinePpc64.Journal.Merge
