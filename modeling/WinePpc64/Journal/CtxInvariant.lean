import WinePpc64.Journal.CtxRing
import WinePpc64.Lib.RecordRing

/-!
What every context ring satisfies while threads interleave: the bytes between the replayed
offset and `pos` are exactly the records not replayed yet. The recording thread owns `pos`
and the bytes above it, the holder of `jr_cs` owns `cons`, and each of the two keeps what
the other has read.
-/

namespace WinePpc64.Journal.Ctx

open Lib List

instance : Sized CtxRec where
  size := CtxRec.size
  size_pos x := lt_of_lt_of_le (by decide) x.size_ge

structure RingOk (g : Ring) : Prop where
  le : g.cons ≤ g.done
  pending : ∃ rest, g.appended = g.replayed ++ rest ∧ Encodes g.data g.done g.pos rest
  quiet : g.draining = false → g.cons = g.done
  completed_le : g.completed ≤ g.appended.length

variable {g : Ring} {p : ℕ}

theorem Ring.drop_self (hc : g.cons = p) (hd : g.done = p) : { g with cons := p, done := p } = g := by
  cases g
  simp_all

def Ahead (g : Ring) (n p : ℕ) : Prop :=
  ∃ front back, g.appended = g.replayed ++ (front ++ back) ∧ Encodes g.data g.done p front ∧
    n ≤ g.replayed.length + front.length

def Seen (g : Ring) (n p : ℕ) : Prop := n ≤ g.replayed.length ∨ Ahead g n p

variable {n : ℕ} {x : CtxRec}

theorem RingOk.ahead (h : RingOk g) (hn : n ≤ g.appended.length) : Ahead g n g.pos := by
  obtain ⟨rest, happ, henc⟩ := h.pending
  refine ⟨rest, [], by simpa using happ, henc, ?_⟩
  simpa [happ] using hn

theorem RingOk.done_le (h : RingOk g) : g.done ≤ g.pos := by
  obtain ⟨rest, -, henc⟩ := h.pending
  exact henc.le

theorem RingOk.replayed_le (h : RingOk g) : g.replayed.length ≤ g.appended.length := by
  obtain ⟨rest, happ, -⟩ := h.pending
  simp [happ]

theorem RingOk.replayed_eq (h : RingOk g) (hdone : g.done = g.pos) : g.replayed = g.appended := by
  obtain ⟨rest, happ, henc⟩ := h.pending
  rw [hdone] at henc
  simpa [henc.eq_nil] using happ.symm

theorem Ahead.done_le (h : Ahead g n p) : g.done ≤ p := by
  obtain ⟨front, -, -, henc, -⟩ := h
  exact henc.le

theorem Ahead.le_of_done (h : Ahead g n p) (hp : p ≤ g.done) : n ≤ g.replayed.length := by
  obtain ⟨front, -, -, henc, hn⟩ := h
  obtain rfl := le_antisymm henc.le hp
  simpa [henc.eq_nil] using hn

theorem Seen.le_of_cons (h : Seen g n p) (hg : RingOk g) (hp : p = g.cons) : n ≤ g.replayed.length := by
  obtain h | h := h
  · exact h
  · exact h.le_of_done (hp ▸ hg.le)

theorem Seen.le_appended (h : Seen g n p) (hg : RingOk g) : n ≤ g.appended.length := by
  obtain hn | ⟨front, back, happ, -, hn⟩ := h
  · exact hn.trans hg.replayed_le
  · rw [happ]
    simp only [length_append]
    omega

theorem Ahead.replayOne (h : Ahead g n p) (hp : g.done < p) :
    ∃ x, g.data g.done = some x ∧ Ahead (g.replayOne g.done x) n p := by
  obtain ⟨front, back, happ, henc, hn⟩ := h
  obtain ⟨x, front, rfl, hx, henc⟩ := henc.eq_cons hp
  refine ⟨x, hx, front, back, by simpa [Ring.replayOne] using happ, henc, ?_⟩
  simp only [Ring.replayOne, length_append, length_cons, length_nil] at hn ⊢
  omega

theorem Seen.replayOne (h : Seen g n p) (hx : g.data g.done = some x) : Seen (g.replayOne g.done x) n p := by
  obtain h | ⟨front, back, happ, henc, hn⟩ := h
  · exact .inl (h.trans (by simp [Ring.replayOne]))
  cases front with
  | nil => exact .inl (by simp [Ring.replayOne] at hn ⊢; omega)
  | cons y front =>
    cases henc.1.symm.trans hx
    refine .inr ⟨front, back, by simpa [Ring.replayOne] using happ, henc.2, ?_⟩
    simp only [Ring.replayOne, length_append, length_cons, length_nil] at hn ⊢
    omega

theorem RingOk.replayOne (h : RingOk g) (hx : g.data g.done = some x)
    (hd : g.draining = true) (hlt : g.done < g.pos) : RingOk (g.replayOne g.done x) := by
  obtain ⟨rest, happ, henc⟩ := h.pending
  obtain ⟨y, rest, rfl, hy, henc⟩ := henc.eq_cons hlt
  cases hy.symm.trans hx
  exact ⟨h.le.trans (Nat.le_add_right _ _), ⟨rest, by simpa [Ring.replayOne] using happ, henc⟩,
    fun hq => absurd (hd.symm.trans hq) (by simp), h.completed_le⟩

theorem Ahead.le_pos (h : Ahead g n p) (hg : RingOk g) : p ≤ g.pos := by
  obtain ⟨front, back, happ, henc, -⟩ := h
  obtain ⟨rest, happ', henc'⟩ := hg.pending
  obtain rfl := append_cancel_left (happ.symm.trans happ')
  exact henc.le_of_append henc'

end WinePpc64.Journal.Ctx
