import WinePpc64.Journal.DevRing

/-!
The invariant of the device journal. A completed append is announced by the dirty byte until
`wc_dev_drain` clears it, and from then on by the thread that cleared it, which holds
`dev_cs` until every record complete at the clear is replayed: such a record is stamped
before the cut, so no head that ends the merge stands before it.
-/

namespace WinePpc64.Journal.Dev

open Lib

structure RingOk (clock : ℕ) (g : DevRing) : Prop where
  pending : ∃ rest, g.appended = g.replayed ++ rest ∧ Encodes g.data g.cons g.pos rest
  fits : g.pos ≤ g.cap
  whole : g.pos % devRecBytes = 0
  completed_le : g.completed ≤ g.appended.length
  stamped : ∀ x ∈ g.appended, x.stamp < clock

def Snapped (g : DevRing) (c : ℕ) : Prop :=
  ∃ front back, g.appended = g.replayed ++ (front ++ back) ∧ Encodes g.data g.cons g.snap front ∧
    c ≤ g.replayed.length + front.length

structure Owes (rings : ℕ → DevRing) (need cover : ℕ → ℕ) : Prop where
  need_le : ∀ r, need r ≤ cover r
  cover_le : ∀ r, cover r ≤ (rings r).completed

def Cut (rings : ℕ → DevRing) (cut : ℕ) (cover : ℕ → ℕ) : Prop :=
  ∀ r, ∀ x ∈ (rings r).appended.take (cover r), x.stamp < cut

def PcOk (n : ℕ) (rings : ℕ → DevRing) (clock t : ℕ) : Pc → Prop
  | .rdtsc _ pos => pos = (rings t).pos ∧ pos + devRecBytes ≤ (rings t).cap
  | .bytes x pos =>
    pos = (rings t).pos ∧ pos + devRecBytes ≤ (rings t).cap ∧ x.stamp < clock
  | .commit x pos =>
    pos = (rings t).pos ∧ pos + devRecBytes ≤ (rings t).cap ∧ x.stamp < clock ∧
      (rings t).data pos = some x
  | .test need | .enter need | .fuse need | .clear need => ∀ r, need r ≤ (rings r).completed
  | .takeCut need cover => Owes rings need cover ∧ Cut rings clock cover
  | .snapshot i cut need cover =>
    Owes rings need cover ∧ Cut rings cut cover ∧ ∀ r < i, Snapped (rings r) (cover r)
  | .merge cut need cover =>
    Owes rings need cover ∧ Cut rings cut cover ∧ ∀ r < n, Snapped (rings r) (cover r)
  | .rearm need cover | .reclaim _ need cover | .reclaimDirty _ need cover
  | .leave need cover => Owes rings need cover ∧ ∀ r < n, cover r ≤ (rings r).replayed.length
  | _ => True

def Pc.holds : Pc → Bool
  | .idle | .room _ | .rdtsc _ _ | .bytes _ _ | .commit _ _ | .dirtyStore | .test _
  | .enter _ => false
  | _ => true

def Pc.inSection : Pc → Bool
  | .fuse _ | .leave _ _ => false
  | p => p.holds

def Pc.covers (r c : ℕ) : Pc → Prop
  | .takeCut _ cover | .snapshot _ _ _ cover | .merge _ _ cover => c ≤ cover r
  | _ => False

def Announced (n : ℕ) (s : State) : Prop :=
  s.dirty = true ∨ ∀ r < n, (s.rings r).completed ≤ (s.rings r).replayed.length ∨
    ∃ t, (s.pc t).covers r (s.rings r).completed

structure Inv (n : ℕ) (s : State) : Prop where
  ring : ∀ r, RingOk s.clock (s.rings r)
  pc : ∀ t, PcOk n s.rings s.clock t (s.pc t)
  held : ∀ t, (s.pc t).holds = true → s.owner = some t
  draining : s.draining = true → ∃ t, (s.pc t).inSection = true
  announced : Announced n s

structure Frame (g g' : DevRing) (mine locked : Prop) : Prop where
  completed : g.completed ≤ g'.completed
  appended : g.appended <+: g'.appended
  replayed : g.replayed.length ≤ g'.replayed.length
  mine : mine → g'.pos = g.pos ∧ g'.cap = g.cap ∧ g'.data = g.data
  locked : locked → ∀ c, Snapped g c → Snapped g' c

theorem Frame.refl {g : DevRing} {mine locked : Prop} : Frame g g mine locked :=
  ⟨le_rfl, List.prefix_rfl, le_rfl, fun _ => ⟨rfl, rfl, rfl⟩, fun _ _ h => h⟩

theorem Frame.mono {g g' : DevRing} {mine mine' locked locked' : Prop}
    (h : Frame g g' mine locked) (hm : mine' → mine) (hl : locked' → locked) :
    Frame g g' mine' locked' :=
  { h with mine := fun m => h.mine (hm m), locked := fun l => h.locked (hl l) }

section Frames

variable {n c r : ℕ} {rings rings' : ℕ → DevRing} {clock clock' cut t : ℕ} {need cover : ℕ → ℕ}
  {p : Pc}

theorem take_of_prefix {xs ys : List DevRec} (h : xs <+: ys) (hc : c ≤ xs.length) :
    ys.take c = xs.take c := by
  obtain ⟨-, rfl⟩ := h
  exact List.take_append_of_le_length hc

theorem Owes.frame (h : Owes rings need cover)
    (hf : ∀ r, Frame (rings r) (rings' r) False False) : Owes rings' need cover :=
  ⟨h.need_le, fun r => (h.cover_le r).trans (hf r).completed⟩

theorem Owes.take_eq (h : Owes rings need cover) (hok : ∀ r, RingOk clock (rings r))
    (hf : ∀ r, Frame (rings r) (rings' r) False False) :
    (rings' r).appended.take (cover r) = (rings r).appended.take (cover r) :=
  take_of_prefix (hf r).appended ((h.cover_le r).trans (hok r).completed_le)

theorem Cut.frame (h : Cut rings cut cover) (ho : Owes rings need cover)
    (hok : ∀ r, RingOk clock (rings r)) (hf : ∀ r, Frame (rings r) (rings' r) False False) :
    Cut rings' cut cover := by
  intro r x hx
  rw [ho.take_eq hok hf] at hx
  exact h r x hx

theorem PcOk.frame (h : PcOk n rings clock t p) (hok : ∀ r, RingOk clock (rings r))
    (hf : ∀ r, Frame (rings r) (rings' r) (t = r) (p.holds = true)) (hclock : clock ≤ clock') :
    PcOk n rings' clock' t p := by
  have hmine := (hf t).mine rfl
  have hf' : ∀ r, Frame (rings r) (rings' r) False False :=
    fun r => (hf r).mono False.elim False.elim
  cases p with
  | rdtsc call pos => simpa [PcOk, hmine] using h
  | bytes x pos =>
    obtain ⟨hpos, hroom, hx⟩ := h
    exact ⟨hmine.1 ▸ hpos, hmine.2.1 ▸ hroom, hx.trans_le hclock⟩
  | commit x pos =>
    obtain ⟨hpos, hroom, hx, hdata⟩ := h
    exact ⟨hmine.1 ▸ hpos, hmine.2.1 ▸ hroom, hx.trans_le hclock, hmine.2.2 ▸ hdata⟩
  | test need | enter need | fuse need | clear need =>
    exact fun r => (h r).trans (hf r).completed
  | takeCut need cover =>
    exact ⟨h.1.frame hf', fun r x hx => (Cut.frame h.2 h.1 hok hf' r x hx).trans_le hclock⟩
  | snapshot i cut need cover | merge cut need cover =>
    exact ⟨h.1.frame hf', h.2.1.frame h.1 hok hf',
      fun r hr => (hf r).locked rfl _ (h.2.2 r hr)⟩
  | rearm need cover | reclaim i need cover | reclaimDirty i need cover | leave need cover =>
    exact ⟨h.1.frame hf', fun r hr => (h.2 r hr).trans (hf r).replayed⟩
  | _ => trivial

end Frames

end WinePpc64.Journal.Dev
