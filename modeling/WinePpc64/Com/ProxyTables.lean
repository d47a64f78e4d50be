import WinePpc64.Com.Proxies

/-!
The order of the two intern tables: every linked proxy stands in its bucket, each key and each
address once. A growth of the forward table keeps it, and a wrap in either direction finds the
linked proxy or links a new one.
-/

namespace WinePpc64.Com.Proxies

open Function Lib List ChainTable

variable {e : Env} {s t : State} {P : State → Prop} {n : ℕ} {a : Word}

theorem internBucket_lt (hn : 0 < n) (p : ComProxy) : internBucket n p < n :=
  Nat.lt_of_le_of_lt Nat.and_le_right (by omega)

theorem revBucket_lt (hn : 0 < n) (p : RevProxy) : revBucket n p < n := Nat.mod_lt _ hn

structure ForwardOk (t : ChainTable ComProxy) : Prop where
  size_pos : 0 < t.size
  placed : t.Placed internBucket
  addrs : (t.elems.map ComProxy.addr).Nodup
  keys : (t.elems.map fun p => (p.host, p.iface)).Nodup

structure ReverseOk (t : ChainTable RevProxy) (refs : Word → ℤ) : Prop where
  size_pos : 0 < t.size
  placed : t.Placed revBucket
  addrs : (t.elems.map RevProxy.addr).Nodup
  keys : (t.elems.map fun p => (p.guest, p.iface)).Nodup
  counts : ∀ p ∈ t.elems, 0 < refs p.addr

structure Tables (s : State) : Prop where
  forward : ForwardOk s.intern
  reverse : ReverseOk s.revIntern s.revRefs

theorem tables_init {g : Word → ℤ} : Tables (.init g) := by
  refine ⟨⟨(by decide : 0 < internBucketsInit), placed_empty, ?_, ?_⟩,
    ⟨(by decide : 0 < revBuckets), placed_empty, ?_, ?_, ?_⟩⟩ <;> simp [State.init]

theorem mem_of_proxyFromPointer {x : Seen} {p : ComProxy} (h : proxyFromPointer s x = some p) :
    p ∈ s.intern.elems ∧ x = .proxy p.addr := by
  cases x with
  | proxy a =>
    have ha := find?_some h
    exact ⟨mem_of_find?_eq_some h, by simpa using (of_decide_eq_true ha).symm⟩
  | guest g => cases h

theorem mem_of_revFromPointer {x : Native} {p : RevProxy} (h : revFromPointer e s x = some p) :
    p ∈ s.revIntern.elems ∧ x = .rev p.addr ∧ e.revEnabled = true := by
  cases x with
  | host a => cases h
  | rev a =>
    obtain ⟨hen, h⟩ := Option.ite_none_right_eq_some.mp h
    have ha := find?_some h
    exact ⟨mem_of_find?_eq_some h, by simpa using (of_decide_eq_true ha).symm, hen⟩

theorem wcGuestAddref_rule {guest : Seen} {iface : ℕ} (hs : P s)
    (hg : ∀ g, P (s.addGuestRefs g 1)) (hp : ∀ p ∈ s.intern.elems, P (proxyAddref e s p)) :
    P (wcGuestAddref e s guest iface) := by
  simp only [wcGuestAddref]
  split_ifs
  · exact hs
  split
  · exact hg _
  split
  · exact hp _ (mem_of_proxyFromPointer ‹_›).1
  · exact hs

theorem wcGuestRelease_rule {guest : Seen} {iface : ℕ} (hs : P s)
    (hg : ∀ g, P (s.addGuestRefs g (-1))) (hp : ∀ p ∈ s.intern.elems, P (proxyRelease e s p)) :
    P (wcGuestRelease e s guest iface) := by
  simp only [wcGuestRelease]
  split_ifs
  · exact hs
  split
  · exact hg _
  split
  · exact hp _ (mem_of_proxyFromPointer ‹_›).1
  · exact hs

namespace ForwardOk

variable {tb : ChainTable ComProxy} {p q : ComProxy}

variable (h : ForwardOk tb)
include h

theorem grow {count : ℕ} {grown : Bool} :
    ForwardOk (internGrow tb count grown) ∧ (internGrow tb count grown).elems.Perm tb.elems := by
  rw [internGrow]
  split_ifs
  · have hpos : 0 < 2 * tb.size := Nat.mul_pos (by decide) h.size_pos
    obtain ⟨hsize, hplaced, hperm⟩ :=
      rehash_spec internBucket (internBucket_lt hpos)
    exact ⟨⟨hsize.symm ▸ hpos, hplaced, (hperm.map _).nodup_iff.mpr h.addrs,
      (hperm.map _).nodup_iff.mpr h.keys⟩, hperm⟩
  · exact ⟨h, .refl _⟩

theorem push (ha : ∀ q ∈ tb.elems, q.addr ≠ p.addr)
    (hk : ∀ q ∈ tb.elems, ¬ (q.host = p.host ∧ q.iface = p.iface)) :
    ForwardOk (tb.push internBucket p) ∧ (tb.push internBucket p).elems.Perm (p :: tb.elems) := by
  have hlt := internBucket_lt h.size_pos p
  exact ⟨⟨h.size_pos, h.placed.push, nodup_map_push hlt h.addrs ha,
    nodup_map_push hlt h.keys (by simpa using hk)⟩, elems_push_perm hlt⟩

end ForwardOk

theorem internProxy_cases (h : Tables s) (e : Env) (host : Native) (iface : ℕ) (mem : Option Word)
    (grown : Bool) :
    (∃ p ∈ s.intern.elems, p.host = host ∧ p.iface = iface ∧
      internProxy e s host iface mem grown =
        (some (.proxy p.addr), s.setRefs p.addr (long (s.refs p.addr + 1)))) ∨
    ((∀ p ∈ s.intern.elems, ¬ (p.host = host ∧ p.iface = iface)) ∧
      (mem = none ∧ internProxy e s host iface mem grown = (none, hostReleaseIface e s host iface) ∨
        ∃ a, mem = some a ∧ internProxy e s host iface mem grown = (some (.proxy a),
          (s.setRefs a 1).setIntern ((internGrow s.intern (s.internCount + 1) grown).push internBucket
            ⟨a, host, iface⟩) (s.internCount + 1)))) := by
  have hspec := h.forward.placed.find_spec (internBucket_lt h.forward.size_pos ⟨0, host, iface⟩)
    (fun p => decide (p.host = host ∧ p.iface = iface))
    fun q hq => by simp [internBucket, (of_decide_eq_true hq).1]
  cases hf : (s.intern.chain (internBucket s.intern.size ⟨0, host, iface⟩)).find?
      (fun p => p.host = host ∧ p.iface = iface) with
  | some p =>
    obtain ⟨hp, hk⟩ := hspec.1 p hf
    obtain ⟨hh, hi⟩ := of_decide_eq_true hk
    exact .inl ⟨p, hp, hh, hi, by simp only [internProxy, hf]⟩
  | none =>
    refine .inr ⟨fun p hp => of_decide_eq_false (hspec.2 hf p hp), ?_⟩
    cases mem with
    | none => exact .inl ⟨rfl, by simp only [internProxy, hf]⟩
    | some a => exact .inr ⟨a, rfl, by simp only [internProxy, hf]⟩

namespace ReverseOk

variable {tb : ChainTable RevProxy} {refs : Word → ℤ} {p q : RevProxy}

variable (h : ReverseOk tb refs)
include h

theorem setRefs {n : ℤ} (hn : 0 < n) : ReverseOk tb (update refs a n) := by
  refine { h with counts := fun p hp => ?_ }
  by_cases hpa : p.addr = a
  · simpa [hpa] using hn
  · simpa [hpa] using h.counts p hp

theorem push (ha : ∀ q ∈ tb.elems, q.addr ≠ p.addr)
    (hk : ∀ q ∈ tb.elems, ¬ (q.guest = p.guest ∧ q.iface = p.iface)) :
    ReverseOk (tb.push revBucket p) (update refs p.addr 1) ∧
      (tb.push revBucket p).elems.Perm (p :: tb.elems) := by
  have hlt := revBucket_lt h.size_pos p
  have hperm := elems_push_perm hlt
  refine ⟨⟨h.size_pos, h.placed.push, nodup_map_push hlt h.addrs ha,
    nodup_map_push hlt h.keys (by simpa using hk), fun q hq => ?_⟩, hperm⟩
  obtain rfl | hq := mem_cons.mp (hperm.mem_iff.mp hq)
  · simp
  · simpa [ha q hq] using h.counts q hq

theorem unlink (hp : p ∈ tb.elems) :
    ReverseOk (tb.setChain (revBucket tb.size p)
        ((tb.chain (revBucket tb.size p)).eraseP fun q => q.addr = p.addr))
      (update refs p.addr 0) ∧
    tb.elems.Perm (p :: (tb.setChain (revBucket tb.size p)
      ((tb.chain (revBucket tb.size p)).eraseP fun q => q.addr = p.addr)).elems) := by
  have hlt := revBucket_lt h.size_pos p
  have hchain := (h.placed.mem_elems hlt).mp hp
  obtain ⟨q, front, back, -, hqa, hsplit, herase⟩ :=
    exists_of_eraseP hchain (p := fun q => q.addr = p.addr) (by simp)
  have hq : q ∈ tb.elems :=
    mem_flatMap.mpr ⟨_, mem_range.mpr hlt, hsplit ▸ by simp⟩
  obtain rfl := inj_on_of_nodup_map h.addrs hq hp (of_decide_eq_true hqa)
  have hmiddle : (tb.chain (revBucket tb.size q)).Perm (q :: (front ++ back)) :=
    hsplit ▸ perm_middle
  have hperm := elems_perm_cons_setChain hlt hmiddle
  rw [herase]
  have haddrs := (hperm.map RevProxy.addr).nodup_iff.mp h.addrs
  have hkeys := (hperm.map fun p => (p.guest, p.iface)).nodup_iff.mp h.keys
  refine ⟨⟨h.size_pos, h.placed.setChain fun x hx => ?_, (nodup_cons.mp haddrs).2,
    (nodup_cons.mp hkeys).2, fun x hx => ?_⟩, hperm⟩
  · refine h.placed _ x ?_
    rw [hsplit]
    simp only [mem_append, mem_cons] at hx ⊢
    tauto
  · have hne : x.addr ≠ q.addr := fun heq =>
      (nodup_cons.mp haddrs).1 (heq ▸ mem_map_of_mem hx)
    simpa [hne] using h.counts x (hperm.mem_iff.mpr (mem_cons_of_mem _ hx))

end ReverseOk

def Env.reversible (e : Env) (iface : ℕ) : Bool :=
  e.ready && e.revEnabled &&
    (e.surface.ifaces[iface]?).any fun itf => decide (itf.slotCount ≤ revMaxSlots)

theorem winecomReverseWrap_refused {iface : ℕ} (h : e.reversible iface = false)
    {guest : Seen} {mem : Option Word} :
    winecomReverseWrap e s (some guest) iface mem = (none, s) := by
  simp only [winecomReverseWrap]
  by_cases hon : e.ready = true ∧ e.revEnabled = true
  · rw [if_neg (not_not.mpr hon)]
    cases hitf : e.surface.ifaces[iface]? with
    | none => rfl
    | some itf => exact if_pos (by simpa [Env.reversible, hon, hitf] using h)
  · exact if_pos hon

theorem winecomReverseWrap_reversible {iface : ℕ} (h : e.reversible iface = true)
    {guest : Seen} {mem : Option Word} :
    winecomReverseWrap e s (some guest) iface mem =
      match (s.revIntern.chain (revBucket s.revIntern.size ⟨0, guest, iface⟩)).find?
          fun p => p.guest = guest ∧ p.iface = iface with
      | some p => (some (.rev p.addr), wcGuestRelease e (revAddref s p) guest iface)
      | none => match mem with
        | none => (none, wcGuestRelease e s guest iface)
        | some a => (some (.rev a), (s.setRevRefs a 1).setRevIntern
            (s.revIntern.push revBucket ⟨a, guest, iface⟩)) := by
  simp only [Env.reversible, Bool.and_eq_true] at h
  obtain ⟨⟨hready, hen⟩, hany⟩ := h
  cases hitf : e.surface.ifaces[iface]? with
  | none => simp [hitf] at hany
  | some itf =>
    have hslots : ¬ revMaxSlots < itf.slotCount := by simpa [hitf] using hany
    split
    next p hp =>
      simp only [winecomReverseWrap, hready, hen, hitf, hslots, hp, and_self, not_true_eq_false, if_false]
    next hp =>
      cases mem <;>
        simp only [winecomReverseWrap, hready, hen, hitf, hslots, hp, and_self, not_true_eq_false, if_false]

theorem winecomReverseWrap_cases (h : Tables s) {iface : ℕ} (hrev : e.reversible iface = true)
    (guest : Seen) (mem : Option Word) :
    (∃ p ∈ s.revIntern.elems, p.guest = guest ∧ p.iface = iface ∧
      winecomReverseWrap e s (some guest) iface mem =
        (some (.rev p.addr), wcGuestRelease e (revAddref s p) guest iface)) ∨
    ((∀ p ∈ s.revIntern.elems, ¬ (p.guest = guest ∧ p.iface = iface)) ∧
      (mem = none ∧ winecomReverseWrap e s (some guest) iface mem =
          (none, wcGuestRelease e s guest iface) ∨
        ∃ a, mem = some a ∧ winecomReverseWrap e s (some guest) iface mem =
          (some (.rev a), (s.setRevRefs a 1).setRevIntern
            (s.revIntern.push revBucket ⟨a, guest, iface⟩)))) := by
  have hspec := h.reverse.placed.find_spec (revBucket_lt h.reverse.size_pos ⟨0, guest, iface⟩)
    (fun p => decide (p.guest = guest ∧ p.iface = iface))
    fun q hq => by simp [revBucket, (of_decide_eq_true hq).1, (of_decide_eq_true hq).2]
  rw [winecomReverseWrap_reversible hrev]
  cases hf : (s.revIntern.chain (revBucket s.revIntern.size ⟨0, guest, iface⟩)).find?
      (fun p => p.guest = guest ∧ p.iface = iface) with
  | some p =>
    obtain ⟨hp, hk⟩ := hspec.1 p hf
    obtain ⟨hg, hi⟩ := of_decide_eq_true hk
    exact .inl ⟨p, hp, hg, hi, rfl⟩
  | none =>
    refine .inr ⟨fun p hp => of_decide_eq_false (hspec.2 hf p hp), ?_⟩
    cases mem with
    | none => exact .inl ⟨rfl, rfl⟩
    | some a => exact .inr ⟨a, rfl, rfl⟩

end WinePpc64.Com.Proxies
