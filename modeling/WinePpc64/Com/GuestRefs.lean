import WinePpc64.Com.Identity

/-!
References to guest objects across the reverse boundary. A live reverse proxy holds one; what the
failing exits of `winecom_to_native` and of its owning form do with theirs depends on the exit.
-/

namespace WinePpc64.Com.Proxies

open Function Lib State

variable {e : Env} {s t : State} {g g' : Word} {n : ℤ} {p : ComProxy}

def Env.holds (e : Env) (g : Word) (p : RevProxy) : Bool :=
  decide (p.guest = .guest g) && !e.revIsLocal p.iface

def liveRefs (e : Env) (s : State) (g : Word) : ℤ := s.revIntern.elems.countP (e.holds g)

def stray (e : Env) (s : State) (g : Word) : ℤ := s.guestRefs g - s.callers g - liveRefs e s g

def share (e : Env) (guest : Seen) (iface : ℕ) (g : Word) : ℤ :=
  if guest = .guest g ∧ e.revIsLocal iface = false then 1 else 0

theorem stray_congr (hg : t.guestRefs = s.guestRefs) (hc : t.callers = s.callers)
    (hr : t.revIntern = s.revIntern) : stray e t g = stray e s g := by
  rw [stray, stray, liveRefs, liveRefs, hg, hc, hr]

theorem stray_addGuestRefs : stray e (s.addGuestRefs g' n) g = stray e s g + if g' = g then n else 0 := by
  have hl : liveRefs e (s.addGuestRefs g' n) g = liveRefs e s g := rfl
  simp only [stray, hl, addGuestRefs_guestRefs, addGuestRefs_callers]
  by_cases hg : g' = g
  · subst hg
    simp only [update_self, if_true]
    ring
  · simp [update_of_ne (Ne.symm hg), hg]

theorem stray_addCallers : stray e (s.addCallers g' n) g = stray e s g - if g' = g then n else 0 := by
  have hl : liveRefs e (s.addCallers g' n) g = liveRefs e s g := rfl
  simp only [stray, hl, addCallers_guestRefs, addCallers_callers]
  by_cases hg : g' = g
  · subst hg
    simp only [update_self, if_true]
    ring
  · simp [update_of_ne (Ne.symm hg), hg]

theorem stray_proxyAddref : stray e (proxyAddref e s p) g = stray e s g := by
  simp only [proxyAddref]
  split_ifs <;> rfl

theorem stray_proxyRelease : stray e (proxyRelease e s p) g = stray e s g := by
  simp only [proxyRelease]
  split_ifs <;> rfl

variable (hen : e.revEnabled = true)
include hen

theorem stray_wcGuestAddref {guest : Seen} {iface : ℕ} :
    stray e (wcGuestAddref e s guest iface) g = stray e s g + share e guest iface g := by
  cases hl : e.revIsLocal iface with
  | true => simp [wcGuestAddref, share, hl]
  | false => cases guest with
    | guest g' => simp [wcGuestAddref, share, hl, hen, stray_addGuestRefs]
    | proxy a =>
      simp only [wcGuestAddref, share, hl, hen]
      cases proxyFromPointer s (.proxy a) with
      | none => simp
      | some p => simp [stray_proxyAddref]

theorem stray_wcGuestRelease {guest : Seen} {iface : ℕ} :
    stray e (wcGuestRelease e s guest iface) g = stray e s g - share e guest iface g := by
  cases hl : e.revIsLocal iface with
  | true => simp [wcGuestRelease, share, hl]
  | false => cases guest with
    | guest g' =>
      simp only [wcGuestRelease, share, hl, hen]
      by_cases hg : g' = g <;> simp [hg, sub_eq_add_neg, stray_addGuestRefs]
    | proxy a =>
      simp only [wcGuestRelease, share, hl, hen]
      cases proxyFromPointer s (.proxy a) with
      | none => simp
      | some p => simp [stray_proxyRelease]

theorem stray_settle {guest : Seen} {iface : ℕ} :
    stray e (s.settle e guest iface n) g = stray e s g - n * share e guest iface g := by
  cases hl : e.revIsLocal iface with
  | true => cases guest <;> simp [settle, share, hl]
  | false => cases guest with
    | guest g' =>
      by_cases hg : g' = g <;> simp [settle, share, hl, hen, stray_addCallers, hg]
    | proxy a => simp [settle, share]

omit hen

theorem stray_link (ht : Tables s) {p : RevProxy} {refs : ℤ} :
    stray e ((s.setRevRefs p.addr refs).setRevIntern (s.revIntern.push revBucket p)) g =
      stray e s g - share e p.guest p.iface g := by
  have hperm := ChainTable.elems_push_perm (revBucket_lt ht.reverse.size_pos p)
  have hcount : liveRefs e ((s.setRevRefs p.addr refs).setRevIntern (s.revIntern.push revBucket p)) g =
      liveRefs e s g + share e p.guest p.iface g := by
    have hc := hperm.countP_eq (e.holds g)
    simp only [liveRefs, setRevIntern_revIntern, hc, List.countP_cons]
    simp [share, Env.holds]
  rw [stray, hcount, stray]
  simp only [setRevIntern_guestRefs, setRevIntern_callers, setRevRefs_guestRefs,
    setRevRefs_callers]
  ring

theorem stray_revRelease (ht : Tables s) (hen : e.revEnabled = true) {p : RevProxy}
    (hp : p ∈ s.revIntern.elems) : stray e (revRelease e s p) g = stray e s g := by
  obtain ⟨-, hr⟩ | ⟨-, -, hr⟩ | ⟨-, -, hr⟩ := revRelease_cases ht hp
  · rw [hr]
  · rw [hr]
    exact stray_congr rfl rfl rfl
  have hperm := (ht.reverse.unlink hp).2
  have hcount := hperm.countP_eq (e.holds g)
  rw [hr, stray_wcGuestRelease hen]
  simp only [stray, liveRefs, setRevIntern_revIntern, setRevIntern_guestRefs,
    setRevIntern_callers, setRevRefs_guestRefs, setRevRefs_callers, hcount,
    List.countP_cons]
  have hshare : ((if e.holds g p = true then 1 else 0 : ℕ) : ℤ) = share e p.guest p.iface g := by
    simp [share, Env.holds]
  push_cast at hshare ⊢
  rw [hshare]
  ring

theorem stray_wcReverseRelease (ht : Tables s) (hen : e.revEnabled = true) {native : Native} :
    stray e (wcReverseRelease e s native) g = stray e s g := by
  rw [wcReverseRelease]
  cases hp : revFromPointer e s native with
  | none => rfl
  | some p => exact stray_revRelease ht hen (mem_of_revFromPointer hp).1

structure OutOfMemory (e : Env) (s : State) (g : Word) (iface : ℕ) (mem : Option Word) : Prop where
  reversible : e.reversible iface = true
  counted : e.revIsLocal iface = false
  exhausted : mem = none
  unlinked : ∀ p ∈ s.revIntern.elems, ¬ (p.guest = .guest g ∧ p.iface = iface)

theorem reversible_ready {iface : ℕ} (h : e.reversible iface = true) :
    e.ready = true ∧ e.revEnabled = true := by
  simp only [Env.reversible, Bool.and_eq_true] at h
  exact h.1

theorem viaReverse_cases (ht : Tables s) {guest : Seen} {i : ℕ} {mem : Option Word} :
    (∃ native, viaReverse e s guest i mem = (some (some native),
      (winecomReverseWrap e (wcGuestAddref e s guest i) (some guest) i mem).2) ∧ e.reversible i = true) ∨
    (viaReverse e s guest i mem = (none, wcGuestRelease e (wcGuestAddref e s guest i) guest i) ∧
      e.reversible i = false) ∨
    (viaReverse e s guest i mem =
        (none, wcGuestRelease e (wcGuestRelease e (wcGuestAddref e s guest i) guest i) guest i) ∧
      e.reversible i = true ∧ mem = none ∧
        ∀ p ∈ s.revIntern.elems, ¬ (p.guest = guest ∧ p.iface = i)) := by
  have hsame := same_wcGuestAddref (s := s) e guest i
  cases hrev : e.reversible i with
  | false => exact .inr (.inl ⟨by simp only [viaReverse, winecomReverseWrap_refused hrev], rfl⟩)
  | true =>
    obtain ⟨p, -, -, -, hw⟩ | ⟨hk, ⟨hm, hw⟩ | ⟨a, hm, hw⟩⟩ :=
      winecomReverseWrap_cases (hsame.tables ht) hrev guest mem
    · exact .inl ⟨.rev p.addr, by simp only [viaReverse, hw], rfl⟩
    · exact .inr (.inr ⟨by simp only [viaReverse, hw], rfl, hm, hsame.revIntern ▸ hk⟩)
    · exact .inl ⟨.rev a, by simp only [viaReverse, hw], rfl⟩

variable {mem : Option Word} {grown : Bool}

theorem winecomToNative_false (ht : Tables s) {iface : Option ℕ}
    (hn : (winecomToNative e s (some (.guest g)) iface mem).1 = none) :
    (∃ i, iface = some i ∧ OutOfMemory e s g i mem ∧
      (winecomToNative e s (some (.guest g)) iface mem).2.guestRefs g = s.guestRefs g - 1) ∨
    ((∀ i, iface = some i → ¬ OutOfMemory e s g i mem) ∧
      (winecomToNative e s (some (.guest g)) iface mem).2.guestRefs g = s.guestRefs g) := by
  obtain ⟨p, -, hp, -⟩ | ⟨hwhy, hr⟩ | ⟨i, rfl, hready, hen, -, hr⟩ :=
    winecomToNative_cases e s (.guest g) iface mem
  · cases hp
  · refine .inr ⟨fun i hi hoom => ?_, by rw [hr]⟩
    have := reversible_ready hoom.reversible
    simp_all
  · obtain ⟨native, hs, -⟩ | ⟨hs, hrev⟩ | ⟨hs, hrev, hm, hk⟩ :=
      viaReverse_cases ht
    · rw [hr, hs] at hn
      cases hn
    · refine .inr ⟨fun j hj hoom => ?_, ?_⟩
      · cases hj
        simp [hoom.reversible] at hrev
      · rw [hr, hs, wcGuestRelease_guestRefs hen, wcGuestAddref_guestRefs hen, add_sub_cancel_right]
    · rw [hr, hs, wcGuestRelease_guestRefs hen, wcGuestRelease_guestRefs hen,
        wcGuestAddref_guestRefs hen, add_sub_cancel_right]
      cases hl : e.revIsLocal i with
      | false => exact .inl ⟨i, rfl, ⟨hrev, hl, hm, hk⟩, by simp⟩
      | true =>
        refine .inr ⟨fun j hj hoom => ?_, by simp⟩
        cases hj
        simp [hoom.counted] at hl

theorem revToNativeOwned_false {iface : ℕ} {guest : Seen}
    (hn : (revToNativeOwned e s (some guest) iface mem).1 = none) :
    (winecomToNative e s (some guest) (some iface) mem).1 = none ∧
      (revToNativeOwned e s (some guest) iface mem).2 =
        (winecomToNative e s (some guest) (some iface) mem).2 := by
  simp only [revToNativeOwned] at hn ⊢
  split at hn
  · rename_i heq
    simp only [heq]
    exact ⟨trivial, trivial⟩
  · cases hn
  · cases hn

theorem stray_internProxy {host : Native} {iface : ℕ} {mem : Option Word} :
    stray e (internProxy e s host iface mem grown).2 g = stray e s g := by
  simp only [internProxy]
  split
  · rfl
  split
  · simp only [hostReleaseIface]
    split_ifs <;> rfl
  · rfl

theorem stray_winecomWrap (ht : Tables s) (hen : e.revEnabled = true) {host : Option Native}
    {iface : ℕ} {up : Option ℕ} {mem : Option Word} :
    stray e (winecomWrap e s host iface up mem grown).2 g = stray e s g := by
  cases host with
  | none => rfl
  | some host =>
    simp only [winecomWrap]
    cases hp : revFromPointer e s host with
    | none => exact stray_internProxy
    | some p =>
      have hadd := (same_wcGuestAddref (s := s) e p.guest (e.concrete iface up)).tables ht
      rw [stray_settle hen, stray_wcReverseRelease hadd hen, stray_wcGuestAddref hen]
      ring

theorem stray_handOver {host : Option Native} {iface : ℕ} {up : Option ℕ} :
    stray e (s.handOver e host iface up) g = stray e s g := by
  cases host with
  | none => rfl
  | some host =>
    simp only [handOver]
    split_ifs <;> rfl

theorem stray_winecomReverseWrap (ht : Tables s) (hen : e.revEnabled = true) {guest : Seen}
    {iface : ℕ} (hrev : e.reversible iface = true) {mem : Option Word} :
    stray e (winecomReverseWrap e s (some guest) iface mem).2 g =
      stray e s g - share e guest iface g := by
  obtain ⟨p, -, -, -, hw⟩ | ⟨-, ⟨-, hw⟩ | ⟨a, -, hw⟩⟩ := winecomReverseWrap_cases ht hrev guest mem
  · rw [hw, stray_wcGuestRelease hen]
    exact congrArg (· - _) (stray_congr rfl rfl rfl)
  · rw [hw, stray_wcGuestRelease hen]
  · rw [hw]
    exact stray_link ht

theorem winecomToNative_stray (ht : Tables s) (guest : Seen) (iface : Option ℕ) (mem : Option Word) :
    ∃ r t, winecomToNative e s (some guest) iface mem = (r, t) ∧
      ((∃ native, r = some (some native) ∧ ∀ g, stray e t g = stray e s g) ∨
      (r = none ∧ (∀ g, stray e t g = stray e s g) ∧
        ∀ g i, guest = .guest g → iface = some i → e.reversible i = false) ∨
      (r = none ∧ ∃ i, iface = some i ∧ (∀ g, stray e t g = stray e s g - share e guest i g) ∧
        ∀ g, guest = .guest g → e.revIsLocal i = false → OutOfMemory e s g i mem)) := by
  obtain ⟨p, -, -, hr⟩ | ⟨hwhy, hr⟩ | ⟨i, rfl, hready, hen, hp, hr⟩ :=
    winecomToNative_cases e s guest iface mem
  · exact ⟨_, s, hr, .inl ⟨p.host, rfl, fun _ => rfl⟩⟩
  · refine ⟨_, s, hr, .inr (.inl ⟨rfl, fun _ => rfl, fun g i _ hi => ?_⟩)⟩
    cases hrev : e.reversible i with
    | false => rfl
    | true =>
      have := reversible_ready hrev
      simp_all
  · have hadd := (same_wcGuestAddref (s := s) e guest i).tables ht
    obtain ⟨native, hs, hrev⟩ | ⟨hs, hrev⟩ | ⟨hs, hrev, hm, hk⟩ :=
      viaReverse_cases ht
    · refine ⟨_, _, hr.trans hs, .inl ⟨native, rfl, fun g => ?_⟩⟩
      rw [stray_winecomReverseWrap hadd hen hrev, stray_wcGuestAddref hen, add_sub_cancel_right]
    · refine ⟨_, _, hr.trans hs, .inr (.inl ⟨rfl, fun g => ?_, fun g j _ hj => ?_⟩)⟩
      · rw [stray_wcGuestRelease hen, stray_wcGuestAddref hen, add_sub_cancel_right]
      · cases hj
        exact hrev
    · refine ⟨_, _, hr.trans hs, .inr (.inr ⟨rfl, i, rfl, fun g => ?_,
        fun g hg hl => ⟨hrev, hl, hm, hg ▸ hk⟩⟩)⟩
      rw [stray_wcGuestRelease hen, stray_wcGuestRelease hen, stray_wcGuestAddref hen]
      ring

theorem stray_revNativeAddref {native : Native} {iface : ℕ} :
    stray e (revNativeAddref e s native iface) g = stray e s g := by
  simp only [revNativeAddref]
  split_ifs
  · rfl
  · split <;> exact stray_congr rfl rfl rfl

/-- A reference given away with a guest object is taken over: the interface can be reversed, or
counts nothing. -/
def Env.TakesOver (e : Env) (guest : Seen) (iface : ℕ) : Prop :=
  ∀ g, guest = .guest g → e.revIsLocal iface = false → e.reversible iface = true

theorem stray_revToNativeOwned (ht : Tables s) (hen : e.revEnabled = true) {guest : Seen} {iface : ℕ}
    (hf : s.fresh mem) (hok : e.TakesOver guest iface) :
    stray e (revToNativeOwned e s (some guest) iface mem).2 g = stray e s g - share e guest iface g := by
  have hkept := kept_winecomToNative ht e guest (some iface) hf
  obtain ⟨r, t, hr, h⟩ := winecomToNative_stray (e := e) ht guest (some iface) mem
  simp only [revToNativeOwned, hr] at hkept ⊢
  obtain ⟨native, rfl, hs⟩ | ⟨rfl, hs, hno⟩ | ⟨rfl, i, hi, hs, -⟩ := h
  · have hadd := kept_revNativeAddref hkept.tables e native iface
    rw [stray_wcGuestRelease hen, stray_wcReverseRelease hadd.tables hen, stray_revNativeAddref, hs]
  · have hzero : share e guest iface g = 0 :=
      if_neg fun hg => Bool.false_ne_true ((hno g iface hg.1 rfl).symm.trans (hok g hg.1 hg.2))
    rw [hzero, sub_zero]
    exact hs g
  · cases hi
    exact hs g

end WinePpc64.Com.Proxies
