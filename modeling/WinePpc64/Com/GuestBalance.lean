import WinePpc64.Com.GuestRefs

/-!
The reverse boundary over whole runs: while no call takes one of the unbalanced exits, a guest
object has the references its owners hold and one for every live reverse proxy.
-/

namespace WinePpc64.Com.Proxies

open Lib Option

variable {e : Env} {s t : State} {g : Word}

def Balanced (e : Env) (s : State) : Act → Prop
  | .toNative guest iface mem =>
    ∀ g i, guest = .guest g → iface = some i → ¬ OutOfMemory e s g i mem
  | .owned guest iface _ | .reverseWrap guest iface _ => e.TakesOver guest iface
  | .revQi riid _ answer _ => ∀ idx guest, riid.bind (winecomIfaceFromIid e) = some idx →
      answer = some (some guest) → e.TakesOver guest idx
  | _ => True

theorem stray_answered {answer : Option (Option Seen)} : stray e (s.answered answer) g = stray e s g := by
  simp only [State.answered]
  split
  · rw [stray_addCallers, stray_addGuestRefs, add_sub_cancel_right]
  · rfl

theorem stray_owned (ht : Tables s) (hen : e.revEnabled = true) {guest : Seen} {iface : ℕ}
    {mem : Option Word} (hf : s.fresh mem) (hok : e.TakesOver guest iface) :
    stray e ((revToNativeOwned e s (some guest) iface mem).2.settle e guest iface (-1)) g =
      stray e s g := by
  rw [stray_settle hen, stray_revToNativeOwned ht hen hf hok]
  ring

theorem stray_step (ht : Tables s) (hen : e.revEnabled = true) {a : Act} (hf : Fresh s a)
    (hok : Balanced e s a) (hs : step e s a = some t) : stray e t g = stray e s g := by
  cases a with
  | wrap host iface up mem grown =>
    cases hs
    rw [stray_winecomWrap ((same_handOver e _ _ _).tables ht) hen, stray_handOver]
  | addref a =>
    obtain ⟨p, -, rfl⟩ := map_eq_some_iff.mp hs
    exact stray_proxyAddref
  | release a =>
    obtain ⟨p, -, rfl⟩ := map_eq_some_iff.mp hs
    exact stray_proxyRelease
  | qi a riid ppv answer up mem grown =>
    obtain ⟨p, -, rfl⟩ := map_eq_some_iff.mp hs
    obtain hr | ⟨host, idx, -, hr⟩ := proxyQi_cases
    · rw [hr]
    · rw [hr, stray_winecomWrap ((same_handOver e _ _ _).tables ht) hen, stray_handOver]
  | wrapOut riid out up mem grown =>
    cases hs
    cases out with
    | none => rfl
    | some host =>
      simp only [winecomWrapOutIface]
      cases riid.bind (winecomIfaceFromIid e) with
      | none => rfl
      | some idx => rw [stray_winecomWrap ((same_handOver e _ _ _).tables ht) hen, stray_handOver]
  | reverseWrap guest iface mem =>
    cases hs
    rw [stray_settle hen]
    cases hrev : e.reversible iface with
    | true =>
      rw [stray_winecomReverseWrap ht hen hrev]
      ring
    | false =>
      have hzero : share e guest iface g = 0 :=
        if_neg fun hg => by simp [hok g hg.1 hg.2] at hrev
      rw [winecomReverseWrap_refused hrev, hzero]
      ring
  | toNative guest iface mem =>
    cases hs
    obtain ⟨r, t, hr, h⟩ := winecomToNative_stray ht guest iface mem
    rw [hr]
    obtain ⟨native, -, h⟩ | ⟨-, h, -⟩ | ⟨-, i, rfl, h, hoom⟩ := h
    · exact h g
    · exact h g
    · have hzero : share e guest i g = 0 :=
        if_neg fun hg => hok g i hg.1 rfl (hoom g hg.1 hg.2)
      rw [h, hzero, sub_zero]
  | toNativeEnd native =>
    cases hs
    exact stray_wcReverseRelease ht hen
  | toGuest native iface up mem grown =>
    cases hs
    obtain hr | ⟨i, hr⟩ := winecomToGuest_cases
    · rw [hr]
    · rw [hr, stray_winecomWrap (kept_revNativeAddref ht e native i).tables hen, stray_revNativeAddref]
  | owned guest iface mem =>
    cases hs
    exact stray_owned ht hen hf hok
  | revAddref a =>
    obtain ⟨p, -, rfl⟩ := map_eq_some_iff.mp hs
    exact stray_congr rfl rfl rfl
  | revRelease a =>
    obtain ⟨p, hp, rfl⟩ := map_eq_some_iff.mp hs
    exact stray_revRelease ht hen (mem_of_revFromPointer hp).1
  | revQi riid ppv answer mem =>
    obtain rfl | ⟨guest, idx, rfl, -, hidx, rfl⟩ := step_revQi hs
    · rfl
    · have hans := same_answered (s := s) (some (some guest))
      exact (stray_owned (hans.tables ht) hen (hans.fresh hf) (hok idx guest hidx rfl)).trans
        stray_answered

theorem inv_of_balanced (hen : e.revEnabled = true) {refs : Word → ℤ}
    (hr : Reaches (step e) (fun s a => Fresh s a ∧ Balanced e s a) (.init refs) s) :
    Tables s ∧ ∀ g, stray e s g = 0 :=
  hr.invariant (P := fun u => Tables u ∧ ∀ g, stray e u g = 0)
    ⟨tables_init, fun g => by simp [stray, liveRefs, State.init]⟩
    fun _ _ _ hok hs hu => ⟨(kept_step hu.1 hok.1 hs).tables,
      fun g => (stray_step hu.1 hen hok.1 hok.2 hs).trans (hu.2 g)⟩

theorem winecomToNative_false_iff (ht : Tables s) {iface : ℕ} {mem : Option Word}
    (hn : (winecomToNative e s (some (.guest g)) (some iface) mem).1 = none) :
    ((winecomToNative e s (some (.guest g)) (some iface) mem).2.guestRefs g = s.guestRefs g ↔
      ¬ OutOfMemory e s g iface mem) ∧
    ((winecomToNative e s (some (.guest g)) (some iface) mem).2.guestRefs g = s.guestRefs g - 1 ↔
      OutOfMemory e s g iface mem) := by
  obtain ⟨i, hi, hoom, hr⟩ | ⟨hno, hr⟩ := winecomToNative_false ht hn
  · cases hi
    rw [hr]
    exact ⟨⟨fun h => by omega, absurd hoom⟩, ⟨fun _ => hoom, fun _ => rfl⟩⟩
  · rw [hr]
    exact ⟨⟨fun _ => hno iface rfl, fun _ => rfl⟩,
      ⟨fun h => by omega, fun h => absurd h (hno iface rfl)⟩⟩

theorem revRelease_guestRefs (ht : Tables s) (hen : e.revEnabled = true) {p : RevProxy}
    (hp : p ∈ s.revIntern.elems) (hg : p.guest = .guest g) (hl : e.revIsLocal p.iface = false) :
    (1 < s.revRefs p.addr → (revRelease e s p).guestRefs g = s.guestRefs g ∧
      p ∈ (revRelease e s p).revIntern.elems) ∧
    (s.revRefs p.addr = 1 → (revRelease e s p).guestRefs g = s.guestRefs g - 1 ∧
      p ∉ (revRelease e s p).revIntern.elems) := by
  have hlinked := mem_revRelease (e := e) ht hp
  obtain ⟨hl', -⟩ | ⟨-, hlt, hr⟩ | ⟨-, hone, hr⟩ := revRelease_cases ht (e := e) hp
  · simp [hl] at hl'
  · refine ⟨fun _ => ⟨by rw [hr]; rfl, hlinked.mpr fun h => by omega⟩, fun h => by omega⟩
  refine ⟨fun h => by omega, fun _ => ⟨?_, fun hmem => hlinked.mp hmem ⟨hl, hone⟩⟩⟩
  rw [hr, hg, wcGuestRelease_guestRefs hen]
  simp [hl]

/-- Which failing exits balance the guest object's count, and what holds of it over balanced runs. -/
theorem guestRefs_balanced_iff (hen : e.revEnabled = true) {refs : Word → ℤ}
    (hr : Reaches (step e) (fun s a => Fresh s a ∧ Balanced e s a) (.init refs) s)
    (g : Word) (iface : ℕ) (mem : Option Word) :
    ((winecomToNative e s (some (.guest g)) (some iface) mem).1 = none →
      ((winecomToNative e s (some (.guest g)) (some iface) mem).2.guestRefs g = s.guestRefs g ↔
        ¬ OutOfMemory e s g iface mem)) ∧
    (winecomToNative e s (some (.guest g)) none mem).2 = s ∧
    ((revToNativeOwned e s (some (.guest g)) iface mem).1 = none →
      ((revToNativeOwned e s (some (.guest g)) iface mem).2.guestRefs g = s.guestRefs g - 1 ↔
        OutOfMemory e s g iface mem)) ∧
    (∀ riid, riid.bind (winecomIfaceFromIid e) = some iface →
      (revQueryInterface e s riid true (some (some (.guest g))) mem).1 ≠ .ok →
      ((revQueryInterface e s riid true (some (some (.guest g))) mem).2.2.guestRefs g =
          s.guestRefs g - 1 ↔ OutOfMemory e s g iface mem)) ∧
    s.guestRefs g = s.callers g + liveRefs e s g ∧
    ∀ p ∈ s.revIntern.elems, p.guest = .guest g → e.revIsLocal p.iface = false →
      (1 < s.revRefs p.addr → (revRelease e s p).guestRefs g = s.guestRefs g ∧
        p ∈ (revRelease e s p).revIntern.elems) ∧
      (s.revRefs p.addr = 1 → (revRelease e s p).guestRefs g = s.guestRefs g - 1 ∧
        p ∉ (revRelease e s p).revIntern.elems) := by
  obtain ⟨ht, hstray⟩ := inv_of_balanced hen hr
  have howned : (revToNativeOwned e s (some (.guest g)) iface mem).1 = none →
      ((revToNativeOwned e s (some (.guest g)) iface mem).2.guestRefs g = s.guestRefs g - 1 ↔
        OutOfMemory e s g iface mem) := by
    intro hn
    obtain ⟨hnone, hstate⟩ := revToNativeOwned_false hn
    rw [hstate]
    exact (winecomToNative_false_iff ht hnone).2
  refine ⟨fun hn => (winecomToNative_false_iff ht hn).1, ?_, howned, fun riid hidx hfail => ?_, ?_,
    fun p hp hg hl => revRelease_guestRefs ht hen hp hg hl⟩
  · obtain ⟨p, -, hp, -⟩ | ⟨-, h⟩ | ⟨i, hi, -⟩ := winecomToNative_cases e s (.guest g) none mem
    · cases hp
    · rw [h]
    · cases hi
  · rw [revQueryInterface_eq hidx] at hfail ⊢
    cases hn : (revToNativeOwned e s (some (.guest g)) iface mem).1 with
    | none => exact howned hn
    | some native => simp [hn] at hfail
  · have hz := hstray g
    rw [stray] at hz
    omega

namespace FailingExits

def env : Env where
  surface := ⟨[⟨3, none, 1, false⟩, ⟨65, none, 2, false⟩]⟩
  beyond := fun _ => false
  ready := true
  revEnabled := true

theorem failing_exits_unbalanced :
    (winecomToNative env (.init fun _ => 1) (some (.guest 0x7000)) (some 0) none).1 = none ∧
      (winecomToNative env (.init fun _ => 1) (some (.guest 0x7000)) (some 0) none).2.guestRefs
        0x7000 = 0 ∧
      (revToNativeOwned env (.init fun _ => 1) (some (.guest 0x7000)) 1 (some 0x100)).1 = none ∧
      (revToNativeOwned env (.init fun _ => 1) (some (.guest 0x7000)) 1 (some 0x100)).2.guestRefs
        0x7000 = 1 := by
  decide

theorem guestRefs_balanced_refused :
    (winecomToNative env (.init fun _ => 1) (some (.guest 0x7000)) (some 1) (some 0x100)).1 = none ∧
      (winecomToNative env (.init fun _ => 1) (some (.guest 0x7000)) (some 1) (some 0x100)).2.guestRefs
        0x7000 = 1 := by
  have hn : (winecomToNative env (.init fun _ => 1) (some (.guest 0x7000)) (some 1) (some 0x100)).1 =
      none := by decide
  have h := guestRefs_balanced_iff (e := env) (s := .init fun _ => 1) rfl .refl 0x7000 1 (some 0x100)
  exact ⟨hn, (h.1 hn).mpr fun hoom => by cases hoom.exhausted⟩

end FailingExits

end WinePpc64.Com.Proxies
