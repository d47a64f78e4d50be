import WinePpc64.Com.ProxyTables
import WinePpc64.Lib.Runs

/-!
The tables over runs of the runtime's calls: they stay in order, and no forward proxy is ever
unlinked.
-/

namespace WinePpc64.Com.Proxies

open Lib Option State

variable {e : Env} {s t u : State} {p : ComProxy} {n : ℤ}

structure SameTables (s t : State) : Prop where
  intern : t.intern = s.intern
  revIntern : t.revIntern = s.revIntern
  revRefs : t.revRefs = s.revRefs

namespace SameTables

theorem refl : SameTables s s := ⟨rfl, rfl, rfl⟩

variable (h : SameTables s t)
include h

theorem trans (h' : SameTables t u) : SameTables s u :=
  ⟨h'.intern.trans h.intern, h'.revIntern.trans h.revIntern, h'.revRefs.trans h.revRefs⟩

theorem tables (hs : Tables s) : Tables t := by
  refine ⟨?_, ?_⟩
  · rw [h.intern]
    exact hs.forward
  · rw [h.revIntern, h.revRefs]
    exact hs.reverse

theorem fresh {mem : Option Word} (hf : s.fresh mem) : t.fresh mem := by
  rw [State.fresh, h.intern, h.revIntern]
  exact hf

end SameTables

theorem same_proxyAddref : SameTables s (proxyAddref e s p) := by
  simp only [proxyAddref]
  split_ifs <;> exact ⟨rfl, rfl, rfl⟩

theorem same_proxyRelease : SameTables s (proxyRelease e s p) := by
  simp only [proxyRelease]
  split_ifs <;> exact ⟨rfl, rfl, rfl⟩

theorem same_wcGuestAddref (e : Env) (guest : Seen) (iface : ℕ) :
    SameTables s (wcGuestAddref e s guest iface) :=
  wcGuestAddref_rule .refl (fun _ => ⟨rfl, rfl, rfl⟩) fun _ _ => same_proxyAddref

theorem same_wcGuestRelease (e : Env) (guest : Seen) (iface : ℕ) :
    SameTables s (wcGuestRelease e s guest iface) :=
  wcGuestRelease_rule .refl (fun _ => ⟨rfl, rfl, rfl⟩) fun _ _ => same_proxyRelease

theorem same_settle {guest : Seen} {iface : ℕ} : SameTables s (s.settle e guest iface n) := by
  cases guest with
  | guest g =>
    simp only [settle]
    split_ifs
    · exact .refl
    · exact ⟨rfl, rfl, rfl⟩
  | proxy a => exact .refl

theorem same_handOver (e : Env) (host : Option Native) (iface : ℕ) (up : Option ℕ) :
    SameTables s (s.handOver e host iface up) := by
  cases host with
  | none => exact .refl
  | some host =>
    simp only [handOver]
    split_ifs
    · exact .refl
    · exact ⟨rfl, rfl, rfl⟩

theorem same_hostReleaseIface {host : Native} {iface : ℕ} :
    SameTables s (hostReleaseIface e s host iface) := by
  simp only [hostReleaseIface]
  split_ifs
  · exact .refl
  · exact ⟨rfl, rfl, rfl⟩

structure Kept (s t : State) : Prop where
  tables : Tables t
  keeps : s.intern.elems ⊆ t.intern.elems

theorem SameTables.kept (h : SameTables s t) (hs : Tables s) : Kept s t :=
  ⟨h.tables hs, h.intern ▸ List.Subset.refl _⟩

theorem Kept.refl (h : Tables s) : Kept s s := SameTables.refl.kept h

theorem Kept.trans (h : Kept s t) (h' : Kept t u) : Kept s u :=
  ⟨h'.tables, List.Subset.trans h.keeps h'.keeps⟩

theorem Kept.guestRelease (h : Kept s t) {guest : Seen} {iface : ℕ} :
    Kept s (wcGuestRelease e t guest iface) :=
  h.trans ((same_wcGuestRelease e guest iface).kept h.tables)

theorem Kept.settle (h : Kept s t) {guest : Seen} {iface : ℕ} : Kept s (t.settle e guest iface n) :=
  h.trans (same_settle.kept h.tables)

variable {mem : Option Word}

variable (h : Tables s) {grown : Bool}
include h

theorem kept_internProxy {host : Native} {iface : ℕ}
    (hf : s.fresh mem) : Kept s (internProxy e s host iface mem grown).2 := by
  obtain ⟨p, hp, -, -, hr⟩ | ⟨hk, ⟨-, hr⟩ | ⟨a, hm, hr⟩⟩ := internProxy_cases h e host iface mem grown
  · rw [hr]
    exact SameTables.kept ⟨rfl, rfl, rfl⟩ h
  · rw [hr]
    exact same_hostReleaseIface.kept h
  rw [hr]
  obtain ⟨hgrow, hperm⟩ := h.forward.grow
  obtain ⟨hpush, hperm'⟩ := hgrow.push (p := ⟨a, host, iface⟩)
    (fun q hq => (hf a hm).1 q (hperm.mem_iff.mp hq)) fun q hq => hk q (hperm.mem_iff.mp hq)
  refine ⟨⟨hpush, h.reverse⟩, fun q hq => ?_⟩
  exact hperm'.mem_iff.mpr (List.mem_cons_of_mem _ (hperm.mem_iff.mpr hq))

variable {p : RevProxy}

variable (hp : p ∈ s.revIntern.elems)
include hp

theorem revRelease_cases :
    (e.revIsLocal p.iface = true ∧ revRelease e s p = s) ∨
    (e.revIsLocal p.iface = false ∧ 1 < s.revRefs p.addr ∧
      revRelease e s p = s.setRevRefs p.addr (s.revRefs p.addr - 1)) ∨
    (e.revIsLocal p.iface = false ∧ s.revRefs p.addr = 1 ∧
      revRelease e s p = wcGuestRelease e ((s.setRevRefs p.addr 0).setRevIntern
        (s.revIntern.setChain (revBucket s.revIntern.size p)
          ((s.revIntern.chain (revBucket s.revIntern.size p)).eraseP fun q => q.addr = p.addr)))
        p.guest p.iface) := by
  have hpos := h.reverse.counts p hp
  simp only [revRelease]
  cases hl : e.revIsLocal p.iface with
  | true => exact .inl ⟨rfl, rfl⟩
  | false =>
    by_cases hone : s.revRefs p.addr = 1
    · exact .inr (.inr ⟨rfl, hone, by simp [hone]⟩)
    · exact .inr (.inl ⟨rfl, by omega, (if_neg (by simp)).trans (if_pos (by omega))⟩)

theorem tables_unlink : Tables ((s.setRevRefs p.addr 0).setRevIntern
      (s.revIntern.setChain (revBucket s.revIntern.size p)
        ((s.revIntern.chain (revBucket s.revIntern.size p)).eraseP fun q => q.addr = p.addr))) :=
  ⟨h.forward, (h.reverse.unlink hp).1⟩

theorem mem_revRelease : p ∈ (revRelease e s p).revIntern.elems ↔
    ¬ (e.revIsLocal p.iface = false ∧ s.revRefs p.addr = 1) := by
  obtain ⟨hl, hr⟩ | ⟨-, hlt, hr⟩ | ⟨hl, hone, hr⟩ := revRelease_cases (e := e) h hp
  · simp [hr, hp, hl]
  · simp [hr, hp, hlt.ne']
  have hnodup := ((h.reverse.unlink hp).2.map RevProxy.addr).nodup_iff.mp h.reverse.addrs
  rw [hr, (same_wcGuestRelease e p.guest p.iface).revIntern]
  refine iff_of_false (fun hmem => ?_) (not_not.mpr ⟨hl, hone⟩)
  exact (List.nodup_cons.mp hnodup).1 (List.mem_map_of_mem hmem)

theorem kept_revRelease : Kept s (revRelease e s p) := by
  obtain ⟨-, hr⟩ | ⟨-, hlt, hr⟩ | ⟨-, -, hr⟩ := revRelease_cases h hp
  · rw [hr]
    exact .refl h
  · rw [hr]
    exact ⟨⟨h.forward, h.reverse.setRefs (by omega)⟩, List.Subset.refl _⟩
  rw [hr]
  exact Kept.guestRelease (s := s) ⟨tables_unlink h hp, List.Subset.refl _⟩

omit hp

theorem kept_wcReverseRelease {native : Native} : Kept s (wcReverseRelease e s native) := by
  rw [wcReverseRelease]
  cases hp : revFromPointer e s native with
  | none => exact .refl h
  | some p => exact kept_revRelease h (mem_of_revFromPointer hp).1

theorem kept_winecomWrap {host : Option Native} {iface : ℕ} {up : Option ℕ}
    (hf : s.fresh mem) : Kept s (winecomWrap e s host iface up mem grown).2 := by
  cases host with
  | none => exact .refl h
  | some host =>
    simp only [winecomWrap]
    cases hp : revFromPointer e s host with
    | none => exact kept_internProxy h hf
    | some p =>
      have hadd := (same_wcGuestAddref e p.guest (e.concrete iface up)).kept h
      exact (hadd.trans (kept_wcReverseRelease hadd.tables)).settle

theorem kept_revAddref (hp : p ∈ s.revIntern.elems) : Kept s (revAddref s p) := by
  have hpos := h.reverse.counts p hp
  exact ⟨⟨h.forward, h.reverse.setRefs (by omega)⟩, List.Subset.refl _⟩

theorem kept_winecomReverseWrap (e : Env) (guest : Seen) (iface : ℕ) (hf : s.fresh mem) :
    Kept s (winecomReverseWrap e s (some guest) iface mem).2 := by
  cases hrev : e.reversible iface with
  | false =>
    rw [winecomReverseWrap_refused hrev]
    exact .refl h
  | true =>
    obtain ⟨p, hp, -, -, hr⟩ | ⟨hk, ⟨-, hr⟩ | ⟨a, hm, hr⟩⟩ := winecomReverseWrap_cases h hrev guest mem
    · rw [hr]
      exact (kept_revAddref h hp).guestRelease
    · rw [hr]
      exact (Kept.refl h).guestRelease
    · rw [hr]
      exact ⟨⟨h.forward, (h.reverse.push (hf a hm).2 hk).1⟩,
        List.Subset.refl _⟩

omit h

def viaReverse (e : Env) (s : State) (guest : Seen) (i : ℕ) (mem : Option Word) :
    Option (Option Native) × State :=
  let r := winecomReverseWrap e (wcGuestAddref e s guest i) (some guest) i mem
  match r.1 with
  | none => (none, wcGuestRelease e r.2 guest i)
  | some native => (some (some native), r.2)

theorem winecomToNative_cases (e : Env) (s : State) (guest : Seen) (iface : Option ℕ)
    (mem : Option Word) :
    (∃ p, e.ready = true ∧ proxyFromPointer s guest = some p ∧
      winecomToNative e s (some guest) iface mem = (some (some p.host), s)) ∨
    ((e.ready = false ∨ e.revEnabled = false ∨ iface = none) ∧
      winecomToNative e s (some guest) iface mem = (none, s)) ∨
    ∃ i, iface = some i ∧ e.ready = true ∧ e.revEnabled = true ∧ proxyFromPointer s guest = none ∧
      winecomToNative e s (some guest) iface mem = viaReverse e s guest i mem := by
  cases hready : e.ready with
  | false => exact .inr (.inl ⟨.inl rfl, by simp [winecomToNative, hready]⟩)
  | true => cases hp : proxyFromPointer s guest with
    | some p => exact .inl ⟨p, rfl, rfl, by simp [winecomToNative, hready, hp]⟩
    | none => cases iface with
      | none => exact .inr (.inl ⟨.inr (.inr rfl), by simp [winecomToNative, hready, hp]⟩)
      | some i => cases hen : e.revEnabled with
        | false => exact .inr (.inl ⟨.inr (.inl rfl), by simp [winecomToNative, hready, hp, hen]⟩)
        | true =>
          refine .inr (.inr ⟨i, rfl, rfl, rfl, rfl, ?_⟩)
          simp only [winecomToNative, hready, hp, hen, not_true_eq_false, if_false]
          rfl

theorem kept_winecomToNative (h : Tables s) (e : Env) (guest : Seen) (iface : Option ℕ) (hf : s.fresh mem) :
    Kept s (winecomToNative e s (some guest) iface mem).2 := by
  obtain ⟨p, -, -, hr⟩ | ⟨-, hr⟩ | ⟨i, -, -, -, -, hr⟩ := winecomToNative_cases e s guest iface mem
  · rw [hr]
    exact .refl h
  · rw [hr]
    exact .refl h
  have hadd := same_wcGuestAddref (s := s) e guest i
  have hwrap := kept_winecomReverseWrap (hadd.tables h) e guest i (hadd.fresh hf)
  have hkept := (hadd.kept h).trans hwrap
  rw [hr]
  simp only [viaReverse]
  split
  · exact hkept.guestRelease
  · exact hkept

theorem kept_revNativeAddref (h : Tables s) (e : Env) (native : Native) (iface : ℕ) :
    Kept s (revNativeAddref e s native iface) := by
  simp only [revNativeAddref]
  split_ifs
  · exact .refl h
  · cases hp : revFromPointer e s native with
    | none => exact SameTables.kept ⟨rfl, rfl, rfl⟩ h
    | some p => exact kept_revAddref h (mem_of_revFromPointer hp).1

theorem same_links_revNativeAddref {native : Native} {iface : ℕ} :
    (revNativeAddref e s native iface).intern = s.intern ∧
      (revNativeAddref e s native iface).revIntern = s.revIntern := by
  simp only [revNativeAddref]
  split_ifs
  · exact ⟨rfl, rfl⟩
  · split <;> exact ⟨rfl, rfl⟩

theorem winecomToGuest_cases {native : Native} {iface up : Option ℕ} {mem : Option Word} :
    (winecomToGuest e s (some native) iface up mem grown).2 = s ∨
    ∃ i, (winecomToGuest e s (some native) iface up mem grown).2 =
      (winecomWrap e (revNativeAddref e s native i) (some native) i up mem grown).2 := by
  cases hready : e.ready with
  | false => exact .inl (by simp [winecomToGuest, hready])
  | true => cases hp : revFromPointer e s native with
    | some p => exact .inl (by simp [winecomToGuest, hready, hp])
    | none => cases iface with
      | none => exact .inl (by simp [winecomToGuest, hready, hp])
      | some i =>
        by_cases hi : e.surface.ifaces.length ≤ i
        · exact .inl (by simp [winecomToGuest, hready, hp, hi])
        refine .inr ⟨i, ?_⟩
        simp only [winecomToGuest, hready, hp, hi, not_true_eq_false, if_false]
        split <;> rfl

theorem kept_winecomToGuest (h : Tables s) {native : Native} {iface up : Option ℕ}
    (hf : s.fresh mem) : Kept s (winecomToGuest e s (some native) iface up mem grown).2 := by
  obtain hr | ⟨i, hr⟩ := winecomToGuest_cases
  · rw [hr]
    exact .refl h
  have hadd := kept_revNativeAddref h e native i
  obtain ⟨hi, hrev⟩ := same_links_revNativeAddref
  have hfresh : (revNativeAddref e s native i).fresh mem := by
    rw [fresh, hi, hrev]
    exact hf
  rw [hr]
  exact hadd.trans (kept_winecomWrap hadd.tables hfresh)

theorem kept_revToNativeOwned (h : Tables s) (e : Env) (guest : Option Seen) (iface : ℕ)
    (hf : s.fresh mem) : Kept s (revToNativeOwned e s guest iface mem).2 := by
  cases guest with
  | none => exact .refl h
  | some guest =>
    have hnat := kept_winecomToNative h e guest (some iface) hf
    simp only [revToNativeOwned]
    split
    · exact hnat
    · exact hnat.guestRelease
    rename_i native _
    have hadd := hnat.trans (kept_revNativeAddref hnat.tables e native iface)
    exact (hadd.trans (kept_wcReverseRelease hadd.tables)).guestRelease

theorem kept_wrap (h : Tables s) {host : Option Native} {iface : ℕ} {up : Option ℕ}
    (hf : s.fresh mem) :
    Kept s (winecomWrap e (s.handOver e host iface up) host iface up mem grown).2 := by
  have hover := same_handOver (s := s) e host iface up
  exact (hover.kept h).trans (kept_winecomWrap (hover.tables h) (hover.fresh hf))

theorem proxyQi_cases {p : ComProxy} {riid : Option (BitVec 128)} {ppv : Bool}
    {answer : Option (Option Native)} {up : Option ℕ} {mem : Option Word} :
    (proxyQi e s p riid ppv answer up mem grown).2.2 = s ∨
    ∃ host idx, answer = some host ∧ (proxyQi e s p riid ppv answer up mem grown).2 =
      winecomWrap e (s.handOver e host idx up) host idx up mem grown := by
  cases ppv with
  | false => exact .inl (by simp [proxyQi])
  | true => cases riid with
    | none => exact .inl (by simp [proxyQi])
    | some riid => cases hl : e.ifaceIsLocal p.iface with
      | true => exact .inl (by simp [proxyQi, hl])
      | false => cases hidx : winecomIfaceFromIid e riid with
        | none => exact .inl (by simp [proxyQi, hl, hidx])
        | some idx => cases answer with
          | none => exact .inl (by simp [proxyQi, hl, hidx])
          | some host => exact .inr ⟨host, idx, rfl, by simp [proxyQi, hl, hidx]⟩

theorem kept_proxyQi (h : Tables s) {p : ComProxy} {riid : Option (BitVec 128)} {ppv : Bool}
    {answer : Option (Option Native)} {up : Option ℕ} (hf : s.fresh mem) :
    Kept s (proxyQi e s p riid ppv answer up mem grown).2.2 := by
  obtain hr | ⟨host, idx, -, hr⟩ := proxyQi_cases
  · rw [hr]
    exact .refl h
  rw [hr]
  exact kept_wrap h hf

theorem kept_winecomWrapOutIface (h : Tables s) {riid : Option (BitVec 128)}
    {out : Option Native} {up : Option ℕ} (hf : s.fresh mem) :
    Kept s (winecomWrapOutIface e s riid out up mem grown).2.2 := by
  cases out with
  | none => exact .refl h
  | some host =>
    simp only [winecomWrapOutIface]
    cases riid.bind (winecomIfaceFromIid e) with
    | none => exact SameTables.kept ⟨rfl, rfl, rfl⟩ h
    | some idx => exact kept_wrap h hf

theorem revQueryInterface_eq {riid : Option (BitVec 128)} {idx : ℕ}
    (hidx : riid.bind (winecomIfaceFromIid e) = some idx) {guest : Option Seen}
    {mem : Option Word} :
    revQueryInterface e s riid true (some guest) mem =
      match (revToNativeOwned e s guest idx mem).1 with
      | none => (.noInterface, none, (revToNativeOwned e s guest idx mem).2)
      | some native => (.ok, native, (revToNativeOwned e s guest idx mem).2) := by
  obtain ⟨r, rfl, hr⟩ := bind_eq_some_iff.mp hidx
  cases hnative : (revToNativeOwned e s guest idx mem).1 with
  | none => simp [revQueryInterface, hr, hnative]
  | some native => simp [revQueryInterface, hr, hnative]

theorem same_answered (answer : Option (Option Seen)) : SameTables s (s.answered answer) := by
  simp only [answered]
  split
  · exact ⟨rfl, rfl, rfl⟩
  · exact .refl

def Fresh (s : State) (a : Act) : Prop := s.fresh a.mem

theorem step_revQi {riid : Option (BitVec 128)} {ppv : Bool} {answer : Option (Option Seen)}
    (hs : step e s (.revQi riid ppv answer mem) = some t) :
    t = s ∨ ∃ guest idx, answer = some (some guest) ∧ ppv = true ∧
      riid.bind (winecomIfaceFromIid e) = some idx ∧
      t = (revToNativeOwned e (s.answered (some (some guest))) (some guest) idx mem).2.settle e guest
        idx (-1) := by
  cases hidx : riid.bind (winecomIfaceFromIid e) with
  | none =>
    refine .inl ?_
    simp only [step, hidx, Option.some.injEq] at hs
    cases ppv <;> cases riid <;> simp_all [revQueryInterface]
  | some idx => cases ppv with
    | false => exact .inl (by cases answer with
      | none => simpa [step, hidx, revQueryInterface] using hs.symm
      | some x => cases x <;> simpa [step, hidx, revQueryInterface] using hs.symm)
    | true => cases answer with
      | none =>
        obtain ⟨r, rfl, hr⟩ := bind_eq_some_iff.mp hidx
        exact .inl (by simpa [step, hr, revQueryInterface] using hs.symm)
      | some x => cases x with
        | none => exact .inl (by
            simpa [step, hidx, revQueryInterface_eq hidx, revToNativeOwned] using hs.symm)
        | some guest =>
          refine .inr ⟨guest, idx, rfl, rfl, rfl, ?_⟩
          simp only [step, hidx, if_true, Option.some.injEq, revQueryInterface_eq hidx] at hs
          rw [← hs]
          split <;> rfl

theorem kept_step (h : Tables s) {a : Act} (hf : Fresh s a) (hs : step e s a = some t) : Kept s t := by
  cases a with
  | wrap host iface up mem grown =>
    cases hs
    exact kept_wrap h hf
  | addref a =>
    obtain ⟨p, hp, rfl⟩ := map_eq_some_iff.mp hs
    exact same_proxyAddref.kept h
  | release a =>
    obtain ⟨p, hp, rfl⟩ := map_eq_some_iff.mp hs
    exact same_proxyRelease.kept h
  | qi a riid ppv answer up mem grown =>
    obtain ⟨p, hp, rfl⟩ := map_eq_some_iff.mp hs
    exact kept_proxyQi h hf
  | wrapOut riid out up mem grown =>
    cases hs
    exact kept_winecomWrapOutIface h hf
  | reverseWrap guest iface mem =>
    cases hs
    exact (kept_winecomReverseWrap h e guest iface hf).settle
  | toNative guest iface mem =>
    cases hs
    exact kept_winecomToNative h e guest iface hf
  | toNativeEnd native =>
    cases hs
    exact kept_wcReverseRelease h
  | toGuest native iface up mem grown =>
    cases hs
    exact kept_winecomToGuest h hf
  | owned guest iface mem =>
    cases hs
    exact (kept_revToNativeOwned h e (some guest) iface hf).settle
  | revAddref a =>
    obtain ⟨p, hp, rfl⟩ := map_eq_some_iff.mp hs
    exact kept_revAddref h (mem_of_revFromPointer hp).1
  | revRelease a =>
    obtain ⟨p, hp, rfl⟩ := map_eq_some_iff.mp hs
    exact kept_revRelease h (mem_of_revFromPointer hp).1
  | revQi riid ppv answer mem =>
    obtain rfl | ⟨guest, idx, rfl, -, -, rfl⟩ := step_revQi hs
    · exact .refl h
    · have hans := same_answered (s := s) (some (some guest))
      have hown := kept_revToNativeOwned (hans.tables h) e (some guest) idx (hans.fresh hf)
      exact ((hans.kept h).trans hown).settle

end WinePpc64.Com.Proxies
