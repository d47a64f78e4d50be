import WinePpc64.Com.ProxyRuns

/-!
Conservation of host references: what the runtime took of a host object on the guest's behalf is
what the proxies of the object count.
-/

namespace WinePpc64.Com.Proxies

open Function Lib List Env State

variable {e : Env} {s t : State} {h : Native}

def hostBalance (s : State) (h : Native) : ℤ :=
  s.handed h + s.calls.count (.addRef h) - s.calls.count (.release h)

def Env.counts (e : Env) (h : Native) (p : ComProxy) : Prop :=
  p.host = h ∧ e.ifaceIsLocal p.iface = false

instance (e : Env) (h : Native) (p : ComProxy) : Decidable (e.counts h p) :=
  inferInstanceAs (Decidable (_ ∧ _))

def heldRefs (e : Env) (s : State) (h : Native) : ℤ :=
  (s.intern.elems.map fun p => if e.counts h p then s.refs p.addr else 0).sum

variable {p : ComProxy} {n : ℤ} {h' : Native}

theorem sum_update {l : List ComProxy} (hl : (l.map ComProxy.addr).Nodup) (hp : p ∈ l)
    {P : ComProxy → Prop} [DecidablePred P] {refs : Word → ℤ} :
    (l.map fun q => if P q then update refs p.addr n q.addr else 0).sum =
      (l.map fun q => if P q then refs q.addr else 0).sum + if P p then n - refs p.addr else 0 := by
  induction l with
  | nil => simp at hp
  | cons q l ih =>
    obtain ⟨hq, hl⟩ := nodup_cons.mp hl
    simp only [map_cons, sum_cons]
    obtain rfl | hp := mem_cons.mp hp
    · have hrest : (l.map fun q => if P q then update refs p.addr n q.addr else 0) =
          l.map fun q => if P q then refs q.addr else 0 := by
        refine map_congr_left fun q hql => ?_
        have hne : q.addr ≠ p.addr := fun heq => hq (heq ▸ mem_map_of_mem hql)
        rw [update_of_ne hne]
      rw [hrest, update_self]
      split_ifs <;> ring
    · have hne : q.addr ≠ p.addr := fun heq => hq (heq ▸ mem_map_of_mem hp)
      rw [ih hl hp, update_of_ne hne]
      ring

theorem heldRefs_eq_filter (hall : ∀ p ∈ s.intern.elems, e.ifaceIsLocal p.iface = false) :
    heldRefs e s h = ((s.intern.elems.filter (·.host = h)).map fun p => s.refs p.addr).sum := by
  rw [heldRefs]
  generalize s.intern.elems = l at hall
  induction l with
  | nil => rfl
  | cons p l ih =>
    have hp := hall p mem_cons_self
    rw [map_cons, sum_cons, ih fun q hq => hall q (mem_cons_of_mem _ hq),
      filter_cons]
    by_cases hh : p.host = h <;> simp [counts, hh, hp]

def owed (e : Env) (s : State) (h : Native) : ℤ := hostBalance s h - heldRefs e s h

theorem owed_setRefs (ht : Tables s) (hp : p ∈ s.intern.elems) :
    owed e (s.setRefs p.addr n) h = owed e s h - if e.counts h p then n - s.refs p.addr else 0 := by
  have hheld : heldRefs e (s.setRefs p.addr n) h = _ := sum_update ht.forward.addrs hp
  rw [owed, hheld, sub_add_eq_sub_sub]
  rfl

theorem owed_link (hf : ∀ q ∈ s.intern.elems, q.addr ≠ p.addr)
    {tb : ChainTable ComProxy} (hperm : tb.elems.Perm (p :: s.intern.elems)) {count : ℕ} :
    owed e ((s.setRefs p.addr 1).setIntern tb count) h =
      owed e s h - if e.counts h p then 1 else 0 := by
  have hsum := (hperm.map fun q => if e.counts h q then update s.refs p.addr 1 q.addr else 0).sum_eq
  have hrest : (s.intern.elems.map fun q =>
      if e.counts h q then update s.refs p.addr 1 q.addr else 0) =
        s.intern.elems.map fun q => if e.counts h q then s.refs q.addr else 0 :=
    map_congr_left fun q hq => by rw [update_of_ne (hf q hq)]
  rw [map_cons, sum_cons, hrest, update_self, add_comm] at hsum
  exact (congrArg (hostBalance s h - ·) hsum).trans (sub_add_eq_sub_sub ..)

theorem owed_addRef : owed e (s.addCall (.addRef h')) h = owed e s h + if h' = h then 1 else 0 := by
  have hheld : heldRefs e (s.addCall (.addRef h')) h = heldRefs e s h := rfl
  simp only [owed, hheld, hostBalance, addCall_calls, addCall_handed, count_append,
    count_singleton, beq_iff_eq, HostCall.addRef.injEq, reduceCtorEq, if_false]
  split_ifs <;> push_cast <;> ring

theorem owed_release : owed e (s.addCall (.release h')) h = owed e s h - if h' = h then 1 else 0 := by
  have hheld : heldRefs e (s.addCall (.release h')) h = heldRefs e s h := rfl
  simp only [owed, hheld, hostBalance, addCall_calls, addCall_handed, count_append,
    count_singleton, beq_iff_eq, HostCall.release.injEq, reduceCtorEq, if_false]
  split_ifs <;> push_cast <;> ring

theorem owed_addHanded : owed e (s.addHanded h' n) h = owed e s h + if h' = h then n else 0 := by
  have hheld : heldRefs e (s.addHanded h' n) h = heldRefs e s h := rfl
  simp only [owed, hheld, hostBalance, addHanded_calls, addHanded_handed]
  by_cases hh : h' = h
  · subst hh
    simp only [update_self, if_true]
    ring
  · simp [update_of_ne (Ne.symm hh), hh]

theorem owed_handOver (host : Native) (iface : ℕ) (up : Option ℕ) (h : Native) :
    owed e (s.handOver e (some host) iface up) h =
      owed e s h + if e.counts h ⟨0, host, e.concrete iface up⟩ then 1 else 0 := by
  simp only [handOver]
  split_ifs with hl hc hc
  · simp [counts, hl] at hc
  · rw [add_zero]
  · rw [owed_addHanded, if_pos hc.1]
  · rw [owed_addHanded, if_neg fun heq => hc ⟨heq, by simpa using hl⟩]

theorem long_eq (hlow : 0 ≤ n) (hhigh : n < 2 ^ 31) : long n = n :=
  Int.bmod_eq_of_le (by omega) (by omega)

def Counted (s : State) : Prop := ∀ p ∈ s.intern.elems, 0 ≤ s.refs p.addr

/-- No proxy has as many references as a `LONG` can count. -/
def Roomy (s : State) : Prop := ∀ p ∈ s.intern.elems, s.refs p.addr < 2 ^ 31 - 1

theorem Counted.setRefs (hc : Counted s) (hn : 0 ≤ n) {a : Word} : Counted (s.setRefs a n) := by
  intro q hq
  by_cases hqa : q.addr = a
  · simpa [hqa] using hn
  · simpa [hqa] using hc q hq

/-- The state of the boundary after calls from the guest's side only. -/
structure HostInv (e : Env) (s : State) : Prop where
  tables : Tables s
  oneWay : s.revIntern.elems = []
  counted : Counted s
  settled : ∀ a, owed e s (.host a) = 0

theorem hostInv_init {refs : Word → ℤ} : HostInv e (.init refs) where
  tables := tables_init
  oneWay := by simp [init]
  counted p hp := by simp [init] at hp
  settled a := by simp [owed, hostBalance, heldRefs, init]

theorem winecomWrap_oneWay (h : s.revIntern.elems = []) {host : Native} {iface : ℕ} {up : Option ℕ}
    {mem : Option Word} {grown : Bool} : winecomWrap e s (some host) iface up mem grown =
      internProxy e s host (e.concrete iface up) mem grown := by
  have hnone : revFromPointer e s host = none := by
    cases host with
    | host a => rfl
    | rev a => simp [revFromPointer, h]
  rw [winecomWrap, hnone]

section Steps

variable (hi : HostInv e s)
include hi

theorem HostInv.proxyAddref (hroom : Roomy s) (hp : p ∈ s.intern.elems) : HostInv e (proxyAddref e s p) := by
  have hlow := hi.counted p hp
  have hlong : long (s.refs p.addr + 1) = s.refs p.addr + 1 := long_eq (by omega) (by have := hroom p hp; omega)
  have hsame : SameTables s (Proxies.proxyAddref e s p) := same_proxyAddref
  have hcounted : Counted (s.setRefs p.addr (s.refs p.addr + 1)) := hi.counted.setRefs (by omega)
  refine ⟨hsame.tables hi.tables, hsame.revIntern ▸ hi.oneWay, ?_, fun a => ?_⟩
  · simp only [Proxies.proxyAddref, hlong]
    split_ifs
    · exact hcounted
    · exact hcounted
  · rw [← hi.settled a]
    simp only [Proxies.proxyAddref, hlong]
    split_ifs with hl
    · simp [owed_setRefs hi.tables hp, counts, hl]
    · simp [owed_addRef, owed_setRefs hi.tables hp, counts, hl]

theorem HostInv.proxyRelease (hroom : Roomy s) (hp : p ∈ s.intern.elems) : HostInv e (proxyRelease e s p) := by
  have hlow := hi.counted p hp
  have hhigh := hroom p hp
  have hsame : SameTables s (Proxies.proxyRelease e s p) := same_proxyRelease
  by_cases hz : s.refs p.addr = 0
  · rw [Proxies.proxyRelease, if_pos hz]
    exact hi
  have hlong : long (s.refs p.addr - 1) = s.refs p.addr - 1 := long_eq (by omega) (by omega)
  have hcounted : Counted (s.setRefs p.addr (s.refs p.addr - 1)) := hi.counted.setRefs (by omega)
  refine ⟨hsame.tables hi.tables, hsame.revIntern ▸ hi.oneWay, ?_, fun a => ?_⟩
  · simp only [Proxies.proxyRelease, if_neg hz, hlong]
    split_ifs
    · exact hcounted
    · exact hcounted
  · rw [← hi.settled a]
    simp only [Proxies.proxyRelease, if_neg hz, hlong]
    split_ifs with hl
    · simp [owed_setRefs hi.tables hp, counts, hl]
    · rw [owed_release, owed_setRefs hi.tables hp]
      by_cases hh : p.host = .host a <;> simp [counts, hl, hh]

/-- A wrap takes over the reference that came with the object, or gives it back. -/
theorem HostInv.wrap (hroom : Roomy s) {host : Option Native} {iface : ℕ} {up : Option ℕ} {mem : Option Word}
    (hf : s.fresh mem) {grown : Bool} :
    HostInv e (winecomWrap e (s.handOver e host iface up) host iface up mem grown).2 := by
  cases host with
  | none => exact hi
  | some host =>
    have hover := same_handOver (s := s) e (some host) iface up
    have hrefs : (s.handOver e (some host) iface up).refs = s.refs := by
      simp only [handOver]
      split_ifs <;> rfl
    have ht := hover.tables hi.tables
    have hone : (s.handOver e (some host) iface up).revIntern.elems = [] := hover.revIntern ▸ hi.oneWay
    have hcounted : Counted (s.handOver e (some host) iface up) := by
      rw [Counted, hover.intern, hrefs]
      exact hi.counted
    have howed (a : Word) : owed e (s.handOver e (some host) iface up) (.host a) =
        if e.counts (.host a) ⟨0, host, e.concrete iface up⟩ then 1 else 0 := by
      rw [owed_handOver, hi.settled, zero_add]
    rw [winecomWrap_oneWay hone]
    obtain ⟨p, hp, rfl, hiface, hr⟩ | ⟨hk, ⟨-, hr⟩ | ⟨b, hm, hr⟩⟩ :=
      internProxy_cases ht e host (e.concrete iface up) mem grown
    · have hmem : p ∈ s.intern.elems := hover.intern ▸ hp
      have hlow := hi.counted p hmem
      have hlong : long (s.refs p.addr + 1) = s.refs p.addr + 1 :=
        long_eq (by omega) (by have := hroom p hmem; omega)
      rw [hr, hrefs, hlong]
      refine ⟨⟨ht.forward, ht.reverse⟩, hone, hcounted.setRefs (by omega), fun a => ?_⟩
      rw [owed_setRefs ht hp, howed, hrefs, add_sub_cancel_left, ← hiface]
      exact sub_self _
    · rw [hr]
      have hsame : SameTables _ (hostReleaseIface e (s.handOver e (some host) iface up) host (e.concrete iface up)) :=
        same_hostReleaseIface
      refine ⟨hsame.tables ht, hsame.revIntern ▸ hone, ?_, fun a => ?_⟩
      · simp only [hostReleaseIface]
        split_ifs
        · exact hcounted
        · exact hcounted
      · rw [hostReleaseIface]
        split_ifs with hl
        · simp [howed, counts, hl]
        · rw [owed_release, howed]
          by_cases hh : host = .host a <;> simp [counts, hl, hh]
    · obtain ⟨hgrow, hperm⟩ := ht.forward.grow
      have hlink := (ChainTable.elems_push_perm (internBucket_lt hgrow.size_pos
        ⟨b, host, e.concrete iface up⟩)).trans (hperm.cons _)
      have hfresh := (hover.fresh hf b hm).1
      rw [hr]
      refine ⟨⟨(hgrow.push (fun q hq => hfresh q (hperm.mem_iff.mp hq))
        fun q hq => hk q (hperm.mem_iff.mp hq)).1, ht.reverse⟩, hone, fun q hq => ?_, fun a => ?_⟩
      · obtain rfl | hq := mem_cons.mp (hlink.mem_iff.mp hq)
        · simp
        · simpa [hfresh q hq] using hcounted q hq
      · rw [owed_link hfresh hlink, howed]
        exact sub_self _

def Act.forward : Act → Bool
  | .wrap .. | .addref _ | .release _ | .qi .. | .wrapOut .. => true
  | _ => false

theorem HostInv.step {a : Act} (hf : Fresh s a) (hfwd : a.forward = true) (hroom : Roomy s)
    (hs : step e s a = some t) : HostInv e t := by
  cases a with
  | wrap host iface up mem grown =>
    cases hs
    exact hi.wrap hroom hf
  | addref a =>
    obtain ⟨p, hp, rfl⟩ := Option.map_eq_some_iff.mp hs
    exact hi.proxyAddref hroom (mem_of_proxyFromPointer hp).1
  | release a =>
    obtain ⟨p, hp, rfl⟩ := Option.map_eq_some_iff.mp hs
    exact hi.proxyRelease hroom (mem_of_proxyFromPointer hp).1
  | qi a riid ppv answer up mem grown =>
    obtain ⟨p, -, rfl⟩ := Option.map_eq_some_iff.mp hs
    obtain hr | ⟨host, idx, -, hr⟩ := proxyQi_cases
    · rw [hr]
      exact hi
    · rw [hr]
      exact hi.wrap hroom hf
  | wrapOut riid out up mem grown =>
    cases hs
    cases out with
    | none => exact hi
    | some host =>
      simp only [winecomWrapOutIface]
      cases riid.bind (winecomIfaceFromIid e) with
      | none =>
        refine ⟨⟨hi.tables.forward, hi.tables.reverse⟩, hi.oneWay, hi.counted, fun a => ?_⟩
        rw [owed_release, owed_addHanded, add_sub_cancel_right, hi.settled]
      | some idx => exact hi.wrap hroom hf
  | _ => cases hfwd

end Steps

variable {a : Word} {grown : Bool}

theorem calls_wrap_local (ht : Tables s) {iface : ℕ} {up : Option ℕ}
    (hl : e.ifaceIsLocal (e.concrete iface up) = true) {mem : Option Word} :
    (winecomWrap e s (some (.host a)) iface up mem grown).2.calls = s.calls := by
  have hw : winecomWrap e s (some (.host a)) iface up mem grown =
      internProxy e s (.host a) (e.concrete iface up) mem grown := rfl
  rw [hw]
  obtain ⟨p, -, -, -, hr⟩ | ⟨-, ⟨-, hr⟩ | ⟨b, -, hr⟩⟩ :=
    internProxy_cases ht e (.host a) (e.concrete iface up) mem grown
  · rw [hr]
    rfl
  · rw [hr, hostReleaseIface, if_pos hl]
  · rw [hr]
    rfl

def Forward (s : State) (a : Act) : Prop := Fresh s a ∧ a.forward = true ∧ Roomy s

/-- After any run the references held of a host object are what its proxies count. -/
theorem hostBalance_eq_heldRefs {refs : Word → ℤ} (hr : Reaches (step e) Forward (.init refs) s) :
    (∀ a, hostBalance s (.host a) = heldRefs e s (.host a)) ∧
    ((∀ p ∈ s.intern.elems, e.ifaceIsLocal p.iface = false) → ∀ a, hostBalance s (.host a) =
      ((s.intern.elems.filter (·.host = .host a)).map fun p => s.refs p.addr).sum) ∧
    (∀ p ∈ s.intern.elems, 0 ≤ s.refs p.addr) ∧
    (∀ p ∈ s.intern.elems, s.refs p.addr = 0 → proxyRelease e s p = s) ∧
    (∀ p ∈ s.intern.elems, e.ifaceIsLocal p.iface = true →
      (proxyAddref e s p).calls = s.calls ∧ (proxyRelease e s p).calls = s.calls ∧
      ∀ riid ppv answer up mem grown,
        (proxyQi e s p riid ppv answer up mem grown).2.2.calls = s.calls) ∧
    ∀ a iface up mem grown, e.ifaceIsLocal (e.concrete iface up) = true →
      (winecomWrap e s (some (.host a)) iface up mem grown).2.calls = s.calls := by
  have hinv : HostInv e s :=
    hr.invariant hostInv_init fun _ _ _ hok hs hu => hu.step hok.1 hok.2.1 hok.2.2 hs
  have hbal : ∀ a, hostBalance s (.host a) = heldRefs e s (.host a) :=
    fun a => sub_eq_zero.mp (hinv.settled a)
  refine ⟨hbal, fun hall a => ?_, hinv.counted, fun p hp hz => if_pos hz, fun p hp hl => ?_,
    fun a iface up mem grown hl => calls_wrap_local hinv.tables hl⟩
  · rw [hbal]
    exact heldRefs_eq_filter hall
  refine ⟨?_, ?_, fun riid ppv answer up mem grown => ?_⟩
  · simp [proxyAddref, hl]
  · simp only [proxyRelease, hl, if_true]
    split_ifs <;> rfl
  · cases ppv <;> cases riid <;> simp [proxyQi, hl]

namespace Zombie

def env : Env where
  surface := ⟨[⟨3, none, 0, false⟩]⟩
  beyond := fun _ => false
  ready := true
  revEnabled := false

def wrapped : State :=
  (winecomWrap env ((State.init fun _ => 0).handOver env (some (.host 0x10)) 0 none) (some (.host 0x10))
    0 none (some 0x100) false).2

def proxy : ComProxy := ⟨0x100, .host 0x10, 0⟩

theorem wrapped_elems : wrapped.intern.elems = [proxy] := by decide +kernel

theorem wrapped_reached : Reaches (step env) Forward (.init fun _ => 0) wrapped :=
  Reaches.refl.tail (l := .wrap (.host 0x10) 0 none (some 0x100) false)
    ⟨fun a _ => ⟨fun p hp => by simp [init] at hp, fun p hp => by simp [init] at hp⟩, rfl,
      fun p hp => by simp [init] at hp⟩ rfl

/-- The guest has taken `n` references more. -/
def added : ℕ → State
  | 0 => wrapped
  | n + 1 => proxyAddref env (added n) proxy

theorem added_intern (n : ℕ) : (added n).intern = wrapped.intern := by
  induction n with
  | zero => rfl
  | succ n ih => exact same_proxyAddref.intern.trans ih

theorem added_refs (n : ℕ) : (added n).refs 0x100 = long (n + 1) := by
  induction n with
  | zero => decide
  | succ n ih =>
    have hstep : (added (n + 1)).refs 0x100 = long ((added n).refs 0x100 + 1) := rfl
    rw [hstep, ih]
    push_cast
    exact Int.bmod_add_bmod

theorem added_balance (n : ℕ) : hostBalance (added n) (.host 0x10) = n + 1 := by
  induction n with
  | zero => decide +kernel
  | succ n ih =>
    have hcalls : (added (n + 1)).calls = (added n).calls ++ [.addRef (.host 0x10)] := rfl
    have hhanded : (added (n + 1)).handed = (added n).handed := rfl
    have hone : count (HostCall.addRef (.host 0x10)) [.addRef (.host 0x10)] = 1 := by decide
    have hzero : count (HostCall.release (.host 0x10)) [.addRef (.host 0x10)] = 0 := by decide
    rw [hostBalance] at ih ⊢
    rw [hcalls, hhanded, count_append, count_append, hone, hzero]
    omega

theorem added_reached (n : ℕ) :
    Reaches (step env) (fun s a => Fresh s a ∧ a.forward = true) (.init fun _ => 0) (added n) := by
  induction n with
  | zero => exact wrapped_reached.mono fun _ _ h => ⟨h.1, h.2.1⟩
  | succ n ih =>
    refine ih.tail (l := .addref 0x100) ⟨fun _ ha => (by cases ha), rfl⟩ ?_
    have hfind : proxyFromPointer (added n) (.proxy 0x100) = some proxy := by
      rw [proxyFromPointer, added_intern, wrapped_elems]
      rfl
    rw [step, hfind]
    rfl

/-- With 2^31 references the count of the proxy is negative. -/
theorem count_wraps : ∃ s, Reaches (step env) (fun s a => Fresh s a ∧ a.forward = true) (.init fun _ => 0) s ∧
    proxy ∈ s.intern.elems ∧ s.refs 0x100 = -2 ^ 31 ∧ hostBalance s (.host 0x10) = 2 ^ 31 ∧
    heldRefs env s (.host 0x10) = -2 ^ 31 := by
  have helems : (added (2 ^ 31 - 1)).intern.elems = [proxy] := by rw [added_intern, wrapped_elems]
  have hrefs : (added (2 ^ 31 - 1)).refs 0x100 = -2 ^ 31 := by
    rw [added_refs]
    decide +kernel
  refine ⟨added (2 ^ 31 - 1), added_reached _, helems ▸ mem_cons_self, hrefs, ?_, ?_⟩
  · rw [added_balance]
    norm_num
  · have hcounts : env.counts (.host 0x10) proxy := by decide
    rw [heldRefs, helems, map_singleton, sum_singleton, if_pos hcounts]
    exact hrefs

def released : State := proxyRelease env wrapped proxy

theorem released_reached : Reaches (step env) Forward (.init fun _ => 0) released := by
  refine wrapped_reached.tail (l := .release 0x100) ⟨fun _ ha => (by cases ha), rfl, ?_⟩ rfl
  rw [Roomy, wrapped_elems]
  decide

theorem hostBalance_eq_heldRefs_released :
    released.intern.elems = [⟨0x100, .host 0x10, 0⟩] ∧ released.refs 0x100 = 0 ∧
      proxyRelease env released ⟨0x100, .host 0x10, 0⟩ = released ∧
      hostBalance released (.host 0x10) = heldRefs env released (.host 0x10) := by
  have helems : released.intern.elems = [⟨0x100, .host 0x10, 0⟩] := by decide +kernel
  have hrefs : released.refs 0x100 = 0 := by decide
  have h := hostBalance_eq_heldRefs released_reached
  exact ⟨helems, hrefs, h.2.2.2.1 _ (helems ▸ mem_cons_self) hrefs, h.1 0x10⟩

end Zombie

end WinePpc64.Com.Proxies
