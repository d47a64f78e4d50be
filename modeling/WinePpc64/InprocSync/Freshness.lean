import WinePpc64.InprocSync.Counting

namespace WinePpc64.InprocSync

open Function List After

variable {T : Type}

namespace State

variable (s : State T)

def Shut (i : ℕ) : Prop := (s.cache i).refcount = 0 ∨ (s.cache i).closed = true

def Serving (i fd : ℕ) : Prop := ∃ q, s.server i = some q ∧ s.received[fd]? = some q

def NotSeen (x : Agent) (fd : ℕ) : Prop := ∃ q, s.received[fd]? = some q ∧ q ∉ x.seen

def AfterShut : After → Prop
  | .missed .close i | .handle i | .server i => s.Shut i
  | _ => True

def Fresh (x : Agent) : Prop :=
  match x.pc with
  | .map i d | .test i d | .store i d _ | .publish i d => s.Serving i d.fd
  | .leave h | .checkType h | .checkAccess h | .held h => s.NotSeen x (s.sync h).fd
  | .saveFd k _ | .saveShm k _ _ | .decrement k _ _ _ | .unmap k _ _ | .closeFd k _ => s.AfterShut k
  | .closeHandle i => s.Shut i
  | .leaveClose (some q) => q < s.opened ∧ ∀ i, s.server i ≠ some q
  | _ => True

structure Current : Prop where
  serving : ∀ i, (s.cache i).refcount ≠ 0 → (s.cache i).closed = false → s.Serving i (s.cache i).fd
  opened : ∀ i q, s.server i = some q → q < s.opened ∧ q ∉ s.ended
  once : ∀ i j q, s.server i = some q → s.server j = some q → i = j
  ended : ∀ q ∈ s.ended, q < s.opened
  seen : ∀ t, (s.agent t).seen ⊆ s.ended
  fresh : ∀ t, s.Fresh (s.agent t)

end State

variable {s s' : State T} {t u : T} {i : ℕ} {x : Agent}

variable {fd q : ℕ}

theorem State.Current.notSeen (h : s.Current) (hserve : s.Serving i fd) (hseen : x.seen ⊆ s.ended) :
    s.NotSeen x fd := by
  obtain ⟨q, hopen, hfor⟩ := hserve
  exact ⟨q, hfor, fun hmem => (h.opened i q hopen).2 (hseen hmem)⟩

structure Serves (s : State T) (t : T) (s' : State T) : Prop where
  keep : s.mutex ≠ some t → ∀ i q, s.server i = some q → s'.server i = some q
  new : ∀ i q, s'.server i = some q → s.server i = some q ∨ s.opened ≤ q
  opened : s.opened ≤ s'.opened
  received : s.received <+: s'.received

theorem Serves.of_server (hserver : s'.server = s.server) (hopened : s'.opened = s.opened)
    (hreceived : s.received <+: s'.received) : Serves s t s' where
  keep _ i q h := by rw [hserver, h]
  new i q h := .inl (by rw [← hserver, h])
  opened := hopened.ge
  received := hreceived

theorem received_mono (h : s.received <+: s'.received) (hq : s.received[fd]? = some q) :
    s'.received[fd]? = some q := by
  obtain ⟨l, hl⟩ := h
  obtain ⟨hlt, -⟩ := List.getElem?_eq_some_iff.mp hq
  rw [← hl, getElem?_append_left hlt, hq]

theorem NotSeen_mono (h : s.received <+: s'.received) (hn : s.NotSeen x fd) : s'.NotSeen x fd := by
  obtain ⟨q, hq, hnot⟩ := hn
  exact ⟨q, received_mono h hq, hnot⟩

theorem Shut_keep (hk : Keeps s t s') (hm : s.mutex ≠ some t) (h : s.Shut i) : s'.Shut i := by
  rcases h with hfree | hclosed
  · exact .inl (by rw [hk.free hm i hfree, hfree])
  · exact .inr (by rw [hk.closed hm i, hclosed])

variable {k : After} {pc : Pc}

theorem AfterShut_mono (hshut : k.locked = true → ∀ i, s.Shut i → s'.Shut i)
    (h : s.AfterShut k) : s'.AfterShut k := by
  rcases k with ⟨_ | _ | _, i⟩ | _ | i | i <;> first | exact hshut rfl i h | trivial

theorem AfterShut_count [DecidableEq T] (hlive : (s.cache i).refcount ≠ 0)
    (h : s.AfterShut k) : ((s.setCount i ((s.cache i).refcount - 1)).goto t pc).AfterShut k := by
  have hshut : ∀ j, s.Shut j → ((s.setCount i ((s.cache i).refcount - 1)).goto t pc).Shut j := by
    intro j hj
    by_cases hji : j = i
    · subst hji
      rcases hj with hfree | hclosed
      · exact absurd hfree hlive
      · exact .inr ((congrArg Sync.closed setCount_entry).trans hclosed)
    · have hsame : ((s.setCount i ((s.cache i).refcount - 1)).goto t pc).cache j = s.cache j :=
        update_of_ne hji _ _
      rwa [State.Shut, hsame]
  exact AfterShut_mono (fun _ => hshut) h

theorem After.next_fresh (h : s.AfterShut k) : s.Fresh (x.goto k.next) := by
  rcases k with ⟨_ | _ | _, i⟩ | _ | i | i <;> exact h

theorem After.dropped_fresh {shm : Option ℕ} {ref : ℤ} (h : s.AfterShut k) :
    s.Fresh (x.goto (k.dropped fd shm ref)) := by
  rw [dropped]
  split
  · trivial
  · split
    · cases shm <;> exact h
    · exact k.next_fresh h

theorem State.Current.servingEntry {e : Sync} (h : s.Current) (hcache : s'.cache = update s.cache i e)
    (hserver : s'.server = s.server) (hreceived : s'.received = s.received)
    (hentry : e.refcount ≠ 0 → e.closed = false →
      (s.cache i).refcount ≠ 0 ∧ (s.cache i).closed = false ∧ e.fd = (s.cache i).fd)
    (j : ℕ) : s'.cache j = s.cache j ∨ ((s'.cache j).refcount ≠ 0 → (s'.cache j).closed = false →
      s'.Serving j (s'.cache j).fd) := by
  by_cases hj : j = i
  · subst hj
    rw [hcache, update_self]
    refine .inr fun hlive hclosed => ?_
    obtain ⟨hwas, hopen, hfd⟩ := hentry hlive hclosed
    rw [hfd, State.Serving, hserver, hreceived]
    exact h.serving j hwas hopen
  · exact .inl (by rw [hcache, update_of_ne hj])

theorem Fresh_mono (hfresh : s.Fresh x) (hfd : ∀ i, 0 < x.pc.refs i → (s'.cache i).fd = (s.cache i).fd)
    (hserver : x.pc.locked = true → ∀ i q, s.server i = some q → s'.server i = some q)
    (hshut : x.pc.locked = true → ∀ i, s.Shut i → s'.Shut i)
    (hnew : ∀ i q, s'.server i = some q → s.server i = some q ∨ s.opened ≤ q) (hopened : s.opened ≤ s'.opened)
    (hreceived : s.received <+: s'.received) : s'.Fresh x := by
  have hserving : x.pc.locked = true → ∀ i fd, s.Serving i fd → s'.Serving i fd := by
    rintro hl i fd ⟨q, hopen, hfor⟩
    exact ⟨q, hserver hl i q hopen, received_mono hreceived hfor⟩
  have hsync : ∀ r, (∀ i, r.refs i ≤ x.pc.refs i) → s.NotSeen x (s.sync r).fd →
      s'.NotSeen x (s'.sync r).fd := by
    intro r hr hn
    cases r with
    | cached i =>
      have hone := hr i
      simp only [Ref.refs, if_pos] at hone
      rw [State.sync, hfd i hone]
      exact NotSeen_mono hreceived hn
    | stack d => exact NotSeen_mono hreceived hn
  rw [State.Fresh] at hfresh ⊢
  cases hpc : x.pc <;> rw [hpc] at hfresh hshut hserving hsync
  case map i d | test i d | store i d f | publish i d => exact hserving rfl i d.fd hfresh
  case leave r | checkType r | checkAccess r | held r => exact hsync r (fun i => le_refl _) hfresh
  case saveFd k r | saveShm k r fd | decrement k r fd shm | unmap k fd m | closeFd k fd =>
    exact AfterShut_mono hshut hfresh
  case closeHandle i => exact hshut rfl i hfresh
  case leaveClose q =>
    cases q with
    | none => trivial
    | some q =>
      refine ⟨hfresh.1.trans_le hopened, fun i hi => ?_⟩
      rcases hnew i q hi with hold | hnew
      · exact hfresh.2 i hold
      · exact absurd hfresh.1 (not_lt.mpr hnew)
  all_goals trivial

section Inv

variable [Fintype T]

theorem State.Current.keep (h : s.Current) (hinv : s.Inv) (hk : Keeps s t s') (hserves : Serves s t s')
    (hu : u ≠ t) : s'.Fresh (s.agent u) := by
  have hother : (s.agent u).pc.locked = true → s.mutex ≠ some t := fun hl hm =>
    hu (Option.some.inj ((hinv.owner u hl).symm.trans hm))
  exact Fresh_mono (h.fresh u) (fun i hi => (hk.data i (hinv.live hi)).1) (fun hl => hserves.keep (hother hl))
    (fun hl i => Shut_keep hk (hother hl)) hserves.new hserves.opened hserves.received

theorem Moves.fresh (hmoves : Moves s (s.agent t) pc) (h : s.Current) (hinv : s.Inv) :
    s.Fresh ((s.agent t).goto pc) := by
  have hfresh := h.fresh t
  have hseen := h.seen t
  rw [State.Fresh] at hfresh
  cases hmoves with
  | @load c i hpc =>
    rw [Caller.tried]
    split
    next hzero =>
      cases c with
      | first => trivial
      | second => trivial
      | close => exact .inl hzero
    next => trivial
  | @closed c i hpc hclosed =>
    cases c with
    | first => trivial
    | second => trivial
    | close => exact .inr hclosed
  | @found c i hpc hclosed =>
    have hlive : (s.cache i).refcount ≠ 0 := hinv.live (by rw [hpc]; simp [Pc.refs])
    have hnot := h.notSeen (h.serving i hlive hclosed) hseen
    cases c with
    | first => exact hnot
    | second => exact hnot
    | close => trivial
  | without hpc | claim hpc | typed hpc | granted hpc | saveFd hpc | saveShm hpc =>
    rw [hpc] at hfresh
    exact hfresh
  | alone hpc =>
    rw [hpc] at hfresh
    exact h.notSeen hfresh hseen
  | drop hpc =>
    rw [hpc] at hfresh
    exact dropped_fresh hfresh
  | refused hpc | release hpc | close hpc | failed hpc => trivial

variable [DecidableEq T]

variable (h : s.Current) (hinv : s.Inv)
include h hinv

theorem State.Current.after (hk : Keeps s t s')
    (hagent : s'.agent = update s.agent t x) (hserves : Serves s t s')
    (hserver : ∀ i q, s'.server i = some q → s.server i = some q) (hended : s.ended ⊆ s'.ended)
    (hnew : ∀ q ∈ s'.ended, q ∈ s.ended ∨ q < s.opened ∧ ∀ i, s.server i ≠ some q) (hseen : x.seen ⊆ s'.ended)
    (hfresh : s'.Fresh x) (hserving : ∀ i, (s'.cache i).refcount ≠ 0 → (s'.cache i).closed = false →
      s'.Serving i (s'.cache i).fd) : s'.Current where
  serving := hserving
  opened i q hi := by
    obtain ⟨hlt, hnot⟩ := h.opened i q (hserver i q hi)
    refine ⟨hlt.trans_le hserves.opened, fun hmem => ?_⟩
    rcases hnew q hmem with hold | ⟨-, hgone⟩
    · exact hnot hold
    · exact hgone i (hserver i q hi)
  once i j q hi hj := h.once i j q (hserver i q hi) (hserver j q hj)
  ended q hq := by
    rcases hnew q hq with hold | ⟨hlt, -⟩
    · exact (h.ended q hold).trans_le hserves.opened
    · exact hlt.trans_le hserves.opened
  seen := hk.forall_agent hagent (P := fun _ x => x.seen ⊆ s'.ended) hseen fun u _ =>
    List.Subset.trans (h.seen u) hended
  fresh := hk.forall_agent hagent (P := fun _ x => s'.Fresh x) hfresh fun u hu => h.keep hinv hk hserves hu

theorem State.Current.quiet (hk : Keeps s t s')
    (hagent : s'.agent = update s.agent t x) (hserver : s'.server = s.server)
    (hopened : s'.opened = s.opened) (hended : s'.ended = s.ended) (hreceived : s.received <+: s'.received)
    (hseen : x.seen = (s.agent t).seen ∨ x.seen = s.ended) (hfresh : s'.Fresh x)
    (hserving : ∀ i, s'.cache i = s.cache i ∨ ((s'.cache i).refcount ≠ 0 → (s'.cache i).closed = false →
      s'.Serving i (s'.cache i).fd)) : s'.Current := by
  refine h.after hinv hk hagent (.of_server hserver hopened hreceived) (fun i q => by rw [hserver]; exact id)
    (hended ▸ List.Subset.refl _) (fun q hq => .inl (hended ▸ hq)) ?_ hfresh fun i hlive hclosed => ?_
  · rw [hended]
    rcases hseen with hold | hnew
    · rw [hold]
      exact h.seen t
    · rw [hnew]
      exact List.Subset.refl _
  · rcases hserving i with hsame | hserving
    · rw [hsame] at hlive hclosed ⊢
      obtain ⟨q, hopen, hfor⟩ := h.serving i hlive hclosed
      exact ⟨q, by rw [hserver, hopen], received_mono hreceived hfor⟩
    · exact hserving hlive hclosed

theorem State.Current.publish {d : Sync}
    (hpc : (s.agent t).pc = .publish i d) : ((s.setCount i 2).goto t (.leave (.cached i))).Current := by
  obtain ⟨⟨hentry, -⟩, hk, -⟩ := hinv.publish hpc
  have hserve : s.Serving i d.fd := by
    have hfresh := h.fresh t
    rw [State.Fresh, hpc] at hfresh
    exact hfresh
  have hfd : ((s.setCount i 2).goto t (.leave (.cached i))).cache i = { d with refcount := 2 } := by
    refine setCount_entry.trans ?_
    rw [hentry]
  refine h.quiet hinv hk rfl rfl rfl rfl prefix_rfl (.inl rfl) ?_ fun j => ?_
  · have hnot : s.NotSeen (s.agent t) d.fd := h.notSeen hserve (h.seen t)
    change State.NotSeen _ _ (State.cache _ i).fd
    rw [hfd]
    exact hnot
  · by_cases hj : j = i
    · subst hj
      rw [hfd]
      exact .inr fun _ _ => hserve
    · exact .inl (update_of_ne hj _ _)

theorem State.Current.shut (hpc : (s.agent t).pc = .closeHandle i)
    (hopen : s.server i = some q) : ((s.shuts i).goto t (.leaveClose (some q))).Current := by
  have hfresh := h.fresh t
  have howner := hinv.owner t
  rw [hpc] at howner
  rw [State.Fresh, hpc] at hfresh
  have hserver : ∀ j q', ((s.shuts i).goto t (.leaveClose (some q))).server j = some q' →
      j ≠ i ∧ s.server j = some q' := by
    intro j q' hj
    by_cases hji : j = i
    · subst hji
      have hnone : ((s.shuts j).goto t (.leaveClose (some q))).server j = none := update_self _ _ _
      cases hnone.symm.trans hj
    · have hsame : ((s.shuts i).goto t (.leaveClose (some q))).server j = s.server j :=
        update_of_ne hji _ _
      exact ⟨hji, hsame ▸ hj⟩
  have hk : Keeps s t ((s.shuts i).goto t (.leaveClose (some q))) := .of_cache rfl (.inl rfl) rfl
  have hserves : Serves s t ((s.shuts i).goto t (.leaveClose (some q))) :=
    ⟨fun hm => absurd (howner rfl) hm, fun j q' hj => .inl (hserver j q' hj).2, le_refl _, prefix_refl _⟩
  refine h.after hinv hk rfl hserves (fun j q' hj => (hserver j q' hj).2) (List.Subset.refl _) (fun q' => .inl)
    (h.seen t) ⟨(h.opened i q hopen).1, fun j hj => ?_⟩ fun j hlive hclosed => ?_
  · obtain ⟨hji, hold⟩ := hserver j q hj
    exact hji (h.once j i q hold hopen)
  · have hji : j ≠ i := by
      rintro rfl
      rcases hfresh with hfree | hshut
      · exact hlive hfree
      · exact absurd (hshut.symm.trans hclosed) (by simp)
    obtain ⟨q', hj, hfor⟩ := h.serving j hlive hclosed
    exact ⟨q', (update_of_ne hji _ _).trans hj, hfor⟩

theorem State.Current.finish {q : Option ℕ}
    (hpc : (s.agent t).pc = .leaveClose q) : (((s.setMutex none).finish q).goto t .idle).Current := by
  have hfresh := h.fresh t
  have howner := hinv.owner t
  rw [hpc] at howner
  rw [State.Fresh, hpc] at hfresh
  have hk : Keeps s t (((s.setMutex none).finish q).goto t .idle) := .of_cache rfl (.inr (.inr (howner rfl))) rfl
  have hended : s.ended ⊆ q.toList ++ s.ended := subset_append_right _ _
  refine h.after hinv hk rfl (.of_server rfl rfl prefix_rfl) (fun _ _ => id) hended (fun q' hq' => ?_)
    (List.Subset.trans (h.seen t) hended) trivial h.serving
  rcases mem_append.mp hq' with hnew | hold
  · obtain rfl := Option.mem_toList.mp hnew
    exact .inr hfresh
  · exact .inl hold

omit hinv h

theorem Effect.current (he : Effect s t s') (hinv : s.Inv) (h : s.Current) : s'.Current := by
  obtain ⟨hk, -⟩ := he.keep hinv
  have hfresh := h.fresh t
  rw [State.Fresh] at hfresh
  cases he with
  | moves hmoves =>
    exact h.quiet hinv hk rfl rfl rfl rfl prefix_rfl (.inl rfl) (hmoves.fresh h hinv)
      fun _ => .inl rfl
  | begins hpc =>
    exact h.quiet hinv hk rfl rfl rfl rfl prefix_rfl (.inr rfl) trivial fun _ => .inl rfl
  | @increments c i hpc =>
    have hlive : (s.cache i).refcount ≠ 0 := by
      have hok := hinv.ok t
      rwa [hpc] at hok
    exact h.quiet hinv hk rfl rfl rfl rfl prefix_rfl (.inl rfl) trivial
      (h.servingEntry rfl rfl rfl fun _ hclosed => ⟨hlive, hclosed, rfl⟩)
  | enters hpc hfree | fails hpc =>
    exact h.quiet hinv hk rfl rfl rfl rfl prefix_rfl (.inl rfl) trivial fun _ => .inl rfl
  | @receives i q access type hpc hopen =>
    refine h.quiet hinv hk rfl rfl rfl rfl (prefix_append _ _) (.inl rfl) ?_ fun _ => .inl rfl
    exact ⟨q, hopen, getElem?_concat_length⟩
  | maps hpc | mapsOnce hpc | leaves hpc | unmaps hpc =>
    rw [hpc] at hfresh
    exact h.quiet hinv hk rfl rfl rfl rfl prefix_rfl (.inl rfl) hfresh fun _ => .inl rfl
  | @stores i d f hpc =>
    have hok := hinv.ok t
    rw [hpc] at hok hfresh
    refine h.quiet hinv hk rfl rfl rfl rfl prefix_rfl (.inl rfl) ?_
      (h.servingEntry rfl rfl rfl fun hlive _ => absurd (f.store_refcount.trans hok.2.1) hlive)
    cases f <;> exact hfresh
  | publishes hpc =>
    obtain ⟨⟨hentry, hd⟩, -⟩ := hinv.publish hpc
    rw [if_pos ⟨by rw [hentry], hd.1⟩]
    exact h.publish hinv hpc
  | @decrements k i fd shm hpc =>
    obtain ⟨hpos, -⟩ := hinv.decrement hpc
    rw [hpc] at hfresh
    refine h.quiet hinv hk rfl rfl rfl rfl prefix_rfl (.inl rfl) ?_
      (h.servingEntry rfl rfl rfl fun _ hclosed => ⟨by omega, hclosed, rfl⟩)
    apply dropped_fresh
    exact AfterShut_count (by omega) hfresh
  | closes hpc =>
    rw [hpc] at hfresh
    exact h.quiet hinv hk rfl rfl rfl rfl prefix_rfl (.inl rfl) (next_fresh hfresh)
      fun _ => .inl rfl
  | @marks i hpc =>
    refine h.quiet hinv hk rfl rfl rfl rfl prefix_rfl (.inl rfl) ?_
      (h.servingEntry rfl rfl rfl fun _ hclosed => by cases hclosed)
    exact .inr (congrArg Sync.closed setEntry_entry)
  | shuts hpc hopen => exact h.shut hinv hpc hopen
  | finishes hpc => exact h.finish hinv hpc

end Inv

theorem init_current : (State.init : State T).Current where
  serving _ h := absurd rfl h
  opened _ _ h := by cases h
  once _ _ _ h := by cases h
  ended _ h := by cases h
  seen _ := nil_subset _
  fresh _ := trivial

theorem State.Current.opens (h : s.Current) (hnone : s.server i = none) : (s.opens i).Current := by
  have hold : ∀ j q, s.server j = some q → (s.opens i).server j = some q := by
    intro j q hj
    have hji : j ≠ i := by
      rintro rfl
      cases hnone.symm.trans hj
    exact (update_of_ne hji _ _).trans hj
  have hnew : ∀ j q, (s.opens i).server j = some q → (j = i ∧ q = s.opened) ∨ s.server j = some q := by
    intro j q hj
    by_cases hji : j = i
    · subst hji
      have hself : (s.opens j).server j = some s.opened := update_self _ _ _
      exact .inl ⟨rfl, Option.some.inj (hj.symm.trans hself)⟩
    · have hsame : (s.opens i).server j = s.server j := update_of_ne hji _ _
      exact .inr (hsame ▸ hj)
  constructor
  · intro j hlive hclosed
    obtain ⟨q, hj, hfor⟩ := h.serving j hlive hclosed
    exact ⟨q, hold j q hj, hfor⟩
  · intro j q hj
    rcases hnew j q hj with ⟨-, rfl⟩ | hwas
    · exact ⟨Nat.lt_succ_self _, fun hmem => lt_irrefl _ (h.ended _ hmem)⟩
    · exact ⟨(h.opened j q hwas).1.trans (Nat.lt_succ_self _), (h.opened j q hwas).2⟩
  · intro j k q hj hk
    rcases hnew j q hj with ⟨hji, hq⟩ | hwas <;> rcases hnew k q hk with ⟨hki, hq'⟩ | hwas'
    · rw [hji, hki]
    · exact absurd (h.opened k q hwas').1 (by omega)
    · exact absurd (h.opened j q hwas).1 (by omega)
    · exact h.once j k q hwas hwas'
  · intro q hq
    exact (h.ended q hq).trans (Nat.lt_succ_self _)
  · exact h.seen
  · intro u
    exact Fresh_mono (h.fresh u) (fun _ _ => rfl) (fun _ => hold) (fun _ _ => id)
      (fun j q hj => (hnew j q hj).symm.imp_right fun hq => hq.2.ge) (Nat.le_succ _) prefix_rfl

theorem State.Current.step [Fintype T] [DecidableEq T] {e : Event T} (h : s.Current) (hinv : s.Inv)
    (hstep : s.step e = some s') : s'.Current := by
  rcases effect_of_step hstep with ⟨t, he⟩ | ⟨i, hnone, rfl⟩
  · exact he.current hinv h
  · exact h.opens hnone

end WinePpc64.InprocSync
