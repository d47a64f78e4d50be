import WinePpc64.InprocSync.Cache

namespace WinePpc64.InprocSync

open Option

variable {T : Type} [DecidableEq T]

inductive Moves (s : State T) (x : Agent) : Pc → Prop
  | load {c : Caller} {i : ℕ} (hpc : x.pc = .load c i ∨ ∃ val, x.pc = .increment c i val) :
      Moves s x (c.tried i (s.cache i).refcount)
  | closed {c : Caller} {i : ℕ} (hpc : x.pc = .look c i) (hclosed : (s.cache i).closed = true) :
      Moves s x (.saveFd (.missed c i) (.cached i))
  | found {c : Caller} {i : ℕ} (hpc : x.pc = .look c i) (hclosed : (s.cache i).closed = false) :
      Moves s x (c.found i)
  | refused {i : ℕ} (hpc : x.pc = .request i) : Moves s x .leaveFailed
  | without {i : ℕ} {d : Sync} (hpc : x.pc = .map i d) : Moves s x (.test i d)
  | alone {i : ℕ} {d : Sync} (hpc : x.pc = .test i d) : Moves s x (.leave (.stack d))
  | claim {i : ℕ} {d : Sync} (hpc : x.pc = .test i d) (hfree : (s.cache i).refcount = 0) :
      Moves s x (.store i d .fd)
  | typed {h : Ref} (hpc : x.pc = .checkType h) : Moves s x (.checkAccess h)
  | granted {h : Ref} (hpc : x.pc = .checkAccess h) : Moves s x (.held h)
  | release {h : Ref} (hpc : x.pc = .checkType h ∨ x.pc = .checkAccess h ∨ x.pc = .held h) :
      Moves s x (.saveFd .done h)
  | saveFd {k : After} {h : Ref} (hpc : x.pc = .saveFd k h) : Moves s x (.saveShm k h (s.sync h).fd)
  | saveShm {k : After} {h : Ref} {fd : ℕ} (hpc : x.pc = .saveShm k h fd) :
      Moves s x (.decrement k h fd (s.sync h).shm)
  | drop {k : After} {d : Sync} {fd : ℕ} {shm : Option ℕ} (hpc : x.pc = .decrement k (.stack d) fd shm) :
      Moves s x (k.dropped fd shm (d.refcount - 1))
  | close {i : ℕ} (hpc : x.pc = .idle) : Moves s x (.enterClose i)
  | failed {i : ℕ} (hpc : x.pc = .closeHandle i) : Moves s x (.leaveClose none)

inductive Effect (s : State T) (t : T) : State T → Prop
  | moves {pc : Pc} (hmoves : Moves s (s.agent t) pc) : Effect s t (s.goto t pc)
  | begins {i access : ℕ} {type : SyncType} (hpc : (s.agent t).pc = .idle) :
      Effect s t (s.begin t i type access)
  | increments {c : Caller} {i : ℕ} (hpc : (s.agent t).pc = .increment c i (s.cache i).refcount) :
      Effect s t ((s.setCount i ((s.cache i).refcount + 1)).goto t (.look c i))
  | enters {c : Caller} {i : ℕ}
      (hpc : ((s.agent t).pc = .enter i ∧ c = .second) ∨ ((s.agent t).pc = .enterClose i ∧ c = .close))
      (hfree : s.mutex = none) : Effect s t ((s.setMutex (some t)).goto t (.load c i))
  | receives {i q access : ℕ} {type : SyncType} (hpc : (s.agent t).pc = .request i)
      (hopen : s.server i = some q) : Effect s t ((s.receive q).goto t (.map i (s.answer access type)))
  | maps {i : ℕ} {d : Sync} (hpc : (s.agent t).pc = .map i d) :
      Effect s t (s.mapFd.goto t (.test i { d with shm := some s.mapped }))
  | mapsOnce {i : ℕ} {d : Sync} (hpc : (s.agent t).pc = .map i d) :
      Effect s t ((s.mapFd.unmapShm s.mapped).goto t (.test i d))
  | stores {i : ℕ} {d : Sync} {f : Field} (hpc : (s.agent t).pc = .store i d f) :
      Effect s t ((s.setEntry i (f.store (s.cache i) d)).goto t (f.next i d))
  | publishes {i : ℕ} {d : Sync} (hpc : (s.agent t).pc = .publish i d) :
      Effect s t ((s.setCount i 2).goto t
        (if (s.cache i).refcount = 0 ∧ d.refcount = 1 then .leave (.cached i) else .aborted))
  | leaves {h : Ref} (hpc : (s.agent t).pc = .leave h) : Effect s t ((s.setMutex none).goto t (.checkType h))
  | fails (hpc : (s.agent t).pc = .leaveFailed) : Effect s t ((s.setMutex none).goto t .idle)
  | decrements {k : After} {i fd : ℕ} {shm : Option ℕ}
      (hpc : (s.agent t).pc = .decrement k (.cached i) fd shm) :
      Effect s t ((s.setCount i ((s.cache i).refcount - 1)).goto t
        (k.dropped fd shm ((s.cache i).refcount - 1)))
  | unmaps {k : After} {fd m : ℕ} (hpc : (s.agent t).pc = .unmap k fd m) :
      Effect s t ((s.unmapShm m).goto t (.closeFd k fd))
  | closes {k : After} {fd : ℕ} (hpc : (s.agent t).pc = .closeFd k fd) :
      Effect s t ((s.closeFd fd).goto t k.next)
  | marks {i : ℕ} (hpc : (s.agent t).pc = .mark i) :
      Effect s t ((s.setEntry i { s.cache i with closed := true }).goto t (.saveFd (.handle i) (.cached i)))
  | shuts {i q : ℕ} (hpc : (s.agent t).pc = .closeHandle i) (hopen : s.server i = some q) :
      Effect s t ((s.shuts i).goto t (.leaveClose (some q)))
  | finishes {q : Option ℕ} (hpc : (s.agent t).pc = .leaveClose q) :
      Effect s t (((s.setMutex none).finish q).goto t .idle)

variable {s s' : State T} {t : T} {a : Answer}

theorem effect_of_next (h : s.next t a = some s') : Effect s t s' := by
  cases hpc : (s.agent t).pc <;> simp only [State.next, hpc] at h
  case idle | held | aborted => cases h
  case load c i =>
    cases h
    exact .moves (.load (.inl hpc))
  case increment c i val =>
    split at h
    next hsame =>
      cases h
      subst hsame
      exact .increments hpc
    next =>
      cases h
      exact .moves (.load (.inr ⟨val, hpc⟩))
  case look c i =>
    cases h
    cases hclosed : (s.cache i).closed with
    | true => exact .moves (.closed hpc hclosed)
    | false => exact .moves (.found hpc hclosed)
  case enter i =>
    obtain ⟨hfree, hsome⟩ := ite_none_right_eq_some.mp h
    cases hsome
    exact .enters (.inl ⟨hpc, rfl⟩) hfree
  case enterClose i =>
    obtain ⟨hfree, hsome⟩ := ite_none_right_eq_some.mp h
    cases hsome
    exact .enters (.inr ⟨hpc, rfl⟩) hfree
  case request i =>
    split at h
    next q access type hopen _ =>
      cases h
      exact .receives hpc hopen
    next =>
      cases h
      exact .moves (.refused hpc)
  case map i d =>
    split at h
    · split at h
      all_goals cases h
      · exact .moves (.without hpc)
      · exact .maps hpc
      · exact .mapsOnce hpc
    · cases h
      exact .moves (.without hpc)
  case test i d =>
    cases h
    split
    · exact .moves (.alone hpc)
    · rename_i hroom
      exact .moves (.claim hpc (not_not.mp (not_or.mp hroom).2))
  case store i d f =>
    cases h
    exact .stores hpc
  case publish i d =>
    cases h
    exact .publishes hpc
  case leave r =>
    cases h
    exact .leaves hpc
  case leaveFailed =>
    cases h
    exact .fails hpc
  case checkType r =>
    cases h
    split
    · exact .moves (.release (.inl hpc))
    · exact .moves (.typed hpc)
  case checkAccess r =>
    cases h
    split
    · exact .moves (.release (.inr (.inl hpc)))
    · exact .moves (.granted hpc)
  case saveFd k r =>
    cases h
    exact .moves (.saveFd hpc)
  case saveShm k r fd =>
    cases h
    exact .moves (.saveShm hpc)
  case decrement k r fd shm =>
    cases r with
    | cached i =>
      cases h
      exact .decrements hpc
    | stack d =>
      cases h
      exact .moves (.drop hpc)
  case unmap k fd m =>
    cases h
    exact .unmaps hpc
  case closeFd k fd =>
    cases h
    exact .closes hpc
  case mark i =>
    cases h
    exact .marks hpc
  case closeHandle i =>
    split at h
    next q hopen _ =>
      cases h
      exact .shuts hpc hopen
    next =>
      cases h
      exact .moves (.failed hpc)
  case leaveClose q =>
    cases h
    exact .finishes hpc

theorem effect_of_step {e : Event T} (h : s.step e = some s') :
    (∃ t, Effect s t s') ∨ ∃ i, s.server i = none ∧ s' = s.opens i := by
  cases e with
  | get t i type access =>
    obtain ⟨hpc, hsome⟩ := ite_none_right_eq_some.mp h
    cases hsome
    exact .inl ⟨t, .begins hpc⟩
  | release t =>
    simp only [State.step] at h
    split at h
    next r hpc =>
      cases h
      exact .inl ⟨t, .moves (.release (.inr (.inr hpc)))⟩
    next => cases h
  | close t i =>
    obtain ⟨hpc, hsome⟩ := ite_none_right_eq_some.mp h
    cases hsome
    exact .inl ⟨t, .moves (.close hpc)⟩
  | opens i =>
    obtain ⟨hnone, hsome⟩ := ite_none_right_eq_some.mp h
    cases hsome
    exact .inr ⟨i, hnone, rfl⟩
  | next t a => exact .inl ⟨t, effect_of_next h⟩

end WinePpc64.InprocSync
