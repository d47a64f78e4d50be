import WinePpc64.Srw.Lock
import WinePpc64.Lib.Totals

namespace WinePpc64.Srw

open BitVec Lib State Thread

section Bits

variable {w : BitVec 16} {k : ℕ}

theorem toNat_or_one (h : w.toNat = 2 * k) : (w ||| 1).toNat = 2 * k + 1 := by
  have hor := Nat.two_pow_add_eq_or_of_lt (i := 1) (b := 1) (by decide) k
  rw [toNat_or, h]
  exact hor.symm

theorem toNat_and_not_one (h : w.toNat = 2 * k + 1) : (w &&& ~~~1).toNat = 2 * k := by
  have hclear : w &&& ~~~1 = BitVec.ofNat 16 (2 * k) := by
    apply eq_of_getLsbD_eq
    intro i hi
    rw [getLsbD_and, getLsbD_not, getLsbD_ofNat, BitVec.getLsbD, h]
    cases i with
    | zero => simp
    | succ i =>
      have hhalf : (2 * k + 1) / 2 = k := by omega
      simp [Nat.testBit_succ, hhalf, hi]
  rw [hclear, toNat_ofNat, Nat.mod_eq_of_lt (by omega)]

end Bits

def Pc.registered : Pc → Bool
  | .read (.acquire .exclusive) | .exchange (.acquire .exclusive) _ | .wait .exclusive _ | .asleep .exclusive => true
  | _ => false

def Pc.rouses : Pc → Bool
  | .read (.acquire .exclusive) | .exchange (.acquire .exclusive) _ | .wait .exclusive _ | .wakeSingle => true
  | _ => false

def Thread.waiting (x : Thread) : ℕ := if x.pc.registered then 1 else 0

def Thread.exclusives (x : Thread) : ℕ := if x.exclusive then 1 else 0

def Thread.Ok (x : Thread) : Prop :=
  match x.pc with
  | .read op | .exchange op _ => x.may op
  | .wait .exclusive seen => seen.owners ≠ 0
  | .wait .shared seen => seen.waiters ≠ 0
  | _ => True

def Pc.settled : Pc → Bool
  | .idle | .wakeSingle | .wakeAll => true
  | _ => false

variable {x : Thread}

theorem Thread.ok_of_settled (h : x.pc.settled = true) : x.Ok := by
  rw [Thread.Ok]
  cases hpc : x.pc <;> simp_all [Pc.settled]

theorem Thread.waiting_eq {pc : Pc} (h : x.pc = pc) : x.waiting = pc.registered.toNat := by
  rw [waiting, h]
  cases pc.registered <;> rfl

theorem Thread.waiting_of_settled (h : x.pc.settled = true) : x.waiting = 0 := by
  rw [waiting]
  cases hpc : x.pc <;> simp_all [Pc.settled, Pc.registered]

variable {T : Type} {op : Op} {u : T}

namespace State

variable [Fintype T] (s : State T)

def waiting : ℕ := total Thread.waiting s.thread

def exclusives : ℕ := total Thread.exclusives s.thread

def shareds : ℕ := total Thread.shared s.thread

def Within : Prop := s.waiting < 2 ^ 14 ∧ s.shareds < 2 ^ 16

instance : Decidable s.Within := inferInstanceAs (Decidable (_ ∧ _))

def Rousing : Prop :=
  s.word.owners = 0 → (∃ u, (s.thread u).pc = .asleep .exclusive) → ∃ v, (s.thread v).pc.rouses = true

def Sharing : Prop :=
  (∃ u, (s.thread u).pc = .asleep .shared) → s.word.waiters ≠ 0 ∨ ∃ v, (s.thread v).pc = .wakeAll

structure Inv : Prop where
  waiters : s.word.waiters.toNat = 2 * s.waiting + s.exclusives
  owners : s.word.owners.toNat = s.exclusives + s.shareds
  excludes : s.exclusives = 0 ∨ (s.exclusives = 1 ∧ s.shareds = 0)
  threads : ∀ t, (s.thread t).Ok
  rousing : s.Rousing
  sharing : s.Sharing

end State

section Put

variable [DecidableEq T] {s : State T} {t : T} {x : Thread} {w : Word}

theorem put_thread_self : (s.put t x w).thread t = x := Function.update_self _ _ _

theorem put_thread_ne (h : u ≠ t) : (s.put t x w).thread u = s.thread u := Function.update_of_ne h _ _

theorem threads_put (h : ∀ t, (s.thread t).Ok) (hx : x.Ok) (u : T) : ((s.put t x w).thread u).Ok := by
  by_cases hu : u = t
  · subst hu
    rwa [put_thread_self]
  · rw [put_thread_ne hu]
    exact h u

theorem rousing_put (h : s.Rousing) (hx : w.owners ≠ 0 ∨ x.pc.rouses = true ∨ (x.pc ≠ .asleep .exclusive ∧
    (s.thread t).pc.rouses = false ∧ (w.owners = 0 → s.word.owners = 0))) : (s.put t x w).Rousing := by
  rintro hfree ⟨u, hu⟩
  rcases hx with hne | hrouse | ⟨hawake, hnot, hwas⟩
  · exact absurd hfree hne
  · exact ⟨t, by rw [put_thread_self, hrouse]⟩
  have hut : u ≠ t := by
    rintro rfl
    rw [put_thread_self] at hu
    exact hawake hu
  rw [put_thread_ne hut] at hu
  obtain ⟨v, hv⟩ := h (hwas hfree) ⟨u, hu⟩
  have hvt : v ≠ t := by
    rintro rfl
    cases hnot.symm.trans hv
  exact ⟨v, by rw [put_thread_ne hvt, hv]⟩

theorem sharing_put (h : s.Sharing) (hx : w.waiters ≠ 0 ∨ x.pc = .wakeAll ∨ (x.pc ≠ .asleep .shared ∧
    (s.thread t).pc ≠ .wakeAll ∧ (w.waiters = 0 → s.word.waiters = 0))) : (s.put t x w).Sharing := by
  rintro ⟨u, hu⟩
  rcases hx with hne | hwake | ⟨hawake, hnot, hwas⟩
  · exact .inl hne
  · exact .inr ⟨t, by rw [put_thread_self, hwake]⟩
  have hut : u ≠ t := by
    rintro rfl
    rw [put_thread_self] at hu
    exact hawake hu
  rw [put_thread_ne hut] at hu
  refine (h ⟨u, hu⟩).imp (fun hno h0 => hno (hwas h0)) ?_
  rintro ⟨v, hv⟩
  have hvt : v ≠ t := by
    rintro rfl
    exact hnot hv
  exact ⟨v, by rw [put_thread_ne hvt, hv]⟩

variable [Fintype T]

theorem waiting_put : (s.put t x w).waiting + (s.thread t).waiting = s.waiting + x.waiting := total_update _ _ _ _

theorem exclusives_put : (s.put t x w).exclusives + (s.thread t).exclusives = s.exclusives + x.exclusives :=
  total_update _ _ _ _

theorem shareds_put : (s.put t x w).shareds + (s.thread t).shared = s.shareds + x.shared := total_update _ _ _ _

end Put

section Moves

variable {s : State T} {t : T} {pc : Pc}

structure Quiet (s : State T) (t : T) (pc : Pc) : Prop where
  registered : pc.registered = (s.thread t).pc.registered
  ok : ((s.thread t).goto pc).Ok
  rouses : s.word.owners ≠ 0 ∨ pc.rouses = true ∨ (pc ≠ .asleep .exclusive ∧ (s.thread t).pc.rouses = false)
  wakes : s.word.waiters ≠ 0 ∨ (pc ≠ .asleep .shared ∧ (s.thread t).pc ≠ .wakeAll)

theorem quiet_of_same {old : Pc} (hpc : (s.thread t).pc = old) (hreg : pc.registered = old.registered)
    (hrouse : pc.rouses = old.rouses) (hok : ((s.thread t).goto pc).Ok) (hne : ∀ mode, pc ≠ .asleep mode)
    (hold : old ≠ .wakeAll) : Quiet s t pc := by
  subst hpc
  refine ⟨hreg, hok, .inr ?_, .inr ⟨hne _, hold⟩⟩
  cases hr : (s.thread t).pc.rouses with
  | true => exact .inl (hrouse.trans hr)
  | false => exact .inr ⟨hne _, rfl⟩

theorem quiet_call (hidle : (s.thread t).pc = .idle) (hmay : (s.thread t).may op = true) :
    Quiet s t (start op) := by
  apply quiet_of_same hidle
  · rcases op with ⟨_ | _⟩ | _ | _ <;> rfl
  · rcases op with ⟨_ | _⟩ | _ | _ <;> rfl
  · rcases op with ⟨_ | _⟩ | _ | _ <;> trivial
  · rcases op with ⟨_ | _⟩ | _ | _ <;> simp [start]
  · nofun

theorem quiet_loop {w v : Word} (hpc : (s.thread t).pc = .read op ∨ (s.thread t).pc = .exchange op w)
    (hok : (s.thread t).Ok) : Quiet s t (.exchange op v) ∧ Quiet s t (.read op) := by
  have hmay : (s.thread t).may op = true := by
    rw [Thread.Ok] at hok
    rcases hpc with h | h <;> rw [h] at hok <;> exact hok
  rcases hpc with h | h <;> constructor <;> apply quiet_of_same h <;>
    first | exact hmay | (rcases op with ⟨_ | _⟩ | _ | _ <;> rfl) | simp

theorem quiet_wait {mode : Mode} {seen : Word} (hpc : (s.thread t).pc = .wait mode seen) (hok : (s.thread t).Ok) :
    (same mode seen s.word = true → Quiet s t (.asleep mode)) ∧ Quiet s t (.read (.acquire mode)) := by
  rw [Thread.Ok, hpc] at hok
  cases mode with
  | exclusive =>
    refine ⟨fun hsame => ?_, ⟨by rw [hpc]; rfl, rfl, .inr (.inl rfl), .inr ⟨by simp, by simp [hpc]⟩⟩⟩
    have howners : s.word.owners = seen.owners := of_decide_eq_true hsame
    exact ⟨by rw [hpc]; rfl, trivial, .inl (by rw [howners]; exact hok), .inr ⟨by simp, by simp [hpc]⟩⟩
  | shared =>
    have hnot : (s.thread t).pc.rouses = false := by rw [hpc]; rfl
    refine ⟨fun hsame => ?_, ⟨by rw [hpc]; rfl, rfl, .inr (.inr ⟨by simp, hnot⟩), .inr ⟨by simp, by simp [hpc]⟩⟩⟩
    have hword : s.word = seen := of_decide_eq_true hsame
    exact ⟨by rw [hpc]; rfl, trivial, .inr (.inr ⟨by simp, hnot⟩), .inl (by rw [hword]; exact hok)⟩

variable [Fintype T] [DecidableEq T]

theorem waiting_move (h : pc.registered = (s.thread t).pc.registered) : (s.move t pc).waiting = s.waiting := by
  have hput := waiting_put (s := s) (t := t) (x := (s.thread t).goto pc) (w := s.word)
  have hsame : ((s.thread t).goto pc).waiting = (s.thread t).waiting := by
    simp only [Thread.waiting, Thread.goto, h]
  rw [hsame] at hput
  exact Nat.add_right_cancel hput

theorem exclusives_move : (s.move t pc).exclusives = s.exclusives := by
  have hput := exclusives_put (s := s) (t := t) (x := (s.thread t).goto pc) (w := s.word)
  exact Nat.add_right_cancel hput

theorem shareds_move : (s.move t pc).shareds = s.shareds := by
  have hput := shareds_put (s := s) (t := t) (x := (s.thread t).goto pc) (w := s.word)
  exact Nat.add_right_cancel hput

theorem State.Inv.relocate (h : s.Inv) (hreg : pc.registered = (s.thread t).pc.registered)
    (hok : ((s.thread t).goto pc).Ok) (hrousing : (s.move t pc).Rousing) (hsharing : (s.move t pc).Sharing) :
    (s.move t pc).Inv := by
  refine ⟨?_, ?_, ?_, threads_put h.threads hok, hrousing, hsharing⟩
  · rw [waiting_move hreg, exclusives_move]
    exact h.waiters
  · rw [exclusives_move, shareds_move]
    exact h.owners
  · rw [exclusives_move, shareds_move]
    exact h.excludes

theorem State.Inv.move (h : s.Inv) (hq : Quiet s t pc) : (s.move t pc).Inv := by
  refine h.relocate hq.registered hq.ok (rousing_put h.rousing ?_) (sharing_put h.sharing ?_)
  · exact hq.rouses.imp_right (Or.imp_right fun hother => ⟨hother.1, hother.2, id⟩)
  · exact hq.wakes.imp_right fun hother => .inr ⟨hother.1, hother.2, id⟩

end Moves

section Totals

variable [Fintype T] (s : State T) (t : T)

theorem waiting_le : (s.thread t).waiting ≤ s.waiting := le_total _ _ t

theorem exclusives_le : (s.thread t).exclusives ≤ s.exclusives := le_total _ _ t

theorem shared_le : (s.thread t).shared ≤ s.shareds := le_total _ _ t

variable {s}

theorem State.Inv.free (h : s.Inv) (hfree : s.word.owners = 0) : s.exclusives = 0 ∧ s.shareds = 0 := by
  have hzero : s.exclusives + s.shareds = 0 := by
    rw [← h.owners, hfree]
    rfl
  omega

theorem State.Inv.unwaited (h : s.Inv) (hnone : s.word.waiters = 0) : s.waiting = 0 ∧ s.exclusives = 0 := by
  have hzero : 2 * s.waiting + s.exclusives = 0 := by
    rw [← h.waiters, hnone]
    rfl
  omega

theorem not_asleep_of_waiting (h : s.waiting = 0) : (s.thread t).pc ≠ .asleep .exclusive := by
  intro hpc
  have hle := waiting_le s t
  have hone : (s.thread t).waiting = 1 := waiting_eq hpc
  omega

end Totals

section Exchange

variable [Fintype T] [DecidableEq T] {s : State T} {t : T} {x : Thread} {w : Word}

variable (h : s.Inv)
include h

theorem State.Inv.put (hok : x.Ok)
    (hcount : ∀ r e c, r + (s.thread t).waiting = s.waiting + x.waiting →
      e + (s.thread t).exclusives = s.exclusives + x.exclusives → c + (s.thread t).shared = s.shareds + x.shared →
      w.waiters.toNat = 2 * r + e ∧ w.owners.toNat = e + c ∧ (e = 0 ∨ (e = 1 ∧ c = 0)))
    (hrousing : (s.put t x w).Rousing) (hsharing : (s.put t x w).Sharing) : (s.put t x w).Inv := by
  obtain ⟨hwaiters, howners, hexcludes⟩ := hcount _ _ _ (waiting_put) (exclusives_put)
    (shareds_put)
  exact ⟨hwaiters, howners, hexcludes, threads_put h.threads hok, hrousing, hsharing⟩

theorem State.Inv.takeExclusive (hfree : s.word.owners = 0) {v : BitVec 16}
    (hv : v.toNat + 2 * (s.thread t).waiting = s.word.waiters.toNat) :
    (s.put t (s.thread t).takeExclusive ⟨v ||| 1, 1⟩).Inv := by
  obtain ⟨hexclusives, hshareds⟩ := h.free hfree
  have hwaiters := h.waiters
  have heven : v.toNat = 2 * (s.waiting - (s.thread t).waiting) := by omega
  have hodd := toNat_or_one heven
  refine h.put (ok_of_settled rfl) ?_ ?_ ?_
  · intro r e c hr he hc
    have hone : (1 : BitVec 16).toNat = 1 := rfl
    have hxle := exclusives_le s t
    have hw0 : (s.thread t).takeExclusive.waiting = 0 := rfl
    have hx1 : (s.thread t).takeExclusive.exclusives = 1 := rfl
    have hs0 : (s.thread t).takeExclusive.shared = (s.thread t).shared := rfl
    dsimp only
    omega
  · exact rousing_put h.rousing (.inl (by simp))
  · refine sharing_put h.sharing (.inl fun h0 => ?_)
    have hv0 : (v ||| 1).toNat = 0 := congrArg BitVec.toNat h0
    omega

theorem State.Inv.takeShared (hnone : s.word.waiters = 0) (hpc : (s.thread t).pc ≠ .wakeAll)
    (hroom : s.shareds + 1 < 2 ^ 16) :
    (s.put t (s.thread t).takeShared { s.word with owners := s.word.owners + 1 }).Inv := by
  obtain ⟨hwaiting, hexclusives⟩ := h.unwaited hnone
  have hwaiters := h.waiters
  have howners := h.owners
  have hadd : (s.word.owners + 1).toNat = s.word.owners.toNat + 1 := by
    exact Nat.mod_eq_of_lt (by have hone : (1 : BitVec 16).toNat = 1 := rfl; omega)
  refine h.put (ok_of_settled rfl) ?_ ?_ ?_
  · intro r e c hr he hc
    have hw0 : (s.thread t).takeShared.waiting = 0 := rfl
    have hx0 : (s.thread t).takeShared.exclusives = (s.thread t).exclusives := rfl
    have hs1 : (s.thread t).takeShared.shared = (s.thread t).shared + 1 := rfl
    dsimp only
    omega
  · refine rousing_put h.rousing (.inl fun h0 => ?_)
    have h0' : (s.word.owners + 1).toNat = 0 := congrArg BitVec.toNat h0
    omega
  · exact sharing_put h.sharing (.inr (.inr ⟨by simp [Thread.takeShared], hpc, id⟩))

theorem State.Inv.leaveExclusive (hheld : (s.thread t).exclusive = true)
    (hpc : (s.thread t).waiting = 0) :
    (s.put t ((s.thread t).leaveExclusive (if s.word.waiters &&& ~~~1 ≠ 0 then .wakeSingle else .wakeAll))
      ⟨s.word.waiters &&& ~~~1, 0⟩).Inv := by
  have hx1 : (s.thread t).exclusives = 1 := by rw [Thread.exclusives, if_pos hheld]
  have hxle := exclusives_le s t
  have hwaiters := h.waiters
  have hexcludes := h.excludes
  have hclear : (s.word.waiters &&& ~~~1).toNat = 2 * s.waiting := toNat_and_not_one (by omega)
  set pc : Pc := if s.word.waiters &&& ~~~1 ≠ 0 then .wakeSingle else .wakeAll with hpc'
  have hsettled : ((s.thread t).leaveExclusive pc).pc.settled = true := by
    rw [hpc']
    split <;> rfl
  have hw0 := waiting_of_settled hsettled
  have hx0 : ((s.thread t).leaveExclusive pc).exclusives = 0 := rfl
  have hs0 : ((s.thread t).leaveExclusive pc).shared = (s.thread t).shared := rfl
  refine h.put (ok_of_settled hsettled) ?_ ?_ ?_
  · intro r e c hr he hc
    have hzero : (0 : BitVec 16).toNat = 0 := rfl
    dsimp only
    omega
  · by_cases hnone : s.word.waiters &&& ~~~1 = 0
    · -- without exclusive waiters nobody sleeps who would have to be roused
      rintro - ⟨u, hu⟩
      have hwaiting : s.waiting = 0 := by
        have h0 := congrArg BitVec.toNat hnone
        rw [hclear] at h0
        exact (Nat.mul_eq_zero.mp h0).resolve_left (by decide)
      by_cases hut : u = t
      · subst hut
        rw [put_thread_self, hpc', if_neg (by simpa using hnone)] at hu
        cases hu
      · rw [put_thread_ne hut] at hu
        exact absurd hu (not_asleep_of_waiting u hwaiting)
    · refine rousing_put h.rousing (.inr (.inl ?_))
      rw [hpc', if_pos hnone]
      rfl
  · refine sharing_put h.sharing ?_
    by_cases hnone : s.word.waiters &&& ~~~1 = 0
    · exact .inr (.inl (by rw [Thread.leaveExclusive, hpc', if_neg (by simpa using hnone)]))
    · exact .inl hnone

theorem State.Inv.leaveShared (hheld : 0 < (s.thread t).shared) (hw : (s.thread t).waiting = 0)
    (hpc : (s.thread t).pc ≠ .wakeAll) :
    (s.put t ((s.thread t).leaveShared (if s.word.owners - 1 = 0 then .wakeSingle else .idle))
      { s.word with owners := s.word.owners - 1 }).Inv := by
  have hsle := shared_le s t
  have hwaiters := h.waiters
  have howners := h.owners
  have hexcludes := h.excludes
  have hsub : (s.word.owners - 1).toNat = s.word.owners.toNat - 1 := by
    have hone : (1 : BitVec 16).toNat = 1 := rfl
    rw [toNat_sub_of_le, hone]
    rw [le_def]
    omega
  set pc : Pc := if s.word.owners - 1 = 0 then .wakeSingle else .idle with hpc'
  have hsettled : ((s.thread t).leaveShared pc).pc.settled = true := by
    rw [hpc']
    split <;> rfl
  have hw0 := waiting_of_settled hsettled
  have hx0 : ((s.thread t).leaveShared pc).exclusives = (s.thread t).exclusives := rfl
  have hs0 : ((s.thread t).leaveShared pc).shared = (s.thread t).shared - 1 := rfl
  refine h.put (ok_of_settled hsettled) ?_ ?_ ?_
  · intro r e c hr he hc
    dsimp only
    omega
  · refine rousing_put h.rousing ?_
    by_cases hfree : s.word.owners - 1 = 0
    · exact .inr (.inl (by rw [Thread.leaveShared, hpc', if_pos hfree]; rfl))
    · exact .inl hfree
  · refine sharing_put h.sharing (.inr (.inr ⟨?_, hpc, id⟩))
    rw [Thread.leaveShared, hpc']
    split <;> simp

omit h

theorem room_of_within (hw : (s.put t x w).Within) (hx : x.shared = (s.thread t).shared + 1) :
    s.shareds + 1 < 2 ^ 16 := by
  have htotal := shareds_put (s := s) (t := t) (x := x) (w := w)
  have hlt := hw.2
  omega

theorem State.Inv.exchange (h : s.Inv) (hpc : (s.thread t).pc = .exchange op s.word)
    (hw : (s.put t ((s.thread t).commit op (attempt s.word op).1 (attempt s.word op).2)
      (attempt s.word op).1).Within) :
    (s.put t ((s.thread t).commit op (attempt s.word op).1 (attempt s.word op).2) (attempt s.word op).1).Inv := by
  have hok := h.threads t
  rw [Thread.Ok, hpc] at hok
  have hawake : (s.thread t).pc ≠ .wakeAll := by simp [hpc]
  have hwaiters := h.waiters
  cases op with
  | acquire mode =>
    cases mode with
    | exclusive =>
      by_cases hfree : s.word.owners = 0
      · have hone : (s.thread t).waiting = 1 := waiting_eq hpc
        have hle := waiting_le s t
        have hsub : (s.word.waiters - 2).toNat = s.word.waiters.toNat - 2 := by
          have htwo : (2 : BitVec 16).toNat = 2 := rfl
          rw [toNat_sub_of_le, htwo]
          rw [le_def]
          omega
        simp only [attempt, if_pos hfree]
        exact h.takeExclusive hfree (by omega)
      · simp only [attempt, if_neg hfree]
        exact h.move ⟨by rw [hpc]; rfl, hfree, .inr (.inl rfl), .inr ⟨by simp, hawake⟩⟩
    | shared =>
      by_cases hnone : s.word.waiters = 0
      · simp only [attempt, if_pos hnone] at hw ⊢
        exact h.takeShared hnone hawake (room_of_within hw rfl)
      · simp only [attempt, if_neg hnone]
        exact h.move (quiet_of_same hpc rfl rfl hnone nofun nofun)
  | tryAcquire mode =>
    have hzero : (s.thread t).waiting = 0 := waiting_eq hpc
    cases mode with
    | exclusive =>
      by_cases hfree : s.word.owners = 0
      · simp only [attempt, if_pos hfree]
        exact h.takeExclusive hfree (by omega)
      · simp only [attempt, if_neg hfree]
        exact h.move (quiet_of_same hpc rfl rfl (ok_of_settled rfl) nofun nofun)
    | shared =>
      by_cases hnone : s.word.waiters = 0
      · simp only [attempt, if_pos hnone] at hw ⊢
        exact h.takeShared hnone hawake (room_of_within hw rfl)
      · simp only [attempt, if_neg hnone]
        exact h.move (quiet_of_same hpc rfl rfl (ok_of_settled rfl) nofun nofun)
  | release mode =>
    have hzero : (s.thread t).waiting = 0 := waiting_eq hpc
    cases mode with
    | exclusive => exact h.leaveExclusive hok hzero
    | shared => exact h.leaveShared (of_decide_eq_true hok) hzero hawake

theorem State.Inv.enter (h : s.Inv) (hpc : (s.thread t).pc = .enter)
    (hw : (s.put t ((s.thread t).goto (.read (.acquire .exclusive)))
      { s.word with waiters := s.word.waiters + 2 }).Within) :
    (s.put t ((s.thread t).goto (.read (.acquire .exclusive)))
      { s.word with waiters := s.word.waiters + 2 }).Inv := by
  have hzero : (s.thread t).waiting = 0 := waiting_eq hpc
  have hone : ((s.thread t).goto (.read (.acquire .exclusive))).waiting = 1 := rfl
  have hsame : ((s.thread t).goto (.read (.acquire .exclusive))).exclusives = (s.thread t).exclusives := rfl
  have hsame' : ((s.thread t).goto (.read (.acquire .exclusive))).shared = (s.thread t).shared := rfl
  have hwaiters := h.waiters
  have howners := h.owners
  have hexcludes := h.excludes
  have htotal := waiting_put (s := s) (t := t) (x := (s.thread t).goto (.read (.acquire .exclusive)))
    (w := { s.word with waiters := s.word.waiters + 2 })
  have hlt := hw.1
  have hadd : (s.word.waiters + 2).toNat = s.word.waiters.toNat + 2 := by
    have htwo : (2 : BitVec 16).toNat = 2 := rfl
    exact Nat.mod_eq_of_lt (by omega)
  refine h.put rfl ?_ (rousing_put h.rousing (.inr (.inl rfl))) (sharing_put h.sharing (.inl fun h0 => ?_))
  · intro r e c hr he hc
    dsimp only
    omega
  · have h0' : (s.word.waiters + 2).toNat = 0 := congrArg BitVec.toNat h0
    omega

end Exchange

section Shared

variable {s : State T}

theorem rouseShared_pc : (s.rouseShared.thread u).pc =
    if (s.thread u).pc = .asleep .shared then .read (.acquire .shared) else (s.thread u).pc := by
  rw [rouseShared]
  dsimp only
  split <;> rfl

variable [Fintype T]

theorem rouseShared_total {f : Thread → ℕ} (hf : ∀ x, x.pc = .asleep .shared → f (x.goto (.read (.acquire .shared))) = f x) :
    total f s.rouseShared.thread = total f s.thread := by
  apply total_congr
  intro u
  rw [rouseShared]
  dsimp only
  split
  · rename_i hu
    exact hf _ hu
  · rfl

theorem State.Inv.rouseShared (h : s.Inv) : s.rouseShared.Inv := by
  have hwaiting : s.rouseShared.waiting = s.waiting := by
    apply rouseShared_total
    intro x hx
    rw [Thread.waiting, Thread.waiting, hx]
    rfl
  have hexclusives : s.rouseShared.exclusives = s.exclusives := rouseShared_total fun _ _ => rfl
  have hshareds : s.rouseShared.shareds = s.shareds := rouseShared_total fun _ _ => rfl
  refine ⟨?_, ?_, ?_, fun u => ?_, ?_, ?_⟩
  · rw [hwaiting, hexclusives]
    exact h.waiters
  · rw [hexclusives, hshareds]
    exact h.owners
  · rw [hexclusives, hshareds]
    exact h.excludes
  · rw [State.rouseShared]
    dsimp only
    split
    · rfl
    · exact h.threads u
  · rintro hfree ⟨u, hu⟩
    rw [rouseShared_pc] at hu
    split at hu
    · cases hu
    obtain ⟨v, hv⟩ := h.rousing hfree ⟨u, hu⟩
    refine ⟨v, ?_⟩
    rw [rouseShared_pc, if_neg]
    · exact hv
    · intro hasleep
      rw [hasleep] at hv
      cases hv
  · rintro ⟨u, hu⟩
    rw [rouseShared_pc] at hu
    split at hu
    · cases hu
    · contradiction

end Shared

section Wakes

variable [Fintype T] [DecidableEq T] {s : State T} {t : T}

theorem State.Inv.wakeNone (h : s.Inv) (hpc : (s.thread t).pc = .wakeSingle)
    (hnone : ¬ ∃ u, (s.thread u).pc = .asleep .exclusive) : (s.move t .idle).Inv := by
  refine h.relocate (by rw [hpc]; rfl) (ok_of_settled rfl) ?_
    (sharing_put h.sharing (.inr (.inr ⟨by simp [goto], by simp [hpc], id⟩)))
  · rintro - ⟨u, hu⟩
    by_cases hut : u = t
    · subst hut
      rw [State.move, put_thread_self] at hu
      cases hu
    · rw [State.move, put_thread_ne hut] at hu
      exact absurd ⟨u, hu⟩ hnone

theorem State.Inv.wakeOne (h : s.Inv) (hpc : (s.thread t).pc = .wakeSingle)
    (hu : (s.thread u).pc = .asleep .exclusive) :
    ((s.move u (.read (.acquire .exclusive))).move t .idle).Inv := by
  have hut : u ≠ t := by
    rintro rfl
    cases hpc.symm.trans hu
  have hwoken : (s.move u (.read (.acquire .exclusive))).Inv :=
    h.move ⟨by rw [hu]; rfl, rfl, .inr (.inl rfl), .inr ⟨by simp, by simp [hu]⟩⟩
  have hpc' : ((s.move u (.read (.acquire .exclusive))).thread t).pc = .wakeSingle := by
    rw [State.move, put_thread_ne hut.symm, hpc]
  refine hwoken.relocate (by rw [hpc']; rfl) (ok_of_settled rfl) ?_
    (sharing_put hwoken.sharing (.inr (.inr ⟨by simp [goto], by simp [hpc'], id⟩)))
  rintro - -
  refine ⟨u, ?_⟩
  rw [State.move, put_thread_ne hut, State.move, put_thread_self]
  rfl

theorem State.Inv.wakeAll (h : s.Inv) (hpc : (s.thread t).pc = .wakeAll) : (s.rouseShared.move t .idle).Inv := by
  have hpc' : (s.rouseShared.thread t).pc = .wakeAll := by
    rw [rouseShared_pc, hpc]
    rfl
  refine h.rouseShared.relocate (by rw [hpc']; rfl) (ok_of_settled rfl)
    (rousing_put h.rouseShared.rousing (.inr (.inr ⟨by simp [goto], by rw [hpc']; rfl, id⟩))) ?_
  rintro ⟨u, hu⟩
  by_cases hut : u = t
  · subst hut
    rw [State.move, put_thread_self] at hu
    cases hu
  rw [State.move, put_thread_ne hut, rouseShared_pc] at hu
  split at hu
  · cases hu
  · contradiction

end Wakes

end WinePpc64.Srw
