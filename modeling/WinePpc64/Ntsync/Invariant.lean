import WinePpc64.Lib.Ledger
import WinePpc64.Ntsync.Model

namespace WinePpc64.Ntsync

variable {Sem Tid : Type} [DecidableEq Sem] [DecidableEq Tid]

def TryPc.Holds (objs : List Sem) : TryPc Sem → Sem → Prop
  | .lock todo, x => x ∈ objs ∧ x ∉ todo
  | .check _, x | .claim, x | .take _, x => x ∈ objs
  | .unlock todo, x => x ∈ todo

def Pc.Holds (s : State Sem Tid) : Pc Sem → Sem → Prop
  | .sect x _ .hint, y | .sect x _ (.body _), y | .sect x _ (.wakeAll _), y | .sect x _ (.scan _ _), y
  | .sect x _ (.unlock _), y => y = x
  | .sect x _ (.tryAll q p _), y => y = x ∨ p.Holds (s.unlocked q (some x)) y
  | .waitAll q (.tryAll p), y => p.Holds (s.unlocked q none) y
  | _, _ => False

def Pc.holdsMutex : Pc Sem → Bool
  | .sect _ _ .devLock | .sect _ _ (.body true) | .sect _ _ (.wakeAll _) | .sect _ _ (.tryAll _ _ _)
  | .sect _ _ (.scan true _) | .sect _ _ (.unlock true) | .sect _ _ .unlockMutex => true
  | .waitAll _ (.inc _) | .waitAll _ (.flag _ _) | .waitAll _ (.add _ _) | .waitAll _ (.tryAll _)
  | .waitAll _ .unlock | .waitAll _ (.del _) | .waitAll _ (.dec _ _) | .waitAll _ (.clear _ _)
  | .waitAll _ .finish => true
  | _ => false

def Pc.Offers : Pc Sem → Sem → Prop
  | .sect x _ (.scan _ (.offer _)), y => y = x
  | _, _ => False

def Pc.Lends : Pc Sem → Sem → Prop
  | .sect x _ (.scan _ (.offer _)), y | .sect x _ (.scan _ (.done _)), y => y = x
  | _, _ => False

def Pc.own : Pc Sem → Option ℕ
  | .sect _ (.queue q _) _ | .sect _ (.scan q _) _ | .sect _ (.unqueue q _) _ => some q
  | .waitAny q _ | .waitAll q _ => some q
  | _ => none

def Pc.AnyQueued : Pc Sem → ℕ → Prop
  | .waitAny _ (.queue i), j => j < i
  | .sect _ (.queue _ i) (.unlock _), j | .sect _ (.queue _ i) .unlockMutex, j => j ≤ i
  | .sect _ (.queue _ i) _, j => j < i
  | .waitAny _ (.check _), _ | .waitAny _ .sleep, _ | .sect _ (.scan _ _) _, _ => True
  | .waitAny _ (.unqueue i), j => i ≤ j
  | .sect _ (.unqueue _ i) (.unlock _), j | .sect _ (.unqueue _ i) .unlockMutex, j => i < j
  | .sect _ (.unqueue _ i) _, j => i ≤ j
  | _, _ => False

def AllPc.Queued (objs : List Sem) : AllPc Sem → Sem → Prop
  | .lock, _ | .finish, _ => False
  | .inc rest, x => x ∈ objs ∧ x ∉ rest
  | .flag y rest, x | .add y rest, x => x ∈ objs ∧ x ∉ y :: rest
  | .tryAll _, x | .unlock, x | .sleep, x | .relock, x => x ∈ objs
  | .del rest, x | .dec _ rest, x | .clear _ rest, x => x ∈ rest

def Pc.pend : Pc Sem → Sem → ℕ
  | .waitAll _ (.flag y _), x | .waitAll _ (.add y _), x | .waitAll _ (.dec y _), x => if x = y then 1 else 0
  | _, _ => 0

def State.pend (s : State Sem Tid) (x : Sem) : ℕ :=
  match s.mutex with
  | none => 0
  | some t => (s.pc t).pend x

def TryPc.Ok (s : State Sem Tid) (q : ℕ) (locked : Option Sem) : TryPc Sem → Prop
  | .lock todo => todo <:+ s.unlocked q locked
  | .check rest => rest <:+ (s.queue q).objs ∧
      ∀ x ∈ (s.queue q).objs, x ∉ rest → (s.word x).count ≠ 0
  | .claim => ∀ x ∈ (s.queue q).objs, (s.word x).count ≠ 0
  | .take rest => rest <:+ (s.queue q).objs ∧ ∀ x ∈ rest, (s.word x).count ≠ 0
  | .unlock todo => todo <:+ s.unlocked q locked

def AllPc.Ok (s : State Sem Tid) (q : ℕ) : AllPc Sem → Prop
  | .inc rest | .del rest => rest <:+ (s.queue q).objs
  | .flag x rest => x :: rest <:+ (s.queue q).objs ∧ s.allWaiters x = []
  | .add x rest => x :: rest <:+ (s.queue q).objs
  | .dec x rest => x :: rest <:+ (s.queue q).objs
  | .clear x rest => x :: rest <:+ (s.queue q).objs ∧ s.allHint x = 0
  | .tryAll p => p.Ok s q none
  | _ => True

def Body.wakes : Body → Bool
  | .release _ | .scan _ _ => true
  | .queue _ _ | .unqueue _ _ => false

def Body.Ok (s : State Sem Tid) (x : Sem) : Body → Prop
  | .release _ => True
  | .queue q i | .scan q i | .unqueue q i => (s.queue q).all = false ∧ (s.queue q).objs[i]? = some x

def SectPc.Ok (s : State Sem Tid) (x : Sem) (wakes : Bool) : SectPc Sem → Prop
  | .wakeAll qs => wakes = true ∧ ∀ q ∈ qs, q ∈ s.allWaiters x
  | .tryAll q p qs => wakes = true ∧ (∀ q' ∈ q :: qs, q' ∈ s.allWaiters x) ∧ p.Ok s q (some x)
  | .scan _ (.take rest) | .scan _ (.offer rest) | .scan _ (.done rest) =>
    wakes = true ∧ rest <:+ s.anyWaiters x
  | _ => True

def Pc.Ok (s : State Sem Tid) : Pc Sem → Prop
  | .sect x b p => b.Ok s x ∧ p.Ok s x b.wakes
  | .waitAny q _ => (s.queue q).all = false
  | .waitAll q p => (s.queue q).all = true ∧ p.Ok s q
  | _ => True

def State.ledger (e : Env Sem) (s : State Sem Tid) (x : Sem) : Lib.Ledger :=
  ⟨(s.word x).count, (s.loan x).toNat, s.log.countP fun d => d.1 = x,
    e.initial x + s.released x⟩

def State.entries (s : State Sem Tid) (x : Sem) : ℕ := (s.anyWaiters x).length + (s.allWaiters x).length

structure Inv (e : Env Sem) (s : State Sem Tid) : Prop where
  owner : ∀ x t, s.owner x = some t ↔ (s.pc t).Holds s x
  mutex : ∀ t, s.mutex = some t ↔ (s.pc t).holdsMutex = true
  loan : ∀ x, s.loan x = true ↔ ∃ t, (s.pc t).Offers x
  hold : ∀ x, (s.word x).hold = true ↔ ∃ t, (s.pc t).Lends x
  noFastpath : ∀ x, (s.word x).noFastpath = false
  balanced : ∀ x, (s.ledger e x).Balanced (e.max x)
  waiters : ∀ x, (s.word x).waiters = s.entries x
  hint : ∀ x, s.allHint x = (s.allWaiters x).length + s.pend x
  flag : ∀ x, (s.word x).waitAll = true ∨ s.allHint x = 0 ∨
    ∃ t q rest, s.pc t = .waitAll q (.flag x rest)
  nodup : ∀ q, (s.queue q).all = true → (s.queue q).objs.Nodup
  ownFresh : ∀ t q, (s.pc t).own = some q → q < s.fresh
  ownInj : ∀ t t' q, (s.pc t).own = some q → (s.pc t').own = some q → t = t'
  any : ∀ t q j x, (s.pc t).own = some q → (s.pc t).AnyQueued j → (s.queue q).objs[j]? = some x →
    (q, j) ∈ s.anyWaiters x
  all : ∀ t q p x, s.pc t = .waitAll q p → p.Queued (s.queue q).objs x → q ∈ s.allWaiters x
  allOwner : ∀ q x, q ∈ s.allWaiters x → ∃ t p, s.pc t = .waitAll q p ∧ p.Queued (s.queue q).objs x
  allNodup : ∀ x, (s.allWaiters x).Nodup
  ok : ∀ t, (s.pc t).Ok s
  warned : s.warned = false

def Guard (e : Env Sem) (s : State Sem Tid) (p : Pc Sem) : Eff Sem → Prop
  | .skip | .lockMutex | .newQueue _ _ => True
  | .unlockMutex => p.holdsMutex = true
  | .lockObj x => s.owner x = none
  | .unlockObj x => p.Holds s x
  | .fastAcquire x => (s.word x).waitAll = false ∧ (s.word x).count ≠ 0
  | .addCount x n => (s.word x).count + n ≤ e.max x ∧
      (p.Holds s x ∧ ¬ p.Lends x ∨ (s.word x).hold = false ∧ (s.word x).waitAll = false)
  | .takeHold x => p.Holds s x ∧ (s.word x).count ≠ 0 ∧ ¬ p.Lends x
  | .place x q i => p.Offers x ∧ (q, i) ∈ s.anyWaiters x ∧ (s.queue q).signaled = none
  | .holdDone x => p.Lends x ∧ ¬ p.Offers x
  | .giveBack x => p.Offers x
  | .claimAll q => (s.queue q).signaled = none
  | .takeAll x _ => p.Holds s x ∧ (s.word x).count ≠ 0
  | .warn => False
  | .queueAny x q i => p.Holds s x ∧ p.own = some q ∧ (s.queue q).all = false ∧
      (s.queue q).objs[i]? = some x
  | .unqueueAny x q i => p.Holds s x ∧ p.own = some q ∧ (q, i) ∈ s.anyWaiters x
  | .incHint _ => p.holdsMutex = true ∧ ∀ x, p.pend x = 0
  | .setFlag x => ∃ q rest, p = .waitAll q (.flag x rest)
  | .queueAll x q => ∃ rest, p = .waitAll q (.add x rest)
  | .unqueueAll x q => ∃ rest, p = .waitAll q (.del (x :: rest))
  | .decHint x => ∃ q rest, p = .waitAll q (.dec x rest)
  | .clearFlag x => ∃ q rest, p = .waitAll q (.clear x rest)

end WinePpc64.Ntsync
