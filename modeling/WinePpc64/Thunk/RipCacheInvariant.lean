import WinePpc64.Thunk.RipCache

namespace WinePpc64.Thunk.RipCache

open Event

def Event.completes (i : Index) : Event → Bool
  | .put rip _ => thunkRipCacheSlot rip = i
  | .flushSlot j => j = i
  | _ => false

def Event.begins (i : Index) : Event → Bool
  | .odd j => j = i
  | _ => false

def writes (i : Index) (log : List Event) : ℕ := log.countP (Event.begins i)

def stores (i : Index) (log : List Event) : ℕ := writes i log + log.countP (Event.completes i)

def holder (i : Index) : List Event → Option (Word × Fields)
  | [] => none
  | .put rip val :: log => if thunkRipCacheSlot rip = i then some (rip, val) else holder i log
  | .flushSlot j :: log => if j = i then none else holder i log
  | .flush :: _ => none
  | _ :: log => holder i log

def Holds (i : Index) (field : Fields) (log : List Event) : Prop :=
  match holder i log with
  | some (rip, val) => field = putValue rip val
  | none => field .rip = 0

def Writer.inside : Writer → Option Index
  | .putField rip _ _ _ => some (thunkRipCacheSlot rip)
  | .flushField i _ _ => some i
  | _ => none

def FlushedBelow (table : Index → Entry) (n : ℕ) : Prop :=
  ∀ j : Index, j.val < n → (table j).field .rip = 0

def WriterOk (table : Index → Entry) (log : List Event) : Writer → Prop
  | .held => True
  | .putLoad _ _ => True
  | .putOdd rip _ sq => (table (thunkRipCacheSlot rip)).seq = sq
  | .putField rip val sq rest =>
    (table (thunkRipCacheSlot rip)).seq = sq + 1 ∧ Odd (stores (thunkRipCacheSlot rip) log) ∧
      ∀ f ∉ rest, (table (thunkRipCacheSlot rip)).field f = putValue rip val f
  | .flushTest n => FlushedBelow table n
  | .flushLoad i => FlushedBelow table i
  | .flushOdd i sq => FlushedBelow table i ∧ (table i).seq = sq
  | .flushField i sq rest =>
    FlushedBelow table i ∧ (table i).seq = sq + 1 ∧ Odd (stores i log) ∧
      (.rip ∉ rest → (table i).field .rip = 0)

def Began (t : Tid) (rip : Word) (log mid : List Event) : Prop :=
  (∃ old, log = mid ++ .getStart t rip :: old) ∧ ∀ r, Event.getStart t r ∉ mid

def ReaderOk (table : Index → Entry) (log : List Event) (t : Tid) : Reader → Prop
  | .idle => True
  | .loadSeq rip => ∃ mid, Began t rip log mid
  | .loadField rip s1 rest out => ∃ new mid base, log = new ++ base ∧ Began t rip base mid ∧
      (∀ r, Event.getStart t r ∉ new) ∧
      s1 = BitVec.ofNat 32 (stores (thunkRipCacheSlot rip) base) ∧
      Even (stores (thunkRipCacheSlot rip) base) ∧
      stores (thunkRipCacheSlot rip) new ≤ 2 * writes (thunkRipCacheSlot rip) new ∧
      (stores (thunkRipCacheSlot rip) new = 0 →
        ∀ f ∉ rest, out f = (table (thunkRipCacheSlot rip)).field f)

structure Inv (s : State) : Prop where
  seq : ∀ i, (s.table i).seq = BitVec.ofNat 32 (stores i s.log)
  settled : ∀ i, (∀ t w, s.writer = some (t, w) → w.inside ≠ some i) →
    Even (stores i s.log) ∧ Holds i (s.table i).field s.log
  writer : ∀ t w, s.writer = some (t, w) → WriterOk s.table s.log w
  reader : ∀ t, ReaderOk s.table s.log t (s.reader t)

theorem mem_entryFields {f : Field} : f ∈ entryFields := by cases f <;> decide

variable {i : Index} {e : Event}

theorem stores_cons {log : List Event} :
    stores i (e :: log) =
      stores i log + (if e.begins i then 1 else 0) + (if e.completes i then 1 else 0) := by
  simp only [stores, writes, List.countP_cons]
  omega

theorem stores_append {xs ys : List Event} : stores i (xs ++ ys) = stores i xs + stores i ys := by
  simp only [stores, writes, List.countP_append]
  omega

theorem writes_cons {log : List Event} :
    writes i (e :: log) = writes i log + if e.begins i then 1 else 0 := by
  simp only [writes, List.countP_cons]

theorem isOdd_ofNat {n : ℕ} : isOdd (BitVec.ofNat 32 n) = true ↔ Odd n := by
  rw [isOdd, beq_iff_eq, Nat.odd_iff, ← BitVec.toNat_inj]
  simp only [BitVec.toNat_and, BitVec.toNat_ofNat]
  rw [show (1 : BitVec 32).toNat = 1 from rfl, Nat.and_one_is_mod]
  omega

variable {log : List Event} {i : Index} {e : Event}

theorem holder_skip (hc : e.completes i = false) (hf : e ≠ .flush) : holder i (e :: log) = holder i log := by
  cases e <;> simp_all [holder, completes]

theorem holds_skip {field : Fields} (hc : e.completes i = false) (hf : e ≠ .flush) :
    Holds i field (e :: log) ↔ Holds i field log := by
  rw [Holds, Holds, holder_skip hc hf]

theorem holds_rip_zero {field : Fields} (h : holder i log = none)
    (hz : field .rip = 0) : Holds i field log := by
  rw [Holds, h]; exact hz

theorem holder_split {rip : Word} {val : Fields} (h : holder i log = some (rip, val)) :
    ∃ newer older, log = newer ++ .put rip val :: older ∧ thunkRipCacheSlot rip = i ∧
      ∀ e ∈ newer, e.completes i = false ∧ e ≠ .flush := by
  induction log with
  | nil => simp [holder] at h
  | cons e log ih =>
    by_cases hs : e.completes i = false ∧ e ≠ .flush
    · rw [holder_skip hs.1 hs.2] at h
      obtain ⟨newer, older, rfl, hi, hn⟩ := ih h
      exact ⟨e :: newer, older, rfl, hi, by simpa using ⟨hs, hn⟩⟩
    cases e with
    | put r v =>
      simp only [completes, decide_eq_false_iff_not, ne_eq, reduceCtorEq, not_false_eq_true,
        and_true, not_not] at hs
      simp only [holder, hs, ↓reduceIte, Option.some.injEq, Prod.mk.injEq] at h
      obtain ⟨rfl, rfl⟩ := h
      exact ⟨[], log, rfl, hs, by simp⟩
    | flushSlot j =>
      simp only [completes, decide_eq_false_iff_not, ne_eq, reduceCtorEq, not_false_eq_true,
        and_true, not_not] at hs
      simp [holder, hs] at h
    | flush => simp [holder] at h
    | _ => simp [completes] at hs

end WinePpc64.Thunk.RipCache
