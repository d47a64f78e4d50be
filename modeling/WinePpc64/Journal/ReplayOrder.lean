import WinePpc64.Journal.LwwScan

namespace WinePpc64.Journal

variable {lev : Levers} {t : Tables} {rt : Runtime} {b : Bytes} {len : ℕ} {d : JgDef} {st : Replay}

def accepted (t : Tables) (b : Bytes) (len : ℕ) : ℕ → ℕ → List ℕ
  | 0, _ => []
  | n + 1, off =>
    if off + 8 ≤ len ∧ checkRecord t b len off = none then
      off :: accepted t b len n (off + b.recSize off)
    else []

def stopAt (t : Tables) (b : Bytes) (len : ℕ) : ℕ → ℕ → ℕ × Option Drop
  | 0, off => (off, none)
  | n + 1, off =>
    if off + 8 ≤ len then
      match checkRecord t b len off with
      | some e => (off, some e)
      | none => stopAt t b len n (off + b.recSize off)
    else (off, none)

theorem replayLoop_eq (scan : Lww) (n off : ℕ) (st : Replay) :
    replayLoop lev t rt b len scan n off st =
      ⟨(stopAt t b len n off).1, (stopAt t b len n off).2,
        (accepted t b len n off).foldl (fun st x => replayRecord lev t rt b scan x st) st⟩ := by
  induction n generalizing off st with
  | zero => rfl
  | succ n ih =>
    unfold replayLoop stopAt accepted
    split_ifs with hlen hacc hacc
    · rw [hacc.2]
      exact ih _ _
    · cases hc : checkRecord t b len off with
      | none => exact absurd ⟨hlen, hc⟩ hacc
      | some e => rfl
    · exact absurd hacc.1 hlen
    · rfl

theorem checkRecord_size {off : ℕ} (h : checkRecord t b len off = none) :
    8 ≤ b.recSize off ∧ off + b.recSize off ≤ len := by
  unfold checkRecord at h
  split_ifs at h with hc
  all_goals omega

theorem checkRecord_dvd {off : ℕ} (h : checkRecord t b len off = none) : 8 ∣ b.recSize off := by
  unfold checkRecord at h
  split_ifs at h with hc hslot hshape
  · split at h
    · cases h
    · split_ifs at h with hrec
      rw [hrec]
      exact recBytes_dvd
  · have hrec : b.recSize off = journalRecBytes (b.shape off) := by
      by_contra hne
      exact hc (.inr (.inr (.inr (.inr ⟨hshape, .inr (.inr hne)⟩))))
    rw [hrec]
    exact journalRecBytes_dvd

theorem rowAt_eq_some {off g : ℕ} (h : t.rowAt b off = some (g, d)) :
    b.shape off = jshGen ∧ t.gen (b.iface off) (b.slot off) = some (g, d) ∧
      b.recSize off = (jgLayoutCompute d).recBytes := by
  unfold Tables.rowAt at h
  split_ifs at h with hc
  obtain ⟨hgen, hsize⟩ := Option.filter_eq_some_iff.mp h
  exact ⟨hc.1, hgen, by simpa using hsize⟩

theorem setterAt_eq_some {off g : ℕ} (h : t.setterAt b off = some (g, d)) :
    t.rowAt b off = some (g, d) ∧ d.lww ≠ .none := by
  obtain ⟨hrow, hlww⟩ := Option.filter_eq_some_iff.mp h
  exact ⟨hrow, by simpa using hlww⟩

theorem lt_length_of_slotAt {s : Com.Surface} {iface slot : ℕ} {sl : Com.Slot}
    (h : s.slotAt iface slot = some sl) : iface < s.ifaces.length := by
  obtain ⟨itf, hitf, _⟩ := Option.bind_eq_some_iff.mp h
  exact (List.getElem?_eq_some_iff.mp hitf).1

theorem checkRecord_rowAt {off g : ℕ} (h : t.rowAt b off = some (g, d))
    (hsize : 8 ≤ b.recSize off) (hlen : off + b.recSize off ≤ len) :
    checkRecord t b len off = none := by
  obtain ⟨hshape, hgen, hrec⟩ := rowAt_eq_some h
  obtain ⟨sl, hslot, hcur⟩ := t.gen_curated hgen
  have hiface := lt_length_of_slotAt hslot
  have hmax := curatedShape_recBytes hcur
  unfold checkRecord
  rw [if_neg, if_neg (by simp [hslot]), hgen]
  · simp [hrec]
  · rw [not_or, not_or, not_or, not_or]
    exact ⟨by omega, by omega, by omega, by omega, fun hne => hne.1 hshape⟩

theorem accepted_isPrefix (t : Tables) (b : Bytes) (len n off : ℕ) :
    ∃ post, starts b len n off = accepted t b len n off ++ post ∧
    ∀ y ∈ post.head?, t.setterAt b y = none := by
  induction n generalizing off with
  | zero => exact ⟨[], rfl, by simp⟩
  | succ n ih =>
    unfold accepted
    split_ifs with hacc
    · obtain ⟨hsize, hfit⟩ := checkRecord_size hacc.2
      obtain ⟨post, hpost, hhead⟩ := ih (off + b.recSize off)
      refine ⟨post, ?_, hhead⟩
      rw [starts, if_pos ⟨hacc.1, hsize, hfit⟩, hpost, List.cons_append]
    · unfold starts
      split_ifs with hs
      · refine ⟨_, rfl, fun y hy => ?_⟩
        obtain rfl : off = y := by simpa using hy
        by_contra hset
        obtain ⟨⟨g, d⟩, hg⟩ := Option.ne_none_iff_exists'.mp hset
        exact hacc ⟨hs.1, checkRecord_rowAt (setterAt_eq_some hg).1 hs.2.1 hs.2.2⟩
      · exact ⟨[], rfl, by simp⟩

def emit (t : Tables) (rt : Runtime) (b : Bytes) (dead : ℕ → Bool) : List ℕ → Option Word → List Call
  | [], _ => []
  | x :: xs, p =>
    if dead x then emit t rt b dead xs p
    else
      match recordCall t rt b p x with
      | none => emit t rt b dead xs p
      | some c => c :: emit t rt b dead xs c.proxy

def Replay.Direct (lev : Levers) (rt : Runtime) (st : Replay) : Prop :=
  (rt.hasInvokeBatch && !lev.batchOff) = false → st.batch = []

variable (hsab : lev.batchSabotage = false)
include hsab

theorem batchRoom_calls (st : Replay) :
    (batchRoom lev st).ran ++ (batchRoom lev st).batch = st.ran ++ st.batch := by
  unfold batchRoom
  split_ifs
  · simp [batchFlush, hsab]
  · rfl

theorem batchOrInvoke_calls (st : Replay) (c : Call) :
    (batchOrInvoke lev rt c st).ran ++ (batchOrInvoke lev rt c st).batch = st.ran ++ st.batch ++ [c] ∧
      (batchOrInvoke lev rt c st).proxy = c.proxy := by
  unfold batchOrInvoke
  split_ifs
  · exact ⟨by simp, rfl⟩
  · exact ⟨by simp [batchFlush, Replay.invoke, hsab], rfl⟩

theorem dispatchGen_calls (h : st.Direct lev rt)
    {c : Call} : (dispatchGen lev rt c st).Direct lev rt ∧
      (dispatchGen lev rt c st).ran ++ (dispatchGen lev rt c st).batch = st.ran ++ st.batch ++ [c] ∧
      (dispatchGen lev rt c st).proxy = c.proxy := by
  by_cases huse : (rt.hasInvokeBatch && !lev.batchOff) = true
  · rw [dispatchGen, if_pos huse, ← batchRoom_calls hsab st]
    exact ⟨fun hno => by simp [huse] at hno, batchOrInvoke_calls hsab _ c⟩
  · have hnil := h (by simpa using huse)
    rw [dispatchGen, if_neg huse]
    exact ⟨fun _ => hnil, by simp [Replay.invoke, hnil], rfl⟩

theorem foldl_replayRecord (scan : Lww) (xs : List ℕ) (h : st.Direct lev rt) :
    (xs.foldl (fun st x => replayRecord lev t rt b scan x st) st).ran ++
        (xs.foldl (fun st x => replayRecord lev t rt b scan x st) st).batch =
      st.ran ++ st.batch ++ emit t rt b (skipped b scan) xs st.proxy := by
  induction xs generalizing st with
  | nil => simp [emit]
  | cons x xs ih =>
    rw [List.foldl_cons, emit]
    by_cases hdead : skipped b scan x = true
    · rw [if_pos hdead, show replayRecord lev t rt b scan x st = st by rw [replayRecord, if_pos hdead]]
      exact ih h
    rw [if_neg hdead]
    cases hcall : recordCall t rt b st.proxy x with
    | none =>
      rw [show replayRecord lev t rt b scan x st = st by rw [replayRecord, if_neg hdead, hcall]]
      exact ih h
    | some c =>
      rw [replayRecord, hcall]
      split_ifs
      · obtain ⟨hdirect, hcalls, hproxy⟩ := dispatchGen_calls hsab h
        rw [ih hdirect, hcalls, hproxy, List.append_assoc _ [c], List.singleton_append]
      · rw [ih (fun _ => rfl)]
        simp [batchFlush, Replay.invoke, hsab]

omit hsab

theorem journalReplayRange_ran (lev : Levers) (rt : Runtime) (len : ℕ)
    (hsab : lev.batchSabotage = false) (p : Option Word) :
    (journalReplayRange lev t rt b len p).state.ran =
      emit t rt b (skipped b (lwwScan lev t b len)) (accepted t b len len 0) p := by
  have h := foldl_replayRecord (t := t) (b := b) hsab (lwwScan lev t b len)
    (accepted t b len len 0) (fun _ => rfl : Replay.Direct lev rt ⟨p, [], []⟩)
  unfold journalReplayRange
  rw [replayLoop_eq]
  simpa [batchFlush, hsab] using h

end WinePpc64.Journal
