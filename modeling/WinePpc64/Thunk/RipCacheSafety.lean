import WinePpc64.Thunk.RipCacheInvariant

namespace WinePpc64.Thunk.RipCache

open State Event

variable {e : Event} {mid : List Event}

section Stability

variable {table table' : Index → Entry} {log : List Event} {t : Tid} {r : Reader}

theorem began_cons {rip : Word} (h : Began t rip log mid)
    (he : ∀ x, e ≠ .getStart t x) : Began t rip (e :: log) (e :: mid) := by
  obtain ⟨⟨old, rfl⟩, hm⟩ := h
  refine ⟨⟨old, rfl⟩, fun x hx => ?_⟩
  rcases List.mem_cons.mp hx with hx | hx
  · exact he x hx.symm
  · exact hm x hx

theorem readerOk_emit (h : ReaderOk table log t r) (he : ∀ x, e ≠ .getStart t x)
    (hodd : ∀ i, e.completes i = true → Odd (stores i log))
    (hfield : ∀ i, (table' i).field = (table i).field) : ReaderOk table' (e :: log) t r := by
  cases r with
  | idle => trivial
  | loadSeq rip =>
    obtain ⟨mid, hb⟩ := h
    exact ⟨e :: mid, began_cons hb he⟩
  | loadField rip s1 rest out =>
    obtain ⟨new, mid, base, rfl, hb, hn, hs, hev, hle, hout⟩ := h
    refine ⟨e :: new, mid, base, rfl, hb, ?_, hs, hev, ?_, ?_⟩
    · intro x hx
      rcases List.mem_cons.mp hx with hx | hx
      · exact he x hx.symm
      · exact hn x hx
    · have ho := hodd (thunkRipCacheSlot rip)
      rw [stores_append] at ho
      rw [stores_cons, writes_cons]
      by_cases hc : e.completes (thunkRipCacheSlot rip) = true
      · have hb' : e.begins (thunkRipCacheSlot rip) = false := by
          cases e <;> simp_all [completes, begins]
        have hp := ho hc
        simp only [hc, hb', ↓reduceIte, Bool.false_eq_true]
        rw [Nat.odd_iff] at hp
        rw [Nat.even_iff] at hev
        omega
      · split_ifs <;> omega
    · intro hz f hf
      rw [hfield]
      apply hout _ f hf
      rw [stores_cons] at hz
      omega

theorem readerOk_store {i : Index} (h : ReaderOk table log t r) (ho : Odd (stores i log))
    (hfield : ∀ j, j ≠ i → (table' j).field = (table j).field) : ReaderOk table' log t r := by
  cases r with
  | idle => trivial
  | loadSeq rip => exact h
  | loadField rip s1 rest out =>
    obtain ⟨new, mid, base, rfl, hb, hn, hs, hev, hle, hout⟩ := h
    refine ⟨new, mid, base, rfl, hb, hn, hs, hev, hle, fun hz f hf => ?_⟩
    have hi : thunkRipCacheSlot rip ≠ i := by
      rintro rfl
      rw [stores_append, hz, Nat.zero_add] at ho
      exact Nat.not_even_iff_odd.mpr ho hev
    rw [hfield _ hi]
    exact hout hz f hf

end Stability

theorem inv_init : Inv init where
  seq _ := rfl
  settled _ _ := ⟨⟨0, rfl⟩, rfl⟩
  writer _ _ h := by simp [init] at h
  reader _ := trivial

variable {s s' : State} {t : Tid} {w : Writer}

def Outside (s : State) : Prop := ∀ t w, s.writer = some (t, w) → w.inside = none

variable (h : Inv s)
include h

theorem settled_outside (ho : Outside s) {i : Index} :
    Even (stores i s.log) ∧ Holds i (s.table i).field s.log := by
  apply h.settled i
  intro t w hw
  simp [ho t w hw]

variable {i j : Index}

theorem settled_other (hs : s.writer = some (t, w))
    (hin : w.inside = some i) (hji : j ≠ i) : Even (stores j s.log) ∧ Holds j (s.table j).field s.log := by
  apply h.settled j
  intro u x hux
  cases hs.symm.trans hux
  simpa [hin] using Ne.symm hji

variable {w' : Writer} {sq v s1 : BitVec 32} {r : Reader} {f : Field}

theorem inv_move (ho : Outside s) (hw : WriterOk s.table s.log w') : Inv (s.setWriter t w') where
  seq := h.seq
  settled i _ := settled_outside h ho
  writer u v huv := by cases huv; exact hw
  reader := h.reader

theorem inv_oddStore (ho : Outside s) (hsq : (s.table i).seq = sq) (hin : w'.inside = some i)
    (hw : WriterOk ((s.setSeq i (sq + 1)).table) (.odd i :: s.log) w') :
    Inv (((s.setSeq i (sq + 1)).emit (.odd i)).setWriter t w') where
  seq j := by
    have hst : stores j (.odd i :: s.log) = stores j s.log + if j = i then 1 else 0 := by
      simp [stores_cons, begins, completes, eq_comm]
    simp only [setWriter_table, emit_table, setSeq_seq, setWriter_log, emit_log, setSeq_log, hst]
    split_ifs with hji
    · rw [BitVec.ofNat_add, ← h.seq, hji, hsq]
      rfl
    · exact h.seq j
  settled j hn := by
    have hji : j ≠ i := by
      rintro rfl
      exact hn t w' rfl hin
    have hst : stores j (.odd i :: s.log) = stores j s.log := by
      simp [stores_cons, begins, completes, Ne.symm hji]
    simp only [setWriter_table, emit_table, setSeq_field, setWriter_log, emit_log, setSeq_log, hst]
    exact settled_outside h ho
  writer u v huv := by cases huv; exact hw
  reader u := readerOk_emit (h.reader u) (by simp) (by simp [completes]) (by simp)

theorem inv_fieldStore {v : Word}
    (hs : s.writer = some (t, w)) (hin : w.inside = some i) (hin' : w'.inside = some i)
    (hodd : Odd (stores i s.log)) (hw : WriterOk ((s.setField i f v).table) s.log w') :
    Inv ((s.setField i f v).setWriter t w') where
  seq j := by simpa using h.seq j
  settled j hn := by
    have hji : j ≠ i := by
      rintro rfl
      exact hn t w' rfl hin'
    simp only [setWriter_table, setWriter_log, setField_log, setField_field_ne _ _ _ _ _ hji]
    exact settled_other h hs hin hji
  writer u x hux := by cases hux; exact hw
  reader u := readerOk_store (h.reader u) hodd fun j hji => setField_field_ne _ _ _ _ _ hji

theorem inv_evenStore (hs : s.writer = some (t, w)) (hin : w.inside = some i)
    (hsq : (s.table i).seq = sq + 1) (hodd : Odd (stores i s.log))
    (hb : ∀ j, e.begins j = false) (hc : ∀ j, e.completes j = true ↔ j = i) (hf : e ≠ .flush)
    (hg : ∀ u x, e ≠ .getStart u x) (hholds : Holds i (s.table i).field (e :: s.log))
    (hw : WriterOk ((s.setSeq i (sq + 2)).table) (e :: s.log) w') :
    Inv (((s.setSeq i (sq + 2)).emit e).setWriter t w') where
  seq j := by
    have hst : stores j (e :: s.log) = stores j s.log + if j = i then 1 else 0 := by
      simp [stores_cons, hb, hc]
    simp only [setWriter_table, emit_table, setSeq_seq, setWriter_log, emit_log, setSeq_log, hst]
    split_ifs with hji
    · rw [BitVec.ofNat_add, ← h.seq, hji, hsq, BitVec.add_assoc]
      rfl
    · exact h.seq j
  settled j _ := by
    simp only [setWriter_table, emit_table, setSeq_field, setWriter_log, emit_log, setSeq_log,
      stores_cons, hb, Bool.false_eq_true, ↓reduceIte, Nat.add_zero, hc]
    split_ifs with hji
    · subst hji
      exact ⟨hodd.add_one, hholds⟩
    · rw [holds_skip (by simpa [hji] using hc j) hf]
      exact settled_other h hs hin hji
  writer u x hux := by cases hux; exact hw
  reader u := by
    apply readerOk_emit (h.reader u) (hg u) _ (by simp)
    intro j hj
    rw [(hc j).mp hj]
    exact hodd

theorem inv_read (hb : ∀ j, e.begins j = false)
    (hc : ∀ j, e.completes j = false) (hf : e ≠ .flush) (hg : ∀ u ≠ t, ∀ x, e ≠ .getStart u x)
    (hr : ReaderOk s.table (e :: s.log) t r) : Inv ((s.emit e).setReader t r) where
  seq j := by simpa [stores_cons, hb, hc] using h.seq j
  settled j hn := by
    have hj := h.settled j hn
    rw [← holds_skip (hc j) hf] at hj
    simpa [stores_cons, hb, hc] using hj
  writer u w hw := by
    have hst : ∀ j, stores j (e :: s.log) = stores j s.log := by simp [stores_cons, hb, hc]
    have hok := h.writer u w hw
    cases w <;> simp_all [WriterOk]
  reader u := by
    by_cases hu : u = t
    · subst hu; simpa [setReader] using hr
    · simp only [setReader, emit_table, emit_log, emit_reader, Function.update_of_ne hu]
      exact readerOk_emit (h.reader u) (hg u hu) (by simp [hc]) fun _ => rfl

theorem inv_look (hr : ReaderOk s.table s.log t r) : Inv (s.setReader t r) where
  seq := h.seq
  settled := h.settled
  writer := h.writer
  reader u := by
    by_cases hu : u = t
    · subst hu; simpa [setReader] using hr
    · simpa [setReader, hu] using h.reader u

omit h

theorem outside_held (hs : s.writer = some (t, .held)) : Outside s := by
  intro u x hux
  cases hs.symm.trans hux
  rfl

theorem thunkRipCachePut_inv (h : Inv s) (hs : s.writer = some (t, w))
    (hstep : thunkRipCachePut s t w = some s') : Inv s' := by
  have hw := h.writer t w hs
  cases w with
  | putLoad rip val =>
    have ho : Outside s := by intro u x hux; rw [hs] at hux; cases hux; rfl
    simp only [thunkRipCachePut] at hstep
    split_ifs at hstep <;> cases hstep
    · exact inv_move h ho trivial
    · exact inv_move h ho rfl
  | putOdd rip val sq =>
    have ho : Outside s := by intro u x hux; rw [hs] at hux; cases hux; rfl
    cases hstep
    apply inv_oddStore h ho hw rfl
    refine ⟨by simp, ?_, fun f hf => absurd mem_entryFields hf⟩
    simpa [stores_cons, begins, completes] using
      (settled_outside h ho).1.add_one
  | putField rip val sq rest =>
    obtain ⟨hsq, hodd, hval⟩ := hw
    cases rest with
    | nil =>
      cases hstep
      have hfield : (s.table (thunkRipCacheSlot rip)).field = putValue rip val := by
        funext f; exact hval f (by simp)
      apply inv_evenStore h hs rfl hsq hodd (by simp [begins])
        (by simp [completes, eq_comm]) (by simp) (by simp)
      · rw [Holds, holder, if_pos rfl]
        exact hfield
      · trivial
    | cons f rest =>
      cases hstep
      apply inv_fieldStore h hs rfl rfl hodd
      refine ⟨by simpa using hsq, hodd, fun g hg => ?_⟩
      rw [setField_field_self]
      split_ifs with hgf
      · rw [hgf]
      · exact hval g (by simp [hgf, hg])
  | _ => cases hstep

theorem flushedBelow_setSeq {n : ℕ} (h : FlushedBelow s.table n) : FlushedBelow (s.setSeq i v).table n := by
  intro j hj
  simpa using h j hj

theorem flushedBelow_setField {v : Word} (h : FlushedBelow s.table i) :
    FlushedBelow (s.setField i f v).table i := by
  intro j hj
  rw [setField_field_ne _ _ _ _ _ (by rintro rfl; omega)]
  exact h j hj

theorem inv_flush (h : Inv s) (ho : Outside s) (hz : FlushedBelow s.table 1024) :
    Inv ((s.emit .flush).setWriter t .held) where
  seq j := by simpa [stores_cons, Event.begins, Event.completes] using h.seq j
  settled j _ := by
    refine ⟨?_, holds_rip_zero rfl (hz j j.isLt)⟩
    simpa [stores_cons, begins, completes] using (settled_outside h ho).1
  writer u x hux := by cases hux; trivial
  reader u := readerOk_emit (h.reader u) (by simp) (by simp [completes]) fun _ => rfl

theorem flushGuestThunkCache_inv (h : Inv s) (hs : s.writer = some (t, w))
    (hstep : flushGuestThunkCache s t w = some s') : Inv s' := by
  have hw := h.writer t w hs
  cases w with
  | flushTest n =>
    have ho : Outside s := by intro u x hux; rw [hs] at hux; cases hux; rfl
    simp only [flushGuestThunkCache] at hstep
    split_ifs at hstep with hn hz <;> cases hstep
    · apply inv_move h ho
      intro j hj
      rcases Nat.lt_succ_iff_lt_or_eq.mp hj with hj | rfl
      · exact hw j hj
      · exact hz
    · exact inv_move h ho hw
    · apply inv_flush h ho
      intro j hj
      exact hw j (by omega)
  | flushLoad i =>
    have ho : Outside s := by intro u x hux; rw [hs] at hux; cases hux; rfl
    cases hstep
    exact inv_move h ho ⟨hw, rfl⟩
  | flushOdd i sq =>
    have ho : Outside s := by intro u x hux; rw [hs] at hux; cases hux; rfl
    cases hstep
    apply inv_oddStore h ho hw.2 rfl
    refine ⟨flushedBelow_setSeq hw.1, by simp, ?_, by simp [flushFields]⟩
    simpa [stores_cons, begins, completes] using (settled_outside h ho).1.add_one
  | flushField i sq rest =>
    obtain ⟨hbelow, hsq, hodd, hrip⟩ := hw
    cases rest with
    | nil =>
      cases hstep
      apply inv_evenStore h hs rfl hsq hodd (by simp [begins])
        (by simp [completes, eq_comm]) (by simp) (by simp)
      · exact holds_rip_zero (by simp [holder]) (hrip (by simp))
      intro j hj
      rcases Nat.lt_succ_iff_lt_or_eq.mp hj with hj | hj
      · simpa using hbelow j hj
      · rw [setSeq_field, Fin.ext hj]
        exact hrip (by simp)
    | cons f rest =>
      cases hstep
      apply inv_fieldStore h hs rfl rfl hodd
      refine ⟨flushedBelow_setField hbelow, by simpa using hsq, hodd, fun hr => ?_⟩
      rw [setField_field_self]
      split_ifs with hf
      · rfl
      · exact hrip (by simp [hf, hr])
  | _ => cases hstep

theorem prefix_unique {α : Type} {a : α} {xs ys zs ws : List α} (hx : a ∉ xs) (hy : a ∉ ys)
    (h : xs ++ a :: zs = ys ++ a :: ws) : xs = ys := by
  induction xs generalizing ys with
  | nil =>
    cases ys with
    | nil => rfl
    | cons y ys => simp_all
  | cons x xs ih =>
    cases ys with
    | nil => simp_all
    | cons y ys =>
      simp only [List.cons_append, List.cons.injEq] at h
      rw [h.1, ih (by simp_all) (by simp_all) h.2]

theorem ofNat_stores_eq {m n : ℕ} (h : BitVec.ofNat 32 n = BitVec.ofNat 32 (m + n))
    (hm : m < 2 ^ 32) : m = 0 := by
  have hn := congrArg BitVec.toNat h
  simp only [BitVec.toNat_ofNat] at hn
  omega

theorem not_inside_of_even (h : Inv s) (he : Even (stores i s.log)) : Holds i (s.table i).field s.log := by
  refine (h.settled i fun t w hw hin => ?_).2
  have hok := h.writer t w hw
  cases w <;> simp only [Writer.inside, reduceCtorEq, Option.some.injEq] at hin
  · subst hin
    exact Nat.not_even_iff_odd.mpr hok.2.1 he
  · subst hin
    exact Nat.not_even_iff_odd.mpr hok.2.2.1 he

def Current (rip : Word) (out : Fields) (log : List Event) : Prop :=
  ∃ newer older val, log = newer ++ .put rip val :: older ∧ (∀ f ≠ .rip, out f = val f) ∧
    ∀ e ∈ newer, e ≠ .flush ∧ ∀ r v, e = .put r v → thunkRipCacheSlot r ≠ thunkRipCacheSlot rip

theorem current_of_holds {rip : Word} {out : Fields} {log : List Event}
    (h : Holds (thunkRipCacheSlot rip) out log) (hr : out .rip = rip) (hz : rip ≠ 0) :
    Current rip out log := by
  unfold Holds at h
  split at h
  next r val hh =>
    obtain ⟨newer, older, rfl, -, hn⟩ := holder_split hh
    have hrip : r = rip := by rw [← hr, h]; simp [putValue]
    subst hrip
    refine ⟨newer, older, val, rfl, fun f hf => by rw [h]; simp [putValue, hf], fun e he => ?_⟩
    refine ⟨(hn e he).2, ?_⟩
    rintro r' v rfl
    simpa [completes] using (hn _ he).1
  next => exact absurd (hr.symm.trans h) hz

theorem loadField_current (h : Inv s) {rip : Word} {out : Fields}
    (hr : s.reader t = .loadField rip s1 [] out) (hb : Began t rip s.log mid)
    (hw : writes (thunkRipCacheSlot rip) mid < 2 ^ 31)
    (hs : s1 = (s.table (thunkRipCacheSlot rip)).seq) (ho : out .rip = rip) (hz : rip ≠ 0) :
    Current rip out s.log := by
  have hok := h.reader t
  rw [hr] at hok
  obtain ⟨new, mid', base, hlog, ⟨⟨old', hbase⟩, hm'⟩, hn, hs1, hev, hle, hout⟩ := hok
  obtain ⟨⟨old, hold⟩, hm⟩ := hb
  have hmid : mid = new ++ mid' := by
    have he : mid ++ .getStart t rip :: old = (new ++ mid') ++ .getStart t rip :: old' := by
      rw [← hold, hlog, hbase, List.append_assoc]
    exact prefix_unique (hm rip) (by simp [hn, hm']) he
  have hsmall : stores (thunkRipCacheSlot rip) new < 2 ^ 32 := by
    have : writes (thunkRipCacheSlot rip) new ≤ writes (thunkRipCacheSlot rip) mid := by
      rw [hmid]; simp [writes]
    omega
  have hzero : stores (thunkRipCacheSlot rip) new = 0 := by
    rw [hs1, h.seq, hlog, stores_append] at hs
    exact ofNat_stores_eq hs hsmall
  have hfield : out = (s.table (thunkRipCacheSlot rip)).field := by
    funext f; exact hout hzero f (by simp)
  refine current_of_holds ?_ ho hz
  rw [hfield]
  apply not_inside_of_even h
  rw [hlog, stores_append, hzero, Nat.zero_add]
  exact hev

theorem thunkRipCacheGet_inv (h : Inv s) (hstep : thunkRipCacheGet s t (s.reader t) = some s') : Inv s' := by
  have hok := h.reader t
  cases hr : s.reader t with
  | idle => rw [hr] at hstep; cases hstep
  | loadSeq rip =>
    rw [hr] at hstep hok
    simp only [thunkRipCacheGet] at hstep
    split_ifs at hstep with hodd <;> cases hstep
    · exact inv_read h (by simp [begins]) (by simp [completes]) (by simp) (by simp)
        trivial
    obtain ⟨mid, hb⟩ := hok
    rw [h.seq, isOdd_ofNat, Nat.not_odd_iff_even] at hodd
    apply inv_look h
    refine ⟨[], mid, s.log, rfl, hb, by simp, h.seq _, hodd, by simp [stores, writes], ?_⟩
    intro _ f hf
    exact absurd mem_entryFields hf
  | loadField rip s1 rest out =>
    rw [hr] at hstep hok
    cases rest with
    | nil =>
      simp only [thunkRipCacheGet] at hstep
      split_ifs at hstep with hbad <;> cases hstep
      · exact inv_read h (by simp [begins]) (by simp [completes]) (by simp) (by simp)
          trivial
      · exact inv_read h (by simp [begins]) (by simp [completes]) (by simp) (by simp)
          trivial
    | cons f rest =>
      cases hstep
      obtain ⟨new, mid, base, hlog, hb, hn, hs1, hev, hle, hout⟩ := hok
      apply inv_look h
      refine ⟨new, mid, base, hlog, hb, hn, hs1, hev, hle, fun hz g hg => ?_⟩
      by_cases hgf : g = f
      · subst hgf; simp
      · rw [Function.update_of_ne hgf]
        exact hout hz g (by simp [hgf, hg])

theorem inv_step (h : Inv s) {l : Tid × Act} (hstep : step s l = some s') : Inv s' := by
  obtain ⟨t, a⟩ := l
  cases a with
  | lock =>
    simp only [step] at hstep
    split_ifs at hstep with hn
    cases hstep
    refine inv_move h (fun u w hw => ?_) trivial
    simp [hw] at hn
  | unlock =>
    simp only [step] at hstep
    split at hstep
    next u hw =>
      split_ifs at hstep
      cases hstep
      exact
        { seq := h.seq
          settled := fun i _ => settled_outside h (outside_held hw)
          writer := by simp
          reader := h.reader }
    next => cases hstep
  | put rip val =>
    simp only [step] at hstep
    split at hstep
    next u hw =>
      split_ifs at hstep
      cases hstep
      exact inv_move h (outside_held hw) trivial
    next => cases hstep
  | flush =>
    simp only [step] at hstep
    split at hstep
    next u hw =>
      split_ifs at hstep
      cases hstep
      exact inv_move h (outside_held hw) (by intro j hj; omega)
    next => cases hstep
  | get rip =>
    simp only [step] at hstep
    split at hstep
    next hr =>
      cases hstep
      refine inv_read h (by simp [begins]) (by simp [completes]) (by simp) ?_ ?_
      · intro u hu x hx
        simp only [getStart.injEq] at hx
        exact hu hx.1.symm
      · exact ⟨[], ⟨s.log, rfl⟩, by simp⟩
    next => cases hstep
  | write =>
    simp only [step] at hstep
    split at hstep
    next u w hw =>
      split_ifs at hstep with hu
      subst hu
      rcases Option.or_eq_some_iff.mp hstep with hp | ⟨_, hf⟩
      · exact thunkRipCachePut_inv h hw hp
      · exact flushGuestThunkCache_inv h hw hf
    next => cases hstep
  | read => exact thunkRipCacheGet_inv h hstep

end WinePpc64.Thunk.RipCache
