import WinePpc64.Server.CancelEvents

namespace WinePpc64.Server.Process

open List

variable {p p₀ : Process} {i j c d : ℕ} {o o' : Op} {k k' : Cancel} {r : CancelRequest} {lost is : List ℕ}

structure Visitable (o : Op) : Prop where
  inv : Inv o.async
  canceled : o.cancel.isSome = true → o.async.canceled = true

theorem Linked.visitable (h : Linked p) (ho : p.ops[i]? = some o) : Visitable o where
  inv := h.asyncs ho
  canceled := by
    intro hsome
    obtain ⟨c, hc⟩ := Option.isSome_iff_exists.mp hsome
    exact (h.attached ho hc).2.1

theorem Op.active_waiting (hinv : Inv o.async) (hactive : o.active = true) : Waiting o.async := by
  apply hinv.waiting_of
  unfold Op.active at hactive
  simp only [Bool.and_eq_true, Bool.not_eq_true'] at hactive
  exact hactive.1.2

theorem cancelAsync_eq (hv : Visitable o) (ho : p.ops[i]? = some o) (hactive : o.active = true) {delivered : Bool} :
    ∃ a, p.cancelAsync i o delivered = p.setOp i { o with async := a } ∧ Inv a ∧ a.canceled = true ∧
      Async.Keeps o.async a ∧ a.done = (!o.async.canceled && !(o.async.device || delivered)) := by
  have hw := Op.active_waiting hv.inv hactive
  unfold cancelAsync
  cases hcanceled : o.async.canceled with
  | true =>
    refine ⟨o.async, ?_, hv.inv, hcanceled, .refl, hw.done⟩
    exact (setOp_self ho).symm
  | false =>
    obtain ⟨a, hstep, hinv, hnow, hdone⟩ := hv.inv.cancel hw.terminated hcanceled
    refine ⟨a, ?_, hinv, hnow, Async.keeps_step hstep, hdone⟩
    have hnone : o.cancel = none := by
      cases hcancel : o.cancel with
      | none => rfl
      | some c =>
        rw [hv.canceled (by rw [hcancel]; rfl)] at hcanceled
        cases hcanceled
    have hio : p.io i o (.cancel delivered) = some (p.setOp i { o with async := a }) := by
      unfold Process.io
      rw [hstep, Option.map_some]
      split
      · rw [asyncCompleteCancel_none (o := { o with async := a }) hnone]
      · rfl
    rw [hio]
    rfl

structure Selected (r : CancelRequest) (lost : List ℕ) (p : Process) (i : ℕ) (o : Op) (a : Async) : Prop where
  op : p.ops[i]? = some o
  active : o.active = true
  selects : r.selects o = true
  visitable : Visitable o
  inv : Inv a
  canceled : a.canceled = true
  keeps : Async.Keeps o.async a
  done : a.done = (!o.async.canceled && !(o.async.device || !lost.contains i))

theorem Selected.open {a : Async} (h : Selected r lost p i o a) : o.async.done = false :=
  (Op.active_waiting h.visitable.inv h.active).done

theorem visit_cases {lost : List ℕ} (hv : ∀ o, p.ops[i]? = some o → Visitable o) {c : Option ℕ} :
    (visit r lost c p i = p ∧ ∀ o, p.ops[i]? = some o → o.active = true → r.selects o ≠ true) ∨
      ∃ o a, Selected r lost p i o a ∧ visit r lost c p i = (p.setOp i { o with async := a }).attach c i := by
  unfold visit
  cases ho : p.ops[i]? with
  | none => exact .inl ⟨rfl, fun o ho => (by cases ho)⟩
  | some o =>
    dsimp only
    cases hactive : o.active with
    | false => exact .inl ⟨rfl, fun x hx hact => (by cases hx; rw [hactive] at hact; cases hact)⟩
    | true =>
      have hw := Op.active_waiting (hv o ho).inv hactive
      rw [hw.fd, if_neg (by decide)]
      by_cases hsel : r.selects o = true
      · obtain ⟨a, heq, hinv, hcanceled, hkeeps, hdone⟩ := cancelAsync_eq (hv o ho) ho hactive
        rw [if_pos hsel, heq]
        exact .inr ⟨o, a, ⟨ho, hactive, hsel, hv o ho, hinv, hcanceled, hkeeps, hdone⟩, rfl⟩
      · rw [if_neg hsel]
        exact .inl ⟨rfl, fun x hx _ => (by cases hx; exact hsel)⟩

theorem Sound.visit (h : Sound p) : Sound (visit r lost none p i) := by
  obtain ⟨heq, -⟩ | ⟨o, a, hs, heq⟩ := visit_cases (fun _ => h.linked.visitable)
  · rw [heq]
    exact h
  rw [heq]
  cases hnow : a.done with
  | false => exact h.setOp hs.op hs.inv rfl (hnow.trans hs.open.symm) fun _ => hs.canceled
  | true =>
    have hnone : o.cancel = none := by
      have hdone := hs.done
      cases hcancel : o.cancel with
      | none => rfl
      | some c =>
        rw [hs.visitable.canceled (by rw [hcancel]; rfl), hnow] at hdone
        cases hdone
    exact h.complete_free hs.op hs.open hnone hs.inv hnone

theorem Sound.visits (h : Sound p) : Sound (is.foldl (Process.visit r lost none) p) := by
  induction is generalizing p with
  | nil => exact h
  | cons i is ih => exact ih h.visit

def FreshAt (r : CancelRequest) (lost : List ℕ) (p : Process) (i : ℕ) : Prop :=
  ∀ o, p.ops[i]? = some o → o.active = true → r.selects o = true →
    o.cancel = none ∧ (o.async.canceled = true ∨ o.async.device = true ∨ i ∉ lost)

structure Building (p₀ p : Process) (c : ℕ) (is : List ℕ) : Prop where
  linked : Linked p
  failed : p.failed = false
  others : ∀ (d : ℕ) (k : Cancel), p.cancels[d]? = some k → d ≠ c → Accounted p k
  own : ∃ k, p.cancels[c]? = some k ∧ k.count = k.covers.length ∧ (∀ j ∈ k.covers, p.doneAt j = false) ∧
    k.signaled = false ∧ k.released = 0
  ahead : ∀ j ∈ is, p.ops[j]? = p₀.ops[j]?

structure Broken (p₀ p : Process) (c : ℕ) (is : List ℕ) : Prop where
  bad : p.failed = true ∨ ∃ k, p.cancels[c]? = some k ∧ Lib.remaining k.covers p.doneAt < k.count
  ahead : ∀ j ∈ is, p.ops[j]? = p₀.ops[j]?

def attached (p : Process) (i : ℕ) (o : Op) (a : Async) (c : ℕ) (k : Cancel) : Process :=
  (p.setOp i { o with async := a, cancel := some c }).setCancel c (k.cover i)

section Attached

variable {a : Async} (ho : p.ops[i]? = some o)

include ho

theorem attached_ops (j : ℕ) : (p.attached i o a c k).ops[j]? =
    if j = i then some { o with async := a, cancel := some c } else p.ops[j]? :=
  getElem?_setOp ho j

theorem attached_doneAt : (p.attached i o a c k).doneAt j = if j = i then a.done else p.doneAt j :=
  doneAt_setOp ho

omit ho in
theorem attached_cancels (hk : p.cancels[c]? = some k) :
    (p.attached i o a c k).cancels[d]? = if d = c then some (k.cover i) else p.cancels[d]? :=
  getElem?_setCancel hk

theorem Linked.attach (h : Linked p) (hnone : o.cancel = none) (hopen : o.async.done = false)
    (hk : p.cancels[c]? = some k) (hinv : Inv a) (hdone : a.done = false) (hcanceled : a.canceled = true) :
    Linked (p.attached i o a c k) := by
  have hfree (d : ℕ) : ¬p.Covers d i := by
    intro hd
    rw [(h.agrees ho).covered d hd hopen] at hnone
    cases hnone
  have hcov (d j : ℕ) : (p.attached i o a c k).Covers d j ↔ p.Covers d j ∨ d = c ∧ j = i := by
    unfold Covers
    rw [attached_cancels hk]
    split
    next hd => simp [hd, hk, Cancel.cover]
    next hd => simp [hd]
  refine h.put (attached_ops ho) (fun d j hj => ?_) ⟨hinv, fun d hd => ?_, fun d hd _ => ?_⟩ fun {d x} hx => ?_
  · rw [hcov, or_iff_left fun hc => hj hc.2]
  · obtain rfl : c = d := Option.some.inj hd
    exact ⟨hdone, hcanceled, (hcov c i).mpr (.inr ⟨rfl, rfl⟩)⟩
  · obtain hd | ⟨rfl, -⟩ := (hcov d i).mp hd
    · exact absurd hd (hfree d)
    · rfl
  · rw [attached_cancels hk] at hx
    split at hx
    · cases hx
      exact (h.nodup hk).append (nodup_singleton i) (disjoint_singleton.mpr fun hi => hfree c ⟨k, hk, hi⟩)
    · exact h.nodup hx

theorem attach_cases :
    ((p.setOp i { o with async := a }).attach (some c) i).failed = true ∧ o.cancel.isSome = true ∨
    o.cancel = none ∧ (p.cancels[c]? = none ∧
        (p.setOp i { o with async := a }).attach (some c) i = p.setOp i { o with async := a } ∨
      ∃ k, p.cancels[c]? = some k ∧ (p.setOp i { o with async := a }).attach (some c) i = p.attached i o a c k) := by
  have hop : (p.setOp i { o with async := a }).ops[i]? = some { o with async := a } := by
    rw [getElem?_setOp ho, if_pos rfl]
  have hcancels : (p.setOp i { o with async := a }).cancels = p.cancels := rfl
  unfold attach
  rw [hop]
  dsimp only
  rw [hcancels]
  rcases o.cancel with _ | d
  · cases hk : p.cancels[c]? with
    | none => exact .inr ⟨rfl, .inl ⟨rfl, check_true⟩⟩
    | some k => exact .inr ⟨rfl, .inr ⟨k, rfl, by dsimp only; rw [setOp_setOp]; rfl⟩⟩
  · exact .inl ⟨Bool.or_true _, rfl⟩

end Attached

theorem attach_ops {c : Option ℕ} (hj : j ≠ i) : (p.attach c i).ops[j]? = p.ops[j]? := by
  unfold attach
  split
  · split
    · exact getElem?_set_ne hj.symm
    · rfl
  · rfl

theorem visit_ops (hv : ∀ o, p.ops[i]? = some o → Visitable o) {c : Option ℕ} (hj : j ≠ i) :
    (visit r lost c p i).ops[j]? = p.ops[j]? := by
  obtain ⟨heq, -⟩ | ⟨o, a, hs, heq⟩ := visit_cases hv
  · rw [heq]
  · rw [heq, attach_ops hj, getElem?_setOp hs.op, if_neg hj]

theorem ahead_visit (r : CancelRequest) (lost : List ℕ) (c : ℕ)
    (hv : ∀ o, p.ops[i]? = some o → Visitable o) (h : ∀ j ∈ i :: is, p.ops[j]? = p₀.ops[j]?)
    (hi : i ∉ is) : ∀ j ∈ is, (visit r lost (some c) p i).ops[j]? = p₀.ops[j]? := by
  intro j hj
  rw [visit_ops hv fun heq => hi (heq ▸ hj)]
  exact h j (mem_cons_of_mem _ hj)

theorem Building.visit (h : Building p₀ p c (i :: is)) (hi : i ∉ is) (hfresh : FreshAt r lost p₀ i) :
    Building p₀ (visit r lost (some c) p i) c is := by
  have hv (o : Op) (ho : p.ops[i]? = some o) : Visitable o := h.linked.visitable ho
  have hahead := ahead_visit r lost c hv h.ahead hi
  obtain ⟨heq, -⟩ | ⟨o, a, hs, heq⟩ := visit_cases hv
  · rw [heq] at hahead ⊢
    exact { h with ahead := hahead }
  obtain ⟨hnone, hkeep⟩ := hfresh o (h.ahead i mem_cons_self ▸ hs.op) hs.active hs.selects
  have hstill : a.done = false := by
    rw [hs.done]
    rcases hkeep with hc | hd | hl
    · simp [hc]
    · simp [hd]
    · simp [hl]
  obtain ⟨k, hk, hcount, hnot, hsig, hrel⟩ := h.own
  obtain ⟨-, hsome⟩ | ⟨-, ⟨hno, -⟩ | ⟨k', hk', hattach⟩⟩ := attach_cases hs.op
  · rw [hnone] at hsome
    cases hsome
  · cases hk.symm.trans hno
  cases hk.symm.trans hk'
  rw [heq, hattach] at hahead ⊢
  have hdoneAt (j : ℕ) : (p.attached i o a c k).doneAt j = p.doneAt j := by
    rw [attached_doneAt hs.op]
    split
    next hj => rw [hj, hstill, doneAt_eq hs.op, hs.open]
    next => rfl
  refine ⟨h.linked.attach hs.op hnone hs.open hk hs.inv hstill hs.canceled, h.failed, ?_, ?_, hahead⟩
  · intro d x hx hd
    rw [attached_cancels hk, if_neg hd] at hx
    exact (h.others d x hx hd).congr fun j _ => hdoneAt j
  refine ⟨k.cover i, by rw [attached_cancels hk, if_pos rfl], ?_, ?_, hsig, hrel⟩
  · show k.count + 1 = (k.covers ++ [i]).length
    rw [length_append, hcount]
    rfl
  intro j hj
  rw [hdoneAt]
  rcases mem_append.mp hj with hj | hj
  · exact hnot j hj
  · rw [mem_singleton.mp hj, doneAt_eq hs.op, hs.open]

theorem Building.break (h : Building p₀ p c (i :: is)) (hi : i ∉ is) (hfresh : ¬FreshAt r lost p₀ i) :
    Broken p₀ (Process.visit r lost (some c) p i) c is := by
  have hv (o : Op) (ho : p.ops[i]? = some o) : Visitable o := h.linked.visitable ho
  refine ⟨?_, ahead_visit _ _ _ hv h.ahead hi⟩
  unfold FreshAt at hfresh
  push Not at hfresh
  obtain ⟨o, ho, hactive, hsel, hbad⟩ := hfresh
  rw [← h.ahead i mem_cons_self] at ho
  obtain ⟨-, hno⟩ | ⟨o', a, hs, heq⟩ := visit_cases hv
  · exact absurd hsel (hno o ho hactive)
  cases hs.op.symm.trans ho
  rw [heq]
  obtain ⟨k, hk, hcount, -⟩ := h.own
  obtain ⟨hfailed, -⟩ | ⟨hcancel, ⟨hno, -⟩ | ⟨k', hk', hattach⟩⟩ := attach_cases ho
  · exact .inl hfailed
  · cases hk.symm.trans hno
  cases hk.symm.trans hk'
  obtain ⟨hc, hd, hl⟩ := hbad hcancel
  have hnow : a.done = true := by
    rw [hs.done]
    simp [hc, hd, hl]
  rw [hattach]
  refine .inr ⟨k.cover i, by rw [attached_cancels hk, if_pos rfl], ?_⟩
  show Lib.remaining (k.covers ++ [i]) _ < k.count + 1
  rw [Lib.remaining_append, Lib.remaining_singleton, attached_doneAt ho, if_pos rfl, hnow, hcount]
  exact Nat.lt_succ_of_le (Lib.remaining_le_length _ _)

theorem Broken.visit (h₀ : Linked p₀) (h : Broken p₀ p c (i :: is)) (hi : i ∉ is) :
    Broken p₀ (Process.visit r lost (some c) p i) c is := by
  have hv (o : Op) (ho : p.ops[i]? = some o) : Visitable o :=
    h₀.visitable (h.ahead i mem_cons_self ▸ ho)
  refine ⟨?_, ahead_visit _ _ _ hv h.ahead hi⟩
  obtain ⟨heq, -⟩ | ⟨o, a, hs, heq⟩ := visit_cases hv
  · rw [heq]
    exact h.bad
  rw [heq]
  obtain ⟨hfailed, -⟩ | ⟨-, ⟨hno, hattach⟩ | ⟨k, hk, hattach⟩⟩ := attach_cases hs.op
  · exact .inl hfailed
  · rw [hattach]
    rcases h.bad with hf | ⟨k, hk, -⟩
    · exact .inl hf
    · cases hno.symm.trans hk
  · rw [hattach]
    rcases h.bad with hf | ⟨k', hk', hlt⟩
    · exact .inl hf
    cases hk.symm.trans hk'
    refine .inr ⟨k.cover i, by rw [attached_cancels hk, if_pos rfl], ?_⟩
    -- the asyncs that had completed still have, and one is added
    have hmono : Lib.remaining k.covers (p.attached i o a c k).doneAt ≤ Lib.remaining k.covers p.doneAt := by
      apply Lib.remaining_mono
      intro j hj
      rw [attached_doneAt hs.op]
      split
      next heq =>
        rw [heq, doneAt_eq hs.op] at hj
        exact hs.keeps.done hj
      next => exact hj
    have hone := Lib.remaining_le_length [i] (p.attached i o a c k).doneAt
    show Lib.remaining (k.covers ++ [i]) _ < k.count + 1
    rw [Lib.remaining_append]
    simp only [length_singleton] at hone
    omega

theorem Broken.visits (h₀ : Linked p₀) (hnodup : is.Nodup) (h : Broken p₀ p c is) :
    Broken p₀ (is.foldl (Process.visit r lost (some c)) p) c [] := by
  induction is generalizing p with
  | nil => exact h
  | cons i is ih =>
    obtain ⟨hi, hnodup⟩ := nodup_cons.mp hnodup
    exact ih hnodup (h.visit h₀ hi)

theorem Building.visits (h₀ : Linked p₀) (hnodup : is.Nodup) (h : Building p₀ p c is) :
    ((∀ i ∈ is, FreshAt r lost p₀ i) → Building p₀ (is.foldl (Process.visit r lost (some c)) p) c []) ∧
      (¬(∀ i ∈ is, FreshAt r lost p₀ i) → Broken p₀ (is.foldl (Process.visit r lost (some c)) p) c []) := by
  induction is generalizing p with
  | nil => exact ⟨fun _ => h, fun hno => absurd (fun _ hi => absurd hi not_mem_nil) hno⟩
  | cons i is ih =>
    obtain ⟨hi, hnodup⟩ := nodup_cons.mp hnodup
    by_cases hfresh : FreshAt r lost p₀ i
    · obtain ⟨hgood, hbad⟩ := ih hnodup (h.visit hi hfresh)
      constructor
      · exact fun hall => hgood fun j hj => hall j (mem_cons_of_mem _ hj)
      intro hno
      apply hbad
      intro hall
      apply hno
      intro j hj
      rcases mem_cons.mp hj with rfl | hj
      · exact hfresh
      · exact hall j hj
    · constructor
      · exact fun hall => absurd (hall i mem_cons_self) hfresh
      intro _
      have hbroken : Broken p₀ (Process.visit r lost (some c) p i) c is := h.break hi hfresh
      rw [foldl_cons]
      exact hbroken.visits h₀ hnodup

theorem Sound.building (h : Sound p) : Building p p.addCancel p.cancels.length is := by
  have hnew (d : ℕ) : p.addCancel.cancels[d]? = if d = p.cancels.length then some Cancel.create else p.cancels[d]? :=
    getElem?_concat d
  refine ⟨h.linked.recount rfl (fun d j => ?_) fun {d x} hx => ?_, h.good.failed, fun d x hx hd => ?_, ?_, fun _ _ => rfl⟩
  · unfold Covers
    rw [hnew]
    split
    next hd => simp [hd, Cancel.create]
    next => exact Iff.rfl
  · rw [hnew] at hx
    split at hx
    · exact Option.some.inj hx ▸ nodup_nil
    · exact h.linked.nodup hx
  · rw [hnew, if_neg hd] at hx
    exact (h.good.accounted d x hx).congr fun _ _ => rfl
  · exact ⟨Cancel.create, by rw [hnew, if_pos rfl], rfl, fun j hj => (by cases hj), rfl, rfl⟩

theorem Cancel.publish_covers {handed : Bool} : (k.publish handed).covers = k.covers := by
  unfold Cancel.publish
  split <;> rfl

theorem Building.publish (h : Building p₀ p c []) (hk : p.cancels[c]? = some k) {handed : Bool} :
    Sound (p.setCancel c (k.publish handed)) := by
  obtain ⟨k', hk', hcount, hnot, hsig, hrel⟩ := h.own
  cases hk.symm.trans hk'
  have hremaining : Lib.remaining k.covers p.doneAt = k.covers.length := Lib.remaining_eq_length hnot
  refine ⟨h.linked.setCancel hk Cancel.publish_covers, h.failed, ?_⟩
  · intro d x hx
    rw [getElem?_setCancel hk] at hx
    split at hx
    next =>
      cases hx
      have hacc : Accounted p (k.publish handed) := by
        unfold Cancel.publish
        split
        next hzero =>
          have hnil : k.covers = [] := eq_nil_of_length_eq_zero (hcount.symm.trans hzero)
          have hfinished : p.finished k = true := by
            unfold finished
            rw [hnil]
            rfl
          refine ⟨hcount.trans hremaining.symm, ?_, ?_⟩
          · rw [hsig, hnil]
            rfl
          · show k.released + 1 = if p.finished k then 1 else 0
            rw [hrel, hfinished]
            rfl
        next hsome =>
          have hfinished : p.finished k = false := by
            rw [← Bool.not_eq_true, finished_iff, hremaining, ← hcount]
            exact hsome
          refine ⟨hcount.trans hremaining.symm, ?_, ?_⟩
          · show k.signaled = (!k.covers.isEmpty && p.finished k)
            rw [hsig, hfinished, Bool.and_false]
          · show k.released = if p.finished k then 1 else 0
            rw [hrel, hfinished]
            rfl
      exact hacc.congr fun _ _ => rfl
    next hd => exact (h.others d x hx hd).congr fun _ _ => rfl

theorem Broken.publish (h : Broken p₀ p c []) (hk : p.cancels[c]? = some k) {handed : Bool} :
    ¬Good (p.setCancel c (k.publish handed)) := by
  intro hgood
  rcases h.bad with hf | ⟨k', hk', hlt⟩
  · have hnot : p.failed = false := hgood.failed
    cases hf.symm.trans hnot
  cases hk.symm.trans hk'
  have hcount := (hgood.accounted c (k.publish handed)
    ((getElem?_setCancel hk).trans (if_pos rfl))).count
  have hdone : (p.setCancel c (k.publish handed)).doneAt = p.doneAt := rfl
  have hpublish : (k.publish handed).count = k.count := by
    unfold Cancel.publish
    split <;> rfl
  rw [Cancel.publish_covers, hdone] at hcount
  omega

end WinePpc64.Server.Process
