import WinePpc64.Server.CancelLinks

namespace WinePpc64.Server.Process

variable {p p' : Process} {i c : ℕ} {o o' : Op} {k : Cancel}

theorem setOp_setOp {o o' : Op} : (p.setOp i o).setOp i o' = p.setOp i o' := by
  simp [setOp]

theorem setOp_self (h : p.ops[i]? = some o) : p.setOp i o = p := by
  obtain ⟨-, rfl⟩ := List.getElem?_eq_some_iff.mp h
  unfold setOp
  rw [List.set_getElem_self]

theorem asyncCompleteCancel_none (h : o.cancel = none) : p.asyncCompleteCancel i o = p := by
  unfold asyncCompleteCancel
  rw [h]

theorem asyncCompleteCancel_some (h : o.cancel = some c) (hk : p.cancels[c]? = some k) :
    p.asyncCompleteCancel i o = (p.setOp i { o with cancel := none }).setCancel c k.drop := by
  unfold asyncCompleteCancel
  rw [h]
  dsimp only
  rw [hk]

section Events

variable (h : Sound p) (ho : p.ops[i]? = some o)
include h ho

theorem Sound.setOp (hinv : Inv o'.async) (hcancel : o'.cancel = o.cancel)
    (hdone : o'.async.done = o.async.done) (hkeeps : o.async.canceled = true → o'.async.canceled = true) :
    Sound (p.setOp i o') where
  linked := h.linked.setOp ho hinv hcancel hdone hkeeps
  good := ⟨h.good.failed, fun c k hk => (h.good.accounted c k hk).congr fun _ _ => doneAt_setOp_same ho hdone⟩

theorem Sound.complete_free (hopen : o.async.done = false)
    (hcancel : o.cancel = none) (hinv : Inv o'.async) (hnone : o'.cancel = none) : Sound (p.setOp i o') := by
  obtain ⟨hlinked, hdone⟩ := h.linked.complete_free ho hopen hcancel hinv hnone
  exact ⟨hlinked, h.good.failed, fun c k hk => (h.good.accounted c k hk).congr (hdone c k hk)⟩

theorem Sound.io {e : Server.Event} (hord : Orderly o.async e) (hp : p.io i o e = some p') : Sound p' := by
  obtain ⟨a, hstep, rfl⟩ := Option.map_eq_some_iff.mp hp
  have hinv : Inv a := (step_iff (h.linked.asyncs ho) hord.1 hstep).1 hord.2
  have hkeeps : Async.Keeps o.async a := Async.keeps_step hstep
  have hsame (hdone : a.done = o.async.done) : Sound (p.setOp i { o with async := a }) :=
    h.setOp ho hinv rfl hdone hkeeps.canceled
  cases hopen : o.async.done with
  | true =>
    have hnone : o.cancel = none := by
      cases hcancel : o.cancel with
      | none => rfl
      | some c =>
        rw [(h.linked.attached ho hcancel).1] at hopen
        cases hopen
    split
    · rw [asyncCompleteCancel_none (o := { o with async := a }) hnone]
      exact hsame (by rw [hkeeps.done hopen, hopen])
    · exact hsame (by rw [hkeeps.done hopen, hopen])
  | false =>
    rw [Async.completes_of_not_done hopen hstep]
    split
    next hdone =>
      cases hcancel : o.cancel with
      | none =>
        exact h.complete_free ho hopen hcancel hinv rfl
      | some c =>
        obtain ⟨-, -, k, hk, -⟩ := h.linked.attached ho hcancel
        have hdrop : (p.setOp i { o with async := a, cancel := some c }).asyncCompleteCancel i
            { o with async := a, cancel := some c } =
              ((p.setOp i { o with async := a, cancel := some c }).setOp i { o with async := a, cancel := none }).setCancel c
                k.drop := asyncCompleteCancel_some rfl hk
        rw [hdrop, setOp_setOp]
        exact h.complete_attached ho hcancel hk hinv hdone rfl
    next hdone => exact hsame (by rw [hopen, Bool.eq_false_iff.mpr hdone])

omit ho

theorem Sound.create {a : Async} (ha : Inv a) {thread obj iosb : ℕ} :
    Sound { p with ops := p.ops ++ [⟨a, thread, obj, iosb, none, false⟩] } := by
  have hlt {c : ℕ} {k : Cancel} {j : ℕ} (hk : p.cancels[c]? = some k) (hj : j ∈ k.covers) : j ≠ p.ops.length := by
    obtain ⟨x, hx, -⟩ := h.linked.covered hk hj
    exact (List.getElem?_eq_some_iff.mp hx).1.ne
  refine ⟨?_, h.good.failed, fun c k hk => (h.good.accounted c k hk).congr fun j hj => ?_⟩
  · exact h.linked.put getElem?_concat (fun _ _ _ => Iff.rfl)
      ⟨ha, fun c hc => (by cases hc), fun d ⟨k, hk, hj⟩ => absurd rfl (hlt hk hj)⟩ h.linked.nodup
  · unfold doneAt
    rw [getElem?_concat, if_neg (hlt hk hj)]

theorem Sound.closeHandle (hk : p.cancels[c]? = some k) :
    Sound (p.setCancel c { k with handle := false }) := by
  refine ⟨h.linked.setCancel hk rfl, h.good.failed, fun d x hx => ?_⟩
  rw [getElem?_setCancel hk] at hx
  split at hx
  · cases hx
    have hacc := h.good.accounted c k hk
    exact { hacc with }
  · exact (h.good.accounted d x hx).congr fun _ _ => rfl

omit h

theorem check_true : p.check true = p := by
  simp [check]

theorem Sound.destroy (h : Sound p) (ho : p.ops[i]? = some o) (hp : p.destroy i o = some p') : Sound p' := by
  obtain ⟨hguard, hsome⟩ := Option.ite_none_left_eq_some.mp hp
  push Not at hguard
  obtain ⟨hqueue, hapc, howed⟩ := hguard
  have hinv := h.linked.asyncs ho
  have hdone : o.async.done = true := by
    cases hinv.phase with
    | waiting hw => exact absurd hw.queue hqueue
    | apcOut hw => exact absurd hw.apc hapc
    | directOut hw => exact absurd hw.owed howed
    | ready hw => exact absurd hw.owed howed
    | done hw => exact hw.done
  have hnone : o.cancel.isNone = true := by
    cases hcancel : o.cancel with
    | none => rfl
    | some c =>
      rw [(h.linked.attached ho hcancel).1] at hdone
      cases hdone
  cases hsome
  rw [hnone, check_true]
  exact h.setOp ho hinv rfl rfl id

end Events

end WinePpc64.Server.Process
