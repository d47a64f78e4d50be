import WinePpc64.Handles.MapRuns

namespace WinePpc64.Handles

open Lib

/-- In every run of safe requests no NULL process and no entry outside a table is used. -/
theorem global_handles_safe_iff (s : State)
    (hr : Reaches step (fun s l => ReqOk l.1 s l.2) State.init s) (pol : Policy) :
    s.Ok ∧
    (∀ req, (handle pol s req ≠ .error .nullProcess ∧ handle pol s req ≠ .error .outOfBounds) ↔
      ReqOk pol s req) ∧
    ∀ p h s', closeHandle pol s p h = .ok (s', .success) → Cleared s s' p h := by
  have hgood : s.Good := good_of_reaches (reaches_served (hr.mono fun _ _ _ => trivial))
  refine ⟨hgood.ok, fun req => ⟨fun hsafe => ?_, fun hok => ?_⟩, fun p h s' => closeHandle_cleared hgood.ok⟩
  · by_contra hok
    rw [handle] at hsafe
    rcases answer_faults hgood hok with h | h <;> rw [h] at hsafe
    · exact hsafe.1 rfl
    · exact hsafe.2 rfl
  · rw [handle]
    by_cases hgranted : Granted pol s req
    · obtain ⟨s', reply, heq, -⟩ := answer_refines hgood ⟨hok, hgranted⟩
      simp [heq, Except.map]
    · simp [answer_asserts hgranted, Except.map]

namespace OneObject

def requests : List (Policy × Req) :=
  [(policy, .start 0 1 .nothing []), (policy, .openObject 1 7 3 false),
    (policy, .dup (some 1) (some 1) 4 0 false plain), (policy, .setInfo 1 0x544a4deb 1 1)]

/-- The faults a state leads to by closing the global handle, by starting a process that inherits it, by
duplicating with the attributes of the source, and by asking for more access than the source has. -/
def faults (s : State) : List (Option Fault) :=
  [Req.close 1 0x544a4deb, .start 1 2 (.list [0x544a4deb]) [],
    .dup (some 1) (some 1) 4 0 false ⟨false, true, true, true⟩,
    .dup (some 1) (some 1) 4 8 false ⟨false, false, false, true⟩].map fun req =>
      match handle policy s req with
      | .ok _ => none
      | .error f => some f

theorem global_handle_faults : ((Lib.run step State.init requests).map faults) =
    some [some .outOfBounds, some .outOfBounds, some .nullProcess, some .nullProcess] := by
  decide +kernel

theorem global_handles_safe_iff_own : ∃ s s', Lib.run step State.init requests = some s ∧
    closeHandle policy s 1 4 = .ok (s', .success) ∧ Cleared s s' 1 4 := by
  have hclosed : (Lib.run step State.init requests).map (fun s =>
      (closeHandle policy s 1 4).toOption.map Prod.snd) = some (some .success) := by decide +kernel
  obtain ⟨s, hs, hstatus⟩ := Option.map_eq_some_iff.mp hclosed
  cases hc : closeHandle policy s 1 4 with
  | error f =>
    rw [hc] at hstatus
    cases hstatus
  | ok r =>
    obtain ⟨s', st⟩ := r
    rw [hc] at hstatus
    cases hstatus
    exact ⟨s, s', hs, hc, (global_handles_safe_iff s ((reaches_served (reaches_of_run hs)).mono fun _ _ h => h.1)
      policy).2.2 1 4 s' hc⟩

end OneObject

end WinePpc64.Handles
