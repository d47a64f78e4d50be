import WinePpc64.Unwind.Search

namespace WinePpc64.Unwind

open Nat Search

variable {Ctx : Type}

def Search.cost (s : Search Ctx) : ℕ := s.events.length + s.teb.length

/-- What the handlers of one frame leave of a budget for entries and TEB frames, where each collision pays
for itself; `e`, `c` and `d` are the entries, the collisions and the depth there were. -/
inductive Spends (b e c d : ℕ) : Verdict Ctx → Prop
  | onward {s : Search Ctx} : s.cost ≤ b → s.depth = d → s.collisions = c → e ≤ s.events.length →
      Spends b e c d (.onward s)
  | collided {s : Search Ctx} : s.cost + c < b + s.collisions → s.depth = d →
      s.collisions + e ≤ c + s.events.length → Spends b e c d (.collided s)
  | done {s : Search Ctx} {r : SearchResult} : s.events.length ≤ b → c ≤ s.collisions →
      s.collisions + e ≤ c + s.events.length → Spends b e c d (.done r s)

variable {g : Searcher Ctx} {s s' : Search Ctx} {v : Verdict Ctx} {b e c d n : ℕ}

theorem Spends.mono (h : Spends b e c d v) {b' e' : ℕ} (hb : b ≤ b') (he : e' ≤ e) : Spends b' e' c d v := by
  cases h with
  | onward h₁ h₂ h₃ h₄ => exact .onward (h₁.trans hb) h₂ h₃ (he.trans h₄)
  | collided h₁ h₂ h₃ => exact .collided (by omega) h₂ (by omega)
  | done h₁ h₂ h₃ => exact .done (h₁.trans hb) h₂ (by omega)

/-- One handler was entered, which has only seen to what it was handed. -/
structure Search.Entered (s s' : Search Ctx) : Prop where
  events : s'.events.length = s.events.length + 1
  teb : s'.teb = s.teb
  depth : s'.depth = s.depth
  collisions : s'.collisions = s.collisions

namespace Alternating

def guest : Searcher Unit where
  virtualUnwind _ := .ok (⟨0x401000, 0x400000, true, 0x7000, .absent⟩, ())
  skipFrame _ c := c
  validFrame _ := true
  guestModule _ := true
  onUnwoundStack _ := true
  onRunStack _ := false
  funclet _ _ _ := .returned
  handler _ _ _ dispatch := .returned 1 dispatch ()
  consolidate _ _ := .ok 0
  withRax c _ := c
  withRip c _ := c
  searchHandler _ := .guest 0x402000
  filter _ _ _ record ctx := (0, record, ctx)
  searchRun _ _ seen := .returned 3
    { seen with dispatch := { seen.dispatch with scopeIndex := 1 - seen.dispatch.scopeIndex } }
  rip _ := 0x401000
  rsp _ := 0x7000
  readable _ := true
  onGuestStack _ := true

structure Spinning (s : Search Unit) : Prop where
  handler : s.dispatch.languageHandler = .guest 0x402000
  frame : s.dispatch.establisherFrame = 0x7000
  entry : s.dispatch.functionEntry = true
  context : s.dispatch.contextRecord = .result
  scope : s.dispatch.scopeIndex ≤ 1
  last : s.collidedFrame = 0 ∨ s.collidedScope = s.dispatch.scopeIndex

def spun (s : Search Unit) : Search Unit :=
  let s := (s.enter s.dispatch.establisherFrame).mask
  { s with
    dispatch := { s.dispatch with scopeIndex := 1 - s.dispatch.scopeIndex }
    collidedFrame := s.dispatch.establisherFrame
    collidedScope := 1 - s.dispatch.scopeIndex
    collisions := s.collisions + 1 }

theorem Spinning.turn {s : Search Unit} (h : Spinning s) : s.turn guest = .inr (spun s) ∧ Spinning (spun s) := by
  have hnew : ¬ (s.dispatch.establisherFrame = s.collidedFrame ∧
      1 - s.dispatch.scopeIndex = s.collidedScope) := by
    rintro ⟨hframe, hscope⟩
    rcases h.last with h0 | h0
    · rw [h.frame, h0] at hframe
      exact absurd hframe (by decide)
    · omega
  have hvalid : ¬ (s.dispatch.establisherFrame = 0 ∨
      guest.validFrame s.dispatch.establisherFrame = false) := by
    rw [h.frame]
    decide
  have hturn : s.turn guest = .inr (spun s) := by
    rw [Search.turn, if_neg hvalid]
    simp only [handlers, h.handler]
    simp [guest, callGuestHandlerRun, enter, dispositionOf, languageAnswer, mask,
      collide, adopt, h.context, h.entry, hnew, spun]
  refine ⟨hturn, { h with scope := sub_le _ _, last := .inr rfl }⟩

end Alternating

end WinePpc64.Unwind
