import WinePpc64.Unwind.CollidedFinally
import WinePpc64.Unwind.ResumeContext
import WinePpc64.Unwind.Search

namespace WinePpc64.Unwind

open List Walk

variable {Ctx : Type} {g : Guest Ctx} {w w' : Walk Ctx} {frames : List FrameInfo} {f : FrameInfo}
  {n : ℕ}

/-- A stack whose establisher frames are valid and increase. -/
structure GuestStack (g : Guest Ctx) (start : Ctx) (frames : List FrameInfo) : Prop where
  stack : IsStack g start frames
  sorted : frames.Pairwise fun a b => a.establisherFrame < b.establisherFrame
  valid : ∀ f ∈ frames, f.establisherFrame ≠ 0 ∧ g.validFrame f.establisherFrame = true

/-- The walk is at `f`, with the frames `above` it still to come. -/
structure Stands (g : Guest Ctx) (w : Walk Ctx) (f : FrameInfo) (above : List FrameInfo) : Prop where
  frame : w.dispatch.establisherFrame = f.establisherFrame
  handler : w.dispatch.languageHandler = f.languageHandler
  stack : GuestStack g w.context above
  sorted : ∀ x ∈ above, f.establisherFrame < x.establisherFrame
  valid : f.establisherFrame ≠ 0 ∧ g.validFrame f.establisherFrame = true

structure Passed (w w' : Walk Ctx) : Prop where
  context : w'.context = w.context
  want : w'.want = w.want
  frame : w'.dispatch.establisherFrame = w.dispatch.establisherFrame
  code : w'.unwindRec.code = w.unwindRec.code

def Reached (w : Walk Ctx) (frames : List FrameInfo) (r : Status × Walk Ctx) : Prop :=
  (r.1 = .success ↔ w.want.frame ∈ frames.map FrameInfo.establisherFrame) ∧
    r.2.unwindRec.code = w.unwindRec.code ∧ r.2.want = w.want

theorem Reached.missed {status : Status} (hw : Passed w w') (hs : status ≠ .success)
    (hmem : w.want.frame ∉ frames.map FrameInfo.establisherFrame) : Reached w frames (status, w') :=
  ⟨iff_of_false hs hmem, hw.code, hw.want⟩

theorem GuestStack.cons {start c : Ctx} (h : GuestStack g start (f :: frames))
    (hstack : IsStack g c frames) : GuestStack g c frames :=
  ⟨hstack, (pairwise_cons.mp h.sorted).2, fun x hx => h.valid x (mem_cons_of_mem f hx)⟩

section Accepted

variable {g : Searcher Ctx} {s s' : Search Ctx} {target : UnwindTarget}

end Accepted

namespace Deep

def stack (n : ℕ) : List FrameInfo :=
  (List.range n).map (fun i => ⟨Collision.base, Collision.base, true, BitVec.ofNat 64 (0x1000 * (i + 1)), .absent⟩) ++
    [Collision.frame 0x200000 [⟨0x1000, 0x1100, 1, 0x1080⟩]]

def guest : Searcher (List FrameInfo) where
  toGuest := Collision.stackGuest fun _ _ _ => .returned
  searchHandler
    | [] => .absent
    | f :: _ => f.languageHandler
  filter _ _ _ record ctx := (0, record, ctx)
  searchRun _ _ seen := .returned 1 seen
  rip _ := Collision.base
  rsp _ := 0x1000
  readable _ := true
  onGuestStack _ := false

def accepted : UnwindTarget := ⟨0x200000, Collision.base + 0x1080, 0xc0000005, 0, none, ⟨0xc0000005, 0⟩⟩

end Deep

end WinePpc64.Unwind
