import WinePpc64.Steam.Restore

namespace WinePpc64.Steam

open Lib Lib.ByteMem

def Field.counted (f : Field) : Bool := decide (f.kind = .sized ∨ f.kind = .expr)

/-- The length a counted field stands for: count times element size, or what the method's expression says. -/
def asked (m : Method) (f : Field) (idx : ℕ) (mem : ByteMem) (params : ℕ) : ℕ :=
  if f.kind = .sized then readCount mem (params + f.lenOff) f.lenWidth * f.elem
  else match m.lenfn with
    | some fn => fn (mem.load params m.paramsSize) idx
    | none => 0

section Lengths

variable {m : Method} {mem : ByteMem} {params k : ℕ} {slots : List Slot}

theorem fieldLen_counted {f : Field} {idx ptr : ℕ} (hf : f.counted = true)
    (hlen : fieldLen m f idx mem params ptr ≠ noLen) :
    fieldLen m f idx mem params ptr = asked m f idx mem params % 2 ^ 32 := by
  rw [Field.counted, decide_eq_true_eq] at hf
  unfold fieldLen asked at *
  rcases hf with hk | hk
  · rw [hk] at hlen ⊢
    by_cases hbig : maxFrame < readCount mem (params + f.lenOff) f.lenWidth
    · exact absurd (if_pos hbig) hlen
    · rw [if_neg hbig, if_pos rfl]
  · rw [hk, if_neg (show Kind.expr ≠ .sized by decide)]
    cases m.lenfn <;> rfl

theorem length_of_measure {fs : List Field} {i need need' : ℕ}
    (h : measure m mem params fs i need = some (slots, need')) {s : Slot} (hs : slots[k]? = some s)
    (hsaved : s.saved ≠ 0) (hf : s.field.counted = true) : s.len = asked m s.field (i + k) mem params % 2 ^ 32 := by
  induction fs generalizing i need slots k with
  | nil =>
    cases h
    cases hs
  | cons f fs ih =>
    obtain ⟨len, rest, n, hrest, -, rfl, hlen⟩ := measure_cons h
    cases k with
    | zero =>
      cases hs
      obtain ⟨⟨ptr, heq⟩, hne, -⟩ := hlen hsaved
      exact heq.trans (fieldLen_counted hf (heq ▸ hne))
    | succ k =>
      rw [Nat.add_succ, ← Nat.succ_add]
      exact ih hrest hs

end Lengths

/-- The frame and the copy of the reply use the measured lengths; these are the lengths asked for exactly if none
of them reaches `2 ^ 32`. -/
theorem blob_lengths_exact_iff (c : Client) (code : ℕ) (m : Method) (mem : ByteMem) (params : ℕ)
    (request : List Octet) (slots : List Slot) (frameSize : ℕ)
    (h : prepare c code m mem params = .sent request slots frameSize) :
    request = frame code m mem params slots ∧
    (∀ bh s bytes mem', slots.find? (·.matches bh) = some s →
      copyBack slots bh bytes mem' = mem'.store s.saved (bytes.take s.len)) ∧
    ((∀ (i : ℕ) (s : Slot), slots[i]? = some s → s.saved ≠ 0 → s.field.counted = true →
        s.len = asked m s.field i mem params) ↔
      ∀ (i : ℕ) (s : Slot), slots[i]? = some s → s.saved ≠ 0 → s.field.counted = true →
        asked m s.field i mem params < 2 ^ 32) := by
  obtain ⟨-, hrequest, need, hmeasure, -⟩ := of_prepare h
  refine ⟨hrequest, fun bh s bytes mem' hs => by rw [copyBack, hs], ?_⟩
  constructor
  · intro hexact i s hs hsaved hf
    rw [← hexact i s hs hsaved hf, length_of_measure hmeasure hs hsaved hf]
    exact Nat.mod_lt _ (by decide)
  · intro hsmall i s hs hsaved hf
    have hlen := length_of_measure hmeasure hs hsaved hf
    rw [zero_add] at hlen
    rw [hlen, Nat.mod_eq_of_lt (hsmall i s hs hsaved hf)]

namespace Wide

def method (elem : ℕ) : Method := ⟨16, [⟨0, true, true, .sized, elem, 8, 8⟩], false, none⟩

def memory (count : ℕ) : ByteMem := store (fun _ => 0) 0x1000 (pack [(8, 0x2000), (8, count)])

def client : Client := ⟨0x10000, none⟩

def slots (elem len : ℕ) : List Slot := [⟨⟨0, true, true, .sized, elem, 8, 8⟩, 0x2000, 0x2000, len⟩]

theorem prepare_sent : prepare client 7 (method 4) (memory 3) 0x1000 =
    .sent (frame 7 (method 4) (memory 3) 0x1000 (slots 4 12)) (slots 4 12) 0x10000 := by decide +kernel

theorem blob_lengths_exact_iff_four : asked (method 4) ⟨0, true, true, .sized, 4, 8, 8⟩ 0 (memory 3) 0x1000 = 12 ∧
    ∀ (i : ℕ) (s : Slot), (slots 4 12)[i]? = some s → s.saved ≠ 0 → s.field.counted = true →
      s.len = asked (method 4) s.field i (memory 3) 0x1000 := by
  refine ⟨by decide +kernel, (blob_lengths_exact_iff client 7 _ _ _ _ _ _ prepare_sent).2.2.mpr ?_⟩
  intro i s hs _ _
  obtain ⟨rfl, rfl⟩ : i = 0 ∧ s = ⟨⟨0, true, true, .sized, 4, 8, 8⟩, 0x2000, 0x2000, 12⟩ := by
    cases i with
    | zero => exact ⟨rfl, (Option.some.inj hs).symm⟩
    | succ i => cases hs
  decide +kernel

theorem length_wraps : (∃ request, prepare client 7 (method 256) (memory (2 ^ 24)) 0x1000 =
      .sent request (slots 256 0) 0x10000) ∧
    asked (method 256) ⟨0, true, true, .sized, 256, 8, 8⟩ 0 (memory (2 ^ 24)) 0x1000 = 2 ^ 32 :=
  ⟨⟨frame 7 (method 256) (memory (2 ^ 24)) 0x1000 (slots 256 0), by decide +kernel⟩, by decide +kernel⟩

end Wide

end WinePpc64.Steam
