import WinePpc64.Callback.StubCode

namespace WinePpc64.Callback

open Lib Ppc

def branchTarget (d : State) : Op → Option Word
  | .instr _ => none
  | .bctr => some (d.ctr &&& ~~~3#64)
  | .bctrl => some (d.ctr &&& ~~~3#64)
  | .blr => some (d.lr &&& ~~~3#64)

def InFrame (sp x : Word) : Prop := Mem.offset (sp - 112) x < 112

def InLinkSlot (sp x : Word) : Prop := Mem.offset (sp + 16) x < 8

/-- What an ELFv2 function that was called in `d` may not change, seen from the frame above the
caller's, where the stack pointer was `sp`: the stack pointer and the link register saved there. -/
structure ObeysAbi (sp : Word) (d r : State) : Prop where
  stack : r.gpr 1 = d.gpr 1
  link : r.mem.read (sp + 16) 8 = d.mem.read (sp + 16) 8

theorem frameMem_outside {s : State} {words : List (ℕ × Word)} (h : ∀ w ∈ words, w.1 ≤ 104) {x : Word}
    (hframe : ¬ InFrame (s.gpr 1) x) (hlink : ¬ InLinkSlot (s.gpr 1) x) :
    frameMem s words x = s.mem x := by
  rw [InFrame] at hframe
  rw [InLinkSlot] at hlink
  induction words using List.reverseRecOn with
  | nil =>
    have hslot := Mem.write_offset_ne (a := s.gpr 1 + 16) (m := s.mem) (k := 0) (n := 8) (x := x) s.lr
      (by omega) (by omega)
    have hback := Mem.write_offset_ne (a := s.gpr 1 - 112) (m := s.mem.write (s.gpr 1 + 16) 8 s.lr)
      (k := 0) (n := 8) (x := x) (s.gpr 1) (by omega) (by omega)
    rw [frame_zero] at hback
    rw [BitVec.add_zero] at hslot
    exact hback.trans hslot
  | append_singleton words w ih =>
    have hw := h w (by simp)
    rw [frameMem, List.foldl_append, List.foldl_cons, List.foldl_nil,
      Mem.write_offset_ne _ (by omega) (by omega)]
    exact ih fun v hv => h v (by simp [hv])

theorem Enters.argReg {s d : State} {fn dispatch : Word} {argc : ℕ} (h : Enters s d fn dispatch argc)
    {i : ℕ} (hi : i < min argc 8) :
    d.gpr (Fin.ofNat 32 (3 + i)) = s.gpr (Fin.ofNat 32 (3 + i)) := by
  have hargs := h.args i (by omega)
  rwa [intArg_reg _ (by omega), intArg_reg _ (by omega)] at hargs

def saveSlot (s : State) (i : ℕ) : Word := s.mem.read (s.gpr 1 + BitVec.ofNat 64 (32 + 8 * i)) 8

theorem intArg_slot {s : State} {i : ℕ} (h : 8 ≤ i) : s.intArg i = saveSlot s i := by
  rw [State.intArg, if_neg (by omega), saveSlot]

/-- A trampoline enters the dispatcher as ELFv2 has it and returns, if it does, to its own caller. -/
theorem trampoline_implements_abi (s : State) (fn dispatch : Word) {argc : ℕ} (hlo : 4 ≤ argc)
    (hhi : argc ≤ 9) :
    ∃ d op rest, runTo s (stubCode fn dispatch argc) = some (d, op, rest) ∧
      branchTarget d op = some (dispatch &&& ~~~3#64) ∧ d.gpr 12 = dispatch ∧
      (∀ i < min argc 8, d.gpr (Fin.ofNat 32 (3 + i)) = s.gpr (Fin.ofNat 32 (3 + i))) ∧
      (argc ≤ 7 → op = .bctr ∧ d.gpr (Fin.ofNat 32 (3 + argc)) = fn ∧ d.lr = s.lr ∧
        d.gpr 1 = s.gpr 1 ∧ d.mem = s.mem) ∧
      (8 ≤ argc → op = .bctrl ∧ saveSlot d argc = fn ∧ (argc = 9 → saveSlot d 8 = saveSlot s 8) ∧
        d.gpr 1 = s.gpr 1 - 112 ∧ d.mem.read (d.gpr 1) 8 = s.gpr 1 ∧
        (∀ x, ¬ InFrame (s.gpr 1) x → ¬ InLinkSlot (s.gpr 1) x → d.mem x = s.mem x) ∧
        ∀ r, ObeysAbi (s.gpr 1) d r → ∃ f, runTo r rest = some (f, .blr, []) ∧ f.lr = s.lr ∧
          branchTarget f .blr = some (s.lr &&& ~~~3#64) ∧ f.gpr 1 = s.gpr 1 ∧ f.gpr 3 = r.gpr 3 ∧
          f.mem = r.mem) := by
  by_cases h : argc ≤ 7
  · obtain ⟨d, hrun, henters, hlr, hsp, hmem⟩ := stubCode_jumps s fn dispatch h
    have htarget := henters.target
    rw [intArg_reg _ (by omega)] at htarget
    refine ⟨d, .bctr, [], hrun, ?_, henters.entry, fun i hi => henters.argReg hi,
      fun _ => ⟨rfl, htarget, hlr, hsp, hmem⟩, fun h8 => by omega⟩
    rw [branchTarget, henters.ctr]
  · have h89 : argc = 8 ∨ argc = 9 := by omega
    obtain ⟨d, words, hrun, henters, hsp, hmem, hwords⟩ := stubCode_frame s h89
    obtain ⟨hback, hlink, hreturns⟩ := returns_of_frame hmem hsp fun w hw => by
      have := hwords w hw
      omega
    refine ⟨d, .bctrl, epilogue, hrun, ?_, henters.entry, fun i hi => henters.argReg hi,
      fun h7 => absurd h7 h, fun h8 => ⟨rfl, ?_, fun h9 => ?_, hsp, hback, fun x hx hx' => ?_,
        fun r hr => ?_⟩⟩
    · rw [branchTarget, henters.ctr]
    · rw [← intArg_slot h8, henters.target]
    · rw [← intArg_slot le_rfl, ← intArg_slot le_rfl, henters.args 8 (by omega)]
    · rw [hmem]
      exact frameMem_outside (fun w hw => (hwords w hw).2) hx hx'
    · obtain ⟨f, hf, hlr, hrest⟩ := hreturns r hr.stack (hr.link.trans hlink)
      exact ⟨f, hf, hlr, by rw [branchTarget, hlr], hrest⟩

def ninthCaller : State where
  gpr := fun r => if r = 1 then 0x100000 else 0
  fpr := fun _ => 0
  lr := 0x10000
  ctr := 0
  mem := fun _ => 0

theorem trampoline_implements_abi_nine :
    ∃ d rest, runTo ninthCaller (stubCode 0x140001000 0x7FFF12345678 9) = some (d, .bctrl, rest) ∧
      saveSlot d 9 = 0x140001000 ∧ ∃ f, runTo d rest = some (f, .blr, []) ∧ f.lr = 0x10000 := by
  obtain ⟨d, op, rest, hrun, -, -, -, -, hcall⟩ := trampoline_implements_abi ninthCaller 0x140001000
    0x7FFF12345678 (show 4 ≤ 9 by decide) (by decide)
  obtain ⟨rfl, hfn, -, -, -, -, hreturn⟩ := hcall (by decide)
  obtain ⟨f, hf, hlr, -⟩ := hreturn d ⟨rfl, rfl⟩
  exact ⟨d, rest, hrun, hfn, f, hf, hlr⟩

end WinePpc64.Callback
