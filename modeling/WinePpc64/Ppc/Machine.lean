import WinePpc64.Lib.Memory

namespace WinePpc64.Ppc

open Lib

abbrev Reg := Fin 32

instance neZero : NeZero 32 := ⟨by decide⟩

structure State where
  gpr : Reg → BitVec 64
  fpr : Reg → BitVec 64
  lr : BitVec 64
  ctr : BitVec 64
  mem : Mem

inductive Instr
  | mflr (rt : Reg)
  | mtctr (rs : Reg)
  | mr (ra rs : Reg)
  | std (rs : Reg) (d : ℤ) (ra : Reg)
  | stdu (rs : Reg) (d : ℤ) (ra : Reg)
  | ld (rt : Reg) (d : ℤ) (ra : Reg)
  | lfd (frt : Reg) (d : ℤ) (ra : Reg)
  | mtlr (rs : Reg)
  | lis (rt : Reg) (imm : BitVec 16)
  | ori (ra rs : Reg) (imm : BitVec 16)
  | oris (ra rs : Reg) (imm : BitVec 16)
  | sldi32 (ra rs : Reg)
  | addi (rt ra : Reg) (imm : ℤ)
  deriving DecidableEq, Repr

namespace State

variable (s : State)

@[simps -fullyApplied fpr mem lr ctr] def setGpr (r : Reg) (v : BitVec 64) : State := { s with gpr := Function.update s.gpr r v }
@[simps -fullyApplied gpr mem ctr] def setFpr (r : Reg) (v : BitVec 64) : State := { s with fpr := Function.update s.fpr r v }
@[simps -fullyApplied] def store (a v : BitVec 64) : State := { s with mem := s.mem.write a 8 v }

def base (ra : Reg) : BitVec 64 := if ra = 0 then 0 else s.gpr ra

def address (ra : Reg) (d : ℤ) : BitVec 64 := s.base ra + BitVec.ofInt 64 d

end State

def exec (s : State) : Instr → State
  | .mflr rt => s.setGpr rt s.lr
  | .mtctr rs => { s with ctr := s.gpr rs }
  | .mr ra rs => s.setGpr ra (s.gpr rs)
  | .std rs d ra => s.store (s.address ra d) (s.gpr rs)
  | .stdu rs d ra => (s.store (s.address ra d) (s.gpr rs)).setGpr ra (s.address ra d)
  | .ld rt d ra => s.setGpr rt (s.mem.read (s.address ra d) 8)
  | .lfd frt d ra => s.setFpr frt (s.mem.read (s.address ra d) 8)
  | .mtlr rs => { s with lr := s.gpr rs }
  | .lis rt imm => s.setGpr rt ((imm ++ 0#16).signExtend 64)
  | .ori ra rs imm => s.setGpr ra (s.gpr rs ||| imm.setWidth 64)
  | .oris ra rs imm => s.setGpr ra (s.gpr rs ||| (imm ++ 0#16).setWidth 64)
  | .sldi32 ra rs => s.setGpr ra (s.gpr rs <<< 32)
  | .addi rt ra imm => s.setGpr rt (s.address ra imm)

def run (s : State) (p : List Instr) : State := p.foldl exec s

def State.intArg (s : State) (i : ℕ) : BitVec 64 :=
  if i < 8 then s.gpr (Fin.ofNat 32 (3 + i)) else s.mem.read (s.gpr 1 + BitVec.ofNat 64 (32 + 8 * i)) 8

def State.floatArg (s : State) (n : ℕ) : BitVec 64 := s.fpr (Fin.ofNat 32 (1 + n))

variable {s : State}

theorem run_append {p q : List Instr} : run s (p ++ q) = run (run s p) q :=
  List.foldl_append

theorem run_cons {i : Instr} {p : List Instr} : run s (i :: p) = run (exec s i) p := rfl

theorem run_nil : run s [] = s := rfl

section Frame

variable (s : State) (r : Reg) (v : BitVec 64) {q : Reg}

@[simp] theorem setGpr_same : (s.setGpr r v).gpr r = v := by simp [State.setGpr]

@[simp] theorem setGpr_other (h : q ≠ r) : (s.setGpr r v).gpr q = s.gpr q := by
  simp [State.setGpr, h]

end Frame

end WinePpc64.Ppc
