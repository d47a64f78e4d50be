import Mathlib

namespace WinePpc64.Emu.Simulate32

abbrev Dword := BitVec 32

structure IntegerRegs where
  eax : Dword
  ebx : Dword := 0
  ecx : Dword := 0
  edx : Dword := 0
  esi : Dword := 0
  edi : Dword := 0

structure ControlRegs where
  esp : Dword
  ebp : Dword := 0
  eip : Dword
  eFlags : Dword := 0
  segCs : Dword := 0
  segSs : Dword := 0

structure SegmentRegs where
  segDs : Dword := 0
  segEs : Dword := 0
  segFs : Dword := 0
  segGs : Dword := 0

structure DebugRegs where
  dr0 : Dword := 0
  dr1 : Dword := 0
  dr2 : Dword := 0
  dr3 : Dword := 0
  dr6 : Dword := 0
  dr7 : Dword := 0

/-- `I386_CONTEXT`, its registers by the groups that `ContextFlags` names. -/
structure Context where
  integer : IntegerRegs
  control : ControlRegs
  segments : SegmentRegs := {}
  debug : DebugRegs := {}
  extendedRegisters : List UInt8 := []
  floatSave : List UInt8 := []

def contextI386 : Dword := 0x10000
def contextI386Control : Dword := 0x10001
def contextI386Integer : Dword := 0x10002
def contextI386Segments : Dword := 0x10004
def contextI386FloatingPoint : Dword := 0x10008
def contextI386DebugRegisters : Dword := 0x10010
def contextI386ExtendedRegisters : Dword := 0x10020

def takes (contextFlags group : Dword) : Bool := contextFlags &&& ~~~contextI386 &&& group ≠ 0

/-- The thread's `WOW64_CPURESERVED` area. -/
structure CpuArea where
  frame : Context
  resetState : Bool := false

def setThreadWow64Context (a : CpuArea) (contextFlags : Dword) (new : Context) : CpuArea where
  frame :=
    { integer := if takes contextFlags contextI386Integer then new.integer else a.frame.integer
      control := if takes contextFlags contextI386Control then new.control else a.frame.control
      segments := if takes contextFlags contextI386Segments then new.segments else a.frame.segments
      debug := if takes contextFlags contextI386DebugRegisters then new.debug else a.frame.debug
      extendedRegisters := if takes contextFlags contextI386ExtendedRegisters
        then new.extendedRegisters else a.frame.extendedRegisters
      floatSave := if takes contextFlags contextI386FloatingPoint
        then new.floatSave else a.frame.floatSave }
  resetState := a.resetState || takes contextFlags contextI386Control

/-- A system service: the context it puts under the calling thread, if it does, and its status. -/
structure Service where
  replaces : Option (Dword × Context)
  status : Dword

def wow64NtContinue (contextFlags : Dword) (context : Context) : Service :=
  ⟨some (contextFlags, context), context.integer.eax⟩

/-- On the current thread, where `RtlWow64SetThreadContext` succeeds. -/
def wow64NtSetContextThread (contextFlags : Dword) (context : Context) : Service :=
  ⟨some (contextFlags, context), 0⟩

def Service.replace (s : Service) (a : CpuArea) : CpuArea :=
  s.replaces.elim a fun r => setThreadWow64Context a r.1 r.2

def CpuArea.setReturn (a : CpuArea) (mem : Dword → Dword) : CpuArea :=
  { a with frame := { a.frame with control := { a.frame.control with
      eip := mem a.frame.control.esp
      esp := a.frame.control.esp + 4 } } }

def CpuArea.setEax (a : CpuArea) (eax : Dword) : CpuArea :=
  { a with frame := { a.frame with integer := { a.frame.integer with eax := eax } } }

/-- One turn of the loop of `BTCpuSimulate` at `EMU32_RUN_SYSCALL`. -/
def simulateSyscall (wow64SystemServiceEx : Dword → Dword → Service) (mem : Dword → Dword)
    (a : CpuArea) : CpuArea :=
  let s := wow64SystemServiceEx a.frame.integer.eax (a.frame.control.esp + 8)
  { (s.replace (a.setReturn mem)).setEax s.status with resetState := false }

/-- The context the guest is to go on with: the return of the call with its status, under the
groups the service has replaced. -/
def resumes (wow64SystemServiceEx : Dword → Dword → Service) (mem : Dword → Dword) (a : CpuArea) :
    Context :=
  let s := wow64SystemServiceEx a.frame.integer.eax (a.frame.control.esp + 8)
  (s.replace ((a.setReturn mem).setEax s.status)).frame

def Service.KeepsEax (s : Service) : Prop :=
  ∀ r ∈ s.replaces, takes r.1 contextI386Integer = true → r.2.integer.eax = s.status

theorem replace_setEax_iff {s : Service} {a : CpuArea} :
    ((s.replace a).setEax s.status).frame = (s.replace (a.setEax s.status)).frame ↔ s.KeepsEax := by
  obtain ⟨_ | ⟨flags, new⟩, status⟩ := s
  · exact ⟨fun _ _ h => (nomatch h), fun _ => rfl⟩
  have hkeeps : Service.KeepsEax ⟨some (flags, new), status⟩ ↔
      (takes flags contextI386Integer = true → new.integer.eax = status) :=
    ⟨fun h => h _ rfl, fun h r hr => Option.some.inj hr ▸ h⟩
  rw [hkeeps]
  simp only [Service.replace, Option.elim_some, setThreadWow64Context, CpuArea.setEax,
    Context.mk.injEq, and_true]
  cases takes flags contextI386Integer
  · simp
  · obtain ⟨-, _, _, _, _, _⟩ := new.integer
    simp [eq_comm]

theorem simulate_resumes_iff (wow64SystemServiceEx : Dword → Dword → Service) (mem : Dword → Dword)
    (a : CpuArea) : (simulateSyscall wow64SystemServiceEx mem a).frame =
      resumes wow64SystemServiceEx mem a ↔
    (wow64SystemServiceEx a.frame.integer.eax (a.frame.control.esp + 8)).KeepsEax :=
  replace_setEax_iff

theorem ntContinue_keepsEax (contextFlags : Dword) (context : Context) :
    (wow64NtContinue contextFlags context).KeepsEax := by
  intro r hr _
  cases hr
  rfl

theorem ntSetContextThread_drops_eax :
    let new : Context := { integer := { eax := 5 }, control := { esp := 0, eip := 0 } }
    let services := fun _ _ => wow64NtSetContextThread contextI386Integer new
    let a : CpuArea := ⟨{ integer := { eax := 0x18 }, control := { esp := 0x1000, eip := 0x2000 } }, false⟩
    (simulateSyscall services (fun _ => 0x3000) a).frame.integer.eax = 0 ∧
      (resumes services (fun _ => 0x3000) a).integer.eax = 5 :=
  ⟨rfl, rfl⟩

end WinePpc64.Emu.Simulate32
