import WinePpc64.Cxx.ScopeUnwind

namespace WinePpc64.Cxx

open List

variable {descr : FuncInfo} {tb : TryBlockInfo} {c : CatchBlockInfo} {dispatch : Dispatcher} {s : ℤ}

/-- The funclet whose code has a state (the function's own code: `none`), and the addresses of its code. -/
structure Code where
  funclet : ℤ → Option Rva
  holds : Option Rva → ℕ → Prop

/-- The code the tables describe: around a state of a catch block's own code every try in the catch block is
one of that code, and a catch block's funclet returns into the code that has its try. -/
structure Compiled (descr : FuncInfo) (code : Code) (returns : Rva → Addr → ℕ) : Prop where
  nested : ∀ tb ∈ descr.tryblock, ∀ c ∈ tb.catchblock, ∀ tb' ∈ descr.tryblock,
    tb.endLevel < tb'.startLevel → tb'.endLevel ≤ tb.catchLevel → ∀ s, tb'.startLevel ≤ s → s ≤ tb'.endLevel →
      code.funclet s = some c.handler → code.funclet tb'.startLevel = some c.handler
  returns : ∀ tb ∈ descr.tryblock, ∀ c ∈ tb.catchblock, ∀ frame,
    code.holds (code.funclet tb.startLevel) (returns c.handler frame)

/-- The clause is one of a try around the level, between the two bounds. -/
def Offers (descr : FuncInfo) (low high level : ℤ) (p : CatchParams) : Prop :=
  ∃ tb ∈ descr.tryblock, ∃ c ∈ tb.catchblock, p.startLevel = tb.startLevel ∧ p.handler = c.handler ∧
    low < tb.startLevel ∧ tb.endLevel ≤ high ∧ tb.startLevel ≤ level ∧ level ≤ tb.endLevel

/-- The clause's funclet returns into the catch block's code if the level searched is one of that code. -/
theorem Offers.returns {code : Code} {returns : Rva → Addr → ℕ} (hc : Compiled descr code returns)
    (htb : tb ∈ descr.tryblock) (hclause : c ∈ tb.catchblock) {p : CatchParams}
    (h : Offers descr tb.endLevel tb.catchLevel s p) (hs : code.funclet s = some c.handler) :
    code.holds (some c.handler) (returns p.handler p.frame) := by
  obtain ⟨tb', htb', c', hc', -, hhandler, hlow, hhigh, hstart, hend⟩ := h
  rw [← hc.nested tb htb c hclause tb' htb' hlow hhigh s hstart hend hs, hhandler]
  exact hc.returns tb' htb' c' hc' p.frame

namespace TryInCatch

def outerCatch : CatchBlockInfo := ⟨0, none, 0, 0x1300, 0x20⟩
def outer : TryBlockInfo := ⟨0, 0, 5, [outerCatch]⟩
def innerCatch : CatchBlockInfo := ⟨0, none, 0, 0x1400, 0x20⟩
def inner : TryBlockInfo := ⟨2, 2, 5, [innerCatch]⟩
def deepCatch : CatchBlockInfo := ⟨0, none, 0, 0x1500, 0x20⟩
def deep : TryBlockInfo := ⟨4, 4, 5, [deepCatch]⟩

def function : FuncInfo where
  magic := cxxFrameMagicVC8
  unwindTable := [⟨-1, 0⟩, ⟨-1, 0⟩, ⟨1, 0⟩, ⟨1, 0⟩, ⟨3, 0⟩, ⟨3, 0⟩]
  tryblock := [outer, inner, deep]
  ipmap := [⟨0x1000, -1⟩, ⟨0x1010, 0⟩, ⟨0x1300, 1⟩, ⟨0x1310, 2⟩, ⟨0x1400, 3⟩, ⟨0x1410, 4⟩, ⟨0x1500, 5⟩]
  flags := 0

def code : Code where
  funclet s := if s ≤ 0 then none else if s ≤ 2 then some 0x1300 else if s ≤ 4 then some 0x1400 else some 0x1500
  holds f a := match f with
    | none => 0x401000 ≤ a ∧ a < 0x401300
    | some h => 0x400000 + h.toNat ≤ a ∧ a < 0x400000 + h.toNat + 0x100

/-- In the catch block of the outer try, in the body of the inner one. -/
def within : Dispatcher := ⟨0x401318, 0x400000, 0x1300⟩

def thread (words : ℤ × ℤ) : Thread where
  help _ := words
  link _ _ := 0x7000
  log := []
  returns h _ := if h = 0x1300 then 0x401080 else if h = 0x1400 then 0x401380 else 0x401480

end TryInCatch

end WinePpc64.Cxx
