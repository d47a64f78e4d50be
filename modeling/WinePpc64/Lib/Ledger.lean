import Mathlib

namespace WinePpc64.Lib

structure Ledger where
  count : ℕ
  loan : ℕ
  delivered : ℕ
  supplied : ℕ

namespace Ledger

inductive Step (max : ℕ) : Ledger → Ledger → Prop
  | idle (l : Ledger) : Step max l l
  | acquire {l : Ledger} : l.count ≠ 0 →
      Step max l { l with count := l.count - 1, delivered := l.delivered + 1 }
  | lend {l : Ledger} : l.count ≠ 0 → Step max l { l with count := l.count - 1, loan := l.loan + 1 }
  | place {l : Ledger} : l.loan ≠ 0 →
      Step max l { l with loan := l.loan - 1, delivered := l.delivered + 1 }
  | giveBack {l : Ledger} : l.loan ≠ 0 → Step max l { l with count := l.count + 1, loan := l.loan - 1 }
  | supply {l : Ledger} (n : ℕ) : l.count + l.loan + n ≤ max →
      Step max l { l with count := l.count + n, supplied := l.supplied + n }

structure Balanced (max : ℕ) (l : Ledger) : Prop where
  conserved : l.count + l.loan + l.delivered = l.supplied
  bounded : l.count + l.loan ≤ max

variable {max : ℕ} {l l' : Ledger}

theorem Step.balanced (h : Step max l l') (hb : Balanced max l) : Balanced max l' := by
  obtain ⟨hc, hle⟩ := hb
  cases h with
  | idle => exact ⟨hc, hle⟩
  | acquire hne => constructor <;> simp only <;> omega
  | lend hne => constructor <;> simp only <;> omega
  | place hne => constructor <;> simp only <;> omega
  | giveBack hne => constructor <;> simp only <;> omega
  | supply n hroom => constructor <;> simp only <;> omega

theorem Step.count_add_loan_le (h : Step max l l') (hs : l'.supplied = l.supplied) :
    l'.count + l'.loan ≤ l.count + l.loan := by
  cases h with
  | idle => exact Nat.le_refl _
  | acquire hne | lend hne | place hne | giveBack hne => simp only; omega
  | supply n hroom => simp only at hs ⊢; omega

end Ledger

end WinePpc64.Lib
