import Mathlib

namespace WinePpc64.Cpu

open List Nat

abbrev Text := List Char

def isSpace (c : Char) : Bool := [' ', '\t', '\n', '\x0b', '\x0c', '\r'].contains c

def strtoul (s : Text) : Option (ℕ × Text) :=
  let s := s.dropWhile isSpace
  let sign : Bool × Text := match s with
    | '-' :: r => (true, r)
    | '+' :: r => (false, r)
    | _ => (false, s)
  let digits := sign.2.takeWhile Char.isDigit
  let v := Nat.ofDigitChars 10 digits 0
  if digits.isEmpty then none
  else some (if 2 ^ 64 ≤ v then 2 ^ 64 - 1 else if sign.1 then (2 ^ 64 - v) % 2 ^ 64 else v,
    sign.2.dropWhile Char.isDigit)

def isSeparator (c : Char) : Bool := [' ', ',', '\n'].contains c

def parseRanges : ℕ → Text → List (ℕ × ℕ)
  | 0, _ => []
  | n + 1, p =>
    let p := p.dropWhile isSeparator
    match strtoul p with
    | none => []
    | some (first, '-' :: p) =>
      match strtoul p with
      | none => []
      | some (last, p) =>
        if last % 2 ^ 32 < first % 2 ^ 32 then []
        else (first % 2 ^ 32, last % 2 ^ 32) :: parseRanges n p
    | some (first, p) => (first % 2 ^ 32, first % 2 ^ 32) :: parseRanges n p

/-- The values of a range. The loop of the source does not end for one up to 4294967295, where its counter wraps. -/
def rangeValues (r : ℕ × ℕ) : List ℕ := List.range' r.1 (r.2 + 1 - r.1)

def fgets (file : Text) : Option Text :=
  let buf := file.take 8191
  let line := buf.takeWhile (· ≠ '\n') ++ (buf.dropWhile (· ≠ '\n')).take 1
  if file.isEmpty then none else some (line.takeWhile (· ≠ '\x00'))

def parseList (file : Option Text) : Option (List ℕ) := do
  let line ← fgets (← file)
  some ((parseRanges (line.length + 1) line).flatMap rangeValues)

def showRange (r : ℕ × ℕ) : Text :=
  if r.1 = r.2 then Nat.toDigits 10 r.1 else Nat.toDigits 10 r.1 ++ '-' :: Nat.toDigits 10 r.2

def showRanges : List (ℕ × ℕ) → Text
  | [] => []
  | [r] => showRange r
  | r :: rs => showRange r ++ ',' :: showRanges rs

def runs : List ℕ → List (ℕ × ℕ)
  | [] => []
  | n :: l =>
    match runs l with
    | [] => [(n, n)]
    | (a, b) :: rs => if n + 1 = a then (n, b) :: rs else (n, n) :: (a, b) :: rs

def kernelList (l : List ℕ) : Text := showRanges (runs l) ++ ['\n']

example : String.ofList (kernelList [0, 1, 2, 3, 8, 9, 64]) = "0-3,8-9,64\n" := by decide

example : parseList (some (kernelList [0, 1, 2, 3, 8, 9, 64])) = some [0, 1, 2, 3, 8, 9, 64] := by decide

theorem runs_ordered (l : List ℕ) : ∀ r ∈ runs l, r.1 ≤ r.2 ∧ r.1 ∈ l ∧ r.2 ∈ l := by
  induction l with
  | nil => simp [runs]
  | cons n l ih =>
    rw [runs]
    split
    next => simp
    next a b rs heq =>
      rw [heq] at ih
      obtain ⟨hab, ha, hb⟩ := ih (a, b) (by simp)
      have hrs : ∀ r ∈ rs, r.1 ≤ r.2 ∧ r.1 ∈ n :: l ∧ r.2 ∈ n :: l := by
        intro r hr
        obtain ⟨h₁, h₂, h₃⟩ := ih r (by simp [hr])
        exact ⟨h₁, by simp [h₂], by simp [h₃]⟩
      split
      next hn =>
        intro r hr
        rcases mem_cons.mp hr with rfl | hr
        · exact ⟨by omega, by simp, by simp [hb]⟩
        · exact hrs r hr
      next =>
        intro r hr
        rcases mem_cons.mp hr with rfl | hr
        · simp
        · rcases mem_cons.mp hr with rfl | hr
          · exact ⟨hab, by simp [ha], by simp [hb]⟩
          · exact hrs r hr

variable {n : ℕ} {l : List ℕ}

theorem rangeValues_self : rangeValues (n, n) = [n] := by
  simp [rangeValues]

theorem flatMap_runs : (runs l).flatMap rangeValues = l := by
  induction l with
  | nil => rfl
  | cons n l ih =>
    rw [runs]
    split
    next heq =>
      rw [heq] at ih
      simp [rangeValues_self, ← ih]
    next a b rs heq =>
      rw [heq] at ih
      have hab := (runs_ordered l (a, b) (by simp [heq])).1
      split
      next hn =>
        have hcons : rangeValues (n, b) = n :: rangeValues (a, b) := by
          unfold rangeValues
          rw [← hn] at hab ⊢
          rw [show b + 1 - n = (b + 1 - (n + 1)) + 1 by omega, range'_succ]
        simp only [flatMap_cons, hcons, cons_append]
        rw [← ih, flatMap_cons]
      next => rw [flatMap_cons, rangeValues_self, ih]; rfl

theorem takeWhile_digits {ds rest : Text} (hds : ∀ c ∈ ds, c.isDigit = true)
    (hrest : ∀ c ∈ rest.head?, c.isDigit = false) :
    (ds ++ rest).takeWhile Char.isDigit = ds ∧ (ds ++ rest).dropWhile Char.isDigit = rest := by
  rw [takeWhile_append_of_pos hds, dropWhile_append_of_pos hds]
  cases rest with
  | nil => simp
  | cons c cs =>
    have hc : c.isDigit = false := hrest c rfl
    simp [hc]

variable {c d sep : Char} {n : ℕ}

theorem digit_ne (h : c.isDigit = true) (hd : d.isDigit = false) : c ≠ d := by
  rintro rfl
  cases h.symm.trans hd

theorem isSpace_digit (h : c.isDigit = true) : isSpace c = false := by
  simp [isSpace, digit_ne h]

theorem isSeparator_digit (h : c.isDigit = true) : isSeparator c = false := by
  simp [isSeparator, digit_ne h]

theorem strtoul_toDigits {rest : Text} (hn : n < 2 ^ 64) (hrest : ∀ c ∈ rest.head?, c.isDigit = false) :
    strtoul (Nat.toDigits 10 n ++ rest) = some (n, rest) := by
  have hdigit : ∀ c ∈ Nat.toDigits 10 n, c.isDigit = true := fun c hc =>
    isDigit_of_mem_toDigits (by decide) (by decide) hc
  obtain ⟨c, cs, hcs⟩ := exists_cons_of_ne_nil (toDigits_ne_nil (n := n) (b := 10))
  have hc := hdigit c (by simp [hcs])
  obtain ⟨htake, hdrop⟩ := takeWhile_digits hdigit hrest
  have hskip : (Nat.toDigits 10 n ++ rest).dropWhile isSpace = Nat.toDigits 10 n ++ rest := by
    rw [hcs, cons_append, dropWhile_cons, isSpace_digit hc]
    rfl
  have hsign : (match Nat.toDigits 10 n ++ rest with
      | '-' :: r => (true, r)
      | '+' :: r => (false, r)
      | _ => (false, Nat.toDigits 10 n ++ rest) : Bool × Text) = (false, Nat.toDigits 10 n ++ rest) := by
    rw [hcs]
    split
    next heq => exact absurd (List.cons.inj heq).1 (digit_ne hc rfl)
    next heq => exact absurd (List.cons.inj heq).1 (digit_ne hc rfl)
    next => rfl
  have hne : (Nat.toDigits 10 n).isEmpty = false := by simp [hcs]
  have hval : Nat.ofDigitChars 10 (Nat.toDigits 10 n) 0 = n := ofDigitChars_toDigits (by decide) (by decide)
  unfold strtoul
  dsimp only
  rw [hskip, hsign]
  rw [htake, hdrop, hval, hne, if_neg (not_le.mpr hn)]
  rfl

theorem toDigits_append {rest : Text} : ∃ c cs, Nat.toDigits 10 n ++ rest = c :: cs ∧ c.isDigit = true := by
  obtain ⟨c, cs, hcs⟩ := exists_cons_of_ne_nil (toDigits_ne_nil)
  exact ⟨c, cs ++ rest, by rw [hcs]; rfl, isDigit_of_mem_toDigits (n := n) (b := 10) (by decide) (by decide) (by simp [hcs])⟩

theorem dropWhile_toDigits {rest : Text} :
    (Nat.toDigits 10 n ++ rest).dropWhile isSeparator = Nat.toDigits 10 n ++ rest := by
  obtain ⟨c, cs, hcs, hc⟩ := toDigits_append
  rw [hcs, dropWhile_cons, isSeparator_digit hc]
  rfl

theorem parseRanges_sep (hc : isSeparator c = true) {p : Text} :
    parseRanges n (c :: p) = parseRanges n p := by
  cases n with
  | zero => rfl
  | succ n => simp only [parseRanges, dropWhile_cons_of_pos hc]

theorem parseRanges_single {p q : Text} {first : ℕ} (h : strtoul (p.dropWhile isSeparator) = some (first, q))
    (hq : q.head? ≠ some '-') :
    parseRanges (n + 1) p = (first % 2 ^ 32, first % 2 ^ 32) :: parseRanges n q := by
  rw [parseRanges, h]
  split
  next heq => cases heq
  next heq =>
    rw [(Prod.mk.inj (Option.some.inj heq)).2] at hq
    exact absurd rfl hq
  next heq =>
    obtain ⟨rfl, rfl⟩ := Prod.mk.inj (Option.some.inj heq)
    rfl

theorem parseRanges_pair {p q q' : Text} {first last : ℕ}
    (h : strtoul (p.dropWhile isSeparator) = some (first, '-' :: q)) (h' : strtoul q = some (last, q'))
    (hle : first % 2 ^ 32 ≤ last % 2 ^ 32) :
    parseRanges (n + 1) p = (first % 2 ^ 32, last % 2 ^ 32) :: parseRanges n q' := by
  rw [parseRanges, h]
  simp only [h']
  exact if_neg (not_lt.mpr hle)

theorem parseRanges_showRange {r : ℕ × ℕ} {rest : Text} (hr : r.1 ≤ r.2) (hlt : r.2 < 2 ^ 32)
    (hsep : isSeparator sep = true) :
    parseRanges (n + 1) (showRange r ++ sep :: rest) = r :: parseRanges n (sep :: rest) := by
  have hdigit : sep.isDigit = false := by
    by_contra h
    rw [isSeparator_digit (by simpa using h)] at hsep
    cases hsep
  have hdash : sep ≠ '-' := by
    rintro rfl
    cases hsep
  have hrest : ∀ c ∈ (sep :: rest).head?, c.isDigit = false := by simpa using hdigit
  have h₁ : r.1 % 2 ^ 32 = r.1 := mod_eq_of_lt (by omega)
  have h₂ : r.2 % 2 ^ 32 = r.2 := mod_eq_of_lt hlt
  unfold showRange
  split
  next heq =>
    have hread : strtoul ((Nat.toDigits 10 r.1 ++ sep :: rest).dropWhile isSeparator) = some (r.1, sep :: rest) := by
      rw [dropWhile_toDigits, strtoul_toDigits (by omega) hrest]
    rw [parseRanges_single hread (by simpa using hdash), h₁]
    exact congrArg (· :: _) (Prod.ext rfl heq)
  next hne =>
    have hread : strtoul ((Nat.toDigits 10 r.1 ++ '-' :: Nat.toDigits 10 r.2 ++ sep :: rest).dropWhile isSeparator) =
        some (r.1, '-' :: (Nat.toDigits 10 r.2 ++ sep :: rest)) := by
      rw [append_assoc, dropWhile_toDigits]
      exact strtoul_toDigits (by omega) (by simp)
    rw [parseRanges_pair hread (strtoul_toDigits (by omega) hrest) (by omega), h₁, h₂]

theorem parseRanges_showRanges {rs : List (ℕ × ℕ)} (hrs : ∀ r ∈ rs, r.1 ≤ r.2 ∧ r.2 < 2 ^ 32)
    (hn : rs.length < n) : parseRanges n (showRanges rs ++ ['\n']) = rs := by
  induction rs generalizing n with
  | nil =>
    cases n <;> rfl
  | cons r rs ih =>
    obtain ⟨m, rfl⟩ : ∃ m, n = m + 1 := ⟨n - 1, by simp at hn; omega⟩
    obtain ⟨hle, hlt⟩ := hrs r (by simp)
    have ih := ih (fun r hr => hrs r (by simp [hr])) (by simpa using hn)
    cases rs with
    | nil =>
      rw [showRanges, parseRanges_showRange hle hlt rfl]
      exact congrArg (r :: ·) ih
    | cons r' rs =>
      rw [showRanges, append_assoc, cons_append, parseRanges_showRange hle hlt rfl,
        parseRanges_sep rfl, ih]
      simp

theorem mem_showRanges (rs : List (ℕ × ℕ)) : ∀ c ∈ showRanges rs, c.isDigit = true ∨ c = '-' ∨ c = ',' := by
  have hdigits : ∀ n, ∀ c ∈ Nat.toDigits 10 n, c.isDigit = true := fun n c hc =>
    isDigit_of_mem_toDigits (by decide) (by decide) hc
  have hrange : ∀ r, ∀ c ∈ showRange r, c.isDigit = true ∨ c = '-' := by
    intro r c hc
    unfold showRange at hc
    split at hc
    · exact .inl (hdigits _ c hc)
    rcases mem_append.mp hc with hc | hc
    · exact .inl (hdigits _ c hc)
    · rcases mem_cons.mp hc with rfl | hc
      · exact .inr rfl
      · exact .inl (hdigits _ c hc)
  induction rs with
  | nil => simp [showRanges]
  | cons r rs ih =>
    cases rs with
    | nil =>
      intro c hc
      rcases hrange r c hc with h | h
      · exact .inl h
      · exact .inr (.inl h)
    | cons r' rs =>
      intro c hc
      rw [showRanges] at hc
      · rcases mem_append.mp hc with hc | hc
        · rcases hrange r c hc with h | h
          · exact .inl h
          · exact .inr (.inl h)
        · rcases mem_cons.mp hc with rfl | hc
          · exact .inr (.inr rfl)
          · exact ih c hc
      · simp

theorem length_le_showRanges (rs : List (ℕ × ℕ)) : rs.length ≤ (showRanges rs).length := by
  have hrange : ∀ r, 1 ≤ (showRange r).length := by
    intro r
    unfold showRange
    have := length_pos_iff.mpr (toDigits_ne_nil (n := r.1) (b := 10))
    split
    · exact this
    · rw [length_append]
      omega
  induction rs with
  | nil => simp
  | cons r rs ih =>
    have := hrange r
    cases rs with
    | nil => simpa [showRanges] using this
    | cons r' rs =>
      simp only [showRanges, length_append, length_cons] at ih ⊢
      omega

theorem parseList_kernelList (hl : ∀ n ∈ l, n < 2 ^ 32) (hlen : (kernelList l).length < 8192) :
    parseList (some (kernelList l)) = some l := by
  have hmem := mem_showRanges (runs l)
  have hne : ∀ c ∈ showRanges (runs l), c ≠ '\n' ∧ c ≠ '\x00' := by
    intro c hc
    rcases hmem c hc with h | rfl | rfl
    · exact ⟨digit_ne h rfl, digit_ne h rfl⟩
    · decide
    · decide
  have hline : fgets (kernelList l) = some (kernelList l) := by
    unfold fgets
    dsimp only
    rw [take_of_length_le (by omega)]
    have hfirst : ∀ c ∈ showRanges (runs l), (decide (c ≠ '\n')) = true := by simpa using fun c hc => (hne c hc).1
    have hall : ∀ c ∈ kernelList l, (decide (c ≠ '\x00')) = true := by
      intro c hc
      rcases mem_append.mp hc with hc | hc
      · simpa using (hne c hc).2
      · obtain rfl := mem_singleton.mp hc
        decide
    have hsplit : (kernelList l).takeWhile (· ≠ '\n') ++ ((kernelList l).dropWhile (· ≠ '\n')).take 1 = kernelList l := by
      unfold kernelList
      rw [takeWhile_append_of_pos hfirst, dropWhile_append_of_pos hfirst]
      simp
    rw [hsplit, takeWhile_eq_self_iff.mpr hall]
    simp [kernelList]
  have hrs : ∀ r ∈ runs l, r.1 ≤ r.2 ∧ r.2 < 2 ^ 32 := by
    intro r hr
    obtain ⟨h₁, -, h₃⟩ := runs_ordered l r hr
    exact ⟨h₁, hl _ h₃⟩
  have hfuel : (runs l).length < (kernelList l).length + 1 := by
    have := length_le_showRanges (runs l)
    simp only [kernelList, length_append, length_cons, length_nil]
    omega
  have hparse : parseRanges ((kernelList l).length + 1) (kernelList l) = runs l := parseRanges_showRanges hrs hfuel
  simp only [parseList, Option.bind_eq_bind, Option.bind_some, hline, hparse, flatMap_runs]

end WinePpc64.Cpu
