import Mathlib

namespace WinePpc64.Server.StrW

open List

-- the bytes of a string; its end, or a NUL byte, ends it
abbrev Text := List Char

abbrev WChar := BitVec 16

def isxdigit (c : Char) : Bool := c.isDigit || ('a' ≤ c && c ≤ 'f') || ('A' ≤ c && c ≤ 'F')

def toHex (c : Char) : ℕ := if c.isDigit then c.toNat - '0'.toNat else c.toLower.toNat - 'a'.toNat + 10

def isOctal (c : Char) : Bool := '0' ≤ c && c ≤ '7'

def toOctal (c : Char) : ℕ := c.toNat - '0'.toNat

/-- At most `n` digits are taken. -/
def scanDigits (isDigit : Char → Bool) (value : Char → ℕ) (base : ℕ) : ℕ → ℕ → Text → ℕ × Text
  | n + 1, acc, c :: p => if isDigit c then scanDigits isDigit value base n (acc * base + value c) p else (acc, c :: p)
  | _, acc, p => (acc, p)

def cEscape : Char → Option ℕ
  | 'a' => some 7
  | 'b' => some 8
  | 'e' => some 27
  | 'f' => some 12
  | 'n' => some 10
  | 'r' => some 13
  | 't' => some 9
  | 'v' => some 11
  | _ => none

def utf8Length (ch : ℕ) : ℕ :=
  if ch < 0xc2 then 0 else if ch < 0xe0 then 1 else if ch < 0xf0 then 2 else if ch < 0xf5 then 3 else 0

def utf8Mask : ℕ → ℕ
  | 0 => 0x7f
  | 1 => 0x1f
  | 2 => 0x0f
  | _ => 0x07

def utf8Minval : ℕ → ℕ
  | 0 => 0
  | 1 => 0x80
  | 2 => 0x800
  | _ => 0x10000

def utf8Rest : ℕ → ℕ → Text → Option ℕ × Text
  | 0, res, p => (some res, p)
  | _ + 1, _, [] => (none, [])
  | n + 1, res, c :: p =>
    if 0x40 ≤ c.toNat ^^^ 0x80 then (none, c :: p) else utf8Rest n (res <<< 6 ||| (c.toNat ^^^ 0x80)) p

def parseUtf8 (ch : ℕ) (p : Text) : List ℕ × Text :=
  let charlen := utf8Length ch
  if charlen = 0 then ([], p)
  else match utf8Rest charlen (ch &&& utf8Mask charlen) p with
    | (none, p) => ([], p)
    | (some res, p) =>
      if res < utf8Minval charlen ∨ 0x10ffff < res then ([], p)
      else if res ≤ 0xffff then ([res], p)
      else ([0xd800 ||| (res - 0x10000) >>> 10, 0xdc00 ||| (res - 0x10000) &&& 0x3ff], p)

def parsePlain (c : Char) (p : Text) : List ℕ × Text :=
  if c.toNat < 0x80 then ([c.toNat], p) else parseUtf8 c.toNat p

def parseHex (p : Text) : List ℕ × Text :=
  if p.head?.any isxdigit then ([(scanDigits isxdigit toHex 16 4 0 p).1], (scanDigits isxdigit toHex 16 4 0 p).2)
  else (['x'.toNat], p)

def parseOctal (p : Text) : List ℕ × Text :=
  ([(scanDigits isOctal toOctal 8 3 0 p).1], (scanDigits isOctal toOctal 8 3 0 p).2)

def parseEscape (c : Char) (p : Text) : Option (List ℕ × Text) :=
  if c = '\x00' then none
  else match cEscape c with
    | some v => some ([v], p)
    | none =>
      if c = 'x' then some (parseHex p)
      else if isOctal c then some (parseOctal (c :: p))
      else some (parsePlain c p)

/-- One turn of the loop; `none` is its break after a last backslash. -/
def parseChar (c : Char) (p : Text) : Option (List ℕ × Text) :=
  if c ≠ '\\' then some (parsePlain c p)
  else match p with
    | [] => none
    | c :: p => parseEscape c p

def parseLoop (endchar : Char) : ℕ → ℕ → Text → List WChar × Text
  | fuel + 1, room, c :: p =>
    if c = '\x00' ∨ c = endchar ∨ room = 0 then ([], c :: p)
    else match parseChar c p with
      | none => ([], [])
      | some (chars, p) =>
        let chars := (chars.map (BitVec.ofNat 16)).take room
        let r := parseLoop endchar fuel (room - chars.length) p
        (chars ++ r.1, r.2)
  | _, _, p => ([], p)

def parseStrW (len : ℕ) (src : Text) (endchar : Char) : Option (List WChar × ℕ) :=
  let r := parseLoop endchar src.length len src
  if len ≤ r.1.length then none
  else if r.2.headD '\x00' = '\x00' then none
  else some (r.1 ++ [0], src.length - r.2.length + 1)

def escapes : Text := ".......abtnvfr.............e....".toList

-- printf's `%0wx` and `%0wo`
def digits (base width n : ℕ) : Text := ((Nat.digits base n).reverse.leftpad width 0).map Nat.digitChar

/-- The escape sets of the registry writer. -/
inductive EscapeSet
  | quotes
  | brackets

def EscapeSet.opening : EscapeSet → Char
  | .quotes => '"'
  | .brackets => '['

def EscapeSet.closing : EscapeSet → Char
  | .quotes => '"'
  | .brackets => ']'

def hexNext (next : Option WChar) : Bool := next.any fun d => d.toNat < 128 && isxdigit (.ofNat d.toNat)

def octalNext (next : Option WChar) : Bool := next.any fun d => '0'.toNat ≤ d.toNat && d.toNat ≤ '7'.toNat

def dumpChar (e : EscapeSet) (c : WChar) (next : Option WChar) : Text :=
  let ch := Char.ofNat c.toNat
  if 127 < c.toNat then '\\' :: 'x' :: digits 16 (if hexNext next then 4 else 1) c.toNat
  else if c.toNat < 32 then
    let letter := escapes.getD c.toNat '.'
    if letter ≠ '.' then ['\\', letter]
    else '\\' :: digits 8 (if octalNext next then 3 else 1) c.toNat
  else if ch = '\\' ∨ ch = e.opening ∨ ch = e.closing then ['\\', ch]
  else [ch]

def dumpStrW (e : EscapeSet) : List WChar → Text
  | [] => []
  | c :: s => dumpChar e c s.head? ++ dumpStrW e s

variable {e : EscapeSet} {c : WChar} {s : List WChar} {t : Text} {b n k w acc : ℕ}

section Digits

variable {isDigit : Char → Bool} {value : Char → ℕ}

theorem scanDigits_append {ds : List ℕ} (hd : ∀ d ∈ ds, isDigit d.digitChar = true ∧ value d.digitChar = d)
    (hk : ds.length ≤ k) (ht : ds.length = k ∨ t.head?.any isDigit = false) :
    scanDigits isDigit value b k acc (ds.map Nat.digitChar ++ t) = (ds.foldl (· * b + ·) acc, t) := by
  induction ds generalizing k acc with
  | nil =>
    cases t with
    | nil => cases k <;> rfl
    | cons c t =>
      cases k with
      | zero => rfl
      | succ k =>
        have hno : isDigit c = false := by simpa using ht
        simp [scanDigits, hno]
  | cons d ds ih =>
    obtain ⟨k, rfl⟩ := Nat.exists_eq_succ_of_ne_zero (Nat.ne_zero_of_lt hk)
    simp only [length_cons, Nat.succ_eq_add_one, add_left_inj, add_le_add_iff_right] at hk ht
    obtain ⟨⟨hok, hval⟩, hd⟩ := forall_mem_cons.mp hd
    simp only [map_cons, cons_append, scanDigits, hok, if_true, hval, foldl_cons]
    exact ih hd hk ht

theorem foldl_digits : ((Nat.digits b n).reverse.leftpad w 0).foldl (· * b + ·) 0 = n := by
  have hzero (z : ℕ) : (replicate z 0).foldl (· * b + ·) 0 = 0 := by
    induction z with
    | zero => rfl
    | succ z ih => simpa [replicate_succ] using ih
  rw [leftpad, foldl_append, hzero]
  calc _ = Nat.ofDigits b (Nat.digits b n) := by simp [Nat.ofDigits_eq_foldr, add_comm, mul_comm]
    _ = n := Nat.ofDigits_digits b n

theorem digit_lt {d : ℕ} (hb : 1 < b) (hd : d ∈ (Nat.digits b n).reverse.leftpad w 0) : d < b := by
  obtain hzero | hd := mem_append.mp hd
  · rw [eq_of_mem_replicate hzero]
    omega
  · exact Nat.digits_lt_base hb (mem_reverse.mp hd)

theorem digits_cons (hb : 1 < b) (hw : 0 < w) : ∃ d < b, ∃ r, digits b w n = Nat.digitChar d :: r := by
  obtain ⟨d, r, hr⟩ := exists_cons_of_length_pos (l := (Nat.digits b n).reverse.leftpad w 0) (by simp [leftpad]; omega)
  exact ⟨d, digit_lt hb (hr ▸ mem_cons_self), _, by rw [digits, hr, map_cons]⟩

theorem scanDigits_digits (hd : ∀ d < b, isDigit d.digitChar = true ∧ value d.digitChar = d)
    (hb : 1 < b) (hn : n < b ^ k) (hw : w ≤ k) (ht : w = k ∨ t.head?.any isDigit = false) :
    scanDigits isDigit value b k 0 (digits b w n ++ t) = (n, t) := by
  have hlen := (Nat.digits_length_le_iff hb n).mpr hn
  rw [digits, scanDigits_append (fun d hmem => hd d (digit_lt hb hmem)), foldl_digits]
  · simp [leftpad]
    omega
  · exact ht.imp_left fun hw => by simp [leftpad]; omega

end Digits

theorem hex_digit : ∀ d < 16, isxdigit d.digitChar = true ∧ toHex d.digitChar = d := by decide

theorem octal_digit : ∀ d < 8, isOctal d.digitChar = true ∧ toOctal d.digitChar = d := by decide

theorem toNat_ofNat : ∀ {n : ℕ}, n < 128 → (Char.ofNat n).toNat = n := by decide

structure Heads (next : Option WChar) (t : Text) : Prop where
  hex : t.head?.any isxdigit = true → hexNext next = true
  octal : t.head?.any isOctal = true → octalNext next = true

theorem width_or {x y : Bool} (h : x = true → y = true) : (if y then k else 1) = k ∨ x = false := by
  cases y <;> simp_all

section

variable {next : Option WChar} (h : Heads next t)
include h

theorem parseEscape_hex :
    parseEscape 'x' (digits 16 (if hexNext next then 4 else 1) c.toNat ++ t) = some ([c.toNat], t) := by
  obtain ⟨d, hd, r, hr⟩ := digits_cons (b := 16) (n := c.toNat) (w := if hexNext next then 4 else 1) (by omega)
    (by split <;> omega)
  have hscan := scanDigits_digits (k := 4) hex_digit (by omega) (show c.toNat < 16 ^ 4 from c.isLt)
    (by split <;> omega) (width_or h.hex)
  have hhead : ((digits 16 (if hexNext next then 4 else 1) c.toNat ++ t).head?.any isxdigit) = true := by
    rw [hr]
    exact (hex_digit d hd).1
  show some (parseHex _) = _
  rw [parseHex, if_pos hhead, hscan]

theorem parseChar_octal (hc : c.toNat < 32) :
    parseChar '\\' (digits 8 (if octalNext next then 3 else 1) c.toNat ++ t) = some ([c.toNat], t) := by
  obtain ⟨d, hd, r, hr⟩ := digits_cons (b := 8) (n := c.toNat) (w := if octalNext next then 3 else 1) (by omega)
    (by split <;> omega)
  have hscan := scanDigits_digits octal_digit (by omega) (show c.toNat < 8 ^ 3 by omega)
    (by split <;> omega) (width_or h.octal)
  have hplain : ∀ d < 8, d.digitChar ≠ '\x00' ∧ cEscape d.digitChar = none ∧ d.digitChar ≠ 'x' := by decide
  obtain ⟨hnul, hesc, hx⟩ := hplain d hd
  rw [hr, cons_append] at hscan ⊢
  show parseEscape _ _ = _
  rw [parseEscape, if_neg hnul, hesc]
  simp only [if_neg hx, (octal_digit d hd).1, if_true, parseOctal, hscan]

theorem parseChar_dumpChar : ∃ a p, dumpChar e c next ++ t = a :: p ∧ a ≠ '\x00' ∧ a ≠ e.closing ∧
    parseChar a p = some ([c.toNat], t) := by
  have hbackslash : '\\' ≠ e.closing := by cases e <;> decide
  unfold dumpChar
  dsimp only
  split
  next => exact ⟨_, _, rfl, by decide, hbackslash, parseEscape_hex h⟩
  split
  next hctl =>
    split
    next hletter =>
      have hall : ∀ n < 32, escapes.getD n '.' ≠ '.' →
        escapes.getD n '.' ≠ '\x00' ∧ cEscape (escapes.getD n '.') = some n := by decide
      obtain ⟨hnul, hesc⟩ := hall _ hctl hletter
      refine ⟨'\\', _ :: t, rfl, by decide, hbackslash, ?_⟩
      show parseEscape _ t = _
      rw [parseEscape, if_neg hnul, hesc]
    next => exact ⟨_, _, rfl, by decide, hbackslash, parseChar_octal h hctl⟩
  next hbyte hprint =>
    have hch := toNat_ofNat (show c.toNat < 128 by omega)
    generalize hc : Char.ofNat c.toNat = a at hch ⊢
    rw [← hch] at hprint ⊢
    split
    next hspecial =>
      refine ⟨'\\', a :: t, rfl, by decide, hbackslash, ?_⟩
      cases e <;> obtain rfl | rfl | rfl := hspecial <;> rfl
    next hraw =>
      obtain ⟨hslash, -, hclosing⟩ := not_or.mp hraw |>.imp_right not_or.mp
      refine ⟨a, t, rfl, fun hnul => hprint (hnul ▸ by decide), hclosing, ?_⟩
      unfold parseChar
      rw [if_pos hslash, parsePlain, if_pos (by omega)]

end

theorem dumpChar_head (e : EscapeSet) (c : WChar) (next : Option WChar) : ∃ p, dumpChar e c next = '\\' :: p ∨
    (c.toNat < 128 ∧ dumpChar e c next = Char.ofNat c.toNat :: p) := by
  unfold dumpChar
  dsimp only
  split_ifs
  all_goals first | exact ⟨_, .inl rfl⟩ | exact ⟨_, .inr ⟨by omega, rfl⟩⟩

theorem heads_dumpStrW : Heads s.head? (dumpStrW e s ++ e.closing :: t) := by
  cases s with
  | nil => cases e <;> exact ⟨nofun, nofun⟩
  | cons c s =>
    obtain ⟨p, hp | ⟨hc, hp⟩⟩ := dumpChar_head e c s.head?
    · rw [dumpStrW, hp]
      exact ⟨nofun, nofun⟩
    · have hoctal : ∀ n < 128, isOctal (Char.ofNat n) = (48 ≤ n && n ≤ 55) := by decide
      rw [dumpStrW, hp]
      constructor <;> intro hd
      · simpa [hexNext, hc] using hd
      · exact (hoctal _ hc).symm.trans hd

theorem length_le_dumpStrW : s.length ≤ (dumpStrW e s).length := by
  induction s with
  | nil => rfl
  | cons c s ih =>
    obtain ⟨p, hp | ⟨-, hp⟩⟩ := dumpChar_head e c s.head?
    all_goals
      rw [dumpStrW, hp, cons_append, length_cons, length_cons, length_append]
      omega

theorem parseLoop_dumpStrW {fuel room : ℕ} (hfuel : s.length ≤ fuel) (hroom : s.length < room) :
    parseLoop e.closing fuel room (dumpStrW e s ++ e.closing :: t) = (s, e.closing :: t) := by
  induction s generalizing fuel room with
  | nil => cases fuel <;> simp [parseLoop, dumpStrW]
  | cons c s ih =>
    obtain ⟨fuel, rfl⟩ := Nat.exists_eq_succ_of_ne_zero (Nat.ne_zero_of_lt hfuel)
    obtain ⟨room, rfl⟩ := Nat.exists_eq_succ_of_ne_zero (Nat.ne_zero_of_lt hroom)
    obtain ⟨a, p, heq, hnul, hclosing, hparse⟩ := parseChar_dumpChar (c := c) (heads_dumpStrW (e := e) (s := s) (t := t))
    rw [dumpStrW, append_assoc, heq]
    simp [parseLoop, hnul, hclosing, hparse, ih (Nat.le_of_succ_le_succ hfuel) (Nat.lt_of_succ_lt_succ hroom)]

theorem parse_dump_strW (e : EscapeSet) (s : List WChar) (extra : ℕ) (t : Text) :
    parseStrW (s.length + 1 + extra) (dumpStrW e s ++ e.closing :: t) e.closing =
      some (s ++ [0], (dumpStrW e s).length + 1) := by
  have hlen : s.length ≤ (dumpStrW e s ++ e.closing :: t).length := by
    rw [length_append]
    exact length_le_dumpStrW.trans (Nat.le_add_right ..)
  have hnul : e.closing ≠ '\x00' := by cases e <;> decide
  simp only [parseStrW, parseLoop_dumpStrW hlen (show s.length < s.length + 1 + extra by omega)]
  rw [if_neg (by omega), if_neg (by simpa using hnul)]
  simp

end WinePpc64.Server.StrW
