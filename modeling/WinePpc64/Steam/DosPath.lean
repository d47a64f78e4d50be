import Mathlib

/-! The helper's conversion of a DOS path: the drive's root, then one directory scan per
component into a buffer of fixed size. -/

namespace WinePpc64.Steam.DosPath

open List

abbrev Name := List UInt8

def pathMax : ℕ := 4096

inductive Status
  | success
  | noSuchFile
  | nameTooLong
  | objectPathNotFound
  | objectPathSyntaxBad
  deriving DecidableEq

structure Drive where
  letter : UInt8
  root : Name

structure Path where
  root : Name
  components : List Name
  deriving DecidableEq

-- a root of `/` is joined as the empty one
def rootLen (root : Name) : ℕ := if root = [47] then 0 else root.length

def Path.len (p : Path) : ℕ := rootLen p.root + (p.components.map (1 + ·.length)).sum

def Path.push (p : Path) (name : Name) : Path := { p with components := p.components ++ [name] }

structure Tree where
  lstat : Path → Bool
  /-- The names of a directory in the order they are read, if it can be opened. -/
  readdir : Path → Option (List Name)

def fold (name : Name) : Name := name.map fun b => if 65 ≤ b ∧ b ≤ 90 then b + 32 else b

def appendComponent (tree : Tree) (path : Path) (comp : Name) : Path × Bool :=
  if pathMax < path.len + 1 + comp.length + 1 then (path, false)
  else if tree.lstat (path.push comp) then (path.push comp, true)
  else match tree.readdir path with
    | none => (path.push comp, false)
    | some names =>
      match names.find? fun name => name.length = comp.length && fold name = fold comp with
      | some name => (path.push name, true)
      | none => (path.push comp, false)

def isSeparator (b : UInt8) : Bool := b = 92 || b = 47

def components (text : Name) : List Name := (text.splitOnP isSeparator).filter (· ≠ [])

def walk (tree : Tree) : Path → List Name → Except Status (Status × Path)
  | path, [] => .ok (.success, path)
  | path, comp :: comps =>
    match appendComponent tree path comp with
    | (path, true) => walk tree path comps
    | (path, false) => if comps = [] then .ok (.noSuchFile, path) else .error .objectPathNotFound

def findDrive (drives : List Drive) (letter : UInt8) : Option Drive :=
  let letter := if 97 ≤ letter ∧ letter ≤ 122 then letter - 97 + 65 else letter
  drives.find? (·.letter = letter)

/-- The code points of a UTF-16 text; half of a surrogate pair stands for itself. -/
def codePoints : List UInt16 → List ℕ
  | u :: v :: rest =>
    if 0xd800 ≤ u ∧ u < 0xdc00 ∧ 0xdc00 ≤ v ∧ v < 0xe000 then
      (0x10000 + ((u.toNat - 0xd800) <<< 10) + (v.toNat - 0xdc00)) :: codePoints rest
    else u.toNat :: codePoints (v :: rest)
  | [u] => [u.toNat]
  | [] => []

def trailing (cp shift : ℕ) : UInt8 := .ofNat (0x80 ||| ((cp >>> shift) &&& 0x3f))

def utf8 (cp : ℕ) : Name :=
  if cp < 0x80 then [.ofNat cp]
  else if cp < 0x800 then [.ofNat (0xc0 ||| (cp >>> 6)), trailing cp 0]
  else if cp < 0x10000 then [.ofNat (0xe0 ||| (cp >>> 12)), trailing cp 6, trailing cp 0]
  else [.ofNat (0xf0 ||| (cp >>> 18)), trailing cp 12, trailing cp 6, trailing cp 0]

/-- The characters are converted up to the first that does not fit. -/
def fitting : List ℕ → ℕ → Name
  | [], _ => []
  | cp :: cps, room =>
    if room < (utf8 cp).length then [] else utf8 cp ++ fitting cps (room - (utf8 cp).length)

def ntdllWcstoumbs (src : List UInt16) (dstlen : ℕ) : Name := fitting (codePoints src) dstlen

/-- The conversion of a path of fewer than 2^32 units, without its terminating zero. -/
def ntdllGetUnixFileName (drives : List Drive) (tree : Tree) (dos : List UInt16) :
    Except Status (Status × Path) :=
  let nt := ntdllWcstoumbs dos (pathMax - 1)
  if nt = [] ∨ pathMax - 1 ≤ nt.length then .error .nameTooLong
  else if drives = [] then .error .objectPathNotFound
  else match nt with
    | 92 :: 63 :: 63 :: 92 :: letter :: 58 :: text =>
      match findDrive drives letter with
      | none => .error .objectPathNotFound
      | some drive =>
        if pathMax ≤ drive.root.length then .error .nameTooLong
        else walk tree ⟨drive.root, []⟩ (components text)
    | _ => .error .objectPathSyntaxBad

/-! ### The file asked for -/

def encoded (text : List UInt16) : Name := (codePoints text).flatMap utf8

/-- The NT form of a path on a drive. -/
def ntPath (letter : UInt8) (text : List UInt16) : List UInt16 :=
  92 :: 63 :: 63 :: 92 :: letter.toUInt16 :: 58 :: text

/-- The part of the text behind the drive that is converted. -/
def converted (text : List UInt16) : Name := ntdllWcstoumbs text (pathMax - 7)

def resolve (comps : List Name) : List Name :=
  comps.foldl (fun done c =>
    if c = [46] then done else if c = [46, 46] then done.dropLast else done ++ [c]) []

def Tree.Has (tree : Tree) (path : Path) (name : Name) : Prop :=
  tree.lstat (path.push name) = true ∨ ∃ names, tree.readdir path = some names ∧ name ∈ names

def Tree.Leads (tree : Tree) : Path → List Name → Prop
  | path, c :: d :: comps => tree.Has path c ∧ tree.Leads (path.push c) (d :: comps)
  | _, _ => True

/-- The path names the drive's root and one entry for each component asked for. -/
def Names (tree : Tree) (drive : Drive) (comps : List Name) (path : Path) : Prop :=
  path.root = drive.root ∧ path.components.map fold = (resolve comps).map fold ∧
    tree.Leads ⟨drive.root, []⟩ path.components

def kept (path : Path) (comps : List Name) : List Name :=
  if path.len + (comps.map (1 + ·.length)).sum + 1 ≤ pathMax then comps else comps.dropLast

theorem Path.len_push {p : Path} {name : Name} : (p.push name).len = p.len + 1 + name.length := by
  simp only [Path.len, Path.push, map_append, sum_append, map_cons, map_nil,
    sum_cons, List.sum_nil]
  omega

theorem appendComponent_cases (tree : Tree) (path : Path) (comp : Name) :
    (pathMax < path.len + 1 + comp.length + 1 ∧ appendComponent tree path comp = (path, false)) ∨
    (path.len + 1 + comp.length + 1 ≤ pathMax ∧
      (appendComponent tree path comp = (path.push comp, false) ∨
        ∃ name, appendComponent tree path comp = (path.push name, true) ∧
          name.length = comp.length ∧ fold name = fold comp ∧ tree.Has path name)) := by
  unfold appendComponent
  split
  case isTrue h => exact .inl ⟨h, rfl⟩
  case isFalse h =>
    refine .inr ⟨not_lt.mp h, ?_⟩
    split
    case isTrue hl => exact .inr ⟨comp, rfl, rfl, rfl, .inl hl⟩
    case isFalse =>
      cases hr : tree.readdir path with
      | none => exact .inl rfl
      | some names =>
        cases hf : names.find? fun name => name.length = comp.length && fold name = fold comp with
        | none => exact .inl (by simp only [hf])
        | some name =>
          have hsame := find?_some hf
          simp only [Bool.and_eq_true, decide_eq_true_eq] at hsame
          simp only [hf]
          exact .inr ⟨name, rfl, hsame.1, hsame.2, .inr ⟨names, hr, mem_of_find?_eq_some hf⟩⟩

theorem walk_spec {tree : Tree} {st : Status} {out : Path} : ∀ {comps : List Name} {path : Path},
    walk tree path comps = .ok (st, out) →
    ∃ found, out = { path with components := path.components ++ found } ∧
      found.map fold = (kept path comps).map fold ∧ tree.Leads path found := by
  intro comps
  induction comps with
  | nil =>
    rintro path h
    cases h
    exact ⟨[], by simp, by simp [kept], trivial⟩
  | cons comp comps ih =>
    intro path h
    rw [walk] at h
    rcases appendComponent_cases tree path comp with ⟨hfull, ha⟩ | ⟨hroom, ha | ⟨name, ha, hlen, hfold, hhas⟩⟩
    · simp only [ha] at h
      split at h
      case isTrue he =>
        cases h
        subst he
        refine ⟨[], by simp, ?_, trivial⟩
        rw [kept, if_neg (by simp; omega)]
        rfl
      case isFalse => cases h
    · simp only [ha] at h
      split at h
      case isTrue he =>
        cases h
        subst he
        refine ⟨[comp], rfl, ?_, trivial⟩
        rw [kept, if_pos (by simp; omega)]
      case isFalse => cases h
    · simp only [ha] at h
      obtain ⟨found, rfl, hmap, hleads⟩ := ih h
      refine ⟨name :: found, by simp [Path.push], ?_, ?_⟩
      · rw [map_cons, hmap, hfold, ← map_cons]
        congr 1
        simp only [kept, Path.len_push, hlen, map_cons, sum_cons]
        cases comps with
        | nil =>
          rw [if_pos (by simpa using hroom), if_pos (by simp; omega)]
        | cons d comps =>
          split_ifs <;> first | rfl | omega
      · cases found with
        | nil => trivial
        | cons d found => exact ⟨hhas, hleads⟩

theorem codePoints_cons {u : UInt16} (h : u < 128) (text : List UInt16) :
    codePoints (u :: text) = u.toNat :: codePoints text := by
  have hlow : u.toNat < 128 := h
  cases text with
  | nil => rfl
  | cons v rest =>
    refine if_neg fun hpair => ?_
    have hhigh : 0xd800 ≤ u.toNat := hpair.1
    omega

theorem utf8_ascii {cp : ℕ} (h : cp < 128) : utf8 cp = [.ofNat cp] := if_pos h

theorem ntdllWcstoumbs_cons {u : UInt16} (h : u < 128) (text : List UInt16) (room : ℕ) :
    ntdllWcstoumbs (u :: text) (room + 1) = u.toUInt8 :: ntdllWcstoumbs text room := by
  have hchar : utf8 u.toNat = [u.toUInt8] := utf8_ascii h
  rw [ntdllWcstoumbs, codePoints_cons h, fitting, hchar, if_neg (by simp)]
  rfl

theorem ntdllWcstoumbs_ntPath {letter : UInt8} (h : letter < 128) (text : List UInt16) :
    ntdllWcstoumbs (ntPath letter text) (pathMax - 1) = 92 :: 63 :: 63 :: 92 :: letter :: 58 :: converted text := by
  have hletter : letter.toUInt16 < 128 := by
    have hlow : letter.toNat < 128 := h
    exact UInt16.lt_iff_toNat_lt.mpr (by simpa using hlow)
  have hroom : pathMax - 1 = pathMax - 7 + 1 + 1 + 1 + 1 + 1 + 1 := rfl
  rw [ntPath, hroom, ntdllWcstoumbs_cons (by decide), ntdllWcstoumbs_cons (by decide), ntdllWcstoumbs_cons (by decide),
    ntdllWcstoumbs_cons (by decide), ntdllWcstoumbs_cons hletter, ntdllWcstoumbs_cons (by decide), converted]
  simp

/-- A path that is returned names the file asked for exactly when the components that are converted and
fit the buffer are those of the path with its dots resolved. -/
theorem unix_name_exact_iff (drives : List Drive) (tree : Tree) (letter : UInt8) (hl : letter < 128)
    (text : List UInt16) (drive : Drive) (hd : findDrive drives letter = some drive) (st : Status) (path : Path)
    (h : ntdllGetUnixFileName drives tree (ntPath letter text) = .ok (st, path)) :
    Names tree drive (components (encoded text)) path ↔
      (kept ⟨drive.root, []⟩ (components (converted text))).map fold =
        (resolve (components (encoded text))).map fold := by
  have hwalk : walk tree ⟨drive.root, []⟩ (components (converted text)) = .ok (st, path) := by
    simp only [ntdllGetUnixFileName, ntdllWcstoumbs_ntPath hl, hd] at h
    split at h
    · cases h
    · split at h
      · cases h
      · split at h
        · cases h
        · exact h
  obtain ⟨found, rfl, hmap, hleads⟩ := walk_spec hwalk
  rw [← hmap]
  exact ⟨fun hn => hn.2.1, fun hf => ⟨rfl, hf, hleads⟩⟩

/-! ### A root that leaves no room -/

namespace Leaf

def tree : Tree := ⟨fun _ => false, fun _ => none⟩

def asked : List UInt16 := ntPath 67 [92, 98]

theorem unix_name_exact_iff_short : Names tree ⟨67, [47, 114]⟩ (components (encoded [92, 98])) ⟨[47, 114], [[98]]⟩ :=
  (unix_name_exact_iff [⟨67, [47, 114]⟩] tree 67 (by decide) [92, 98] _ rfl .noSuchFile _ (by decide)).mpr
    (by decide)

theorem root_returned {root : Name} (hroot : root.length = 4094) :
    ntdllGetUnixFileName [⟨67, root⟩] tree asked = .ok (.noSuchFile, ⟨root, []⟩) := by
  have hnt : ntdllWcstoumbs asked (pathMax - 1) = [92, 63, 63, 92, 67, 58, 92, 98] := by decide
  have hcomps : components [92, 98] = [[98]] := by decide
  have hne : root ≠ [47] := fun h => by simp [h] at hroot
  have happend : appendComponent tree ⟨root, []⟩ [98] = (⟨root, []⟩, false) := by
    rw [appendComponent]
    simp [Path.len, rootLen, hne, hroot, pathMax]
  simp only [ntdllGetUnixFileName, hnt]
  simp [findDrive, hcomps, walk, happend, pathMax, hroot]

theorem long_root_shortened : ∃ root : Name, root.length = 4094 ∧
    ntdllGetUnixFileName [⟨67, root⟩] tree asked = .ok (.noSuchFile, ⟨root, []⟩) ∧
      ¬Names tree ⟨67, root⟩ (components (encoded [92, 98])) ⟨root, []⟩ := by
  have hlen : (List.replicate 4094 (97 : UInt8)).length = 4094 := List.length_replicate
  refine ⟨_, hlen, root_returned hlen, fun h => ?_⟩
  have hmap : [] = (resolve (components (encoded [92, 98]))).map fold := h.2.1
  revert hmap
  decide

end Leaf

end WinePpc64.Steam.DosPath
