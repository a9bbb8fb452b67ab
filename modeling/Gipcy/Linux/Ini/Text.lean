import Gipcy.Lib.Lines
import Mathlib.Data.List.DropRight

/-! The helpers of the INI reader and writer, which look at one line. -/
namespace Gipcy.Linux.Ini

open CString Lines

/-- Why a call does not return. -/
inductive Stop where
  /-- It reads or writes past the end of an array. -/
  | outOfBounds
  | nullPointer
  | uninitialized
  /-- Its loop never ends. -/
  | never
deriving DecidableEq

theorem ok_of_bind {α β : Type} {x : Except Stop α} {f : α → Except Stop β} {b : β}
    (h : (x >>= f) = .ok b) : ∃ a, x = .ok a ∧ f a = .ok b := by
  cases x with
  | error e => cases h
  | ok a => exact ⟨a, rfl, h⟩

theorem bind_eq_ok_iff {α β : Type} {x : Except Stop α} {f : α → Except Stop β} {b : β} :
    (x >>= f) = .ok b ↔ ∃ a, x = .ok a ∧ f a = .ok b := by
  refine ⟨ok_of_bind, ?_⟩
  rintro ⟨a, rfl, h⟩
  exact h

def PATH_MAX : Nat := 4096

/-- `IPC_strlwr`. -/
def strlwr (s : Str) : Str := s.map tolower

/-- `strcpy` to an array of `size`, from what can be read at the source. -/
def strcpy (size : Nat) (src : List UInt8) : Except Stop Str :=
  if 0 ∈ src ∧ (cstr src).length < size then .ok (cstr src) else .error .outOfBounds

def isSection (src : Str) : Bool :=
  src.head? = some '['.toUInt8 ∧ src.getLast? = some ']'.toUInt8

/-- Where `IsOptionName` stores a NUL; `none` where it returns 0. -/
def isOptionName (src : Str) : Option Nat := strstr src (chars ['='])

/-- What `IsOptionName` leaves of a line. -/
def optionName (src : Str) : Option Str := (isOptionName src).map (src.take ·)

/-- The rounds of the loops: `strlen(src) - key_size`, which is a `size_t`. -/
def rounds (src key : Str) : Nat := (((src.length : Int) - key.length) % 0x10000000000000000).toNat

/-- What follows the bracket is compared with the name. -/
def matchSection (sectionName : Str) (rest : List UInt8) : Except Stop Int := do
  let name ← strcpy PATH_MAX rest
  let section_tmp ← strcpy 1024 (sectionName ++ [0])
  let name := strlwr name
  let section_tmp := strlwr section_tmp
  if (strstr name section_tmp).isSome ∧ name.getD section_tmp.length 0 = ']'.toUInt8 then .ok 0
  else .ok (-3)

/-- One round of `FindSection`, at the character `c` and what follows it: the
result, if this round returns. -/
def sectionRound (sectionName : Str) (c : UInt8) (rest : List UInt8) : Option (Except Stop Int) :=
  if c = ';'.toUInt8 then some (.ok (-1))
  else if c = 0 then some (.ok (-2))
  else if c = '['.toUInt8 then some (matchSection sectionName rest)
  else none

/-- The rounds of `FindSection` from round `i` on. Round `i` looks at `src[2 * i]`:
`psubstr` is `&src[i]`, and it is indexed with `i` again. -/
def findSectionFrom (sectionName : Str) (rounds : Nat) : Nat → List UInt8 → Except Stop Int
  | i, [] => if i < rounds then .error .outOfBounds else .ok (-4)
  | i, [c] =>
    if i < rounds then
      (sectionRound sectionName c []).getD
        (if i + 1 < rounds then .error .outOfBounds else .ok (-4))
    else .ok (-4)
  | i, c :: d :: rest =>
    if i < rounds then
      (sectionRound sectionName c (d :: rest)).getD
        (findSectionFrom sectionName rounds (i + 1) rest)
    else .ok (-4)

/-- `FindSection`, on the array that holds the line. -/
def findSection (src : List UInt8) (sectionName : Str) : Except Stop Int :=
  findSectionFrom sectionName (rounds (cstr src) sectionName) 0 src

/-- What `FindOption` returns, `*set_default`, and what it stores at `Buffer`. -/
structure OptionResult where
  code : Int
  setDefault : Bool
  stored : List UInt8
deriving DecidableEq

def OptionResult.refuse (code : Int) : OptionResult := ⟨code, true, []⟩

def blank (c : UInt8) : Bool := c = ' '.toUInt8 ∨ c = '\t'.toUInt8

def aSymb : List Str :=
  [chars ['\n'], chars ['\r'], chars ['\t'], chars [';'], chars ['#'], chars ['/', '/']]

/-- The value of a line, from what follows the first `=`. -/
def optionValue (val : Str) : Str := cutAll (val.dropWhile blank) aSymb

/-- The value and its NUL, and the line ends of it overwritten one by one. -/
def storeOption (val : Str) : List UInt8 :=
  let kept := val.rdropWhile fun c => c = '\r'.toUInt8 ∨ c = '\n'.toUInt8
  kept ++ List.replicate (val.length + 1 - kept.length) 0

/-- `FindOption`. Every round of its loop returns, so there is only the first. -/
def findOption (src option : Str) (bufferSize : Int) : Except Stop OptionResult := do
  if rounds src option = 0 then return .refuse (-5)
  let c := src.getD 0 0
  if c = ';'.toUInt8 then return .refuse (-1)
  if c = 0 then return .refuse (-2)
  if c = '['.toUInt8 then return .refuse (-3)
  let option_tmp := strlwr (← strcpy 1024 (option ++ [0]))
  let name := strlwr (← strcpy 1024 (src ++ [0]))
  let after := name.getD option_tmp.length 0
  if (strstr name option_tmp).isSome ∧
      (after = ' '.toUInt8 ∨ after = '='.toUInt8 ∨ after = '\t'.toUInt8) then
    match strstr src (chars ['=']) with
    | none => .error .nullPointer
    | some i =>
      let val := optionValue (src.drop (i + 1))
      if bufferSize ≥ val.length + 1 then return ⟨0, false, storeOption val⟩
      else return .refuse (-3)
  else return .refuse (-4)

/-- A line of a text file that the arrays have room for. -/
structure TextLine (l : Str) : Prop where
  newline : nl ∉ l
  zero : 0 ∉ l
  length : l.length ≤ 1022

section Lines

variable {src option : Str}

theorem strcpy_append {s : Str} (zero : 0 ∉ s) {size : Nat} (h : s.length < size)
    (mem : List UInt8) : strcpy size (s ++ 0 :: mem) = .ok s := by
  rw [strcpy, cstr_append zero, if_pos ⟨by simp, h⟩]

theorem strcpy_eq {s : Str} (zero : 0 ∉ s) (size : Nat) :
    strcpy size (s ++ [0]) = if s.length < size then .ok s else .error .outOfBounds := by
  rw [strcpy, cstr_append zero]
  simp

@[simp] theorem length_strlwr (s : Str) : (strlwr s).length = s.length := List.length_map _

theorem strlwr_append (s t : Str) : strlwr (s ++ t) = strlwr s ++ strlwr t := List.map_append

/-- Only capitals are changed, and only to small letters. -/
theorem tolower_eq_iff {c d : UInt8}
    (h : d < 'A'.toUInt8 ∨ ('Z'.toUInt8 < d ∧ d < 'a'.toUInt8) ∨ 'z'.toUInt8 < d) :
    tolower c = d ↔ c = d := by
  have hA : 'A'.toUInt8 = 65 := rfl
  have hZ : 'Z'.toUInt8 = 90 := rfl
  have ha : 'a'.toUInt8 = 97 := rfl
  have hz : 'z'.toUInt8 = 122 := rfl
  rw [hA, hZ, ha, hz] at h
  rw [tolower, hA, hZ]
  split
  · rename_i hc
    simp only [UInt8.le_iff_toNat_le, UInt8.lt_iff_toNat_lt, ← UInt8.toNat_inj,
      UInt8.toNat_add] at *
    simp at *
    omega
  · rfl

theorem tolower_eq_close {c : UInt8} : tolower c = ']'.toUInt8 ↔ c = ']'.toUInt8 :=
  tolower_eq_iff (.inr (.inl (by decide)))

theorem strlwr_getD (s : Str) (i : Nat) : (strlwr s).getD i 0 = tolower (s.getD i 0) := by
  have hzero : tolower 0 = 0 := by decide
  rw [strlwr, ← hzero, List.getD_map, hzero]

/-- The header line of a section. -/
def header (sectionName : Str) : Str := '['.toUInt8 :: sectionName ++ [']'.toUInt8]

theorem zero_not_mem_header {sectionName : Str} (zero : 0 ∉ sectionName) :
    0 ∉ header sectionName := by
  have hopen : (0 : UInt8) ≠ '['.toUInt8 := by decide
  have hclose : (0 : UInt8) ≠ ']'.toUInt8 := by decide
  simp [header, zero, hopen, hclose]

/-- What is compared is copied, then the name is looked for anywhere in it, and the
other bracket behind as many characters as the name has. -/
theorem matchSection_eq {sectionName : Str} (zero : 0 ∉ sectionName) (rest : List UInt8) :
    matchSection sectionName rest =
      if 0 ∈ rest ∧ (cstr rest).length < PATH_MAX ∧ sectionName.length < 1024 then
        .ok (if strlwr sectionName <:+: strlwr (cstr rest) ∧
          (cstr rest).getD sectionName.length 0 = ']'.toUInt8 then 0 else -3)
      else .error .outOfBounds := by
  unfold matchSection
  rw [strcpy_eq zero]
  by_cases hrest : 0 ∈ rest ∧ (cstr rest).length < PATH_MAX
  · rw [strcpy, if_pos hrest]
    by_cases hname : sectionName.length < 1024
    · rw [if_pos hname, if_pos ⟨hrest.1, hrest.2, hname⟩]
      show (if _ then _ else _) = _
      simp only [strstr_isSome_iff, strlwr_getD, length_strlwr, tolower_eq_close]
      split <;> rfl
    · rw [if_neg hname, if_neg fun h => hname h.2.2]
      rfl
  · have hall : ¬ (0 ∈ rest ∧ (cstr rest).length < PATH_MAX ∧ sectionName.length < 1024) :=
      fun h => hrest ⟨h.1, h.2.1⟩
    rw [strcpy, if_neg hrest, if_neg hall]
    rfl

theorem matchSection_header {sectionName : Str} (zero : 0 ∉ sectionName)
    (hlength : sectionName.length < 1024) (mem : List UInt8) :
    matchSection sectionName (sectionName ++ ']'.toUInt8 :: 0 :: mem) = .ok 0 := by
  have hzero : 0 ∉ sectionName ++ [']'.toUInt8] := by
    have hclose : (0 : UInt8) ≠ ']'.toUInt8 := by decide
    simp [zero, hclose]
  have hcopied : cstr (sectionName ++ ']'.toUInt8 :: 0 :: mem) = sectionName ++ [']'.toUInt8] := by
    rw [← cstr_append hzero mem, List.append_assoc]
    rfl
  have hfound : strlwr sectionName <:+: strlwr (sectionName ++ [']'.toUInt8]) := by
    rw [strlwr_append]
    exact (List.prefix_append _ _).isInfix
  have hclose : (sectionName ++ [']'.toUInt8]).getD sectionName.length 0 = ']'.toUInt8 := by
    rw [List.getD_append_right _ _ _ _ le_rfl, Nat.sub_self]
    rfl
  rw [matchSection_eq zero, hcopied, if_pos, if_pos ⟨hfound, hclose⟩]
  refine ⟨by simp, ?_, hlength⟩
  simp only [PATH_MAX, List.length_append, List.length_singleton]
  omega

theorem findSectionFrom_returns {sectionName : Str} {rounds i : Nat} {c : UInt8} {rest : List UInt8}
    {r : Except Stop Int} (hi : i < rounds) (h : sectionRound sectionName c rest = some r) :
    findSectionFrom sectionName rounds i (c :: rest) = r := by
  cases rest <;> simp [findSectionFrom, hi, h]

/-- `FindSection` takes the header of the section. -/
theorem findSection_header {sectionName : Str} (zero : 0 ∉ sectionName)
    (hlength : sectionName.length < 1024) (mem : List UInt8) :
    findSection (overwrite mem (header sectionName)) sectionName = .ok 0 := by
  have hrounds : 0 < rounds (header sectionName) sectionName := by
    simp only [rounds, header, List.cons_append, List.length_cons, List.length_append,
      List.length_nil]
    omega
  rw [findSection, cstr_overwrite mem (zero_not_mem_header zero)]
  simp only [overwrite, header, List.cons_append, List.append_assoc, List.nil_append]
  apply findSectionFrom_returns hrounds
  simp only [sectionRound, matchSection_header zero hlength]
  rfl

/-- `FindSection` refuses an empty line. -/
theorem findSection_empty (mem : List UInt8) (app : Str) :
    ∃ r, findSection (0 :: mem) app = .ok r ∧ r ≠ 0 := by
  have hround : sectionRound app 0 mem = some (.ok (-2)) := rfl
  rcases Nat.eq_zero_or_pos (rounds (cstr (0 :: mem)) app) with hzero | hpos
  · refine ⟨-4, ?_, by decide⟩
    rw [findSection, hzero]
    cases mem <;> simp [findSectionFrom]
  · exact ⟨-2, findSectionFrom_returns hpos hround, by decide⟩

/-- So does `FindOption`. -/
theorem findOption_empty (option : Str) (bufferSize : Int) :
    ∃ code, code ≠ 0 ∧ findOption [] option bufferSize = .ok (.refuse code) := by
  by_cases hrounds : rounds [] option = 0
  · exact ⟨-5, by decide, if_pos hrounds⟩
  · exact ⟨-2, by decide, if_neg hrounds⟩

/-- The name is the text ahead of the first `=`. -/
theorem optionName_iff {name : Str} : optionName src = some name ↔
    '='.toUInt8 ∉ name ∧ ∃ text, src = name ++ '='.toUInt8 :: text := by
  have hname : ∀ {s : Str}, '='.toUInt8 ∉ s → ∀ text,
      optionName (s ++ '='.toUInt8 :: text) = some s := by
    intro s hs text
    have hfirst : isOptionName (s ++ '='.toUInt8 :: text) = some s.length := strstr_append hs text
    rw [optionName, hfirst, Option.map_some, List.take_left]
  constructor
  · intro h
    obtain ⟨i, hi, -⟩ := Option.map_eq_some_iff.mp h
    have hmem : '='.toUInt8 ∈ src := by
      rw [← List.singleton_infix_iff, ← strstr_isSome_iff]
      exact Option.isSome_of_eq_some hi
    obtain ⟨s, text, rfl, hs⟩ := List.eq_append_cons_of_mem hmem
    rw [hname hs] at h
    cases h
    exact ⟨hs, text, rfl⟩
  · rintro ⟨hs, text, rfl⟩
    exact hname hs text

theorem rounds_eq_zero_iff (hsrc : src.length < PATH_MAX) (hoption : option.length < 1024) :
    rounds src option = 0 ↔ src.length = option.length := by
  unfold rounds
  unfold PATH_MAX at hsrc
  omega

/-- The character ends the name of an option. -/
def endsName (c : UInt8) : Prop := c = ' '.toUInt8 ∨ c = '='.toUInt8 ∨ c = '\t'.toUInt8

theorem endsName_tolower (c : UInt8) : endsName (tolower c) ↔ endsName c := by
  unfold endsName
  rw [tolower_eq_iff (.inl (by decide)), tolower_eq_iff (.inl (by decide)),
    tolower_eq_iff (.inl (by decide))]

/-- The line is neither empty nor a comment nor a header. -/
def Plain (src : Str) : Prop :=
  src.getD 0 0 ≠ ';'.toUInt8 ∧ src.getD 0 0 ≠ 0 ∧ src.getD 0 0 ≠ '['.toUInt8

/-- The lines that `FindOption` takes for the key, which is anywhere in them: it
looks at no more than the character after as many as the key has. -/
def Takes (option src : Str) : Prop :=
  src.length ≠ option.length ∧ Plain src ∧ strlwr option <:+: strlwr src ∧
    endsName (src.getD option.length 0)

/-- The lines that `FindOption` copies, to compare them with the key. -/
def Compares (option src : Str) : Prop := rounds src option ≠ 0 ∧ Plain src

instance (option src : Str) : Decidable (Compares option src) :=
  inferInstanceAs (Decidable (_ ∧ _ ∧ _ ∧ _))

instance (option src : Str) : Decidable (Takes option src) :=
  inferInstanceAs (Decidable (_ ∧ (_ ∧ _ ∧ _) ∧ _ ∧ (_ ∨ _ ∨ _)))

/-- The value of a line that `FindOption` takes. -/
def lineValue (src : Str) : Option Str :=
  (strstr src (chars ['='])).map fun i => optionValue (src.drop (i + 1))

theorem nil_not_mem_aSymb : [] ∉ aSymb := by decide

/-- A value has no line end. -/
theorem rdropWhile_cutAll (val : Str) :
    (cutAll val aSymb).rdropWhile (fun c => c = '\r'.toUInt8 ∨ c = '\n'.toUInt8) =
      cutAll val aSymb := by
  have hno : ∀ c, [c] ∈ aSymb → c ∉ cutAll val aSymb := by
    intro c hc hmem
    exact not_infix_cutAll nil_not_mem_aSymb hc ((List.singleton_infix_iff _ _).mpr hmem)
  rw [List.rdropWhile_eq_self_iff]
  intro hne hlast
  have hmem := List.getLast_mem hne
  rcases of_decide_eq_true hlast with h | h
  · exact hno _ (by decide) (h ▸ hmem)
  · exact hno _ (by decide) (h ▸ hmem)

/-- So none is overwritten. -/
theorem storeOption_cutAll (val : Str) :
    storeOption (cutAll val aSymb) = cutAll val aSymb ++ [0] := by
  simp only [storeOption, rdropWhile_cutAll]
  simp

theorem storeOption_optionValue (val : Str) :
    storeOption (optionValue val) = optionValue val ++ [0] := storeOption_cutAll _

/-- The tests ahead of the comparison with the key. -/
theorem option_guards {P : Except Stop OptionResult → Prop} {body : Except Stop OptionResult}
    (refuses : ¬ Compares option src → ∀ code, code ≠ 0 → P (.ok (.refuse code)))
    (compares : Compares option src → P body) :
    P (if rounds src option = 0 then .ok (.refuse (-5))
      else if src.getD 0 0 = ';'.toUInt8 then .ok (.refuse (-1))
      else if src.getD 0 0 = 0 then .ok (.refuse (-2))
      else if src.getD 0 0 = '['.toUInt8 then .ok (.refuse (-3))
      else body) := by
  by_cases hlength : rounds src option = 0
  · rw [if_pos hlength]
    exact refuses (fun h => h.1 hlength) _ (by decide)
  by_cases hcomment : src.getD 0 0 = ';'.toUInt8
  · rw [if_neg hlength, if_pos hcomment]
    exact refuses (fun h => h.2.1 hcomment) _ (by decide)
  by_cases hempty : src.getD 0 0 = 0
  · rw [if_neg hlength, if_neg hcomment, if_pos hempty]
    exact refuses (fun h => h.2.2.1 hempty) _ (by decide)
  by_cases hheader : src.getD 0 0 = '['.toUInt8
  · rw [if_neg hlength, if_neg hcomment, if_neg hempty, if_pos hheader]
    exact refuses (fun h => h.2.2.2 hheader) _ (by decide)
  rw [if_neg hlength, if_neg hcomment, if_neg hempty, if_neg hheader]
  exact compares ⟨hlength, hcomment, hempty, hheader⟩

theorem findOption_skipped (h : ¬ Compares option src) (bufferSize : Int) :
    ∃ code, code ≠ 0 ∧ findOption src option bufferSize = .ok (.refuse code) := by
  unfold findOption
  apply option_guards (P := fun x => ∃ code, code ≠ 0 ∧ x = .ok (.refuse code))
  · exact fun _ code hcode => ⟨code, hcode, rfl⟩
  · exact fun compares => absurd compares h

/-- A line that is compared overflows the array if it is too long, and so does a key. -/
theorem findOption_overflow (h : Compares option src) (src_zero : 0 ∉ src)
    (option_zero : 0 ∉ option) (hlong : ¬ (src.length < 1024 ∧ option.length < 1024))
    (bufferSize : Int) : findOption src option bufferSize = .error .outOfBounds := by
  unfold findOption
  rw [strcpy_eq option_zero, strcpy_eq src_zero]
  apply option_guards (P := fun x => x = .error .outOfBounds)
  · exact fun hnot => absurd h hnot
  · intro _
    by_cases hoption : option.length < 1024
    · rw [if_pos hoption, if_neg fun hsrc => hlong ⟨hsrc, hoption⟩]
      rfl
    · rw [if_neg hoption]
      rfl

/-- What `FindOption` makes of a line that fits in its array. -/
theorem findOption_eq (src_length : src.length < 1024) (src_zero : 0 ∉ src)
    (option_length : option.length < 1024) (option_zero : 0 ∉ option) (bufferSize : Int) :
    (¬ Takes option src ∧ ∃ code, code ≠ 0 ∧
      findOption src option bufferSize = .ok (.refuse code)) ∨
    (Takes option src ∧ findOption src option bufferSize =
      match lineValue src with
      | none => .error .nullPointer
      | some v =>
        .ok (if bufferSize ≥ v.length + 1 then ⟨0, false, v ++ [0]⟩ else .refuse (-3))) := by
  have hafter : endsName ((strlwr src).getD (strlwr option).length 0) ↔
      endsName (src.getD option.length 0) := by
    rw [strlwr_getD, endsName_tolower, length_strlwr]
  have hmatch : ((strstr (strlwr src) (strlwr option)).isSome = true ∧
      endsName ((strlwr src).getD (strlwr option).length 0)) ↔
      strlwr option <:+: strlwr src ∧ endsName (src.getD option.length 0) := by
    rw [hafter, strstr_isSome_iff]
  have hlengths := (rounds_eq_zero_iff (src_length.trans (by decide)) option_length).not
  unfold findOption
  rw [strcpy_append option_zero option_length [], strcpy_append src_zero src_length []]
  apply option_guards (P := fun x => (_ ∧ ∃ code, code ≠ 0 ∧ x = .ok (.refuse code)) ∨ _ ∧ x = _)
  · intro hnot code hcode
    exact .inl ⟨fun takes => hnot ⟨hlengths.mpr takes.1, takes.2.1⟩, code, hcode, rfl⟩
  intro ⟨hne, hplain⟩
  by_cases hkey : strlwr option <:+: strlwr src ∧ endsName (src.getD option.length 0)
  · refine .inr ⟨⟨hlengths.mp hne, hplain, hkey⟩, (if_pos (hmatch.mpr hkey)).trans ?_⟩
    unfold lineValue
    cases strstr src (chars ['=']) with
    | none => rfl
    | some i =>
      simp only [Option.map_some, storeOption_optionValue]
      split <;> rfl
  · refine .inl ⟨fun h => hkey h.2.2, -4, by decide, (if_neg fun h => hkey (hmatch.mp h)).trans rfl⟩

theorem zero_not_mem_lineValue {v : Str} (zero : 0 ∉ src) (h : lineValue src = some v) : 0 ∉ v := by
  obtain ⟨i, -, rfl⟩ := Option.map_eq_some_iff.mp h
  intro hmem
  have hkept := (cutAll_isPrefix aSymb _).subset hmem
  exact zero (List.mem_of_mem_drop ((List.dropWhile_suffix blank).subset hkept))

/-- `FindOption` refuses a line, or it has copied the key and the line and stores the value. -/
theorem findOption_cases {bufferSize : Int} {r : OptionResult}
    (h : findOption src option bufferSize = .ok r) :
    (r.code ≠ 0 ∧ r = .refuse r.code) ∨
      (∃ option_tmp, strcpy 1024 (option ++ [0]) = .ok option_tmp) ∧
      (∃ name, strcpy 1024 (src ++ [0]) = .ok name) ∧
      ∃ v, lineValue src = some v ∧ v.length < bufferSize ∧ r = ⟨0, false, v ++ [0]⟩ := by
  revert h
  unfold findOption
  refine option_guards (P := fun x => x = .ok r → _) ?_ ?_
  · intro _ code hcode h
    cases h
    exact .inl ⟨hcode, rfl⟩
  intro _ h
  obtain ⟨option_tmp, hoption, h⟩ := ok_of_bind h
  obtain ⟨name, hname, h⟩ := ok_of_bind h
  dsimp only at h
  split at h
  · cases hequals : strstr src (chars ['=']) with
    | none =>
      rw [hequals] at h
      cases h
    | some i =>
      rw [hequals] at h
      dsimp only at h
      split at h
      · rename_i hsize
        cases h
        refine .inr ⟨⟨option_tmp, hoption⟩, ⟨name, hname⟩, optionValue (src.drop (i + 1)), ?_⟩
        rw [lineValue, hequals, storeOption_optionValue]
        exact ⟨rfl, by omega, rfl⟩
      · cases h
        exact .inl ⟨by decide, rfl⟩
  · cases h
    exact .inl ⟨by decide, rfl⟩

/-- `FindOption` refuses a line and stores nothing, or it stores the value. -/
theorem findOption_ok {bufferSize : Int} {r : OptionResult}
    (h : findOption src option bufferSize = .ok r) :
    (r.code ≠ 0 ∧ r = .refuse r.code) ∨
      ∃ v, lineValue src = some v ∧ v.length < bufferSize ∧ r = ⟨0, false, v ++ [0]⟩ :=
  (findOption_cases h).imp_right fun stored => stored.2.2

/-- The default is dropped where a value is found. -/
theorem findOption_setDefault {bufferSize : Int} {r : OptionResult}
    (h : findOption src option bufferSize = .ok r) (found : r.code = 0) : r.setDefault = false := by
  obtain ⟨refused, -⟩ | ⟨v, -, -, rfl⟩ := findOption_ok h
  · exact absurd found refused
  · rfl

end Lines

section Arrays

variable {mem : List UInt8} {i : Nat}

/-- A NUL is stored in the middle of a string. -/
theorem set_zero (h : i < (cstr mem).length) :
    mem.set i 0 = (cstr mem).take i ++ 0 :: mem.drop (i + 1) := by
  have hline : cstr mem <+: mem := List.takeWhile_prefix _
  have hin : i < mem.length := h.trans_le hline.length_le
  have htake : mem.take i = (cstr mem).take i := by
    rw [List.prefix_iff_eq_take.mp hline, List.take_take, Nat.min_eq_left h.le]
  rw [List.set_eq_take_append_cons_drop, if_pos hin, htake]

theorem zero_not_mem_take (mem : List UInt8) (i : Nat) : 0 ∉ (cstr mem).take i := fun hmem =>
  zero_not_mem_cstr mem (List.mem_of_mem_take hmem)

/-- The name is what is left of a line whose `=` is overwritten. -/
theorem set_equals (h : isOptionName (cstr mem) = some i) :
    ((cstr mem).take i).length = i ∧ cstr (mem.set i 0) = (cstr mem).take i ∧
      (mem.set i 0).take (i + 1) = (cstr mem).take i ++ [0] := by
  have hequals : i < (cstr mem).length := strstr_add_length_le h
  have hlength : ((cstr mem).take i).length = i := List.length_take_of_le hequals.le
  refine ⟨hlength, ?_, ?_⟩
  · rw [set_zero hequals, cstr_append (zero_not_mem_take mem i)]
  · rw [set_zero hequals, List.take_append, hlength, List.take_of_length_le (by omega)]
    simp

/-- The name of a section is between the brackets. -/
theorem set_bracket {name : Str} (h : cstr mem = header name) :
    (cstr mem).length - 1 = name.length + 1 ∧
      ((mem.set (name.length + 1) 0).drop 1).take (name.length + 1) = name ++ [0] := by
  have hlength : (cstr mem).length = name.length + 2 := by simp [h, header]
  have htake : (cstr mem).take (name.length + 1) = '['.toUInt8 :: name := by
    rw [h, header, List.cons_append, List.take_succ_cons, List.take_left]
  refine ⟨by omega, ?_⟩
  rw [set_zero (by omega), htake, List.cons_append, List.drop_one, List.tail_cons,
    List.take_append, List.take_of_length_le (by omega)]
  simp

end Arrays

end Gipcy.Linux.Ini
