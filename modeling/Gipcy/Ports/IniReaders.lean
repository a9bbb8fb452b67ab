import Gipcy.Qnx.Ini.Read

/-! The INI readers of the Linux and the QNX library as one reader, with what they
do each in its own way left open. -/
namespace Gipcy.Ports.Ini

open CString Lines
open Linux.Ini (Stop OptionResult ReadState Next Compares PATH_MAX IPC_BAD_INI_FILE strlwr
  strcpy_eq option_guards rounds endsName lineValue storeOption endsName_tolower strlwr_getD
  length_strlwr storeOption_cutAll storeOption_optionValue)
open Qnx.Ini (copyDefault)

/-- What one `FindOption` makes of a line that it compares with the key. -/
structure View where
  /-- Its arrays have room for the key and for what it copies of the line. -/
  room : Prop
  found : Prop
  value : Option Str

/-- What a line gives for the key: a value that fits in the buffer, or none. -/
inductive Gives (view : View) (lpKeyName : Str) (nSize : Int) (src : Str) : Option Str → Prop where
  | skipped : ¬ Compares lpKeyName src → Gives view lpKeyName nSize src none
  | other : Compares lpKeyName src → view.room → ¬ view.found → Gives view lpKeyName nSize src none
  | long {v} : Compares lpKeyName src → view.room → view.found → view.value = some v →
      nSize ≤ v.length → Gives view lpKeyName nSize src none
  | taken {v} : Compares lpKeyName src → view.room → view.found → view.value = some v →
      v.length < nSize → Gives view lpKeyName nSize src (some v)

/-- How `FindOption` ends on a line that gives this or that. -/
inductive OptionRead (gives : Option Str → Prop) : Except Stop OptionResult → Prop where
  | refused {code} : gives none → code ≠ 0 → OptionRead gives (.ok (.refuse code))
  | found {v} : gives (some v) → OptionRead gives (.ok ⟨0, false, v ++ [0]⟩)
  | crashed {e} : (∀ given, ¬ gives given) → OptionRead gives (.error e)

/-- A reader of INI files. -/
structure Reader where
  findSection : List UInt8 → Str → Except Stop Int
  findOption : Str → Str → Int → Except Stop OptionResult
  view : Str → Str → View
  /-- The default is copied where the inner loop ends, and not after both. -/
  early : Bool
  option_read {src lpKeyName : Str} (src_zero : 0 ∉ src) (key_zero : 0 ∉ lpKeyName) (nSize : Int) :
    OptionRead (Gives (view lpKeyName src) lpKeyName nSize src) (findOption src lpKeyName nSize)
  value_zero {src lpKeyName v : Str} (src_zero : 0 ∉ src)
    (h : (view lpKeyName src).value = some v) : 0 ∉ v

namespace Reader

variable (R : Reader)

def outerRound (lpAppName : Option Str) (nSize : Int) (s : ReadState) :
    Except Stop (Next × ReadState) :=
  match lpAppName with
  | none => Linux.Ini.outerRound none nSize s
  | some lpAppName => do
    let r ← R.findSection s.str lpAppName
    .ok (.go (r = 0), s)

def innerRound (lpKeyName : Option Str) (nSize : Int) (s : ReadState) :
    Except Stop (Next × ReadState) :=
  match lpKeyName with
  | none => Linux.Ini.innerRound none nSize s
  | some lpKeyName => do
    let r ← R.findOption (cstr s.str) lpKeyName nSize
    let s := { s with setDefault := r.setDefault, out := store s.out s.pos r.stored }
    .ok (if r.code = 0 then .done 1 else .go true, s)

def readRound (lpAppName lpKeyName : Option Str) (nSize : Int) (inner : Bool) (s : ReadState) :
    Except Stop (Next × ReadState) :=
  if inner then R.innerRound lpKeyName nSize s else R.outerRound lpAppName nSize s

/-- What is done where the inner loop ends. -/
def leave (lpDefault : Option Str) (s : ReadState) : ReadState :=
  if R.early then copyDefault lpDefault s else s

/-- The loops, on the lines that are still to come. -/
def readLoop (lpAppName lpKeyName lpDefault : Option Str) (nSize : Int) (inner : Bool) :
    List Getline → ReadState → Except Stop (Int × ReadState)
  | [], s => .ok (0, if inner then R.leave lpDefault s else s)
  | line :: lines, s => do
    let (next, s) ← R.readRound lpAppName lpKeyName nSize inner
      { s with str := overwrite s.str line.stored }
    match next with
    | .done found => .ok (found, if inner then R.leave lpDefault s else s)
    | .go stays =>
      let s := if inner ∧ ¬ stays then R.leave lpDefault s else s
      if line.failed then .error .never
      else readLoop lpAppName lpKeyName lpDefault nSize stays lines s

/-- What is done after both loops. -/
def finish (lpDefault : Option Str) (s : ReadState) : ReadState :=
  if R.early then s else copyDefault lpDefault s

def getPrivateProfileString (lpAppName lpKeyName lpDefault : Option Str) (out : Nat → UInt8)
    (nSize : Int) (file : Option (List UInt8)) (str : List UInt8) :
    Except Stop (Int × (Nat → UInt8)) :=
  match file with
  | none => .ok (IPC_BAD_INI_FILE, out)
  | some file => do
    let (found, s) ← R.readLoop lpAppName lpKeyName lpDefault nSize false
      (getlineAll PATH_MAX file) ⟨str, true, 0, out, 0⟩
    let s := R.finish lpDefault s
    .ok (found, if lpAppName = none ∨ lpKeyName = none then store s.out s.pos [0] else s.out)

end Reader

section Views

/-- The Linux library finds the key anywhere in the line, and looks at the character
after as many as the key has. -/
def linuxView (lpKeyName src : Str) : View where
  room := lpKeyName.length < 1024 ∧ src.length < 1024
  found := strlwr lpKeyName <:+: strlwr src ∧ endsName (src.getD lpKeyName.length 0)
  value := lineValue src

/-- The front of a line and its newline, as long as the key. -/
def front (lpKeyName src : Str) : Str := (src ++ [nl]).take lpKeyName.length

/-- The QNX library finds the key at the front of the line, whatever comes after it. -/
def qnxView (lpKeyName src : Str) : View where
  room := (front lpKeyName src).length < 128 ∧ lpKeyName.length < 1024
  found := strlwr (front lpKeyName src) = strlwr lpKeyName
  value := (strstr src (chars ['='])).map fun i => Qnx.Ini.optionValue (src.drop (i + 1))

variable {src lpKeyName : Str}

theorem snprintf_eq (zero : 0 ∉ src) (size key_size : Nat) :
    Qnx.Ini.snprintf size key_size (src ++ [0]) =
      if ((src ++ [nl]).take key_size).length < size then .ok ((src ++ [nl]).take key_size)
      else .error .outOfBounds := by
  rw [Qnx.Ini.snprintf, cstr_append zero]
  simp

variable {view : View} {nSize : Int}

/-- The tests ahead of the comparison, which the two libraries have in common. -/
theorem optionRead_guards {body : Except Stop OptionResult}
    (h : Compares lpKeyName src → OptionRead (Gives view lpKeyName nSize src) body) :
    OptionRead (Gives view lpKeyName nSize src)
      (if rounds src lpKeyName = 0 then .ok (.refuse (-5))
      else if src.getD 0 0 = ';'.toUInt8 then .ok (.refuse (-1))
      else if src.getD 0 0 = 0 then .ok (.refuse (-2))
      else if src.getD 0 0 = '['.toUInt8 then .ok (.refuse (-3))
      else body) := by
  exact option_guards (fun skipped _ hcode => .refused (.skipped skipped) hcode) h

/-- The end of both: the value is taken from behind the first `=`. -/
theorem optionRead_compared {found : Prop} [Decidable found] {value : Nat → Str}
    (looked : Compares lpKeyName src) (room : view.room) (hfound : found ↔ view.found)
    (hvalue : view.value = (strstr src (chars ['='])).map value)
    (hstore : ∀ i, storeOption (value i) = value i ++ [0]) :
    OptionRead (Gives view lpKeyName nSize src)
      (if found then
        match strstr src (chars ['=']) with
        | none => .error .nullPointer
        | some i =>
          if nSize ≥ (value i).length + 1 then .ok ⟨0, false, storeOption (value i)⟩
          else .ok (.refuse (-3))
      else .ok (.refuse (-4))) := by
  by_cases h : found
  · rw [if_pos h]
    cases hequals : strstr src (chars ['=']) with
    | none =>
      rw [hequals, Option.map_none] at hvalue
      refine .crashed fun given hgiven => ?_
      cases hgiven with
      | skipped hskip => exact hskip looked
      | other _ _ hother => exact hother (hfound.mp h)
      | long _ _ _ hlong _ => cases hvalue.symm.trans hlong
      | taken _ _ _ htaken _ => cases hvalue.symm.trans htaken
    | some i =>
      rw [hequals, Option.map_some] at hvalue
      dsimp only
      rw [hstore]
      split
      · exact .found (.taken looked room (hfound.mp h) hvalue (by omega))
      · exact .refused (.long looked room (hfound.mp h) hvalue (by omega)) (by decide)
  · rw [if_neg h]
    exact .refused (.other looked room (hfound.not.mp h)) (by decide)

/-- Nothing is given where an array has no room. -/
theorem optionRead_overflow {e : Stop} (looked : Compares lpKeyName src) (room : ¬ view.room) :
    OptionRead (Gives view lpKeyName nSize src) (.error e) := by
  refine .crashed fun given hgiven => ?_
  cases hgiven with
  | skipped h => exact h looked
  | other _ h _ => exact room h
  | long _ h _ _ _ => exact room h
  | taken _ h _ _ _ => exact room h

theorem linux_option_read (src_zero : 0 ∉ src) (key_zero : 0 ∉ lpKeyName) (nSize : Int) :
    OptionRead (Gives (linuxView lpKeyName src) lpKeyName nSize src)
      (Linux.Ini.findOption src lpKeyName nSize) := by
  unfold Linux.Ini.findOption
  rw [strcpy_eq key_zero, strcpy_eq src_zero]
  refine optionRead_guards fun looked => ?_
  by_cases hkey : lpKeyName.length < 1024
  · by_cases hsrc : src.length < 1024
    · rw [if_pos hkey, if_pos hsrc]
      refine optionRead_compared looked ⟨hkey, hsrc⟩ ?_ rfl fun i => storeOption_optionValue _
      rw [strstr_isSome_iff, strlwr_getD, length_strlwr]
      exact and_congr_right fun _ => endsName_tolower _
    · rw [if_pos hkey, if_neg hsrc]
      exact optionRead_overflow looked fun h => hsrc h.2
  · rw [if_neg hkey]
    exact optionRead_overflow looked fun h => hkey h.1

theorem qnx_option_read (src_zero : 0 ∉ src) (key_zero : 0 ∉ lpKeyName) (nSize : Int) :
    OptionRead (Gives (qnxView lpKeyName src) lpKeyName nSize src)
      (Qnx.Ini.findOption src lpKeyName nSize) := by
  unfold Qnx.Ini.findOption
  rw [snprintf_eq src_zero, strcpy_eq key_zero]
  refine optionRead_guards fun looked => ?_
  by_cases hfront : (front lpKeyName src).length < 128
  · by_cases hkey : lpKeyName.length < 1024
    · rw [if_pos hkey, if_pos (show ((src ++ [nl]).take _).length < 128 from hfront)]
      exact optionRead_compared looked ⟨hfront, hkey⟩ Iff.rfl rfl fun i => storeOption_cutAll _
    · rw [if_neg hkey, if_pos (show ((src ++ [nl]).take _).length < 128 from hfront)]
      exact optionRead_overflow looked fun h => hkey h.2
  · rw [if_neg (show ¬ ((src ++ [nl]).take _).length < 128 from hfront)]
    exact optionRead_overflow looked fun h => hfront h.1

theorem qnx_value_zero {v : Str} (src_zero : 0 ∉ src) (h : (qnxView lpKeyName src).value = some v) :
    0 ∉ v := by
  obtain ⟨i, -, rfl⟩ := Option.map_eq_some_iff.mp h
  exact fun hmem => src_zero (List.mem_of_mem_drop ((cutAll_isPrefix _ _).subset hmem))

end Views

/-- The reader of the Linux library. -/
def linux : Reader where
  findSection := Linux.Ini.findSection
  findOption := Linux.Ini.findOption
  view := linuxView
  early := false
  option_read := linux_option_read
  value_zero := Linux.Ini.zero_not_mem_lineValue

/-- The reader of the QNX library. -/
def qnx : Reader where
  findSection := Qnx.Ini.findSection
  findOption := Qnx.Ini.findOption
  view := qnxView
  early := true
  option_read := qnx_option_read
  value_zero := qnx_value_zero

section Readers

variable {lpAppName lpKeyName lpDefault : Option Str} {nSize : Int} {inner : Bool}

theorem linux_readLoop (lines : List Getline) (s : ReadState) :
    linux.readLoop lpAppName lpKeyName lpDefault nSize inner lines s =
      Linux.Ini.readLoop lpAppName lpKeyName nSize inner lines s := by
  have hround : ∀ inner s, linux.readRound lpAppName lpKeyName nSize inner s =
      Linux.Ini.readRound lpAppName lpKeyName nSize inner s := by
    intro inner s
    cases inner <;> cases lpAppName <;> cases lpKeyName <;> rfl
  have hleave : ∀ (left : Prop) [Decidable left] (s : ReadState),
      (if left then linux.leave lpDefault s else s) = s := fun _ _ _ => ite_self _
  induction lines generalizing inner s with
  | nil => exact congrArg (fun t => Except.ok (0, t)) (hleave _ s)
  | cons line lines ih =>
    rw [Reader.readLoop, Linux.Ini.readLoop, hround]
    refine congrArg (_ >>= ·) (funext fun r => ?_)
    obtain ⟨next, t⟩ := r
    cases next with
    | done found => exact congrArg (fun t => Except.ok (found, t)) (hleave _ t)
    | go stays =>
      show (if line.failed then Except.error Stop.never else linux.readLoop _ _ _ _ stays lines _) =
        if line.failed then Except.error Stop.never else Linux.Ini.readLoop _ _ _ stays lines t
      rw [hleave, ih]

theorem qnx_readLoop (lines : List Getline) (s : ReadState) :
    qnx.readLoop lpAppName lpKeyName lpDefault nSize inner lines s =
      Qnx.Ini.readLoop lpAppName lpKeyName lpDefault nSize inner lines s := by
  have hround : ∀ inner s, qnx.readRound lpAppName lpKeyName nSize inner s =
      Qnx.Ini.readRound lpAppName lpKeyName nSize inner s := by
    intro inner s
    cases inner <;> cases lpAppName <;> cases lpKeyName <;> rfl
  induction lines generalizing inner s with
  | nil => rfl
  | cons line lines ih =>
    rw [Reader.readLoop, Qnx.Ini.readLoop, hround]
    refine congrArg (_ >>= ·) (funext fun r => ?_)
    obtain ⟨next, t⟩ := r
    cases next with
    | done found => rfl
    | go stays =>
      show (if line.failed then Except.error Stop.never else qnx.readLoop _ _ _ _ stays lines _) =
        if line.failed then Except.error Stop.never else Qnx.Ini.readLoop _ _ _ _ stays lines _
      rw [ih]
      rfl

variable {out : Nat → UInt8} {file : Option (List UInt8)} {str : List UInt8}

theorem linux_get : linux.getPrivateProfileString lpAppName lpKeyName lpDefault out nSize file str =
    Linux.Ini.getPrivateProfileString lpAppName lpKeyName lpDefault out nSize file str := by
  cases file with
  | none => rfl
  | some file =>
    show (_ >>= _) = (_ >>= _)
    rw [linux_readLoop]
    congr 1
    funext ⟨found, str, setDefault, sectionsSize, out, pos⟩
    cases setDefault <;> cases lpDefault <;> rfl

theorem qnx_get : qnx.getPrivateProfileString lpAppName lpKeyName lpDefault out nSize file str =
    Qnx.Ini.getPrivateProfileString lpAppName lpKeyName lpDefault out nSize file str := by
  cases file with
  | none => rfl
  | some file =>
    show (_ >>= _) = (_ >>= _)
    rw [qnx_readLoop]
    rfl

end Readers

end Gipcy.Ports.Ini
