import Gipcy.Linux.Ini.Read

/-! `IPC_getPrivateProfileString` of the QNX library. What is not here has the
same text in the Linux library. -/
namespace Gipcy.Qnx.Ini

open CString Lines
open Linux.Ini hiding matchSection sectionRound findSectionFrom findSection optionValue findOption
  outerRound innerRound readRound readLoop getPrivateProfileString

/-- `snprintf(name, key_size + 1, "%s\n", text)`, where `name` has room for `size`. -/
def snprintf (size key_size : Nat) (text : List UInt8) : Except Stop Str :=
  let printed := (cstr text ++ [nl]).take key_size
  if 0 ∈ text ∧ printed.length < size then .ok printed else .error .outOfBounds

/-- The front of what follows the bracket is compared with the name. -/
def matchSection (sectionName : Str) (rest : List UInt8) : Except Stop Int := do
  let name ← snprintf PATH_MAX sectionName.length rest
  let section_tmp ← strcpy 1024 (sectionName ++ [0])
  if strlwr name = strlwr section_tmp then .ok 0 else .ok (-3)

/-- One round of `FindSection`, at the character `c` and what follows it. -/
def sectionRound (sectionName : Str) (c : UInt8) (rest : List UInt8) : Option (Except Stop Int) :=
  if c = ';'.toUInt8 then some (.ok (-1))
  else if c = 0 then some (.ok (-2))
  else if c = '['.toUInt8 then some (matchSection sectionName rest)
  else none

/-- The rounds of `FindSection` from round `i` on, which looks at `src[2 * i]`. -/
def findSectionFrom (sectionName : Str) (rounds : Nat) : Nat → List UInt8 → Except Stop Int
  | i, [] => if i < rounds then .error .outOfBounds else .ok (-4)
  | i, [c] =>
    if i < rounds then
      (sectionRound sectionName c []).getD
        (if i + 1 < rounds then .error .outOfBounds else .ok (-4))
    else .ok (-4)
  | i, c :: d :: rest =>
    if i < rounds then
      (sectionRound sectionName c (d :: rest)).getD
        (findSectionFrom sectionName rounds (i + 1) rest)
    else .ok (-4)

/-- `FindSection`, on the array that holds the line. -/
def findSection (src : List UInt8) (sectionName : Str) : Except Stop Int :=
  findSectionFrom sectionName (rounds (cstr src) sectionName) 0 src

/-- The value of a line, from what follows the first `=`. Blanks stay. -/
def optionValue (val : Str) : Str := cutAll val aSymb

/-- `FindOption`. Every round of its loop returns, so there is only the first. -/
def findOption (src option : Str) (bufferSize : Int) : Except Stop OptionResult := do
  if rounds src option = 0 then return .refuse (-5)
  let c := src.getD 0 0
  if c = ';'.toUInt8 then return .refuse (-1)
  if c = 0 then return .refuse (-2)
  if c = '['.toUInt8 then return .refuse (-3)
  let name := strlwr (← snprintf 128 option.length (src ++ [0]))
  let option_tmp := strlwr (← strcpy 1024 (option ++ [0]))
  if name = option_tmp then
    match strstr src (chars ['=']) with
    | none => .error .nullPointer
    | some i =>
      let val := optionValue (src.drop (i + 1))
      if bufferSize ≥ val.length + 1 then return ⟨0, false, storeOption val⟩
      else return .refuse (-3)
  else return .refuse (-4)

/-- A round of the outer loop, after its `getline`. -/
def outerRound (lpAppName : Option Str) (nSize : Int) (s : ReadState) :
    Except Stop (Next × ReadState) :=
  match lpAppName with
  | none => Linux.Ini.outerRound none nSize s
  | some lpAppName => do
    let r ← findSection s.str lpAppName
    .ok (.go (r = 0), s)

/-- A round of the inner loop, after its `getline`. -/
def innerRound (lpKeyName : Option Str) (nSize : Int) (s : ReadState) :
    Except Stop (Next × ReadState) :=
  match lpKeyName with
  | none => Linux.Ini.innerRound none nSize s
  | some lpKeyName => do
    let r ← findOption (cstr s.str) lpKeyName nSize
    let s := { s with setDefault := r.setDefault, out := store s.out s.pos r.stored }
    .ok (if r.code = 0 then .done 1 else .go true, s)

def readRound (lpAppName lpKeyName : Option Str) (nSize : Int) (inner : Bool) (s : ReadState) :
    Except Stop (Next × ReadState) :=
  if inner then innerRound lpKeyName nSize s else outerRound lpAppName nSize s

/-- The default is copied to `lpReturnedString`, if there is one and no value was found. -/
def copyDefault (lpDefault : Option Str) (s : ReadState) : ReadState :=
  match s.setDefault, lpDefault with
  | true, some text => { s with out := store s.out s.pos (text ++ [0]) }
  | _, _ => s

/-- The loops, on the lines that are still to come. The default is copied where the
inner loop ends. -/
def readLoop (lpAppName lpKeyName lpDefault : Option Str) (nSize : Int) (inner : Bool) :
    List Getline → ReadState → Except Stop (Int × ReadState)
  | [], s => .ok (0, if inner then copyDefault lpDefault s else s)
  | line :: lines, s => do
    let (next, s) ← readRound lpAppName lpKeyName nSize inner
      { s with str := overwrite s.str line.stored }
    match next with
    | .done found => .ok (found, if inner then copyDefault lpDefault s else s)
    | .go stays =>
      let s := if inner ∧ ¬ stays then copyDefault lpDefault s else s
      if line.failed then .error .never
      else readLoop lpAppName lpKeyName lpDefault nSize stays lines s

/-- What the call returns, and the memory from `lpReturnedString` on after it. -/
def getPrivateProfileString (lpAppName lpKeyName lpDefault : Option Str) (out : Nat → UInt8)
    (nSize : Int) (file : Option (List UInt8)) (str : List UInt8) :
    Except Stop (Int × (Nat → UInt8)) :=
  match file with
  | none => .ok (IPC_BAD_INI_FILE, out)
  | some file => do
    let (found, s) ← readLoop lpAppName lpKeyName lpDefault nSize false
      (getlineAll PATH_MAX file) ⟨str, true, 0, out, 0⟩
    .ok (found, if lpAppName = none ∨ lpKeyName = none then store s.out s.pos [0] else s.out)

end Gipcy.Qnx.Ini
