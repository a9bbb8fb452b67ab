import Gipcy.Linux.Ini.Text

/-! `IPC_getPrivateProfileString`. -/
namespace Gipcy.Linux.Ini

open CString Lines

def IPC_BAD_INI_FILE : Int := 0xC0000104 - 0x100000000

/-- The variables of the call. `out` is the memory from the `lpReturnedString` of
the caller on, and `pos` how far that pointer has been moved. -/
structure ReadState where
  str : List UInt8
  setDefault : Bool
  sectionsSize : Int
  out : Nat → UInt8
  pos : Nat

/-- Where a round of the loops leads: on, with the inner or the outer loop, or out
of both with `found`. -/
inductive Next where
  | go (inner : Bool)
  | done (found : Int)
deriving DecidableEq

/-- The characters are listed at `lpReturnedString`, if there is room for them. -/
def ReadState.list (s : ReadState) (nSize : Int) (size : Nat) (text : List UInt8) :
    Option ReadState :=
  let sectionsSize := s.sectionsSize + size
  if sectionsSize > nSize - 1 then none
  else some { s with
    sectionsSize := sectionsSize
    out := store s.out s.pos (text.take size)
    pos := s.pos + size }

/-- A round of the outer loop, after its `getline`. -/
def outerRound (lpAppName : Option Str) (nSize : Int) (s : ReadState) :
    Except Stop (Next × ReadState) :=
  match lpAppName with
  | none =>
    if isSection (cstr s.str) then
      let size := (cstr s.str).length - 1
      let s := { s with str := s.str.set size 0 }
      match s.list nSize size (s.str.drop 1) with
      | none => .ok (.done 0, { s with sectionsSize := s.sectionsSize + size })
      | some s => .ok (.go false, s)
    else .ok (.go false, s)
  | some lpAppName => do
    let r ← findSection s.str lpAppName
    .ok (.go (r = 0), s)

/-- A round of the inner loop, after its `getline`. -/
def innerRound (lpKeyName : Option Str) (nSize : Int) (s : ReadState) :
    Except Stop (Next × ReadState) :=
  match lpKeyName with
  | none =>
    if isSection (cstr s.str) then .ok (.go false, s)
    else
      match isOptionName (cstr s.str) with
      | none => .ok (.go true, s)
      | some i =>
        let s := { s with str := s.str.set i 0 }
        let size := (cstr s.str).length + 1
        match s.list nSize size s.str with
        | none => .ok (.go false, { s with sectionsSize := s.sectionsSize + size })
        | some s => .ok (.go true, s)
  | some lpKeyName => do
    let r ← findOption (cstr s.str) lpKeyName nSize
    let s := { s with setDefault := r.setDefault, out := store s.out s.pos r.stored }
    .ok (if r.code = 0 then .done 1 else .go true, s)

def readRound (lpAppName lpKeyName : Option Str) (nSize : Int) (inner : Bool) (s : ReadState) :
    Except Stop (Next × ReadState) :=
  if inner then innerRound lpKeyName nSize s else outerRound lpAppName nSize s

/-- The loops, on the lines that are still to come. After a `getline` that failed
both would go round for ever, on empty lines. -/
def readLoop (lpAppName lpKeyName : Option Str) (nSize : Int) (inner : Bool) :
    List Getline → ReadState → Except Stop (Int × ReadState)
  | [], s => .ok (0, s)
  | line :: lines, s => do
    let (next, s) ← readRound lpAppName lpKeyName nSize inner
      { s with str := overwrite s.str line.stored }
    match next with
    | .done found => .ok (found, s)
    | .go inner =>
      if line.failed then .error .never else readLoop lpAppName lpKeyName nSize inner lines s

/-- What the call returns, and the memory from `lpReturnedString` on after it.
`str` is what the array holds at first; `file` is `none` if it cannot be opened. -/
def getPrivateProfileString (lpAppName lpKeyName lpDefault : Option Str) (out : Nat → UInt8)
    (nSize : Int) (file : Option (List UInt8)) (str : List UInt8) :
    Except Stop (Int × (Nat → UInt8)) :=
  match file with
  | none => .ok (IPC_BAD_INI_FILE, out)
  | some file => do
    let (found, s) ← readLoop lpAppName lpKeyName nSize false (getlineAll PATH_MAX file)
      ⟨str, true, 0, out, 0⟩
    let out :=
      match s.setDefault, lpDefault with
      | true, some text => store s.out s.pos (text ++ [0])
      | _, _ => s.out
    let out := if lpAppName = none ∨ lpKeyName = none then store out s.pos [0] else out
    .ok (found, out)

section Rounds

variable {app key : Option Str} {nSize : Int} {inner : Bool} {s t : ReadState}

theorem readLoop_setDefault {lpAppName lpKeyName : Str} {lines : List Getline} {s' : ReadState}
    (h : readLoop (some lpAppName) (some lpKeyName) nSize inner lines s = .ok (1, s')) :
    s'.setDefault = false := by
  induction lines generalizing inner s with
  | nil => cases h
  | cons line lines ih =>
    rw [readLoop] at h
    obtain ⟨⟨next, t⟩, hround, h⟩ := ok_of_bind h
    have hnext : next = .done 1 → t.setDefault = false := by
      rintro rfl
      cases inner with
      | true =>
        obtain ⟨r, hr, hround⟩ := ok_of_bind hround
        obtain ⟨hnext, rfl⟩ := Prod.mk.inj (Except.ok.inj hround)
        by_cases hcode : r.code = 0
        · exact findOption_setDefault hr hcode
        · rw [if_neg hcode] at hnext
          cases hnext
      | false =>
        obtain ⟨r, -, hround⟩ := ok_of_bind hround
        cases hround
    cases next with
    | done found =>
      cases h
      exact hnext rfl
    | go inner =>
      by_cases hfailed : line.failed = true
      · simp only [hfailed, if_true] at h
        cases h
      · simp only [hfailed] at h
        exact ih h

/-- The lines as `getline` reads them. -/
def getlinesOf (lines : List Str) : List Getline := lines.map (⟨·, false⟩)

variable {l : Str} (lines : List Str) (rest : List Getline)

theorem readLoop_go {next : Bool} (h : readRound app key nSize inner
      { s with str := overwrite s.str l } = .ok (.go next, t)) :
    readLoop app key nSize inner (getlinesOf (l :: lines) ++ rest) s =
      readLoop app key nSize next (getlinesOf lines ++ rest) t := by
  rw [getlinesOf, List.map_cons, List.cons_append, readLoop, h]
  rfl

theorem readLoop_done {found : Int} (h : readRound app key nSize inner
      { s with str := overwrite s.str l } = .ok (.done found, t)) :
    readLoop app key nSize inner (getlinesOf (l :: lines) ++ rest) s = .ok (found, t) := by
  rw [getlinesOf, List.map_cons, List.cons_append, readLoop, h]
  rfl

theorem readLoop_error {e : Stop} (h : readRound app key nSize inner
      { s with str := overwrite s.str l } = .error e) :
    readLoop app key nSize inner (getlinesOf (l :: lines) ++ rest) s = .error e := by
  rw [getlinesOf, List.map_cons, List.cons_append, readLoop, h]
  rfl

end Rounds

/-- The line has no value for the key that fits in the buffer. -/
def Passed (lpKeyName : Str) (nSize : Int) (l : Str) : Prop :=
  Takes lpKeyName l → ∃ v, lineValue l = some v ∧ nSize ≤ v.length

/-- How a round of the inner loop ends on a line. -/
inductive LineRead (lpKeyName : Str) (nSize : Int) (l : Str) (s : ReadState) :
    Except Stop (Next × ReadState) → Prop where
  | passed {t} : Passed lpKeyName nSize l → t.pos = s.pos →
      LineRead lpKeyName nSize l s (.ok (.go true, t))
  | taken {v t} : Takes lpKeyName l → lineValue l = some v → v.length < nSize →
      t.setDefault = false → t.out = store s.out s.pos (v ++ [0]) →
      LineRead lpKeyName nSize l s (.ok (.done 1, t))
  | crashed : Takes lpKeyName l → lineValue l = none →
      LineRead lpKeyName nSize l s (.error .nullPointer)

/-- A round of the outer loop on any line. -/
theorem readRound_outer (app : Str) (key : Option Str) (nSize : Int) (l : Str) (s : ReadState) :
    readRound (some app) key nSize false { s with str := overwrite s.str l } =
      (findSection (overwrite s.str l) app).map fun r =>
        (.go (r = 0), { s with str := overwrite s.str l }) := by
  simp only [readRound, Bool.false_eq_true, if_false, outerRound]
  cases findSection (overwrite s.str l) app <;> rfl

theorem readRound_outer_ok {app l : Str} {s : ReadState} (key : Option Str) (nSize : Int) {r : Int}
    (hfind : findSection (overwrite s.str l) app = .ok r) :
    readRound (some app) key nSize false { s with str := overwrite s.str l } =
      .ok (.go (r = 0), { s with str := overwrite s.str l }) := by
  rw [readRound_outer, hfind]
  rfl

/-- A round of the inner loop on any line. -/
theorem readRound_inner (app : Option Str) (lpKeyName : Str) (nSize : Int) (l : Str)
    (s : ReadState) :
    readRound app (some lpKeyName) nSize true { s with str := overwrite s.str l } =
      (findOption (cstr l) lpKeyName nSize).map fun r => (if r.code = 0 then .done 1 else .go true,
        { s with
          str := overwrite s.str l
          setDefault := r.setDefault
          out := store s.out s.pos r.stored }) := by
  have hcstr : cstr (overwrite s.str l) = cstr l := cstr_append_zero l _
  simp only [readRound, if_true, innerRound, hcstr]
  cases findOption (cstr l) lpKeyName nSize <;> rfl

theorem readRound_line (app : Option Str) {lpKeyName l : Str} (nSize : Int) (hl : TextLine l)
    (key_zero : 0 ∉ lpKeyName) (key_length : lpKeyName.length < 1024) (s : ReadState) :
    LineRead lpKeyName nSize l s
      (readRound app (some lpKeyName) nSize true { s with str := overwrite s.str l }) := by
  have hlength : l.length < 1024 := by have := hl.length; omega
  have hround := readRound_inner app lpKeyName nSize l s
  rw [cstr_self hl.zero] at hround
  rw [hround]
  obtain ⟨htakes, code, hcode, hoption⟩ | ⟨htakes, hoption⟩ :=
    findOption_eq hlength hl.zero key_length key_zero nSize
  · have hrefused : (OptionResult.refuse code).code ≠ 0 := hcode
    rw [hoption, Except.map, if_neg hrefused]
    exact .passed (fun h => absurd h htakes) rfl
  · cases hvalue : lineValue l with
    | none =>
      rw [hoption, hvalue]
      exact .crashed htakes hvalue
    | some v =>
      simp only [hvalue] at hoption
      by_cases hfits : nSize ≥ v.length + 1
      · rw [hoption, if_pos hfits]
        exact .taken htakes hvalue (by omega) rfl rfl
      · rw [hoption, if_neg hfits]
        exact .passed (fun _ => ⟨v, hvalue, by omega⟩) rfl

end Gipcy.Linux.Ini
