import Gipcy.Lib.StringList
import Gipcy.Linux.Ini.Rounds
import Gipcy.Linux.Ini.SectionList
import Gipcy.Ports.IniReaders

/-! What a call of an INI reader does, told by the lines of the file. -/
namespace Gipcy.Ports.Ini

open CString Lines
open Linux.Ini (ReadState Next isSection isOptionName getlinesOf header eq_header_iff set_equals
  zero_not_mem_take readRound_header readRound_full readRound_no_header readRound_closes
  readRound_no_option readRound_option readRound_option_full)
open Qnx.Ini (copyDefault)

/-- How a call for one value ends. -/
inductive Answer where
  /-- No section was opened. -/
  | closed
  | lacking
  | value (v : Str)
deriving DecidableEq

/-- `Answers R section key nSize inner str lines answer`: as the lines are read to
`str` one by one, `FindSection` accepts one, and the first of the lines after it
that gives a value for the key gives this one. -/
inductive Answers (R : Reader) (lpAppName lpKeyName : Str) (nSize : Int) :
    Bool → List UInt8 → List Str → Answer → Prop where
  | closed {str} : Answers R lpAppName lpKeyName nSize false str [] .closed
  | lacking {str} : Answers R lpAppName lpKeyName nSize true str [] .lacking
  | shut {str l r lines answer} : R.findSection (overwrite str l) lpAppName = .ok r → r ≠ 0 →
      Answers R lpAppName lpKeyName nSize false (overwrite str l) lines answer →
      Answers R lpAppName lpKeyName nSize false str (l :: lines) answer
  | opened {str l lines answer} : R.findSection (overwrite str l) lpAppName = .ok 0 →
      Answers R lpAppName lpKeyName nSize true (overwrite str l) lines answer →
      Answers R lpAppName lpKeyName nSize false str (l :: lines) answer
  | passed {str l lines answer} :
      Gives (R.view lpKeyName (cstr l)) lpKeyName nSize (cstr l) none →
      Answers R lpAppName lpKeyName nSize true (overwrite str l) lines answer →
      Answers R lpAppName lpKeyName nSize true str (l :: lines) answer
  | taken {str l v lines} :
      Gives (R.view lpKeyName (cstr l)) lpKeyName nSize (cstr l) (some v) →
      Answers R lpAppName lpKeyName nSize true str (l :: lines) (.value v)

/-- The names of the options of the sections that `FindSection` accepts, while there
is room for them. -/
inductive Lists (R : Reader) (lpAppName : Str) (nSize : Int) :
    Bool → Int → List UInt8 → List Str → List Str → Prop where
  | ended {inner size str} : Lists R lpAppName nSize inner size str [] []
  | shut {size str l r lines names} : R.findSection (overwrite str l) lpAppName = .ok r → r ≠ 0 →
      Lists R lpAppName nSize false size (overwrite str l) lines names →
      Lists R lpAppName nSize false size str (l :: lines) names
  | opened {size str l lines names} : R.findSection (overwrite str l) lpAppName = .ok 0 →
      Lists R lpAppName nSize true size (overwrite str l) lines names →
      Lists R lpAppName nSize false size str (l :: lines) names
  | header {size str l lines names} : isSection (cstr l) = true →
      Lists R lpAppName nSize false size (overwrite str l) lines names →
      Lists R lpAppName nSize true size str (l :: lines) names
  | other {size str l lines names} : isSection (cstr l) = false → isOptionName (cstr l) = none →
      Lists R lpAppName nSize true size (overwrite str l) lines names →
      Lists R lpAppName nSize true size str (l :: lines) names
  | listed {size : Int} {str l i lines names} : isSection (cstr l) = false →
      isOptionName (cstr l) = some i → size + (i + 1 : Nat) ≤ nSize - 1 →
      Lists R lpAppName nSize true (size + (i + 1 : Nat)) ((overwrite str l).set i 0) lines names →
      Lists R lpAppName nSize true size str (l :: lines) ((cstr l).take i :: names)
  | full {size : Int} {str l i lines names} : isSection (cstr l) = false →
      isOptionName (cstr l) = some i → nSize - 1 < size + (i + 1 : Nat) →
      Lists R lpAppName nSize false (size + (i + 1 : Nat)) ((overwrite str l).set i 0) lines names →
      Lists R lpAppName nSize true size str (l :: lines) names

namespace Reader

variable {R : Reader} {app key lpDefault : Option Str} {nSize : Int} {inner stays : Bool}
  {s t : ReadState} {l : Str}

theorem readLoop_go (lines : List Str) (h : R.readRound app key nSize inner
      { s with str := overwrite s.str l } = .ok (.go stays, t)) :
    R.readLoop app key lpDefault nSize inner (getlinesOf (l :: lines)) s =
      R.readLoop app key lpDefault nSize stays (getlinesOf lines)
        (if inner ∧ ¬ stays then R.leave lpDefault t else t) := by
  rw [getlinesOf, List.map_cons, readLoop, h]
  rfl

/-- A round that leaves the inner loop. -/
theorem readLoop_leave (lines : List Str) (h : R.readRound app key nSize true
      { s with str := overwrite s.str l } = .ok (.go false, t)) :
    R.readLoop app key lpDefault nSize true (getlinesOf (l :: lines)) s =
      R.readLoop app key lpDefault nSize false (getlinesOf lines) (R.leave lpDefault t) :=
  readLoop_go lines h

theorem readLoop_done (lines : List Str) {found : Int} (h : R.readRound app key nSize inner
      { s with str := overwrite s.str l } = .ok (.done found, t)) :
    R.readLoop app key lpDefault nSize inner (getlinesOf (l :: lines)) s =
      .ok (found, if inner then R.leave lpDefault t else t) := by
  rw [getlinesOf, List.map_cons, readLoop, h]
  rfl

theorem outerRound_eq {lpAppName : Str} {r : Int} (h : R.findSection s.str lpAppName = .ok r) :
    R.readRound (some lpAppName) key nSize false s = .ok (.go (r = 0), s) := by
  show (R.findSection s.str lpAppName >>= _) = _
  rw [h]
  rfl

theorem innerRound_passed {lpKeyName : Str} {code : Int} (unset : s.setDefault = true)
    (h : R.findOption (cstr s.str) lpKeyName nSize = .ok (.refuse code)) (hcode : code ≠ 0) :
    R.readRound app (some lpKeyName) nSize true s = .ok (.go true, s) := by
  have hsame : { s with setDefault := true, out := store s.out s.pos [] } = s := by
    rw [store_nil, ← unset]
  show (R.findOption (cstr s.str) lpKeyName nSize >>= _) = _
  rw [h]
  show Except.ok (if code = 0 then Next.done 1 else .go true, _) = _
  rw [if_neg hcode]
  exact congrArg (fun t => Except.ok (Next.go true, t)) hsame

theorem innerRound_taken {lpKeyName v : Str}
    (h : R.findOption (cstr s.str) lpKeyName nSize = .ok ⟨0, false, v ++ [0]⟩) :
    R.readRound app (some lpKeyName) nSize true s =
      .ok (.done 1, { s with setDefault := false, out := store s.out s.pos (v ++ [0]) }) := by
  show (R.findOption (cstr s.str) lpKeyName nSize >>= _) = _
  rw [h]
  rfl

end Reader

section Values

variable {R : Reader} {lpAppName lpKeyName : Str} {lpDefault : Option Str} {nSize : Int}
  {inner : Bool} {str : List UInt8} {lines : List Str} {answer : Answer}

theorem Gives.unique {view : View} {src : Str} {given given' : Option Str}
    (h : Gives view lpKeyName nSize src given) (h' : Gives view lpKeyName nSize src given') :
    given = given' := by
  have hvalue : ∀ {v v' : Str}, view.value = some v → view.value = some v' → v = v' :=
    fun hv hv' => Option.some.inj (hv.symm.trans hv')
  cases h with
  | skipped h =>
    cases h' with
    | taken looked _ _ _ _ => exact absurd looked h
    | _ => rfl
  | other _ _ h =>
    cases h' with
    | taken _ _ found _ _ => exact absurd found h
    | _ => rfl
  | long _ _ _ hv hlong =>
    cases h' with
    | taken _ _ _ hv' hfits =>
      obtain rfl := hvalue hv hv'
      omega
    | _ => rfl
  | taken looked _ found hv hfits =>
    cases h' with
    | skipped h => exact absurd looked h
    | other _ _ h => exact absurd found h
    | long _ _ _ hv' hlong =>
      obtain rfl := hvalue hv hv'
      omega
    | taken _ _ _ hv' _ => rw [hvalue hv hv']

theorem option_passed {src : Str} (src_zero : 0 ∉ src) (key_zero : 0 ∉ lpKeyName)
    (h : Gives (R.view lpKeyName src) lpKeyName nSize src none) :
    ∃ code, code ≠ 0 ∧ R.findOption src lpKeyName nSize = .ok (.refuse code) := by
  have hread := R.option_read src_zero key_zero nSize
  generalize R.findOption src lpKeyName nSize = r at hread
  cases hread with
  | @refused code _ hcode => exact ⟨code, hcode, rfl⟩
  | found h' => cases h.unique h'
  | crashed h' => exact absurd h (h' _)

theorem option_taken {src v : Str} (src_zero : 0 ∉ src) (key_zero : 0 ∉ lpKeyName)
    (h : Gives (R.view lpKeyName src) lpKeyName nSize src (some v)) :
    R.findOption src lpKeyName nSize = .ok ⟨0, false, v ++ [0]⟩ := by
  have hread := R.option_read src_zero key_zero nSize
  generalize R.findOption src lpKeyName nSize = r at hread
  cases hread with
  | refused h' _ => cases h.unique h'
  | found h' =>
    cases h.unique h'
    rfl
  | crashed h' => exact absurd h (h' _)

/-- What the call returns. -/
def Answer.found : Answer → Int
  | .value _ => 1
  | _ => 0

def withDefault (lpDefault : Option Str) (out : Nat → UInt8) : Nat → UInt8 :=
  match lpDefault with
  | some text => store out 0 (text ++ [0])
  | none => out

/-- What the call leaves in the buffer. -/
def Answer.left (early : Bool) (lpDefault : Option Str) (out : Nat → UInt8) :
    Answer → Nat → UInt8
  | .value v => store out 0 (v ++ [0])
  | .lacking => withDefault lpDefault out
  | .closed => if early then out else withDefault lpDefault out

theorem copyDefault_out (lpDefault : Option Str) (str : List UInt8) (size : Int)
    (out : Nat → UInt8) :
    (copyDefault lpDefault ⟨str, true, size, out, 0⟩).out = withDefault lpDefault out := by
  cases lpDefault <;> rfl

/-- The loops, on lines that answer the call. -/
theorem Answers.loop (h : Answers R lpAppName lpKeyName nSize inner str lines answer)
    (key_zero : 0 ∉ lpKeyName) (lpDefault : Option Str) (size : Int) (out : Nat → UInt8) :
    ∃ t, R.readLoop (some lpAppName) (some lpKeyName) lpDefault nSize inner (getlinesOf lines)
        ⟨str, true, size, out, 0⟩ = .ok (answer.found, t) ∧
      (R.finish lpDefault t).out = answer.left R.early lpDefault out := by
  induction h with
  | @closed str =>
    refine ⟨⟨str, true, size, out, 0⟩, rfl, ?_⟩
    unfold Reader.finish Answer.left
    cases R.early with
    | true => rfl
    | false => exact copyDefault_out lpDefault str size out
  | @lacking str =>
    refine ⟨R.leave lpDefault ⟨str, true, size, out, 0⟩, rfl, ?_⟩
    unfold Reader.finish Reader.leave Answer.left
    cases R.early <;> exact copyDefault_out lpDefault str size out
  | shut hfind hr _ ih =>
    rw [Reader.readLoop_go _ (Reader.outerRound_eq hfind), decide_eq_false hr]
    exact ih
  | opened hfind _ ih =>
    rw [Reader.readLoop_go _ (Reader.outerRound_eq hfind)]
    exact ih
  | @passed str l lines answer hgives _ ih =>
    obtain ⟨code, hcode, hoption⟩ := option_passed (zero_not_mem_cstr l) key_zero hgives
    rw [← cstr_append_zero l] at hoption
    rw [Reader.readLoop_go _ (Reader.innerRound_passed rfl hoption hcode)]
    exact ih
  | @taken str l v lines hgives =>
    have hoption := option_taken (zero_not_mem_cstr l) key_zero hgives
    rw [← cstr_append_zero l] at hoption
    rw [Reader.readLoop_done _ (Reader.innerRound_taken hoption)]
    have hdefault : ∀ t : ReadState, t.setDefault = false → copyDefault lpDefault t = t := by
      intro t ht
      unfold copyDefault
      rw [ht]
    refine ⟨_, rfl, ?_⟩
    simp only [Reader.finish, Reader.leave, hdefault, ite_self]
    rfl

end Values

section Names

variable {R : Reader} {lpAppName : Str} {lpDefault app : Option Str} {nSize : Int}
  {inner : Bool} {str : List UInt8} {lines names list : List Str} {s : ReadState} {i : Nat}

/-- The strings are what has been listed so far. -/
structure Packs (s : ReadState) (list : List Str) : Prop where
  pos : s.pos = (packed list).length
  filled : Filled s.out list

theorem Packs.read (h : Packs s list) (str : List UInt8) (size : Int) :
    Packs { s with str := str, sectionsSize := size } list := ⟨h.pos, h.filled⟩

theorem Packs.concat (h : Packs s list) (name : Str) (str : List UInt8) (size : Int) :
    Packs { s with
      str := str
      sectionsSize := size
      out := store s.out s.pos (name ++ [0])
      pos := s.pos + (name.length + 1) } (list ++ [name]) := by
  refine ⟨?_, ?_⟩
  · simp [h.pos]
  · have hfilled := h.filled.concat name
    rwa [← h.pos] at hfilled

/-- The default comes after what is listed. -/
theorem Packs.copyDefault (h : Packs s list) (lpDefault : Option Str) :
    Packs (copyDefault lpDefault s) list := by
  unfold Qnx.Ini.copyDefault
  split
  · exact ⟨h.pos, h.pos ▸ h.filled.store _⟩
  · exact h

theorem Packs.leave (h : Packs s list) (R : Reader) (lpDefault : Option Str) :
    Packs (R.leave lpDefault s) list := by
  unfold Reader.leave
  split
  · exact h.copyDefault lpDefault
  · exact h

theorem Packs.finish (h : Packs s list) (R : Reader) (lpDefault : Option Str) :
    Packs (R.finish lpDefault s) list := by
  unfold Reader.finish
  split
  · exact h
  · exact h.copyDefault lpDefault

@[simp] theorem leave_str (R : Reader) (lpDefault : Option Str) (s : ReadState) :
    (R.leave lpDefault s).str = s.str := by
  unfold Reader.leave copyDefault
  split
  · split <;> rfl
  · rfl

@[simp] theorem leave_sectionsSize (R : Reader) (lpDefault : Option Str) (s : ReadState) :
    (R.leave lpDefault s).sectionsSize = s.sectionsSize := by
  unfold Reader.leave copyDefault
  split
  · split <;> rfl
  · rfl

theorem innerRound_header (h : isSection (cstr s.str) = true) :
    R.readRound app none nSize true s = .ok (.go false, s) := readRound_closes app h

theorem innerRound_other (hsection : isSection (cstr s.str) = false)
    (hname : isOptionName (cstr s.str) = none) :
    R.readRound app none nSize true s = .ok (.go true, s) := readRound_no_option app hsection hname

/-- The state after the name of an option was listed. -/
def named (s : ReadState) (i : Nat) : ReadState where
  str := s.str.set i 0
  setDefault := s.setDefault
  sectionsSize := s.sectionsSize + (i + 1 : Nat)
  out := store s.out s.pos ((cstr s.str).take i ++ [0])
  pos := s.pos + (i + 1)

/-- A line with a `=` is listed, in a call for a list. -/
theorem innerRound_listed (hsection : isSection (cstr s.str) = false)
    (hname : isOptionName (cstr s.str) = some i)
    (hfits : s.sectionsSize + (i + 1 : Nat) ≤ nSize - 1) :
    R.readRound app none nSize true s = .ok (.go true, named s i) :=
  readRound_option app hsection hname hfits

theorem innerRound_full (hsection : isSection (cstr s.str) = false)
    (hname : isOptionName (cstr s.str) = some i)
    (hfull : nSize - 1 < s.sectionsSize + (i + 1 : Nat)) :
    R.readRound app none nSize true s = .ok (.go false, { s with
      str := s.str.set i 0
      sectionsSize := s.sectionsSize + (i + 1 : Nat) }) :=
  readRound_option_full app hsection hname hfull

theorem Packs.named (h : Packs s list) (hname : isOptionName (cstr s.str) = some i) :
    Packs (named s i) (list ++ [(cstr s.str).take i]) := by
  obtain ⟨hlength, -, -⟩ := set_equals hname
  have hconcat := h.concat ((cstr s.str).take i) (s.str.set i 0) (s.sectionsSize + (i + 1 : Nat))
  rwa [hlength] at hconcat

/-- The NUL that is stored at the end makes a list. -/
theorem Packs.holdsList (h : Packs s list) (zero : ∀ name ∈ list, 0 ∉ name) :
    HoldsList (store s.out s.pos [0]) (untilEmpty list) := by
  rw [h.pos]
  exact h.filled.holdsList zero

/-- The loops, on lines that list the names. -/
theorem Lists.loop {size : Int} (h : Lists R lpAppName nSize inner size str lines names)
    (lpDefault : Option Str) (hlist : Packs s list) (hstr : s.str = str)
    (hsize : s.sectionsSize = size) :
    ∃ t, R.readLoop (some lpAppName) none lpDefault nSize inner (getlinesOf lines) s = .ok (0, t) ∧
      Packs t (list ++ names) := by
  induction h generalizing s list with
  | ended =>
    refine ⟨_, rfl, ?_⟩
    rw [List.append_nil]
    split
    · exact hlist.leave R lpDefault
    · exact hlist
  | shut hfind hr _ ih =>
    subst hstr
    rw [Reader.readLoop_go _ (Reader.outerRound_eq hfind), decide_eq_false hr]
    exact ih (hlist.read _ _) rfl hsize
  | opened hfind _ ih =>
    subst hstr
    rw [Reader.readLoop_go _ (Reader.outerRound_eq hfind)]
    exact ih (hlist.read _ _) rfl hsize
  | @header size str l lines names hsection _ ih =>
    subst hstr
    rw [← cstr_append_zero l] at hsection
    rw [Reader.readLoop_leave _ (innerRound_header hsection)]
    exact ih (Packs.leave (hlist.read _ _) R lpDefault) (leave_str ..)
      ((leave_sectionsSize ..).trans hsize)
  | @other size str l lines names hsection hname _ ih =>
    subst hstr
    rw [← cstr_append_zero l] at hsection hname
    rw [Reader.readLoop_go _ (innerRound_other hsection hname)]
    exact ih (hlist.read _ _) rfl hsize
  | @listed size str l i lines names hsection hname hfits _ ih =>
    subst hstr hsize
    have hline : cstr (overwrite s.str l) = cstr l := cstr_append_zero l _
    rw [← hline] at hsection hname ⊢
    rw [Reader.readLoop_go _ (innerRound_listed hsection hname hfits), List.append_cons]
    exact ih (Packs.named (hlist.read _ _) hname) rfl rfl
  | @full size str l i lines names hsection hname hfull _ ih =>
    subst hstr hsize
    rw [← cstr_append_zero l] at hsection hname
    rw [Reader.readLoop_leave _ (innerRound_full hsection hname hfull)]
    exact ih (Packs.leave (hlist.read _ _) R lpDefault) (leave_str ..) (leave_sectionsSize ..)

theorem Lists.zero {size : Int} (h : Lists R lpAppName nSize inner size str lines names) :
    ∀ name ∈ names, 0 ∉ name := by
  induction h with
  | ended => exact fun _ hmem => absurd hmem List.not_mem_nil
  | shut _ _ _ ih => exact ih
  | opened _ _ ih => exact ih
  | header _ _ ih => exact ih
  | other _ _ _ ih => exact ih
  | listed _ _ _ _ ih => exact List.forall_mem_cons.mpr ⟨zero_not_mem_take _ _, ih⟩
  | full _ _ _ _ ih => exact ih

/-- The names of the sections, while there is room, are the same for every reader. -/
theorem sections_loop (lpDefault key : Option Str) (nSize : Int) (lines list : List Str)
    (size : Int) (zero : ∀ name ∈ list, 0 ∉ name) :
    ∃ names, (∀ name ∈ names, 0 ∉ name) ∧ ∀ (R : Reader) (s : ReadState), s.sectionsSize = size →
      Packs s list → ∃ t, R.readLoop none key lpDefault nSize false (getlinesOf lines) s =
        .ok (0, t) ∧ Packs t names := by
  induction lines generalizing list size with
  | nil => exact ⟨list, zero, fun R s _ hlist => ⟨s, rfl, hlist⟩⟩
  | cons l lines ih =>
    have hline : ∀ str, cstr (overwrite str l) = cstr l := fun _ => cstr_append_zero l _
    cases hsection : isSection (cstr l) with
    | false =>
      obtain ⟨names, hnames, hloop⟩ := ih list size zero
      refine ⟨names, hnames, fun R s hsize hlist => ?_⟩
      have hround : R.readRound none key nSize false { s with str := overwrite s.str l } =
          .ok (.go false, { s with str := overwrite s.str l }) :=
        readRound_no_header key ((congrArg isSection (hline s.str)).trans hsection)
      rw [Reader.readLoop_go _ hround]
      exact hloop R _ hsize (hlist.read _ _)
    | true =>
      obtain ⟨name, hname⟩ : ∃ name, cstr l = header name :=
        ⟨_, eq_header_iff.mpr ⟨hsection, rfl⟩⟩
      have hzero : 0 ∉ name := by
        intro hmem
        refine zero_not_mem_cstr l ?_
        rw [hname]
        exact List.mem_append_left _ (List.mem_cons_of_mem _ hmem)
      rcases Int.lt_or_le (nSize - 1) (size + (name.length + 1 : Nat)) with hfull | hfits
      · refine ⟨list, zero, fun R s hsize hlist => ?_⟩
        subst hsize
        have hround : R.readRound none key nSize false { s with str := overwrite s.str l } = _ :=
          readRound_full key ((hline s.str).trans hname) hfull
        exact ⟨_, Reader.readLoop_done _ hround, hlist.read _ _⟩
      · obtain ⟨names, hnames, hloop⟩ := ih (list ++ [name]) (size + (name.length + 1 : Nat))
          (List.forall_mem_append.mpr ⟨zero, List.forall_mem_singleton.mpr hzero⟩)
        refine ⟨names, hnames, fun R s hsize hlist => ?_⟩
        subst hsize
        have hround : R.readRound none key nSize false { s with str := overwrite s.str l } = _ :=
          readRound_header key ((hline s.str).trans hname) hfits
        rw [Reader.readLoop_go _ hround]
        exact hloop R _ rfl (hlist.concat name _ _)

end Names

end Gipcy.Ports.Ini
