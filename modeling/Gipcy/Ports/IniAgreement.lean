import Gipcy.Ports.IniRuns

/-! When the INI readers of the Linux and the QNX library agree. -/
namespace Gipcy.Ports.Ini

open CString Lines
open Linux.Ini (Compares PATH_MAX getlinesOf isSection isOptionName held Below Taken Accepted
  Closed HelpersReturn Refuses closed_iff opens_iff take_ahead take_opener below_iff held_append
  getElem?_inside not_answers_of_refuses findSection)

/-- What the caller finds in its buffer is the same: a list, if the call was for one. -/
def SameText (lpAppName lpKeyName : Option Str) (out out' : Nat → UInt8) : Prop :=
  if lpAppName = none ∨ lpKeyName = none then SameList out out' else SameString out out'

/-- The two libraries return the same value and leave the same text. What their
arrays hold at first need not be the same. -/
def Agree (lpAppName lpKeyName lpDefault : Option Str) (out : Nat → UInt8) (nSize : Int)
    (file : Option (List UInt8)) (str str' : List UInt8) : Prop :=
  ∃ found left left',
    Linux.Ini.getPrivateProfileString lpAppName lpKeyName lpDefault out nSize file str =
      .ok (found, left) ∧
    Qnx.Ini.getPrivateProfileString lpAppName lpKeyName lpDefault out nSize file str' =
      .ok (found, left') ∧
    SameText lpAppName lpKeyName left left'

/-- The two `FindSection` return, and both accept the line or both refuse it. -/
def SameSection (lpAppName : Str) (src src' : List UInt8) : Prop :=
  ∃ r r', linux.findSection src lpAppName = .ok r ∧ qnx.findSection src' lpAppName = .ok r' ∧
    (r = 0 ↔ r' = 0)

/-- The line gives the two `FindOption` the same: a value, or none. -/
def SameOption (lpKeyName : Str) (nSize : Int) (src : Str) : Prop :=
  ∃ given, Gives (linux.view lpKeyName src) lpKeyName nSize src given ∧
    Gives (qnx.view lpKeyName src) lpKeyName nSize src given

/-- The lines that a call for one value looks at, up to the first that is taken, are the same
to the helpers of both libraries. -/
structure ValueAlike (lpAppName lpKeyName : Str) (nSize : Int) (str str' : List UInt8)
    (lines : List Str) : Prop where
  sections : ∀ n, n < lines.length → ¬ Below lpAppName str lines n →
    SameSection lpAppName (held str (lines.take (n + 1))) (held str' (lines.take (n + 1)))
  options : ∀ n l, lines[n]? = some l → Below lpAppName str lines n →
    (∀ m, m < n → Below lpAppName str lines m → ¬ Taken lpKeyName nSize lines m) →
    SameOption lpKeyName nSize (cstr l)

/-- So are to `FindSection` the lines that a call for the list of the keys looks at for a
header. `size` is what has been listed. -/
def KeysAlike (lpAppName : Str) (nSize : Int) :
    Bool → Int → List UInt8 → List UInt8 → List Str → Prop
  | _, _, _, _, [] => True
  | false, size, str, str', l :: lines =>
    ∃ r r', linux.findSection (overwrite str l) lpAppName = .ok r ∧
      qnx.findSection (overwrite str' l) lpAppName = .ok r' ∧ (r = 0 ↔ r' = 0) ∧
      KeysAlike lpAppName nSize (r = 0) size (overwrite str l) (overwrite str' l) lines
  | true, size, str, str', l :: lines =>
    if isSection (cstr l) then
      KeysAlike lpAppName nSize false size (overwrite str l) (overwrite str' l) lines
    else
      match isOptionName (cstr l) with
      | none => KeysAlike lpAppName nSize true size (overwrite str l) (overwrite str' l) lines
      | some i =>
        KeysAlike lpAppName nSize (size + (i + 1 : Nat) ≤ nSize - 1) (size + (i + 1 : Nat))
          ((overwrite str l).set i 0) ((overwrite str' l).set i 0) lines

section Calls

variable {R : Reader} {app key : Str} {lpDefault : Option Str} {nSize : Int} {out : Nat → UInt8}
  {str : List UInt8} {text : List UInt8} {answer : Answer} {names : List Str}

theorem get_eq (lpAppName lpKeyName : Option Str)
    (fits : ∀ l ∈ text.splitOn nl, l.length < PATH_MAX) :
    R.getPrivateProfileString lpAppName lpKeyName lpDefault out nSize (some text) str =
      (R.readLoop lpAppName lpKeyName lpDefault nSize false (getlinesOf (text.splitOn nl))
        ⟨str, true, 0, out, 0⟩).map fun r => (r.1, if lpAppName = none ∨ lpKeyName = none then
          store (R.finish lpDefault r.2).out (R.finish lpDefault r.2).pos [0]
          else (R.finish lpDefault r.2).out) := by
  show (R.readLoop _ _ _ _ _ (getlineAll PATH_MAX text) _ >>= _) = _
  rw [getlineAll_splitOn fits]
  show (R.readLoop _ _ _ _ _ (getlinesOf _) _ >>= _) = _
  cases R.readLoop _ _ _ _ _ (getlinesOf _) _ <;> rfl

theorem get_value (fits : ∀ l ∈ text.splitOn nl, l.length < PATH_MAX) (key_zero : 0 ∉ key)
    (h : Answers R app key nSize false str (text.splitOn nl) answer) :
    R.getPrivateProfileString (some app) (some key) lpDefault out nSize (some text) str =
      .ok (answer.found, answer.left R.early lpDefault out) := by
  obtain ⟨t, hloop, hout⟩ := h.loop key_zero lpDefault 0 out
  rw [get_eq _ _ fits, hloop, ← hout]
  rfl

theorem packs_start (str : List UInt8) (out : Nat → UInt8) :
    Packs ⟨str, true, 0, out, 0⟩ [] := ⟨rfl, filled_nil _⟩

/-- The call for the list of the sections. -/
theorem get_sections (fits : ∀ l ∈ text.splitOn nl, l.length < PATH_MAX)
    (lpKeyName lpDefault : Option Str) (out : Nat → UInt8) (nSize : Int) :
    ∃ names, ∀ (R : Reader) (str : List UInt8), ∃ left,
      R.getPrivateProfileString none lpKeyName lpDefault out nSize (some text) str =
        .ok (0, left) ∧ HoldsList left names := by
  obtain ⟨names, hnames, hloop⟩ := sections_loop lpDefault lpKeyName nSize (text.splitOn nl) [] 0
    fun _ hmem => absurd hmem List.not_mem_nil
  refine ⟨untilEmpty names, fun R str => ?_⟩
  obtain ⟨t, hloop, ht⟩ := hloop R _ rfl (packs_start str out)
  refine ⟨store (R.finish lpDefault t).out (R.finish lpDefault t).pos [0], ?_,
    (ht.finish R lpDefault).holdsList hnames⟩
  rw [get_eq _ _ fits, hloop]
  rfl

end Calls

section Agreement

variable {lpAppName lpKeyName lpDefault : Option Str} {out : Nat → UInt8} {nSize : Int}
  {str str' text : List UInt8} {app key : Str}

theorem agree_iff {file : Option (List UInt8)} :
    Agree lpAppName lpKeyName lpDefault out nSize file str str' ↔ ∃ found left left',
      linux.getPrivateProfileString lpAppName lpKeyName lpDefault out nSize file str =
        .ok (found, left) ∧
      qnx.getPrivateProfileString lpAppName lpKeyName lpDefault out nSize file str' =
        .ok (found, left') ∧
      SameText lpAppName lpKeyName left left' := by
  rw [linux_get, qnx_get]
  rfl

/-- The two answers are told apart by nothing that the caller sees. -/
def Answer.Alike (lpDefault : Option Str) (out : Nat → UInt8) (answer answer' : Answer) : Prop :=
  answer.found = answer'.found ∧
    SameString (answer.left linux.early lpDefault out) (answer'.left qnx.early lpDefault out)

theorem sameString_refl (mem : Nat → UInt8) : SameString mem mem := fun _ _ => Iff.rfl

/-- Only the Linux library copies the default where no section was opened. -/
theorem sameString_default_iff (default_zero : ∀ text ∈ lpDefault, 0 ∉ text) :
    SameString (withDefault lpDefault out) out ↔ ∀ text ∈ lpDefault, Holds out text := by
  cases lpDefault with
  | none => exact iff_of_true (sameString_refl out) nofun
  | some text =>
    have zero := default_zero text rfl
    have hstored := holds_store out text
    simp only [Option.mem_some_iff, forall_eq']
    constructor
    · exact fun h => (h text zero).mp hstored
    · exact fun h => (hstored.same h zero zero).mpr rfl

/-- Two calls that have their answers agree if the answers are alike. -/
theorem agree_answers_iff (fits : ∀ l ∈ text.splitOn nl, l.length < PATH_MAX) (key_zero : 0 ∉ key)
    {answer answer' : Answer} (h : Answers linux app key nSize false str (text.splitOn nl) answer)
    (h' : Answers qnx app key nSize false str' (text.splitOn nl) answer') :
    Agree (some app) (some key) lpDefault out nSize (some text) str str' ↔
      answer.Alike lpDefault out answer' := by
  have hsame : ∀ {left left'}, SameText (some app) (some key) left left' ↔
      SameString left left' := by
    intro left left'
    unfold SameText
    rw [if_neg (by simp)]
  rw [agree_iff]
  constructor
  · rintro ⟨found, left, left', hleft, hleft', hstring⟩
    cases (get_value fits key_zero h).symm.trans hleft
    obtain ⟨hfound, hout⟩ := Prod.mk.inj
      (Except.ok.inj ((get_value fits key_zero h').symm.trans hleft'))
    rw [← hout, hsame] at hstring
    exact ⟨hfound.symm, hstring⟩
  · rintro ⟨hfound, hstring⟩
    refine ⟨_, _, _, get_value fits key_zero h, ?_, hsame.mpr hstring⟩
    rw [hfound]
    exact get_value fits key_zero h'

end Agreement

section Helpers

variable {R : Reader} {app key : Str} {nSize : Int} {str str' : List UInt8} {answer : Answer}
  {lines ahead inside passed rest : List Str} {opener m : Str}

/-- Where the helpers are alike the two calls list the same names. -/
theorem KeysAlike.lists {inner : Bool} {size : Int}
    (h : KeysAlike app nSize inner size str str' lines) :
    ∃ names, Lists linux app nSize inner size str lines names ∧
      Lists qnx app nSize inner size str' lines names := by
  induction lines generalizing inner size str str' with
  | nil => exact ⟨[], .ended, .ended⟩
  | cons l lines ih =>
    cases inner with
    | false =>
      obtain ⟨r, r', hr, hr', hsame, halike⟩ := h
      obtain ⟨names, hlinux, hqnx⟩ := ih halike
      by_cases hzero : r = 0
      · obtain rfl := hzero
        obtain rfl := hsame.mp rfl
        exact ⟨names, .opened hr hlinux, .opened hr' hqnx⟩
      · rw [decide_eq_false hzero] at hlinux hqnx
        exact ⟨names, .shut hr hzero hlinux, .shut hr' (hsame.not.mp hzero) hqnx⟩
    | true =>
      rw [KeysAlike] at h
      cases hsection : isSection (cstr l) with
      | true =>
        rw [hsection, if_pos rfl] at h
        obtain ⟨names, hlinux, hqnx⟩ := ih h
        exact ⟨names, .header hsection hlinux, .header hsection hqnx⟩
      | false =>
        rw [hsection, if_neg Bool.false_ne_true] at h
        cases hname : isOptionName (cstr l) with
        | none =>
          rw [hname] at h
          obtain ⟨names, hlinux, hqnx⟩ := ih h
          exact ⟨names, .other hsection hname hlinux, .other hsection hname hqnx⟩
        | some i =>
          simp only [hname] at h
          obtain ⟨names, hlinux, hqnx⟩ := ih h
          by_cases hfits : size + (i + 1 : Nat) ≤ nSize - 1
          · rw [decide_eq_true hfits] at hlinux hqnx
            exact ⟨_, .listed hsection hname hfits hlinux, .listed hsection hname hfits hqnx⟩
          · rw [decide_eq_false hfits] at hlinux hqnx
            have hfull := Int.not_le.mp hfits
            exact ⟨names, .full hsection hname hfull hlinux, .full hsection hname hfull hqnx⟩

/-- The lines ahead of the section are refused. -/
theorem answers_ahead
    (hahead : ∀ n, n < ahead.length → ∃ r, R.findSection (held str (ahead.take (n + 1))) app =
      .ok r ∧ r ≠ 0)
    (h : Answers R app key nSize false (held str ahead) rest answer) :
    Answers R app key nSize false str (ahead ++ rest) answer := by
  induction ahead generalizing str with
  | nil => exact h
  | cons l ahead ih =>
    obtain ⟨r, hfind, hne⟩ := hahead 0 (Nat.succ_pos _)
    exact .shut hfind hne (ih (fun n hn => hahead (n + 1) (Nat.succ_lt_succ hn)) h)

/-- The lines of the section that give nothing are passed over. -/
theorem answers_passed
    (hpassed : ∀ m ∈ passed, Gives (R.view key (cstr m)) key nSize (cstr m) none)
    (h : ∀ str, Answers R app key nSize true str rest answer) (str : List UInt8) :
    Answers R app key nSize true str (passed ++ rest) answer := by
  induction passed generalizing str with
  | nil => exact h str
  | cons m passed ih =>
    obtain ⟨hm, hpassed⟩ := List.forall_mem_cons.mp hpassed
    exact .passed hm (ih hpassed _)

/-- `FindOption` of the Linux library returns what the line gives. -/
theorem refuses_iff (key_zero : 0 ∉ key) {given : Option Str}
    (h : Gives (linux.view key (cstr m)) key nSize (cstr m) given) :
    Refuses key nSize m ↔ given = none := by
  cases given with
  | none =>
    obtain ⟨code, hcode, hoption⟩ := option_passed (zero_not_mem_cstr m) key_zero h
    exact iff_of_true ⟨_, hoption, hcode⟩ rfl
  | some v =>
    have hoption := option_taken (zero_not_mem_cstr m) key_zero h
    refine iff_of_false ?_ (by simp)
    rintro ⟨r, hr, hne⟩
    cases hoption.symm.trans hr
    exact hne rfl

theorem ValueAlike.helpersReturn (key_zero : 0 ∉ key)
    (h : ValueAlike app key nSize str str' lines) : HelpersReturn app key nSize str lines := by
  refine ⟨fun n hn hnot => ?_, fun n l hl below hnone => ?_⟩
  · obtain ⟨r, -, hr, -⟩ := h.sections n hn hnot
    exact ⟨r, hr⟩
  · obtain ⟨given, hgives, -⟩ := h.options n l hl below hnone
    cases given with
    | none =>
      obtain ⟨code, -, hoption⟩ := option_passed (zero_not_mem_cstr l) key_zero hgives
      exact ⟨_, hoption⟩
    | some v => exact ⟨_, option_taken (zero_not_mem_cstr l) key_zero hgives⟩

/-- A line that one of the two `FindSection` refuses the other refuses too. -/
theorem SameSection.refused {src src' : List UInt8} (h : SameSection app src src') {r : Int}
    (hr : linux.findSection src app = .ok r) (hne : r ≠ 0) :
    ∃ r', qnx.findSection src' app = .ok r' ∧ r' ≠ 0 := by
  obtain ⟨r₀, r', hr₀, hr', hsame⟩ := h
  cases hr.symm.trans hr₀
  exact ⟨r', hr', hsame.not.mp hne⟩

theorem SameSection.accepted {src src' : List UInt8} (h : SameSection app src src')
    (hr : linux.findSection src app = .ok 0) : qnx.findSection src' app = .ok 0 := by
  obtain ⟨r₀, r', hr₀, hr', hsame⟩ := h
  cases hr.symm.trans hr₀
  rw [hr', hsame.mp rfl]

/-- Up to the first line that is taken the lines below the accepted one are alike. -/
theorem ValueAlike.option
    (h : ValueAlike app key nSize str str' (ahead ++ opener :: (passed ++ rest)))
    (closed : Closed app str ahead)
    (hopen : linux.findSection (held str (ahead ++ [opener])) app = .ok 0)
    (hpassed : ∀ m ∈ passed, Refuses key nSize m) {j : Nat} (hj : j ≤ passed.length)
    (hm : (passed ++ rest)[j]? = some m) : SameOption key nSize (cstr m) := by
  have hbelow := fun n => @below_iff app str opener ahead (passed ++ rest) n closed hopen
  refine h.options (ahead.length + 1 + j) m ?_ ((hbelow _).mpr (by omega)) ?_
  · rw [getElem?_inside (by omega), Nat.add_sub_cancel_left]
    exact hm
  · rintro k hk below ⟨l, hl, answers⟩
    have hinside := (hbelow k).mp below
    rw [getElem?_inside hinside, List.getElem?_append_left (by omega)] at hl
    exact not_answers_of_refuses (hpassed l (List.mem_of_getElem? hl)) answers

/-- The lines that are passed over give nothing to either. -/
theorem ValueAlike.gives_none (key_zero : 0 ∉ key)
    (h : ValueAlike app key nSize str str' (ahead ++ opener :: (passed ++ rest)))
    (closed : Closed app str ahead)
    (hopen : linux.findSection (held str (ahead ++ [opener])) app = .ok 0)
    (hpassed : ∀ m ∈ passed, Refuses key nSize m) (hmem : m ∈ passed) :
    Gives (linux.view key (cstr m)) key nSize (cstr m) none ∧
      Gives (qnx.view key (cstr m)) key nSize (cstr m) none := by
  obtain ⟨j, hj, rfl⟩ := List.getElem_of_mem hmem
  have hline : (passed ++ rest)[j]? = some passed[j] := by
    rw [List.getElem?_append_left hj, List.getElem?_eq_getElem hj]
  obtain ⟨given, hlinux, hqnx⟩ := h.option closed hopen hpassed hj.le hline
  obtain rfl := (refuses_iff key_zero hlinux).mp (hpassed _ hmem)
  exact ⟨hlinux, hqnx⟩

/-- The ways to the first line that is accepted, and on from there. -/
theorem ValueAlike.opened (h : ValueAlike app key nSize str str' (ahead ++ opener :: inside))
    (closed : Closed app str ahead)
    (hopen : linux.findSection (held str (ahead ++ [opener])) app = .ok 0)
    (hlinux : ∀ str, Answers linux app key nSize true str inside answer)
    (hqnx : ∀ str, Answers qnx app key nSize true str inside answer) :
    Answers linux app key nSize false str (ahead ++ opener :: inside) answer ∧
      Answers qnx app key nSize false str' (ahead ++ opener :: inside) answer := by
  have hsections : ∀ n, n ≤ ahead.length → SameSection app
      (held str ((ahead ++ opener :: inside).take (n + 1)))
      (held str' ((ahead ++ opener :: inside).take (n + 1))) := by
    intro n hn
    refine h.sections n ?_ (closed.not_below _ hn)
    rw [List.length_append, List.length_cons]
    omega
  have hopener := hsections ahead.length le_rfl
  rw [take_opener] at hopener
  have hqnxOpen := hopener.accepted hopen
  rw [held_append] at hopen hqnxOpen
  refine ⟨answers_ahead (closed_iff.mp closed) (.opened hopen (hlinux _)),
    answers_ahead (fun n hn => ?_) (.opened hqnxOpen (hqnx _))⟩
  obtain ⟨r, hr, hne⟩ := closed_iff.mp closed n hn
  have hsection := hsections n hn.le
  rw [take_ahead hn] at hsection
  exact hsection.refused hr hne

/-- Where the helpers are alike both calls have the same answer. -/
theorem ValueAlike.answers (key_zero : 0 ∉ key) (h : ValueAlike app key nSize str str' lines) :
    ∃ answer, Answers linux app key nSize false str lines answer ∧
      Answers qnx app key nSize false str' lines answer ∧
      (answer = .closed ↔ ∀ n, ¬ Accepted app str lines n) := by
  have hopened : ∀ {ahead inside : List Str} {opener : Str},
      findSection (held str (ahead ++ [opener])) app = .ok 0 →
      ¬ ∀ n, ¬ Accepted app str (ahead ++ opener :: inside) n := by
    intro ahead inside opener hopen hnone
    refine hnone ahead.length ⟨by simp, ?_⟩
    rw [take_opener]
    exact hopen
  obtain (closed | ⟨inside, opens, refuses⟩) | ⟨ahead, opener, passed, l, rest, rfl, found⟩ :=
    (h.helpersReturn key_zero).cases
  · have hnone := closed.none_accepted
    have hnot : ∀ n, ¬ Below app str lines n := fun n ⟨m, _, hm⟩ => hnone m hm
    have hlinux := answers_ahead (closed_iff.mp closed)
      (.closed : Answers linux app key nSize false (held str lines) [] .closed)
    have hqnx : Answers qnx app key nSize false str' (lines ++ []) .closed := by
      refine answers_ahead (fun n hn => ?_) .closed
      obtain ⟨r, hr, hne⟩ := closed_iff.mp closed n hn
      exact (h.sections n hn (hnot n)).refused hr hne
    rw [List.append_nil] at hlinux hqnx
    exact ⟨.closed, hlinux, hqnx, iff_of_true rfl hnone⟩
  · obtain ⟨ahead, opener, rfl, closed, hopen⟩ := opens_iff.mp opens
    have h' : ValueAlike app key nSize str str' (ahead ++ opener :: (inside ++ [])) := by
      rwa [List.append_nil]
    have hnone := fun m hm => h'.gives_none key_zero closed hopen refuses (m := m) hm
    obtain ⟨hlinux, hqnx⟩ := h'.opened closed hopen
      (answers_passed (fun m hm => (hnone m hm).1) fun _ => .lacking)
      (answers_passed (fun m hm => (hnone m hm).2) fun _ => .lacking)
    rw [List.append_nil] at hlinux hqnx
    exact ⟨.lacking, hlinux, hqnx, iff_of_false (by simp) (hopened hopen)⟩
  · obtain ⟨closed, hopen⟩ := found.split
    have hnone := fun m hm => h.gives_none key_zero closed hopen found.passed (m := m) hm
    have hline : (passed ++ l :: rest)[passed.length]? = some l := by
      rw [List.getElem?_append_right le_rfl, Nat.sub_self, List.getElem?_cons_zero]
    obtain ⟨given, hgives, hgives'⟩ := h.option closed hopen found.passed le_rfl hline
    have hsome : given ≠ none := fun hnone => not_answers_of_refuses
      ((refuses_iff key_zero hgives).mpr hnone) found.answers
    obtain ⟨v, rfl⟩ := Option.ne_none_iff_exists'.mp hsome
    obtain ⟨hlinux, hqnx⟩ := h.opened closed hopen
      (answers_passed (fun m hm => (hnone m hm).1) fun _ => .taken hgives)
      (answers_passed (fun m hm => (hnone m hm).2) fun _ => .taken hgives')
    exact ⟨.value v, hlinux, hqnx, iff_of_false (by simp) (hopened hopen)⟩

/-- So they agree, up to a default that only one of them copies. -/
theorem ValueAlike.agree_iff {lpDefault : Option Str} {out : Nat → UInt8} {text : List UInt8}
    (fits : ∀ l ∈ text.splitOn nl, l.length < PATH_MAX) (key_zero : 0 ∉ key)
    (default_zero : ∀ text ∈ lpDefault, 0 ∉ text)
    (h : ValueAlike app key nSize str str' (text.splitOn nl)) :
    Agree (some app) (some key) lpDefault out nSize (some text) str str' ↔
      (∃ n, Accepted app str (text.splitOn nl) n) ∨ ∀ text ∈ lpDefault, Holds out text := by
  obtain ⟨answer, hlinux, hqnx, hclosed⟩ := h.answers key_zero
  rw [agree_answers_iff fits key_zero hlinux hqnx]
  rw [← not_forall_not, ← hclosed]
  cases answer with
  | closed =>
    have hfound : Answer.Alike lpDefault out .closed .closed ↔ _ := and_iff_right rfl
    rw [hfound, or_iff_right (by simp)]
    exact sameString_default_iff default_zero
  | lacking => exact iff_of_true ⟨rfl, sameString_refl _⟩ (.inl (by simp))
  | value v => exact iff_of_true ⟨rfl, sameString_refl _⟩ (.inl (by simp))

end Helpers

section Claims

variable {lpAppName lpKeyName lpDefault : Option Str} {out : Nat → UInt8} {nSize : Int}
  {file : Option (List UInt8)} {str str' : List UInt8}

end Claims

end Gipcy.Ports.Ini
