import Mathlib.Data.Nat.Find
import Gipcy.Lib.Search
import Gipcy.Linux.Ini.Listing
import Gipcy.Linux.Ini.RoundTrip

/-! What the loops of a call for one value make of the lines of the file: which lines
`FindSection` accepts, and which of those below `FindOption` takes. -/
namespace Gipcy.Linux.Ini

open CString Lines

/-- The number of the line on which the loops end. -/
def lineRead (lpAppName lpKeyName : Option Str) (nSize : Int) (inner : Bool) :
    List Getline → ReadState → Nat
  | [], _ => 0
  | line :: lines, s =>
    match readRound lpAppName lpKeyName nSize inner
      { s with str := overwrite s.str line.stored } with
    | .ok (.go inner, s) => lineRead lpAppName lpKeyName nSize inner lines s + 1
    | _ => 0

/-- `FindOption` returns another result than 0. -/
def Refuses (lpKeyName : Str) (nSize : Int) (l : Str) : Prop :=
  ∃ r, findOption (cstr l) lpKeyName nSize = .ok r ∧ r.code ≠ 0

def Answers (lpKeyName : Str) (nSize : Int) (l : Str) : Prop :=
  ∃ r, findOption (cstr l) lpKeyName nSize = .ok r ∧ r.code = 0

/-- As the lines are read to `str` one by one, `FindSection` returns, and not 0. -/
inductive Closed (lpAppName : Str) : List UInt8 → List Str → Prop where
  | nil {str} : Closed lpAppName str []
  | cons {str l r lines} : findSection (overwrite str l) lpAppName = .ok r → r ≠ 0 →
      Closed lpAppName (overwrite str l) lines → Closed lpAppName str (l :: lines)

/-- `FindSection` accepts `opener` first, and after it `FindOption` takes `l` first. -/
structure Found (lpAppName lpKeyName : Str) (nSize : Int) (str : List UInt8)
    (ahead : List Str) (opener : Str) (passed : List Str) (l : Str) (rest : List Str) : Prop where
  opens : Opens lpAppName str (ahead ++ opener :: (passed ++ l :: rest)) (passed ++ l :: rest)
  passed : ∀ m ∈ passed, Refuses lpKeyName nSize m
  answers : Answers lpKeyName nSize l

/-- `FindSection` accepts no line, or `FindOption` takes none after it. -/
def Unanswered (lpAppName lpKeyName : Str) (nSize : Int) (str : List UInt8)
    (lines : List Str) : Prop :=
  Closed lpAppName str lines ∨
    ∃ inside, Opens lpAppName str lines inside ∧ ∀ l ∈ inside, Refuses lpKeyName nSize l

/-- What the array holds when these lines have been read to it, one by one. -/
def held (str : List UInt8) (lines : List Str) : List UInt8 := lines.foldl overwrite str

/-- `FindSection` accepts line `n`, in the array with what the lines above have left there. -/
def Accepted (lpAppName : Str) (str : List UInt8) (lines : List Str) (n : Nat) : Prop :=
  n < lines.length ∧ findSection (held str (lines.take (n + 1))) lpAppName = .ok 0

/-- `FindSection` accepts a line above line `n`. -/
def Below (lpAppName : Str) (str : List UInt8) (lines : List Str) (n : Nat) : Prop :=
  ∃ m, m < n ∧ Accepted lpAppName str lines m

/-- `FindOption` takes line `n`, and its value fits. -/
def Taken (lpKeyName : Str) (nSize : Int) (lines : List Str) (n : Nat) : Prop :=
  ∃ l, lines[n]? = some l ∧ Answers lpKeyName nSize l

/-- No helper leaves its arrays or dereferences `NULL` on the lines that it looks at:
`FindSection` on those up to the first that it accepts, and `FindOption` on those below up to
the first that it takes. -/
structure HelpersReturn (lpAppName lpKeyName : Str) (nSize : Int) (str : List UInt8)
    (lines : List Str) : Prop where
  sections : ∀ n, n < lines.length → ¬ Below lpAppName str lines n →
    ∃ r, findSection (held str (lines.take (n + 1))) lpAppName = .ok r
  options : ∀ n l, lines[n]? = some l → Below lpAppName str lines n →
    (∀ m, m < n → Below lpAppName str lines m → ¬ Taken lpKeyName nSize lines m) →
    ∃ r, findOption (cstr l) lpKeyName nSize = .ok r

section Rounds

variable {app key : Str} {nSize : Int} {inner : Bool} {s t : ReadState} {l : Str}
  {lines inside passed rest : List Str}

theorem lineRead_go {app key : Option Str} {next : Bool} (h : readRound app key nSize inner
      { s with str := overwrite s.str l } = .ok (.go next, t)) (lines : List Str) :
    lineRead app key nSize inner (getlinesOf (l :: lines)) s =
      lineRead app key nSize next (getlinesOf lines) t + 1 := by
  rw [getlinesOf, List.map_cons, lineRead, h]
  rfl

theorem lineRead_done {app key : Option Str} {found : Int} (h : readRound app key nSize inner
      { s with str := overwrite s.str l } = .ok (.done found, t)) (lines : List Str) :
    lineRead app key nSize inner (getlinesOf (l :: lines)) s = 0 := by
  rw [getlinesOf, List.map_cons, lineRead, h]

/-- What a round that finds nothing leaves alone. -/
structure Kept (s t : ReadState) : Prop where
  out : t.out = s.out
  pos : t.pos = s.pos
  setDefault : s.setDefault = true → t.setDefault = true

theorem Kept.trans {u : ReadState} (h : Kept s t) (h' : Kept t u) : Kept s u :=
  ⟨h'.out.trans h.out, h'.pos.trans h.pos, fun hs => h'.setDefault (h.setDefault hs)⟩

theorem round_refuses (app : Option Str) (s : ReadState) (refuses : Refuses key nSize l) :
    ∃ t, readRound app (some key) nSize true { s with str := overwrite s.str l } =
      .ok (.go true, t) ∧ Kept s t := by
  obtain ⟨r, hr, hcode⟩ := refuses
  obtain ⟨-, hrefused⟩ | ⟨v, -, -, rfl⟩ := findOption_ok hr
  · rw [readRound_inner, hr, Except.map, if_neg hcode]
    refine ⟨_, rfl, ?_, rfl, ?_⟩
    · rw [hrefused]
      exact store_nil _ _
    · rw [hrefused]
      exact fun _ => rfl
  · exact absurd rfl hcode

theorem round_answers (app : Option Str) (s : ReadState) (answers : Answers key nSize l) :
    ∃ v t, lineValue (cstr l) = some v ∧
      readRound app (some key) nSize true { s with str := overwrite s.str l } =
        .ok (.done 1, t) ∧ t.setDefault = false ∧ t.out = store s.out s.pos (v ++ [0]) := by
  obtain ⟨r, hr, hcode⟩ := answers
  obtain ⟨hne, -⟩ | ⟨v, hv, -, rfl⟩ := findOption_ok hr
  · exact absurd hcode hne
  · rw [readRound_inner, hr, Except.map, if_pos rfl]
    exact ⟨v, _, hv, rfl, rfl, rfl⟩

/-! The inner loop. -/

theorem inner_refused (app : Option Str) (refuses : ∀ l ∈ inside, Refuses key nSize l)
    (s : ReadState) : ∃ t, readRounds app (some key) nSize true inside s = .ok (.go true, t) ∧
      Kept s t := by
  induction inside generalizing s with
  | nil => exact ⟨s, rfl, rfl, rfl, id⟩
  | cons l inside ih =>
    obtain ⟨hl, hinside⟩ := List.forall_mem_cons.mp refuses
    obtain ⟨t, hround, kept⟩ := round_refuses app s hl
    obtain ⟨u, hrounds, kept'⟩ := ih hinside t
    rw [readRounds_go hround]
    exact ⟨u, hrounds, kept.trans kept'⟩

theorem inner_answered (app : Option Str) (refuses : ∀ m ∈ passed, Refuses key nSize m)
    (answers : Answers key nSize l) (rest : List Str) (s : ReadState) :
    ∃ v t, lineValue (cstr l) = some v ∧
      readRounds app (some key) nSize true (passed ++ l :: rest) s = .ok (.done 1, t) ∧
      t.setDefault = false ∧ t.out = store s.out s.pos (v ++ [0]) ∧
      lineRead app (some key) nSize true (getlinesOf (passed ++ l :: rest)) s = passed.length := by
  induction passed generalizing s with
  | nil =>
    obtain ⟨v, t, hv, hround, hset, hout⟩ := round_answers app s answers
    exact ⟨v, t, hv, readRounds_done hround rest, hset, hout, lineRead_done hround rest⟩
  | cons m passed ih =>
    obtain ⟨hm, hpassed⟩ := List.forall_mem_cons.mp refuses
    obtain ⟨t, hround, kept⟩ := round_refuses app s hm
    obtain ⟨v, u, hv, hrounds, hset, hout, hnumber⟩ := ih hpassed t
    rw [List.cons_append, readRounds_go hround, lineRead_go hround, hnumber]
    refine ⟨v, u, hv, hrounds, hset, ?_, rfl⟩
    rw [hout, kept.out, kept.pos]

theorem inner_cases (app : Option Str) (key : Str) (nSize : Int) (inside : List Str) :
    (∀ l ∈ inside, Refuses key nSize l) ∨
    (∃ passed l rest, inside = passed ++ l :: rest ∧ (∀ m ∈ passed, Refuses key nSize m) ∧
      Answers key nSize l) ∨
    ∀ s, ∃ e, readRounds app (some key) nSize true inside s = .error e := by
  induction inside with
  | nil => exact .inl (by simp)
  | cons l inside ih =>
    cases hfind : findOption (cstr l) key nSize with
    | error e =>
      refine .inr (.inr fun s => ⟨e, ?_⟩)
      have hround := readRound_inner app key nSize l s
      rw [hfind] at hround
      exact readRounds_error hround inside
    | ok r =>
      by_cases hcode : r.code = 0
      · exact .inr (.inl ⟨[], l, inside, rfl, by simp, r, hfind, hcode⟩)
      · have hl : Refuses key nSize l := ⟨r, hfind, hcode⟩
        obtain refuses | ⟨passed, m, rest, rfl, hpassed, answers⟩ | stops := ih
        · exact .inl (List.forall_mem_cons.mpr ⟨hl, refuses⟩)
        · exact .inr (.inl ⟨l :: passed, m, rest, rfl, List.forall_mem_cons.mpr ⟨hl, hpassed⟩,
            answers⟩)
        · refine .inr (.inr fun s => ?_)
          obtain ⟨t, hround, -⟩ := round_refuses app s hl
          rw [readRounds_go hround]
          exact stops t

/-! The outer loop. -/

theorem Opens.split {str : List UInt8} (opens : Opens app str lines inside) :
    ∃ ahead opener, lines = ahead ++ opener :: inside := by
  induction opens with
  | here _ => exact ⟨[], _, rfl⟩
  | @later str l r lines inside _ _ _ ih =>
    obtain ⟨ahead, opener, rfl⟩ := ih
    exact ⟨l :: ahead, opener, rfl⟩

/-- The inner loop takes over on the lines after the one that is accepted. -/
theorem outer_opens (key : Str) (nSize : Int) {str : List UInt8}
    (opens : Opens app str lines inside) (s : ReadState) (hs : s.str = str) :
    ∃ t, Kept s t ∧
      readRounds (some app) (some key) nSize false lines s =
        readRounds (some app) (some key) nSize true inside t ∧
      lineRead (some app) (some key) nSize false (getlinesOf lines) s + inside.length =
        lineRead (some app) (some key) nSize true (getlinesOf inside) t + lines.length := by
  induction opens generalizing s with
  | @here str l inside hfind =>
    subst hs
    have hround := readRound_outer_ok (some key) nSize hfind
    refine ⟨{ s with str := overwrite s.str l }, ⟨rfl, rfl, id⟩,
      readRounds_go hround inside, ?_⟩
    rw [lineRead_go hround]
    simp only [decide_true, List.length_cons]
    omega
  | @later str l r lines inside hfind hne _ ih =>
    subst hs
    have hround := readRound_outer_ok (some key) nSize hfind
    rw [decide_eq_false hne] at hround
    obtain ⟨t, kept, hrounds, hnumber⟩ := ih { s with str := overwrite s.str l } rfl
    refine ⟨t, ⟨kept.out, kept.pos, kept.setDefault⟩, ?_, ?_⟩
    · rw [readRounds_go hround, hrounds]
    · rw [lineRead_go hround, List.length_cons]
      omega

theorem outer_closed (key : Str) (nSize : Int) {str : List UInt8} (closed : Closed app str lines)
    (s : ReadState) (hs : s.str = str) :
    ∃ t, readRounds (some app) (some key) nSize false lines s = .ok (.go false, t) ∧
      Kept s t := by
  induction closed generalizing s with
  | nil => exact ⟨s, rfl, rfl, rfl, id⟩
  | @cons str l r lines hfind hne _ ih =>
    subst hs
    have hround := readRound_outer_ok (some key) nSize hfind
    rw [decide_eq_false hne] at hround
    obtain ⟨t, hrounds, kept⟩ := ih { s with str := overwrite s.str l } rfl
    rw [readRounds_go hround]
    exact ⟨t, hrounds, kept.out, kept.pos, kept.setDefault⟩

theorem outer_cases (app key : Str) (nSize : Int) (str : List UInt8) (lines : List Str) :
    Closed app str lines ∨ (∃ inside, Opens app str lines inside) ∨
    ∀ s, s.str = str → ∃ e, readRounds (some app) (some key) nSize false lines s = .error e := by
  induction lines generalizing str with
  | nil => exact .inl .nil
  | cons l lines ih =>
    cases hfind : findSection (overwrite str l) app with
    | error e =>
      refine .inr (.inr ?_)
      rintro s rfl
      have hround := readRound_outer app (some key) nSize l s
      rw [hfind] at hround
      exact ⟨e, readRounds_error hround lines⟩
    | ok r =>
      by_cases hr : r = 0
      · exact .inr (.inl ⟨lines, .here (hr ▸ hfind)⟩)
      · obtain closed | ⟨inside, opens⟩ | stops := ih (overwrite str l)
        · exact .inl (.cons hfind hr closed)
        · exact .inr (.inl ⟨inside, .later hfind hr opens⟩)
        · refine .inr (.inr ?_)
          rintro s rfl
          have hround := readRound_outer_ok (some key) nSize hfind
          rw [decide_eq_false hr] at hround
          rw [readRounds_go hround]
          exact stops { s with str := overwrite s.str l } rfl

/-! Both loops, on all the lines. -/

theorem rounds_unanswered {s : ReadState} (unanswered : Unanswered app key nSize s.str lines) :
    ∃ inner t, readRounds (some app) (some key) nSize false lines s = .ok (.go inner, t) ∧
      Kept s t := by
  obtain closed | ⟨inside, opens, refuses⟩ := unanswered
  · exact ⟨false, outer_closed key nSize closed s rfl⟩
  · obtain ⟨t, kept, hrounds, -⟩ := outer_opens key nSize opens s rfl
    obtain ⟨u, hinner, kept'⟩ := inner_refused (some app) refuses t
    exact ⟨true, u, hrounds.trans hinner, kept.trans kept'⟩

theorem rounds_found {ahead : List Str} {opener : Str} {s : ReadState}
    (found : Found app key nSize s.str ahead opener passed l rest) :
    ∃ v t, lineValue (cstr l) = some v ∧ readRounds (some app) (some key) nSize false
        (ahead ++ opener :: (passed ++ l :: rest)) s = .ok (.done 1, t) ∧
      t.setDefault = false ∧ t.out = store s.out s.pos (v ++ [0]) ∧
      lineRead (some app) (some key) nSize false
        (getlinesOf (ahead ++ opener :: (passed ++ l :: rest))) s =
          (ahead ++ opener :: passed).length := by
  obtain ⟨t, kept, hrounds, hnumber⟩ := outer_opens key nSize found.opens s rfl
  obtain ⟨v, u, hv, hinner, hset, hout, hinnerNumber⟩ :=
    inner_answered (some app) found.passed found.answers rest t
  refine ⟨v, u, hv, hrounds.trans hinner, hset, ?_, ?_⟩
  · rw [hout, kept.out, kept.pos]
  · rw [hinnerNumber] at hnumber
    simp only [List.length_append, List.length_cons] at hnumber ⊢
    omega

theorem rounds_cases (app key : Str) (nSize : Int) (lines : List Str) (s : ReadState) :
    Unanswered app key nSize s.str lines ∨
    (∃ ahead opener passed l rest, lines = ahead ++ opener :: (passed ++ l :: rest) ∧
      Found app key nSize s.str ahead opener passed l rest) ∨
    ∃ e, readRounds (some app) (some key) nSize false lines s = .error e := by
  obtain closed | ⟨inside, opens⟩ | stops := outer_cases app key nSize s.str lines
  · exact .inl (.inl closed)
  · obtain refuses | ⟨passed, l, rest, rfl, hpassed, answers⟩ | stops :=
      inner_cases (some app) key nSize inside
    · exact .inl (.inr ⟨inside, opens, refuses⟩)
    · obtain ⟨ahead, opener, hlines⟩ := opens.split
      exact .inr (.inl ⟨ahead, opener, passed, l, rest, hlines, hlines ▸ opens, hpassed, answers⟩)
    · obtain ⟨t, -, hrounds, -⟩ := outer_opens key nSize opens s rfl
      rw [hrounds]
      exact .inr (.inr (stops t))
  · exact .inr (.inr (stops s rfl))

end Rounds

section Places

variable {app key : Str} {nSize : Int} {str : List UInt8} {l opener : Str}
  {lines ahead inside passed rest : List Str} {n : Nat}

theorem held_append (str : List UInt8) (lines : List Str) (l : Str) :
    held str (lines ++ [l]) = overwrite (held str lines) l := by
  simp [held]

theorem take_ahead (h : n < ahead.length) (inside : List Str) :
    (ahead ++ inside).take (n + 1) = ahead.take (n + 1) :=
  List.take_append_of_le_length h

theorem take_opener (ahead : List Str) (opener : Str) (inside : List Str) :
    (ahead ++ opener :: inside).take (ahead.length + 1) = ahead ++ [opener] := by
  rw [List.take_append, List.take_of_length_le (by omega)]
  simp

/-- `FindSection` returns on each line, and not 0. -/
theorem closed_iff : Closed app str lines ↔
    ∀ n, n < lines.length → ∃ r, findSection (held str (lines.take (n + 1))) app = .ok r ∧
      r ≠ 0 := by
  induction lines generalizing str with
  | nil => exact iff_of_true .nil fun n hn => absurd hn (Nat.not_lt_zero n)
  | cons l lines ih =>
    constructor
    · intro closed n hn
      cases closed with
      | @cons _ _ r _ hfind hne closed =>
        cases n with
        | zero => exact ⟨r, hfind, hne⟩
        | succ n => exact ih.mp closed n (Nat.lt_of_succ_lt_succ hn)
    · intro h
      obtain ⟨r, hfind, hne⟩ := h 0 (Nat.succ_pos _)
      exact .cons hfind hne (ih.mpr fun n hn => h (n + 1) (Nat.succ_lt_succ hn))

/-- The first line that is accepted. -/
theorem opens_iff : Opens app str lines inside ↔ ∃ ahead opener,
    lines = ahead ++ opener :: inside ∧ Closed app str ahead ∧
      findSection (held str (ahead ++ [opener])) app = .ok 0 := by
  constructor
  · intro opens
    induction opens with
    | here hfind => exact ⟨[], _, rfl, .nil, hfind⟩
    | later hfind hne _ ih =>
      obtain ⟨ahead, opener, rfl, closed, hopen⟩ := ih
      exact ⟨_ :: ahead, opener, rfl, .cons hfind hne closed, hopen⟩
  · rintro ⟨ahead, opener, rfl, closed, hopen⟩
    induction closed with
    | nil => exact .here hopen
    | cons hfind hne _ ih => exact .later hfind hne (ih hopen)

theorem Closed.not_accepted (closed : Closed app str ahead) (inside : List Str)
    (hn : n < ahead.length) : ¬ Accepted app str (ahead ++ inside) n := by
  rintro ⟨-, hzero⟩
  obtain ⟨r, hfind, hne⟩ := closed_iff.mp closed n hn
  rw [take_ahead hn] at hzero
  cases hfind.symm.trans hzero
  exact hne rfl

/-- No line is accepted where the rounds go on with the outer loop. -/
theorem Closed.none_accepted (closed : Closed app str lines) (n : Nat) :
    ¬ Accepted app str lines n := by
  rintro ⟨hn, hzero⟩
  obtain ⟨r, hfind, hne⟩ := closed_iff.mp closed n hn
  cases hfind.symm.trans hzero
  exact hne rfl

theorem Closed.not_below (closed : Closed app str ahead) (inside : List Str)
    (hn : n ≤ ahead.length) : ¬ Below app str (ahead ++ inside) n := by
  rintro ⟨m, hm, haccepted⟩
  exact closed.not_accepted inside (hm.trans_le hn) haccepted

/-- Below the first line that is accepted. -/
theorem below_iff (closed : Closed app str ahead)
    (hopen : findSection (held str (ahead ++ [opener])) app = .ok 0) :
    Below app str (ahead ++ opener :: inside) n ↔ ahead.length < n := by
  constructor
  · intro below
    by_contra hle
    exact closed.not_below _ (Nat.not_lt.mp hle) below
  · intro hn
    refine ⟨ahead.length, hn, by simp, ?_⟩
    rw [take_opener]
    exact hopen

/-- Line `n`, below the first line that is accepted. -/
theorem getElem?_inside (hn : ahead.length < n) :
    (ahead ++ opener :: inside)[n]? = inside[n - (ahead.length + 1)]? := by
  obtain ⟨k, rfl⟩ := Nat.exists_eq_add_of_le hn
  rw [List.getElem?_append_right (by omega), Nat.add_sub_cancel_left,
    show ahead.length.succ + k - ahead.length = k + 1 by omega, List.getElem?_cons_succ]

theorem getElem?_found :
    (ahead ++ opener :: (passed ++ l :: rest))[(ahead ++ opener :: passed).length]? = some l := by
  have hplace : (ahead ++ opener :: passed).length = ahead.length + 1 + passed.length := by
    simp only [List.length_append, List.length_cons]
    omega
  rw [hplace, getElem?_inside (by omega), Nat.add_sub_cancel_left,
    List.getElem?_append_right le_rfl, Nat.sub_self, List.getElem?_cons_zero]

theorem sections_return (closed : Closed app str ahead)
    (hopen : findSection (held str (ahead ++ [opener])) app = .ok 0)
    (hn : ¬ Below app str (ahead ++ opener :: inside) n) :
    ∃ r, findSection (held str ((ahead ++ opener :: inside).take (n + 1))) app = .ok r := by
  rw [below_iff closed hopen, Nat.not_lt] at hn
  rcases Nat.lt_or_eq_of_le hn with hlt | rfl
  · obtain ⟨r, hfind, -⟩ := closed_iff.mp closed n hlt
    rw [take_ahead hlt]
    exact ⟨r, hfind⟩
  · rw [take_opener]
    exact ⟨0, hopen⟩

theorem not_answers_of_refuses (h : Refuses key nSize l) : ¬ Answers key nSize l := by
  rintro ⟨r, hfind, hcode⟩
  obtain ⟨r', hfind', hne⟩ := h
  cases hfind.symm.trans hfind'
  exact hne hcode

theorem Unanswered.helpersReturn (h : Unanswered app key nSize str lines) :
    HelpersReturn app key nSize str lines ∧
      ∀ n, Below app str lines n → ¬ Taken key nSize lines n := by
  obtain closed | ⟨inside, opens, refuses⟩ := h
  · have hnone : ∀ n, ¬ Below app str lines n := fun n ⟨m, _, hm⟩ => closed.none_accepted m hm
    refine ⟨⟨fun n hn _ => ?_, fun n l _ below => absurd below (hnone n)⟩,
      fun n below => absurd below (hnone n)⟩
    obtain ⟨r, hfind, -⟩ := closed_iff.mp closed n hn
    exact ⟨r, hfind⟩
  · obtain ⟨ahead, opener, rfl, closed, hopen⟩ := opens_iff.mp opens
    have hrefuses : ∀ n l, Below app str (ahead ++ opener :: inside) n →
        (ahead ++ opener :: inside)[n]? = some l → Refuses key nSize l := by
      intro n l below hl
      rw [getElem?_inside ((below_iff closed hopen).mp below)] at hl
      exact refuses l (List.mem_of_getElem? hl)
    refine ⟨⟨fun n _ => sections_return closed hopen, fun n l hl below _ => ?_⟩, ?_⟩
    · obtain ⟨r, hfind, -⟩ := hrefuses n l below hl
      exact ⟨r, hfind⟩
    · rintro n below ⟨l, hl, answers⟩
      exact not_answers_of_refuses (hrefuses n l below hl) answers

/-- The line on which the loops end is the first below an accepted one that is taken. -/
structure FirstTaken (lpAppName lpKeyName : Str) (nSize : Int) (str : List UInt8)
    (lines : List Str) (n : Nat) : Prop where
  below : Below lpAppName str lines n
  taken : Taken lpKeyName nSize lines n
  first : ∀ m, m < n → Below lpAppName str lines m → ¬ Taken lpKeyName nSize lines m

theorem Found.split (found : Found app key nSize str ahead opener passed l rest) :
    Closed app str ahead ∧ findSection (held str (ahead ++ [opener])) app = .ok 0 := by
  obtain ⟨ahead', opener', hlines, closed, hopen⟩ := opens_iff.mp found.opens
  obtain ⟨rfl, hopener⟩ := List.append_inj' hlines rfl
  obtain rfl := List.head_eq_of_cons_eq hopener
  exact ⟨closed, hopen⟩

theorem Found.firstTaken
    (found : Found app key nSize str ahead opener passed l rest) :
    HelpersReturn app key nSize str (ahead ++ opener :: (passed ++ l :: rest)) ∧
      FirstTaken app key nSize str (ahead ++ opener :: (passed ++ l :: rest))
        (ahead ++ opener :: passed).length := by
  obtain ⟨closed, hopen⟩ := found.split
  have hplace : (ahead ++ opener :: passed).length = ahead.length + 1 + passed.length := by
    simp only [List.length_append, List.length_cons]
    omega
  have hline := @getElem?_found l opener ahead passed rest
  have hrefuses : ∀ m k, m < (ahead ++ opener :: passed).length →
      Below app str (ahead ++ opener :: (passed ++ l :: rest)) m →
      (ahead ++ opener :: (passed ++ l :: rest))[m]? = some k → Refuses key nSize k := by
    intro m k hm below hk
    have hinside := (below_iff closed hopen).mp below
    rw [getElem?_inside hinside, List.getElem?_append_left (by omega)] at hk
    exact found.passed k (List.mem_of_getElem? hk)
  have htaken : Taken key nSize (ahead ++ opener :: (passed ++ l :: rest))
      (ahead ++ opener :: passed).length := ⟨l, hline, found.answers⟩
  have hbelow : Below app str (ahead ++ opener :: (passed ++ l :: rest))
      (ahead ++ opener :: passed).length := (below_iff closed hopen).mpr (by omega)
  refine ⟨⟨fun n _ => sections_return closed hopen, fun n k hk below hnone => ?_⟩,
    hbelow, htaken, ?_⟩
  · rcases Nat.lt_trichotomy n (ahead ++ opener :: passed).length with hlt | rfl | hgt
    · obtain ⟨r, hfind, -⟩ := hrefuses n k hlt below hk
      exact ⟨r, hfind⟩
    · obtain rfl := Option.some.inj (hline.symm.trans hk)
      obtain ⟨r, hfind, -⟩ := found.answers
      exact ⟨r, hfind⟩
    · exact absurd htaken (hnone _ hgt hbelow)
  · rintro m hm below ⟨k, hk, answers⟩
    exact not_answers_of_refuses (hrefuses m k hm below hk) answers

theorem exists_split (hn : n < lines.length) :
    ∃ ahead l rest, lines = ahead ++ l :: rest ∧ ahead.length = n := by
  refine ⟨lines.take n, lines[n], lines.drop (n + 1), ?_, List.length_take_of_le hn.le⟩
  rw [List.getElem_cons_drop, List.take_append_drop]

/-- Where the helpers return, the loops come to the last line or to the first that is taken. -/
theorem HelpersReturn.cases (h : HelpersReturn app key nSize str lines) :
    Unanswered app key nSize str lines ∨ ∃ ahead opener passed l rest,
      lines = ahead ++ opener :: (passed ++ l :: rest) ∧
        Found app key nSize str ahead opener passed l rest := by
  classical
  by_cases haccepted : ∃ n, Accepted app str lines n
  swap
  · refine .inl (.inl (closed_iff.mpr fun n hn => ?_))
    have hnot : ¬ Below app str lines n := fun ⟨m, _, hm⟩ => haccepted ⟨m, hm⟩
    obtain ⟨r, hfind⟩ := h.sections n hn hnot
    refine ⟨r, hfind, ?_⟩
    rintro rfl
    exact haccepted ⟨n, hn, hfind⟩
  -- The first line that is accepted.
  have hfirst := fun m (hm : m < Nat.find haccepted) => Nat.find_min haccepted hm
  obtain ⟨hlt, hopen⟩ := Nat.find_spec haccepted
  generalize Nat.find haccepted = n at hfirst hlt hopen
  obtain ⟨ahead, opener, inside, rfl, rfl⟩ := exists_split hlt
  rw [take_opener] at hopen
  have closed : Closed app str ahead := by
    refine closed_iff.mpr fun n hn => ?_
    have hnot : ¬ Below app str (ahead ++ opener :: inside) n := fun ⟨m, hm, hacc⟩ =>
      hfirst m (hm.trans hn) hacc
    have hin : n < (ahead ++ opener :: inside).length := hn.trans hlt
    obtain ⟨r, hfind⟩ := h.sections n hin hnot
    refine ⟨r, take_ahead hn (opener :: inside) ▸ hfind, ?_⟩
    rintro rfl
    exact hfirst n hn ⟨hin, hfind⟩
  have opens : Opens app str (ahead ++ opener :: inside) inside :=
    opens_iff.mpr ⟨ahead, opener, rfl, closed, hopen⟩
  by_cases hrefuses : ∀ l ∈ inside, Refuses key nSize l
  · exact .inl (.inr ⟨inside, opens, hrefuses⟩)
  simp only [not_forall, exists_prop] at hrefuses
  obtain ⟨passed, l, rest, rfl, hpassed, hl⟩ := Search.exists_first hrefuses
  have hpassed' : ∀ m ∈ passed, Refuses key nSize m := fun m hm => not_not.mp (hpassed m hm)
  have hbelow := fun n => @below_iff app str opener ahead (passed ++ l :: rest) n closed hopen
  have hplace : (ahead ++ opener :: passed).length = ahead.length + 1 + passed.length := by
    simp only [List.length_append, List.length_cons]
    omega
  obtain ⟨r, hfind⟩ := h.options _ l getElem?_found ((hbelow _).mpr (by omega)) (by
    rintro m hm below ⟨k, hk, answers⟩
    have hinside := (hbelow m).mp below
    rw [getElem?_inside hinside, List.getElem?_append_left (by omega)] at hk
    exact not_answers_of_refuses (hpassed' k (List.mem_of_getElem? hk)) answers)
  have hcode : r.code = 0 := by
    by_contra hne
    exact hl ⟨r, hfind, hne⟩
  exact .inr ⟨ahead, opener, passed, l, rest, rfl, opens, hpassed', r, hfind, hcode⟩

theorem FirstTaken.unique {m n : Nat} (hm : FirstTaken app key nSize str lines m)
    (hn : FirstTaken app key nSize str lines n) : m = n := by
  rcases Nat.lt_trichotomy m n with hlt | heq | hgt
  · exact absurd hm.taken (hn.first m hlt hm.below)
  · exact heq
  · exact absurd hn.taken (hm.first n hgt hn.below)

/-- The rounds find a line iff the helpers return and take one. -/
theorem found_iff : (∃ ahead opener passed l rest,
      lines = ahead ++ opener :: (passed ++ l :: rest) ∧
        Found app key nSize str ahead opener passed l rest) ↔
    HelpersReturn app key nSize str lines ∧
      ∃ n, Below app str lines n ∧ Taken key nSize lines n := by
  constructor
  · rintro ⟨ahead, opener, passed, l, rest, rfl, found⟩
    obtain ⟨returns, first⟩ := found.firstTaken
    exact ⟨returns, _, first.below, first.taken⟩
  · rintro ⟨returns, n, below, taken⟩
    obtain unanswered | found := returns.cases
    · exact absurd taken (unanswered.helpersReturn.2 n below)
    · exact found

/-- The rounds come to an end where the helpers return. -/
theorem rounds_ok_iff (s : ReadState) :
    (∃ r, readRounds (some app) (some key) nSize false lines s = .ok r) ↔
      HelpersReturn app key nSize s.str lines := by
  constructor
  · rintro ⟨r, hr⟩
    obtain unanswered | ⟨ahead, opener, passed, l, rest, rfl, found⟩ | ⟨e, he⟩ :=
      rounds_cases app key nSize lines s
    · exact unanswered.helpersReturn.1
    · exact found.firstTaken.1
    · cases hr.symm.trans he
  · intro returns
    obtain unanswered | ⟨ahead, opener, passed, l, rest, rfl, found⟩ := returns.cases
    · obtain ⟨inner, t, hrounds, -⟩ := rounds_unanswered unanswered
      exact ⟨_, hrounds⟩
    · obtain ⟨-, t, -, hrounds, -⟩ := rounds_found found
      exact ⟨_, hrounds⟩

/-- They end the loops where a line is taken. -/
theorem rounds_done_iff (s : ReadState) :
    (∃ found t, readRounds (some app) (some key) nSize false lines s = .ok (.done found, t)) ↔
      HelpersReturn app key nSize s.str lines ∧
        ∃ n, Below app s.str lines n ∧ Taken key nSize lines n := by
  rw [← found_iff]
  constructor
  · rintro ⟨found, t, hdone⟩
    obtain unanswered | found | ⟨e, he⟩ := rounds_cases app key nSize lines s
    · obtain ⟨inner, u, hgoes, -⟩ := rounds_unanswered unanswered
      cases hdone.symm.trans hgoes
    · exact found
    · cases hdone.symm.trans he
  · rintro ⟨ahead, opener, passed, l, rest, rfl, found⟩
    obtain ⟨-, t, -, hrounds, -⟩ := rounds_found found
    exact ⟨1, t, hrounds⟩

end Places

/-- The call returns where its loops do. -/
theorem call_returns_iff {app key lpDefault : Option Str} {out : Nat → UInt8} {nSize : Int}
    {file str : List UInt8} :
    (∃ r, getPrivateProfileString app key lpDefault out nSize (some file) str = .ok r) ↔
      ∃ r, readLoop app key nSize false (getlineAll PATH_MAX file) ⟨str, true, 0, out, 0⟩ =
        .ok r := by
  constructor
  · rintro ⟨r, hr⟩
    obtain ⟨a, ha, -⟩ := ok_of_bind hr
    exact ⟨a, ha⟩
  · rintro ⟨a, ha⟩
    exact ⟨_, bind_eq_ok_iff.mpr ⟨a, ha, rfl⟩⟩

end Gipcy.Linux.Ini
