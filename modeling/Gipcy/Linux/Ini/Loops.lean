import Gipcy.Lib.Transition
import Gipcy.Linux.Ini.Rounds

/-! Whether the loops of `IPC_getPrivateProfileString` end. They ask the stream for
`eof()`, which a `getline` that has failed never sets. -/
namespace Gipcy.Linux.Ini

open CString Lines Transition
open StateTransition (eval)

/-- Where the call is: in one of its loops, or behind both, or where a helper has
left its arrays. -/
inductive Loops where
  | running (inner : Bool) (ifs : Ifstream) (s : ReadState)
  | left (found : Int) (s : ReadState)
  | stopped (e : Stop)

/-- The condition of the loop, and the round that it begins. -/
def Loops.next (lpAppName lpKeyName : Option Str) (nSize : Int) : Loops → Option Loops
  | .running inner ifs s =>
    if ifs.eof then some (.left 0 s)
    else
      let (line, ifs) := ifs.getline PATH_MAX
      match readRound lpAppName lpKeyName nSize inner { s with str := overwrite s.str line } with
      | .ok (.go inner, s) => some (.running inner ifs s)
      | .ok (.done found, s) => some (.left found s)
      | .error e => some (.stopped e)
  | _ => none

/-- The call on an open file, before the first round. -/
def Loops.start (out : Nat → UInt8) (file str : List UInt8) : Loops :=
  .running false ⟨file, false, false⟩ ⟨str, true, 0, out, 0⟩

/-- After finitely many rounds the call is behind its loops. -/
def Ends (lpAppName lpKeyName : Option Str) (out : Nat → UInt8) (nSize : Int)
    (file str : List UInt8) : Prop :=
  ∃ found s, Loops.left found s ∈
    eval (Loops.next lpAppName lpKeyName nSize) (Loops.start out file str)

/-- The lines up to the first that does not fit in the array, and the front of that one. -/
def upToLong : List Str → List Str
  | [] => []
  | l :: lines => if l.length < PATH_MAX then l :: upToLong lines else [l.take (PATH_MAX - 1)]

/-- The loops end on what is read. In the list of the sections all lines of the file fit in
the array, or the names do not fit in the buffer; in the list of the keys all lines fit, and
`FindSection` returns on those that it looks at. For a value the helpers return, and all lines
fit or one is taken. -/
def LoopsEnd (lpAppName lpKeyName : Option Str) (nSize : Int) (str : List UInt8)
    (read : List Str) (fits : Prop) : Prop :=
  match lpAppName, lpKeyName with
  | none, _ =>
    fits ∨ fitting (nSize - 1) (sectionNames (read.map cstr)) ≠ sectionNames (read.map cstr)
  | some lpAppName, none => fits ∧ (keysListed lpAppName (nSize - 1) false str read).isSome
  | some lpAppName, some lpKeyName => HelpersReturn lpAppName lpKeyName nSize str read ∧
      (fits ∨ ∃ n, Below lpAppName str read n ∧ Taken lpKeyName nSize read n)

section Machine

variable {app key : Option Str} {nSize : Int} {inner : Bool} {s : ReadState}

/-- A round on an empty line leads on with the same loop. -/
theorem readRound_empty (app key : Option Str) (nSize : Int) (inner : Bool) (s : ReadState) :
    ∃ t, readRound app key nSize inner { s with str := overwrite s.str [] } =
      .ok (.go inner, t) := by
  have hempty : cstr (overwrite s.str []) = [] := rfl
  cases inner with
  | false =>
    cases app with
    | none => exact ⟨_, readRound_no_header key rfl⟩
    | some app =>
      obtain ⟨r, hfind, hr⟩ := findSection_empty (s.str.drop 1) app
      have hround := readRound_outer_ok (s := s) (l := []) key nSize hfind
      rw [decide_eq_false hr] at hround
      exact ⟨_, hround⟩
  | true =>
    cases key with
    | none => exact ⟨_, readRound_no_option app rfl rfl⟩
    | some key =>
      obtain ⟨code, hcode, hoption⟩ := findOption_empty key nSize
      have hround := readRound_inner app key nSize [] s
      have hgo : (if (OptionResult.refuse code).code = 0 then Next.done 1 else .go true) =
          .go true := if_neg hcode
      rw [show cstr [] = [] from rfl, hoption, Except.map, hgo] at hround
      exact ⟨_, hround⟩

/-- The loops on a stream that has failed: each round leads to another one. -/
theorem not_halts_failed (rest : List UInt8) :
    ¬ (eval (Loops.next app key nSize) (.running inner ⟨rest, false, true⟩ s)).Dom := by
  refine not_halts_of_invariant (I := fun l => ∃ s, l = .running inner ⟨rest, false, true⟩ s) ?_
    ⟨s, rfl⟩
  rintro _ ⟨s, rfl⟩
  obtain ⟨t, hround⟩ := readRound_empty app key nSize inner s
  refine ⟨.running inner ⟨rest, false, true⟩ t, ?_, t, rfl⟩
  simp [Loops.next, Ifstream.getline, hround]

/-- The loops end where those on the lines that `getline` gives do, in the same state. -/
theorem left_mem_iff (inner : Bool) (text : List UInt8) (s : ReadState) {found : Int}
    {u : ReadState} : Loops.left found u ∈
        eval (Loops.next app key nSize) (.running inner ⟨text, false, false⟩ s) ↔
      readLoop app key nSize inner (getlineAll PATH_MAX text) s = .ok (found, u) := by
  induction hlength : text.length using Nat.strong_induction_on generalizing inner text s with
  | h n ih =>
    subst hlength
    have hgetline : (⟨text, false, false⟩ : Ifstream).getline PATH_MAX =
        extract PATH_MAX [] text := rfl
    have hshorter : (extract PATH_MAX [] text).2.eof = false →
        (extract PATH_MAX [] text).2.fail = false → _ := length_extract_lt
    rw [getlineAll, getlineFrom_eq]
    generalize extract PATH_MAX [] text = extracted at hgetline hshorter ⊢
    obtain ⟨line, rest, eof, fail⟩ := extracted
    have hnext : (Loops.running inner ⟨text, false, false⟩ s).next app key nSize =
        match readRound app key nSize inner { s with str := overwrite s.str line } with
        | .ok (.go inner, s) => some (.running inner ⟨rest, eof, fail⟩ s)
        | .ok (.done found, s) => some (.left found s)
        | .error e => some (.stopped e) := by
      rw [Loops.next, hgetline]
      rfl
    have hleft : ∀ found' t, Loops.left found u ∈
        eval (Loops.next app key nSize) (.left found' t) ↔
          (Except.ok (found', t) : Except Stop (Int × ReadState)) = .ok (found, u) := by
      intro found' t
      rw [eval_of_none rfl, Part.mem_some_iff, Loops.left.injEq, Except.ok.injEq, Prod.mk.injEq,
        eq_comm, @eq_comm _ u]
    rw [readLoop]
    cases hround : readRound app key nSize inner { s with str := overwrite s.str line } with
    | error e =>
      rw [hround] at hnext
      rw [eval_of_some hnext, eval_of_none rfl, Part.mem_some_iff]
      apply iff_of_false
      · intro h
        cases h
      · intro h
        cases h
    | ok r =>
      obtain ⟨next, t⟩ := r
      rw [hround] at hnext
      cases next with
      | done found' =>
        rw [eval_of_some hnext]
        exact hleft found' t
      | go next =>
        rw [eval_of_some hnext]
        cases eof with
        | true =>
          have hend : (Loops.running next ⟨rest, true, fail⟩ t).next app key nSize =
              some (.left 0 t) := rfl
          rw [eval_of_some hend]
          exact hleft 0 t
        | false =>
          cases fail with
          | true =>
            refine iff_of_false (fun h => not_halts_failed rest (Part.dom_iff_mem.mpr ⟨_, h⟩)) ?_
            intro h
            cases h
          | false => exact ih _ (hshorter rfl rfl) next rest t rfl

theorem ends_iff_readLoop {out : Nat → UInt8} {file str : List UInt8} :
    Ends app key out nSize file str ↔
      ∃ r, readLoop app key nSize false (getlineAll PATH_MAX file) ⟨str, true, 0, out, 0⟩ =
        .ok r := by
  simp only [Ends, Loops.start, left_mem_iff, Prod.exists]

/-- The call returns exactly if its loops end. -/
theorem returns_iff_ends (lpDefault : Option Str) {out : Nat → UInt8} {file str : List UInt8} :
    (∃ r, getPrivateProfileString app key lpDefault out nSize (some file) str = .ok r) ↔
      Ends app key out nSize file str :=
  call_returns_iff.trans ends_iff_readLoop.symm

/-- The loop on lines of which the last does not fit. -/
theorem readLoop_failed (app key : Option Str) (nSize : Int) (inner : Bool) (ahead : List Str)
    (front : Str) (s : ReadState) :
    readLoop app key nSize inner (getlinesOf ahead ++ [⟨front, true⟩]) s =
      match readRounds app key nSize inner (ahead ++ [front]) s with
      | .ok (.go _, _) => .error .never
      | .ok (.done found, t) => .ok (found, t)
      | .error e => .error e := by
  induction ahead generalizing inner s with
  | nil =>
    cases hround : readRound app key nSize inner { s with str := overwrite s.str front } with
    | error e =>
      rw [List.nil_append, readRounds_error hround]
      simp only [getlinesOf, List.map_nil, List.nil_append, readLoop, hround]
      rfl
    | ok r =>
      obtain ⟨next, t⟩ := r
      cases next with
      | done found =>
        rw [List.nil_append, readRounds_done hround]
        simp only [getlinesOf, List.map_nil, List.nil_append, readLoop, hround]
        rfl
      | go next =>
        rw [List.nil_append, readRounds_go hround]
        simp only [getlinesOf, List.map_nil, List.nil_append, readLoop, hround]
        rfl
  | cons l ahead ih =>
    cases hround : readRound app key nSize inner { s with str := overwrite s.str l } with
    | error e => rw [List.cons_append, readRounds_error hround, readLoop_error _ _ hround]
    | ok r =>
      obtain ⟨next, t⟩ := r
      cases next with
      | done found => rw [List.cons_append, readRounds_done hround, readLoop_done _ _ hround]
      | go next => rw [List.cons_append, readRounds_go hround, readLoop_go _ _ hround, ih]

/-- The loops end behind the last line, if that fits, or in a round. -/
theorem loopsEnd_iff (app key : Option Str) (nSize : Int) (lines : List Str) (s : ReadState)
    (hsize : s.sectionsSize = 0) (fits : Prop) :
    ((fits ∧ ∃ r, readRounds app key nSize false lines s = .ok r) ∨
        ∃ found t, readRounds app key nSize false lines s = .ok (.done found, t)) ↔
      LoopsEnd app key nSize s.str lines fits := by
  cases app with
  | none =>
    obtain ⟨t, hrounds, -⟩ := readRounds_names key nSize lines s
    rw [hrounds, hsize, Int.sub_zero]
    unfold LoopsEnd
    split <;> simp [*]
  | some app =>
    cases key with
    | none =>
      have hkeys := readRounds_keys app nSize false lines s
      rw [hsize, Int.sub_zero] at hkeys
      show _ ↔ fits ∧ (keysListed app (nSize - 1) false s.str lines).isSome
      generalize keysListed app (nSize - 1) false s.str lines = list at hkeys ⊢
      generalize readRounds (some app) none nSize false lines s = r at hkeys ⊢
      cases hkeys with
      | stopped => simp
      | lists lists => simp
    | some key =>
      rw [rounds_ok_iff, rounds_done_iff, and_comm (a := fits), ← and_or_left]
      rfl

end Machine

section Claims

theorem upToLong_of_fits {lines : List Str} (h : ∀ l ∈ lines, l.length < PATH_MAX) :
    upToLong lines = lines := by
  induction lines with
  | nil => rfl
  | cons l lines ih =>
    obtain ⟨hl, hlines⟩ := List.forall_mem_cons.mp h
    rw [upToLong, if_pos hl, ih hlines]

theorem upToLong_append {ahead : List Str} (h : ∀ l ∈ ahead, l.length < PATH_MAX) {long : Str}
    (hlong : PATH_MAX ≤ long.length) (rest : List Str) :
    upToLong (ahead ++ long :: rest) = ahead ++ [long.take (PATH_MAX - 1)] := by
  induction ahead with
  | nil => exact if_neg (Nat.not_lt.mpr hlong)
  | cons l ahead ih =>
    obtain ⟨hl, hahead⟩ := List.forall_mem_cons.mp h
    rw [List.cons_append, upToLong, if_pos hl, ih hahead, List.cons_append]

/-- The loops end iff each line fits in the array or what is read up to the front of one that
does not ends them, and no helper leaves its arrays. -/
theorem ends_iff (lpAppName lpKeyName : Option Str) (out : Nat → UInt8) (nSize : Int)
    (file str : List UInt8) :
    Ends lpAppName lpKeyName out nSize file str ↔
      LoopsEnd lpAppName lpKeyName nSize str (upToLong (file.splitOn nl))
        (∀ l ∈ file.splitOn nl, l.length < PATH_MAX) := by
  have hends := loopsEnd_iff lpAppName lpKeyName nSize (upToLong (file.splitOn nl))
    ⟨str, true, 0, out, 0⟩ rfl (∀ l ∈ file.splitOn nl, l.length < PATH_MAX)
  rw [ends_iff_readLoop]
  by_cases hfits : ∀ l ∈ file.splitOn nl, l.length < PATH_MAX
  · have hreads : getlineAll PATH_MAX file = getlinesOf (file.splitOn nl) :=
      getlineAll_splitOn hfits
    rw [upToLong_of_fits hfits] at hends ⊢
    rw [hreads, readLoop_eq, ← hends]
    generalize readRounds lpAppName lpKeyName nSize false (file.splitOn nl)
      ⟨str, true, 0, out, 0⟩ = r
    cases r with
    | error e => simp [Except.map]
    | ok r => exact iff_of_true ⟨_, rfl⟩ (.inl ⟨hfits, r, rfl⟩)
  · have hlong : ∃ l ∈ file.splitOn nl, PATH_MAX ≤ l.length := by simpa using hfits
    obtain ⟨ahead, long, rest, hlines, hahead, hlong⟩ := Search.exists_first hlong
    have hahead' : ∀ l ∈ ahead, l.length < PATH_MAX := fun l hl => Nat.not_le.mp (hahead l hl)
    have hfront := upToLong_append hahead' hlong rest
    rw [← hlines] at hfront
    rw [getlineAll_long hlines hahead' hlong (by decide), show ahead.map (⟨·, false⟩) =
      getlinesOf ahead from rfl, readLoop_failed, ← hfront, ← hends]
    generalize readRounds lpAppName lpKeyName nSize false (upToLong (file.splitOn nl))
      ⟨str, true, 0, out, 0⟩ = r
    rcases r with e | ⟨next | found, t⟩
    · simp
    · simp [hfits]
    · simp

/-- One line of 4096 characters, without an end. -/
theorem not_ends : ¬ ∀ (lpAppName lpKeyName : Option Str) (out : Nat → UInt8) (nSize : Int)
    (file str : List UInt8), Ends lpAppName lpKeyName out nSize file str := by
  intro ends
  have hline : (List.replicate PATH_MAX 'a'.toUInt8).splitOn nl =
      [List.replicate PATH_MAX 'a'.toUInt8] := by
    refine List.splitOn_eq_singleton fun hmem => ?_
    exact absurd (List.eq_of_mem_replicate hmem) (by decide)
  have hno : ∀ n, isSection (cstr (List.replicate (n + 1) 'a'.toUInt8)) = false := by
    intro n
    have ha : 'a'.toUInt8 ≠ '['.toUInt8 := by decide
    rw [cstr_self fun hmem => absurd (List.eq_of_mem_replicate hmem) (by decide)]
    simp [isSection, List.replicate_succ, ha]
  have hfront : upToLong [List.replicate PATH_MAX 'a'.toUInt8] =
      [List.replicate (PATH_MAX - 1) 'a'.toUInt8] := by
    rw [upToLong, if_neg (by simp), List.take_replicate]
    rfl
  have hends := (ends_iff none none (fun _ => 0) 1 _ (List.replicate PATH_MAX 0)).mp
    (ends none none (fun _ => 0) 1 (List.replicate PATH_MAX 'a'.toUInt8) _)
  rw [hline] at hends
  rcases hends with hfits | hnames
  · have hlength := hfits _ (List.mem_singleton_self _)
    rw [List.length_replicate] at hlength
    exact Nat.lt_irrefl _ hlength
  · have hnone := sectionNames_other (hno (PATH_MAX - 2)) []
    rw [hfront] at hnames
    exact hnames ((congrArg (fitting 0) hnone).trans hnone.symm)

end Claims

end Gipcy.Linux.Ini
