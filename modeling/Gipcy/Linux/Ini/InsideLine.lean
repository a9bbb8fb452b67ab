import Gipcy.Linux.Ini.WholeNames

/-! The characters of the array that the helpers of the reader examine, and whether
the line and its NUL are all of them. -/
namespace Gipcy.Linux.Ini

open CString

/-- The characters that `FindSection` examines from round `i` on, by their distance
from the one that round `i` looks at. -/
inductive RoundReads (rounds : Nat) : Nat → List UInt8 → Nat → Prop
  | look {i : Nat} {src : List UInt8} : i < rounds → RoundReads rounds i src 0
  /-- `strcpy` reads up to the next NUL. -/
  | copy {i : Nat} {c : UInt8} {rest : List UInt8} {p : Nat} : i < rounds →
      c = '['.toUInt8 → p ≤ (cstr rest).length → RoundReads rounds i (c :: rest) (p + 1)
  | next {i : Nat} {c : UInt8} {rest : List UInt8} {p : Nat} : i < rounds → Skipped c →
      RoundReads rounds (i + 1) rest.tail p → RoundReads rounds i (c :: rest) (p + 2)

/-- The characters that `FindSection` examines, in `strlen(src)` and in its rounds. -/
def SectionReads (src : List UInt8) (sectionName : Str) (p : Nat) : Prop :=
  p ≤ (cstr src).length ∨ RoundReads (rounds (cstr src) sectionName) 0 src p

/-- `FindOption`, on the array that holds the line. -/
def findOptionIn (src : List UInt8) (option : Str) (bufferSize : Int) :
    Except Stop OptionResult :=
  if 0 ∈ src then do
    if rounds (cstr src) option = 0 then return .refuse (-5)
    let c := src.getD 0 0
    if c = ';'.toUInt8 then return .refuse (-1)
    if c = 0 then return .refuse (-2)
    if c = '['.toUInt8 then return .refuse (-3)
    let option_tmp := strlwr (← strcpy 1024 (option ++ [0]))
    let name := strlwr (← strcpy 1024 src)
    let after := name.getD option_tmp.length 0
    if (strstr name option_tmp).isSome ∧
        (after = ' '.toUInt8 ∨ after = '='.toUInt8 ∨ after = '\t'.toUInt8) then
      match strstr (cstr src) (chars ['=']) with
      | none => .error .nullPointer
      | some i =>
        let val := optionValue (cstr (src.drop (i + 1)))
        if bufferSize ≥ val.length + 1 then return ⟨0, false, storeOption val⟩
        else return .refuse (-3)
    else return .refuse (-4)
  else .error .outOfBounds

/-- The characters of the array that `FindOption` examines. Behind a `NULL` it
leaves the array. -/
inductive OptionReads (src : List UInt8) (option : Str) : Nat → Prop
  | strlen {p : Nat} : p ≤ (cstr src).length → OptionReads src option p
  | first : rounds (cstr src) option ≠ 0 → OptionReads src option 0
  | copy {p : Nat} : Compares option (cstr src) → p ≤ (cstr src).length → OptionReads src option p
  | search {p : Nat} : Takes option (cstr src) →
      p ≤ (isOptionName (cstr src)).getD (cstr src).length → OptionReads src option p
  | value {i p : Nat} : Takes option (cstr src) → isOptionName (cstr src) = some i → i < p →
      p ≤ (cstr src).length → OptionReads src option p

/-- Another array of this size with the same line. -/
def SameLine (src src' : List UInt8) : Prop :=
  src'.length = src.length ∧ 0 ∈ src' ∧ cstr src' = cstr src

/-- `FindSection` returns, examines the line and its NUL only, and its result is known
from them. -/
def SectionInside (src : List UInt8) (sectionName : Str) : Prop :=
  (∀ p, SectionReads src sectionName p → p ≤ (cstr src).length) ∧
    (∃ r, findSection src sectionName = .ok r) ∧
    ∀ src', SameLine src src' → findSection src' sectionName = findSection src sectionName

/-- So does `FindOption`: it has room for the line, and finds the `=` that it looks for. -/
def OptionInside (src : List UInt8) (option : Str) (bufferSize : Int) : Prop :=
  (∀ p, OptionReads src option p → p ≤ (cstr src).length) ∧
    (∃ r, findOptionIn src option bufferSize = .ok r) ∧
    ∀ src', SameLine src src' →
      findOptionIn src' option bufferSize = findOptionIn src option bufferSize

/-- A character at which `FindSection` returns stands at one of the places that it
looks at. -/
def StopsAtEven (l : Str) : Prop :=
  ∃ i, l[2 * i]? = some ';'.toUInt8 ∨ l[2 * i]? = some '['.toUInt8

section Reads

variable {src src' : List UInt8} {sectionName : Str} {n i : Nat}

theorem roundReads_cons {c : UInt8} {rest : List UInt8} {p : Nat} :
    RoundReads n i (c :: rest) p ↔ i < n ∧ (p = 0 ∨
      (c = '['.toUInt8 ∧ ∃ q, q ≤ (cstr rest).length ∧ p = q + 1) ∨
      (Skipped c ∧ ∃ q, RoundReads n (i + 1) rest.tail q ∧ p = q + 2)) := by
  constructor
  · intro h
    cases h with
    | look hi => exact ⟨hi, .inl rfl⟩
    | copy hi hc hp => exact ⟨hi, .inr (.inl ⟨hc, _, hp, rfl⟩)⟩
    | next hi hc hp => exact ⟨hi, .inr (.inr ⟨hc, _, hp, rfl⟩)⟩
  · rintro ⟨hi, rfl | ⟨hc, q, hq, rfl⟩ | ⟨hc, q, hq, rfl⟩⟩
    · exact .look hi
    · exact .copy hi hc hq
    · exact .next hi hc hq

/-- What `FindSection` makes of a bracket is known from what it copies. -/
theorem sectionRound_congr {c : UInt8} {rest rest' : List UInt8}
    (h : c = '['.toUInt8 → ∀ p, p ≤ (cstr rest).length → rest[p]? = rest'[p]?) :
    sectionRound sectionName c rest' = sectionRound sectionName c rest := by
  by_cases hc : c = '['.toUInt8
  · obtain ⟨hline, hnul⟩ := cstr_congr (h hc)
    simp only [sectionRound, matchSection, strcpy, hline, hnul]
  · simp only [sectionRound, hc, ↓reduceIte]

/-- Arrays that agree in what `FindSection` examines are the same to it. -/
theorem findSectionFrom_congr (zero : 0 ∉ sectionName)
    (h : ∀ p, RoundReads n i src p → src[p]? = src'[p]?) :
    findSectionFrom sectionName n i src' = findSectionFrom sectionName n i src := by
  induction hlength : src.length using Nat.strong_induction_on generalizing i src src' with
  | _ m ih =>
    by_cases hi : i < n
    swap
    · rw [findSectionFrom_over hi, findSectionFrom_over hi]
    have hfirst := h 0 (.look hi)
    cases src with
    | nil =>
      cases src' with
      | nil => rfl
      | cons c rest' => cases hfirst
    | cons c rest =>
      cases src' with
      | nil => cases hfirst
      | cons d rest' =>
        obtain rfl : c = d := Option.some.inj hfirst
        have hround : sectionRound sectionName c rest' = sectionRound sectionName c rest :=
          sectionRound_congr fun hc p hp => h (p + 1) (.copy hi hc hp)
        rw [findSectionFrom_cons hi, findSectionFrom_cons hi, hround]
        by_cases hskipped : Skipped c
        · have hshorter : rest.tail.length < m := by
            rw [← hlength, List.length_cons, List.length_tail]
            omega
          rw [ih _ hshorter (fun p hp => ?_) rfl]
          rw [List.getElem?_tail, List.getElem?_tail]
          exact h (p + 2) (.next hi hskipped hp)
        · obtain ⟨r, hr, -⟩ := sectionRound_returns zero hskipped rest
          rw [hr, Option.getD_some, Option.getD_some]

/-- A round that looks at a character, and copies up to a NUL, returns. -/
theorem sectionRound_ok (zero : 0 ∉ sectionName) (hname : sectionName.length < 1024) {c : UInt8}
    {rest : List UInt8} (array : rest.length < PATH_MAX)
    (hcopy : c = '['.toUInt8 → (cstr rest).length < rest.length) (hstop : ¬ Skipped c) :
    ∃ r, sectionRound sectionName c rest = some (.ok r) := by
  by_cases hcomment : c = ';'.toUInt8
  · exact ⟨-1, if_pos hcomment⟩
  by_cases hend : c = 0
  · exact ⟨-2, (if_neg hcomment).trans (if_pos hend)⟩
  have hopen : c = '['.toUInt8 := by
    by_contra hother
    exact hstop ⟨hcomment, hend, hother⟩
  have hlength := hcopy hopen
  have hnul : 0 ∈ rest := by
    by_contra hno
    rw [cstr_self hno] at hlength
    exact Nat.lt_irrefl _ hlength
  have hmatch := matchSection_eq zero rest
  rw [if_pos ⟨hnul, hlength.trans array, hname⟩] at hmatch
  exact ⟨_, ((if_neg hcomment).trans ((if_neg hend).trans (if_pos hopen))).trans
    (congrArg some hmatch)⟩

/-- Inside the array `FindSection` returns. -/
theorem findSectionFrom_inside (zero : 0 ∉ sectionName) (hname : sectionName.length < 1024)
    (array : src.length ≤ PATH_MAX) (h : ∀ p, RoundReads n i src p → p < src.length) :
    ∃ r, findSectionFrom sectionName n i src = .ok r := by
  induction hlength : src.length using Nat.strong_induction_on generalizing i src with
  | _ m ih =>
    by_cases hi : i < n
    swap
    · exact ⟨-4, findSectionFrom_over hi src⟩
    cases src with
    | nil => exact absurd (h 0 (.look hi)) (Nat.lt_irrefl 0)
    | cons c rest =>
      rw [List.length_cons] at array hlength
      rw [findSectionFrom_cons hi]
      by_cases hskipped : Skipped c
      · rw [sectionRound_skipped hskipped, Option.getD_none]
        refine ih _ ?_ ?_ (fun p hp => ?_) rfl
        · rw [List.length_tail]
          omega
        · rw [List.length_tail]
          omega
        · have hplace := h (p + 2) (.next hi hskipped hp)
          rw [List.length_cons] at hplace
          rw [List.length_tail]
          omega
      · have hcopy : c = '['.toUInt8 → (cstr rest).length < rest.length := fun hopen =>
          Nat.lt_of_succ_lt_succ (h _ (.copy hi hopen le_rfl))
        obtain ⟨r, hr⟩ := sectionRound_ok zero hname (by omega) hcopy hskipped
        exact ⟨r, by rw [hr, Option.getD_some]⟩

/-- A character that is looked at and ends the rounds. -/
theorem stopsAtEven_cons {c d : UInt8} (hc : Skipped c) (l : Str) :
    StopsAtEven (c :: d :: l) ↔ StopsAtEven l := by
  constructor
  · rintro ⟨i, hi⟩
    cases i with
    | zero =>
      rcases hi with hi | hi
      · exact absurd (Option.some.inj hi) hc.1
      · exact absurd (Option.some.inj hi) hc.2.2
    | succ i => exact ⟨i, hi⟩
  · rintro ⟨i, hi⟩
    exact ⟨i + 1, hi⟩

theorem stopsAtEven_of_not_skipped {c : UInt8} (hc : ¬ Skipped c) (hend : c ≠ 0) (l : Str) :
    StopsAtEven (c :: l) := by
  by_cases hcomment : c = ';'.toUInt8
  · exact ⟨0, .inl (congrArg some hcomment)⟩
  · have hopen : c = '['.toUInt8 := by
      by_contra hother
      exact hc ⟨hcomment, hend, hother⟩
    exact ⟨0, .inr (congrArg some hopen)⟩

theorem not_stopsAtEven {l : Str} (h : ∀ c ∈ l, Skipped c) : ¬ StopsAtEven l := by
  rintro ⟨i, hi | hi⟩
  · exact (h _ (List.mem_of_getElem? hi)).1 rfl
  · exact (h _ (List.mem_of_getElem? hi)).2.2 rfl

theorem not_roundReads_over (hi : ¬ i < n) (p : Nat) : ¬ RoundReads n i src p := by
  intro h
  cases h <;> exact absurd ‹i < n› hi

/-- A round that returns examines the line and its NUL at most. -/
theorem roundReads_returns {c : UInt8} {rest : List UInt8} (hc : ¬ Skipped c) {p : Nat}
    (h : RoundReads n i (c :: rest) p) : p ≤ (cstr (c :: rest)).length := by
  obtain ⟨-, rfl | ⟨hopen, q, hq, rfl⟩ | ⟨hskipped, -⟩⟩ := roundReads_cons.mp h
  · exact Nat.zero_le _
  · subst hopen
    rw [cstr_cons (by decide)]
    exact Nat.succ_le_succ hq
  · exact absurd hskipped hc

/-- After a round that does not return, what is left to examine is two places ahead. -/
theorem roundReads_skipped {c : UInt8} {rest : List UInt8} (hi : i < n) (hc : Skipped c)
    {length : Nat} : (∀ p, RoundReads n i (c :: rest) p → p ≤ length) ↔
      ∀ q, RoundReads n (i + 1) rest.tail q → q + 2 ≤ length := by
  constructor
  · intro h q hq
    exact h (q + 2) (.next hi hc hq)
  · intro h p hp
    obtain ⟨-, rfl | ⟨hopen, -⟩ | ⟨-, q, hq, rfl⟩⟩ := roundReads_cons.mp hp
    · exact Nat.zero_le _
    · exact absurd hopen hc.2.2
    · exact h q hq

/-- The rounds step over the NUL exactly where it is at an odd place, none of them
returns ahead of it, and there are enough of them. -/
theorem roundReads_inside_iff (hnul : 0 ∈ src) :
    (∀ p, RoundReads n i src p → p ≤ (cstr src).length) ↔
      (cstr src).length % 2 = 0 ∨ StopsAtEven (cstr src) ∨
        n ≤ i + ((cstr src).length + 1) / 2 := by
  induction hlength : src.length using Nat.strong_induction_on generalizing i src with
  | _ m ih =>
    by_cases hi : i < n
    swap
    · refine iff_of_true (fun p hp => absurd hp (not_roundReads_over hi p)) (.inr (.inr ?_))
      omega
    cases src with
    | nil => cases hnul
    | cons c rest =>
      by_cases hskipped : Skipped c
      swap
      · refine iff_of_true (fun p => roundReads_returns hskipped) ?_
        by_cases hend : c = 0
        · subst hend
          exact .inl rfl
        · rw [cstr_cons hend]
          exact .inr (.inl (stopsAtEven_of_not_skipped hskipped hend _))
      have hrest : 0 ∈ rest := (List.mem_cons.mp hnul).resolve_left (Ne.symm hskipped.2.1)
      rw [cstr_cons hskipped.2.1, roundReads_skipped hi hskipped]
      cases rest with
      | nil => cases hrest
      | cons d rest =>
        by_cases hd : d = 0
        · -- The NUL is where no round looks.
          subst hd
          have hnil : cstr (0 :: rest) = [] := rfl
          have hleft : (∀ q, RoundReads n (i + 1) rest q → q + 2 ≤ 1) ↔ ¬ i + 1 < n := by
            constructor
            · intro h hlt
              exact absurd (h 0 (.look hlt)) (by decide)
            · intro hover q hq
              exact absurd hq (not_roundReads_over hover q)
          simp only [hnil, List.tail_cons, List.length_singleton,
            not_stopsAtEven (List.forall_mem_singleton.mpr hskipped), false_or]
          rw [hleft]
          omega
        · have hshorter : rest.length < m := by
            rw [← hlength, List.length_cons, List.length_cons]
            omega
          have hnul' : 0 ∈ rest := (List.mem_cons.mp hrest).resolve_left (Ne.symm hd)
          rw [cstr_cons hd, stopsAtEven_cons hskipped]
          simp only [List.tail_cons, List.length_cons, Nat.add_le_add_iff_right]
          rw [ih _ hshorter hnul' rfl]
          exact or_congr (by omega) (or_congr Iff.rfl (by omega))

/-- The characters of a line are the same in every array that holds it. -/
theorem SameLine.getElem?_eq (h : SameLine src src') (hnul : 0 ∈ src) {p : Nat}
    (hp : p ≤ (cstr src).length) : src[p]? = src'[p]? := by
  rw [getElem?_eq_cstr hnul hp, getElem?_eq_cstr h.2.1 (by rwa [h.2.2]), h.2.2]

/-- When `FindSection` stays inside the line. -/
theorem sectionInside_iff (array : src.length = PATH_MAX) (hnul : 0 ∈ src)
    (zero : 0 ∉ sectionName) (hname : sectionName.length < 1024) :
    SectionInside src sectionName ↔
      (cstr src).length % 2 = 0 ∨ StopsAtEven (cstr src) ∨
        (sectionName.length ≤ (cstr src).length ∧
          (cstr src).length ≤ 2 * sectionName.length + 1) := by
  have hreads : (∀ p, SectionReads src sectionName p → p ≤ (cstr src).length) ↔
      ∀ p, RoundReads (rounds (cstr src) sectionName) 0 src p → p ≤ (cstr src).length :=
    forall_congr' fun p => or_imp.trans (and_iff_right id)
  have hsame : (∀ p, SectionReads src sectionName p → p ≤ (cstr src).length) →
      (∃ r, findSection src sectionName = .ok r) ∧
      ∀ src', SameLine src src' →
        findSection src' sectionName = findSection src sectionName := by
    intro hinside
    refine ⟨findSectionFrom_inside zero hname array.le fun p hp => ?_, fun src' hline => ?_⟩
    · exact (hinside p (.inr hp)).trans_lt (length_cstr_lt hnul)
    · rw [findSection, findSection, hline.2.2]
      exact findSectionFrom_congr zero fun p hp => hline.getElem?_eq hnul (hinside p (.inr hp))
  rw [SectionInside, and_iff_left_of_imp hsame, hreads, roundReads_inside_iff hnul]
  by_cases heven : (cstr src).length % 2 = 0
  · exact iff_of_true (.inl heven) (.inl heven)
  · rw [or_iff_right heven, or_iff_right heven]
    have hlength := length_cstr_lt hnul
    rw [array] at hlength
    unfold PATH_MAX at hlength
    refine or_congr Iff.rfl ?_
    unfold rounds
    omega

theorem optionReads_le {option : Str} {p : Nat} (h : OptionReads src option p) :
    p ≤ (cstr src).length := by
  cases h with
  | strlen hp => exact hp
  | first _ => exact Nat.zero_le _
  | copy _ hp => exact hp
  | search _ hp =>
    cases hequals : isOptionName (cstr src) with
    | none =>
      rw [hequals] at hp
      exact hp
    | some i =>
      rw [hequals] at hp
      have hlt : i + 1 ≤ (cstr src).length := strstr_add_length_le hequals
      exact hp.trans (Nat.le_of_succ_le hlt)
  | value _ _ _ hp => exact hp

/-- On the array `FindOption` does what it does with the line. -/
theorem findOptionIn_eq (hnul : 0 ∈ src) (option : Str) (bufferSize : Int) :
    findOptionIn src option bufferSize = findOption (cstr src) option bufferSize := by
  obtain ⟨s, rest, rfl, hs⟩ := List.eq_append_cons_of_mem hnul
  have hfirst : (s ++ 0 :: rest).getD 0 0 = s.getD 0 0 := by
    cases s <;> rfl
  have hcopy : strcpy 1024 (s ++ 0 :: rest) = strcpy 1024 (s ++ [0]) := by
    simp [strcpy, cstr_append hs]
  have hvalue : ∀ i, strstr s (chars ['=']) = some i →
      cstr ((s ++ 0 :: rest).drop (i + 1)) = s.drop (i + 1) := by
    intro i hi
    have hlt : i + 1 ≤ s.length := strstr_add_length_le hi
    rw [List.drop_append_of_le_length hlt]
    exact cstr_append (fun hmem => hs (List.mem_of_mem_drop hmem)) rest
  rw [findOptionIn, findOption, cstr_append hs, if_pos hnul, hfirst, hcopy]
  cases hequals : strstr s (chars ['=']) with
  | none => rfl
  | some i =>
    dsimp only
    rw [hvalue i hequals]

end Reads

section Options

variable {src option : Str} {bufferSize : Int}

theorem lineValue_none_iff (line : Str) : lineValue line = none ↔ '='.toUInt8 ∉ line := by
  rw [lineValue, Option.map_eq_none_iff, strstr_eq_none_iff]
  exact (List.singleton_infix_iff _ _).not

theorem compares_iff (src_length : src.length < PATH_MAX) (option_length : option.length < 1024) :
    Compares option src ↔ src.length ≠ option.length ∧ Plain src :=
  and_congr_left' (rounds_eq_zero_iff src_length option_length).not

/-- `FindOption` returns where there is room for a line that it compares, and a `=` in one that
it takes. -/
theorem findOption_returns_iff (src_length : src.length < PATH_MAX) (src_zero : 0 ∉ src)
    (option_length : option.length < 1024) (option_zero : 0 ∉ option) :
    (∃ r, findOption src option bufferSize = .ok r) ↔
      (Compares option src → src.length < 1024) ∧ (Takes option src → '='.toUInt8 ∈ src) := by
  by_cases hlength : src.length < 1024
  · rw [and_iff_right fun _ => hlength]
    obtain ⟨hnot, code, -, hcall⟩ | ⟨takes, hcall⟩ :=
      findOption_eq hlength src_zero option_length option_zero bufferSize
    · exact iff_of_true ⟨_, hcall⟩ fun takes => absurd takes hnot
    · rw [hcall, forall_prop_of_true takes, ← not_iff_not, ← lineValue_none_iff]
      cases lineValue src <;> simp
  · have htakes : Takes option src → Compares option src := fun takes =>
      (compares_iff src_length option_length).mpr ⟨takes.1, takes.2.1⟩
    by_cases hcompares : Compares option src
    · rw [findOption_overflow hcompares src_zero option_zero fun h => hlength h.1]
      exact iff_of_false (by simp) fun h => hlength (h.1 hcompares)
    · obtain ⟨code, -, hcall⟩ := findOption_skipped hcompares bufferSize
      exact iff_of_true ⟨_, hcall⟩
        ⟨fun h => absurd h hcompares, fun takes => absurd (htakes takes) hcompares⟩

theorem optionInside_iff (array : src.length = PATH_MAX) (hnul : 0 ∈ src)
    (option_length : option.length < 1024) (option_zero : 0 ∉ option) :
    OptionInside src option bufferSize ↔
      (Compares option (cstr src) → (cstr src).length < 1024) ∧
        (Takes option (cstr src) → '='.toUInt8 ∈ cstr src) := by
  have hsame : ∀ src', SameLine src src' →
      findOptionIn src' option bufferSize = findOptionIn src option bufferSize := by
    intro src' hline
    rw [findOptionIn_eq hnul, findOptionIn_eq hline.2.1, hline.2.2]
  have hlength : (cstr src).length < PATH_MAX := array ▸ length_cstr_lt hnul
  rw [OptionInside, and_iff_right fun p => optionReads_le, and_iff_left hsame,
    findOptionIn_eq hnul]
  exact findOption_returns_iff hlength (zero_not_mem_cstr src) option_length option_zero

end Options

section Claims

/-- `FindSection` stays inside a line of even length, a line that ends its rounds, and one
that is not much more than twice as long as the name; `FindOption` stays inside if there is
room for a line that it compares, and a `=` in one that it takes. -/
theorem inside_line_iff (src : List UInt8) (sectionName option : Str) (bufferSize : Int)
    (array : src.length = PATH_MAX) (terminated : 0 ∈ src) (section_zero : 0 ∉ sectionName)
    (section_length : sectionName.length < 1024) (option_zero : 0 ∉ option)
    (option_length : option.length < 1024) :
    (SectionInside src sectionName ↔
      (cstr src).length % 2 = 0 ∨ StopsAtEven (cstr src) ∨
        (sectionName.length ≤ (cstr src).length ∧
          (cstr src).length ≤ 2 * sectionName.length + 1)) ∧
    (OptionInside src option bufferSize ↔
      (Compares option (cstr src) → (cstr src).length < 1024) ∧
        (Takes option (cstr src) → '='.toUInt8 ∈ cstr src)) :=
  ⟨sectionInside_iff array terminated section_zero section_length,
    optionInside_iff array terminated option_length option_zero⟩

/-- The array of the reader with a line in it and zeros behind, for examples. -/
def lineArray (line : Str) : List UInt8 := overwrite (List.replicate PATH_MAX 0) line

theorem length_lineArray (line : Str) (h : line.length < PATH_MAX) :
    (lineArray line).length = PATH_MAX := by
  simp only [lineArray, overwrite, List.length_append, List.length_cons, List.length_drop,
    List.length_replicate]
  omega

theorem zero_mem_lineArray (line : Str) : 0 ∈ lineArray line := by simp [lineArray, overwrite]

/-- The header of a section `s`, looked at for the key `k` too. -/
theorem inside_line_iff_header :
    SectionInside (lineArray (chars ['[', 's', ']'])) (chars ['s']) ∧
      OptionInside (lineArray (chars ['[', 's', ']'])) (chars ['k']) 8 := by
  have hline : cstr (lineArray (chars ['[', 's', ']'])) = chars ['[', 's', ']'] :=
    cstr_overwrite _ (by decide)
  obtain ⟨hsection, hoption⟩ := inside_line_iff (lineArray (chars ['[', 's', ']'])) (chars ['s'])
    (chars ['k']) 8 (length_lineArray _ (by decide)) (zero_mem_lineArray _) (by decide) (by decide)
    (by decide) (by decide)
  rw [hline] at hsection hoption
  exact ⟨hsection.mpr (.inr (.inr (by decide))), hoption.mpr (by decide)⟩

/-- The fourth round for `s` looks behind the NUL of `abcde`, and `k x` has no `=`. -/
theorem not_inside_line :
    (¬ ∀ src sectionName, src.length = PATH_MAX → 0 ∈ src → 0 ∉ sectionName →
      sectionName.length < 1024 → SectionInside src sectionName) ∧
    ¬ ∀ src option bufferSize, src.length = PATH_MAX → 0 ∈ src → 0 ∉ option →
      option.length < 1024 → OptionInside src option bufferSize := by
  constructor
  · intro h
    have hskipped : (chars ['a', 'b', 'c', 'd', 'e']).all (fun c => Skipped c) = true := by decide
    have hline : cstr (lineArray (chars ['a', 'b', 'c', 'd', 'e'])) =
        chars ['a', 'b', 'c', 'd', 'e'] := cstr_overwrite _ (by decide)
    have hinside := h (lineArray (chars ['a', 'b', 'c', 'd', 'e'])) (chars ['s'])
      (length_lineArray _ (by decide)) (zero_mem_lineArray _) (by decide) (by decide)
    rw [sectionInside_iff (length_lineArray _ (by decide)) (zero_mem_lineArray _) (by decide)
      (by decide), hline] at hinside
    rcases hinside with heven | hstops | hlong
    · exact absurd heven (by decide)
    · refine not_stopsAtEven (fun c hc => ?_) hstops
      exact of_decide_eq_true (List.all_eq_true.mp hskipped c hc)
    · exact absurd hlong (by decide)
  · intro h
    have hline : cstr (lineArray (chars ['k', ' ', 'x'])) = chars ['k', ' ', 'x'] :=
      cstr_overwrite _ (by decide)
    have hinside := h (lineArray (chars ['k', ' ', 'x'])) (chars ['k']) 8
      (length_lineArray _ (by decide)) (zero_mem_lineArray _) (by decide) (by decide)
    rw [optionInside_iff (length_lineArray _ (by decide)) (zero_mem_lineArray _) (by decide)
      (by decide), hline] at hinside
    exact absurd hinside (by decide)

end Claims

end Gipcy.Linux.Ini
