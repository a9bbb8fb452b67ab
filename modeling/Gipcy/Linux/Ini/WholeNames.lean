import Gipcy.Linux.Ini.Text

/-! Which lines are taken for the header of a section, or for a line with a key. The
name is looked for anywhere in them. -/
namespace Gipcy.Linux.Ini

open CString Lines

/-- A name that can stand between brackets, or ahead of a `=`. -/
structure Word (name : Str) : Prop where
  nonempty : name ≠ []
  zero : 0 ∉ name
  opening : '['.toUInt8 ∉ name
  closing : ']'.toUInt8 ∉ name
  equals : '='.toUInt8 ∉ name
  space : ' '.toUInt8 ∉ name
  tab : '\t'.toUInt8 ∉ name

/-- What follows the first `[` of a line. -/
def afterBracket (line : Str) : Str := (line.dropWhile (· ≠ '['.toUInt8)).tail

/-- The text between the first `[` of a line and the `]` that follows it. -/
def bracketed (line : Str) : Option Str :=
  if ']'.toUInt8 ∈ afterBracket line then
    some ((afterBracket line).takeWhile (· ≠ ']'.toUInt8))
  else none

/-- `FindSection` returns, and it returns 0 only for a line with this name between its
brackets. -/
def WholeSection (src : List UInt8) (sectionName : Str) : Prop :=
  ∃ r, findSection src sectionName = .ok r ∧ (r = 0 →
    ∃ name, bracketed (cstr src) = some name ∧ strlwr name = strlwr sectionName)

/-- `FindOption` returns, and it returns 0 only for a line with this name ahead of its
first `=`. -/
def WholeOption (src option : Str) (bufferSize : Int) : Prop :=
  ∃ r, findOption src option bufferSize = .ok r ∧ (r.code = 0 →
    ∃ name, optionName src = some name ∧ strlwr (name.rdropWhile blank) = strlwr option)

/-- `FindSection` goes on after this character. -/
def Skipped (c : UInt8) : Prop := c ≠ ';'.toUInt8 ∧ c ≠ 0 ∧ c ≠ '['.toUInt8

instance (c : UInt8) : Decidable (Skipped c) := inferInstanceAs (Decidable (_ ∧ _ ∧ _))

/-- The bracket that round `i` of `FindSection` compares at. -/
def ComparesAt (src : List UInt8) (i : Nat) : Prop :=
  src[2 * i]? = some '['.toUInt8 ∧ ∀ j, j < i → ∃ c, src[2 * j]? = some c ∧ Skipped c

/-- There is room for the copies of what follows the bracket and of the name. -/
def CopiesFit (sectionName : Str) (rest : List UInt8) : Prop :=
  0 ∈ rest ∧ (cstr rest).length < PATH_MAX ∧ sectionName.length < 1024

/-- The test of `FindSection`, on what follows the bracket. -/
def PassesTest (sectionName : Str) (rest : List UInt8) : Prop :=
  strlwr sectionName <:+: strlwr (cstr rest) ∧
    (cstr rest).getD sectionName.length 0 = ']'.toUInt8

/-- The rounds are over ahead of the end of the array, or one of them returns. -/
def RoundsEnd (src : List UInt8) (sectionName : Str) : Prop :=
  rounds (cstr src) sectionName ≤ (src.length + 1) / 2 ∨
    ∃ i c, src[2 * i]? = some c ∧ ¬ Skipped c

/-- No bracket has been passed over ahead of this place, and no NUL. -/
def NothingPassed (src : List UInt8) (place : Nat) : Prop :=
  '['.toUInt8 ∉ src.take place ∧ 0 ∉ src.take place

/-- `FindSection` stays inside its arrays, and where its test passes, this is at the first
bracket of the line and with the name at the front of what follows. -/
structure NameFirst (src : List UInt8) (sectionName : Str) : Prop where
  ends : RoundsEnd src sectionName
  copies : ∀ i, i < rounds (cstr src) sectionName → ComparesAt src i →
    CopiesFit sectionName (src.drop (2 * i + 1))
  front : ∀ i, i < rounds (cstr src) sectionName → ComparesAt src i →
    PassesTest sectionName (src.drop (2 * i + 1)) →
      NothingPassed src (2 * i) ∧ strlwr sectionName <+: strlwr (cstr (src.drop (2 * i + 1)))

/-- The test of `FindSection` passes at another bracket than the first one of the line,
which is at an odd place, or `FindSection` is past the NUL. -/
def PassesElsewhere (src : List UInt8) (sectionName : Str) : Prop :=
  ∃ i, i < rounds (cstr src) sectionName ∧ ComparesAt src i ∧
    PassesTest sectionName (src.drop (2 * i + 1)) ∧ ¬ NothingPassed src (2 * i)

/-- There is room for a line that is compared, and one that is taken has a `=`; if its value
fits, the key is at the front of the line, and after a blank behind it, nothing but blanks
comes before a `=`. -/
def KeyFirst (option : Str) (bufferSize : Int) (src : Str) : Prop :=
  Compares option src → (src.length < 1024 ∧ option.length < 1024) ∧
    (Takes option src → ∃ v, lineValue src = some v ∧ (v.length < bufferSize →
      strlwr option <+: strlwr src ∧ (blank (src.getD option.length 0) →
        ((src.drop option.length).dropWhile blank).head? = some '='.toUInt8)))

section Letters

variable {s t : Str}

/-- A string begins with another, in any case. -/
theorem strlwr_isPrefix_iff :
    strlwr s <+: strlwr t ↔ ∃ front rest, t = front ++ rest ∧ strlwr front = strlwr s := by
  constructor
  · rintro ⟨tail, htail⟩
    obtain ⟨front, rest, rfl, hfront, -⟩ := List.map_eq_append_iff.mp htail.symm
    exact ⟨front, rest, rfl, hfront⟩
  · rintro ⟨front, rest, rfl, hfront⟩
    rw [strlwr_append, hfront]
    exact List.prefix_append _ _

theorem length_eq_of_strlwr (h : strlwr s = strlwr t) : s.length = t.length := by
  rw [← length_strlwr s, h, length_strlwr]

theorem mem_strlwr_iff {c : UInt8}
    (h : c < 'A'.toUInt8 ∨ ('Z'.toUInt8 < c ∧ c < 'a'.toUInt8) ∨ 'z'.toUInt8 < c) :
    c ∈ strlwr s ↔ c ∈ s := by
  simp [strlwr, tolower_eq_iff h]

/-- Case makes no difference to a name. -/
theorem Word.of_strlwr (word : Word t) (h : strlwr s = strlwr t) : Word s := by
  have hno : ∀ {c : UInt8},
      c < 'A'.toUInt8 ∨ ('Z'.toUInt8 < c ∧ c < 'a'.toUInt8) ∨ 'z'.toUInt8 < c → c ∉ t → c ∉ s := by
    intro c hc ht hs
    rw [← mem_strlwr_iff hc, h, mem_strlwr_iff hc] at hs
    exact ht hs
  refine ⟨fun hnil => word.nonempty ?_, hno (.inl (by decide)) word.zero,
    hno (.inr (.inl (by decide))) word.opening, hno (.inr (.inl (by decide))) word.closing,
    hno (.inl (by decide)) word.equals, hno (.inl (by decide)) word.space,
    hno (.inl (by decide)) word.tab⟩
  rw [← List.length_eq_zero_iff, ← length_eq_of_strlwr h, hnil, List.length_nil]

theorem Word.not_blank (word : Word s) : ∀ c ∈ s, ¬ blank c := by
  intro c hc hblank
  rcases of_decide_eq_true hblank with rfl | rfl
  · exact word.space hc
  · exact word.tab hc

end Letters

section Sections

variable {src : List UInt8} {sectionName line : Str}

theorem matchSection_ok_iff (zero : 0 ∉ sectionName) (rest : List UInt8) :
    (∃ r, matchSection sectionName rest = .ok r) ↔ CopiesFit sectionName rest := by
  rw [matchSection_eq zero]
  split
  · rename_i hcopied
    exact iff_of_true ⟨_, rfl⟩ hcopied
  · rename_i hcopied
    exact iff_of_false (by simp) hcopied

theorem matchSection_zero_iff (zero : 0 ∉ sectionName) (rest : List UInt8) :
    matchSection sectionName rest = .ok 0 ↔
      CopiesFit sectionName rest ∧ PassesTest sectionName rest := by
  rw [matchSection_eq zero]
  split
  · rename_i hcopied
    rw [and_iff_right (show CopiesFit sectionName rest from hcopied)]
    split
    · rename_i hfound
      exact iff_of_true rfl hfound
    · rename_i hfound
      exact iff_of_false (by simp) hfound
  · rename_i hcopied
    exact iff_of_false (by simp) fun h => hcopied h.1

theorem comparesAt_nil (i : Nat) : ¬ ComparesAt [] i := by
  rintro ⟨h, -⟩
  cases h

theorem comparesAt_zero {c : UInt8} {rest : List UInt8} :
    ComparesAt (c :: rest) 0 ↔ c = '['.toUInt8 := by
  simp [ComparesAt]

theorem comparesAt_succ {c : UInt8} {rest : List UInt8} {i : Nat} :
    ComparesAt (c :: rest) (i + 1) ↔ Skipped c ∧ ComparesAt rest.tail i := by
  have hplace : ∀ j, (c :: rest)[2 * (j + 1)]? = rest.tail[2 * j]? := fun j => by
    rw [List.getElem?_tail]
    rfl
  have hfirst : (∃ d, (c :: rest)[2 * 0]? = some d ∧ Skipped d) ↔ Skipped c := by simp
  simp only [ComparesAt, Nat.forall_lt_succ_left, hplace, hfirst]
  exact and_left_comm

/-- A round that does not return leaves the rest to the next one. -/
theorem findSectionFrom_cons {rounds i : Nat} (hi : i < rounds) (c : UInt8) (rest : List UInt8) :
    findSectionFrom sectionName rounds i (c :: rest) =
      (sectionRound sectionName c rest).getD
        (findSectionFrom sectionName rounds (i + 1) rest.tail) := by
  cases rest <;> simp [findSectionFrom, hi]

theorem findSectionFrom_over {rounds i : Nat} (hi : ¬ i < rounds) (src : List UInt8) :
    findSectionFrom sectionName rounds i src = .ok (-4) := by
  rcases src with _ | ⟨c, _ | ⟨d, rest⟩⟩ <;> simp [findSectionFrom, hi]

theorem sectionRound_skipped {c : UInt8} (h : Skipped c) (rest : List UInt8) :
    sectionRound sectionName c rest = none := by
  rw [sectionRound, if_neg h.1, if_neg h.2.1, if_neg h.2.2]

theorem sectionRound_returns (zero : 0 ∉ sectionName) {c : UInt8} (h : ¬ Skipped c)
    (rest : List UInt8) : ∃ r, sectionRound sectionName c rest = some r ∧
      ((∃ v, r = .ok v) ↔ (c = '['.toUInt8 → CopiesFit sectionName rest)) ∧
      (r = .ok 0 ↔ c = '['.toUInt8 ∧ CopiesFit sectionName rest ∧ PassesTest sectionName rest) := by
  by_cases hcomment : c = ';'.toUInt8
  · subst hcomment
    have hother : ';'.toUInt8 ≠ '['.toUInt8 := by decide
    exact ⟨.ok (-1), rfl, iff_of_true ⟨_, rfl⟩ fun h => absurd h hother,
      iff_of_false (by simp) fun h => hother h.1⟩
  by_cases hempty : c = 0
  · subst hempty
    have hother : (0 : UInt8) ≠ '['.toUInt8 := by decide
    exact ⟨.ok (-2), rfl, iff_of_true ⟨_, rfl⟩ fun h => absurd h hother,
      iff_of_false (by simp) fun h => hother h.1⟩
  have hopen : c = '['.toUInt8 := by
    by_contra hother
    exact h ⟨hcomment, hempty, hother⟩
  subst hopen
  refine ⟨_, rfl, (matchSection_ok_iff zero rest).trans ⟨fun h _ => h, fun h => h rfl⟩, ?_⟩
  exact (matchSection_zero_iff zero rest).trans (and_iff_right rfl).symm

/-- Only the first of the places is compared where `FindSection` does not go on. -/
theorem exists_comparesAt_of_stops {c : UInt8} {rest : List UInt8} (h : ¬ Skipped c)
    {P : Nat → Prop} : (∃ j, ComparesAt (c :: rest) j ∧ P j) ↔ c = '['.toUInt8 ∧ P 0 := by
  constructor
  · rintro ⟨j, hcompares, hp⟩
    cases j with
    | zero => exact ⟨comparesAt_zero.mp hcompares, hp⟩
    | succ j => exact absurd (comparesAt_succ.mp hcompares).1 h
  · rintro ⟨hopen, hp⟩
    exact ⟨0, comparesAt_zero.mpr hopen, hp⟩

/-- Otherwise it is one of those of the next rounds. -/
theorem exists_comparesAt_of_skipped {c : UInt8} {rest : List UInt8} (h : Skipped c)
    {P : Nat → Prop} :
    (∃ j, ComparesAt (c :: rest) j ∧ P j) ↔ ∃ j, ComparesAt rest.tail j ∧ P (j + 1) := by
  constructor
  · rintro ⟨j, hcompares, hp⟩
    cases j with
    | zero => exact absurd (comparesAt_zero.mp hcompares) h.2.2
    | succ j => exact ⟨j, (comparesAt_succ.mp hcompares).2, hp⟩
  · rintro ⟨j, hcompares, hp⟩
    exact ⟨j + 1, comparesAt_succ.mpr ⟨h, hcompares⟩, hp⟩

/-- `FindSection` returns 0 from the first bracket at the places it looks at. -/
theorem findSectionFrom_zero_iff (zero : 0 ∉ sectionName) (rounds i : Nat) (src : List UInt8) :
    findSectionFrom sectionName rounds i src = .ok 0 ↔
      ∃ j, ComparesAt src j ∧ i + j < rounds ∧ CopiesFit sectionName (src.drop (2 * j + 1)) ∧
        PassesTest sectionName (src.drop (2 * j + 1)) := by
  induction hlength : src.length using Nat.strong_induction_on generalizing i src with
  | _ n ih =>
    by_cases hi : i < rounds
    swap
    · -- The loop is over: it returns -4.
      rw [findSectionFrom_over hi]
      apply iff_of_false
      · intro h
        cases h
      · rintro ⟨j, -, hj, -⟩
        omega
    cases src with
    | nil =>
      apply iff_of_false
      · intro h
        simp [findSectionFrom, hi] at h
      · rintro ⟨j, hj, -⟩
        exact comparesAt_nil j hj
    | cons c rest =>
      rw [findSectionFrom_cons hi]
      by_cases hskipped : Skipped c
      · have hshorter : rest.tail.length < n := by
          rw [List.length_cons] at hlength
          rw [List.length_tail]
          omega
        have hround : ∀ j, i + 1 + j = i + (j + 1) ∧
            rest.tail.drop (2 * j + 1) = (c :: rest).drop (2 * (j + 1) + 1) := by
          intro j
          rw [List.drop_tail]
          exact ⟨by omega, rfl⟩
        rw [sectionRound_skipped hskipped, Option.getD_none, ih _ hshorter _ _ rfl,
          exists_comparesAt_of_skipped hskipped]
        simp only [hround]
      · obtain ⟨r, hreturns, -, hzero⟩ := sectionRound_returns zero hskipped rest
        rw [hreturns, Option.getD_some, hzero, exists_comparesAt_of_stops hskipped]
        exact and_congr_right fun _ => (and_iff_right hi).symm

theorem forall_comparesAt_of_skipped {c : UInt8} {rest : List UInt8} (h : Skipped c)
    {P : Nat → Prop} :
    (∀ j, ComparesAt (c :: rest) j → P j) ↔ ∀ j, ComparesAt rest.tail j → P (j + 1) := by
  constructor
  · exact fun hall j hcompares => hall (j + 1) (comparesAt_succ.mpr ⟨h, hcompares⟩)
  · intro hall j hcompares
    cases j with
    | zero => exact absurd (comparesAt_zero.mp hcompares) h.2.2
    | succ j => exact hall j (comparesAt_succ.mp hcompares).2

theorem exists_stop_of_skipped {c : UInt8} {rest : List UInt8} (h : Skipped c) :
    (∃ j d, (c :: rest)[2 * j]? = some d ∧ ¬ Skipped d) ↔
      ∃ j d, rest.tail[2 * j]? = some d ∧ ¬ Skipped d := by
  simp only [List.getElem?_tail]
  constructor
  · rintro ⟨j, d, hd, hstop⟩
    cases j with
    | zero => exact absurd (Option.some.inj hd ▸ h) hstop
    | succ j => exact ⟨j, d, hd, hstop⟩
  · rintro ⟨j, d, hd, hstop⟩
    exact ⟨j + 1, d, hd, hstop⟩

/-- `FindSection` returns where its rounds end and its copies fit. -/
theorem findSectionFrom_ok_iff (zero : 0 ∉ sectionName) (rounds i : Nat) (src : List UInt8) :
    (∃ r, findSectionFrom sectionName rounds i src = .ok r) ↔
      (rounds ≤ i + (src.length + 1) / 2 ∨ ∃ j c, src[2 * j]? = some c ∧ ¬ Skipped c) ∧
        ∀ j, ComparesAt src j → i + j < rounds →
          CopiesFit sectionName (src.drop (2 * j + 1)) := by
  induction hlength : src.length using Nat.strong_induction_on generalizing i src with
  | _ n ih =>
    by_cases hi : i < rounds
    swap
    · rw [findSectionFrom_over hi]
      exact iff_of_true ⟨_, rfl⟩ ⟨.inl (by omega), fun j _ hj => by omega⟩
    cases src with
    | nil =>
      rw [List.length_nil] at hlength
      subst hlength
      apply iff_of_false
      · simp [findSectionFrom, hi]
      · rintro ⟨hover | ⟨j, c, hc, -⟩, -⟩
        · omega
        · cases hc
    | cons c rest =>
      rw [findSectionFrom_cons hi]
      rw [List.length_cons] at hlength
      by_cases hskipped : Skipped c
      · have htail : rest.tail.length = rest.length - 1 := List.length_tail
        have hdrop : ∀ j, rest.tail.drop (2 * j + 1) = (c :: rest).drop (2 * (j + 1) + 1) := by
          intro j
          rw [List.drop_tail]
          rfl
        rw [sectionRound_skipped hskipped, Option.getD_none, ih _ (by omega) _ _ rfl,
          exists_stop_of_skipped hskipped, forall_comparesAt_of_skipped hskipped, htail]
        simp only [hdrop]
        refine and_congr (or_congr (by omega) Iff.rfl) (forall₂_congr fun j _ => ?_)
        rw [Nat.add_assoc, Nat.add_comm 1 j]
      · obtain ⟨r, hreturns, hok, -⟩ := sectionRound_returns zero hskipped rest
        rw [hreturns, Option.getD_some, hok]
        constructor
        · intro hcopies
          refine ⟨.inr ⟨0, c, rfl, hskipped⟩, fun j hcompares _ => ?_⟩
          cases j with
          | zero => exact hcopies (comparesAt_zero.mp hcompares)
          | succ j => exact absurd (comparesAt_succ.mp hcompares).1 hskipped
        · exact fun h hopen => h.2 0 (comparesAt_zero.mpr hopen) hi

/-- A name and the other bracket follow the first bracket of the line. -/
theorem bracketed_iff (word : Word sectionName) :
    (∃ name, bracketed line = some name ∧ strlwr name = strlwr sectionName) ↔
      strlwr (sectionName ++ [']'.toUInt8]) <+: strlwr (afterBracket line) := by
  rw [bracketed, strlwr_isPrefix_iff]
  constructor
  · rintro ⟨name, hname, hlower⟩
    obtain ⟨hmem, htake⟩ := Option.ite_none_right_eq_some.mp hname
    obtain ⟨front, rest, hline, hfront⟩ := List.eq_append_cons_of_mem hmem
    rw [hline, takeWhile_ne hfront] at htake
    cases htake
    refine ⟨name ++ [']'.toUInt8], rest, by simp [hline], ?_⟩
    rw [strlwr_append, strlwr_append, hlower]
  · rintro ⟨front, rest, hline, hfront⟩
    rw [strlwr_append] at hfront
    obtain ⟨name, close, rfl, hlower, hclose⟩ := List.map_eq_append_iff.mp hfront
    obtain ⟨c, rfl, hc⟩ := List.map_eq_singleton_iff.mp hclose
    obtain rfl := tolower_eq_close.mp hc
    have hname := (word.of_strlwr hlower).closing
    rw [List.append_assoc, List.singleton_append] at hline
    refine ⟨name, ?_, hlower⟩
    rw [hline, takeWhile_ne hname, if_pos (by simp)]

/-- What is compared is what follows the first bracket, if nothing was passed over. -/
theorem afterBracket_eq {i : Nat} (hopen : src[i]? = some '['.toUInt8)
    (hfirst : '['.toUInt8 ∉ src.take i) (hline : 0 ∉ src.take i) :
    afterBracket (cstr src) = cstr (src.drop (i + 1)) := by
  have hsrc : src = src.take i ++ '['.toUInt8 :: src.drop (i + 1) := by
    obtain ⟨hi, hget⟩ := List.getElem?_eq_some_iff.mp hopen
    rw [← hget, List.getElem_cons_drop, List.take_append_drop]
  have hcstr : cstr src = src.take i ++ '['.toUInt8 :: cstr (src.drop (i + 1)) := by
    conv_lhs => rw [hsrc]
    rw [cstr_append_cstr hline]
    rfl
  rw [afterBracket, hcstr, dropWhile_ne hfirst, List.tail_cons]

theorem findSection_ok_iff (zero : 0 ∉ sectionName) :
    (∃ r, findSection src sectionName = .ok r) ↔ RoundsEnd src sectionName ∧
      ∀ i, i < rounds (cstr src) sectionName → ComparesAt src i →
        CopiesFit sectionName (src.drop (2 * i + 1)) := by
  simp only [findSection, findSectionFrom_ok_iff zero, Nat.zero_add]
  exact and_congr_right fun _ => forall_congr' fun i => forall_comm

theorem findSection_zero_iff (zero : 0 ∉ sectionName) :
    findSection src sectionName = .ok 0 ↔ ∃ i, i < rounds (cstr src) sectionName ∧
      ComparesAt src i ∧ CopiesFit sectionName (src.drop (2 * i + 1)) ∧
        PassesTest sectionName (src.drop (2 * i + 1)) := by
  simp only [findSection, findSectionFrom_zero_iff zero, Nat.zero_add]
  exact exists_congr fun i => and_left_comm

/-- The bracket that closes what is compared is behind the name. -/
theorem PassesTest.append_prefix_iff {rest : List UInt8} (h : PassesTest sectionName rest) :
    strlwr (sectionName ++ [']'.toUInt8]) <+: strlwr (cstr rest) ↔
      strlwr sectionName <+: strlwr (cstr rest) := by
  constructor
  · intro hname
    rw [strlwr_append] at hname
    exact (List.prefix_append _ _).trans hname
  · intro hname
    obtain ⟨front, tail, hline, hfront⟩ := strlwr_isPrefix_iff.mp hname
    have hclose := h.2
    rw [hline, List.getD_append_right _ _ _ _ (length_eq_of_strlwr hfront).le,
      length_eq_of_strlwr hfront, Nat.sub_self] at hclose
    cases tail with
    | nil => cases hclose
    | cons c tail =>
      obtain rfl : c = ']'.toUInt8 := hclose
      refine strlwr_isPrefix_iff.mpr ⟨front ++ [']'.toUInt8], tail, by simp [hline], ?_⟩
      rw [strlwr_append, strlwr_append, hfront]

/-- At the first bracket the line has the name iff it is at the front of what is compared. -/
theorem PassesTest.bracketed_iff (word : Word sectionName) {i : Nat} (hcompares : ComparesAt src i)
    (passes : PassesTest sectionName (src.drop (2 * i + 1))) (first : NothingPassed src (2 * i)) :
    (∃ name, bracketed (cstr src) = some name ∧ strlwr name = strlwr sectionName) ↔
      strlwr sectionName <+: strlwr (cstr (src.drop (2 * i + 1))) := by
  rw [Ini.bracketed_iff word, afterBracket_eq hcompares.1 first.1 first.2, passes.append_prefix_iff]

theorem wholeSection_of_nameFirst (word : Word sectionName) (h : NameFirst src sectionName) :
    WholeSection src sectionName := by
  obtain ⟨r, hr⟩ := (findSection_ok_iff word.zero).mpr ⟨h.ends, h.copies⟩
  refine ⟨r, hr, ?_⟩
  rintro rfl
  obtain ⟨i, hi, hcompares, -, passes⟩ := (findSection_zero_iff word.zero).mp hr
  obtain ⟨first, hname⟩ := h.front i hi hcompares passes
  exact (passes.bracketed_iff word hcompares first).mpr hname

/-- Otherwise the result is about another bracket than that of the line. -/
theorem nameFirst_of_wholeSection (word : Word sectionName) (h : WholeSection src sectionName) :
    NameFirst src sectionName ∨ PassesElsewhere src sectionName := by
  obtain ⟨r, hr, hwhole⟩ := h
  obtain ⟨hends, hcopies⟩ := (findSection_ok_iff word.zero).mp ⟨r, hr⟩
  by_cases helsewhere : PassesElsewhere src sectionName
  · exact .inr helsewhere
  refine .inl ⟨hends, hcopies, fun i hi hcompares passes => ?_⟩
  have first : NothingPassed src (2 * i) := by
    by_contra hpassed
    exact helsewhere ⟨i, hi, hcompares, passes, hpassed⟩
  have hzero := (findSection_zero_iff word.zero).mpr
    ⟨i, hi, hcompares, hcopies i hi hcompares, passes⟩
  have hname := hwhole (Except.ok.inj (hr.symm.trans hzero))
  exact ⟨first, (passes.bracketed_iff word hcompares first).mp hname⟩

end Sections

section Options

variable {src option : Str} {bufferSize : Int}

/-- Blanks behind a name are not part of it. -/
theorem rdropWhile_blanks {name blanks : Str} (hname : ∀ c ∈ name, ¬ blank c)
    (hblanks : ∀ c ∈ blanks, blank c) : (name ++ blanks).rdropWhile blank = name := by
  have hrev : ∀ c ∈ blanks.reverse, blank c := fun c hc => hblanks c (List.mem_reverse.mp hc)
  rw [List.rdropWhile, List.reverse_append, List.dropWhile_append_of_pos hrev,
    List.dropWhile_eq_self_iff.mpr, List.reverse_reverse]
  intro hpos
  exact hname _ (List.mem_reverse.mp (List.getElem_mem hpos))

/-- The text ahead of the first `=` is the key and blanks. -/
theorem optionName_whole_iff (word : Word option) :
    (∃ name, optionName src = some name ∧ strlwr (name.rdropWhile blank) = strlwr option) ↔
      strlwr option <+: strlwr src ∧
        ((src.drop option.length).dropWhile blank).head? = some '='.toUInt8 := by
  have hequals : ¬ blank '='.toUInt8 := by decide
  constructor
  · rintro ⟨text, htext, hlower⟩
    obtain ⟨-, rest, rfl⟩ := optionName_iff.mp htext
    have hblanks : ∀ c ∈ text.rtakeWhile blank, blank c := fun c => List.mem_rtakeWhile_imp
    have hsrc : text ++ '='.toUInt8 :: rest =
        text.rdropWhile blank ++ (text.rtakeWhile blank ++ '='.toUInt8 :: rest) := by
      rw [← List.append_assoc, List.rdropWhile_append_rtakeWhile]
    rw [hsrc]
    refine ⟨strlwr_isPrefix_iff.mpr ⟨_, _, rfl, hlower⟩, ?_⟩
    rw [← length_eq_of_strlwr hlower, List.drop_left, List.dropWhile_append_of_pos hblanks,
      List.dropWhile_cons_of_neg hequals, List.head?_cons]
  · rintro ⟨hfront, hhead⟩
    obtain ⟨name, rest, rfl, hlower⟩ := strlwr_isPrefix_iff.mp hfront
    rw [← length_eq_of_strlwr hlower, List.drop_left] at hhead
    obtain ⟨text, htext⟩ := List.head?_eq_some_iff.mp hhead
    have hblanks : ∀ c ∈ rest.takeWhile blank, blank c := fun c => List.mem_takeWhile_imp
    have hword := word.of_strlwr hlower
    refine ⟨name ++ rest.takeWhile blank, optionName_iff.mpr ⟨?_, text, ?_⟩, ?_⟩
    · rw [List.mem_append, not_or]
      exact ⟨hword.equals, fun hmem => hequals (hblanks _ hmem)⟩
    · rw [← htext, List.append_assoc, List.takeWhile_append_dropWhile]
    · rw [rdropWhile_blanks hword.not_blank hblanks, hlower]

/-- A `=` behind the key is the first one. -/
theorem Takes.equals_iff (takes : Takes option src) :
    ((src.drop option.length).dropWhile blank).head? = some '='.toUInt8 ↔
      (blank (src.getD option.length 0) →
        ((src.drop option.length).dropWhile blank).head? = some '='.toUInt8) := by
  refine ⟨fun h _ => h, fun h => ?_⟩
  by_cases hblank : blank (src.getD option.length 0)
  · exact h hblank
  have hequals : src.getD option.length 0 = '='.toUInt8 := by
    rcases takes.2.2.2 with hspace | hequals | htab
    · exact absurd (decide_eq_true (.inl hspace)) hblank
    · exact hequals
    · exact absurd (decide_eq_true (.inr htab)) hblank
  have hin : option.length < src.length := by
    by_contra hend
    rw [List.getD_eq_default _ _ (by omega)] at hequals
    cases hequals
  rw [List.getD_eq_getElem _ _ hin] at hequals hblank
  rw [List.drop_eq_getElem_cons hin, List.dropWhile_cons_of_neg hblank, List.head?_cons, hequals]

theorem wholeOption_iff (word : Word option) (zero : 0 ∉ src) :
    WholeOption src option bufferSize ↔ KeyFirst option bufferSize src := by
  have hreturns : ∀ {r}, findOption src option bufferSize = .ok r →
      (WholeOption src option bufferSize ↔ (r.code = 0 → ∃ name, optionName src = some name ∧
        strlwr (name.rdropWhile blank) = strlwr option)) := by
    intro r hr
    constructor
    · rintro ⟨r', hr', hwhole⟩
      cases hr.symm.trans hr'
      exact hwhole
    · exact fun hwhole => ⟨r, hr, hwhole⟩
  have hstops : ∀ {e}, findOption src option bufferSize = .error e →
      ¬ WholeOption src option bufferSize := by
    rintro e he ⟨r, hr, -⟩
    cases he.symm.trans hr
  rw [KeyFirst]
  by_cases hcompares : Compares option src
  swap
  · obtain ⟨code, hcode, hcall⟩ := findOption_skipped hcompares bufferSize
    exact iff_of_true ((hreturns hcall).mpr fun h => absurd h hcode) fun h => absurd h hcompares
  rw [forall_prop_of_true hcompares]
  by_cases hlengths : src.length < 1024 ∧ option.length < 1024
  swap
  · exact iff_of_false (hstops (findOption_overflow hcompares zero word.zero hlengths bufferSize))
      fun h => hlengths h.1
  rw [and_iff_right hlengths]
  obtain ⟨hnot, code, hcode, hcall⟩ | ⟨takes, hcall⟩ :=
    findOption_eq hlengths.1 zero hlengths.2 word.zero bufferSize
  · exact iff_of_true ((hreturns hcall).mpr fun h => absurd h hcode) fun h => absurd h hnot
  rw [forall_prop_of_true takes]
  cases hvalue : lineValue src with
  | none =>
    rw [hvalue] at hcall
    exact iff_of_false (hstops hcall) (by simp)
  | some v =>
    simp only [hvalue] at hcall
    simp only [Option.some.injEq, exists_eq_left']
    by_cases hfits : bufferSize ≥ v.length + 1
    · rw [if_pos hfits] at hcall
      rw [hreturns hcall, forall_prop_of_true rfl, forall_prop_of_true (by omega),
        optionName_whole_iff word]
      exact and_congr_right fun _ => takes.equals_iff
    · rw [if_neg hfits] at hcall
      exact iff_of_true ((hreturns hcall).mpr fun h => absurd h (by decide)) fun h => by omega

end Options

section Lines

variable {sectionName option : Str}

/-- Both helpers match whole names on the lines where they stay inside their arrays and
their tests pass at the front only. Otherwise `FindOption` does not, and `FindSection` has
passed over the first bracket of the line, or does not either. -/
theorem whole_names_iff (hsection : Word sectionName) (hoption : Word option)
    (src : List UInt8) (bufferSize : Int) :
    (NameFirst src sectionName → WholeSection src sectionName) ∧
      (WholeSection src sectionName →
        NameFirst src sectionName ∨ PassesElsewhere src sectionName) ∧
      (WholeOption (cstr src) option bufferSize ↔ KeyFirst option bufferSize (cstr src)) :=
  ⟨wholeSection_of_nameFirst hsection, nameFirst_of_wholeSection hsection,
    wholeOption_iff hoption (zero_not_mem_cstr src)⟩

/-- The line `[s]`, and `k=1`. -/
theorem whole_names_words : WholeSection (chars ['[', 's', ']'] ++ [0]) (chars ['s']) ∧
    WholeOption (cstr (chars ['k', '=', '1'] ++ [0])) (chars ['k']) 8 := by
  have hs : Word (chars ['s']) := by constructor <;> decide
  have hk : Word (chars ['k']) := by constructor <;> decide
  obtain ⟨hsection, -, -⟩ := whole_names_iff hs hk (chars ['[', 's', ']'] ++ [0]) 8
  obtain ⟨-, -, hoption⟩ := whole_names_iff hs hk (chars ['k', '=', '1'] ++ [0]) 8
  have hfirst : ∀ i, ComparesAt (chars ['[', 's', ']'] ++ [0]) i → i = 0 := by
    intro i hcompares
    cases i with
    | zero => rfl
    | succ i => exact absurd (comparesAt_succ.mp hcompares).1 (by decide)
  refine ⟨hsection ⟨.inl (by decide), fun i _ hcompares => ?_, fun i _ hcompares _ => ?_⟩,
    hoption.mpr fun _ => ⟨by decide, fun _ => ⟨chars ['1'], by decide, fun _ => by decide⟩⟩⟩
  · obtain rfl := hfirst i hcompares
    exact ⟨by decide, by decide, by decide⟩
  · obtain rfl := hfirst i hcompares
    exact ⟨⟨by decide, by decide⟩, by decide⟩

/-- `[xy]yx` is taken for the header of `yx`, and `a=k` for a line with the key `k`. -/
theorem not_whole_names :
    (¬ ∀ (src : List UInt8) (sectionName : Str), 0 ∈ src → Word sectionName →
      WholeSection src sectionName) ∧
    ¬ ∀ (src : List UInt8) (option : Str) (bufferSize : Int), 0 ∈ src → Word option →
      WholeOption (cstr src) option bufferSize := by
  constructor
  · intro h
    obtain ⟨r, hr, hwhole⟩ := h (chars ['[', 'x', 'y', ']', 'y', 'x'] ++ [0])
      (chars ['y', 'x']) (by decide) (by constructor <;> decide)
    have hzero : findSection (chars ['[', 'x', 'y', ']', 'y', 'x'] ++ [0]) (chars ['y', 'x']) =
        .ok 0 := by decide
    obtain ⟨name, hname, hlower⟩ := hwhole (Except.ok.inj (hr.symm.trans hzero))
    obtain rfl : chars ['x', 'y'] = name := Option.some.inj hname
    exact absurd hlower (by decide)
  · intro h
    obtain ⟨r, hr, hwhole⟩ := h (chars ['a', '=', 'k'] ++ [0]) (chars ['k']) 2 (by decide)
      (by constructor <;> decide)
    have hzero : findOption (cstr (chars ['a', '=', 'k'] ++ [0])) (chars ['k']) 2 =
        .ok ⟨0, false, chars ['k'] ++ [0]⟩ := by decide
    cases hr.symm.trans hzero
    obtain ⟨name, hname, hlower⟩ := hwhole rfl
    obtain rfl : chars ['a'] = name := Option.some.inj hname
    exact absurd hlower (by decide)

end Lines

end Gipcy.Linux.Ini
