import Gipcy.Linux.Ini.Read
import Gipcy.Linux.Ini.Store

/-! A value is written to an INI file and read from it again. -/
namespace Gipcy.Linux.Ini

open CString Lines

/-- A character of a letter or a digit; letters outside ASCII have bytes from 128 on. -/
def alnum (c : UInt8) : Bool :=
  ('A'.toUInt8 ≤ c ∧ c ≤ 'Z'.toUInt8) ∨ ('a'.toUInt8 ≤ c ∧ c ≤ 'z'.toUInt8) ∨
    ('0'.toUInt8 ≤ c ∧ c ≤ '9'.toUInt8) ∨ 128 ≤ c

/-- The names of sections and keys. -/
def Name (name : Str) : Prop := name.all alnum = true

instance (name : Str) : Decidable (Name name) := inferInstanceAs (Decidable (_ = _))

def control (c : UInt8) : Bool := c < 32 ∨ c = 127

/-- The values of which the round trip is expected. -/
structure Value (value : Str) : Prop where
  nonempty : value ≠ []
  printable : value.any control = false
  first : value.head? ≠ some ' '.toUInt8
  length : value.length < 500

/-- The value is read back, whatever the arguments that do not matter are. -/
def ReadsBack (lpAppName lpKeyName value : Str) (lpDefault : Option Str) (out : Nat → UInt8)
    (nSize : Int) (file : Option (List UInt8)) (str : List UInt8) : Prop :=
  ∃ out', getPrivateProfileString (some lpAppName) (some lpKeyName) lpDefault out nSize file str =
    .ok (1, out') ∧ Holds out' value

/-- `Opens section str lines inside`: as the lines are read to `str` one by one,
`FindSection` accepts one, and `inside` are the lines after it. -/
inductive Opens (lpAppName : Str) : List UInt8 → List Str → List Str → Prop where
  | here {str l inside} : findSection (overwrite str l) lpAppName = .ok 0 →
      Opens lpAppName str (l :: inside) inside
  | later {str l r lines inside} : findSection (overwrite str l) lpAppName = .ok r → r ≠ 0 →
      Opens lpAppName (overwrite str l) lines inside → Opens lpAppName str (l :: lines) inside

/-- Of the lines that `FindOption` takes for the key, those whose value does not
fit are passed over, and the first other one, if there is one, has the value. -/
inductive Leaves (lpKeyName value : Str) (nSize : Int) : List Str → Prop where
  | nil : Leaves lpKeyName value nSize []
  | passed {l lines} : Passed lpKeyName nSize l → Leaves lpKeyName value nSize lines →
      Leaves lpKeyName value nSize (l :: lines)
  | same {l lines} : Takes lpKeyName l → lineValue l = some value →
      Leaves lpKeyName value nSize (l :: lines)

/-- Of the lines that `FindOption` takes for the key, the first whose value fits has the
value. -/
inductive Gives (lpKeyName value : Str) (nSize : Int) : List Str → Prop where
  | passed {l lines} : Passed lpKeyName nSize l → Gives lpKeyName value nSize lines →
      Gives lpKeyName value nSize (l :: lines)
  | same {l lines} : Takes lpKeyName l → lineValue l = some value →
      Gives lpKeyName value nSize (l :: lines)

/-- The value has nothing that begins a comment. -/
def Uncommented (value : Str) : Prop :=
  ';'.toUInt8 ∉ value ∧ '#'.toUInt8 ∉ value ∧ ¬ chars ['/', '/'] <:+: value

/-- The call ends with the value in the memory of the caller. -/
def Stores (value : Str) (r : Except Stop (Int × ReadState)) : Prop :=
  ∃ s, r = .ok (1, s) ∧ s.setDefault = false ∧ Holds s.out value

section Lines

variable {lpAppName lpKeyName value l : Str} {nSize : Int} {s : ReadState}

/-- The default is not copied over a value that was found. -/
theorem readsBack_iff {lpDefault : Option Str} {out : Nat → UInt8} {file str : List UInt8} :
    ReadsBack lpAppName lpKeyName value lpDefault out nSize (some file) str ↔
      Stores value (readLoop (some lpAppName) (some lpKeyName) nSize false
        (getlineAll PATH_MAX file) ⟨str, true, 0, out, 0⟩) := by
  constructor
  · rintro ⟨out', hget, hholds⟩
    obtain ⟨⟨found, t⟩, hloop, hget⟩ := ok_of_bind hget
    obtain ⟨rfl, rfl⟩ : found = 1 ∧ _ = out' := by
      simpa using Except.ok.inj hget
    have hset := readLoop_setDefault hloop
    refine ⟨t, hloop, hset, ?_⟩
    simpa [hset] using hholds
  · rintro ⟨t, hloop, hset, hholds⟩
    refine ⟨t.out, ?_, hholds⟩
    show (readLoop _ _ _ _ _ _ >>= _) = _
    rw [hloop]
    simp [hset, bind, Except.bind]

/-- The text after the first `=` of a line with the key in front. -/
theorem lineValue_optionLine (hkey : '='.toUInt8 ∉ lpKeyName) :
    lineValue (optionLine lpKeyName value) = some (optionValue value) := by
  have hfirst := strstr_append hkey value
  have hdrop : (lpKeyName ++ '='.toUInt8 :: value).drop (lpKeyName.length + 1) = value := by
    simp
  rw [lineValue, optionLine_eq, show chars ['='] = ['='.toUInt8] from rfl, hfirst, Option.map_some,
    hdrop]

theorem uncommented_optionValue (val : Str) : Uncommented (optionValue val) := by
  have hno : ∀ t ∈ aSymb, ¬ t <:+: optionValue val := fun t ht =>
    not_infix_cutAll nil_not_mem_aSymb ht
  exact ⟨fun h => hno (chars [';']) (by decide) ((List.singleton_infix_iff _ _).mpr h),
    fun h => hno (chars ['#']) (by decide) ((List.singleton_infix_iff _ _).mpr h),
    hno (chars ['/', '/']) (by decide)⟩

theorem uncommented_lineValue {v : Str} (h : lineValue l = some v) : Uncommented v := by
  obtain ⟨i, -, rfl⟩ := Option.map_eq_some_iff.mp h
  exact uncommented_optionValue _

/-- The inner loop, on some lines and an end that stores nothing. -/
theorem innerLoop_stores_iff {inside : List Str} {rest : List Getline} {app : Option Str}
    (hlines : ∀ l ∈ inside, TextLine l) (key_zero : 0 ∉ lpKeyName)
    (key_length : lpKeyName.length < 1024) (value_zero : 0 ∉ value)
    (hsize : (value.length : Int) < nSize)
    (hrest : ∀ s : ReadState, ¬ Stores value (readLoop app (some lpKeyName) nSize true rest s))
    (hpos : s.pos = 0) :
    Stores value (readLoop app (some lpKeyName) nSize true (getlinesOf inside ++ rest) s) ↔
      Gives lpKeyName value nSize inside := by
  induction inside generalizing s with
  | nil => exact iff_of_false (hrest s) fun h => by cases h
  | cons l inside ih =>
    obtain ⟨hl, hinside⟩ := List.forall_mem_cons.mp hlines
    have hread := readRound_line app nSize hl key_zero key_length s
    generalize hround : readRound _ _ _ _ _ = r at hread
    cases hread with
    | @passed t hpassed ht =>
      rw [readLoop_go _ _ hround, ih hinside (ht.trans hpos)]
      refine ⟨.passed hpassed, fun h => ?_⟩
      cases h with
      | passed _ h => exact h
      | same htakes hvalue =>
        obtain ⟨v, hv, hlong⟩ := hpassed htakes
        cases Option.some.inj (hvalue.symm.trans hv)
        omega
    | @taken v t htakes hvalue hfits hset hout =>
      rw [readLoop_done _ _ hround]
      have hholds : Holds t.out value ↔ v = value := by
        rw [hout, hpos]
        exact holds_store_iff (zero_not_mem_lineValue hl.zero hvalue) value_zero
      constructor
      · rintro ⟨t', ht', -, hvalue'⟩
        cases ht'
        obtain rfl := hholds.mp hvalue'
        exact .same htakes hvalue
      · intro h
        refine ⟨t, rfl, hset, hholds.mpr ?_⟩
        cases h with
        | passed hpassed _ =>
          obtain ⟨w, hw, hlong⟩ := hpassed htakes
          cases Option.some.inj (hvalue.symm.trans hw)
          omega
        | same _ hvalue' => exact Option.some.inj (hvalue.symm.trans hvalue')
    | crashed htakes hvalue =>
      rw [readLoop_error _ _ hround]
      refine iff_of_false (by rintro ⟨t, ht, -⟩; cases ht) ?_
      intro h
      cases h with
      | passed hpassed _ =>
        obtain ⟨v, hv, -⟩ := hpassed htakes
        cases hvalue.symm.trans hv
      | same _ hvalue' => cases hvalue.symm.trans hvalue'

theorem Gives.uncommented {lines : List Str} (h : Gives lpKeyName value nSize lines) :
    Uncommented value := by
  induction h with
  | passed _ _ ih => exact ih
  | same _ hvalue => exact uncommented_lineValue hvalue

theorem alnum_ne {c d : UInt8} (hc : alnum c = true) (hd : alnum d = false) : c ≠ d := by
  rintro rfl
  rw [hc] at hd
  cases hd

theorem Name.not_mem {name : Str} (h : Name name) {d : UInt8} (hd : alnum d = false) : d ∉ name :=
  fun hmem => alnum_ne (List.all_eq_true.mp h d hmem) hd rfl

theorem Value.not_mem (h : Value value) {d : UInt8} (hd : control d = true) : d ∉ value := by
  intro hmem
  exact List.any_eq_false.mp h.printable d hmem hd

/-- Nothing is cut off a value without comments. -/
theorem Value.optionValue_eq_iff (h : Value value) :
    optionValue value = value ↔ Uncommented value := by
  constructor
  · intro heq
    rw [← heq]
    exact uncommented_optionValue value
  · rintro ⟨hsemicolon, hhash, hslashes⟩
    have hblanks : value.dropWhile blank = value := by
      cases value with
      | nil => exact absurd rfl h.nonempty
      | cons c rest =>
        have hspace : c ≠ ' '.toUInt8 := fun hc => h.first (congrArg some hc)
        have htab : c ≠ '\t'.toUInt8 := fun hc => h.not_mem (d := c) (hc ▸ by decide)
          List.mem_cons_self
        exact List.dropWhile_cons_of_neg (by simp [blank, hspace, htab])
    have hsingle : ∀ c, c ∉ value → ¬ [c] <:+: value := fun c hc =>
      (List.singleton_infix_iff c value).not.mpr hc
    rw [optionValue, hblanks, cutAll_eq_self_iff nil_not_mem_aSymb]
    simp only [aSymb, List.forall_mem_cons]
    exact ⟨hsingle _ (h.not_mem (by decide)), hsingle _ (h.not_mem (by decide)),
      hsingle _ (h.not_mem (by decide)), hsingle _ hsemicolon, hsingle _ hhash, hslashes,
      fun _ hmem => absurd hmem List.not_mem_nil⟩

theorem takes_optionLine (hkey : Name lpKeyName) :
    Takes lpKeyName (optionLine lpKeyName value) := by
  rw [optionLine_eq]
  refine ⟨by simp, ?_, ?_, ?_⟩
  · cases lpKeyName with
    | nil =>
      show '='.toUInt8 ≠ ';'.toUInt8 ∧ '='.toUInt8 ≠ 0 ∧ '='.toUInt8 ≠ '['.toUInt8
      decide
    | cons c rest =>
      have hc := List.all_eq_true.mp hkey c List.mem_cons_self
      exact ⟨alnum_ne hc (by decide), alnum_ne hc (by decide), alnum_ne hc (by decide)⟩
  · rw [strlwr_append]
    exact (List.prefix_append _ _).isInfix
  · refine .inr (.inl ?_)
    rw [List.getD_append_right _ _ _ _ le_rfl, Nat.sub_self]
    rfl

/-- The line that was written gives its value, up to a comment, if the lines ahead of it
leave it alone. -/
theorem gives_optionLine_iff (hkey : Name lpKeyName) (hvalue : Value value)
    (hsize : (value.length : Int) < nSize) (rest behind : List Str) :
    Gives lpKeyName value nSize (rest ++ optionLine lpKeyName value :: behind) ↔
      Uncommented value ∧ Leaves lpKeyName value nSize rest := by
  have htakes : Takes lpKeyName (optionLine lpKeyName value) := takes_optionLine hkey
  have hfound : lineValue (optionLine lpKeyName value) = some (optionValue value) :=
    lineValue_optionLine (hkey.not_mem (by decide))
  have hshort : (optionValue value).length ≤ value.length :=
    (cutAll_isPrefix aSymb _).length_le.trans (List.dropWhile_suffix blank).length_le
  induction rest with
  | nil =>
    rw [List.nil_append, ← hvalue.optionValue_eq_iff]
    constructor
    · intro h
      cases h with
      | passed hpassed _ =>
        obtain ⟨v, hv, hlong⟩ := hpassed htakes
        cases Option.some.inj (hfound.symm.trans hv)
        omega
      | same _ hsame => exact ⟨Option.some.inj (hfound.symm.trans hsame), .nil⟩
    · rintro ⟨heq, -⟩
      exact .same htakes (hfound.trans (congrArg some heq))
  | cons l rest ih =>
    rw [List.cons_append]
    constructor
    · intro h
      cases h with
      | passed hpassed h => exact (ih.mp h).imp_right (.passed hpassed)
      | same htakes hsame => exact ⟨uncommented_lineValue hsame, .same htakes hsame⟩
    · rintro ⟨huncommented, h⟩
      cases h with
      | passed hpassed h => exact .passed hpassed (ih.mpr ⟨huncommented, h⟩)
      | same htakes hsame => exact .same htakes hsame

/-- The outer loop, on some lines and an end that stores nothing. -/
theorem outerLoop_stores_iff {lines : List Str} {rest : List Getline} {app : Str}
    {P : List Str → Prop}
    (hrest : ∀ s : ReadState,
      ¬ Stores value (readLoop (some app) (some lpKeyName) nSize false rest s))
    (hinner : ∀ (inside : List Str) (s : ReadState), inside <:+ lines → s.pos = 0 →
      (Stores value (readLoop (some app) (some lpKeyName) nSize true
        (getlinesOf inside ++ rest) s) ↔ P inside))
    (hpos : s.pos = 0) :
    Stores value (readLoop (some app) (some lpKeyName) nSize false (getlinesOf lines ++ rest) s) ↔
      ∃ inside, Opens app s.str lines inside ∧ P inside := by
  induction lines generalizing s with
  | nil => exact iff_of_false (hrest s) fun ⟨_, hopens, _⟩ => by cases hopens
  | cons l lines ih =>
    cases hfind : findSection (overwrite s.str l) app with
    | error e =>
      have herror := readRound_outer app (some lpKeyName) nSize l s
      rw [hfind] at herror
      rw [readLoop_error _ _ herror]
      refine iff_of_false (by rintro ⟨t, ht, -⟩; cases ht) ?_
      rintro ⟨inside, hopens, -⟩
      cases hopens with
      | here hr => cases hr.symm.trans hfind
      | later hr _ _ => cases hr.symm.trans hfind
    | ok r =>
      rw [readLoop_go _ _ (readRound_outer_ok (some lpKeyName) nSize hfind)]
      by_cases hr : r = 0
      · subst hr
        refine (hinner lines { s with str := overwrite s.str l } (List.suffix_cons l lines)
          hpos).trans ?_
        constructor
        · exact fun hP => ⟨lines, .here hfind, hP⟩
        · rintro ⟨inside, hopens, hP⟩
          cases hopens with
          | here _ => exact hP
          | later hr hne _ =>
            cases hr.symm.trans hfind
            exact absurd rfl hne
      · have hfalse : decide (r = 0) = false := decide_eq_false hr
        rw [hfalse]
        refine (ih (s := { s with str := overwrite s.str l }) (fun inside s hsuffix =>
          hinner inside s (hsuffix.trans (List.suffix_cons l lines))) hpos).trans ?_
        refine exists_congr fun inside => and_congr_left fun _ => ⟨.later hfind hr, fun h => ?_⟩
        cases h with
        | here hzero =>
          cases hzero.symm.trans hfind
          exact absurd rfl hr
        | later hr' _ h => exact h

theorem Opens.suffix {app : Str} {str : List UInt8} {lines inside : List Str}
    (h : Opens app str lines inside) : inside <:+ lines := by
  induction h with
  | here _ => exact List.suffix_cons _ _
  | later _ _ _ ih => exact ih.trans (List.suffix_cons _ _)

/-- The header of the section opens it at the latest. -/
theorem opens_append_iff {app : Str} {ahead behind inside : List Str} {str : List UInt8}
    (app_zero : 0 ∉ app) (app_length : app.length < 1024) (hheader : header app ∈ ahead) :
    Opens app str (ahead ++ behind) inside ↔
      ∃ rest, Opens app str ahead rest ∧ inside = rest ++ behind := by
  induction ahead generalizing str with
  | nil => cases hheader
  | cons l ahead ih =>
    have hrest : ∀ {r}, findSection (overwrite str l) app = .ok r → r ≠ 0 →
        header app ∈ ahead := by
      intro r hr hne
      refine (List.mem_cons.mp hheader).resolve_left ?_
      rintro rfl
      cases (findSection_header app_zero app_length str).symm.trans hr
      exact hne rfl
    constructor
    · intro h
      cases h with
      | here hr => exact ⟨ahead, .here hr, rfl⟩
      | later hr hne h =>
        obtain ⟨rest, hopens, rfl⟩ := (ih (hrest hr hne)).mp h
        exact ⟨rest, .later hr hne hopens, rfl⟩
    · rintro ⟨rest, hopens, rfl⟩
      cases hopens with
      | here hr => exact .here hr
      | later hr hne h => exact .later hr hne ((ih (hrest hr hne)).mpr ⟨rest, h, rfl⟩)

/-- Nothing is stored where the file ends. -/
theorem not_stores_end (app key : Str) (inner : Bool) (s : ReadState) :
    ¬ Stores value (readLoop (some app) (some key) nSize inner (getlinesOf [[]]) s) := by
  have hend : ∃ next t, readRound (some app) (some key) nSize inner
      { s with str := overwrite s.str [] } = .ok (.go next, t) := by
    cases inner with
    | true =>
      obtain ⟨code, hcode, hoption⟩ := findOption_empty key nSize
      have hrefused : (OptionResult.refuse code).code ≠ 0 := hcode
      rw [readRound_inner, show cstr [] = [] from rfl, hoption, Except.map, if_neg hrefused]
      exact ⟨_, _, rfl⟩
    | false =>
      obtain ⟨r, hfind, -⟩ := findSection_empty (s.str.drop 1) app
      exact ⟨_, _, readRound_outer_ok (some key) nSize hfind⟩
  obtain ⟨next, t, hround⟩ := hend
  have hloop := readLoop_go [] [] hround
  rw [List.append_nil] at hloop
  rw [hloop]
  rintro ⟨t', ht, -⟩
  cases ht

/-- What is read from a file of whole lines. -/
theorem readsBack_text_iff {lines : List Str} (hlines : ∀ l ∈ lines, TextLine l)
    (key_zero : 0 ∉ lpKeyName) (key_length : lpKeyName.length < 1024) (value_zero : 0 ∉ value)
    (hsize : (value.length : Int) < nSize) (lpDefault : Option Str) (out : Nat → UInt8)
    (str : List UInt8) :
    ReadsBack lpAppName lpKeyName value lpDefault out nSize (some (textOf lines)) str ↔
      ∃ inside, Opens lpAppName str lines inside ∧ Gives lpKeyName value nSize inside := by
  have hfits : ∀ l ∈ lines, nl ∉ l ∧ l.length < PATH_MAX := fun l hl =>
    ⟨(hlines l hl).newline, by have := (hlines l hl).length; rw [PATH_MAX]; omega⟩
  have hreads : (lines ++ [[]]).map (⟨·, false⟩) = getlinesOf lines ++ getlinesOf [[]] := by
    simp [getlinesOf]
  rw [readsBack_iff, getlineAll_textOf hfits, hreads]
  refine outerLoop_stores_iff (not_stores_end _ _ _) (fun inside s hsuffix hpos => ?_) rfl
  exact innerLoop_stores_iff (fun l hl => hlines l (hsuffix.subset hl)) key_zero key_length
    value_zero hsize (not_stores_end _ _ _) hpos

/-- A tail of the lines has the new one in it, or is behind it. -/
theorem suffix_line {ahead behind inside : List Str} {l : Str}
    (h : inside <:+ ahead ++ l :: behind) :
    (∃ rest, inside = rest ++ l :: behind) ∨ inside <:+ behind := by
  induction ahead with
  | nil =>
    rcases List.suffix_cons_iff.mp h with rfl | h
    · exact .inl ⟨[], rfl⟩
    · exact .inr h
  | cons m ahead ih =>
    rcases List.suffix_cons_iff.mp h with rfl | h
    · exact .inl ⟨m :: ahead, rfl⟩
    · exact ih h

/-- The lines that the reader looks at for the value of the new line `l` leave it alone; they
may all be behind it, if the writer took another line for the header of the section. -/
def LeftAlone (lpKeyName value : Str) (nSize : Int) (l : Str) (behind inside : List Str) : Prop :=
  (∃ rest, inside = rest ++ l :: behind ∧ Leaves lpKeyName value nSize rest) ∨
    (inside <:+ behind ∧ Gives lpKeyName value nSize inside)

/-- What is read from a file with the line of an option. -/
theorem readsBack_line_iff {ahead behind : List Str}
    (hlines : ∀ l ∈ ahead ++ optionLine lpKeyName value :: behind, TextLine l)
    (hkey : Name lpKeyName) (hvalue : Value value) (hsize : (value.length : Int) < nSize)
    (lpDefault : Option Str) (out : Nat → UInt8) (str : List UInt8) :
    ReadsBack lpAppName lpKeyName value lpDefault out nSize
        (some (textOf (ahead ++ optionLine lpKeyName value :: behind))) str ↔
      Uncommented value ∧ ∃ inside,
        Opens lpAppName str (ahead ++ optionLine lpKeyName value :: behind) inside ∧
        LeftAlone lpKeyName value nSize (optionLine lpKeyName value) behind inside := by
  have key_length : lpKeyName.length < 1024 := by
    have hlength := (hlines (optionLine lpKeyName value) (by simp)).length
    rw [optionLine_eq, List.length_append] at hlength
    omega
  rw [readsBack_text_iff hlines (hkey.not_mem (by decide)) key_length (hvalue.not_mem (by decide))
    hsize]
  constructor
  · rintro ⟨inside, hopens, gives⟩
    refine ⟨gives.uncommented, inside, hopens, ?_⟩
    rcases suffix_line hopens.suffix with ⟨rest, rfl⟩ | hbehind
    · exact .inl ⟨rest, rfl, ((gives_optionLine_iff hkey hvalue hsize rest behind).mp gives).2⟩
    · exact .inr ⟨hbehind, gives⟩
  · rintro ⟨huncommented, inside, hopens, ⟨rest, rfl, hleaves⟩ | ⟨-, gives⟩⟩
    · exact ⟨_, hopens,
        (gives_optionLine_iff hkey hvalue hsize rest behind).mpr ⟨huncommented, hleaves⟩⟩
    · exact ⟨inside, hopens, gives⟩

/-- Where the header of the section is ahead of the line, the lines in between matter. -/
theorem readsBack_below_iff {ahead behind : List Str}
    (hlines : ∀ l ∈ ahead ++ optionLine lpKeyName value :: behind, TextLine l)
    (hheader : header lpAppName ∈ ahead) (hsection : Name lpAppName) (hkey : Name lpKeyName)
    (hvalue : Value value) (hsize : (value.length : Int) < nSize)
    (lpDefault : Option Str) (out : Nat → UInt8) (str : List UInt8) :
    ReadsBack lpAppName lpKeyName value lpDefault out nSize
        (some (textOf (ahead ++ optionLine lpKeyName value :: behind))) str ↔
      Uncommented value ∧ ∃ inside,
        Opens lpAppName str ahead inside ∧ Leaves lpKeyName value nSize inside := by
  have hlength := (hlines _ (List.mem_append_left _ hheader)).length
  rw [header, List.cons_append, List.length_cons, List.length_append] at hlength
  have key_length : lpKeyName.length < 1024 := by
    have hlength := (hlines (optionLine lpKeyName value) (by simp)).length
    rw [optionLine_eq, List.length_append] at hlength
    omega
  rw [readsBack_text_iff hlines (hkey.not_mem (by decide)) key_length (hvalue.not_mem (by decide))
    hsize]
  simp only [opens_append_iff (hsection.not_mem (by decide)) (by omega : lpAppName.length < 1024)
    hheader]
  constructor
  · rintro ⟨_, ⟨rest, hopens, rfl⟩, gives⟩
    obtain ⟨huncommented, hleaves⟩ := (gives_optionLine_iff hkey hvalue hsize rest behind).mp gives
    exact ⟨huncommented, rest, hopens, hleaves⟩
  · rintro ⟨huncommented, rest, hopens, hleaves⟩
    exact ⟨_, ⟨rest, hopens, rfl⟩,
      (gives_optionLine_iff hkey hvalue hsize rest behind).mpr ⟨huncommented, hleaves⟩⟩

theorem Name.oneLine (h : Name lpKeyName) : OneLine lpKeyName :=
  ⟨h.not_mem (by decide), h.not_mem (by decide)⟩

theorem Value.oneLine (h : Value value) : OneLine value :=
  ⟨h.not_mem (by decide), h.not_mem (by decide)⟩

/-- The lines of a file after a value was written to it. -/
theorem textLine_splitFile {shift : Str → Str} {lines : List Str}
    (hlines : ∀ l ∈ lines, TextLine l) (hsection : Name lpAppName) (hkey : Name lpKeyName)
    (hvalue : Value value) {reopened : Bool} {file : Option (List UInt8)}
    (hwrite : writePrivateProfileString shift lpAppName lpKeyName value (some (textOf lines))
      reopened = .ok (0, file)) :
    ∀ l ∈ (splitFile shift lpAppName lpKeyName lines).1 ++ optionLine lpKeyName value ::
      (splitFile shift lpAppName lpKeyName lines).2, TextLine l := by
  obtain ⟨rfl, hoption, hheader⟩ := write_ok hlines hwrite
  rw [splitFile_update]
  exact textLine_update hlines hsection.oneLine hkey.oneLine hvalue.oneLine hoption hheader

end Lines

section Claims

/-- In a file of whole lines, a value that was written is read back exactly when it has no
comment in it, and the lines that the reader looks at for it leave it alone. -/
theorem ini_round_trip_iff {shift : Str → Str} {lines : List Str}
    (hlines : ∀ l ∈ lines, nl ∉ l ∧ 0 ∉ l ∧ l.length < 1000) {lpAppName lpKeyName value : Str}
    (hsection : Name lpAppName) (hkey : Name lpKeyName)
    (hvalue : Value value) {nSize : Int} (hsize : (value.length : Int) < nSize) {reopened : Bool}
    {file : Option (List UInt8)} (hwrite : writePrivateProfileString shift lpAppName lpKeyName
      value (some (textOf lines)) reopened = .ok (0, file))
    (lpDefault : Option Str) (out : Nat → UInt8) (str : List UInt8) :
    let (ahead, behind) := splitFile shift lpAppName lpKeyName lines
    ReadsBack lpAppName lpKeyName value lpDefault out nSize file str ↔
      Uncommented value ∧ ∃ inside,
        Opens lpAppName str (ahead ++ optionLine lpKeyName value :: behind) inside ∧
        LeftAlone lpKeyName value nSize (optionLine lpKeyName value) behind inside := by
  have htext : ∀ l ∈ lines, TextLine l := fun l hl =>
    ⟨(hlines l hl).1, (hlines l hl).2.1, by have := (hlines l hl).2.2; omega⟩
  have hsplit := textLine_splitFile htext hsection hkey hvalue hwrite
  obtain ⟨rfl, -, -⟩ := write_ok htext hwrite
  exact readsBack_line_iff hsplit hkey hvalue hsize lpDefault out str

/-- `[s]`, and `k=14` written to it. -/
theorem ini_round_trip_number :
    ReadsBack (chars ['s']) (chars ['k']) (chars ['1', '4']) none (fun _ => 0) 3
      (some (textOf [chars ['[', 's', ']'], chars ['k', '=', '1', '4']]))
      (List.replicate PATH_MAX 0) := by
  have hlines : ∀ l ∈ [chars ['[', 's', ']']], nl ∉ l ∧ 0 ∉ l ∧ l.length < 1000 := by decide
  have hvalue : Value (chars ['1', '4']) := ⟨by decide, by decide, by decide, by decide⟩
  have hwrite : writePrivateProfileString moveTwice (chars ['s']) (chars ['k']) (chars ['1', '4'])
      (some (textOf [chars ['[', 's', ']']])) true =
        .ok (0, some (textOf [chars ['[', 's', ']'], chars ['k', '=', '1', '4']])) := by rfl
  refine (ini_round_trip_iff hlines (by decide) (by decide) hvalue (by decide) hwrite none _
    _).mpr ⟨?_, [chars ['k', '=', '1', '4']], ?_, .inl ⟨[], rfl, .nil⟩⟩
  · unfold Uncommented
    decide
  · exact .here (findSection_header (by decide) (by decide) _)

/-- `k=1` is written to a section with the line `b=ka`: `ka` is read, since `k` is
somewhere in that line and its second character is a `=`. -/
theorem ini_round_trip_other_key : ¬ ∀ (lines : List Str) (lpAppName lpKeyName value : Str)
    (nSize : Int) (file : Option (List UInt8)) (lpDefault : Option Str) (out : Nat → UInt8)
    (str : List UInt8), lines ≠ [] → (∀ l ∈ lines, nl ∉ l ∧ 0 ∉ l ∧ l.length < 1000) →
    Name lpAppName → Name lpKeyName → Value value →
    (value.length : Int) < nSize → str.length = PATH_MAX →
    writePrivateProfileString moveTwice lpAppName lpKeyName value (some (textOf lines)) true =
      .ok (0, file) →
    ReadsBack lpAppName lpKeyName value lpDefault out nSize file str := by
  intro h
  have hlines : ∀ l ∈ [chars ['[', 's', ']'], chars ['b', '=', 'k', 'a']],
      nl ∉ l ∧ 0 ∉ l ∧ l.length < 1000 := by decide
  have htext : ∀ l ∈ [chars ['[', 's', ']'], chars ['b', '=', 'k', 'a']], TextLine l :=
    fun l hl => ⟨(hlines l hl).1, (hlines l hl).2.1, by have := (hlines l hl).2.2; omega⟩
  have hvalue : Value (chars ['1']) := ⟨by decide, by decide, by decide, by decide⟩
  have hwrite : writePrivateProfileString moveTwice (chars ['s']) (chars ['k']) (chars ['1'])
      (some (textOf [chars ['[', 's', ']'], chars ['b', '=', 'k', 'a']])) true = .ok (0, some
        (textOf [chars ['[', 's', ']'], chars ['b', '=', 'k', 'a'], chars ['k', '=', '1']])) := by
    rfl
  have hreads := h _ (chars ['s']) (chars ['k']) _ 3 _ none (fun _ => 0)
    (List.replicate PATH_MAX 0) (by decide) hlines (by decide) (by decide) hvalue (by decide)
    List.length_replicate hwrite
  have hsplit := textLine_splitFile htext (by decide) (by decide) hvalue hwrite
  obtain ⟨-, inside, hopens, hleaves⟩ := (readsBack_below_iff hsplit (by decide) (by decide)
    (by decide) hvalue (by decide) none _ _).mp hreads
  have htakes : Takes (chars ['k']) (chars ['b', '=', 'k', 'a']) := by decide
  have hfound : lineValue (chars ['b', '=', 'k', 'a']) = some (chars ['k', 'a']) := by decide
  have hopened : inside = [chars ['b', '=', 'k', 'a']] := by
    have hheader : findSection (overwrite (List.replicate PATH_MAX 0) (header (chars ['s'])))
        (chars ['s']) = .ok 0 := findSection_header (by decide) (by decide) _
    cases hopens with
    | here _ => rfl
    | later hr hne _ =>
      cases hheader.symm.trans hr
      exact absurd rfl hne
  subst hopened
  cases hleaves with
  | passed hpassed _ =>
    obtain ⟨v, hv, hlong⟩ := hpassed htakes
    cases Option.some.inj (hfound.symm.trans hv)
    exact absurd hlong (by decide)
  | same _ hsame => exact absurd (hfound.symm.trans hsame) (by decide)

end Claims

end Gipcy.Linux.Ini
