import Gipcy.Linux.Ini.Rounds

/-! Where `IPC_getPrivateProfileString` stores to in the memory of the caller. A place
is counted from the first byte of `lpReturnedString`. -/
namespace Gipcy.Linux.Ini

open CString Lines

/-- The places that a copy of `size` bytes stores to. -/
def places (pos size : Nat) : List Int := (List.range size).map fun i => ((pos + i : Nat) : Int)

def lineEnd (c : UInt8) : Bool := c = '\r'.toUInt8 ∨ c = '\n'.toUInt8

/-- The places from `Buffer` on that `FindOption` stores a value to, and NULs in the
place of the line ends at the end of it. What stands there if no character is left
is the byte before `Buffer`. -/
def valueStores (before : UInt8) (val : Str) : List Int :=
  let kept := val.rdropWhile fun c => c = '\r'.toUInt8 ∨ c = '\n'.toUInt8
  places 0 (val.length + 1) ++ (places kept.length (val.length - kept.length)).reverse ++
    if kept = [] ∧ lineEnd before then [-1] else []

/-- The places from `Buffer` on that `FindOption` stores to. -/
def optionStores (before : UInt8) (src option : Str) (bufferSize : Int) : List Int :=
  match findOption src option bufferSize, lineValue src with
  | .ok r, some val => if r.code = 0 then valueStores before val else []
  | _, _ => []

/-- The places that `ReadState.list` stores to. -/
def listStores (s : ReadState) (nSize : Int) (size : Nat) : List Int :=
  if s.sectionsSize + size > nSize - 1 then [] else places s.pos size

/-- The places that a round stores to, after its `getline`. `before` is the byte
before the buffer of the caller. -/
def roundStores (before : UInt8) (lpAppName lpKeyName : Option Str) (nSize : Int) (inner : Bool)
    (s : ReadState) : List Int :=
  match inner, lpAppName, lpKeyName with
  | false, none, _ =>
    if isSection (cstr s.str) then listStores s nSize ((cstr s.str).length - 1) else []
  | false, some _, _ => []
  | true, _, none =>
    if isSection (cstr s.str) then []
    else
      match isOptionName (cstr s.str) with
      | none => []
      | some i => listStores s nSize ((cstr (s.str.set i 0)).length + 1)
  | true, _, some lpKeyName =>
    let before := if s.pos = 0 then before else s.out (s.pos - 1)
    (optionStores before (cstr s.str) lpKeyName nSize).map (· + s.pos)

/-- The places that the loops store to, one after the other. -/
def loopStores (before : UInt8) (lpAppName lpKeyName : Option Str) (nSize : Int) (inner : Bool) :
    List Getline → ReadState → List Int
  | [], _ => []
  | line :: lines, s =>
    let s := { s with str := overwrite s.str line.stored }
    roundStores before lpAppName lpKeyName nSize inner s ++
      match readRound lpAppName lpKeyName nSize inner s with
      | .ok (.go inner, s) =>
        if line.failed then [] else loopStores before lpAppName lpKeyName nSize inner lines s
      | _ => []

/-- The places that the call stores to behind the loops. -/
def endStores (lpAppName lpKeyName lpDefault : Option Str) (s : ReadState) : List Int :=
  (match s.setDefault, lpDefault with
    | true, some text => places s.pos (text.length + 1)
    | _, _ => []) ++
  if lpAppName = none ∨ lpKeyName = none then places s.pos 1 else []

/-- The places that a call stores to. One that does not return has stored to those
of its loops. -/
def callStores (before : UInt8) (lpAppName lpKeyName lpDefault : Option Str) (out : Nat → UInt8)
    (nSize : Int) (file str : List UInt8) : List Int :=
  let s : ReadState := ⟨str, true, 0, out, 0⟩
  let lines := getlineAll PATH_MAX file
  loopStores before lpAppName lpKeyName nSize false lines s ++
    match readLoop lpAppName lpKeyName nSize false lines s with
    | .ok (_, s) => endStores lpAppName lpKeyName lpDefault s
    | .error _ => []

/-- The call returns, and it stores to the first `nSize` bytes only. -/
def StaysInBuffer (before : UInt8) (lpAppName lpKeyName lpDefault : Option Str)
    (out : Nat → UInt8) (nSize : Int) (file str : List UInt8) : Prop :=
  (∃ r, getPrivateProfileString lpAppName lpKeyName lpDefault out nSize (some file) str =
    .ok r) ∧
  ∀ i ∈ callStores before lpAppName lpKeyName lpDefault out nSize file str, 0 ≤ i ∧ i < nSize

/-- There is room for the default and its NUL. -/
def DefaultFits (lpDefault : Option Str) (room : Int) : Prop :=
  ∀ text, lpDefault = some text → text.length < room

/-- The helpers return, there is room for the default where it is copied, and where an empty
value is copied there is no line end before the buffer. -/
def HasRoom (before : UInt8) (lpAppName lpKeyName lpDefault : Option Str) (nSize : Int)
    (str : List UInt8) (lines : List Str) : Prop :=
  match lpAppName, lpKeyName with
  | none, _ =>
    DefaultFits lpDefault
      (nSize - (listed (fitting (nSize - 1) (sectionNames (lines.map cstr)))).length)
  | some lpAppName, none =>
    ∃ names, keysListed lpAppName (nSize - 1) false str lines = some names ∧
      DefaultFits lpDefault (nSize - (listed names).length)
  | some lpAppName, some lpKeyName =>
    HelpersReturn lpAppName lpKeyName nSize str lines ∧
    ((∀ n, Below lpAppName str lines n → ¬ Taken lpKeyName nSize lines n) →
      DefaultFits lpDefault nSize) ∧
    ∀ n l, FirstTaken lpAppName lpKeyName nSize str lines n → lines[n]? = some l →
      lineValue (cstr l) = some [] → lineEnd before = false

section Memory

variable {before : UInt8} {app key lpDefault : Option Str} {nSize : Int} {inner : Bool}
  {s t : ReadState}

theorem mem_places_iff {pos size : Nat} {i : Int} :
    i ∈ places pos size ↔ pos ≤ i ∧ i < pos + size := by
  simp only [places, List.mem_map, List.mem_range]
  constructor
  · rintro ⟨j, hj, rfl⟩
    omega
  · rintro ⟨hle, hlt⟩
    exact ⟨(i - pos).toNat, by omega, by omega⟩

/-- A copy leaves the other places alone. -/
theorem store_of_not_mem {mem : Nat → UInt8} {pos i : Nat} {bytes : List UInt8}
    (h : (i : Int) ∉ places pos bytes.length) : store mem pos bytes i = mem i := by
  refine store_outside ?_
  rw [mem_places_iff] at h
  omega

/-- What a round of a call for a list copies: nothing, or a text that there is
room for. -/
inductive Copies (nSize : Int) (s t : ReadState) : List Int → Prop where
  | none : t.out = s.out → t.pos = s.pos → s.sectionsSize ≤ t.sectionsSize → Copies nSize s t []
  | text {text : List UInt8} : t.out = store s.out s.pos text → t.pos = s.pos + text.length →
      t.sectionsSize = s.sectionsSize + text.length → t.sectionsSize ≤ nSize - 1 →
      Copies nSize s t (places s.pos text.length)

/-- The round is one of a call for a list. -/
def ListRound (app key : Option Str) (inner : Bool) : Prop :=
  key = none ∨ app = none ∧ inner = false

theorem outerRound_copies (before : UInt8) (key : Option Str) {next : Next}
    (h : readRound none key nSize false s = .ok (next, t)) :
    Copies nSize s t (roundStores before none key nSize false s) ∧ next ≠ .go true := by
  cases hsection : isSection (cstr s.str) with
  | false =>
    cases (readRound_no_header key hsection).symm.trans h
    refine ⟨?_, by simp⟩
    simp only [roundStores, hsection, Bool.false_eq_true, if_false]
    exact .none rfl rfl (Int.le_refl _)
  | true =>
    obtain ⟨name, hname⟩ : ∃ name, cstr s.str = header name :=
      ⟨_, eq_header_iff.mpr ⟨hsection, rfl⟩⟩
    obtain ⟨hlength, -⟩ := set_bracket hname
    simp only [roundStores, hsection, if_true, hlength, listStores]
    rcases Int.lt_or_le (nSize - 1) (s.sectionsSize + (name.length + 1 : Nat)) with hfull | hroom
    · cases (readRound_full key hname hfull).symm.trans h
      rw [if_pos hfull]
      exact ⟨.none rfl rfl (by simp only; omega), by simp⟩
    · cases (readRound_header key hname hroom).symm.trans h
      rw [if_neg (Int.not_lt.mpr hroom)]
      have htext : name.length + 1 = (name ++ [(0 : UInt8)]).length := by simp
      rw [htext] at hroom ⊢
      exact ⟨.text rfl rfl rfl hroom, by simp⟩

theorem innerRound_copies (before : UInt8) (app : Option Str) {next : Next}
    (h : readRound app none nSize true s = .ok (next, t)) :
    Copies nSize s t (roundStores before app none nSize true s) := by
  cases hsection : isSection (cstr s.str) with
  | true =>
    cases (readRound_closes app hsection).symm.trans h
    simp only [roundStores, hsection, if_true]
    exact .none rfl rfl (Int.le_refl _)
  | false =>
    simp only [roundStores, hsection, Bool.false_eq_true, if_false]
    cases hname : isOptionName (cstr s.str) with
    | none =>
      cases (readRound_no_option app hsection hname).symm.trans h
      exact .none rfl rfl (Int.le_refl _)
    | some i =>
      obtain ⟨hlength, hcstr, -⟩ := set_equals hname
      simp only [hcstr, hlength, listStores]
      rcases Int.lt_or_le (nSize - 1) (s.sectionsSize + (i + 1 : Nat)) with hfull | hroom
      · cases (readRound_option_full app hsection hname hfull).symm.trans h
        rw [if_pos hfull]
        exact .none rfl rfl (by simp only; omega)
      · cases (readRound_option app hsection hname hroom).symm.trans h
        rw [if_neg (Int.not_lt.mpr hroom)]
        have htext : i + 1 = ((cstr s.str).take i ++ [(0 : UInt8)]).length := by simp [hlength]
        rw [htext] at hroom ⊢
        refine .text rfl ?_ rfl hroom
        simp [hlength]

theorem round_copies (before : UInt8) (hround : ListRound app key inner) {next : Next}
    (h : readRound app key nSize inner s = .ok (next, t)) :
    Copies nSize s t (roundStores before app key nSize inner s) := by
  obtain rfl | ⟨rfl, rfl⟩ := hround
  · cases inner with
    | true => exact innerRound_copies before app h
    | false =>
      cases app with
      | none => exact (outerRound_copies before none h).1
      | some app =>
        obtain ⟨r, -, hround⟩ := ok_of_bind h
        cases hround
        exact .none rfl rfl (Int.le_refl _)
  · exact (outerRound_copies before key h).1

/-- What `FindOption` returns 0 for it has stored as well. -/
theorem optionStores_cases (before : UInt8) {src option : Str} {r : OptionResult}
    (h : findOption src option nSize = .ok r) :
    (r.code ≠ 0 ∧ r.stored = [] ∧ optionStores before src option nSize = []) ∨
    ∃ v, r.code = 0 ∧ lineValue src = some v ∧ v.length < nSize ∧ r.stored = v ++ [0] ∧
      optionStores before src option nSize =
        places 0 (v.length + 1) ++ if v = [] ∧ lineEnd before then [-1] else [] := by
  unfold optionStores
  rw [h]
  obtain ⟨hcode, hrefused⟩ | ⟨v, hv, hsize, rfl⟩ := findOption_ok h
  · refine .inl ⟨hcode, by rw [hrefused]; rfl, ?_⟩
    cases lineValue src with
    | none => rfl
    | some val => exact if_neg hcode
  · have hkept : v.rdropWhile (fun c => c = '\r'.toUInt8 ∨ c = '\n'.toUInt8) = v := by
      obtain ⟨i, -, rfl⟩ := Option.map_eq_some_iff.mp hv
      exact rdropWhile_cutAll _
    refine .inr ⟨v, rfl, hv, hsize, rfl, ?_⟩
    simp only [hv, if_true, valueStores, hkept, Nat.sub_self]
    simp [places]

/-- A round leaves the other places alone. -/
theorem round_of_not_mem {next : Next} {i : Nat}
    (h : readRound app key nSize inner s = .ok (next, t))
    (hi : (i : Int) ∉ roundStores before app key nSize inner s) : t.out i = s.out i := by
  have hlist : ListRound app key inner → t.out i = s.out i := by
    intro hround
    have hcopies := round_copies before hround h
    generalize roundStores before app key nSize inner s = stores at hcopies hi
    cases hcopies with
    | none hout => rw [hout]
    | text hout => rw [hout, store_of_not_mem hi]
  cases key with
  | none => exact hlist (.inl rfl)
  | some key =>
    cases inner with
    | true =>
      obtain ⟨r, hr, hround⟩ := ok_of_bind h
      cases hround
      refine store_of_not_mem fun hmem => hi ?_
      rw [mem_places_iff] at hmem
      simp only [roundStores, List.mem_map]
      obtain ⟨-, hstored, -⟩ | ⟨v, -, -, -, hstored, hstores⟩ := optionStores_cases _ hr
      · rw [hstored, List.length_nil] at hmem
        omega
      · rw [hstored, List.length_append, List.length_singleton] at hmem
        refine ⟨(i : Int) - s.pos, ?_, by omega⟩
        rw [hstores]
        exact List.mem_append_left _ (mem_places_iff.mpr (by omega))
    | false =>
      cases app with
      | none => exact hlist (.inr ⟨rfl, rfl⟩)
      | some app =>
        obtain ⟨r, -, hround⟩ := ok_of_bind h
        cases hround
        rfl

theorem loop_of_not_mem {lines : List Getline} {found : Int} {i : Nat}
    (h : readLoop app key nSize inner lines s = .ok (found, t))
    (hi : (i : Int) ∉ loopStores before app key nSize inner lines s) : t.out i = s.out i := by
  induction lines generalizing inner s with
  | nil =>
    cases h
    rfl
  | cons line lines ih =>
    obtain ⟨⟨next, u⟩, hround, h⟩ := ok_of_bind h
    simp only [loopStores, hround, List.mem_append, not_or] at hi
    have hkept := round_of_not_mem hround hi.1
    cases next with
    | done found =>
      cases h
      exact hkept
    | go next =>
      cases hfailed : line.failed with
      | true =>
        rw [hfailed] at h
        cases h
      | false =>
        rw [hfailed] at h hi
        exact (ih h hi.2).trans hkept

/-- The call leaves all other places alone. -/
theorem call_of_not_mem {out out' : Nat → UInt8} {file str : List UInt8} {found : Int} {i : Nat}
    (h : getPrivateProfileString app key lpDefault out nSize (some file) str = .ok (found, out'))
    (hi : (i : Int) ∉ callStores before app key lpDefault out nSize file str) :
    out' i = out i := by
  obtain ⟨⟨found, t⟩, hloop, h⟩ := ok_of_bind h
  simp only [callStores, hloop, endStores, List.mem_append, not_or] at hi
  obtain ⟨hloopStores, hdefault, hend⟩ := hi
  have hkept : t.out i = out i := loop_of_not_mem hloop hloopStores
  obtain ⟨str, setDefault, size, mem, pos⟩ := t
  have hsame : ∀ mem' : Nat → UInt8, mem' i = out i →
      (if app = none ∨ key = none then store mem' pos [0] else mem') i = out i := by
    intro mem' hmem
    split
    · rename_i hlist
      rw [if_pos hlist] at hend
      exact (store_of_not_mem hend).trans hmem
    · exact hmem
  cases h
  cases setDefault with
  | false => exact hsame _ hkept
  | true =>
    cases lpDefault with
    | none => exact hsame _ hkept
    | some text =>
      refine hsame _ ((store_of_not_mem ?_).trans hkept)
      simpa using hdefault

end Memory

section Loops

variable {before : UInt8} {app key lpDefault : Option Str} {nSize : Int} {inner : Bool}
  {s t : ReadState} {stores : List Int} {l : Str} {lines passed rest : List Str}

/-- All these places are in the buffer. -/
def InBuffer (nSize : Int) (stores : List Int) : Prop := ∀ i ∈ stores, 0 ≤ i ∧ i < nSize

theorem inBuffer_append_iff {stores' : List Int} : InBuffer nSize (stores ++ stores') ↔
    InBuffer nSize stores ∧ InBuffer nSize stores' := List.forall_mem_append

theorem inBuffer_nil : InBuffer nSize [] := by simp [InBuffer]

theorem inBuffer_places_iff {pos size : Nat} :
    InBuffer nSize (places pos (size + 1)) ↔ (pos + size : Nat) < nSize := by
  constructor
  · intro h
    exact (h (pos + size : Nat) (mem_places_iff.mpr (by omega))).2
  · intro h i hi
    rw [mem_places_iff] at hi
    omega

/-- The pointer has been moved by what was counted, and there is room for a NUL. -/
structure Inside (nSize : Int) (s : ReadState) : Prop where
  counted : s.pos ≤ s.sectionsSize
  room : s.pos < nSize

theorem Copies.inside (h : Copies nSize s t stores) (hs : Inside nSize s) :
    Inside nSize t ∧ InBuffer nSize stores := by
  obtain ⟨hcounted, hroom⟩ := hs
  cases h with
  | none _ hpos hsize => exact ⟨⟨by omega, by omega⟩, inBuffer_nil⟩
  | text _ hpos hsize hfits =>
    refine ⟨⟨by omega, by omega⟩, fun i hi => ?_⟩
    rw [mem_places_iff] at hi
    omega

/-- A helper that leaves its arrays has not stored anything yet. -/
theorem roundStores_error (hround : ListRound app key inner) {e : Stop}
    (h : readRound app key nSize inner s = .error e) :
    roundStores before app key nSize inner s = [] := by
  have houter : ∀ key e, readRound none key nSize false s ≠ .error e := by
    intro key e h
    change outerRound none nSize s = _ at h
    simp only [outerRound] at h
    split at h
    · split at h <;> cases h
    · cases h
  have hinner : ∀ app e, readRound app none nSize true s ≠ .error e := by
    intro app e h
    change innerRound none nSize s = _ at h
    simp only [innerRound] at h
    split at h
    · cases h
    · split at h
      · cases h
      · split at h <;> cases h
  obtain rfl | ⟨rfl, rfl⟩ := hround
  · cases inner with
    | true => exact absurd h (hinner app e)
    | false =>
      cases app with
      | none => exact absurd h (houter none e)
      | some app => rfl
  · exact absurd h (houter key e)

theorem ListRound.next (hround : ListRound app key inner) {next : Bool}
    (h : readRound app key nSize inner s = .ok (.go next, t)) : ListRound app key next := by
  obtain rfl | ⟨rfl, rfl⟩ := hround
  · exact .inl rfl
  · have hnext := (outerRound_copies 0 key h).2
    cases next with
    | true => exact absurd rfl hnext
    | false => exact .inr ⟨rfl, rfl⟩

/-- The loops of a call for a list. -/
theorem loop_lists (before : UInt8) (hround : ListRound app key inner) (hs : Inside nSize s)
    (lines : List Getline) : InBuffer nSize (loopStores before app key nSize inner lines s) ∧
      ∀ found t, readLoop app key nSize inner lines s = .ok (found, t) → Inside nSize t := by
  induction lines generalizing inner s with
  | nil =>
    refine ⟨inBuffer_nil, fun found t h => ?_⟩
    cases h
    exact hs
  | cons line lines ih =>
    have hread : Inside nSize { s with str := overwrite s.str line.stored } := ⟨hs.counted, hs.room⟩
    rw [loopStores, readLoop]
    cases hr : readRound app key nSize inner { s with str := overwrite s.str line.stored } with
    | error e =>
      rw [roundStores_error hround hr]
      exact ⟨inBuffer_nil, fun found t h => by cases h⟩
    | ok r =>
      obtain ⟨next, u⟩ := r
      obtain ⟨hu, hstores⟩ := (round_copies before hround hr).inside hread
      cases next with
      | done found =>
        refine ⟨inBuffer_append_iff.mpr ⟨hstores, inBuffer_nil⟩, fun found t h => ?_⟩
        cases h
        exact hu
      | go next =>
        cases hfailed : line.failed with
        | true =>
          refine ⟨inBuffer_append_iff.mpr ⟨hstores, ?_⟩, fun found t h => by cases h⟩
          exact inBuffer_nil
        | false =>
          obtain ⟨hrest, hend⟩ := ih (hround.next hr) hu
          exact ⟨inBuffer_append_iff.mpr ⟨hstores, hrest⟩, hend⟩

theorem loopStores_go {next : Bool} (h : readRound app key nSize inner
      { s with str := overwrite s.str l } = .ok (.go next, t)) (lines : List Str) :
    loopStores before app key nSize inner (getlinesOf (l :: lines)) s =
      roundStores before app key nSize inner { s with str := overwrite s.str l } ++
        loopStores before app key nSize next (getlinesOf lines) t := by
  rw [getlinesOf, List.map_cons, loopStores]
  simp only [h]
  rfl

theorem loopStores_done {found : Int} (h : readRound app key nSize inner
      { s with str := overwrite s.str l } = .ok (.done found, t)) (lines : List Str) :
    loopStores before app key nSize inner (getlinesOf (l :: lines)) s =
      roundStores before app key nSize inner { s with str := overwrite s.str l } := by
  rw [getlinesOf, List.map_cons, loopStores]
  simp only [h, List.append_nil]

theorem loopStores_error {e : Stop} (h : readRound app key nSize inner
      { s with str := overwrite s.str l } = .error e) (lines : List Str) :
    loopStores before app key nSize inner (getlinesOf (l :: lines)) s =
      roundStores before app key nSize inner { s with str := overwrite s.str l } := by
  rw [getlinesOf, List.map_cons, loopStores]
  simp only [h, List.append_nil]

/-! A call for one value. -/

/-- Nothing is stored for a line that has no answer. -/
theorem roundStores_refuses {key : Str} (before : UInt8) (app : Option Str) (s : ReadState)
    (h : ¬ Answers key nSize l) :
    roundStores before app (some key) nSize true { s with str := overwrite s.str l } = [] := by
  have hcstr : cstr (overwrite s.str l) = cstr l := cstr_append_zero l _
  simp only [roundStores, hcstr, List.map_eq_nil_iff]
  cases hfind : findOption (cstr l) key nSize with
  | error e =>
    unfold optionStores
    rw [hfind]
  | ok r =>
    obtain ⟨-, -, hstores⟩ | ⟨v, hcode, -⟩ := optionStores_cases _ hfind
    · exact hstores
    · exact absurd ⟨r, hfind, hcode⟩ h

/-- The value is stored, and a NUL before the buffer if it is empty and there is
a line end there. -/
theorem roundStores_answers {key : Str} (before : UInt8) (app : Option Str) (hpos : s.pos = 0)
    (h : Answers key nSize l) : ∃ v, lineValue (cstr l) = some v ∧ v.length < nSize ∧
      roundStores before app (some key) nSize true { s with str := overwrite s.str l } =
        places 0 (v.length + 1) ++ if v = [] ∧ lineEnd before then [-1] else [] := by
  have hcstr : cstr (overwrite s.str l) = cstr l := cstr_append_zero l _
  obtain ⟨r, hfind, hcode⟩ := h
  obtain ⟨hne, -⟩ | ⟨v, -, hv, hsize, -, hstores⟩ := optionStores_cases before hfind
  · exact absurd hcode hne
  · refine ⟨v, hv, hsize, ?_⟩
    simp only [roundStores, hcstr, hpos, if_true, hstores]
    simp

/-- Nothing is stored if no line is taken. -/
theorem loopStores_eq_nil {app key : Str} (lines : List Str) (s : ReadState)
    (h : ∀ found t, readRounds (some app) (some key) nSize inner lines s ≠ .ok (.done found, t)) :
    loopStores before (some app) (some key) nSize inner (getlinesOf lines) s = [] := by
  induction lines generalizing inner s with
  | nil => rfl
  | cons l lines ih =>
    have hstores : roundStores before (some app) (some key) nSize inner
        { s with str := overwrite s.str l } = [] := by
      cases inner with
      | false => rfl
      | true =>
        refine roundStores_refuses before (some app) s fun hanswers => ?_
        obtain ⟨v, t, -, hround, -⟩ := round_answers (some app) s hanswers
        exact h 1 t (readRounds_done hround lines)
    cases hround : readRound (some app) (some key) nSize inner
        { s with str := overwrite s.str l } with
    | error e => rw [loopStores_error hround, hstores]
    | ok r =>
      obtain ⟨next, t⟩ := r
      cases next with
      | done found => rw [loopStores_done hround, hstores]
      | go next =>
        rw [readRounds_go hround] at h
        rw [loopStores_go hround, hstores, ih t h]
        rfl

theorem loopStores_answered {key : Str} (before : UInt8) (app : Option Str) (hpos : s.pos = 0)
    (refuses : ∀ m ∈ passed, Refuses key nSize m) (answers : Answers key nSize l)
    (rest : List Str) : ∃ v, lineValue (cstr l) = some v ∧ v.length < nSize ∧
      loopStores before app (some key) nSize true (getlinesOf (passed ++ l :: rest)) s =
        places 0 (v.length + 1) ++ if v = [] ∧ lineEnd before then [-1] else [] := by
  induction passed generalizing s with
  | nil =>
    obtain ⟨v, hv, hsize, hstores⟩ := roundStores_answers before app hpos answers
    obtain ⟨-, t, -, hround, -⟩ := round_answers app s answers
    exact ⟨v, hv, hsize, (loopStores_done hround rest).trans hstores⟩
  | cons m passed ih =>
    obtain ⟨hm, hpassed⟩ := List.forall_mem_cons.mp refuses
    obtain ⟨t, hround, kept⟩ := round_refuses app s hm
    obtain ⟨v, hv, hsize, hstores⟩ := ih (kept.pos.trans hpos) hpassed
    refine ⟨v, hv, hsize, ?_⟩
    rw [List.cons_append, loopStores_go hround, hstores,
      roundStores_refuses before app s (not_answers_of_refuses hm)]
    rfl

/-- The outer loop stores nothing. -/
theorem loopStores_opens {app key : Str} {str : List UInt8} {inside : List Str} (before : UInt8)
    (opens : Opens app str lines inside) (s : ReadState) (hs : s.str = str) :
    ∃ t, t.pos = s.pos ∧
      loopStores before (some app) (some key) nSize false (getlinesOf lines) s =
        loopStores before (some app) (some key) nSize true (getlinesOf inside) t := by
  induction opens generalizing s with
  | @here str l inside hfind =>
    subst hs
    exact ⟨{ s with str := overwrite s.str l }, rfl,
      loopStores_go (readRound_outer_ok (some key) nSize hfind) inside⟩
  | @later str l r lines inside hfind hne _ ih =>
    subst hs
    have hround := readRound_outer_ok (some key) nSize hfind
    rw [decide_eq_false hne] at hround
    obtain ⟨t, hpos, hstores⟩ := ih { s with str := overwrite s.str l } rfl
    exact ⟨t, hpos, (loopStores_go hround lines).trans hstores⟩

/-! The end of the call. -/

theorem inBuffer_endStores_iff (hset : t.setDefault = true) (hlist : app = none ∨ key = none)
    (ht : Inside nSize t) : InBuffer nSize (endStores app key lpDefault t) ↔
      DefaultFits lpDefault (nSize - t.pos) := by
  have hend : InBuffer nSize (places t.pos (0 + 1)) := inBuffer_places_iff.mpr ht.room
  unfold endStores
  rw [hset, if_pos hlist, inBuffer_append_iff, and_iff_left hend]
  cases lpDefault with
  | none => exact iff_of_true inBuffer_nil (by simp [DefaultFits])
  | some text =>
    simp only [inBuffer_places_iff, DefaultFits, Option.some.injEq, forall_eq']
    omega

/-- The places that a call stores to, told by the lines of the file. -/
def linesStores (before : UInt8) (app key lpDefault : Option Str) (nSize : Int) (lines : List Str)
    (s : ReadState) : List Int :=
  loopStores before app key nSize false (getlinesOf lines) s ++
    match readRounds app key nSize false lines s with
    | .ok (_, t) => endStores app key lpDefault t
    | .error _ => []

theorem callStores_eq {file : List UInt8} (hfits : ∀ l ∈ file.splitOn nl, l.length < PATH_MAX)
    (before : UInt8) (app key lpDefault : Option Str) (out : Nat → UInt8) (nSize : Int)
    (str : List UInt8) : callStores before app key lpDefault out nSize file str =
      linesStores before app key lpDefault nSize (file.splitOn nl) ⟨str, true, 0, out, 0⟩ := by
  have hreads : getlineAll PATH_MAX file = getlinesOf (file.splitOn nl) := getlineAll_splitOn hfits
  rw [callStores, linesStores, hreads]
  simp only [readLoop_eq]
  cases readRounds app key nSize false (file.splitOn nl) ⟨str, true, 0, out, 0⟩ <;> rfl

theorem linesStores_ok (before : UInt8) (lpDefault : Option Str) {next : Next}
    (h : readRounds app key nSize false lines s = .ok (next, t)) :
    linesStores before app key lpDefault nSize lines s =
      loopStores before app key nSize false (getlinesOf lines) s ++
        endStores app key lpDefault t := by
  rw [linesStores, h]

/-- A call for a list, of which this is listed. -/
theorem linesStores_list (before : UInt8) (lpDefault : Option Str) {names : List Str} {next : Next}
    (hround : ListRound app key false) (hlist : app = none ∨ key = none) (hs : Inside nSize s)
    (hset : s.setDefault = true)
    (hrounds : readRounds app key nSize false lines s = .ok (next, t)) (lists : Lists names s t) :
    InBuffer nSize (linesStores before app key lpDefault nSize lines s) ↔
      DefaultFits lpDefault (nSize - (s.pos + (listed names).length : Nat)) := by
  have hloop : readLoop app key nSize false (getlinesOf lines) s = .ok (next.found, t) := by
    rw [readLoop_eq, hrounds]
    rfl
  obtain ⟨hstores, hend⟩ := loop_lists before hround hs (getlinesOf lines)
  rw [linesStores_ok before lpDefault hrounds, inBuffer_append_iff, and_iff_right hstores,
    inBuffer_endStores_iff (lists.setDefault.trans hset) hlist (hend _ _ hloop), lists.pos]

/-- Of a call for a value without an answer there is only the default. -/
theorem linesStores_unanswered {app key : Str} (before : UInt8) (lpDefault : Option Str)
    (hset : s.setDefault = true) (hpos : s.pos = 0)
    (unanswered : Unanswered app key nSize s.str lines) :
    InBuffer nSize (linesStores before (some app) (some key) lpDefault nSize lines s) ↔
      DefaultFits lpDefault nSize := by
  obtain ⟨inner, t, hrounds, kept⟩ := rounds_unanswered unanswered
  have hnone : ∀ found u, readRounds (some app) (some key) nSize false lines s ≠
      .ok (.done found, u) := fun found u h => by cases hrounds.symm.trans h
  rw [linesStores_ok before lpDefault hrounds, loopStores_eq_nil lines s hnone, List.nil_append]
  unfold endStores
  rw [kept.setDefault hset, kept.pos, hpos, if_neg (by simp), List.append_nil]
  cases lpDefault with
  | none => exact iff_of_true inBuffer_nil (by simp [DefaultFits])
  | some text => simp [inBuffer_places_iff, DefaultFits]

/-- Of a call with an answer there is only the value. -/
theorem linesStores_found {app key : Str} (before : UInt8) (lpDefault : Option Str)
    (hpos : s.pos = 0) {ahead : List Str} {opener : Str}
    (found : Found app key nSize s.str ahead opener passed l rest) :
    ∃ v, lineValue (cstr l) = some v ∧ v.length < nSize ∧
      linesStores before (some app) (some key) lpDefault nSize
        (ahead ++ opener :: (passed ++ l :: rest)) s =
          places 0 (v.length + 1) ++ if v = [] ∧ lineEnd before then [-1] else [] := by
  obtain ⟨-, t, -, hrounds, hset, -, -⟩ := rounds_found found
  obtain ⟨u, hu, hstores⟩ := loopStores_opens before found.opens s rfl
  obtain ⟨v, hv, hsize, hvalue⟩ := loopStores_answered before (some app)
    (hu.trans hpos) found.passed found.answers rest
  have hend : endStores (some app) (some key) lpDefault t = [] := by
    unfold endStores
    rw [hset, if_neg (by simp)]
    rfl
  refine ⟨v, hv, hsize, ?_⟩
  rw [linesStores_ok before lpDefault hrounds, hstores, hvalue, hend, List.append_nil]

end Loops

section Claims

variable {nSize : Int} {lines : List Str}

/-- The call returns where its rounds do. -/
theorem call_rounds_iff {file : List UInt8} (hfits : ∀ l ∈ file.splitOn nl, l.length < PATH_MAX)
    {app key lpDefault : Option Str} {out : Nat → UInt8} {str : List UInt8} :
    (∃ r, getPrivateProfileString app key lpDefault out nSize (some file) str = .ok r) ↔
      ∃ r, readRounds app key nSize false (file.splitOn nl) ⟨str, true, 0, out, 0⟩ = .ok r := by
  have hreads : getlineAll PATH_MAX file = getlinesOf (file.splitOn nl) := getlineAll_splitOn hfits
  rw [call_returns_iff, hreads, readLoop_eq]
  cases readRounds app key nSize false (file.splitOn nl) ⟨str, true, 0, out, 0⟩ with
  | error e => simp [Except.map]
  | ok r => exact iff_of_true ⟨_, rfl⟩ ⟨r, rfl⟩

theorem hasRoom_value_iff (before : UInt8) (app key : Str) (lpDefault : Option Str)
    (out : Nat → UInt8) (str : List UInt8) :
    HelpersReturn app key nSize str lines ∧
        InBuffer nSize (linesStores before (some app) (some key) lpDefault nSize lines
          ⟨str, true, 0, out, 0⟩) ↔
      HasRoom before (some app) (some key) lpDefault nSize str lines := by
  refine and_congr_right fun returns => ?_
  obtain unanswered | ⟨ahead, opener, passed, l, rest, rfl, found⟩ := returns.cases
  · obtain ⟨-, hnone⟩ := unanswered.helpersReturn
    rw [linesStores_unanswered before lpDefault rfl rfl unanswered]
    exact ⟨fun h => ⟨fun _ => h, fun n _ first => absurd first.taken (hnone n first.below)⟩,
      fun h => h.1 hnone⟩
  · obtain ⟨-, first⟩ := found.firstTaken
    obtain ⟨v, hv, hsize, hstores⟩ :=
      linesStores_found (s := ⟨str, true, 0, out, 0⟩) before lpDefault rfl found
    rw [hstores]
    constructor
    · intro h
      refine ⟨fun hnone => absurd first.taken (hnone _ first.below), ?_⟩
      intro n m first' hm hempty
      obtain rfl := first'.unique first
      obtain rfl := Option.some.inj (getElem?_found.symm.trans hm)
      obtain rfl := Option.some.inj (hv.symm.trans hempty)
      by_contra hend
      have hbefore := h (-1) (by simp [hend])
      omega
    · rintro ⟨-, hvalue⟩
      have hno : ¬ (v = [] ∧ lineEnd before = true) := by
        rintro ⟨rfl, hend⟩
        have hno := hvalue _ l first getElem?_found hv
        rw [hno] at hend
        cases hend
      rw [if_neg hno, List.append_nil, inBuffer_places_iff, Nat.zero_add]
      exact hsize

/-- The call stays in the buffer iff its helpers return, there is room for the default, and
before the buffer there is no line end that is taken for that of an empty value. -/
theorem stays_in_buffer_iff {file : List UInt8}
    (hfits : ∀ l ∈ file.splitOn nl, l.length < PATH_MAX) {nSize : Int} (hsize : 1 ≤ nSize)
    (lpAppName lpKeyName lpDefault : Option Str) (before : UInt8) (out : Nat → UInt8)
    (str : List UInt8) :
    StaysInBuffer before lpAppName lpKeyName lpDefault out nSize file str ↔
      HasRoom before lpAppName lpKeyName lpDefault nSize str (file.splitOn nl) := by
  have hstart : Inside nSize ⟨str, true, 0, out, 0⟩ := ⟨Int.le_refl _, by simp only; omega⟩
  show (∃ r, _) ∧ InBuffer nSize (callStores ..) ↔ _
  rw [call_rounds_iff hfits, callStores_eq hfits]
  generalize file.splitOn nl = lines
  cases lpAppName with
  | none =>
    obtain ⟨t, hrounds, lists⟩ := readRounds_names lpKeyName nSize lines ⟨str, true, 0, out, 0⟩
    rw [and_iff_right ⟨_, hrounds⟩,
      linesStores_list before lpDefault (.inr ⟨rfl, rfl⟩) (.inl rfl) hstart rfl hrounds lists]
    simp only [HasRoom, Int.sub_zero, Nat.zero_add]
  | some app =>
    cases lpKeyName with
    | none =>
      have hkeys := readRounds_keys app nSize false lines ⟨str, true, 0, out, 0⟩
      simp only [HasRoom]
      rw [Int.sub_zero] at hkeys
      generalize keysListed app (nSize - 1) false str lines = list at hkeys ⊢
      generalize hrounds : readRounds (some app) none nSize false lines ⟨str, true, 0, out, 0⟩ = r
        at hkeys
      cases hkeys with
      | stopped => simp
      | lists lists =>
        rw [and_iff_right ⟨_, rfl⟩,
          linesStores_list before lpDefault (.inl rfl) (.inr rfl) hstart rfl hrounds lists]
        simp
    | some key =>
      rw [rounds_ok_iff]
      exact hasRoom_value_iff before app key lpDefault out str

/-- The section `s` is listed, and the default takes the last byte. -/
theorem stays_in_buffer_list : StaysInBuffer 0 none none (some []) (fun _ => 1) 3
    (chars ['[', 's', ']']) (List.replicate PATH_MAX 0) := by
  refine (stays_in_buffer_iff (by decide) (by decide) none none (some []) 0 _ _).mpr ?_
  rintro _ ⟨⟩
  decide

/-- A default of two characters is copied to a buffer of two bytes. -/
theorem not_stays_in_buffer : ¬ ∀ (file : List UInt8) (nSize : Int)
    (lpAppName lpKeyName lpDefault : Option Str) (before : UInt8) (out : Nat → UInt8)
    (str : List UInt8), (∀ l ∈ file.splitOn nl, l.length < PATH_MAX) → 1 ≤ nSize →
    str.length = PATH_MAX →
    StaysInBuffer before lpAppName lpKeyName lpDefault out nSize file str := by
  intro stays
  have hfits : ∀ l ∈ ([] : List UInt8).splitOn nl, l.length < PATH_MAX := by decide
  have h := stays [] 2 (some (chars ['s'])) (some (chars ['k'])) (some (chars ['a', 'b'])) 0
    (fun _ => 0) (List.replicate PATH_MAX 0) hfits (by decide) List.length_replicate
  replace h := h.2
  have hclosed : Closed (chars ['s']) (List.replicate PATH_MAX 0)
      (([] : List UInt8).splitOn nl) := by
    obtain ⟨r, hfind, hr⟩ := findSection_empty ((List.replicate PATH_MAX 0).drop 1) (chars ['s'])
    exact .cons hfind hr .nil
  change InBuffer 2 (callStores ..) at h
  rw [callStores_eq hfits, linesStores_unanswered 0 _ rfl rfl (.inl hclosed)] at h
  have hroom := h _ rfl
  revert hroom
  decide

end Claims

end Gipcy.Linux.Ini
