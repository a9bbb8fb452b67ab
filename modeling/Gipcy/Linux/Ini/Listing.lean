import Gipcy.Linux.Ini.Read
import Gipcy.Linux.Ini.Write

/-! What a call without a section lists of a file: the names of the sections, as
many of the first as there is room for. -/
namespace Gipcy.Linux.Ini

open CString Lines

/-- The names of the sections, in the order of their headers. -/
def sectionNames (lines : List Str) : List Str := (lines.filter isSection).map (·.dropLast.tail)

/-- Names as a list in memory has them, each with its NUL. -/
def listed (names : List Str) : List UInt8 := names.flatMap (· ++ [0])

/-- The names up to the first that there is no room for. -/
def fitting (room : Int) : List Str → List Str
  | [] => []
  | name :: names =>
    if (name.length + 1 : Nat) ≤ room then name :: fitting (room - (name.length + 1 : Nat)) names
    else []

section Names

variable {room : Int} {l : Str} {lines names list : List Str}

theorem sectionNames_section (h : isSection l = true) (lines : List Str) :
    sectionNames (l :: lines) = l.dropLast.tail :: sectionNames lines := by
  simp [sectionNames, h]

theorem sectionNames_other (h : isSection l = false) (lines : List Str) :
    sectionNames (l :: lines) = sectionNames lines := by
  simp [sectionNames, h]

@[simp] theorem listed_nil : listed [] = [] := rfl

theorem listed_cons (name : Str) (names : List Str) :
    listed (name :: names) = name ++ [0] ++ listed names := by
  simp [listed]

theorem length_listed_cons (name : Str) (names : List Str) :
    (listed (name :: names)).length = name.length + 1 + (listed names).length := by
  simp [listed_cons]
  omega

theorem fitting_isPrefix (room : Int) (names : List Str) : fitting room names <+: names := by
  induction names generalizing room with
  | nil => exact List.prefix_rfl
  | cons name names ih =>
    rw [fitting]
    split
    · exact (List.prefix_cons_inj name).mpr (ih _)
    · exact List.nil_prefix

theorem length_listed_fitting (h : 0 ≤ room) (names : List Str) :
    (listed (fitting room names)).length ≤ room := by
  induction names generalizing room with
  | nil => simpa [fitting] using h
  | cons name names ih =>
    rw [fitting]
    split
    · rename_i hroom
      have hrest := ih (show 0 ≤ room - (name.length + 1 : Nat) by omega)
      rw [length_listed_cons]
      push_cast at hrest ⊢
      omega
    · simpa using h

/-- No longer list of the first names has room. -/
theorem isPrefix_fitting (h : list <+: names) (hroom : (listed list).length ≤ room) :
    list <+: fitting room names := by
  induction names generalizing room list with
  | nil =>
    rw [List.prefix_nil.mp h]
    exact List.nil_prefix
  | cons name names ih =>
    rcases List.prefix_cons_iff.mp h with rfl | ⟨rest, rfl, hrest⟩
    · exact List.nil_prefix
    · rw [length_listed_cons] at hroom
      push_cast at hroom
      rw [fitting, if_pos (by push_cast; omega)]
      exact (List.prefix_cons_inj name).mpr (ih hrest (by push_cast; omega))

theorem fitting_eq_self (h : (listed names).length ≤ room) : fitting room names = names :=
  ((fitting_isPrefix room names).eq_of_length_le
    (isPrefix_fitting List.prefix_rfl h).length_le)

end Names

/-- The names of the options that a call with a section and no key lists, while
there is room for them, if `FindSection` returns on each line that it looks at. -/
def keysListed (lpAppName : Str) (room : Int) : Bool → List UInt8 → List Str → Option (List Str)
  | _, _, [] => some []
  | false, str, l :: lines =>
    match findSection (overwrite str l) lpAppName with
    | .error _ => none
    | .ok r => keysListed lpAppName room (r = 0) (overwrite str l) lines
  | true, str, l :: lines =>
    if isSection (cstr l) then keysListed lpAppName room false (overwrite str l) lines
    else
      match isOptionName (cstr l) with
      | none => keysListed lpAppName room true (overwrite str l) lines
      | some i =>
        let str := (overwrite str l).set i 0
        if (i + 1 : Nat) ≤ room then
          (keysListed lpAppName (room - (i + 1 : Nat)) true str lines).map ((cstr l).take i :: ·)
        else keysListed lpAppName (room - (i + 1 : Nat)) false str lines

/-- The rounds on these lines: where they lead. -/
def readRounds (lpAppName lpKeyName : Option Str) (nSize : Int) (inner : Bool) :
    List Str → ReadState → Except Stop (Next × ReadState)
  | [], s => .ok (.go inner, s)
  | l :: lines, s => do
    let (next, s) ← readRound lpAppName lpKeyName nSize inner
      { s with str := overwrite s.str l }
    match next with
    | .done found => .ok (.done found, s)
    | .go inner => readRounds lpAppName lpKeyName nSize inner lines s

/-- What the call returns after these rounds, if there are no more. -/
def Next.found : Next → Int
  | .go _ => 0
  | .done found => found

section Rounds

variable {app key : Option Str} {nSize : Int} {inner : Bool} {s t : ReadState} {l : Str}
  {lines : List Str}

theorem readRounds_go {next : Bool} (h : readRound app key nSize inner
      { s with str := overwrite s.str l } = .ok (.go next, t)) (lines : List Str) :
    readRounds app key nSize inner (l :: lines) s = readRounds app key nSize next lines t := by
  rw [readRounds, h]
  rfl

theorem readRounds_done {found : Int} (h : readRound app key nSize inner
      { s with str := overwrite s.str l } = .ok (.done found, t)) (lines : List Str) :
    readRounds app key nSize inner (l :: lines) s = .ok (.done found, t) := by
  rw [readRounds, h]
  rfl

theorem readRounds_error {e : Stop} (h : readRound app key nSize inner
      { s with str := overwrite s.str l } = .error e) (lines : List Str) :
    readRounds app key nSize inner (l :: lines) s = .error e := by
  rw [readRounds, h]
  rfl

/-- The loop on lines that all fit. -/
theorem readLoop_eq (app key : Option Str) (nSize : Int) (inner : Bool) (lines : List Str)
    (s : ReadState) :
    readLoop app key nSize inner (getlinesOf lines) s =
      (readRounds app key nSize inner lines s).map fun r => (r.1.found, r.2) := by
  induction lines generalizing inner s with
  | nil => rfl
  | cons l lines ih =>
    cases hround : readRound app key nSize inner { s with str := overwrite s.str l } with
    | error e =>
      have hloop := readLoop_error lines [] hround
      rw [List.append_nil] at hloop
      rw [readRounds_error hround, hloop]
      rfl
    | ok r =>
      obtain ⟨next, t⟩ := r
      cases next with
      | done found =>
        have hloop := readLoop_done lines [] hround
        rw [List.append_nil] at hloop
        rw [readRounds_done hround, hloop]
        rfl
      | go next =>
        have hloop := readLoop_go lines [] hround
        rw [List.append_nil, List.append_nil] at hloop
        rw [readRounds_go hround, hloop, ih]

/-- The round of a header copies the name. -/
theorem readRound_header (key : Option Str) {name : Str} (h : cstr s.str = header name)
    (hfits : s.sectionsSize + (name.length + 1 : Nat) ≤ nSize - 1) :
    readRound none key nSize false s = .ok (.go false, { s with
      str := s.str.set (name.length + 1) 0
      sectionsSize := s.sectionsSize + (name.length + 1 : Nat)
      out := store s.out s.pos (name ++ [0])
      pos := s.pos + (name.length + 1) }) := by
  obtain ⟨hlength, hcopied⟩ := set_bracket h
  have hroom : ¬ s.sectionsSize + (name.length + 1 : Nat) > nSize - 1 := Int.not_lt.mpr hfits
  have hsection : isSection (cstr s.str) = true := (eq_header_iff.mp h).1
  simp only [readRound, Bool.false_eq_true, if_false, outerRound, hsection, if_true, hlength,
    ReadState.list, if_neg hroom, hcopied]

/-- There is no room for the name. -/
theorem readRound_full (key : Option Str) {name : Str} (h : cstr s.str = header name)
    (hfull : nSize - 1 < s.sectionsSize + (name.length + 1 : Nat)) :
    readRound none key nSize false s = .ok (.done 0, { s with
      str := s.str.set (name.length + 1) 0
      sectionsSize := s.sectionsSize + (name.length + 1 : Nat) }) := by
  obtain ⟨hlength, -⟩ := set_bracket h
  have hsection : isSection (cstr s.str) = true := (eq_header_iff.mp h).1
  simp only [readRound, Bool.false_eq_true, if_false, outerRound, hsection, if_true, hlength,
    ReadState.list, gt_iff_lt, if_pos hfull]

theorem readRound_no_header (key : Option Str) (h : isSection (cstr s.str) = false) :
    readRound none key nSize false s = .ok (.go false, s) := by
  simp only [readRound, Bool.false_eq_true, if_false, outerRound, h]

/-- In a call for the names of options a header closes the section. -/
theorem readRound_closes (app : Option Str) (h : isSection (cstr s.str) = true) :
    readRound app none nSize true s = .ok (.go false, s) := by
  simp only [readRound, if_true, innerRound, h]

theorem readRound_no_option (app : Option Str) (hsection : isSection (cstr s.str) = false)
    (hname : isOptionName (cstr s.str) = none) :
    readRound app none nSize true s = .ok (.go true, s) := by
  simp only [readRound, if_true, innerRound, hsection, hname, Bool.false_eq_true, if_false]

/-- The round of an option copies the name. -/
theorem readRound_option (app : Option Str) (hsection : isSection (cstr s.str) = false) {i : Nat}
    (hname : isOptionName (cstr s.str) = some i)
    (hfits : s.sectionsSize + (i + 1 : Nat) ≤ nSize - 1) :
    readRound app none nSize true s = .ok (.go true, { s with
      str := s.str.set i 0
      sectionsSize := s.sectionsSize + (i + 1 : Nat)
      out := store s.out s.pos ((cstr s.str).take i ++ [0])
      pos := s.pos + (i + 1) }) := by
  obtain ⟨hlength, hcstr, htake⟩ := set_equals hname
  have hroom : ¬ s.sectionsSize + (i + 1 : Nat) > nSize - 1 := Int.not_lt.mpr hfits
  simp only [readRound, if_true, innerRound, hsection, Bool.false_eq_true, if_false, hname, hcstr,
    hlength, ReadState.list, htake, if_neg hroom]

/-- There is no room for the name. -/
theorem readRound_option_full (app : Option Str) (hsection : isSection (cstr s.str) = false)
    {i : Nat} (hname : isOptionName (cstr s.str) = some i)
    (hfull : nSize - 1 < s.sectionsSize + (i + 1 : Nat)) :
    readRound app none nSize true s = .ok (.go false, { s with
      str := s.str.set i 0
      sectionsSize := s.sectionsSize + (i + 1 : Nat) }) := by
  obtain ⟨hlength, hcstr, htake⟩ := set_equals hname
  simp only [readRound, if_true, innerRound, hsection, Bool.false_eq_true, if_false, hname, hcstr,
    hlength, ReadState.list, gt_iff_lt, if_pos hfull]

/-- The state after the names have been listed. -/
structure Lists (names : List Str) (s t : ReadState) : Prop where
  setDefault : t.setDefault = s.setDefault
  out : t.out = store s.out s.pos (listed names)
  pos : t.pos = s.pos + (listed names).length

theorem Lists.nil (s : ReadState) (str : List UInt8) (size : Int) :
    Lists [] s { s with str := str, sectionsSize := size } :=
  ⟨rfl, by simp, rfl⟩

theorem Lists.cons {name : Str} {names : List Str} {str : List UInt8} {size : Int}
    (h : Lists names { s with
      str := str
      sectionsSize := size
      out := store s.out s.pos (name ++ [0])
      pos := s.pos + (name.length + 1) } t) : Lists (name :: names) s t where
  setDefault := h.setDefault
  out := by
    have hlength : (name ++ [(0 : UInt8)]).length = name.length + 1 := by simp
    rw [h.out, listed_cons, ← store_append s.out s.pos (name ++ [0]), hlength]
  pos := by
    rw [h.pos, length_listed_cons, Nat.add_assoc]

/-- The rounds of a call without a section, which come to an end where there is no
room for a name. -/
theorem readRounds_names (key : Option Str) (nSize : Int) (lines : List Str) (s : ReadState) :
    ∃ t, readRounds none key nSize false lines s =
        .ok (if fitting (nSize - 1 - s.sectionsSize) (sectionNames (lines.map cstr)) =
          sectionNames (lines.map cstr) then .go false else .done 0, t) ∧
      Lists (fitting (nSize - 1 - s.sectionsSize) (sectionNames (lines.map cstr))) s t := by
  induction lines generalizing s with
  | nil => exact ⟨s, rfl, Lists.nil s _ _⟩
  | cons l lines ih =>
    have hcstr : cstr (overwrite s.str l) = cstr l := cstr_append_zero l _
    rw [List.map_cons]
    cases hsection : isSection (cstr l) with
    | false =>
      rw [sectionNames_other hsection]
      obtain ⟨t, hrounds, lists⟩ := ih { s with str := overwrite s.str l }
      rw [readRounds_go (readRound_no_header key (by rw [hcstr, hsection]))]
      exact ⟨t, hrounds, lists.setDefault, lists.out, lists.pos⟩
    | true =>
      obtain ⟨name, hname⟩ : ∃ name, cstr l = header name := ⟨_, eq_header_iff.mpr ⟨hsection, rfl⟩⟩
      obtain ⟨-, htail⟩ := eq_header_iff.mp (rfl : header name = header name)
      rw [sectionNames_section hsection, hname, htail]
      rw [hname] at hcstr
      rcases Int.lt_or_le (nSize - 1) (s.sectionsSize + (name.length + 1 : Nat)) with hfull | hroom
      · have hnone : ¬ (name.length + 1 : Nat) ≤ nSize - 1 - s.sectionsSize := by omega
        rw [readRounds_done (readRound_full key hcstr hfull), fitting, if_neg hnone,
          if_neg (List.cons_ne_nil _ _).symm]
        exact ⟨_, rfl, Lists.nil s _ _⟩
      · have hsome : (name.length + 1 : Nat) ≤ nSize - 1 - s.sectionsSize := by omega
        have hrest : nSize - 1 - s.sectionsSize - (name.length + 1 : Nat) =
            nSize - 1 - (s.sectionsSize + (name.length + 1 : Nat)) := by omega
        rw [readRounds_go (readRound_header key hcstr hroom), fitting, if_pos hsome, hrest]
        obtain ⟨t, hrounds, lists⟩ := ih { s with
          str := (overwrite s.str l).set (name.length + 1) 0
          sectionsSize := s.sectionsSize + (name.length + 1 : Nat)
          out := store s.out s.pos (name ++ [0])
          pos := s.pos + (name.length + 1) }
        simp only [List.cons.injEq, true_and]
        exact ⟨t, hrounds, lists.cons⟩

/-- How the rounds of a call with a section and no key end. -/
inductive KeyRounds (s : ReadState) :
    Option (List Str) → Except Stop (Next × ReadState) → Prop where
  | stopped {e} : KeyRounds s none (.error e)
  | lists {names inner t} : Lists names s t → KeyRounds s (some names) (.ok (.go inner, t))

theorem KeyRounds.read {str : List UInt8} {size : Int} {list : Option (List Str)}
    {r : Except Stop (Next × ReadState)}
    (h : KeyRounds { s with str := str, sectionsSize := size } list r) : KeyRounds s list r := by
  cases h with
  | stopped => exact .stopped
  | lists lists => exact .lists ⟨lists.setDefault, lists.out, lists.pos⟩

theorem KeyRounds.cons {name : Str} {str : List UInt8} {size : Int} {list : Option (List Str)}
    {r : Except Stop (Next × ReadState)} (h : KeyRounds { s with
      str := str
      sectionsSize := size
      out := store s.out s.pos (name ++ [0])
      pos := s.pos + (name.length + 1) } list r) : KeyRounds s (list.map (name :: ·)) r := by
  cases h with
  | stopped => exact .stopped
  | lists lists => exact .lists lists.cons

/-- The rounds of a call with a section and no key go on to the last line. -/
theorem readRounds_keys (app : Str) (nSize : Int) (inner : Bool) (lines : List Str)
    (s : ReadState) : KeyRounds s (keysListed app (nSize - 1 - s.sectionsSize) inner s.str lines)
      (readRounds (some app) none nSize inner lines s) := by
  induction lines generalizing inner s with
  | nil => cases inner <;> exact .lists (Lists.nil s _ _)
  | cons l lines ih =>
    have hcstr : cstr (overwrite s.str l) = cstr l := cstr_append_zero l _
    cases inner with
    | false =>
      rw [keysListed]
      cases hfind : findSection (overwrite s.str l) app with
      | error e =>
        have hround := readRound_outer app none nSize l s
        rw [hfind] at hround
        rw [readRounds_error hround]
        exact .stopped
      | ok r =>
        rw [readRounds_go (readRound_outer_ok none nSize hfind)]
        exact .read (ih _ { s with str := overwrite s.str l })
    | true =>
      rw [keysListed]
      cases hsection : isSection (cstr l) with
      | true =>
        rw [readRounds_go (readRound_closes _ (hcstr.symm ▸ hsection)), if_pos rfl]
        exact .read (ih _ { s with str := overwrite s.str l })
      | false =>
        rw [if_neg Bool.false_ne_true]
        cases hname : isOptionName (cstr l) with
        | none =>
          rw [readRounds_go (readRound_no_option _ (hcstr.symm ▸ hsection) (hcstr.symm ▸ hname))]
          exact .read (ih _ { s with str := overwrite s.str l })
        | some i =>
          obtain ⟨hlength, -, -⟩ := set_equals hname
          have hrest : nSize - 1 - s.sectionsSize - (i + 1 : Nat) =
              nSize - 1 - (s.sectionsSize + (i + 1 : Nat)) := by omega
          dsimp only
          rw [hrest]
          rw [← hcstr] at hsection hname hlength ⊢
          rcases Int.lt_or_le (nSize - 1) (s.sectionsSize + (i + 1 : Nat)) with hfull | hroom
          · rw [readRounds_go (readRound_option_full _ hsection hname hfull), if_neg (by omega)]
            exact .read (ih _ { s with
              str := (overwrite s.str l).set i 0
              sectionsSize := s.sectionsSize + (i + 1 : Nat) })
          · rw [readRounds_go (readRound_option _ hsection hname hroom), if_pos (by omega)]
            have hlisted := KeyRounds.cons (ih true { s with
              str := (overwrite s.str l).set i 0
              sectionsSize := s.sectionsSize + (i + 1 : Nat)
              out := store s.out s.pos ((cstr (overwrite s.str l)).take i ++ [0])
              pos := s.pos + (((cstr (overwrite s.str l)).take i).length + 1) })
            rwa [hlength] at hlisted

/-- A call without a section on a file that is read as these lines. -/
theorem get_names {file : List UInt8} (hreads : getlineAll PATH_MAX file = getlinesOf lines)
    (key : Option Str) {lpDefault : Option Str} (hdefault : lpDefault = none ∨ lpDefault = some [])
    (out : Nat → UInt8) (nSize : Int) (str : List UInt8) :
    getPrivateProfileString none key lpDefault out nSize (some file) str =
      .ok (0, store out 0
        (listed (fitting (nSize - 1) (sectionNames (lines.map cstr))) ++ [0])) := by
  obtain ⟨t, hrounds, lists⟩ := readRounds_names key nSize lines ⟨str, true, 0, out, 0⟩
  have hloop : readLoop none key nSize false (getlinesOf lines) ⟨str, true, 0, out, 0⟩ =
      .ok (0, t) := by
    rw [readLoop_eq, hrounds, Except.map]
    split <;> rfl
  have hset : t.setDefault = true := lists.setDefault
  have hend : store t.out t.pos [0] = store out 0 (listed
      (fitting (nSize - 1) (sectionNames (lines.map cstr))) ++ [0]) := by
    rw [lists.out, lists.pos]
    simpa using store_append out 0 (listed _) [0]
  have htwice : store (store t.out t.pos [0]) t.pos [0] = _ := (store_store _ _ _).trans hend
  show (readLoop none key nSize false (getlineAll PATH_MAX file) _ >>= _) = _
  rw [hreads, hloop]
  rcases hdefault with rfl | rfl
  · simp [bind, Except.bind, hset, hend]
  · simp [bind, Except.bind, hset, htwice]

end Rounds

section Claims

/-- The call stores the longest list of the first names that leaves room for the
last NUL. -/
theorem lists_longest_names {file : List UInt8} (hfits : ∀ l ∈ file.splitOn nl, l.length < PATH_MAX)
    (zero : 0 ∉ file) {nSize : Int} (hsize : 1 ≤ nSize) (lpKeyName : Option Str)
    {lpDefault : Option Str} (hdefault : lpDefault = none ∨ lpDefault = some [])
    (out : Nat → UInt8) (str : List UInt8) :
    ∃ names, names <+: sectionNames (file.splitOn nl) ∧ (listed names).length ≤ nSize - 1 ∧
      (∀ longer, longer <+: sectionNames (file.splitOn nl) → (listed longer).length ≤ nSize - 1 →
        longer <+: names) ∧
      ∃ after, getPrivateProfileString none lpKeyName lpDefault out nSize (some file) str =
          .ok (0, after) ∧
        after = store out 0 (listed names ++ [0]) ∧ ∀ i : Nat, nSize ≤ i → after i = out i := by
  have hlines : (file.splitOn nl).map cstr = file.splitOn nl := by
    refine (List.map_congr_left fun l hl => ?_).trans (List.map_id _)
    exact cstr_self fun hzero => zero (mem_of_mem_splitOn hl hzero)
  have hcall := get_names (getlineAll_splitOn hfits) lpKeyName hdefault out nSize str
  rw [hlines] at hcall
  have hroom := length_listed_fitting (show 0 ≤ nSize - 1 by omega) (sectionNames (file.splitOn nl))
  refine ⟨_, fitting_isPrefix _ _, hroom, fun longer hprefix => isPrefix_fitting hprefix, _, hcall,
    rfl, fun i hi => store_outside (.inr ?_)⟩
  rw [List.length_append, List.length_singleton]
  omega

/-- There is no room for a second name. -/
theorem lists_longest_names_one :
    getPrivateProfileString none none none (fun _ => 1) 3
        (some (chars ['[', 's', ']', '\n', '[', 't', ']'])) [] =
      .ok (0, store (fun _ => 1) 0 (chars ['s'] ++ [0, 0])) := by
  have hnames : sectionNames ((chars ['[', 's', ']', '\n', '[', 't', ']']).splitOn nl) =
      [chars ['s'], chars ['t']] := by decide
  obtain ⟨names, hprefix, hroom, hlongest, after, hcall, hafter, -⟩ := @lists_longest_names
    (chars ['[', 's', ']', '\n', '[', 't', ']']) (by decide) (by decide) 3 (by decide) none
    none (.inl rfl) (fun _ => 1) []
  rw [hnames] at hprefix hlongest
  have hfirst := hlongest [chars ['s']] (by decide) (by decide)
  obtain ⟨rest, rfl⟩ := hfirst
  cases rest with
  | nil => rw [hcall, hafter]; rfl
  | cons name rest =>
    rw [List.singleton_append, length_listed_cons, length_listed_cons] at hroom
    have hlength : (chars ['s']).length = 1 := rfl
    omega

end Claims

end Gipcy.Linux.Ini
