import Gipcy.Lib.Search
import Gipcy.Linux.Ini.Write

/-! Whether `IPC_writePrivateProfileString` stays inside its arrays: the same steps
with each access checked. -/
namespace Gipcy.Linux.Ini

open CString Lines

/-- `s[strlen(s) - 1] = '\0'` in an array of `size`. -/
def clearLast (size : Nat) (s : Str) : Except Stop Str :=
  let i : Int := s.length - 1
  if 0 ≤ i ∧ i < size then .ok s.dropLast else .error .outOfBounds

/-- A string and its NUL are stored to an array of `size`. -/
def storeString (size : Nat) (s : Str) : Except Stop Str :=
  if s.length < size then .ok s else .error .outOfBounds

/-- `strcpy(pCur, s)`, if `pBuf` has `size` bytes. -/
def Copied.strcpy (size : Nat) (b : Copied) (s : Str) : Except Stop Copied :=
  if b.pBuf.length + s.length < size then .ok (b.put s) else .error .outOfBounds

/-- `strcat(pCur, s)`, which looks for the NUL that an earlier copy has left. -/
def Copied.strcat (size : Nat) (b : Copied) (s : Str) : Except Stop Copied :=
  if b.pBuf = [] then .error .uninitialized else b.strcpy size s

section Search

variable (shift : Str → Str)

/-- `seekSection` with its accesses. -/
def seekSectionIn (size : Nat) (lpAppName : Str) :
    Copied → List Str → Except Stop (Bool × Copied × List Str)
  | b, [] => .ok (false, b, [])
  | b, sLine :: reads =>
    if sLine.length = 0 then seekSectionIn size lpAppName b reads
    else do
      let b ← b.strcpy size sLine
      let sLine ← clearLast 1024 sLine
      if !isSection sLine then seekSectionIn size lpAppName b reads
      else
        let sLine ← clearLast 1024 sLine
        if shift sLine.tail = lpAppName then .ok (true, b, reads)
        else seekSectionIn size lpAppName b reads

end Search

/-- `seekOption` with its accesses. The index in `sNextSection` is `strlen(sLine) - 1`,
and the one is a copy of the other. -/
def seekOptionIn (size : Nat) (lpKeyName : Str) :
    Copied → List Str → Except Stop (Copied × Str × List Str)
  | b, [] => .ok (b, [], [])
  | b, sLine :: reads => do
    let sParamName ← storeString 1024 sLine
    if optionName sParamName = some lpKeyName then .ok (b, [], reads)
    else
      let sNextSection ← storeString 1024 sLine
      let sNextSection ← clearLast 1024 sNextSection
      if isSection sNextSection then .ok (b, sLine, reads)
      else
        let b ← b.strcpy size sLine
        seekOptionIn size lpKeyName b reads

/-- `addOption` with its accesses. -/
def addOptionIn (size : Nat) (lpKeyName lpString : Str) (b : Copied) (sNextSection : Str)
    (reads : List Str) : Except Stop Copied := do
  let sLine ← storeString 1024 (optionLine lpKeyName lpString ++ [nl] ++ sNextSection)
  let b ← b.strcat size sLine
  reads.foldlM (Copied.strcpy size) b

/-- The bytes that `pBuf` has: `nEnd - nStart + 1024`. -/
def allocated (file : List UInt8) : Nat := file.length + 1024

section Call

variable (shift : Str → Str)

/-- `composeFile` with its accesses. -/
def composeFileIn (lpAppName lpKeyName lpString : Str) (file : List UInt8) :
    Except Stop Copied := do
  let (isFindSection, b, reads) ←
    seekSectionIn shift (allocated file) lpAppName ⟨[], 0⟩ ((fgetsAll 1024 file).map cstr)
  if isFindSection then
    let (b, sNextSection, reads) ← seekOptionIn (allocated file) lpKeyName b reads
    addOptionIn (allocated file) lpKeyName lpString b sNextSection reads
  else
    let sLine ← storeString 1024 (header lpAppName ++ [nl])
    let b ← b.strcat (allocated file) sLine
    addOptionIn (allocated file) lpKeyName lpString b [] reads

/-- All accesses of the call are inside its arrays, and of what was written. -/
def InBounds (lpAppName lpKeyName lpString : Str) (file : List UInt8) : Prop :=
  ∃ b, composeFileIn shift lpAppName lpKeyName lpString file = .ok b

/-- The search for the section takes none of the reads for its header. -/
def LacksSection (lpAppName : Str) (reads : List Str) : Prop :=
  ∀ r ∈ reads, heads shift lpAppName r.dropLast = false

end Call

/-- The read ends the loop that looks for the option. -/
def EndsSearch (lpKeyName r : Str) : Prop :=
  optionName r = some lpKeyName ∨ isSection r.dropLast = true

instance (lpKeyName r : Str) : Decidable (EndsSearch lpKeyName r) :=
  inferInstanceAs (Decidable (_ ∨ _))

/-- The header that is read and held back before the option is found. -/
def heldBack (lpKeyName : Str) : List Str → Str
  | [] => []
  | r :: reads =>
    if optionName r = some lpKeyName then []
    else if isSection r.dropLast then r
    else heldBack lpKeyName reads

section Parts

variable {shift : Str → Str} {app key str : Str} {size : Nat} {b : Copied} {reads : List Str}
  {s : Str}

theorem clearLast_ok (hne : s ≠ []) (hs : s.length ≤ size) : clearLast size s = .ok s.dropLast := by
  have hpos := List.length_pos_iff.mpr hne
  exact if_pos ⟨by omega, by omega⟩

theorem clearLast_nil (size : Nat) : clearLast size [] = .error .outOfBounds := rfl

theorem strcpy_ok (h : b.pBuf.length + s.length < size) : b.strcpy size s = .ok (b.put s) :=
  if_pos h

@[simp] theorem Copied.put_pBuf (b : Copied) (s : Str) : (b.put s).pBuf = b.pBuf ++ s := rfl

/-- The first loop stays inside its arrays. -/
theorem seekSectionIn_eq (hreads : ∀ r ∈ reads, r.length < 1024)
    (hroom : b.pBuf.length + reads.flatten.length < size) :
    seekSectionIn shift size app b reads = .ok (seekSection shift app b reads) := by
  induction reads generalizing b with
  | nil => rfl
  | cons r reads ih =>
    obtain ⟨hr, hrest⟩ := List.forall_mem_cons.mp hreads
    rw [List.flatten_cons, List.length_append] at hroom
    rw [seekSectionIn, seekSection]
    by_cases hempty : r.length = 0
    · rw [if_pos hempty, if_pos hempty]
      exact ih hrest (by omega)
    · have hne : r ≠ [] := fun h => hempty (by simp [h])
      have hput : (b.put r).pBuf.length + reads.flatten.length < size := by
        rw [Copied.put_pBuf, List.length_append]
        omega
      rw [if_neg hempty, if_neg hempty, strcpy_ok (by omega), clearLast_ok hne (by omega)]
      simp only [bind, Except.bind]
      cases hsection : isSection r.dropLast with
      | false => exact ih hrest hput
      | true =>
        have hne' : r.dropLast ≠ [] := by
          intro h
          rw [h] at hsection
          cases hsection
        simp only [Bool.not_true, Bool.false_eq_true, if_false,
          clearLast_ok hne' (show r.dropLast.length ≤ 1024 by rw [List.length_dropLast]; omega)]
        split
        · rfl
        · exact ih hrest hput

/-- The second loop stays inside its arrays iff it ends ahead of an empty read. -/
theorem seekOptionIn_eq (hreads : ∀ r ∈ reads, r.length < 1024)
    (hfull : ∀ r ∈ reads.dropLast, r ≠ []) (hroom : b.pBuf.length + reads.flatten.length < size) :
    seekOptionIn size key b reads =
      if (∃ r ∈ reads, EndsSearch key r) ∨ [] ∉ reads then .ok (seekOption key b reads)
      else .error .outOfBounds := by
  induction reads generalizing b with
  | nil => rfl
  | cons r reads ih =>
    obtain ⟨hr, hrest⟩ := List.forall_mem_cons.mp hreads
    rw [List.flatten_cons, List.length_append] at hroom
    have hcopy : storeString 1024 r = .ok r := if_pos hr
    rw [seekOptionIn, seekOption, hcopy]
    simp only [bind, Except.bind]
    by_cases hkey : optionName r = some key
    · rw [if_pos hkey, if_pos hkey, if_pos (.inl ⟨r, List.mem_cons_self, .inl hkey⟩)]
    rw [if_neg hkey, if_neg hkey]
    by_cases hempty : r = []
    · -- Nothing follows an empty read.
      subst hempty
      cases reads with
      | cons m reads => exact absurd rfl (hfull [] (by simp))
      | nil =>
        rw [if_neg (by simp [EndsSearch, optionName, isOptionName, strstr, isSection, chars]),
          clearLast_nil]
    · rw [clearLast_ok hempty (by omega)]
      dsimp only
      by_cases hsection : isSection r.dropLast = true
      · rw [if_pos hsection, if_pos hsection, if_pos (.inl ⟨r, List.mem_cons_self, .inr hsection⟩)]
      · rw [if_neg hsection, if_neg hsection, strcpy_ok (by omega)]
        have hfull' : ∀ m ∈ reads.dropLast, m ≠ [] := by
          intro m hm
          cases reads with
          | nil => cases hm
          | cons n reads => exact hfull m (by simp [hm])
        have hends : ((∃ m ∈ r :: reads, EndsSearch key m) ∨ [] ∉ r :: reads) ↔
            (∃ m ∈ reads, EndsSearch key m) ∨ [] ∉ reads := by
          have hno : ¬ EndsSearch key r := not_or.mpr ⟨hkey, hsection⟩
          simp [hno, Ne.symm hempty]
        dsimp only
        rw [ih hrest hfull' (by rw [Copied.put_pBuf, List.length_append]; omega)]
        simp only [hends]

/-- What the second loop leaves makes up no more than what it was given. -/
theorem seekOption_spec (key : Str) (reads : List Str) (b : Copied) :
    ∃ b' rest, seekOption key b reads = (b', heldBack key reads, rest) ∧
      (b.pBuf ≠ [] → b'.pBuf ≠ []) ∧ b'.pBuf.length + (heldBack key reads).length +
        rest.flatten.length ≤ b.pBuf.length + reads.flatten.length := by
  induction reads generalizing b with
  | nil => exact ⟨b, [], rfl, id, by simp [heldBack]⟩
  | cons r reads ih =>
    rw [seekOption, heldBack]
    by_cases hkey : optionName r = some key
    · rw [if_pos hkey, if_pos hkey]
      exact ⟨b, reads, rfl, id, by simp⟩
    · rw [if_neg hkey, if_neg hkey]
      by_cases hsection : isSection r.dropLast = true
      · rw [if_pos hsection, if_pos hsection]
        exact ⟨b, reads, rfl, id, by simp; omega⟩
      · rw [if_neg hsection, if_neg hsection]
        obtain ⟨b', rest, hseek, hne, hlength⟩ := ih (b.put r)
        refine ⟨b', rest, hseek, fun h => hne (by simp [h]), ?_⟩
        rw [Copied.put_pBuf, List.length_append] at hlength
        rw [List.flatten_cons, List.length_append]
        omega

theorem storeString_ok_iff {t : Str} : storeString size s = .ok t ↔ s.length < size ∧ t = s := by
  unfold storeString
  split <;> simp [*, eq_comm]

theorem strcpy_ok_iff {c : Copied} :
    b.strcpy size s = .ok c ↔ b.pBuf.length + s.length < size ∧ c = b.put s := by
  unfold Copied.strcpy
  split <;> simp [*, eq_comm]

theorem strcat_ok_iff {c : Copied} : b.strcat size s = .ok c ↔
    b.pBuf ≠ [] ∧ b.pBuf.length + s.length < size ∧ c = b.put s := by
  unfold Copied.strcat
  by_cases hempty : b.pBuf = []
  · simp [hempty]
  · rw [if_neg hempty, strcpy_ok_iff]
    exact (and_iff_right hempty).symm

/-- The last loop. -/
theorem foldlM_strcpy_iff {c : Copied} (hb : b.pBuf.length < size) :
    reads.foldlM (Copied.strcpy size) b = .ok c ↔
      b.pBuf.length + reads.flatten.length < size ∧ c = copyReads b reads := by
  induction reads generalizing b with
  | nil =>
    constructor
    · intro h
      cases h
      exact ⟨hb, rfl⟩
    · rintro ⟨-, rfl⟩
      rfl
  | cons r reads ih =>
    rw [List.foldlM_cons, bind_eq_ok_iff, List.flatten_cons, List.length_append, ← Nat.add_assoc]
    constructor
    · rintro ⟨d, hcopy, hrest⟩
      obtain ⟨hroom, rfl⟩ := strcpy_ok_iff.mp hcopy
      rwa [ih (by simpa using hroom), Copied.put_pBuf, List.length_append] at hrest
    · rintro ⟨hroom, rfl⟩
      refine ⟨b.put r, strcpy_ok (by omega), (ih ?_).mpr ⟨?_, rfl⟩⟩
      · rw [Copied.put_pBuf, List.length_append]
        omega
      · rwa [Copied.put_pBuf, List.length_append]

/-- The option is added inside the arrays iff `sLine` has room for it and `pBuf`,
to which something was copied, for all. -/
theorem addOptionIn_iff {next : Str} {c : Copied} :
    addOptionIn size key str b next reads = .ok c ↔
      ((optionLine key str).length + 1 + next.length < 1024 ∧ b.pBuf ≠ [] ∧
        b.pBuf.length + ((optionLine key str).length + 1 + next.length) + reads.flatten.length <
          size) ∧ c = copyReads (b.put (optionLine key str ++ [nl] ++ next)) reads := by
  have hlength : (optionLine key str ++ [nl] ++ next).length =
      (optionLine key str).length + 1 + next.length := by
    simp only [List.length_append, List.length_singleton]
  unfold addOptionIn
  rw [bind_eq_ok_iff, ← hlength]
  generalize optionLine key str ++ [nl] ++ next = sLine
  constructor
  · rintro ⟨t, hstore, hrest⟩
    obtain ⟨hline, rfl⟩ := storeString_ok_iff.mp hstore
    obtain ⟨d, hcat, hrest⟩ := ok_of_bind hrest
    obtain ⟨hne, hroom, rfl⟩ := strcat_ok_iff.mp hcat
    have hput : (b.put t).pBuf.length < size := by simpa using hroom
    obtain ⟨hall, rfl⟩ := (foldlM_strcpy_iff hput).mp hrest
    rw [Copied.put_pBuf, List.length_append] at hall
    exact ⟨⟨hline, hne, hall⟩, rfl⟩
  · rintro ⟨⟨hline, hne, hall⟩, rfl⟩
    refine ⟨sLine, storeString_ok_iff.mpr ⟨hline, rfl⟩, bind_eq_ok_iff.mpr
      ⟨b.put sLine, strcat_ok_iff.mpr ⟨hne, by omega, rfl⟩, (foldlM_strcpy_iff ?_).mpr ⟨?_, rfl⟩⟩⟩
    · rw [Copied.put_pBuf, List.length_append]
      omega
    · rwa [Copied.put_pBuf, List.length_append]

end Parts

section Call

variable {shift : Str → Str} {app key str : Str} {file : List UInt8}

theorem map_cstr_fgetsAll (zero : 0 ∉ file) (size : Nat) :
    (fgetsAll size file).map cstr = fgetsAll size file := by
  refine (List.map_congr_left fun r hr => cstr_self fun hzero => zero ?_).trans (List.map_id _)
  rw [← flatten_fgetsAll size file]
  exact List.mem_flatten_of_mem hr hzero

theorem length_reads (file : List UInt8) : ∀ r ∈ fgetsAll 1024 file, r.length < 1024 :=
  fun _ hr => length_lt_of_mem_fgetsFrom (by decide) hr

/-- The first loop of the call stays inside its arrays. -/
theorem seekSectionIn_file (shift : Str → Str) (app : Str) (file : List UInt8) :
    seekSectionIn shift (allocated file) app ⟨[], 0⟩ (fgetsAll 1024 file) =
      .ok (seekSection shift app ⟨[], 0⟩ (fgetsAll 1024 file)) := by
  refine seekSectionIn_eq (length_reads file) ?_
  rw [flatten_fgetsAll, List.length_nil, allocated]
  omega

/-- What is left of the call on a file without the section. -/
theorem composeFileIn_lacks_iff (zero : 0 ∉ file)
    (lacks : LacksSection shift app (fgetsAll 1024 file)) (c : Copied) :
    composeFileIn shift app key str file = .ok c ↔
      ∃ t, storeString 1024 (header app ++ [nl]) = .ok t ∧
      ∃ d, Copied.strcat (allocated file) ⟨file, file.length⟩ t = .ok d ∧
        addOptionIn (allocated file) key str d [] [] = .ok c := by
  have hput : (⟨[], 0⟩ : Copied).put file = ⟨file, file.length⟩ := by simp [Copied.put]
  unfold composeFileIn
  rw [map_cstr_fgetsAll zero, seekSectionIn_file, seekSection_lacks lacks, flatten_fgetsAll, hput]
  simp only [← bind_eq_ok_iff]
  rfl

/-- What is left of the call on a file with the section, the header of which is the
read `r`. -/
theorem composeFileIn_at_iff (zero : 0 ∉ file) {before after : List Str} {r : Str}
    (hreads : fgetsAll 1024 file = before ++ r :: after) (hbefore : LacksSection shift app before)
    (hr : heads shift app r.dropLast = true) : ∃ b rest,
      seekOption key ((⟨[], 0⟩ : Copied).put (before ++ [r]).flatten) after =
        (b, heldBack key after, rest) ∧ b.pBuf ≠ [] ∧
      b.pBuf.length + (heldBack key after).length + rest.flatten.length ≤ file.length ∧
      ∀ c, composeFileIn shift app key str file = .ok c ↔
        ((∃ m ∈ after, EndsSearch key m) ∨ [] ∉ after) ∧
          addOptionIn (allocated file) key str b (heldBack key after) rest = .ok c := by
  have hsize : (before ++ [r]).flatten.length + after.flatten.length = file.length := by
    have hfile := congrArg List.length (flatten_fgetsAll 1024 file)
    rw [hreads] at hfile
    simp only [List.flatten_append, List.flatten_cons, List.length_append, List.flatten_nil,
      List.length_nil] at hfile ⊢
    omega
  have hlengths : ∀ m ∈ after, m.length < 1024 := fun m hm =>
    length_reads file m (by rw [hreads]; simp [hm])
  have hfull : ∀ m ∈ after.dropLast, m ≠ [] := by
    intro m hm
    have hne : after ≠ [] := by
      rintro rfl
      cases hm
    refine @ne_nil_of_mem_fgetsAll 1024 file m ?_
    rw [hreads, List.dropLast_append_of_ne_nil (List.cons_ne_nil r after),
      List.dropLast_cons_of_ne_nil hne]
    exact List.mem_append_right _ (List.mem_cons_of_mem r hm)
  have hopened : ((⟨[], 0⟩ : Copied).put (before ++ [r]).flatten).pBuf = (before ++ [r]).flatten :=
    rfl
  have hheader : (before ++ [r]).flatten ≠ [] := by
    intro h
    have hempty : r = [] := List.flatten_eq_nil_iff.mp h r (by simp)
    rw [hempty, List.dropLast_nil, heads_nil] at hr
    cases hr
  obtain ⟨b, rest, hseek, hne, hlength⟩ :=
    seekOption_spec key after ((⟨[], 0⟩ : Copied).put (before ++ [r]).flatten)
  rw [hopened] at hne hlength
  refine ⟨b, rest, hseek, hne hheader, by omega, fun c => ?_⟩
  unfold composeFileIn
  rw [map_cstr_fgetsAll zero, seekSectionIn_file, hreads, seekSection_at hbefore hr]
  show (seekOptionIn (allocated file) key _ after >>= _) = _ ↔ _
  rw [seekOptionIn_eq hlengths hfull (by rw [hopened, allocated]; omega), hseek]
  split
  · rename_i hends
    exact (and_iff_right hends).symm
  · rename_i hends
    exact iff_of_false (fun h => by cases h) (fun h => hends h.1)

/-- Without the section there must be something in the file, and room for two lines. -/
theorem inBounds_lacks_iff (zero : 0 ∉ file) (lacks : LacksSection shift app (fgetsAll 1024 file)) :
    InBounds shift app key str file ↔ file ≠ [] ∧
      (header app).length + (optionLine key str).length + 2 < 1024 := by
  have hlength : (header app ++ [nl]).length = (header app).length + 1 := by simp
  simp only [InBounds, composeFileIn_lacks_iff zero lacks, storeString_ok_iff, strcat_ok_iff,
    addOptionIn_iff, hlength]
  constructor
  · rintro ⟨-, -, ⟨hline, rfl⟩, -, ⟨hne, hroom, rfl⟩, ⟨-, -, hall⟩, -⟩
    refine ⟨hne, ?_⟩
    simp only [Copied.put_pBuf, List.length_append, List.length_singleton, List.length_nil,
      List.flatten_nil, allocated] at hall
    omega
  · rintro ⟨hne, hfits⟩
    refine ⟨_, _, ⟨by omega, rfl⟩, _, ⟨hne, ?_, rfl⟩, ⟨?_, ?_, ?_⟩, rfl⟩
    · simp only [List.length_append, List.length_singleton, allocated]
      omega
    · rw [List.length_nil]
      omega
    · simp [hne]
    · simp only [Copied.put_pBuf, List.length_append, List.length_singleton, List.length_nil,
        List.flatten_nil, allocated]
      omega

/-- With the section the search for the option must end ahead of an empty read. -/
theorem inBounds_at_iff (zero : 0 ∉ file) {before after : List Str} {r : Str}
    (hreads : fgetsAll 1024 file = before ++ r :: after) (hbefore : LacksSection shift app before)
    (hr : heads shift app r.dropLast = true) :
    InBounds shift app key str file ↔ ((∃ m ∈ after, EndsSearch key m) ∨ [] ∉ after) ∧
      (optionLine key str).length + 1 + (heldBack key after).length < 1024 := by
  obtain ⟨b, rest, -, hne, hlength, hcall⟩ :=
    @composeFileIn_at_iff shift app key str file zero before after r hreads hbefore hr
  simp only [InBounds, hcall, addOptionIn_iff, exists_and_left]
  constructor
  · rintro ⟨hends, ⟨hline, -⟩, -⟩
    exact ⟨hends, hline⟩
  · rintro ⟨hends, hline⟩
    refine ⟨hends, ⟨hline, hne, ?_⟩, _, rfl⟩
    rw [allocated]
    omega

/-- The section is there or not. -/
theorem lacks_or_at (shift : Str → Str) (app : Str) (reads : List Str) :
    LacksSection shift app reads ∨
      ∃ before r after, reads = before ++ r :: after ∧ LacksSection shift app before ∧
        heads shift app r.dropLast = true :=
  SectionStore.first_or_none (fun r : Str => heads shift app r.dropLast) reads

theorem addOption_of_in {b c : Copied} {next : Str} {reads : List Str}
    (h : addOptionIn (allocated file) key str b next reads = .ok c) :
    addOption key str file.length b next reads = .ok c := by
  obtain ⟨⟨hline, hne, hall⟩, rfl⟩ := addOptionIn_iff.mp h
  have hlength : (optionLine key str ++ [nl] ++ next).length =
      (optionLine key str).length + 1 + next.length := by
    simp only [List.length_append, List.length_singleton]
  have hcat : strcatLine b (optionLine key str ++ [nl] ++ next) =
      .ok (b.put (optionLine key str ++ [nl] ++ next)) := by
    rw [strcatLine, if_neg (by omega), if_neg hne]
  unfold addOption
  rw [hcat]
  show (if _ then _ else _) = _
  rw [if_pos]
  rw [copyReads_eq, Copied.put_put, Copied.put_pBuf, List.length_append, List.length_append,
    hlength]
  rw [allocated] at hall
  omega

/-- What the call composes with its accesses checked is what it composes. -/
theorem composeFile_of_in (zero : 0 ∉ file) {c : Copied}
    (h : composeFileIn shift app key str file = .ok c) :
    composeFile shift app key str file = .ok c := by
  obtain lacks | ⟨before, r, after, hreads, hbefore, hr⟩ :=
    lacks_or_at shift app (fgetsAll 1024 file)
  · obtain ⟨t, hstore, d, hcat, hadd⟩ := (composeFileIn_lacks_iff zero lacks c).mp h
    obtain ⟨hline, rfl⟩ := storeString_ok_iff.mp hstore
    obtain ⟨hne, -, rfl⟩ := strcat_ok_iff.mp hcat
    have hput : (⟨[], 0⟩ : Copied).put file = ⟨file, file.length⟩ := by simp [Copied.put]
    have hcopied : strcatLine ⟨file, file.length⟩ (header app ++ [nl]) =
        .ok ((⟨file, file.length⟩ : Copied).put (header app ++ [nl])) := by
      rw [strcatLine, if_neg (Nat.not_le.mpr hline), if_neg hne]
    unfold composeFile
    rw [map_cstr_fgetsAll zero, seekSection_lacks lacks, flatten_fgetsAll, hput]
    show (strcatLine ⟨file, file.length⟩ (header app ++ [nl]) >>= _) = _
    rw [hcopied]
    exact addOption_of_in hadd
  · obtain ⟨b, rest, hseek, -, -, hcall⟩ :=
      @composeFileIn_at_iff shift app key str file zero before after r hreads hbefore hr
    obtain ⟨-, hadd⟩ := (hcall c).mp h
    unfold composeFile
    rw [map_cstr_fgetsAll zero, hreads, seekSection_at hbefore hr]
    simp only [hseek]
    exact addOption_of_in hadd

end Call

section Claims

/-- The call stays inside its arrays iff, on a file of which no read is taken for the header of
the section, there is something in the file and room for both lines, and on one with such a
read, the option or another header follows or the last line has no end, and there is room for
the line with the header that is held back. -/
theorem in_bounds_iff {file : List UInt8} (zero : 0 ∉ file) (shift : Str → Str)
    (lpAppName lpKeyName lpString : Str) :
    InBounds shift lpAppName lpKeyName lpString file ↔
      (LacksSection shift lpAppName (fgetsAll 1024 file) ∧ file ≠ [] ∧
        (header lpAppName).length + (optionLine lpKeyName lpString).length + 2 < 1024) ∨
      ∃ before r after, fgetsAll 1024 file = before ++ r :: after ∧
        LacksSection shift lpAppName before ∧ heads shift lpAppName r.dropLast = true ∧
        ((∃ m ∈ after, EndsSearch lpKeyName m) ∨ [] ∉ after) ∧
        (optionLine lpKeyName lpString).length + 1 + (heldBack lpKeyName after).length < 1024 := by
  constructor
  · intro h
    obtain lacks | ⟨before, r, after, hreads, hbefore, hr⟩ :=
      lacks_or_at shift lpAppName (fgetsAll 1024 file)
    · exact .inl ⟨lacks, (inBounds_lacks_iff zero lacks).mp h⟩
    · exact .inr ⟨before, r, after, hreads, hbefore, hr,
        (inBounds_at_iff zero hreads hbefore hr).mp h⟩
  · rintro (⟨lacks, h⟩ | ⟨before, r, after, hreads, hbefore, hr, h⟩)
    · exact (inBounds_lacks_iff zero lacks).mpr h
    · exact (inBounds_at_iff zero hreads hbefore hr).mpr h

/-- `k=1` is written to `[s]` and `k=0`. -/
theorem in_bounds_replaced : InBounds moveTwice (chars ['s']) (chars ['k']) (chars ['1'])
    (chars ['[', 's', ']', '\n', 'k', '=', '0', '\n']) :=
  (in_bounds_iff (by decide) _ _ _ _).mpr (.inr ⟨[], chars ['[', 's', ']', '\n'],
    [chars ['k', '=', '0', '\n'], []], by decide, by simp [LacksSection], by decide,
    .inl ⟨_, List.mem_cons_self, by decide⟩, by decide⟩)

/-- `k=1` is written to a file that has the line `[s]` only. -/
theorem not_in_bounds : ¬ ∀ (file : List UInt8) (lpAppName lpKeyName lpString : Str), 0 ∉ file →
    (header lpAppName).length + 1 ≤ 1023 →
    (∀ l ∈ file.splitOn nl, (optionLine lpKeyName lpString).length + 1 + (l.length + 1) ≤ 1023) →
    InBounds moveTwice lpAppName lpKeyName lpString file := by
  intro inside
  have h := inside (chars ['[', 's', ']', '\n']) (chars ['s']) (chars ['k']) (chars ['1'])
    (by decide) (by decide) (by decide)
  obtain ⟨hends, -⟩ := (@inBounds_at_iff _ _ _ _ _ (by decide) [] [[]]
    (chars ['[', 's', ']', '\n']) (by decide) (by simp [LacksSection]) (by decide)).mp h
  revert hends
  decide

end Claims

end Gipcy.Linux.Ini
