import Gipcy.Lib.SectionStore
import Gipcy.Linux.Ini.Text

/-! `IPC_writePrivateProfileString`. -/
namespace Gipcy.Linux.Ini

open CString Lines

/-- What was copied to `pBuf`, up to `pCur`, and `nSize`. -/
structure Copied where
  pBuf : Str
  nSize : Nat
deriving DecidableEq

def Copied.put (b : Copied) (s : Str) : Copied := ⟨b.pBuf ++ s, b.nSize + s.length⟩

section Search

/-! `strcpy(sLine, sLine + 1)` copies the name of a header over itself. C leaves that undefined;
`shift` is what it makes of a name. -/

variable (shift : Str → Str)

/-- The loop that looks for the section, on the reads that are still to come, and
the reads that it leaves if it finds one. -/
def seekSection (lpAppName : Str) : Copied → List Str → Bool × Copied × List Str
  | b, [] => (false, b, [])
  | b, sLine :: reads =>
    if sLine.length = 0 then seekSection lpAppName b reads
    else
      let b := b.put sLine
      let sLine := sLine.dropLast
      if !isSection sLine then seekSection lpAppName b reads
      else
        let sLine := shift sLine.dropLast.tail
        if sLine = lpAppName then (true, b, reads) else seekSection lpAppName b reads

/-- The loop takes the line for the header of the section. -/
def heads (lpAppName l : Str) : Bool := isSection l && shift l.dropLast.tail = lpAppName

end Search

/-- A `strcpy` that moves four bytes and then the last four, which are read after the first
move, on a name of four to seven characters. -/
def moveTwice (name : Str) : Str :=
  if 4 ≤ name.length ∧ name.length ≤ 7 then
    let moved := name.take 4 ++ name.drop 3
    moved.take (name.length - 3) ++ moved.drop (name.length - 2)
  else name

/-- The loop that looks for the option in the section. It leaves `sNextSection`
and the reads that are still to come. -/
def seekOption (lpKeyName : Str) : Copied → List Str → Copied × Str × List Str
  | b, [] => (b, [], [])
  | b, sLine :: reads =>
    if optionName sLine = some lpKeyName then (b, [], reads)
    else if isSection sLine.dropLast then (b, sLine, reads)
    else seekOption lpKeyName (b.put sLine) reads

/-- `strcat(pCur, sLine)` of a string that was put together in `sLine`. -/
def strcatLine (b : Copied) (sLine : Str) : Except Stop Copied :=
  if 1024 ≤ sLine.length then .error .outOfBounds
  -- `pBuf` comes from `new char[]`, and nothing was copied to it.
  else if b.pBuf = [] then .error .uninitialized
  else .ok (b.put sLine)

def copyReads (b : Copied) (reads : List Str) : Copied := reads.foldl Copied.put b

def optionLine (lpKeyName lpString : Str) : Str := lpKeyName ++ chars ['='] ++ lpString

/-- The option is added, and the reads that are left are copied. `pBuf` has the
size of the file and 1024 bytes more. -/
def addOption (lpKeyName lpString : Str) (size : Nat) (b : Copied) (sNextSection : Str)
    (reads : List Str) : Except Stop Copied := do
  let b ← strcatLine b (optionLine lpKeyName lpString ++ [nl] ++ sNextSection)
  let b := copyReads b reads
  if b.pBuf.length < size + 1024 then .ok b else .error .outOfBounds

section Call

variable (shift : Str → Str)

/-- The new contents of the file. -/
def composeFile (lpAppName lpKeyName lpString : Str) (file : List UInt8) : Except Stop Copied :=
  match seekSection shift lpAppName ⟨[], 0⟩ ((fgetsAll 1024 file).map cstr) with
  | (true, b, reads) =>
    let (b, sNextSection, reads) := seekOption lpKeyName b reads
    addOption lpKeyName lpString file.length b sNextSection reads
  | (false, b, reads) => do
    let b ← strcatLine b (header lpAppName ++ [nl])
    addOption lpKeyName lpString file.length b [] reads

/-- What the call returns, and the file after it. `file` is `none` if it cannot
be opened for reading, `reopened` is whether it can be opened for writing. -/
def writePrivateProfileString (lpAppName lpKeyName lpString : Str) (file : Option (List UInt8))
    (reopened : Bool) : Except Stop (Int × Option (List UInt8)) :=
  match file with
  | none => .ok (-1, none)
  | some file => do
    let b ← composeFile shift lpAppName lpKeyName lpString file
    if reopened then .ok (0, some (b.pBuf.take b.nSize)) else .ok (-1, some file)

end Call

/-! Where the option goes in a file of whole lines. -/

/-- The lines of a section, cut at the option or at the next section. -/
def splitSection (lpKeyName : Str) : List Str → List Str × List Str
  | [] => ([], [])
  | l :: lines =>
    if optionName l = some lpKeyName then ([], lines)
    else if isSection l then ([], l :: lines)
    else
      let (ahead, behind) := splitSection lpKeyName lines
      (l :: ahead, behind)

/-- The header that ends a section without the option, which is copied with it. -/
def nextSection (lpKeyName : Str) : List Str → Str
  | [] => []
  | l :: lines =>
    if optionName l = some lpKeyName then []
    else if isSection l then l ++ [nl]
    else nextSection lpKeyName lines

/-- The lines ahead of the one that is written, and the lines behind it. -/
def splitFile (shift : Str → Str) (lpAppName lpKeyName : Str) :
    List Str → List Str × List Str
  | [] => ([header lpAppName], [])
  | l :: lines =>
    if heads shift lpAppName l then
      let (ahead, behind) := splitSection lpKeyName lines
      (l :: ahead, behind)
    else
      let (ahead, behind) := splitFile shift lpAppName lpKeyName lines
      (l :: ahead, behind)

section Writer

variable {shift : Str → Str} {lpAppName lpKeyName lpString l : Str} {lines : List Str}

theorem optionLine_eq (lpKeyName lpString : Str) :
    optionLine lpKeyName lpString = lpKeyName ++ '='.toUInt8 :: lpString := by
  simp [optionLine, chars]

theorem textLine_header (section_newline : nl ∉ lpAppName) (section_zero : 0 ∉ lpAppName)
    (hlength : (header lpAppName).length ≤ 1022) : TextLine (header lpAppName) where
  newline := by
    have hopen : nl ≠ '['.toUInt8 := by decide
    have hclose : nl ≠ ']'.toUInt8 := by decide
    simp [header, section_newline, hopen, hclose]
  zero := zero_not_mem_header section_zero
  length := hlength

theorem textLine_optionLine (key_newline : nl ∉ lpKeyName) (key_zero : 0 ∉ lpKeyName)
    (value_newline : nl ∉ lpString) (value_zero : 0 ∉ lpString)
    (hlength : (optionLine lpKeyName lpString).length ≤ 1022) :
    TextLine (optionLine lpKeyName lpString) where
  newline := by
    have hequals : nl ≠ '='.toUInt8 := by decide
    simp [optionLine_eq, key_newline, hequals, value_newline]
  zero := by
    have hequals : (0 : UInt8) ≠ '='.toUInt8 := by decide
    simp [optionLine_eq, key_zero, hequals, value_zero]
  length := hlength

/-- The reads of a file of whole lines. -/
def readsOf (lines : List Str) : List Str := lines.map (· ++ [nl]) ++ [[]]

theorem reads_textOf (h : ∀ l ∈ lines, TextLine l) :
    (fgetsAll 1024 (textOf lines)).map cstr = readsOf lines := by
  have hfits : ∀ l ∈ lines, nl ∉ l ∧ l.length + 2 ≤ 1024 := fun l hl =>
    ⟨(h l hl).newline, by have := (h l hl).length; omega⟩
  rw [fgetsAll_textOf hfits]
  have hcstr : ∀ l ∈ lines, cstr (l ++ [nl]) = l ++ [nl] := by
    intro l hl
    have hnl : (0 : UInt8) ≠ nl := by decide
    exact cstr_self (by simp [(h l hl).zero, hnl])
  have hmap : (lines.map (· ++ [nl])).map cstr = lines.map (· ++ [nl]) := by
    rw [List.map_map]
    exact List.map_congr_left hcstr
  rw [List.map_append, hmap]
  rfl

@[simp] theorem readsOf_cons (l : Str) (lines : List Str) :
    readsOf (l :: lines) = (l ++ [nl]) :: readsOf lines := rfl

theorem flatten_readsOf (lines : List Str) : (readsOf lines).flatten = textOf lines := by
  simp [readsOf, textOf, List.flatMap]

theorem Copied.put_put (b : Copied) (s t : Str) : (b.put s).put t = b.put (s ++ t) := by
  simp [Copied.put, Nat.add_assoc]

theorem copyReads_eq (b : Copied) (reads : List Str) : copyReads b reads = b.put reads.flatten := by
  induction reads generalizing b with
  | nil => simp [copyReads, Copied.put]
  | cons s reads ih =>
    show copyReads (b.put s) reads = _
    rw [ih, Copied.put_put, List.flatten_cons]

/-- The loop compares the whole line. -/
theorem eq_header_iff :
    l = header lpAppName ↔ isSection l = true ∧ l.dropLast.tail = lpAppName := by
  constructor
  · rintro rfl
    have hclose : (header lpAppName).getLast? = some ']'.toUInt8 := List.getLast?_concat
    have hname : (header lpAppName).dropLast = '['.toUInt8 :: lpAppName := List.dropLast_concat
    exact ⟨decide_eq_true ⟨rfl, hclose⟩, by rw [hname, List.tail_cons]⟩
  · rintro ⟨hsection, rfl⟩
    obtain ⟨hopen, hclose⟩ := of_decide_eq_true hsection
    cases l with
    | nil => cases hopen
    | cons c l =>
      cases Option.some.inj hopen
      rcases List.eq_nil_or_concat l with rfl | ⟨name, d, rfl⟩
      · exact absurd hclose (by decide)
      · have hlast : ('['.toUInt8 :: name.concat d).getLast? = some d := by
          rw [List.concat_eq_append, ← List.cons_append]
          exact List.getLast?_concat
        cases Option.some.inj (hlast.symm.trans hclose)
        have hname : ('['.toUInt8 :: name.concat ']'.toUInt8).dropLast = '['.toUInt8 :: name := by
          rw [List.concat_eq_append, ← List.cons_append]
          exact List.dropLast_concat
        rw [hname, List.tail_cons, header, List.concat_eq_append, List.cons_append]

/-- The newline does not belong to the name. -/
theorem optionName_newline (l : Str) : optionName (l ++ [nl]) = optionName l := by
  have hnl : '='.toUInt8 ∉ [nl] := by decide
  have hsame : isOptionName (l ++ [nl]) = isOptionName l := strstr_append_right hnl l
  rw [optionName, optionName, hsame]
  cases h : isOptionName l with
  | none => rfl
  | some i =>
    have hlt := strstr_add_length_le h
    have hi : i ≤ l.length := by omega
    rw [Option.map_some, Option.map_some, List.take_append_of_le_length hi]

theorem isSection_header (lpAppName : Str) : isSection (header lpAppName) = true :=
  (eq_header_iff.mp rfl).1

/-- A line that is taken for the header of a section is the header of one. -/
theorem exists_header (h : isSection l = true) : ∃ name, l = header name :=
  ⟨_, eq_header_iff.mpr ⟨h, rfl⟩⟩

theorem heads_isSection (h : heads shift lpAppName l = true) : isSection l = true :=
  (Bool.and_eq_true_iff.mp h).1

theorem heads_header (shift : Str → Str) (lpAppName name : Str) :
    heads shift lpAppName (header name) = true ↔ shift name = lpAppName := by
  obtain ⟨hsection, hname⟩ := eq_header_iff.mp (rfl : header name = header name)
  rw [heads, hsection, hname, Bool.true_and, decide_eq_true_eq]

theorem heads_nil (shift : Str → Str) (lpAppName : Str) : heads shift lpAppName [] = false := rfl

/-- The first loop on one read. -/
theorem seekSection_cons (b : Copied) (r : Str) (reads : List Str) :
    seekSection shift lpAppName b (r :: reads) =
      if heads shift lpAppName r.dropLast then (true, b.put r, reads)
      else seekSection shift lpAppName (b.put r) reads := by
  rw [seekSection]
  by_cases hempty : r.length = 0
  · obtain rfl := List.length_eq_zero_iff.mp hempty
    rw [if_pos hempty, List.dropLast_nil, heads_nil]
    simp [Copied.put]
  · rw [if_neg hempty]
    cases hsection : isSection r.dropLast <;> simp [heads, hsection]

theorem seekSection_lacks {reads : List Str}
    (h : ∀ r ∈ reads, heads shift lpAppName r.dropLast = false) (b : Copied) :
    seekSection shift lpAppName b reads = (false, b.put reads.flatten, []) := by
  induction reads generalizing b with
  | nil => simp [seekSection, Copied.put]
  | cons r reads ih =>
    obtain ⟨hr, hreads⟩ := List.forall_mem_cons.mp h
    rw [seekSection_cons, if_neg (Bool.eq_false_iff.mp hr), ih hreads, Copied.put_put,
      List.flatten_cons]

theorem seekSection_at {before : List Str} {r : Str}
    (h : ∀ m ∈ before, heads shift lpAppName m.dropLast = false)
    (hr : heads shift lpAppName r.dropLast = true) (after : List Str) (b : Copied) :
    seekSection shift lpAppName b (before ++ r :: after) =
      (true, b.put (before ++ [r]).flatten, after) := by
  induction before generalizing b with
  | nil =>
    rw [List.nil_append, seekSection_cons, if_pos hr]
    simp
  | cons m before ih =>
    obtain ⟨hm, hbefore⟩ := List.forall_mem_cons.mp h
    rw [List.cons_append, seekSection_cons, if_neg (Bool.eq_false_iff.mp hm), ih hbefore,
      Copied.put_put, List.cons_append, List.flatten_cons]

theorem lacks_readsOf (h : ∀ l ∈ lines, heads shift lpAppName l = false) :
    ∀ r ∈ readsOf lines, heads shift lpAppName r.dropLast = false := by
  intro r hr
  rcases List.mem_append.mp hr with hr | hr
  · obtain ⟨l, hl, rfl⟩ := List.mem_map.mp hr
    rw [List.dropLast_concat]
    exact h l hl
  · obtain rfl := List.mem_singleton.mp hr
    exact heads_nil shift lpAppName

theorem seekSection_absent (h : ∀ l ∈ lines, heads shift lpAppName l = false) (b : Copied) :
    seekSection shift lpAppName b (readsOf lines) = (false, b.put (textOf lines), []) := by
  rw [seekSection_lacks (lacks_readsOf h), flatten_readsOf]

theorem seekSection_found {before : List Str}
    (h : ∀ m ∈ before, heads shift lpAppName m = false) (hl : heads shift lpAppName l = true)
    (after : List Str) (b : Copied) :
    seekSection shift lpAppName b (readsOf (before ++ l :: after)) =
      (true, b.put (textOf (before ++ [l])), readsOf after) := by
  have hbefore : ∀ m ∈ before.map (· ++ [nl]), heads shift lpAppName m.dropLast = false :=
    fun m hm => lacks_readsOf h m (List.mem_append_left _ hm)
  have hreads : readsOf (before ++ l :: after) =
      before.map (· ++ [nl]) ++ (l ++ [nl]) :: readsOf after := by simp [readsOf]
  rw [hreads, seekSection_at hbefore (by rwa [List.dropLast_concat])]
  simp [textOf, List.flatMap]

theorem seekOption_eq (lpKeyName : Str) (lines : List Str) (b : Copied) :
    ∃ reads, seekOption lpKeyName b (readsOf lines) =
        (b.put (textOf (splitSection lpKeyName lines).1), nextSection lpKeyName lines, reads) ∧
      nextSection lpKeyName lines ++ reads.flatten = textOf (splitSection lpKeyName lines).2 := by
  induction lines generalizing b with
  | nil =>
    refine ⟨[], ?_, rfl⟩
    simp [readsOf, seekOption, splitSection, nextSection, Copied.put, optionName, isOptionName,
      isSection, strstr, chars]
  | cons l lines ih =>
    rw [readsOf_cons, seekOption, optionName_newline, List.dropLast_concat, splitSection,
      nextSection]
    by_cases hkey : optionName l = some lpKeyName
    · rw [if_pos hkey, if_pos hkey, if_pos hkey]
      exact ⟨readsOf lines, by simp [Copied.put], flatten_readsOf lines⟩
    · rw [if_neg hkey, if_neg hkey, if_neg hkey]
      by_cases hsection : isSection l = true
      · rw [if_pos hsection, if_pos hsection, if_pos hsection]
        refine ⟨readsOf lines, by simp [Copied.put], ?_⟩
        rw [flatten_readsOf, textOf_cons, List.append_assoc]
        rfl
      · rw [if_neg hsection, if_neg hsection, if_neg hsection]
        obtain ⟨reads, hseek, hrest⟩ := ih (b.put (l ++ [nl]))
        refine ⟨reads, ?_, hrest⟩
        rw [hseek, Copied.put_put]
        simp

theorem splitFile_absent (h : ∀ l ∈ lines, heads shift lpAppName l = false) :
    splitFile shift lpAppName lpKeyName lines = (lines ++ [header lpAppName], []) := by
  induction lines with
  | nil => rfl
  | cons l lines ih =>
    obtain ⟨hl, hlines⟩ := List.forall_mem_cons.mp h
    rw [splitFile, if_neg (Bool.eq_false_iff.mp hl), ih hlines]
    rfl

theorem splitFile_found {before : List Str} (h : ∀ m ∈ before, heads shift lpAppName m = false)
    (hl : heads shift lpAppName l = true) (after : List Str) :
    splitFile shift lpAppName lpKeyName (before ++ l :: after) =
      (before ++ l :: (splitSection lpKeyName after).1, (splitSection lpKeyName after).2) := by
  induction before with
  | nil =>
    rw [List.nil_append, splitFile, if_pos hl]
    rfl
  | cons m before ih =>
    obtain ⟨hm, hbefore⟩ := List.forall_mem_cons.mp h
    rw [List.cons_append, splitFile, if_neg (Bool.eq_false_iff.mp hm), ih hbefore]
    rfl

theorem strcatLine_ok {b b' : Copied} {sLine : Str} (h : strcatLine b sLine = .ok b') :
    b' = b.put sLine ∧ sLine.length < 1024 := by
  unfold strcatLine at h
  split at h
  · cases h
  · split at h
    · cases h
    · cases h
      exact ⟨rfl, by omega⟩

theorem addOption_ok {b b' : Copied} {size : Nat} {sNextSection : Str} {reads : List Str}
    (h : addOption lpKeyName lpString size b sNextSection reads = .ok b') :
    b' = b.put (optionLine lpKeyName lpString ++ nl :: (sNextSection ++ reads.flatten)) ∧
      (optionLine lpKeyName lpString).length ≤ 1022 := by
  obtain ⟨c, hcat, h⟩ := ok_of_bind h
  obtain ⟨rfl, hsize⟩ := strcatLine_ok hcat
  simp only [List.length_append, List.length_singleton] at hsize
  refine ⟨?_, by omega⟩
  dsimp only at h
  split at h
  · cases h
    rw [copyReads_eq, Copied.put_put]
    simp
  · cases h

/-- What was written, if the call came to the end: the new line stands between
the lines ahead of it and the lines behind it. -/
theorem composeFile_ok (hlines : ∀ l ∈ lines, TextLine l) {b : Copied}
    (h : composeFile shift lpAppName lpKeyName lpString (textOf lines) = .ok b) :
    b = (⟨[], 0⟩ : Copied).put
        (textOf ((splitFile shift lpAppName lpKeyName lines).1 ++ optionLine lpKeyName lpString ::
          (splitFile shift lpAppName lpKeyName lines).2)) ∧
      (optionLine lpKeyName lpString).length ≤ 1022 ∧
      ((∀ l ∈ lines, heads shift lpAppName l = false) → (header lpAppName).length ≤ 1022) := by
  unfold composeFile at h
  rw [reads_textOf hlines] at h
  rcases SectionStore.first_or_none (heads shift lpAppName) lines with
    hnone | ⟨before, l, after, rfl, hbefore, hl⟩
  · rw [seekSection_absent hnone] at h
    obtain ⟨c, hcat, h⟩ := ok_of_bind h
    obtain ⟨rfl, hsize⟩ := strcatLine_ok hcat
    obtain ⟨rfl, hoption⟩ := addOption_ok h
    rw [List.length_append, List.length_singleton] at hsize
    refine ⟨?_, hoption, fun _ => by omega⟩
    rw [splitFile_absent hnone, Copied.put_put, Copied.put_put]
    simp
  · obtain ⟨reads, hseek, hrest⟩ := seekOption_eq lpKeyName after
      ((⟨[], 0⟩ : Copied).put (textOf (before ++ [l])))
    rw [seekSection_found hbefore hl] at h
    simp only [hseek] at h
    obtain ⟨rfl, hoption⟩ := addOption_ok h
    refine ⟨?_, hoption, fun hnone => ?_⟩
    · rw [splitFile_found hbefore hl, Copied.put_put, Copied.put_put, hrest]
      simp
    · exact absurd (hl.symm.trans (hnone l (by simp))) Bool.true_eq_false.mp

theorem write_ok (hlines : ∀ l ∈ lines, TextLine l) {reopened : Bool} {file : Option (List UInt8)}
    (h : writePrivateProfileString shift lpAppName lpKeyName lpString (some (textOf lines))
      reopened = .ok (0, file)) :
    file = some (textOf ((splitFile shift lpAppName lpKeyName lines).1 ++
        optionLine lpKeyName lpString :: (splitFile shift lpAppName lpKeyName lines).2)) ∧
      (optionLine lpKeyName lpString).length ≤ 1022 ∧
      ((∀ l ∈ lines, heads shift lpAppName l = false) → (header lpAppName).length ≤ 1022) := by
  obtain ⟨b, hcompose, h⟩ := ok_of_bind h
  obtain ⟨rfl, hlengths⟩ := composeFile_ok hlines hcompose
  refine ⟨?_, hlengths⟩
  cases reopened with
  | false => cases h
  | true =>
    cases h
    simp [Copied.put]

theorem mem_splitSection (h : l ∈ (splitSection lpKeyName lines).1 ∨
    l ∈ (splitSection lpKeyName lines).2) : l ∈ lines := by
  induction lines with
  | nil => simp [splitSection] at h
  | cons m lines ih =>
    rw [splitSection] at h
    split at h
    · exact List.mem_cons_of_mem m (by simpa using h)
    · split at h
      · simpa using h
      · rcases h with h | h
        · rcases List.mem_cons.mp h with rfl | h
          · exact List.mem_cons_self
          · exact List.mem_cons_of_mem m (ih (.inl h))
        · exact List.mem_cons_of_mem m (ih (.inr h))

/-- Besides the new line, the file has its old lines and the header, if none was found. -/
theorem mem_splitFile (h : l ∈ (splitFile shift lpAppName lpKeyName lines).1 ∨
    l ∈ (splitFile shift lpAppName lpKeyName lines).2) : l ∈ lines ∨
      l = header lpAppName ∧ ∀ l ∈ lines, heads shift lpAppName l = false := by
  rcases SectionStore.first_or_none (heads shift lpAppName) lines with
    hnone | ⟨before, m, after, rfl, hbefore, hm⟩
  · rw [splitFile_absent hnone] at h
    have hmem : l ∈ lines ∨ l = header lpAppName := by simpa using h
    exact hmem.imp_right fun heq => ⟨heq, hnone⟩
  · rw [splitFile_found hbefore hm] at h
    have hafter : l ∈ (splitSection lpKeyName after).1 ∨ l ∈ (splitSection lpKeyName after).2 →
        l ∈ after := mem_splitSection
    simp only [List.mem_append, List.mem_cons] at h ⊢
    tauto

end Writer

end Gipcy.Linux.Ini
