import Gipcy.Linux.Ini.Write

/-! The writer as a store of values by section and key, in the grammar that its
own search follows. -/
namespace Gipcy.Linux.Ini

open CString Lines SectionStore

/-- The text after the first `=` of a line. -/
def optionText (src : Str) : Option Str := (isOptionName src).map fun i => src.drop (i + 1)

/-- The lines as the writer makes and reads them. -/
def grammar : Grammar Str Str Str Str where
  header := header
  option := optionLine
  isHeader := isSection
  keyOf := optionName
  valueOf := optionText

/-- A key that no `=` ends early and that no header begins with. -/
structure Key (lpKeyName : Str) : Prop where
  equals : '='.toUInt8 ∉ lpKeyName
  first : lpKeyName.head? ≠ some '['.toUInt8

/-- What the writer's search finds in a file. -/
def lookup (file : List UInt8) (lpAppName lpKeyName : Str) : Option Str :=
  SectionStore.lookup grammar lpAppName lpKeyName (linesOf file)

/-- The texts that one call puts together. -/
def composed (shift : Str → Str) (lpAppName lpKeyName lpString : Str) : List Str → Str
  | [] => header lpAppName ++ [nl] ++ (optionLine lpKeyName lpString ++ [nl])
  | l :: lines =>
    if heads shift lpAppName l then
      optionLine lpKeyName lpString ++ [nl] ++ nextSection lpKeyName lines
    else composed shift lpAppName lpKeyName lpString lines

/-- The first line that the writer takes for the header of the section is its header, or
there is neither. -/
def FindsHeader (shift : Str → Str) (lpAppName : Str) (lines : List Str) : Prop :=
  lines.find? (heads shift lpAppName) = lines.find? fun l => l = header lpAppName

/-- The first line with the key is `key=value` already, below the first header of the
section and below the line that the writer takes for it. -/
def ThereTwice (shift : Str → Str) (lpAppName lpKeyName lpString : Str) (lines : List Str) :
    Prop :=
  SectionStore.lookup grammar lpAppName lpKeyName lines = some lpString ∧
    lookupBy grammar (heads shift lpAppName) lpKeyName lines = some lpString

/-- The first block of the section runs to the end of the file, without the key. -/
def OpenBlock (lpAppName lpKeyName : Str) (lines : List Str) : Prop :=
  header lpAppName ∈ lines ∧ ∀ l ∈ (lines.dropWhile (· ≠ header lpAppName)).tail,
    isSection l = false ∧ optionName l ≠ some lpKeyName

instance (lpAppName lpKeyName : Str) (lines : List Str) :
    Decidable (OpenBlock lpAppName lpKeyName lines) :=
  inferInstanceAs (Decidable (_ ∧ ∀ l ∈ _, _))

/-- The text of an argument takes no more than its own line. -/
def OneLine (s : Str) : Prop := nl ∉ s ∧ 0 ∉ s

section Grammar

variable {lpAppName lpKeyName lpString l : Str} {lines : List Str}

theorem header_injective : Function.Injective header := by
  intro s t h
  exact List.append_cancel_right (List.cons.inj h).2

theorem isOptionName_optionLine (key : Key lpKeyName) (lpString : Str) :
    isOptionName (optionLine lpKeyName lpString) = some lpKeyName.length := by
  rw [optionLine_eq]
  exact strstr_append key.equals lpString

theorem Key.not_section (key : Key lpKeyName) (text : Str) :
    isSection (lpKeyName ++ '='.toUInt8 :: text) = false := by
  have hfirst : (lpKeyName ++ '='.toUInt8 :: text).head? ≠ some '['.toUInt8 := by
    cases lpKeyName with
    | nil => exact fun h => absurd (Option.some.inj h) (by decide)
    | cons c rest => exact key.first
  exact decide_eq_false fun h => hfirst h.1

theorem grammar_lawful : grammar.Lawful Key where
  header_injective := header_injective
  isHeader_header := isSection_header
  keyOf_option := by
    intro lpKeyName lpString key
    show (isOptionName (optionLine _ _)).map (List.take · (optionLine _ _)) = _
    rw [isOptionName_optionLine key, optionLine_eq]
    simp
  valueOf_option := by
    intro lpKeyName lpString key
    show (isOptionName (optionLine _ _)).map (fun i => (optionLine _ _).drop (i + 1)) = _
    rw [isOptionName_optionLine key, optionLine_eq]
    simp
  not_header := by
    intro lpKeyName l key hl
    obtain ⟨text, rfl⟩ := (optionName_iff.mp hl).2
    exact key.not_section text

theorem grammar_lawful_line : grammar.Lawful fun k => Key k ∧ OneLine k :=
  grammar_lawful.mono fun _ h => h.1

theorem splitSection_update (lpKeyName lpString : Str) (lines : List Str) :
    (splitSection lpKeyName lines).1 ++ optionLine lpKeyName lpString ::
      (splitSection lpKeyName lines).2 = updateSection grammar lpKeyName lpString lines := by
  induction lines with
  | nil => rfl
  | cons l lines ih =>
    rw [splitSection, updateSection, ← ih]
    simp only [grammar]
    by_cases hkey : optionName l = some lpKeyName
    · simp [hkey]
    · by_cases hsection : isSection l = true
      · simp [hkey, hsection]
      · simp [hkey, hsection]

/-- A line with a key is that key, the `=` and the value. -/
theorem grammar_canonical {k l v : Str} (hkey : grammar.keyOf l = some k)
    (hvalue : grammar.valueOf l = some v) : l = grammar.option k v := by
  obtain ⟨hk, text, rfl⟩ := optionName_iff.mp hkey
  have hfirst : isOptionName (k ++ '='.toUInt8 :: text) = some k.length := strstr_append hk text
  have hdrop : (k ++ '='.toUInt8 :: text).drop (k.length + 1) = text := by simp
  have htext : optionText (k ++ '='.toUInt8 :: text) = some v := hvalue
  rw [optionText, hfirst, Option.map_some, hdrop] at htext
  cases htext
  exact (optionLine_eq k v).symm

/-- The writer's file is the updated store. -/
theorem splitFile_update (shift : Str → Str) (lpAppName lpKeyName lpString : Str)
    (lines : List Str) :
    (splitFile shift lpAppName lpKeyName lines).1 ++ optionLine lpKeyName lpString ::
      (splitFile shift lpAppName lpKeyName lines).2 =
        updateBy grammar (heads shift lpAppName) lpAppName lpKeyName lpString lines := by
  induction lines with
  | nil => rfl
  | cons l lines ih =>
    rw [splitFile, updateBy, ← ih, ← splitSection_update]
    cases heads shift lpAppName l <;> rfl

end Grammar

section Writer

variable {shift : Str → Str} {lpAppName lpKeyName lpString : Str} {lines : List Str}

/-- No line gets longer, and at most one is left out. -/
theorem length_splitSection (lpKeyName : Str) (lines : List Str) :
    (textOf (splitSection lpKeyName lines).1).length +
      (textOf (splitSection lpKeyName lines).2).length ≤ (textOf lines).length := by
  induction lines with
  | nil => simp [splitSection]
  | cons l lines ih =>
    rw [splitSection]
    split
    · simp
      omega
    · split
      · simp
      · simp
        omega

theorem composed_absent (h : ∀ l ∈ lines, heads shift lpAppName l = false) :
    composed shift lpAppName lpKeyName lpString lines =
      header lpAppName ++ [nl] ++ (optionLine lpKeyName lpString ++ [nl]) := by
  induction lines with
  | nil => rfl
  | cons l lines ih =>
    obtain ⟨hl, hlines⟩ := List.forall_mem_cons.mp h
    rw [composed, if_neg (Bool.eq_false_iff.mp hl), ih hlines]

theorem composed_found {before : List Str} {l : Str}
    (h : ∀ m ∈ before, heads shift lpAppName m = false) (hl : heads shift lpAppName l = true)
    (after : List Str) :
    composed shift lpAppName lpKeyName lpString (before ++ l :: after) =
      optionLine lpKeyName lpString ++ [nl] ++ nextSection lpKeyName after := by
  induction before with
  | nil => rw [List.nil_append, composed, if_pos hl]
  | cons m before ih =>
    obtain ⟨hm, hbefore⟩ := List.forall_mem_cons.mp h
    rw [List.cons_append, composed, if_neg (Bool.eq_false_iff.mp hm), ih hbefore]

theorem strcatLine_eq {b : Copied} {sLine : Str} (hsize : sLine.length < 1024)
    (hbuf : b.pBuf ≠ []) : strcatLine b sLine = .ok (b.put sLine) := by
  rw [strcatLine, if_neg (by omega), if_neg hbuf]

/-- The option is added where `sLine` and `pBuf` have room for it. -/
theorem exists_addOption {b : Copied} {size : Nat} {sNextSection : Str} {reads : List Str}
    (hbuf : b.pBuf ≠ [])
    (hline : (optionLine lpKeyName lpString ++ [nl] ++ sNextSection).length < 1024)
    (hsize : b.pBuf.length + (optionLine lpKeyName lpString).length + 1 +
      (sNextSection ++ reads.flatten).length < size + 1024) :
    ∃ after, addOption lpKeyName lpString size b sNextSection reads = .ok after := by
  have hlength : (copyReads (b.put (optionLine lpKeyName lpString ++ [nl] ++ sNextSection))
      reads).pBuf.length < size + 1024 := by
    rw [copyReads_eq]
    simp [Copied.put] at hsize ⊢
    omega
  unfold addOption
  rw [strcatLine_eq hline hbuf]
  exact ⟨_, if_pos hlength⟩

/-- The call composes the updated store, and its arrays have room for it. -/
theorem composeFile_update (nonempty : lines ≠ []) (hlines : ∀ l ∈ lines, TextLine l)
    (short : (composed shift lpAppName lpKeyName lpString lines).length < 1000) :
    composeFile shift lpAppName lpKeyName lpString (textOf lines) =
      .ok ((⟨[], 0⟩ : Copied).put (textOf
        (updateBy grammar (heads shift lpAppName) lpAppName lpKeyName lpString lines))) := by
  have hok : ∃ b, composeFile shift lpAppName lpKeyName lpString (textOf lines) = .ok b := by
    unfold composeFile
    rw [reads_textOf hlines]
    rcases first_or_none (heads shift lpAppName) lines with
      hnone | ⟨before, l, after, rfl, hbefore, hl⟩
    · rw [composed_absent hnone] at short
      have hbuf : textOf lines ≠ [] := by
        cases lines with
        | nil => exact absurd rfl nonempty
        | cons l lines => simp
      have hheader : (header lpAppName ++ [nl]).length < 1024 := by
        rw [List.length_append] at short
        omega
      rw [seekSection_absent hnone]
      dsimp only
      rw [strcatLine_eq hheader hbuf]
      apply exists_addOption
      · simp [Copied.put]
      · simp at short ⊢
        omega
      · simp [Copied.put] at short ⊢
        omega
    · obtain ⟨reads, hseek, hrest⟩ := seekOption_eq lpKeyName after
        ((⟨[], 0⟩ : Copied).put (textOf (before ++ [l])))
      rw [composed_found hbefore hl] at short
      have hsplit := length_splitSection lpKeyName after
      rw [seekSection_found hbefore hl]
      simp only [hseek]
      apply exists_addOption
      · simp [Copied.put]
      · omega
      · rw [hrest]
        simp [Copied.put] at short hsplit ⊢
        omega
  obtain ⟨b, hb⟩ := hok
  rw [hb, (composeFile_ok hlines hb).1, splitFile_update]

/-- The lines that the call composes fit in a line as well. -/
theorem textLine_update (hlines : ∀ l ∈ lines, TextLine l) (section_line : OneLine lpAppName)
    (key_line : OneLine lpKeyName) (value_line : OneLine lpString)
    (hoption : (optionLine lpKeyName lpString).length ≤ 1022)
    (hheader : (∀ l ∈ lines, heads shift lpAppName l = false) →
      (header lpAppName).length ≤ 1022) :
    ∀ l ∈ updateBy grammar (heads shift lpAppName) lpAppName lpKeyName lpString lines,
      TextLine l := by
  have hline := textLine_optionLine key_line.1 key_line.2 value_line.1 value_line.2 hoption
  have hold : ∀ l, l ∈ (splitFile shift lpAppName lpKeyName lines).1 ∨
      l ∈ (splitFile shift lpAppName lpKeyName lines).2 → TextLine l := by
    intro l hl
    rcases mem_splitFile hl with hl | ⟨rfl, hnone⟩
    · exact hlines l hl
    · exact textLine_header section_line.1 section_line.2 (hheader hnone)
  intro l hl
  rw [← splitFile_update] at hl
  rcases List.mem_append.mp hl with hl | hl
  · exact hold l (.inl hl)
  · rcases List.mem_cons.mp hl with rfl | hl
    · exact hline
    · exact hold l (.inr hl)

theorem textLine_written (hlines : ∀ l ∈ lines, TextLine l) (section_line : OneLine lpAppName)
    (key_line : OneLine lpKeyName) (value_line : OneLine lpString) (nonempty : lines ≠ [])
    (short : (composed shift lpAppName lpKeyName lpString lines).length < 1000) :
    ∀ l ∈ updateBy grammar (heads shift lpAppName) lpAppName lpKeyName lpString lines,
      TextLine l := by
  obtain ⟨-, hoption, hheader⟩ := composeFile_ok hlines (composeFile_update nonempty hlines short)
  exact textLine_update hlines section_line key_line value_line hoption hheader

theorem update_ne_nil :
    updateBy grammar (heads shift lpAppName) lpAppName lpKeyName lpString lines ≠ [] := by
  rw [← splitFile_update]
  simp

/-- A key that was written is not followed by a header that has to be moved. -/
theorem nextSection_updateSection (key : Key lpKeyName) :
    nextSection lpKeyName (updateSection grammar lpKeyName lpString lines) = [] := by
  have hnew : ∀ lines, nextSection lpKeyName (optionLine lpKeyName lpString :: lines) = [] :=
    fun lines => if_pos (grammar_lawful.keyOf_option lpString key)
  induction lines with
  | nil => exact hnew []
  | cons l lines ih =>
    rw [updateSection]
    split
    · exact hnew lines
    · rename_i hl
      split
      · exact hnew (l :: lines)
      · rename_i hsection
        exact (if_neg hl).trans ((if_neg hsection).trans ih)

/-- No line with a key is taken for a header. -/
theorem heads_optionLine (shift : Str → Str) (lpAppName : Str) (key : Key lpKeyName)
    (lpString : Str) : heads shift lpAppName (optionLine lpKeyName lpString) = false := by
  by_contra h
  have hsection := heads_isSection (by simpa using h)
  rw [optionLine_eq, key.not_section] at hsection
  cases hsection

/-- A second write composes no more than a first one. -/
theorem length_composed_update (key : Key lpKeyName) (lpString value : Str) :
    (composed shift lpAppName lpKeyName value
      (updateBy grammar (heads shift lpAppName) lpAppName lpKeyName lpString lines)).length ≤
      (composed shift lpAppName lpKeyName value lines).length := by
  rcases first_or_none (heads shift lpAppName) lines with
    hnone | ⟨before, l, after, rfl, hbefore, hl⟩
  · rw [updateBy_none hnone, composed_absent hnone]
    show (composed shift lpAppName lpKeyName value
      (lines ++ [header lpAppName, optionLine lpKeyName lpString])).length ≤ _
    cases hheader : heads shift lpAppName (header lpAppName) with
    | true =>
      have hnext : nextSection lpKeyName [optionLine lpKeyName lpString] = [] :=
        if_pos (grammar_lawful.keyOf_option lpString key)
      rw [composed_found hnone hheader, hnext]
      simp
      omega
    | false =>
      have hoption := heads_optionLine shift lpAppName key lpString
      rw [composed_absent (by simpa [or_imp, forall_and, hheader, hoption] using hnone)]
  · rw [updateBy_found hbefore hl, composed_found hbefore hl, composed_found hbefore hl,
      nextSection_updateSection key]
    simp

theorem write_update (nonempty : lines ≠ []) (hlines : ∀ l ∈ lines, TextLine l)
    (short : (composed shift lpAppName lpKeyName lpString lines).length < 1000) :
    writePrivateProfileString shift lpAppName lpKeyName lpString (some (textOf lines)) true =
      .ok (0, some (textOf
        (updateBy grammar (heads shift lpAppName) lpAppName lpKeyName lpString lines))) := by
  show (composeFile _ _ _ _ _ >>= _) = _
  rw [composeFile_update nonempty hlines short]
  simp [bind, Except.bind, Copied.put]

theorem lookup_textOf (hlines : ∀ l ∈ lines, TextLine l) (lpAppName lpKeyName : Str) :
    lookup (textOf lines) lpAppName lpKeyName =
      SectionStore.lookup grammar lpAppName lpKeyName lines := by
  rw [lookup, linesOf_textOf fun l hl => (hlines l hl).newline]

theorem textOf_inj {lines' : List Str} (hlines : ∀ l ∈ lines, nl ∉ l)
    (hlines' : ∀ l ∈ lines', nl ∉ l) : textOf lines = textOf lines' ↔ lines = lines' := by
  refine ⟨fun h => ?_, congrArg textOf⟩
  have hsame := congrArg linesOf h
  rwa [linesOf_textOf hlines, linesOf_textOf hlines'] at hsame

/-- A write of single lines makes a text of lines. -/
theorem newline_updateBy (hlines : ∀ l ∈ lines, TextLine l) (section_line : OneLine lpAppName)
    (key_line : OneLine lpKeyName) (value_line : OneLine lpString) (p : Str → Bool) :
    ∀ l ∈ updateBy grammar p lpAppName lpKeyName lpString lines, nl ∉ l := by
  intro l hl
  have hopen : nl ≠ '['.toUInt8 := by decide
  have hclose : nl ≠ ']'.toUInt8 := by decide
  have hequals : nl ≠ '='.toUInt8 := by decide
  rcases mem_updateBy hl with hl | rfl | rfl
  · exact (hlines l hl).newline
  · simp [grammar, header, section_line.1, hopen, hclose]
  · simp [grammar, optionLine_eq, key_line.1, value_line.1, hequals]

/-- The headers of a text are those of sections with a name of one line. -/
theorem named_textLine (hlines : ∀ l ∈ lines, TextLine l) :
    ∀ l ∈ lines, grammar.isHeader l = true → ∃ s, l = grammar.header s ∧ OneLine s := by
  intro l hl hsection
  obtain ⟨name, rfl⟩ := exists_header hsection
  have hline := hlines _ hl
  exact ⟨name, rfl, fun h => hline.newline (by simp [header, h]),
    fun h => hline.zero (by simp [header, h])⟩

end Writer

section Claims

/-- A write does with the file what a write does with a store: the value that was written is
found, no other one is touched, and a second value that is written to the key leaves no trace
of the first. -/
def WritesAsStore (shift : Str → Str) (lpAppName lpKeyName lpString : Str) (lines : List Str) :
    Prop :=
  ∃ file, writePrivateProfileString shift lpAppName lpKeyName lpString (some (textOf lines)) true =
      .ok (0, some file) ∧
    lookup file lpAppName lpKeyName = some lpString ∧
    (∀ app' key', OneLine app' → OneLine key' → Key key' →
      (app', key') ≠ (lpAppName, lpKeyName) →
      lookup file app' key' = lookup (textOf lines) app' key') ∧
    ∀ value, OneLine value → (composed shift lpAppName lpKeyName value lines).length < 1000 →
      writePrivateProfileString shift lpAppName lpKeyName value (some file) true =
        writePrivateProfileString shift lpAppName lpKeyName value (some (textOf lines)) true

/-- On files of whole lines the writer is a store exactly if its search finds the header of
the section, or neither it nor any other line; or if the value is there already, both below
that header and below the line that it finds. If the section is added, its search has to find
the new header as well. -/
theorem writer_lawful_iff {shift : Str → Str} {lines : List Str} (nonempty : lines ≠ [])
    (hlines : ∀ l ∈ lines, TextLine l) {lpAppName lpKeyName lpString : Str}
    (section_line : OneLine lpAppName) (key_line : OneLine lpKeyName) (key : Key lpKeyName)
    (value_line : OneLine lpString)
    (short : (composed shift lpAppName lpKeyName lpString lines).length < 1000) :
    WritesAsStore shift lpAppName lpKeyName lpString lines ↔
      (FindsHeader shift lpAppName lines ∨ ThereTwice shift lpAppName lpKeyName lpString lines) ∧
      (header lpAppName ∈ lines ∨ shift lpAppName = lpAppName) := by
  have hupdate := textLine_written hlines section_line key_line value_line nonempty short
  have hwrite := write_update nonempty hlines short
  have hagain : ∀ value, OneLine value →
      (composed shift lpAppName lpKeyName value lines).length < 1000 →
      (writePrivateProfileString shift lpAppName lpKeyName value (some (textOf (updateBy grammar
          (heads shift lpAppName) lpAppName lpKeyName lpString lines))) true =
        writePrivateProfileString shift lpAppName lpKeyName value (some (textOf lines)) true ↔
      updateBy grammar (heads shift lpAppName) lpAppName lpKeyName value (updateBy grammar
          (heads shift lpAppName) lpAppName lpKeyName lpString lines) =
        updateBy grammar (heads shift lpAppName) lpAppName lpKeyName value lines) := by
    intro value hvalue hshort
    have hshort' := (length_composed_update key lpString value).trans_lt hshort
    rw [write_update update_ne_nil hupdate hshort', write_update nonempty hlines hshort]
    simp only [Except.ok.injEq, Prod.mk.injEq, Option.some.injEq, true_and]
    exact textOf_inj (newline_updateBy hupdate section_line key_line hvalue _)
      (newline_updateBy hlines section_line key_line hvalue _)
  have hlaws := fun value => @updateBy_lawful_iff _ _ _ _ _ _ grammar _ grammar_lawful_line
    lpAppName lpKeyName lpString value lines grammar_canonical (heads shift lpAppName)
    (fun _ => heads_isSection) OneLine (named_textLine hlines) ⟨key, key_line⟩
  rw [← heads_header shift lpAppName lpAppName]
  constructor
  · rintro ⟨file, hfile, hget, hothers, hleaves⟩
    cases hwrite.symm.trans hfile
    rw [lookup_textOf hupdate] at hget
    refine (hlaws lpString).mp ⟨hget, fun s' k' hs' hk' hne => ?_, ?_⟩
    · have hother := hothers s' k' hs' hk'.2 hk'.1 hne
      rwa [lookup_textOf hupdate, lookup_textOf hlines] at hother
    · exact (hagain lpString value_line short).mp (hleaves lpString value_line short)
  · intro hplace
    obtain ⟨hget, hothers, -⟩ := (hlaws lpString).mpr hplace
    refine ⟨_, hwrite, ?_, fun app' key' happ hline hkey hne => ?_, fun value hvalue hshort => ?_⟩
    · rwa [lookup_textOf hupdate]
    · rw [lookup_textOf hupdate, lookup_textOf hlines]
      exact hothers app' key' happ ⟨hkey, hline⟩ hne
    · exact (hagain value hvalue hshort).mpr ((hlaws value).mpr hplace).2.2

/-- `k=1` is written to the second of two sections, ahead of its other key. -/
theorem writer_lawful_two_sections : WritesAsStore moveTwice (chars ['s']) (chars ['k'])
    (chars ['1']) [chars ['[', 't', ']'], chars ['[', 's', ']'], chars ['k', '=', '0']] := by
  have hlines : ∀ l ∈ [chars ['[', 't', ']'], chars ['[', 's', ']'], chars ['k', '=', '0']],
      TextLine l := by
    intro l hl
    have h : ∀ l ∈ [chars ['[', 't', ']'], chars ['[', 's', ']'], chars ['k', '=', '0']],
        nl ∉ l ∧ 0 ∉ l ∧ l.length ≤ 1022 := by decide
    exact ⟨(h l hl).1, (h l hl).2.1, (h l hl).2.2⟩
  exact (writer_lawful_iff (by decide) hlines ⟨by decide, by decide⟩ ⟨by decide, by decide⟩
    ⟨by decide, by decide⟩ ⟨by decide, by decide⟩ (by decide)).mpr ⟨.inl rfl, .inl (by decide)⟩

/-- `k=1` is written to the section `abcd`, of which the copy makes `acdd`: a second section is
added, and the first one keeps its value. -/
theorem writer_not_lawful : ¬ ∀ (lines : List Str) (lpAppName lpKeyName lpString : Str),
    lines ≠ [] → (∀ l ∈ lines, TextLine l) → OneLine lpAppName → OneLine lpKeyName →
    Key lpKeyName → OneLine lpString → ¬ OpenBlock lpAppName lpKeyName lines →
    (composed moveTwice lpAppName lpKeyName lpString lines).length < 1000 →
    WritesAsStore moveTwice lpAppName lpKeyName lpString lines := by
  intro h
  have hlines : ∀ l ∈ [header (chars ['a', 'b', 'c', 'd']), chars ['k', '=', '0']],
      TextLine l := by
    intro l hl
    have h : ∀ l ∈ [header (chars ['a', 'b', 'c', 'd']), chars ['k', '=', '0']],
        nl ∉ l ∧ 0 ∉ l ∧ l.length ≤ 1022 := by decide
    exact ⟨(h l hl).1, (h l hl).2.1, (h l hl).2.2⟩
  obtain ⟨file, hfile, hget, -⟩ := h _ (chars ['a', 'b', 'c', 'd']) (chars ['k']) (chars ['1'])
    (by decide) hlines ⟨by decide, by decide⟩ ⟨by decide, by decide⟩ ⟨by decide, by decide⟩
    ⟨by decide, by decide⟩ (by decide) (by decide)
  have hwrite : writePrivateProfileString moveTwice (chars ['a', 'b', 'c', 'd']) (chars ['k'])
      (chars ['1']) (some (textOf [header (chars ['a', 'b', 'c', 'd']), chars ['k', '=', '0']]))
      true = .ok (0, some (textOf [header (chars ['a', 'b', 'c', 'd']), chars ['k', '=', '0'],
        header (chars ['a', 'b', 'c', 'd']), chars ['k', '=', '1']])) := by rfl
  cases hwrite.symm.trans hfile
  revert hget
  decide

end Claims

end Gipcy.Linux.Ini
