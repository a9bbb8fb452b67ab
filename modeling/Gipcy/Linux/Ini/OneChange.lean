import Gipcy.Lib.Search
import Gipcy.Linux.Ini.Store

/-! What a write changes in a file: one line is replaced, or one is inserted, or the
section is added with one. -/
namespace Gipcy.Linux.Ini

open CString Lines SectionStore

/-- The text before the first `=` of the line is the key, for a key without `=`. -/
def Names (lpKeyName l : Str) : Prop := ∃ text, l = lpKeyName ++ '='.toUInt8 :: text

/-- The lines belong to one block, and none of them has the key. -/
def Without (lpKeyName : Str) (lines : List Str) : Prop :=
  ∀ l ∈ lines, isSection l = false ∧ ¬ Names lpKeyName l

section Change

variable {lpAppName lpKeyName lpString l : Str} {lines before ahead behind : List Str}

theorem optionName_eq_some_iff (key : Key lpKeyName) :
    optionName l = some lpKeyName ↔ Names lpKeyName l :=
  optionName_iff.trans (and_iff_right key.equals)

theorem Names.not_section (key : Key lpKeyName) (h : Names lpKeyName l) : isSection l = false := by
  obtain ⟨text, rfl⟩ := h
  exact key.not_section text

theorem Without.grammar (key : Key lpKeyName) (without : Without lpKeyName ahead) :
    ∀ l ∈ ahead, grammar.keyOf l ≠ some lpKeyName ∧ grammar.isHeader l = false := fun l hl =>
  ⟨(optionName_eq_some_iff key).not.mpr (without l hl).2, (without l hl).1⟩

/-- The first line with the key is replaced. -/
theorem update_names (key : Key lpKeyName) (lpString : Str) (hbefore : header lpAppName ∉ before)
    (without : Without lpKeyName ahead) (names : Names lpKeyName l) (behind : List Str) :
    update grammar lpAppName lpKeyName lpString
        (before ++ header lpAppName :: (ahead ++ l :: behind)) =
      before ++ header lpAppName :: (ahead ++ optionLine lpKeyName lpString :: behind) := by
  have hkey : grammar.keyOf l = some lpKeyName := (optionName_eq_some_iff key).mpr names
  rw [update_append hbefore]
  show before ++ update _ _ _ _ (grammar.header lpAppName :: _) = _
  rw [update_header, updateSection_append (without.grammar key), updateSection_key hkey]
  rfl

/-- A new line is inserted ahead of the next header. -/
theorem update_next (key : Key lpKeyName) (lpString : Str) (hbefore : header lpAppName ∉ before)
    (without : Without lpKeyName ahead) (hsection : isSection l = true) (behind : List Str) :
    update grammar lpAppName lpKeyName lpString
        (before ++ header lpAppName :: (ahead ++ l :: behind)) =
      before ++ header lpAppName :: (ahead ++ optionLine lpKeyName lpString :: l :: behind) := by
  have hkey : grammar.keyOf l ≠ some lpKeyName := by
    intro h
    have hnot := ((optionName_eq_some_iff key).mp h).not_section key
    rw [hsection] at hnot
    cases hnot
  rw [update_append hbefore]
  show before ++ update _ _ _ _ (grammar.header lpAppName :: _) = _
  rw [update_header, updateSection_append (without.grammar key),
    updateSection_header hkey hsection]
  rfl

/-- Where the first block of the section begins. -/
theorem dropWhile_header (hbefore : header lpAppName ∉ before) (behind : List Str) :
    ((before ++ header lpAppName :: behind).dropWhile (· ≠ header lpAppName)).tail = behind := by
  have hall : ∀ m ∈ before, decide (m ≠ header lpAppName) = true := fun m hm =>
    decide_eq_true fun h => hbefore (h ▸ hm)
  rw [List.dropWhile_append_of_pos hall, List.dropWhile_cons_of_neg (by simp), List.tail_cons]

/-- The first block of the section runs to the end of the file without the key. -/
theorem openBlock_iff (hbefore : header lpAppName ∉ before) (behind : List Str) :
    OpenBlock lpAppName lpKeyName (before ++ header lpAppName :: behind) ↔
      ∀ l ∈ behind, isSection l = false ∧ optionName l ≠ some lpKeyName := by
  rw [OpenBlock, dropWhile_header hbefore]
  exact and_iff_right (by simp)

end Change

section Claims

/-- The file of a write, `b`, is the old one with one change: the line of the key replaced, or
a new one ahead of the next header, or the section and the new line at the end. `nSize` is what
was placed in the buffer. -/
structure OneChange (lpAppName lpKeyName lpString : Str) (lines : List Str) (b : Copied) :
    Prop where
  size : b.nSize = b.pBuf.length
  found : ∀ before ahead l behind, lines = before ++ header lpAppName :: (ahead ++ l :: behind) →
    header lpAppName ∉ before → Without lpKeyName ahead →
    (Names lpKeyName l → b.pBuf = textOf (before ++ header lpAppName ::
      (ahead ++ optionLine lpKeyName lpString :: behind))) ∧
    (isSection l = true → b.pBuf = textOf (before ++ header lpAppName ::
      (ahead ++ optionLine lpKeyName lpString :: l :: behind)))
  absent : header lpAppName ∉ lines →
    b.pBuf = textOf (lines ++ [header lpAppName, optionLine lpKeyName lpString])

/-- The call returns, and what it writes is one change. -/
def ChangesOnce (shift : Str → Str) (lpAppName lpKeyName lpString : Str) (lines : List Str) :
    Prop :=
  ∃ b, composeFile shift lpAppName lpKeyName lpString (textOf lines) = .ok b ∧
    writePrivateProfileString shift lpAppName lpKeyName lpString (some (textOf lines)) true =
      .ok (0, some b.pBuf) ∧ OneChange lpAppName lpKeyName lpString lines b

variable {shift : Str → Str} {lpAppName lpKeyName lpString : Str} {lines : List Str}

/-- The updated store is one change, and no other text is one if the block is not open. -/
theorem oneChange_iff (key : Key lpKeyName) (b : Copied) (size : b.nSize = b.pBuf.length) :
    OneChange lpAppName lpKeyName lpString lines b ↔
      OpenBlock lpAppName lpKeyName lines ∨
        b.pBuf = textOf (update grammar lpAppName lpKeyName lpString lines) := by
  constructor
  · intro change
    by_cases hfound : header lpAppName ∈ lines
    · obtain ⟨before, behind, rfl, hbefore⟩ := List.eq_append_cons_of_mem hfound
      by_cases hopen : ∀ l ∈ behind, isSection l = false ∧ optionName l ≠ some lpKeyName
      · exact .inl ((openBlock_iff hbefore behind).mpr hopen)
      · have hends : ∃ l ∈ behind, ¬ (isSection l = false ∧ optionName l ≠ some lpKeyName) := by
          simpa using hopen
        obtain ⟨ahead, l, behind, rfl, hahead, hl⟩ := Search.exists_first hends
        have without : Without lpKeyName ahead := fun m hm =>
          have hm := not_not.mp (hahead m hm)
          ⟨hm.1, (optionName_eq_some_iff key).not.mp hm.2⟩
        obtain ⟨replaced, inserted⟩ := change.found before ahead l behind rfl hbefore without
        by_cases names : Names lpKeyName l
        · exact .inr ((replaced names).trans
            (by rw [update_names key lpString hbefore without names]))
        · have hsection : isSection l = true := by
            by_contra hsection
            exact hl ⟨by simpa using hsection, (optionName_eq_some_iff key).not.mpr names⟩
          exact .inr ((inserted hsection).trans
            (by rw [update_next key lpString hbefore without hsection]))
    · refine .inr ((change.absent hfound).trans ?_)
      rw [update_absent (show grammar.header lpAppName ∉ lines from hfound)]
      rfl
  · rintro (hopen | hfile)
    · refine ⟨size, ?_, fun habsent => absurd hopen.1 habsent⟩
      rintro before ahead l behind rfl hbefore -
      obtain ⟨hsection, hkey⟩ := (openBlock_iff hbefore _).mp hopen l (by simp)
      exact ⟨fun names => absurd ((optionName_eq_some_iff key).mpr names) hkey,
        fun h => absurd (h.symm.trans hsection) Bool.true_eq_false.mp⟩
    · refine ⟨size, ?_, fun habsent => ?_⟩
      · rintro before ahead l behind rfl hbefore without
        refine ⟨fun names => ?_, fun hsection => ?_⟩
        · rw [hfile, update_names key lpString hbefore without names]
        · rw [hfile, update_next key lpString hbefore without hsection]
      · rw [hfile, update_absent (show grammar.header lpAppName ∉ lines from habsent)]
        rfl

/-- A write changes one line and nothing else exactly if its search finds the header of the
section, or neither it nor any other line; or if the value is there already, both below that
header and below the line that it finds; or where the first block of the section runs to the
end without the key. -/
theorem one_change_iff (nonempty : lines ≠ []) (hlines : ∀ l ∈ lines, TextLine l)
    (section_line : OneLine lpAppName) (key_line : OneLine lpKeyName) (key : Key lpKeyName)
    (value_line : OneLine lpString)
    (short : (composed shift lpAppName lpKeyName lpString lines).length < 1000) :
    ChangesOnce shift lpAppName lpKeyName lpString lines ↔
      FindsHeader shift lpAppName lines ∨ ThereTwice shift lpAppName lpKeyName lpString lines ∨
        OpenBlock lpAppName lpKeyName lines := by
  have hsame :
      textOf (updateBy grammar (heads shift lpAppName) lpAppName lpKeyName lpString lines) =
        textOf (update grammar lpAppName lpKeyName lpString lines) ↔
      FindsHeader shift lpAppName lines ∨
        ThereTwice shift lpAppName lpKeyName lpString lines := by
    have hplace := @updateBy_eq_update_iff _ _ _ _ _ _ grammar Key grammar_lawful lpAppName
      lpKeyName lpString lines grammar_canonical (heads shift lpAppName)
      (fun _ => heads_isSection) key
    rw [update_eq_updateBy] at hplace ⊢
    exact (textOf_inj (newline_updateBy hlines section_line key_line value_line _)
      (newline_updateBy hlines section_line key_line value_line _)).trans hplace
  have hcompose := composeFile_update nonempty hlines short
  have hwrite := write_update nonempty hlines short
  have hchange := @oneChange_iff lpAppName lpKeyName lpString lines key ((⟨[], 0⟩ : Copied).put
    (textOf (updateBy grammar (heads shift lpAppName) lpAppName lpKeyName lpString lines)))
    (by simp [Copied.put])
  rw [← or_assoc, ← hsame, or_comm]
  refine Iff.trans ⟨?_, fun change => ⟨_, hcompose, hwrite, change⟩⟩ hchange
  rintro ⟨b, hb, -, change⟩
  cases hcompose.symm.trans hb
  exact change

/-- `k=1` is written to a section that has the key, with a line on either side of it. -/
theorem one_change_replaced : ChangesOnce moveTwice (chars ['s']) (chars ['k']) (chars ['1'])
    [chars ['[', 's', ']'], chars [';'], chars ['k', '=', '0'], chars ['[', 't', ']']] := by
  have hlines : ∀ l ∈ [chars ['[', 's', ']'], chars [';'], chars ['k', '=', '0'],
      chars ['[', 't', ']']], TextLine l := by
    intro l hl
    have h : ∀ l ∈ [chars ['[', 's', ']'], chars [';'], chars ['k', '=', '0'],
        chars ['[', 't', ']']], nl ∉ l ∧ 0 ∉ l ∧ l.length ≤ 1022 := by decide
    exact ⟨(h l hl).1, (h l hl).2.1, (h l hl).2.2⟩
  exact (one_change_iff (by decide) hlines ⟨by decide, by decide⟩ ⟨by decide, by decide⟩
    ⟨by decide, by decide⟩ ⟨by decide, by decide⟩ (by decide)).mpr (.inl rfl)

/-- `k=1` is written to the section `acdd`, which is what the copy makes of the name `abcd`: the
key of the section `abcd` is replaced, where the section `acdd` is absent. -/
theorem not_one_change : ¬ ∀ (lines : List Str) (lpAppName lpKeyName lpString : Str),
    lines ≠ [] → (∀ l ∈ lines, TextLine l) → OneLine lpAppName → OneLine lpKeyName →
    Key lpKeyName → OneLine lpString →
    (composed moveTwice lpAppName lpKeyName lpString lines).length < 1000 →
    ChangesOnce moveTwice lpAppName lpKeyName lpString lines := by
  intro h
  have hlines : ∀ l ∈ [header (chars ['a', 'b', 'c', 'd']), chars ['k', '=', '0']],
      TextLine l := by
    intro l hl
    have h : ∀ l ∈ [header (chars ['a', 'b', 'c', 'd']), chars ['k', '=', '0']],
        nl ∉ l ∧ 0 ∉ l ∧ l.length ≤ 1022 := by decide
    exact ⟨(h l hl).1, (h l hl).2.1, (h l hl).2.2⟩
  obtain ⟨b, hb, -, change⟩ := h _ (chars ['a', 'c', 'd', 'd']) (chars ['k']) (chars ['1'])
    (by decide) hlines ⟨by decide, by decide⟩ ⟨by decide, by decide⟩ ⟨by decide, by decide⟩
    ⟨by decide, by decide⟩ (by decide)
  have hcompose : composeFile moveTwice (chars ['a', 'c', 'd', 'd']) (chars ['k']) (chars ['1'])
      (textOf [header (chars ['a', 'b', 'c', 'd']), chars ['k', '=', '0']]) =
        .ok ⟨textOf [header (chars ['a', 'b', 'c', 'd']), chars ['k', '=', '1']], 11⟩ := by rfl
  cases hcompose.symm.trans hb
  have habsent := change.absent (by decide)
  revert habsent
  decide

end Claims

end Gipcy.Linux.Ini
