import Gipcy.Linux.Ini.Listing
import Gipcy.Linux.Ini.Store

/-! The list of the sections of an INI file, before and after a write. -/
namespace Gipcy.Linux.Ini

open CString Lines SectionStore

section Names

variable {lpAppName lpKeyName lpString l : Str} {lines : List Str}

theorem mem_sectionNames_iff : lpAppName ∈ sectionNames lines ↔ header lpAppName ∈ lines := by
  constructor
  · intro h
    obtain ⟨l, hl, hname⟩ := List.mem_map.mp h
    obtain ⟨hmem, hsection⟩ := List.mem_filter.mp hl
    rwa [← eq_header_iff.mpr ⟨hsection, hname⟩]
  · intro h
    obtain ⟨hsection, hname⟩ := eq_header_iff.mp (rfl : header lpAppName = header lpAppName)
    exact List.mem_map.mpr ⟨_, List.mem_filter.mpr ⟨h, hsection⟩, hname⟩

/-- The search takes the header of a section of which the copy makes the name. -/
theorem exists_heads_iff {shift : Str → Str} : (∃ l ∈ lines, heads shift lpAppName l = true) ↔
    ∃ name ∈ sectionNames lines, shift name = lpAppName := by
  constructor
  · rintro ⟨l, hl, hheads⟩
    obtain ⟨name, rfl⟩ := exists_header (heads_isSection hheads)
    exact ⟨name, mem_sectionNames_iff.mpr hl, (heads_header shift lpAppName name).mp hheads⟩
  · rintro ⟨name, hname, hshift⟩
    exact ⟨_, mem_sectionNames_iff.mp hname, (heads_header shift lpAppName name).mpr hshift⟩

/-- A write adds its section to the list if its search finds no line. -/
theorem sectionNames_update {shift : Str → Str} (key : Key lpKeyName) :
    sectionNames (updateBy grammar (heads shift lpAppName) lpAppName lpKeyName lpString lines) =
      sectionNames lines ++
        if ∃ name ∈ sectionNames lines, shift name = lpAppName then [] else [lpAppName] := by
  have hheaders := headers_updateBy (p := heads shift lpAppName) grammar_lawful key lpAppName
    lpString lines
  refine (congrArg (List.map fun l => l.dropLast.tail) hheaders).trans ?_
  obtain ⟨-, hname⟩ := eq_header_iff.mp (rfl : header lpAppName = header lpAppName)
  rw [List.map_append]
  simp only [exists_heads_iff]
  split
  · rfl
  · exact congrArg (sectionNames lines ++ [·]) hname

end Names

section Reader

variable {lines : List Str} {nSize : Int}

/-- The list form of the call stores the names and a last NUL. -/
theorem get_sections (hlines : ∀ l ∈ lines, TextLine l) (out : Nat → UInt8)
    (hsize : (listed (sectionNames lines)).length < nSize) (str : List UInt8) :
    getPrivateProfileString none none (some []) out nSize (some (textOf lines)) str =
      .ok (0, store out 0 (listed (sectionNames lines) ++ [0])) := by
  have hfits : ∀ l ∈ lines, nl ∉ l ∧ l.length < PATH_MAX := fun l hl =>
    ⟨(hlines l hl).newline, by have := (hlines l hl).length; rw [PATH_MAX]; omega⟩
  have hcstr : lines.map cstr = lines :=
    (List.map_congr_left fun l hl => cstr_self (hlines l hl).zero).trans (List.map_id _)
  have hnames : sectionNames ((lines ++ [[]]).map cstr) = sectionNames lines := by
    rw [List.map_append, hcstr, sectionNames, List.filter_append]
    simp [sectionNames, isSection, cstr]
  have hcall := get_names (getlineAll_textOf hfits) none (.inr rfl) out nSize str
  rwa [hnames, fitting_eq_self (by omega)] at hcall

/-- Behind the list stands its NUL, and the rest of the memory may be without one. -/
theorem length_le_of_store {a b : List UInt8}
    (h : store (fun _ => 1) 0 (a ++ [0]) = store (fun _ => 1) 0 (b ++ [0])) :
    b.length ≤ a.length := by
  by_contra hlt
  have hend : store (fun _ => 1) 0 (b ++ [0]) b.length = 0 := by simp [store]
  rw [← h, store_outside (.inr (by simp; omega))] at hend
  exact absurd hend (by decide)

theorem eq_of_store {a b : List UInt8}
    (h : store (fun _ => 1) 0 (a ++ [0]) = store (fun _ => 1) 0 (b ++ [0])) : a = b := by
  have hlength := (length_le_of_store h.symm).antisymm (length_le_of_store h)
  refine List.ext_getElem hlength fun i hi hi' => ?_
  have hbyte : ∀ {str : List UInt8} (hstr : i < str.length),
      store (fun _ => 1) 0 (str ++ [0]) i = str[i] := fun hstr => by
    simp [store, List.getElem?_append_left hstr, List.getElem?_eq_getElem hstr]
  rw [← hbyte hi, h, hbyte hi']

end Reader

section Claims

/-- The call writes a file with these sections: in a large enough buffer, their list is
`before` ahead of the write and `after` behind it. -/
def WritesSections (shift : Str → Str) (lpAppName lpKeyName lpString : Str) (lines : List Str)
    (before after : List Str) : Prop :=
  ∃ file, writePrivateProfileString shift lpAppName lpKeyName lpString (some (textOf lines)) true =
      .ok (0, some file) ∧
    ∀ (out : Nat → UInt8) (nSize : Int) (str : List UInt8),
      ((listed before).length < nSize →
        getPrivateProfileString none none (some []) out nSize (some (textOf lines)) str =
          .ok (0, store out 0 (listed before ++ [0]))) ∧
      ((listed after).length < nSize →
        getPrivateProfileString none none (some []) out nSize (some file) str =
          .ok (0, store out 0 (listed after ++ [0])))

/-- The list of the sections with one more, if it is not there. -/
def withSection (lpAppName : Str) (names : List Str) : List Str :=
  if lpAppName ∈ names then names else names ++ [lpAppName]

/-- What a write makes of the list of the sections. -/
theorem writesSections_iff {shift : Str → Str} {lines : List Str} (nonempty : lines ≠ [])
    (hlines : ∀ l ∈ lines, TextLine l) {lpAppName lpKeyName lpString : Str}
    (section_line : OneLine lpAppName) (key_line : OneLine lpKeyName)
    (value_line : OneLine lpString)
    (short : (composed shift lpAppName lpKeyName lpString lines).length < 1000)
    (after : List Str) :
    WritesSections shift lpAppName lpKeyName lpString lines (sectionNames lines) after ↔
      listed (sectionNames (updateBy grammar (heads shift lpAppName) lpAppName lpKeyName lpString
        lines)) = listed after := by
  have hupdate := textLine_written hlines section_line key_line value_line nonempty short
  have hwrite := write_update nonempty hlines short
  constructor
  · rintro ⟨file, hfile, hlist⟩
    cases hwrite.symm.trans hfile
    let nSize : Int := (listed (sectionNames (updateBy grammar (heads shift lpAppName) lpAppName
      lpKeyName lpString lines))).length + (listed after).length + 1
    have hgot := (hlist (fun _ => 1) nSize []).2 (by omega)
    rw [get_sections hupdate _ (by omega)] at hgot
    exact eq_of_store (Prod.mk.inj (Except.ok.inj hgot)).2
  · intro hsame
    refine ⟨_, hwrite, fun out nSize str =>
      ⟨fun hsize => get_sections hlines out hsize str, fun hsize => ?_⟩⟩
    rw [← hsame] at hsize ⊢
    exact get_sections hupdate out hsize str

/-- The section list after a write is the one before it, with the section at its end if it was
not there, exactly if the copy makes the name of the section of some name in the list where
the section is there, and of none where it is not. -/
theorem section_list_written_iff {shift : Str → Str} {lines : List Str} (nonempty : lines ≠ [])
    (hlines : ∀ l ∈ lines, TextLine l) {lpAppName lpKeyName lpString : Str}
    (section_line : OneLine lpAppName) (key_line : OneLine lpKeyName) (key : Key lpKeyName)
    (value_line : OneLine lpString)
    (short : (composed shift lpAppName lpKeyName lpString lines).length < 1000) :
    WritesSections shift lpAppName lpKeyName lpString lines (sectionNames lines)
        (withSection lpAppName (sectionNames lines)) ↔
      ((∃ name ∈ sectionNames lines, shift name = lpAppName) ↔
        lpAppName ∈ sectionNames lines) := by
  have hlonger : (listed (sectionNames lines)).length <
      (listed (sectionNames lines ++ [lpAppName])).length := by
    simp [listed]
  rw [writesSections_iff nonempty hlines section_line key_line value_line short,
    sectionNames_update key, withSection]
  by_cases hfound : ∃ name ∈ sectionNames lines, shift name = lpAppName <;>
    by_cases hmem : lpAppName ∈ sectionNames lines
  · rw [if_pos hfound, if_pos hmem, List.append_nil]
    exact iff_of_true rfl (iff_of_true hfound hmem)
  · rw [if_pos hfound, if_neg hmem, List.append_nil]
    exact iff_of_false (fun h => hlonger.ne (congrArg List.length h))
      fun h => hmem (h.mp hfound)
  · rw [if_neg hfound, if_pos hmem]
    exact iff_of_false (fun h => hlonger.ne' (congrArg List.length h))
      fun h => hfound (h.mpr hmem)
  · rw [if_neg hfound, if_neg hmem]
    exact iff_of_true rfl (iff_of_false hfound hmem)

/-- A key of a section `t` is written to a file that has only a section `s`. -/
theorem section_list_written_new : WritesSections moveTwice (chars ['t']) (chars ['k'])
    (chars ['1']) [chars ['[', 's', ']']] [chars ['s']] [chars ['s'], chars ['t']] := by
  have hlines : ∀ l ∈ [chars ['[', 's', ']']], TextLine l := by
    intro l hl
    have h : ∀ l ∈ [chars ['[', 's', ']']], nl ∉ l ∧ 0 ∉ l ∧ l.length ≤ 1022 := by decide
    exact ⟨(h l hl).1, (h l hl).2.1, (h l hl).2.2⟩
  exact (@section_list_written_iff moveTwice _ (by decide) hlines (chars ['t']) (chars ['k'])
    (chars ['1']) ⟨by decide, by decide⟩ ⟨by decide, by decide⟩ ⟨by decide, by decide⟩
    ⟨by decide, by decide⟩ (by decide)).mpr (by decide)

/-- `k=1` is written to the section `abcd`, of which the copy makes `acdd`: the list has that
section twice. -/
theorem not_section_list_written : ¬ ∀ (lines : List Str) (lpAppName lpKeyName lpString : Str),
    lines ≠ [] → (∀ l ∈ lines, TextLine l) → lpAppName ≠ [] → OneLine lpAppName →
    OneLine lpKeyName → Key lpKeyName → OneLine lpString → ¬ OpenBlock lpAppName lpKeyName lines →
    (composed moveTwice lpAppName lpKeyName lpString lines).length < 1000 →
    WritesSections moveTwice lpAppName lpKeyName lpString lines (sectionNames lines)
      (withSection lpAppName (sectionNames lines)) := by
  intro h
  have hlines : ∀ l ∈ [header (chars ['a', 'b', 'c', 'd']), chars ['k', '=', '0']],
      TextLine l := by
    intro l hl
    have h : ∀ l ∈ [header (chars ['a', 'b', 'c', 'd']), chars ['k', '=', '0']],
        nl ∉ l ∧ 0 ∉ l ∧ l.length ≤ 1022 := by decide
    exact ⟨(h l hl).1, (h l hl).2.1, (h l hl).2.2⟩
  have hwritten := h _ (chars ['a', 'b', 'c', 'd']) (chars ['k']) (chars ['1']) (by decide) hlines
    (by decide) ⟨by decide, by decide⟩ ⟨by decide, by decide⟩ ⟨by decide, by decide⟩
    ⟨by decide, by decide⟩ (by decide) (by decide)
  rw [writesSections_iff (by decide) hlines ⟨by decide, by decide⟩ ⟨by decide, by decide⟩
    ⟨by decide, by decide⟩ (by decide)] at hwritten
  revert hwritten
  decide

end Claims

end Gipcy.Linux.Ini
