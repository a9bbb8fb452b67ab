import Gipcy.Lib.Transition
import Gipcy.Linux.Ini.RoundTrip
import Gipcy.Linux.Ini.SectionList

/-! A file that is written to any number of times: the store that it is for the writer,
its sections, and what the reader finds in it. -/
namespace Gipcy.Linux.Ini

open CString Lines SectionStore Transition

/-- The arguments of a write, and whether the file can be opened for writing. -/
structure IniWrite where
  lpAppName : Str
  lpKeyName : Str
  lpString : Str
  reopened : Bool

/-- Calls of `IPC_writePrivateProfileString` that return, on one file. -/
def iniFile (shift : Str → Str) : System (List UInt8) IniWrite where
  init := fun _ => True
  step := fun file w file' => ∃ res,
    writePrivateProfileString shift w.lpAppName w.lpKeyName w.lpString (some file) w.reopened =
      .ok (res, some file')

structure IniWrite.Valid (w : IniWrite) : Prop where
  section_line : OneLine w.lpAppName
  key_line : OneLine w.lpKeyName
  key : Key w.lpKeyName
  value_line : OneLine w.lpString

/-- The copy of a name over itself leaves these as they are. -/
def Clean (shift : Str → Str) (names : List Str) : Prop := ∀ name ∈ names, shift name = name

instance (shift : Str → Str) (names : List Str) : Decidable (Clean shift names) :=
  inferInstanceAs (Decidable (∀ name ∈ names, _))

/-- The writes that reach the file. -/
def performed (calls : List IniWrite) : List (Str × Str × Str) :=
  (calls.filter (·.reopened)).map fun w => (w.lpAppName, w.lpKeyName, w.lpString)

/-- The list of the sections after some writes. -/
def sectionsAfter (names : List Str) (writes : List (Str × Str × Str)) : List Str :=
  writes.foldl (fun names w => withSection w.1 names) names

section Runs

variable {shift : Str → Str} {names lines : List Str} {calls : List IniWrite} {file : List UInt8}

/-- Among sections with such names the search finds the header itself. -/
theorem Clean.findsHeader (clean : Clean shift names) (hnames : sectionNames lines ⊆ names)
    (lpAppName : Str) : FindsHeader shift lpAppName lines := by
  refine find_congr fun l hl => ?_
  cases hsection : isSection l with
  | false =>
    have hne : l ≠ header lpAppName := by
      rintro rfl
      cases hsection.symm.trans (isSection_header lpAppName)
    rw [heads, hsection, Bool.false_and, decide_eq_false hne]
  | true =>
    obtain ⟨name, rfl⟩ := exists_header hsection
    have hname : shift name = name := clean name (hnames (mem_sectionNames_iff.mpr hl))
    rw [Bool.eq_iff_iff, heads_header, hname, decide_eq_true_eq]
    exact header_injective.eq_iff.symm

theorem Clean.update_eq (clean : Clean shift names) (hnames : sectionNames lines ⊆ names)
    (lpAppName lpKeyName lpString : Str) :
    updateBy grammar (heads shift lpAppName) lpAppName lpKeyName lpString lines =
      update grammar lpAppName lpKeyName lpString lines :=
  (updateBy_congr (clean.findsHeader hnames lpAppName) lpAppName lpKeyName lpString).trans
    (update_eq_updateBy lpAppName lpKeyName lpString lines).symm

/-- A call that returns updates the store, or leaves the file as it is. -/
theorem write_step {w : IniWrite} (clean : Clean shift names) (hlines : ∀ l ∈ lines, TextLine l)
    (hnames : sectionNames lines ⊆ names) (valid : w.Valid) (hw : w.lpAppName ∈ names)
    (step : (iniFile shift).step (textOf lines) w file) :
    file = textOf (updates grammar lines (performed [w])) ∧
      (∀ l ∈ updates grammar lines (performed [w]), TextLine l) ∧
      sectionNames (updates grammar lines (performed [w])) ⊆ names := by
  obtain ⟨res, hwrite⟩ := step
  obtain ⟨section_line, key_line, key, value_line⟩ := valid
  cases hreopened : w.reopened with
  | false =>
    have hnone : performed [w] = [] := by simp [performed, hreopened]
    rw [hreopened] at hwrite
    obtain ⟨b, -, hsame⟩ := ok_of_bind hwrite
    cases hsame
    rw [hnone]
    exact ⟨rfl, hlines, hnames⟩
  | true =>
    have hone : performed [w] = [(w.lpAppName, w.lpKeyName, w.lpString)] := by
      simp [performed, hreopened]
    rw [hreopened] at hwrite
    have hzero : res = 0 := by
      obtain ⟨b, -, hdone⟩ := ok_of_bind hwrite
      cases hdone
      rfl
    subst hzero
    obtain ⟨hfile, hoption, hheader⟩ := write_ok hlines hwrite
    have hupdate : updates grammar lines (performed [w]) = updateBy grammar
        (heads shift w.lpAppName) w.lpAppName w.lpKeyName w.lpString lines := by
      rw [hone, clean.update_eq hnames]
      rfl
    rw [splitFile_update] at hfile
    rw [hupdate]
    refine ⟨Option.some.inj hfile,
      textLine_update hlines section_line key_line value_line hoption hheader, ?_⟩
    rw [sectionNames_update key]
    refine List.append_subset.mpr ⟨hnames, ?_⟩
    split
    · exact List.nil_subset _
    · simpa using hw

theorem performed_cons (w : IniWrite) (calls : List IniWrite) :
    performed (w :: calls) = performed [w] ++ performed calls := by
  rw [performed, performed, performed, ← List.map_append, ← List.filter_append]
  rfl

theorem valid_performed {P : Str × Str × Str → Prop}
    (h : ∀ w ∈ calls, P (w.lpAppName, w.lpKeyName, w.lpString)) : ∀ w ∈ performed calls, P w := by
  intro w hw
  obtain ⟨c, hc, rfl⟩ := List.mem_map.mp hw
  exact h c (List.mem_of_mem_filter hc)

/-- A run of calls makes the performed updates, one after the other. -/
theorem exec_updates (clean : Clean shift names) (hlines : ∀ l ∈ lines, TextLine l)
    (hnames : sectionNames lines ⊆ names)
    (valid : ∀ w ∈ calls, w.Valid ∧ w.lpAppName ∈ names)
    (run : (iniFile shift).Exec (textOf lines) calls file) :
    file = textOf (updates grammar lines (performed calls)) ∧
      (∀ l ∈ updates grammar lines (performed calls), TextLine l) ∧
      sectionNames (updates grammar lines (performed calls)) ⊆ names := by
  generalize hstart : textOf lines = start at run
  induction run generalizing lines with
  | nil => exact ⟨hstart.symm, hlines, hnames⟩
  | @cons s w t calls u step _ ih =>
    obtain ⟨hw, hcalls⟩ := List.forall_mem_cons.mp valid
    subst hstart
    obtain ⟨rfl, ht, hsub⟩ := write_step clean hlines hnames hw.1 hw.2 step
    rw [performed_cons, updates, List.foldl_append]
    exact ih ht hsub hcalls rfl

theorem sectionNames_updates {writes : List (Str × Str × Str)} (hkeys : ∀ w ∈ writes, Key w.2.1) :
    sectionNames (updates grammar lines writes) = sectionsAfter (sectionNames lines) writes := by
  induction writes generalizing lines with
  | nil => rfl
  | cons w writes ih =>
    obtain ⟨hw, hwrites⟩ := List.forall_mem_cons.mp hkeys
    have clean : Clean id (sectionNames lines) := fun _ _ => rfl
    have hwrite := @sectionNames_update w.1 w.2.1 w.2.2 lines id hw
    rw [clean.update_eq (List.Subset.refl _)] at hwrite
    simp only [id_eq, exists_eq_right] at hwrite
    rw [updates, List.foldl_cons, ← updates, ih hwrites, hwrite, sectionsAfter, sectionsAfter,
      List.foldl_cons, withSection]
    split <;> simp

/-- Where the writer finds a value there is the line of it. -/
theorem split_of_lookup {lpAppName lpKeyName value : Str} (clean : Clean shift names)
    (hnames : sectionNames lines ⊆ names)
    (h : SectionStore.lookup grammar lpAppName lpKeyName lines = some value) :
    (splitFile shift lpAppName lpKeyName lines).1 ++ optionLine lpKeyName value ::
      (splitFile shift lpAppName lpKeyName lines).2 = lines := by
  rw [splitFile_update, clean.update_eq hnames, update_lookup grammar_canonical h]

/-- The header of the section is ahead of the line. -/
theorem header_mem_ahead {lpAppName lpKeyName value : Str} (clean : Clean shift names)
    (hnames : sectionNames lines ⊆ names)
    (h : SectionStore.lookup grammar lpAppName lpKeyName lines = some value) :
    header lpAppName ∈ (splitFile shift lpAppName lpKeyName lines).1 := by
  have hfind := clean.findsHeader hnames lpAppName
  rcases first_or_none (heads shift lpAppName) lines with
    hnone | ⟨before, l, after, rfl, hbefore, hl⟩
  · rw [lookup_eq_lookupBy] at h
    have hno := lookupBy_congr (g := grammar) hfind lpKeyName
    rw [lookupBy_none hnone] at hno
    cases hno.trans h
  · rw [FindsHeader, find_first hbefore hl] at hfind
    have hheader := List.find?_some hfind.symm
    rw [decide_eq_true_eq] at hheader
    rw [splitFile_found hbefore hl, hheader]
    simp

/-- What the reader gives where the writer finds a value. -/
theorem readsBack_lookup_iff (clean : Clean shift names) (hlines : ∀ l ∈ lines, TextLine l)
    (hnames : sectionNames lines ⊆ names) {s k v : Str} (hs : Name s)
    (hk : Name k) (hv : Value v) (h : SectionStore.lookup grammar s k lines = some v) {nSize : Int}
    (hsize : v.length < nSize) (lpDefault : Option Str) (out : Nat → UInt8) (str : List UInt8) :
    ReadsBack s k v lpDefault out nSize (some (textOf lines)) str ↔
      Uncommented v ∧ ∃ inside, Opens s str (splitFile shift s k lines).1 inside ∧
        Leaves k v nSize inside := by
  have hsplit := split_of_lookup clean hnames h
  have hreads := readsBack_below_iff (by rwa [hsplit]) (header_mem_ahead clean hnames h) hs hk hv
    hsize lpDefault out str
  rwa [hsplit] at hreads

end Runs

section Settings

variable {keys : List Str} {lpKeyName value k l : Str} {lines : List Str}

/-- The keys of a program: names that differ in more than their case. -/
structure Keys (keys : List Str) : Prop where
  name : ∀ k ∈ keys, Name k
  distinct : ∀ k ∈ keys, ∀ k' ∈ keys, strlwr k = strlwr k' → k = k'

/-- No key occurs in the value, whatever the case. -/
def Quiet (keys : List Str) (value : Str) : Prop :=
  ∀ k ∈ keys, ¬ strlwr k <:+: strlwr value

/-- A line of the file of such a program. -/
def Setting (keys : List Str) (l : Str) : Prop :=
  (∃ name, l = header name) ∨ ∃ k ∈ keys, ∃ value, Quiet keys value ∧ l = optionLine k value

theorem Name.key (h : Name k) : Key k where
  equals := h.not_mem (by decide)
  first hfirst := h.not_mem (d := '['.toUInt8) (by decide) (List.mem_of_head? hfirst)

/-- `FindOption` does not take the line of another key. -/
theorem Keys.not_takes (h : Keys keys) (hk : k ∈ keys) (hkey : lpKeyName ∈ keys)
    (hne : k ≠ lpKeyName) (quiet : Quiet keys value) : ¬ Takes lpKeyName (optionLine k value) := by
  rintro ⟨-, -, hpart, hends⟩
  have hequals : '='.toUInt8 ∉ strlwr lpKeyName := by
    intro hmem
    obtain ⟨c, hc, heq⟩ := List.mem_map.mp hmem
    exact (h.name _ hkey).not_mem (d := '='.toUInt8) (by decide)
      ((tolower_eq_iff (.inl (by decide))).mp heq ▸ hc)
  have hlower : strlwr (optionLine k value) = strlwr k ++ '='.toUInt8 :: strlwr value := by
    rw [optionLine_eq, strlwr_append]
    rfl
  rw [hlower] at hpart
  rcases infix_append_cons hequals hpart with hpart | hpart
  · -- the key is in the name, so the name is longer and goes on where the key must end
    have hle := hpart.length_le
    rw [length_strlwr, length_strlwr] at hle
    have hlt : lpKeyName.length < k.length := by
      apply Nat.lt_of_le_of_ne hle
      intro hlength
      have hsame : strlwr lpKeyName = strlwr k := hpart.eq_of_length (by simp [hlength])
      exact hne (h.distinct _ hk _ hkey hsame.symm)
    have hgetD : (optionLine k value).getD lpKeyName.length 0 = k[lpKeyName.length] := by
      rw [optionLine_eq, List.getD_append _ _ _ _ hlt, List.getD_eq_getElem _ _ hlt]
    have halnum := List.all_eq_true.mp (h.name k hk) _ (List.getElem_mem hlt)
    rw [hgetD] at hends
    rcases hends with hc | hc | hc
    · exact alnum_ne halnum (by decide) hc
    · exact alnum_ne halnum (by decide) hc
    · exact alnum_ne halnum (by decide) hc
  · exact quiet _ hkey hpart

/-- Of the lines of a section ahead of the key none has the key or is a header. -/
theorem splitSection_ahead (lpKeyName : Str) (lines : List Str) :
    ∀ l ∈ (splitSection lpKeyName lines).1,
      l ∈ lines ∧ optionName l ≠ some lpKeyName ∧ isSection l = false := by
  induction lines with
  | nil => exact fun l hl => absurd hl List.not_mem_nil
  | cons l lines ih =>
    rw [splitSection]
    split
    · exact fun l hl => absurd hl List.not_mem_nil
    · split
      · exact fun l hl => absurd hl List.not_mem_nil
      · rename_i hkey hheader
        refine List.forall_mem_cons.mpr ⟨⟨List.mem_cons_self, hkey, Bool.eq_false_iff.mpr hheader⟩,
          fun m hm => ?_⟩
        obtain ⟨hmem, hm⟩ := ih m hm
        exact ⟨List.mem_cons_of_mem l hmem, hm⟩

/-- The lines of a section leave the value of a key to its own line. -/
theorem Keys.leaves (h : Keys keys) (hkey : lpKeyName ∈ keys) (hlines : ∀ l ∈ lines, Setting keys l)
    (nSize : Int) : Leaves lpKeyName value nSize (splitSection lpKeyName lines).1 := by
  have hahead := splitSection_ahead lpKeyName lines
  generalize (splitSection lpKeyName lines).1 = ahead at hahead
  induction ahead with
  | nil => exact .nil
  | cons l ahead ih =>
    obtain ⟨⟨hmem, hname, hsection⟩, hahead⟩ := List.forall_mem_cons.mp hahead
    refine .passed (fun htakes => ?_) (ih hahead)
    rcases hlines l hmem with ⟨name, rfl⟩ | ⟨k, hk, v, quiet, rfl⟩
    · rw [isSection_header] at hsection
      cases hsection
    · have hne : k ≠ lpKeyName := by
        rintro rfl
        exact hname (grammar_lawful.keyOf_option v (h.name k hk).key)
      exact absurd htakes (h.not_takes hk hkey hne quiet)

/-- A write of such a program keeps the first line and the form of the lines. -/
theorem setting_update {app first lpString : Str} (hkey : lpKeyName ∈ keys)
    (quiet : Quiet keys lpString)
    (h : ∃ rest, lines = header first :: rest ∧ ∀ l ∈ rest, Setting keys l) :
    ∃ rest, update grammar app lpKeyName lpString lines = header first :: rest ∧
      ∀ l ∈ rest, Setting keys l := by
  obtain ⟨rest, rfl, hrest⟩ := h
  have hnew : ∀ l, l ∈ updateSection grammar lpKeyName lpString rest ∨
      l ∈ update grammar app lpKeyName lpString rest → Setting keys l := by
    intro l hl
    have hmem : l ∈ rest ∨ l = header app ∨ l = optionLine lpKeyName lpString := by
      rcases hl with hl | hl
      · rw [← splitSection_update] at hl
        rcases List.mem_append.mp hl with hl | hl
        · exact .inl (mem_splitSection (.inl hl))
        · exact (List.mem_cons.mp hl).elim (fun h => .inr (.inr h))
            fun h => .inl (mem_splitSection (.inr h))
      · rw [update_eq_updateBy] at hl
        exact mem_updateBy hl
    rcases hmem with hmem | rfl | rfl
    · exact hrest l hmem
    · exact .inl ⟨app, rfl⟩
    · exact .inr ⟨lpKeyName, hkey, lpString, quiet, rfl⟩
  rw [update]
  split
  · exact ⟨_, rfl, fun l hl => hnew l (.inl hl)⟩
  · exact ⟨_, rfl, fun l hl => hnew l (.inr hl)⟩

end Settings

section Claims

/-- However often a file of whole lines is written to, it is the map of the values that
were written last, with the sections in the order in which they came, and the value that
is found there is what the reader gives exactly if it has no comment and the lines ahead
of it leave it alone; if the copy leaves the names of the sections as they are. -/
theorem file_is_map {shift : Str → Str} {lines : List Str} (hlines : ∀ l ∈ lines, TextLine l)
    {calls : List IniWrite} (clean : Clean shift (sectionNames lines ++ calls.map (·.lpAppName)))
    (valid : ∀ w ∈ calls, w.Valid) {file : List UInt8}
    (run : (iniFile shift).Exec (textOf lines) calls file) :
    (∀ s k, Key k → lookup file s k = latest s k (lookup (textOf lines) s k) (performed calls)) ∧
    (∀ names, names = sectionsAfter (sectionNames lines) (performed calls) →
      ∀ (out : Nat → UInt8) (nSize : Int) (str : List UInt8), (listed names).length < nSize →
        getPrivateProfileString none none (some []) out nSize (some file) str =
          .ok (0, store out 0 (listed names ++ [0]))) ∧
    ∃ lines', file = textOf lines' ∧ ∀ s k v, Name s → Name k → Value v →
      lookup file s k = some v → ∀ (nSize : Int) (lpDefault : Option Str) (out : Nat → UInt8)
        (str : List UInt8), v.length < nSize →
        (ReadsBack s k v lpDefault out nSize (some file) str ↔ Uncommented v ∧ ∃ inside,
          Opens s str (splitFile shift s k lines').1 inside ∧ Leaves k v nSize inside) := by
  obtain ⟨rfl, hlines', hnames⟩ := exec_updates clean hlines (List.subset_append_left _ _)
    (fun w hw => ⟨valid w hw, List.mem_append_right _ (List.mem_map_of_mem hw)⟩) run
  have hkeys : ∀ w ∈ performed calls, Key w.2.1 := valid_performed fun w hw => (valid w hw).key
  refine ⟨fun s k hk => ?_, fun names hlist out nSize str hsize => ?_, _, rfl, ?_⟩
  · rw [lookup_textOf hlines', lookup_textOf hlines]
    exact lookup_updates grammar_lawful hkeys hk
  · rw [← sectionNames_updates hkeys] at hlist
    subst hlist
    exact get_sections hlines' out hsize str
  · intro s k v hs hk hv hlookup nSize lpDefault out str hsize
    rw [lookup_textOf hlines'] at hlookup
    exact readsBack_lookup_iff clean hlines' hnames hs hk hv hlookup hsize lpDefault out str

/-- Two writes of one key and one that does not reach the file. -/
theorem file_is_map_twice : ∃ file, (iniFile moveTwice).Exec (textOf [chars ['[', 's', ']']])
      [⟨chars ['s'], chars ['k'], chars ['1'], true⟩, ⟨chars ['s'], chars ['k'], chars ['2'], true⟩,
        ⟨chars ['t'], chars ['k'], chars ['3'], false⟩] file ∧
    lookup file (chars ['s']) (chars ['k']) = some (chars ['2']) := by
  have hlines : ∀ l ∈ [chars ['[', 's', ']']], TextLine l := by
    intro l hl
    have h : ∀ l ∈ [chars ['[', 's', ']']], nl ∉ l ∧ 0 ∉ l ∧ l.length ≤ 1022 := by decide
    exact ⟨(h l hl).1, (h l hl).2.1, (h l hl).2.2⟩
  have run : (iniFile moveTwice).Exec (textOf [chars ['[', 's', ']']])
      [⟨chars ['s'], chars ['k'], chars ['1'], true⟩, ⟨chars ['s'], chars ['k'], chars ['2'], true⟩,
        ⟨chars ['t'], chars ['k'], chars ['3'], false⟩]
      (textOf [chars ['[', 's', ']'], chars ['k', '=', '2']]) :=
    .cons ⟨0, rfl⟩ (.cons ⟨0, rfl⟩ (.cons ⟨-1, rfl⟩ (.nil _)))
  refine ⟨_, run, ((file_is_map hlines (by decide) ?_ run).1 (chars ['s']) (chars ['k'])
    ?_).trans (by decide)⟩
  · have hvalid : ∀ s k v : Str, Name s → Name k → OneLine v → ∀ b, IniWrite.Valid ⟨s, k, v, b⟩ :=
      fun s k v hs hk hv b => ⟨hs.oneLine, hk.oneLine, hk.key, hv⟩
    simp only [List.forall_mem_cons]
    exact ⟨hvalid _ _ _ (by decide) (by decide) ⟨by decide, by decide⟩ _,
      hvalid _ _ _ (by decide) (by decide) ⟨by decide, by decide⟩ _,
      hvalid _ _ _ (by decide) (by decide) ⟨by decide, by decide⟩ _,
      fun _ h => absurd h List.not_mem_nil⟩
  · exact ⟨by decide, by decide⟩

/-- A program that keeps its settings in the section at the top of the file, under keys
that differ in more than case and occur in no value, reads every one of them back, however
often it writes. -/
theorem settings_read_back {shift : Str → Str} {keys : List Str} (hkeys : Keys keys) {s : Str}
    (hs : Name s) {rest : List Str} (hlines : ∀ l ∈ header s :: rest, TextLine l)
    (hrest : ∀ l ∈ rest, Setting keys l) {calls : List IniWrite}
    (clean : Clean shift (sectionNames (header s :: rest) ++ calls.map (·.lpAppName)))
    (hcalls : ∀ w ∈ calls, Name w.lpAppName ∧ w.lpKeyName ∈ keys ∧ Value w.lpString ∧
      Quiet keys w.lpString) {file : List UInt8}
    (run : (iniFile shift).Exec (textOf (header s :: rest)) calls file) {k v : Str} (hk : k ∈ keys)
    (hlookup : latest s k (lookup (textOf (header s :: rest)) s k) (performed calls) = some v)
    (hvalue : Value v) (huncommented : Uncommented v) {nSize : Int} (hsize : v.length < nSize)
    (lpDefault : Option Str) (out : Nat → UInt8) (str : List UInt8) :
    ReadsBack s k v lpDefault out nSize (some file) str := by
  have hname := hkeys.name k hk
  have valid : ∀ w ∈ calls, w.Valid := fun w hw =>
    have hw := hcalls w hw
    ⟨hw.1.oneLine, (hkeys.name _ hw.2.1).oneLine, (hkeys.name _ hw.2.1).key, hw.2.2.1.oneLine⟩
  obtain ⟨rfl, hlines', hnames⟩ := exec_updates clean hlines (List.subset_append_left _ _)
    (fun w hw => ⟨valid w hw, List.mem_append_right _ (List.mem_map_of_mem hw)⟩) run
  have hperformed : ∀ w ∈ performed calls, w.2.1 ∈ keys ∧ Quiet keys w.2.2 :=
    valid_performed fun w hw => ⟨(hcalls w hw).2.1, (hcalls w hw).2.2.2⟩
  have hupdated : SectionStore.lookup grammar s k
      (updates grammar (header s :: rest) (performed calls)) = _ :=
    lookup_updates grammar_lawful (fun w hw => (hkeys.name _ (hperformed w hw).1).key) hname.key
  rw [lookup_textOf hlines] at hlookup
  rw [hlookup] at hupdated
  refine (readsBack_lookup_iff clean hlines' hnames hs hname hvalue hupdated hsize lpDefault out
    str).mpr ⟨huncommented, ?_⟩
  obtain ⟨rest', hrest', hsetting⟩ := updates_preserves
    (P := fun lines => ∃ rest, lines = header s :: rest ∧ ∀ l ∈ rest, Setting keys l)
    (fun lines w h hw => setting_update hw.1 hw.2 h) hperformed ⟨rest, rfl, hrest⟩
  have hlength := (hlines _ List.mem_cons_self).length
  rw [header, List.cons_append, List.length_cons, List.length_append] at hlength
  have hheads : heads shift s (header s) = true :=
    (heads_header shift s s).mpr (clean s (by simp [mem_sectionNames_iff]))
  rw [hrest', splitFile, if_pos hheads]
  exact ⟨_, .here (findSection_header (hs.not_mem (by decide)) (by omega) str),
    hkeys.leaves hk hsetting nSize⟩

/-- The keys `width` and `height` of a section `s`; the first is written twice. -/
theorem settings_read_back_width : ∃ file,
    (iniFile moveTwice).Exec (textOf [chars ['[', 's', ']']])
      [⟨chars ['s'], chars ['w', 'i', 'd', 't', 'h'], chars ['7'], true⟩,
        ⟨chars ['s'], chars ['h', 'e', 'i', 'g', 'h', 't'], chars ['4', '0'], true⟩,
        ⟨chars ['s'], chars ['w', 'i', 'd', 't', 'h'], chars ['6', '4'], true⟩] file ∧
    ReadsBack (chars ['s']) (chars ['w', 'i', 'd', 't', 'h']) (chars ['6', '4']) none (fun _ => 0)
      80 (some file) [] := by
  have hlines : ∀ l ∈ [chars ['[', 's', ']']], TextLine l := by
    intro l hl
    have h : ∀ l ∈ [chars ['[', 's', ']']], nl ∉ l ∧ 0 ∉ l ∧ l.length ≤ 1022 := by decide
    exact ⟨(h l hl).1, (h l hl).2.1, (h l hl).2.2⟩
  have run : (iniFile moveTwice).Exec (textOf [chars ['[', 's', ']']])
      [⟨chars ['s'], chars ['w', 'i', 'd', 't', 'h'], chars ['7'], true⟩,
        ⟨chars ['s'], chars ['h', 'e', 'i', 'g', 'h', 't'], chars ['4', '0'], true⟩,
        ⟨chars ['s'], chars ['w', 'i', 'd', 't', 'h'], chars ['6', '4'], true⟩]
      (textOf [chars ['[', 's', ']'], chars ['w', 'i', 'd', 't', 'h', '=', '6', '4'],
        chars ['h', 'e', 'i', 'g', 'h', 't', '=', '4', '0']]) :=
    .cons ⟨0, rfl⟩ (.cons ⟨0, rfl⟩ (.cons ⟨0, rfl⟩ (.nil _)))
  have hkeys : Keys [chars ['w', 'i', 'd', 't', 'h'], chars ['h', 'e', 'i', 'g', 'h', 't']] :=
    ⟨by decide, by decide⟩
  have hvalue : ∀ value ∈ [chars ['7'], chars ['4', '0'], chars ['6', '4']], Value value ∧
      Quiet [chars ['w', 'i', 'd', 't', 'h'], chars ['h', 'e', 'i', 'g', 'h', 't']] value := by
    have h : ∀ value ∈ [chars ['7'], chars ['4', '0'], chars ['6', '4']],
        (value ≠ [] ∧ value.any control = false ∧ value.head? ≠ some ' '.toUInt8 ∧
          value.length < 500) ∧
        ∀ k ∈ [chars ['w', 'i', 'd', 't', 'h'], chars ['h', 'e', 'i', 'g', 'h', 't']],
          ¬ strlwr k <:+: strlwr value := by decide
    exact fun value hmem => ⟨⟨(h value hmem).1.1, (h value hmem).1.2.1, (h value hmem).1.2.2.1,
      (h value hmem).1.2.2.2⟩, (h value hmem).2⟩
  refine ⟨_, run, @settings_read_back moveTwice _ hkeys (chars ['s']) (by decide) [] hlines
    (fun _ h => absurd h List.not_mem_nil) _ (by decide) ?_ _ run _ _ List.mem_cons_self (by decide)
    (hvalue _ (by decide)).1 ?_ _ (by decide) none _ _⟩
  · simp only [List.forall_mem_cons]
    exact ⟨⟨by decide, by decide, hvalue _ (by decide)⟩,
      ⟨by decide, by decide, hvalue _ (by decide)⟩,
      ⟨by decide, by decide, hvalue _ (by decide)⟩, fun _ h => absurd h List.not_mem_nil⟩
  · unfold Uncommented
    decide

end Claims

end Gipcy.Linux.Ini
