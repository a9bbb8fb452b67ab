import Mathlib.Tactic.Common

/-! A text of lines as a store. Header lines divide it into sections, and the
option lines of a section have a key and a value. A value is looked up, and a new
one is written, in the first section of its name and at the first line of its key;
a section or a key that is not there is added. -/
namespace SectionStore

variable {L S K V : Type*}

/-- How the lines are made and read. -/
structure Grammar (L S K V : Type*) where
  header : S → L
  option : K → V → L
  isHeader : L → Bool
  keyOf : L → Option K
  valueOf : L → Option V

/-- For the keys that are valid, option lines are read as they were made and are
not taken for headers. -/
structure Grammar.Lawful (g : Grammar L S K V) (valid : K → Prop) : Prop where
  header_injective : Function.Injective g.header
  isHeader_header : ∀ s, g.isHeader (g.header s) = true
  keyOf_option : ∀ {k} v, valid k → g.keyOf (g.option k v) = some k
  valueOf_option : ∀ {k} v, valid k → g.valueOf (g.option k v) = some v
  not_header : ∀ {k l}, valid k → g.keyOf l = some k → g.isHeader l = false

namespace Grammar.Lawful

variable {g : Grammar L S K V} {valid : K → Prop} (law : g.Lawful valid) {k : K} {l : L}

include law

theorem isHeader_option (hk : valid k) (v : V) : g.isHeader (g.option k v) = false :=
  law.not_header hk (law.keyOf_option v hk)

theorem option_ne_header (hk : valid k) (v : V) (s : S) : g.option k v ≠ g.header s := by
  intro h
  have hheader := law.isHeader_header s
  rw [← h, law.isHeader_option hk] at hheader
  cases hheader

theorem keyOf_header (hk : valid k) (s : S) : g.keyOf (g.header s) ≠ some k := by
  intro h
  have hheader := law.isHeader_header s
  rw [law.not_header hk h] at hheader
  cases hheader

theorem ne_header (h : g.isHeader l = false) (s : S) : l ≠ g.header s := by
  rintro rfl
  rw [law.isHeader_header s] at h
  cases h

theorem mono {valid' : K → Prop} (h : ∀ k, valid' k → valid k) : g.Lawful valid' where
  header_injective := law.header_injective
  isHeader_header := law.isHeader_header
  keyOf_option v hk := law.keyOf_option v (h _ hk)
  valueOf_option v hk := law.valueOf_option v (h _ hk)
  not_header hk := law.not_header (h _ hk)

end Grammar.Lawful

variable [DecidableEq L] [DecidableEq K] (g : Grammar L S K V)

/-- The value of a key in the section that the lines begin with. -/
def lookupSection (k : K) : List L → Option V
  | [] => none
  | l :: lines =>
    if g.keyOf l = some k then g.valueOf l
    else if g.isHeader l then none
    else lookupSection k lines

def lookup (s : S) (k : K) : List L → Option V
  | [] => none
  | l :: lines => if l = g.header s then lookupSection g k lines else lookup s k lines

def updateSection (k : K) (v : V) : List L → List L
  | [] => [g.option k v]
  | l :: lines =>
    if g.keyOf l = some k then g.option k v :: lines
    else if g.isHeader l then g.option k v :: l :: lines
    else l :: updateSection k v lines

def update (s : S) (k : K) (v : V) : List L → List L
  | [] => g.header s :: updateSection g k v []
  | l :: lines =>
    if l = g.header s then l :: updateSection g k v lines else l :: update s k v lines

variable {g} {valid : K → Prop} (law : g.Lawful valid) {s s' : S} {k k' : K} {v v' : V}
  {lines : List L} {l : L}

section Splits

variable {before ahead : List L}

omit [DecidableEq L] in
/-- The lines of a section ahead of the key and of the next header stay. -/
theorem updateSection_append (h : ∀ l ∈ ahead, g.keyOf l ≠ some k ∧ g.isHeader l = false) :
    updateSection g k v (ahead ++ lines) = ahead ++ updateSection g k v lines := by
  induction ahead with
  | nil => rfl
  | cons l ahead ih =>
    obtain ⟨⟨hkey, hheader⟩, hahead⟩ := List.forall_mem_cons.mp h
    rw [List.cons_append, updateSection, if_neg hkey, if_neg (Bool.eq_false_iff.mp hheader),
      ih hahead, List.cons_append]

omit [DecidableEq L] in
theorem updateSection_key (h : g.keyOf l = some k) :
    updateSection g k v (l :: lines) = g.option k v :: lines := if_pos h

omit [DecidableEq L] in
theorem updateSection_header (hkey : g.keyOf l ≠ some k) (hheader : g.isHeader l = true) :
    updateSection g k v (l :: lines) = g.option k v :: l :: lines := by
  rw [updateSection, if_neg hkey, if_pos hheader]

/-- The lines ahead of the section stay. -/
theorem update_append (h : g.header s ∉ before) :
    update g s k v (before ++ lines) = before ++ update g s k v lines := by
  induction before with
  | nil => rfl
  | cons l before ih =>
    obtain ⟨hl, hbefore⟩ := not_or.mp (List.mem_cons.not.mp h)
    rw [List.cons_append, update, if_neg (Ne.symm hl), ih hbefore, List.cons_append]

theorem update_header :
    update g s k v (g.header s :: lines) = g.header s :: updateSection g k v lines := if_pos rfl

theorem update_absent (h : g.header s ∉ lines) :
    update g s k v lines = lines ++ [g.header s, g.option k v] := by
  have happend : update g s k v (lines ++ []) = _ := update_append h
  rwa [List.append_nil] at happend

end Splits

section Laws

include law

omit [DecidableEq L] in
theorem lookupSection_option (hk : valid k) (hne : k ≠ k') :
    lookupSection g k' (g.option k v :: lines) = lookupSection g k' lines := by
  have hkey : g.keyOf (g.option k v) ≠ some k' := by
    rw [law.keyOf_option v hk]
    exact fun h => hne (Option.some.inj h)
  simp [lookupSection, hkey, law.isHeader_option hk]

omit [DecidableEq L] in
theorem lookupSection_updateSection (hk : valid k) :
    lookupSection g k (updateSection g k v lines) = some v := by
  have hnew : ∀ lines, lookupSection g k (g.option k v :: lines) = some v := fun lines => by
    simp [lookupSection, law.keyOf_option v hk, law.valueOf_option v hk]
  induction lines with
  | nil => exact hnew []
  | cons l lines ih =>
    rw [updateSection]
    split
    · exact hnew lines
    · split
      · exact hnew (l :: lines)
      · simp_all [lookupSection]

omit [DecidableEq L] in
theorem lookupSection_updateSection_other (hk : valid k) (hne : k ≠ k') :
    lookupSection g k' (updateSection g k v lines) = lookupSection g k' lines := by
  induction lines with
  | nil => exact lookupSection_option law hk hne
  | cons l lines ih =>
    rw [updateSection]
    split
    · rename_i hl
      have hkey : g.keyOf l ≠ some k' := by
        rw [hl]
        exact fun h => hne (Option.some.inj h)
      rw [lookupSection_option law hk hne]
      simp [lookupSection, hkey, law.not_header hk hl]
    · split
      · exact lookupSection_option law hk hne
      · rw [lookupSection, lookupSection, ih]

omit [DecidableEq L] in
theorem updateSection_updateSection (hk : valid k) :
    updateSection g k v' (updateSection g k v lines) = updateSection g k v' lines := by
  have hnew : ∀ lines, updateSection g k v' (g.option k v :: lines) = g.option k v' :: lines :=
    fun lines => by simp [updateSection, law.keyOf_option v hk]
  induction lines with
  | nil => exact hnew []
  | cons l lines ih =>
    by_cases hkey : g.keyOf l = some k
    · simp [updateSection, hkey, law.keyOf_option v hk]
    · by_cases hheader : g.isHeader l = true
      · simp [updateSection, hkey, hheader, law.keyOf_option v hk]
      · simp [updateSection, hkey, hheader, ih]

/-- A section that is written to has no other header than before. -/
theorem lookup_updateSection (hk : valid k) :
    lookup g s' k' (updateSection g k v lines) = lookup g s' k' lines := by
  have hnew : ∀ lines, lookup g s' k' (g.option k v :: lines) = lookup g s' k' lines :=
    fun lines => by simp [lookup, law.option_ne_header hk]
  induction lines with
  | nil => exact hnew []
  | cons l lines ih =>
    rw [updateSection]
    split
    · rename_i hl
      rw [hnew, lookup, if_neg (law.ne_header (law.not_header hk hl) s')]
    · split
      · exact hnew _
      · rename_i hheader
        have hl : l ≠ g.header s' := law.ne_header (Bool.eq_false_iff.mpr hheader) s'
        rw [lookup, lookup, if_neg hl, if_neg hl, ih]

/-- The section ahead of the one that is written to ends where it did. -/
theorem lookupSection_update (hk' : valid k') :
    lookupSection g k' (update g s k v lines) = lookupSection g k' lines := by
  induction lines with
  | nil => simp [update, lookupSection, law.keyOf_header hk', law.isHeader_header]
  | cons l lines ih =>
    rw [update]
    split
    · rename_i hl
      subst hl
      simp [lookupSection, law.keyOf_header hk', law.isHeader_header]
    · rw [lookupSection, lookupSection, ih]

theorem lookup_update (hk : valid k) : lookup g s k (update g s k v lines) = some v := by
  induction lines with
  | nil =>
    rw [update, lookup, if_pos rfl]
    exact lookupSection_updateSection law hk
  | cons l lines ih =>
    rw [update]
    split
    · rename_i hl
      rw [lookup, if_pos hl]
      exact lookupSection_updateSection law hk
    · rename_i hl
      rw [lookup, if_neg hl, ih]

theorem lookup_update_other (hk : valid k) (hk' : valid k') (hne : (s', k') ≠ (s, k)) :
    lookup g s' k' (update g s k v lines) = lookup g s' k' lines := by
  have hkeys : s' = s → k ≠ k' := by
    rintro rfl rfl
    exact hne rfl
  induction lines with
  | nil =>
    by_cases hs : s' = s
    · subst hs
      rw [update, lookup, lookup, if_pos rfl]
      exact lookupSection_updateSection_other law hk (hkeys rfl)
    · have hheader : g.header s ≠ g.header s' := fun h => hs (law.header_injective h).symm
      rw [update, lookup, lookup, if_neg hheader]
      exact lookup_updateSection law hk
  | cons l lines ih =>
    rw [update]
    split
    · rename_i hl
      subst hl
      by_cases hs : s' = s
      · subst hs
        rw [lookup, lookup, if_pos rfl, if_pos rfl]
        exact lookupSection_updateSection_other law hk (hkeys rfl)
      · have hheader : g.header s ≠ g.header s' := fun h => hs (law.header_injective h).symm
        rw [lookup, lookup, if_neg hheader, if_neg hheader]
        exact lookup_updateSection law hk
    · rw [lookup, lookup, ih, lookupSection_update law hk']

omit [DecidableEq L] in
theorem headers_updateSection (hk : valid k) :
    (updateSection g k v lines).filter g.isHeader = lines.filter g.isHeader := by
  induction lines with
  | nil => simp [updateSection, law.isHeader_option hk]
  | cons l lines ih =>
    rw [updateSection]
    split
    · rename_i hl
      simp [law.isHeader_option hk, law.not_header hk hl]
    · split
      · simp [law.isHeader_option hk]
      · rw [List.filter_cons, List.filter_cons, ih]

end Laws

/-! A search that takes other lines than the header for it. -/

/-- The value of a key in the first section whose header the search takes. -/
def lookupBy (g : Grammar L S K V) (p : L → Bool) (k : K) : List L → Option V
  | [] => none
  | l :: lines => if p l then lookupSection g k lines else lookupBy g p k lines

def updateBy (g : Grammar L S K V) (p : L → Bool) (s : S) (k : K) (v : V) : List L → List L
  | [] => g.header s :: updateSection g k v []
  | l :: lines => if p l then l :: updateSection g k v lines else l :: updateBy g p s k v lines

section Search

variable {p : L → Bool} {before after : List L}

omit [DecidableEq L] in
/-- Either the search takes a line, or there is none that it takes. -/
theorem first_or_none (p : L → Bool) (lines : List L) : (∀ l ∈ lines, p l = false) ∨
    ∃ before l after, lines = before ++ l :: after ∧ (∀ m ∈ before, p m = false) ∧ p l = true := by
  cases h : lines.find? p with
  | none => exact .inl (by simpa using List.find?_eq_none.mp h)
  | some l =>
    obtain ⟨hl, before, after, rfl, hbefore⟩ := List.find?_eq_some_iff_append.mp h
    exact .inr ⟨before, l, after, rfl, by simpa using hbefore, hl⟩

omit [DecidableEq L] in
theorem find_first (hbefore : ∀ m ∈ before, p m = false) (hl : p l = true) :
    (before ++ l :: after).find? p = some l :=
  List.find?_eq_some_iff_append.mpr ⟨hl, before, after, rfl, by simpa using hbefore⟩

omit [DecidableEq L] in
theorem updateBy_found (hbefore : ∀ m ∈ before, p m = false) (hl : p l = true) (s : S) (v : V) :
    updateBy g p s k v (before ++ l :: after) = before ++ l :: updateSection g k v after := by
  induction before with
  | nil => rw [List.nil_append, updateBy, if_pos hl, List.nil_append]
  | cons m before ih =>
    obtain ⟨hm, hbefore⟩ := List.forall_mem_cons.mp hbefore
    rw [List.cons_append, updateBy, if_neg (Bool.eq_false_iff.mp hm), ih hbefore, List.cons_append]

omit [DecidableEq L] in
theorem updateBy_none (hnone : ∀ l ∈ lines, p l = false) (s : S) (k : K) (v : V) :
    updateBy g p s k v lines = lines ++ [g.header s, g.option k v] := by
  induction lines with
  | nil => rfl
  | cons l lines ih =>
    obtain ⟨hl, hlines⟩ := List.forall_mem_cons.mp hnone
    rw [updateBy, if_neg (Bool.eq_false_iff.mp hl), ih hlines, List.cons_append]

omit [DecidableEq L] in
theorem lookupBy_found (hbefore : ∀ m ∈ before, p m = false) (hl : p l = true) :
    lookupBy g p k (before ++ l :: after) = lookupSection g k after := by
  induction before with
  | nil => rw [List.nil_append, lookupBy, if_pos hl]
  | cons m before ih =>
    obtain ⟨hm, hbefore⟩ := List.forall_mem_cons.mp hbefore
    rw [List.cons_append, lookupBy, if_neg (Bool.eq_false_iff.mp hm), ih hbefore]

omit [DecidableEq L] in
theorem lookupBy_none (hnone : ∀ l ∈ lines, p l = false) : lookupBy g p k lines = none := by
  induction lines with
  | nil => rfl
  | cons l lines ih =>
    obtain ⟨hl, hlines⟩ := List.forall_mem_cons.mp hnone
    rw [lookupBy, if_neg (Bool.eq_false_iff.mp hl), ih hlines]

/-- The search for the header itself. -/
theorem lookup_eq_lookupBy (s : S) (k : K) (lines : List L) :
    lookup g s k lines = lookupBy g (fun l => l = g.header s) k lines := by
  induction lines with
  | nil => rfl
  | cons l lines ih => simp only [lookup, lookupBy, decide_eq_true_eq, ih]

theorem update_eq_updateBy (s : S) (k : K) (v : V) (lines : List L) :
    update g s k v lines = updateBy g (fun l => l = g.header s) s k v lines := by
  induction lines with
  | nil => rfl
  | cons l lines ih => simp only [update, updateBy, decide_eq_true_eq, ih]

omit [DecidableEq L] in
theorem find_congr {q : L → Bool} (h : ∀ l ∈ lines, p l = q l) : lines.find? p = lines.find? q := by
  induction lines with
  | nil => rfl
  | cons l lines ih =>
    obtain ⟨hl, hlines⟩ := List.forall_mem_cons.mp h
    rw [List.find?_cons, List.find?_cons, hl, ih hlines]

omit [DecidableEq L] in
/-- Two searches that find the same line pass over the same lines. -/
theorem find_cons_inj {q : L → Bool} (h : (l :: lines).find? p = (l :: lines).find? q) :
    p l = q l ∧ (p l = false → lines.find? p = lines.find? q) := by
  rw [List.find?_cons, List.find?_cons] at h
  cases hp : p l with
  | true =>
    cases hq : q l with
    | true => exact ⟨rfl, fun h => by cases h⟩
    | false =>
      rw [hp, hq] at h
      exact absurd (List.find?_some h.symm) (by simp [hq])
  | false =>
    cases hq : q l with
    | true =>
      rw [hp, hq] at h
      exact absurd (List.find?_some h) (by simp [hp])
    | false =>
      rw [hp, hq] at h
      exact ⟨rfl, fun _ => h⟩

omit [DecidableEq L] in
theorem updateBy_congr {q : L → Bool} (hfind : lines.find? p = lines.find? q) (s : S) (k : K)
    (v : V) : updateBy g p s k v lines = updateBy g q s k v lines := by
  induction lines with
  | nil => rfl
  | cons l lines ih =>
    obtain ⟨hl, hrest⟩ := find_cons_inj hfind
    rw [updateBy, updateBy, ← hl]
    cases hp : p l with
    | true => rfl
    | false => rw [ih (hrest hp)]

omit [DecidableEq L] in
theorem lookupBy_congr {q : L → Bool} (hfind : lines.find? p = lines.find? q) (k : K) :
    lookupBy g p k lines = lookupBy g q k lines := by
  induction lines with
  | nil => rfl
  | cons l lines ih =>
    obtain ⟨hl, hrest⟩ := find_cons_inj hfind
    rw [lookupBy, lookupBy, ← hl]
    cases hp : p l with
    | true => rfl
    | false => rw [ih (hrest hp)]

omit [DecidableEq L] in
theorem mem_updateSection (h : l ∈ updateSection g k v lines) : l ∈ lines ∨ l = g.option k v := by
  induction lines with
  | nil => exact .inr (List.mem_singleton.mp h)
  | cons m lines ih =>
    rw [updateSection] at h
    split at h
    · rcases List.mem_cons.mp h with h | h
      · exact .inr h
      · exact .inl (List.mem_cons_of_mem m h)
    · split at h
      · exact (List.mem_cons.mp h).symm
      · rcases List.mem_cons.mp h with rfl | h
        · exact .inl List.mem_cons_self
        · exact (ih h).imp_left (List.mem_cons_of_mem m)

omit [DecidableEq L] in
/-- A write brings in no more than a header and an option. -/
theorem mem_updateBy (h : l ∈ updateBy g p s k v lines) :
    l ∈ lines ∨ l = g.header s ∨ l = g.option k v := by
  induction lines with
  | nil => simpa [updateBy, updateSection] using h
  | cons m lines ih =>
    rw [updateBy] at h
    split at h
    · rcases List.mem_cons.mp h with rfl | h
      · exact .inl List.mem_cons_self
      · exact (mem_updateSection h).imp (List.mem_cons_of_mem m) .inr
    · rcases List.mem_cons.mp h with rfl | h
      · exact .inl List.mem_cons_self
      · exact (ih h).imp_left (List.mem_cons_of_mem m)

omit [DecidableEq L] in
theorem length_updateSection (g : Grammar L S K V) (k : K) (v : V) (lines : List L) :
    (updateSection g k v lines).length ≤ lines.length + 1 := by
  induction lines with
  | nil => simp [updateSection]
  | cons l lines ih =>
    rw [updateSection]
    split
    · simp
    · split
      · simp
      · simpa using ih

section Law

variable (hp : ∀ l, p l = true → g.isHeader l = true)

include law hp

omit [DecidableEq L] in
/-- A write below one header leaves the sections of the others alone. -/
theorem lookupBy_below (hk : valid k) (hheader : g.isHeader l = true)
    (hl : (∀ m ∈ before, p m = false) → p l = false) (v : V) (k' : K) :
    lookupBy g p k' (before ++ l :: updateSection g k v after) =
      lookupBy g p k' (before ++ l :: after) := by
  have hnew : ∀ lines, lookupBy g p k' (g.option k v :: lines) = lookupBy g p k' lines := by
    intro lines
    rw [lookupBy, if_neg]
    intro h
    have hoption := hp _ h
    rw [law.isHeader_option hk] at hoption
    cases hoption
  have hbelow : ∀ lines, lookupBy g p k' (updateSection g k v lines) =
      lookupBy g p k' lines := by
    intro lines
    induction lines with
    | nil => exact hnew []
    | cons m lines ih =>
      rw [updateSection]
      split
      · rename_i hm
        rw [hnew, lookupBy, if_neg]
        intro h
        have hoption := hp _ h
        rw [law.not_header hk hm] at hoption
        cases hoption
      · split
        · exact hnew _
        · rw [lookupBy, lookupBy, ih]
          rename_i hm
          have hpm : ¬ p m = true := fun h => hm (hp m h)
          rw [if_neg hpm, if_neg hpm]
  have hstops : ∀ before, lookupSection g k' (before ++ l :: updateSection g k v after) =
      lookupSection g k' (before ++ l :: after) := by
    intro before
    induction before with
    | nil => simp only [List.nil_append, lookupSection, hheader, if_true]
    | cons m before ih => simp only [List.cons_append, lookupSection, ih]
  induction before with
  | nil =>
    have hpl := Bool.eq_false_iff.mp (hl fun _ h => absurd h List.not_mem_nil)
    rw [List.nil_append, List.nil_append, lookupBy, lookupBy, if_neg hpl, if_neg hpl, hbelow]
  | cons m before ih =>
    rw [List.cons_append, List.cons_append, lookupBy, lookupBy, hstops]
    cases hm : p m with
    | true => rfl
    | false => rw [ih fun hbefore => hl (List.forall_mem_cons.mpr ⟨hm, hbefore⟩)]

omit [DecidableEq L] hp in
theorem lookupBy_updateBy (hk : valid k) (hbefore : ∀ m ∈ before, p m = false) (hl : p l = true)
    (after : List L) (s : S) (v : V) :
    lookupBy g p k (updateBy g p s k v (before ++ l :: after)) = some v := by
  rw [updateBy_found hbefore hl, lookupBy_found hbefore hl]
  exact lookupSection_updateSection law hk

omit [DecidableEq L] hp in
/-- The headers after a write. -/
theorem headers_updateBy (hk : valid k) (s : S) (v : V) (lines : List L) :
    (updateBy g p s k v lines).filter g.isHeader =
      lines.filter g.isHeader ++ if ∃ l ∈ lines, p l = true then [] else [g.header s] := by
  rcases first_or_none p lines with hnone | ⟨before, l, after, rfl, hbefore, hl⟩
  · have hno : ¬ ∃ l ∈ lines, p l = true := by
      rintro ⟨l, hmem, hl⟩
      exact Bool.false_ne_true ((hnone l hmem).symm.trans hl)
    rw [updateBy_none hnone, if_neg hno, List.filter_append]
    simp [law.isHeader_header, law.isHeader_option hk]
  · rw [updateBy_found hbefore hl, if_pos ⟨l, by simp, hl⟩, List.append_nil, List.filter_append,
      List.filter_append, List.filter_cons, List.filter_cons, headers_updateSection law hk]

omit [DecidableEq L] in
/-- The second of two writes takes the place of the first where its search finds what the
first one found, or the section that it added. -/
theorem updateBy_updateBy_iff (hk : valid k) :
    updateBy g p s k v' (updateBy g p s k v lines) = updateBy g p s k v' lines ↔
      (∃ l ∈ lines, p l = true) ∨ p (g.header s) = true := by
  rcases first_or_none p lines with hnone | ⟨before, l, after, rfl, hbefore, hl⟩
  · have hno : ¬ ∃ l ∈ lines, p l = true := by
      rintro ⟨l, hmem, hl⟩
      exact Bool.false_ne_true ((hnone l hmem).symm.trans hl)
    rw [updateBy_none hnone, updateBy_none hnone, or_iff_right hno]
    cases hheader : p (g.header s) with
    | true =>
      rw [updateBy_found hnone hheader]
      simp [updateSection, law.keyOf_option v hk]
    | false =>
      have hoption : p (g.option k v) = false := by
        by_contra h
        have hsection := hp _ (by simpa using h)
        rw [law.isHeader_option hk] at hsection
        cases hsection
      have hagain : ∀ l ∈ lines ++ [g.header s, g.option k v], p l = false := by
        simpa [or_imp, forall_and, hheader, hoption] using hnone
      rw [updateBy_none hagain]
      simp
  · rw [updateBy_found hbefore hl, updateBy_found hbefore hl, updateBy_found hbefore hl,
      updateSection_updateSection law hk]
    exact iff_of_true rfl (.inl ⟨l, by simp, hl⟩)

end Law

end Search

/-! A sequence of writes. -/

/-- The lines after some writes. -/
def updates (g : Grammar L S K V) (lines : List L) (writes : List (S × K × V)) : List L :=
  writes.foldl (fun lines w => update g w.1 w.2.1 w.2.2 lines) lines

/-- The value that was written to a key last, and where there is none the one that it
had before. -/
def latest [DecidableEq S] (s : S) (k : K) (value : Option V) (writes : List (S × K × V)) :
    Option V :=
  writes.foldl (fun value w => if w.1 = s ∧ w.2.1 = k then some w.2.2 else value) value

section Writes

variable {writes : List (S × K × V)}

include law in
/-- A store of lines is the map that the writes describe. -/
theorem lookup_updates [DecidableEq S] (hwrites : ∀ w ∈ writes, valid w.2.1) (hk : valid k) :
    lookup g s k (updates g lines writes) = latest s k (lookup g s k lines) writes := by
  induction writes generalizing lines with
  | nil => rfl
  | cons w writes ih =>
    obtain ⟨hw, hwrites⟩ := List.forall_mem_cons.mp hwrites
    have hwrite : lookup g s k (update g w.1 w.2.1 w.2.2 lines) =
        if w.1 = s ∧ w.2.1 = k then some w.2.2 else lookup g s k lines := by
      split
      · rename_i hsame
        obtain ⟨rfl, rfl⟩ := hsame
        exact lookup_update law hk
      · rename_i hother
        refine lookup_update_other law hw hk fun h => hother ?_
        exact ⟨(congrArg Prod.fst h).symm, (congrArg Prod.snd h).symm⟩
    rw [updates, List.foldl_cons, ← updates, ih hwrites, hwrite, latest, latest, List.foldl_cons]

/-- What every write keeps, a sequence of writes keeps. -/
theorem updates_preserves {P : List L → Prop} {Q : S × K × V → Prop}
    (keep : ∀ lines w, P lines → Q w → P (update g w.1 w.2.1 w.2.2 lines))
    (hwrites : ∀ w ∈ writes, Q w) (h : P lines) : P (updates g lines writes) := by
  induction writes generalizing lines with
  | nil => exact h
  | cons w writes ih =>
    obtain ⟨hw, hwrites⟩ := List.forall_mem_cons.mp hwrites
    exact ih hwrites (keep lines w h hw)

variable (canonical : ∀ {k l v}, g.keyOf l = some k → g.valueOf l = some v → l = g.option k v)

include canonical

omit [DecidableEq L] in
theorem updateSection_lookup (h : lookupSection g k lines = some v) :
    updateSection g k v lines = lines := by
  induction lines with
  | nil => cases h
  | cons l lines ih =>
    rw [lookupSection] at h
    rw [updateSection]
    by_cases hkey : g.keyOf l = some k
    · rw [if_pos hkey] at h ⊢
      rw [← canonical hkey h]
    · rw [if_neg hkey] at h ⊢
      by_cases hheader : g.isHeader l = true
      · rw [if_pos hheader] at h
        cases h
      · rw [if_neg hheader] at h ⊢
        rw [ih h]

/-- Where a line has no more than its key and its value, to write what is there
changes nothing. -/
theorem update_lookup (h : lookup g s k lines = some v) : update g s k v lines = lines := by
  induction lines with
  | nil => cases h
  | cons l lines ih =>
    rw [lookup] at h
    rw [update]
    by_cases hl : l = g.header s
    · rw [if_pos hl] at h ⊢
      rw [updateSection_lookup canonical h]
    · rw [if_neg hl] at h ⊢
      rw [ih h]

omit [DecidableEq L] in
theorem updateBy_lookupBy {p : L → Bool} (h : lookupBy g p k lines = some v) (s : S) :
    updateBy g p s k v lines = lines := by
  rcases first_or_none p lines with hnone | ⟨before, l, after, rfl, hbefore, hl⟩
  · cases (lookupBy_none hnone).symm.trans h
  · rw [lookupBy_found hbefore hl] at h
    rw [updateBy_found hbefore hl, updateSection_lookup canonical h]

include law in
/-- A search that finds another line writes what the search for the header writes where
both find the value already there, and only there. -/
theorem updateBy_eq_update_iff {p : L → Bool} (hp : ∀ l, p l = true → g.isHeader l = true)
    (hk : valid k) : updateBy g p s k v lines = update g s k v lines ↔
      lines.find? p = lines.find? (fun l => l = g.header s) ∨
        (lookup g s k lines = some v ∧ lookupBy g p k lines = some v) := by
  let q : L → Bool := fun l => l = g.header s
  have hq : ∀ l, q l = true → g.isHeader l = true := fun l hl =>
    of_decide_eq_true hl ▸ law.isHeader_header s
  constructor
  · intro heq
    rw [update_eq_updateBy] at heq
    rw [lookup_eq_lookupBy]
    change updateBy g p s k v lines = updateBy g q s k v lines at heq
    change lines.find? p = lines.find? q ∨ lookupBy g q k lines = some v ∧ _
    have hlength : ∀ {p' : L → Bool} {before l after}, lines = before ++ l :: after →
        (∀ m ∈ before, p' m = false) → p' l = true →
        (updateBy g p' s k v lines).length < lines.length + 2 := by
      rintro p' before l after rfl hbefore hl
      have hupdated := length_updateSection g k v after
      rw [updateBy_found hbefore hl]
      simp only [List.length_append, List.length_cons]
      omega
    rcases first_or_none p lines with hpnone | ⟨before, l, after, hlines, hbefore, hl⟩ <;>
      rcases first_or_none q lines with hqnone | ⟨before', l', after', hlines', hbefore', hl'⟩
    · left
      rw [List.find?_eq_none.mpr (by simpa using hpnone),
        List.find?_eq_none.mpr (by simpa using hqnone)]
    · have hshort := hlength hlines' hbefore' hl'
      rw [← heq, updateBy_none hpnone] at hshort
      simp at hshort
    · have hshort := hlength hlines hbefore hl
      rw [heq, updateBy_none hqnone] at hshort
      simp at hshort
    · have hfound : lines.find? p = some l := hlines ▸ find_first hbefore hl
      have hfound' : lines.find? q = some l' := hlines' ▸ find_first hbefore' hl'
      by_cases hsame : l = l'
      · exact .inl (by rw [hfound, hfound', hsame])
      · -- each write leaves what the other search finds as it was
        have hother : (∀ m ∈ before', p m = false) → p l' = false := by
          intro hfirst
          by_contra hpl
          have hagain : lines.find? p = some l' :=
            hlines' ▸ find_first hfirst (by simpa using hpl)
          exact hsame (Option.some.inj (hfound.symm.trans hagain))
        have hother' : (∀ m ∈ before, q m = false) → q l = false := by
          intro hfirst
          by_contra hql
          have hagain : lines.find? q = some l :=
            hlines ▸ find_first hfirst (by simpa using hql)
          exact hsame (Option.some.inj (hagain.symm.trans hfound'))
        right
        constructor
        · have hwritten := lookupBy_updateBy law hk hbefore' hl' after' s v
          rw [← hlines', ← heq, hlines, updateBy_found hbefore hl,
            lookupBy_below law hq hk (hp l hl) hother', ← hlines] at hwritten
          exact hwritten
        · have hwritten := lookupBy_updateBy law hk hbefore hl after s v
          rw [← hlines, heq, hlines', updateBy_found hbefore' hl',
            lookupBy_below law hp hk (hq l' hl') hother, ← hlines'] at hwritten
          exact hwritten
  · rintro (hfind | ⟨hlookup, hlookupBy⟩)
    · rw [update_eq_updateBy, updateBy_congr hfind]
    · rw [update_lookup canonical hlookup, updateBy_lookupBy canonical hlookupBy]

include law in
/-- The laws of a store for a write by another search, on the keys and on sections among
which are those of the lines. -/
theorem updateBy_lawful_iff {p : L → Bool} (hp : ∀ l, p l = true → g.isHeader l = true)
    {Q : S → Prop} (named : ∀ l ∈ lines, g.isHeader l = true → ∃ s, l = g.header s ∧ Q s)
    (hk : valid k) :
    (lookup g s k (updateBy g p s k v lines) = some v ∧
      (∀ s' k', Q s' → valid k' → (s', k') ≠ (s, k) →
        lookup g s' k' (updateBy g p s k v lines) = lookup g s' k' lines) ∧
      updateBy g p s k v' (updateBy g p s k v lines) = updateBy g p s k v' lines) ↔
      (lines.find? p = lines.find? (fun l => l = g.header s) ∨
        (lookup g s k lines = some v ∧ lookupBy g p k lines = some v)) ∧
      (g.header s ∈ lines ∨ p (g.header s) = true) := by
  rw [updateBy_updateBy_iff law hp hk]
  constructor
  · rintro ⟨written, others, again⟩
    rcases first_or_none p lines with hnone | ⟨before, l, after, hlines, hbefore, hl⟩
    · -- the section was added, so it was not there
      have hheader : p (g.header s) = true := again.resolve_left fun ⟨l, hmem, hl⟩ =>
        Bool.false_ne_true ((hnone l hmem).symm.trans hl)
      have habsent : ∀ l ∈ lines, ¬ decide (l = g.header s) = true := fun l hmem hl =>
        Bool.false_ne_true ((hnone l hmem).symm.trans (of_decide_eq_true hl ▸ hheader))
      refine ⟨.inl ?_, .inr hheader⟩
      rw [List.find?_eq_none.mpr (by simpa using hnone), List.find?_eq_none.mpr habsent]
    · have hfound : lines.find? p = some l := hlines ▸ find_first hbefore hl
      by_cases hsame : l = g.header s
      · have hq : ∀ m ∈ before, decide (m = g.header s) = false := fun m hm =>
          decide_eq_false fun h => Bool.false_ne_true ((hbefore m hm).symm.trans (h ▸ hsame ▸ hl))
        refine ⟨.inl ?_, .inl (by simp [hlines, hsame])⟩
        rw [hfound, hlines]
        exact (find_first hq (decide_eq_true hsame)).symm
      · obtain ⟨x, rfl, hQ⟩ := named l (by simp [hlines]) (hp l hl)
        have hx : x ≠ s := fun h => hsame (h ▸ rfl)
        have hq : ∀ l, decide (l = g.header s) = true → g.isHeader l = true := by
          intro l hl
          rw [of_decide_eq_true hl]
          exact law.isHeader_header s
        have hkept : lookup g s k lines = some v := by
          rw [hlines, updateBy_found hbefore hl, lookup_eq_lookupBy,
            lookupBy_below law hq hk (hp _ hl) (fun _ => decide_eq_false hsame)] at written
          rwa [hlines, lookup_eq_lookupBy]
        have hfirst : ∀ m ∈ before, decide (m = g.header x) = false := fun m hm =>
          decide_eq_false fun h => Bool.false_ne_true ((hbefore m hm).symm.trans (h ▸ hl))
        have hthere : lookup g x k lines = lookupBy g p k lines := by
          rw [hlines, lookup_eq_lookupBy, lookupBy_found hfirst (decide_eq_true rfl),
            lookupBy_found hbefore hl]
        have hother := others x k hQ hk fun h => hx (congrArg Prod.fst h)
        rw [hthere, hlines, updateBy_found hbefore hl, lookup_eq_lookupBy,
          lookupBy_found hfirst (decide_eq_true rfl), lookupSection_updateSection law hk,
          ← hlines] at hother
        refine ⟨.inr ⟨hkept, hother.symm⟩, .inl ?_⟩
        by_contra habsent
        have hnone : ∀ l ∈ lines, decide (l = g.header s) = false := fun l hmem =>
          decide_eq_false fun h => habsent (h ▸ hmem)
        rw [lookup_eq_lookupBy, lookupBy_none hnone] at hkept
        cases hkept
  · rintro ⟨place, hthere⟩
    rw [(updateBy_eq_update_iff law canonical hp hk).mpr place]
    refine ⟨lookup_update law hk, fun s' k' _ hk' hne => lookup_update_other law hk hk' hne, ?_⟩
    rcases hthere with hmem | hheader
    · left
      rcases place with hfind | ⟨-, hvalue⟩
      · have hsome : (lines.find? fun l => l = g.header s).isSome := by
          rw [List.find?_isSome]
          exact ⟨_, hmem, decide_eq_true rfl⟩
        obtain ⟨l, hl⟩ := Option.isSome_iff_exists.mp (hfind ▸ hsome)
        exact ⟨l, List.mem_of_find?_eq_some hl, List.find?_some hl⟩
      · by_contra hno
        have hnone : ∀ l ∈ lines, p l = false := fun l hmem =>
          Bool.eq_false_iff.mpr fun hl => hno ⟨l, hmem, hl⟩
        rw [lookupBy_none hnone] at hvalue
        cases hvalue
    · exact .inr hheader

end Writes

end SectionStore
