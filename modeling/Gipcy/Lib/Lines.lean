import Gipcy.Lib.CString

/-! Reading a text file line by line: what `fgets` and `istream::getline` store
when they are called until the end of the file is reached. -/
namespace Lines

open CString

def nl : UInt8 := '\n'.toUInt8

/-- A text whose lines all end in a newline. -/
def textOf (lines : List Str) : List UInt8 := lines.flatMap (· ++ [nl])

def linesFrom (read : Str) : List UInt8 → List Str
  | [] => if read = [] then [] else [read]
  | c :: rest => if c = nl then read :: linesFrom [] rest else linesFrom (read ++ [c]) rest

/-- The lines of a text, without their newlines. -/
def linesOf (text : List UInt8) : List Str := linesFrom [] text

/-- The rest of the calls of `fgets` on an array of `size`, with what the running
one has read. The call that finds the end of the file at once stores nothing. -/
def fgetsFrom (size : Nat) (read : List UInt8) : List UInt8 → List (List UInt8)
  | [] => [read]
  | c :: rest =>
    if c = nl ∨ read.length + 2 = size then (read ++ [c]) :: fgetsFrom size [] rest
    else fgetsFrom size (read ++ [c]) rest

/-- What `fgets` stores, call by call, until `feof`. -/
def fgetsAll (size : Nat) (file : List UInt8) : List (List UInt8) := fgetsFrom size [] file

/-- What a `getline` stores, and whether it fails because the line does not fit. -/
structure Getline where
  stored : List UInt8
  failed : Bool
deriving DecidableEq

def getlineFrom (size : Nat) (read : List UInt8) : List UInt8 → List Getline
  | [] => [⟨read, false⟩]
  | c :: rest =>
    if c = nl then ⟨read, false⟩ :: getlineFrom size [] rest
    else if read.length + 1 = size then [⟨read, true⟩]
    else getlineFrom size (read ++ [c]) rest

/-- What `getline` stores, call by call, until `eof()`. After a call that fails
no other one reads anything: each stores an empty line, and `eof()` stays false. -/
def getlineAll (size : Nat) (file : List UInt8) : List Getline := getlineFrom size [] file

/-- An `ifstream`: what it has still to read, and its state. -/
structure Ifstream where
  rest : List UInt8
  eof : Bool
  fail : Bool

/-- The rest of a `getline` that has read some characters. -/
def extract (size : Nat) (read : List UInt8) : List UInt8 → List UInt8 × Ifstream
  | [] => (read, ⟨[], true, read = []⟩)
  | c :: rest =>
    if c = nl then (read, ⟨rest, false, false⟩)
    else if read.length + 1 = size then (read, ⟨c :: rest, false, true⟩)
    else extract size (read ++ [c]) rest

/-- What `getline` stores, and the stream after it. A stream that is not good gives
no characters. -/
def Ifstream.getline (size : Nat) (ifs : Ifstream) : List UInt8 × Ifstream :=
  if ifs.eof ∨ ifs.fail then ([], { ifs with fail := true }) else extract size [] ifs.rest

variable {size : Nat}

@[simp] theorem textOf_nil : textOf [] = [] := rfl

@[simp] theorem textOf_cons (l : Str) (lines : List Str) :
    textOf (l :: lines) = l ++ nl :: textOf lines := by
  simp [textOf]

@[simp] theorem textOf_append (lines lines' : List Str) :
    textOf (lines ++ lines') = textOf lines ++ textOf lines' := by
  simp [textOf]

theorem linesFrom_line {l : Str} (hnl : nl ∉ l) (read rest : List UInt8) :
    linesFrom read (l ++ nl :: rest) = (read ++ l) :: linesOf rest := by
  induction l generalizing read with
  | nil => simp [linesFrom, linesOf]
  | cons c l ih =>
    obtain ⟨hc, hl⟩ := not_or.mp (List.mem_cons.not.mp hnl)
    rw [List.cons_append, linesFrom, if_neg (Ne.symm hc), ih hl]
    simp

theorem linesOf_textOf {lines : List Str} (h : ∀ l ∈ lines, nl ∉ l) :
    linesOf (textOf lines) = lines := by
  induction lines with
  | nil => rfl
  | cons l lines ih =>
    obtain ⟨hnl, hlines⟩ := List.forall_mem_cons.mp h
    rw [textOf_cons, linesOf, linesFrom_line hnl, ih hlines]
    rfl

theorem fgetsFrom_line {l : Str} (hnl : nl ∉ l) (read rest : List UInt8)
    (hsize : read.length + l.length + 2 ≤ size) :
    fgetsFrom size read (l ++ nl :: rest) = (read ++ l ++ [nl]) :: fgetsAll size rest := by
  induction l generalizing read with
  | nil => simp [fgetsFrom, fgetsAll]
  | cons c l ih =>
    obtain ⟨hc, hl⟩ := not_or.mp (List.mem_cons.not.mp hnl)
    rw [List.length_cons] at hsize
    have hgo : ¬ (c = nl ∨ read.length + 2 = size) := by
      rintro (h | h)
      · exact hc h.symm
      · omega
    rw [List.cons_append, fgetsFrom, if_neg hgo, ih hl (read ++ [c]) (by simp; omega)]
    simp

/-- The lines that fit come one by one, and then an empty read. -/
theorem fgetsAll_textOf {lines : List Str} (h : ∀ l ∈ lines, nl ∉ l ∧ l.length + 2 ≤ size) :
    fgetsAll size (textOf lines) = lines.map (· ++ [nl]) ++ [[]] := by
  induction lines with
  | nil => rfl
  | cons l lines ih =>
    obtain ⟨⟨hnl, hsize⟩, hlines⟩ := List.forall_mem_cons.mp h
    rw [textOf_cons, fgetsAll, fgetsFrom_line hnl [] _ (by simpa using hsize), ih hlines]
    simp

theorem flatten_fgetsFrom (size : Nat) (read text : List UInt8) :
    (fgetsFrom size read text).flatten = read ++ text := by
  induction text generalizing read with
  | nil => simp [fgetsFrom]
  | cons c rest ih =>
    rw [fgetsFrom]
    split
    · rw [List.flatten_cons, ih]
      simp
    · rw [ih]
      simp

/-- The reads are the text, in pieces. -/
theorem flatten_fgetsAll (size : Nat) (text : List UInt8) : (fgetsAll size text).flatten = text :=
  flatten_fgetsFrom size [] text

theorem length_lt_of_mem_fgetsFrom {read text r : List UInt8} (hread : read.length + 1 < size)
    (hr : r ∈ fgetsFrom size read text) : r.length < size := by
  induction text generalizing read with
  | nil =>
    obtain rfl := List.mem_singleton.mp hr
    omega
  | cons c rest ih =>
    rw [fgetsFrom] at hr
    split at hr
    · rcases List.mem_cons.mp hr with rfl | hr
      · rw [List.length_append, List.length_singleton]
        omega
      · exact ih (by rw [List.length_nil]; omega) hr
    · refine ih ?_ hr
      rw [List.length_append, List.length_singleton]
      omega

theorem ne_nil_of_mem_fgetsFrom {read text r : List UInt8}
    (hr : r ∈ (fgetsFrom size read text).dropLast) : r ≠ [] := by
  induction text generalizing read with
  | nil => cases hr
  | cons c rest ih =>
    rw [fgetsFrom] at hr
    split at hr
    · cases hreads : fgetsFrom size [] rest with
      | nil =>
        rw [hreads] at hr
        cases hr
      | cons s reads =>
        rw [hreads, List.dropLast_cons_of_ne_nil (List.cons_ne_nil s reads), ← hreads] at hr
        rcases List.mem_cons.mp hr with rfl | hr
        · simp
        · exact ih hr
    · exact ih hr

/-- Only the last read may be empty. -/
theorem ne_nil_of_mem_fgetsAll {text r : List UInt8} (hr : r ∈ (fgetsAll size text).dropLast) :
    r ≠ [] := ne_nil_of_mem_fgetsFrom hr

theorem getlineFrom_line {l : Str} (hnl : nl ∉ l) (read rest : List UInt8)
    (hsize : read.length + l.length < size) :
    getlineFrom size read (l ++ nl :: rest) = ⟨read ++ l, false⟩ :: getlineAll size rest := by
  induction l generalizing read with
  | nil => simp [getlineFrom, getlineAll]
  | cons c l ih =>
    obtain ⟨hc, hl⟩ := not_or.mp (List.mem_cons.not.mp hnl)
    rw [List.length_cons] at hsize
    rw [List.cons_append, getlineFrom, if_neg (Ne.symm hc), if_neg (by omega),
      ih hl (read ++ [c]) (by simp; omega)]
    simp

theorem getlineAll_textOf {lines : List Str} (h : ∀ l ∈ lines, nl ∉ l ∧ l.length < size) :
    getlineAll size (textOf lines) = (lines ++ [[]]).map (⟨·, false⟩) := by
  induction lines with
  | nil => rfl
  | cons l lines ih =>
    obtain ⟨⟨hnl, hsize⟩, hlines⟩ := List.forall_mem_cons.mp h
    rw [textOf_cons, getlineAll, getlineFrom_line hnl [] _ (by simpa using hsize), ih hlines]
    simp

theorem modifyHead_nil_append (lines : List Str) : lines.modifyHead ([] ++ ·) = lines := by
  cases lines <;> rfl

/-- The calls of `getline` from the first on. -/
theorem getlineFrom_eq (size : Nat) (read text : List UInt8) :
    getlineFrom size read text =
      let (line, ifs) := extract size read text
      ⟨line, !ifs.eof && ifs.fail⟩ ::
        if ifs.eof || ifs.fail then [] else getlineAll size ifs.rest := by
  induction text generalizing read with
  | nil => rfl
  | cons c rest ih =>
    rw [getlineFrom, extract]
    split
    · rfl
    · split
      · rfl
      · exact ih (read ++ [c])

theorem length_extract_le (size : Nat) (read text : List UInt8) :
    (extract size read text).2.rest.length ≤ text.length := by
  induction text generalizing read with
  | nil => exact le_rfl
  | cons c rest ih =>
    rw [extract]
    split
    · simp
    · split
      · exact le_rfl
      · exact (ih _).trans (by simp)

/-- A line that is read to its end takes at least the newline from the stream. -/
theorem length_extract_lt {read text : List UInt8}
    (heof : (extract size read text).2.eof = false)
    (hfail : (extract size read text).2.fail = false) :
    (extract size read text).2.rest.length < text.length := by
  cases text with
  | nil => cases heof
  | cons c rest =>
    rw [extract] at heof hfail ⊢
    split
    · simp
    · rename_i hc
      rw [if_neg hc] at heof hfail
      split
      · rename_i hsize
        rw [if_pos hsize] at hfail
        cases hfail
      · exact (length_extract_le _ _ _).trans_lt (by simp)

theorem modifyHead_cons_append (read : Str) (c : UInt8) (lines : List Str) :
    (lines.modifyHead (List.cons c)).modifyHead (read ++ ·) =
      lines.modifyHead ((read ++ [c]) ++ ·) := by
  simp [List.modifyHead_modifyHead, Function.comp_def]

theorem mem_of_mem_splitOn {text l : List UInt8} {c : UInt8} (hl : l ∈ text.splitOn nl)
    (hc : c ∈ l) : c ∈ text := by
  have htext : [nl].intercalate (text.splitOn nl) = text := List.intercalate_splitOn nl
  rw [← htext, List.intercalate]
  refine List.mem_flatten_of_mem ?_ hc
  generalize text.splitOn nl = lines at hl
  induction lines with
  | nil => cases hl
  | cons first lines ih =>
    cases lines with
    | nil => simpa using hl
    | cons second lines =>
      rw [List.intersperse_cons_cons]
      rcases List.mem_cons.mp hl with rfl | hl
      · exact List.mem_cons_self
      · exact List.mem_cons_of_mem _ (List.mem_cons_of_mem _ (ih hl))

/-- A text of lines that fit is read line by line, to the end of the last one. -/
theorem getlineFrom_splitOn {text read : List UInt8}
    (h : ∀ l ∈ (text.splitOn nl).modifyHead (read ++ ·), l.length < size) :
    getlineFrom size read text =
      ((text.splitOn nl).modifyHead (read ++ ·)).map (⟨·, false⟩) := by
  induction text generalizing read with
  | nil => simp [getlineFrom]
  | cons c text ih =>
    rw [List.splitOn_cons_eq_if_modifyHead] at h ⊢
    rw [getlineFrom]
    by_cases hc : c = nl
    · subst hc
      have hread := modifyHead_nil_append (text.splitOn nl)
      simp only [beq_self_eq_true, if_true, List.modifyHead_cons, List.append_nil] at h ⊢
      rw [ih fun l hl => h l (List.mem_cons_of_mem _ (hread ▸ hl)), hread, List.map_cons]
    · have hmodify := modifyHead_cons_append read c (text.splitOn nl)
      have hc' : (c == nl) = false := by simpa using hc
      rw [hc', if_neg Bool.false_ne_true, hmodify] at h
      rw [hc', if_neg Bool.false_ne_true, hmodify, if_neg hc]
      have hfits : read.length + 1 ≠ size := by
        obtain ⟨l, lines, hlines⟩ := List.exists_cons_of_ne_nil (List.splitOn_ne_nil nl text)
        have := h (read ++ [c] ++ l) (by simp [hlines])
        simp only [List.length_append, List.length_singleton] at this
        omega
      rw [if_neg hfits, ih h]

theorem getlineAll_splitOn {text : List UInt8} (h : ∀ l ∈ text.splitOn nl, l.length < size) :
    getlineAll size text = (text.splitOn nl).map (⟨·, false⟩) := by
  rw [← modifyHead_nil_append (text.splitOn nl)] at h ⊢
  exact getlineFrom_splitOn h

/-- A text with a line that does not fit is read to the front of that line. -/
theorem getlineFrom_long {text read long : List UInt8} {ahead rest : List Str}
    (h : (text.splitOn nl).modifyHead (read ++ ·) = ahead ++ long :: rest)
    (hahead : ∀ l ∈ ahead, l.length < size) (hlong : size ≤ long.length)
    (hread : read.length < size) :
    getlineFrom size read text = ahead.map (⟨·, false⟩) ++ [⟨long.take (size - 1), true⟩] := by
  induction text generalizing read ahead with
  | nil =>
    rw [List.splitOn_nil, List.modifyHead_cons, List.append_nil] at h
    obtain ⟨-, hlast⟩ | ⟨-, hlast⟩ := List.singleton_eq_append_iff.mp h
    · obtain ⟨rfl, -⟩ := List.cons.inj hlast
      omega
    · cases hlast
  | cons c text ih =>
    rw [List.splitOn_cons_eq_if_modifyHead] at h
    rw [getlineFrom]
    by_cases hc : c = nl
    · subst hc
      simp only [beq_self_eq_true, if_true, List.modifyHead_cons, List.append_nil] at h ⊢
      cases ahead with
      | nil =>
        obtain ⟨rfl, -⟩ := List.cons.inj h
        omega
      | cons l ahead =>
        obtain ⟨rfl, hrest⟩ := List.cons.inj h
        obtain ⟨-, hahead'⟩ := List.forall_mem_cons.mp hahead
        rw [← modifyHead_nil_append (text.splitOn nl)] at hrest
        rw [ih hrest hahead' (show ([] : List UInt8).length < size by simp; omega)]
        rfl
    · have hmodify := modifyHead_cons_append read c (text.splitOn nl)
      have hc' : (c == nl) = false := by simpa using hc
      rw [hc', if_neg Bool.false_ne_true, hmodify] at h
      rw [if_neg hc]
      by_cases hfull : read.length + 1 = size
      · -- The line that does not fit is the one that is being read.
        obtain ⟨l, lines, hlines⟩ := List.exists_cons_of_ne_nil (List.splitOn_ne_nil nl text)
        rw [hlines, List.modifyHead_cons] at h
        cases ahead with
        | nil =>
          obtain ⟨rfl, -⟩ := List.cons.inj h
          have hread' : size - 1 = read.length := by omega
          rw [if_pos hfull, hread', List.append_assoc, List.take_left]
          rfl
        | cons m ahead =>
          obtain ⟨rfl, -⟩ := List.cons.inj h
          have hm := hahead _ List.mem_cons_self
          simp only [List.length_append, List.length_singleton] at hm
          omega
      · rw [if_neg hfull, ih h hahead (by simp; omega)]

theorem getlineAll_long {text long : List UInt8} {ahead rest : List Str}
    (h : text.splitOn nl = ahead ++ long :: rest) (hahead : ∀ l ∈ ahead, l.length < size)
    (hlong : size ≤ long.length) (hsize : 0 < size) :
    getlineAll size text = ahead.map (⟨·, false⟩) ++ [⟨long.take (size - 1), true⟩] := by
  rw [← modifyHead_nil_append (text.splitOn nl)] at h
  exact getlineFrom_long h hahead hlong hsize

end Lines
