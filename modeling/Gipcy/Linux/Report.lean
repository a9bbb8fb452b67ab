import Gipcy.Lib.Lines
import Gipcy.Linux.Itoa
import Gipcy.Linux.Types
import Mathlib.Data.List.Basic

/-! The file of the driver under `/proc`: what `ipcdrv_proc_show` prints of the four
registries, and what can be read off it. -/
namespace Gipcy.Linux

open CString Lines Itoa

/-- What is printed of an entry; `unlocks` are the `unlock_count` of the entries, which
nothing else reads. Shared memory has the owner count alone. -/
structure Shown where
  name : CStr 128
  counts : List Int
deriving DecidableEq

def Kind.title : Kind → Str
  | .sem => chars ['S', 'e', 'm', 'a', 'p', 'h', 'o', 'r', 'e', 's']
  | .mutex => chars ['M', 'u', 't', 'e', 'x', 'e', 's']
  | .event => chars ['E', 'v', 'e', 'n', 't', 's']
  | .shm => chars ['S', 'h', 'a', 'r', 'e', 'd', ' ', 'm', 'e', 'm', 'o', 'r', 'y']

def Kind.total : Kind → Str
  | .sem => chars ['T', 'o', 't', 'a', 'l', ' ', 's', 'e', 'm', 'a', 'p', 'h', 'o', 'r', 'e', 's',
    ':', ' ']
  | .mutex => chars ['T', 'o', 't', 'a', 'l', ' ', 'm', 'u', 't', 'e', 'x', 'e', 's', ':', ' ']
  | .event => chars ['T', 'o', 't', 'a', 'l', ' ', 'e', 'v', 'e', 'n', 't', 's', ':', ' ']
  | .shm => chars ['T', 'o', 't', 'a', 'l', ' ', 's', 'h', 'a', 'r', 'e', 'd', ' ', 'm', 'e', 'm',
    'o', 'r', 'i', 'e', 's', ':', ' ']

/-- The texts before the counts of an entry. -/
def Kind.labels : Kind → List Str
  | .shm => [chars [' ', '(', 'u', 's', 'a', 'g', 'e', ' ']]
  | _ => [chars [' ', '(', 'l', 'o', 'c', 'k', ' '],
    chars [',', ' ', 'u', 'n', 'l', 'o', 'c', 'k', ' '],
    chars [',', ' ', 'u', 's', 'a', 'g', 'e', ' ']]

def shown (k : Kind) (drv : Driver) (unlocks : Ptr → Int) (p : Ptr) : Shown where
  name := (drv.mem p).name
  counts := match k with
    | .shm => [(drv.mem p).ownerCount]
    | _ => [(drv.mem p).lockCount, unlocks p, (drv.mem p).ownerCount]

def countTexts (labels : List Str) (counts : List Int) : Str :=
  (List.zipWith (fun label count => label ++ numeral 10 count) labels counts).flatten

/-- The line of an entry, without its newline. -/
def entryLine (k : Kind) (i : Nat) (e : Shown) : Str :=
  numeral 10 i ++ chars [':', ' '] ++ e.name.chars ++
    countTexts k.labels e.counts ++ chars [')']

/-- `show_sem_info`, `show_mutex_info`, `show_event_info` and `show_shm_info`. -/
def showInfo (k : Kind) (drv : Driver) (unlocks : Ptr → Int) : List Str :=
  k.title :: ((drv.mList k).map (shown k drv unlocks)).mapIdx (entryLine k) ++
    [k.total ++ numeral 10 (drv.mList k).length]

/-- `ipcdrv_proc_show`. -/
def ipcdrvProcShow (drv : Driver) (unlocks : Ptr → Int) : List UInt8 :=
  textOf (showInfo .shm drv unlocks ++ showInfo .sem drv unlocks ++ showInfo .mutex drv unlocks ++
    showInfo .event drv unlocks)

/-! The line of an entry is read back from its end, and the report section by section. -/

section Lines

/-- The first element without `p` splits a list in one way. -/
theorem append_cons_inj {α : Type} {p : α → Bool} {xs xs' ys ys' : List α} {a a' : α}
    (hxs : ∀ x ∈ xs, p x) (hxs' : ∀ x ∈ xs', p x) (ha : ¬ p a) (ha' : ¬ p a')
    (heq : xs ++ a :: ys = xs' ++ a' :: ys') : xs = xs' ∧ a = a' ∧ ys = ys' := by
  have htake := congrArg (List.takeWhile p) heq
  have hdrop := congrArg (List.dropWhile p) heq
  rw [List.takeWhile_append_of_pos hxs, List.takeWhile_append_of_pos hxs',
    List.takeWhile_cons_of_neg ha, List.takeWhile_cons_of_neg ha', List.append_nil,
    List.append_nil] at htake
  rw [List.dropWhile_append_of_pos hxs, List.dropWhile_append_of_pos hxs',
    List.dropWhile_cons_of_neg ha, List.dropWhile_cons_of_neg ha'] at hdrop
  exact ⟨htake, List.cons.inj hdrop⟩

theorem readNumeral_numeral (n : Int) : readNumeral 10 (numeral 10 n) = n := by
  have hread := readDigits_map (b := 10) (by decide) (by decide) n.natAbs
  unfold numeral readNumeral
  by_cases hneg : n < 0
  · rw [if_pos hneg, List.singleton_append, if_pos List.head?_cons, List.tail_cons, hread]
    omega
  · have hhead : ((digitsOf 10 n.natAbs).map digitChar).reverse.head? ≠ some '-'.toUInt8 := by
      intro hhead
      exact forall_mem_digits (p := (· ≠ '-'.toUInt8)) digitChar_ne_minus (by decide) (by decide)
        n.natAbs _ (List.mem_of_head? hhead) rfl
    rw [if_neg hneg, List.nil_append, if_neg hhead, hread]
    omega

theorem numeral_inj {m n : Int} (h : numeral 10 m = numeral 10 n) : m = n := by
  rw [← readNumeral_numeral m, h, readNumeral_numeral]

/-- What the digits and the minus sign have, the characters of a numeral have. -/
theorem forall_mem_numeral_of {p : UInt8 → Prop} (hminus : p '-'.toUInt8)
    (hp : ∀ d : Fin 36, p (digitChar d)) (n : Int) : ∀ c ∈ numeral 10 n, p c := by
  intro c hc
  rcases List.mem_append.mp hc with hc | hc
  · split at hc
    · rw [List.mem_singleton.mp hc]
      exact hminus
    · cases hc
  · exact forall_mem_digits hp (by decide) (by decide) _ c hc

theorem nl_notMem_numeral (n : Int) : nl ∉ numeral 10 n :=
  fun h => forall_mem_numeral_of (p := (· ≠ nl)) (by decide) (by decide) n _ h rfl

/-- A count at the end stands behind the last blank. -/
theorem count_inj {s s' : Str} {m n : Int}
    (heq : s ++ ' '.toUInt8 :: numeral 10 m = s' ++ ' '.toUInt8 :: numeral 10 n) :
    s = s' ∧ m = n := by
  have hblank : ∀ n, ∀ c ∈ (numeral 10 n).reverse, (c != ' '.toUInt8) = true := by
    intro n c hc
    exact forall_mem_numeral_of (p := fun c => (c != ' '.toUInt8) = true) (by decide) (by decide)
      n c (List.mem_reverse.mp hc)
  have hrev : (numeral 10 m).reverse ++ ' '.toUInt8 :: s.reverse =
      (numeral 10 n).reverse ++ ' '.toUInt8 :: s'.reverse := by
    simpa using congrArg List.reverse heq
  obtain ⟨hcount, -, hs⟩ := append_cons_inj (hblank m) (hblank n) (by decide) (by decide) hrev
  exact ⟨List.reverse_injective hs, numeral_inj (List.reverse_injective hcount)⟩

/-- Counts under labels that end in a blank are read back one by one. -/
theorem countTexts_inj {labels : List Str} (hlabels : ∀ l ∈ labels, ∃ t, l = t ++ [' '.toUInt8])
    {counts counts' : List Int} (hlength : counts.length = labels.length)
    (hlength' : counts'.length = labels.length) {s s' : Str}
    (heq : s ++ countTexts labels counts = s' ++ countTexts labels counts') :
    s = s' ∧ counts = counts' := by
  induction labels using List.reverseRecOn generalizing counts counts' with
  | nil =>
    rw [List.eq_nil_of_length_eq_zero hlength, List.eq_nil_of_length_eq_zero hlength'] at heq ⊢
    exact ⟨List.append_cancel_right heq, rfl⟩
  | append_singleton labels label ih =>
    obtain ⟨t, ht⟩ := hlabels label (by simp)
    have hsplit : ∀ {cs : List Int}, cs.length = (labels ++ [label]).length →
        ∃ init last, cs = init ++ [last] ∧ init.length = labels.length := by
      intro cs hcs
      rcases List.eq_nil_or_concat cs with rfl | ⟨init, last, rfl⟩
      · simp at hcs
      · exact ⟨init, last, List.concat_eq_append, by simpa using hcs⟩
    obtain ⟨init, last, rfl, hinit⟩ := hsplit hlength
    obtain ⟨init', last', rfl, hinit'⟩ := hsplit hlength'
    rw [countTexts, countTexts, List.zipWith_append hinit.symm, List.zipWith_append hinit'.symm,
      ht] at heq
    have hpeel : (s ++ countTexts labels init ++ t) ++ ' '.toUInt8 :: numeral 10 last =
        (s' ++ countTexts labels init' ++ t) ++ ' '.toUInt8 :: numeral 10 last' := by
      simpa [countTexts] using heq
    obtain ⟨hrest, rfl⟩ := count_inj hpeel
    obtain ⟨hs, rfl⟩ := ih (fun l hl => hlabels l (by simp [hl])) hinit hinit'
      (List.append_cancel_right hrest)
    exact ⟨hs, rfl⟩

end Lines

section Report

variable {drv drv' : Driver} {unlocks unlocks' : Ptr → Int} {k : Kind}

theorem length_counts (p : Ptr) : (shown k drv unlocks p).counts.length = k.labels.length := by
  cases k <;> rfl

theorem labels_end (k : Kind) : ∀ l ∈ k.labels, ∃ t, l = t ++ [' '.toUInt8] := by
  intro l hl
  refine ⟨l.dropLast, ?_⟩
  revert l
  cases k <;> decide

theorem entryLine_inj {i : Nat} {e e' : Shown} (hlength : e.counts.length = k.labels.length)
    (hlength' : e'.counts.length = k.labels.length) (h : entryLine k i e = entryLine k i e') :
    e = e' := by
  obtain ⟨hname, hcounts⟩ := countTexts_inj (labels_end k) hlength hlength'
    (List.append_cancel_right h)
  have hchars := List.append_cancel_left hname
  obtain ⟨⟨chars, _, _⟩, counts⟩ := e
  obtain ⟨⟨chars', _, _⟩, counts'⟩ := e'
  obtain rfl : chars = chars' := hchars
  obtain rfl : counts = counts' := hcounts
  rfl

theorem entryLines_inj {es es' : List Shown} (hlength : ∀ e ∈ es, e.counts.length = k.labels.length)
    (hlength' : ∀ e ∈ es', e.counts.length = k.labels.length)
    (h : es.mapIdx (entryLine k) = es'.mapIdx (entryLine k)) : es = es' := by
  have hlen : es.length = es'.length := by simpa using congrArg List.length h
  refine List.ext_getElem hlen fun i hi hi' => ?_
  have hline := congrArg (·[i]?) h
  simp only [List.getElem?_mapIdx, List.getElem?_eq_getElem hi, List.getElem?_eq_getElem hi',
    Option.map_some, Option.some.injEq] at hline
  exact entryLine_inj (hlength _ (List.getElem_mem hi)) (hlength' _ (List.getElem_mem hi')) hline

/-- The line of an entry begins with its number, the last line of a section with a letter. -/
def isEntry (l : Str) : Bool := l.head? != some 'T'.toUInt8

theorem isEntry_entryLine (i : Nat) (e : Shown) : isEntry (entryLine k i e) = true := by
  have hletter := forall_mem_numeral_of (p := (· ≠ 'T'.toUInt8)) (by decide) (by decide) i
  unfold isEntry entryLine
  cases hnumeral : numeral 10 i with
  | nil => rfl
  | cons c t =>
    rw [hnumeral] at hletter
    simpa using hletter c (by simp)

theorem isEntry_total (n : Int) : ¬ isEntry (k.total ++ numeral 10 n) = true := by
  cases k <;> exact Bool.false_ne_true

/-- A section ends where its total stands, so what follows it is told from it. -/
theorem showInfo_inj {rest rest' : List Str}
    (h : showInfo k drv unlocks ++ rest = showInfo k drv' unlocks' ++ rest') :
    (drv.mList k).map (shown k drv unlocks) = (drv'.mList k).map (shown k drv' unlocks') ∧
      rest = rest' := by
  have hentries : ∀ es : List Shown, ∀ l ∈ es.mapIdx (entryLine k), isEntry l = true := by
    intro es l hl
    obtain ⟨i, hi, rfl⟩ := List.mem_mapIdx.mp hl
    exact isEntry_entryLine i _
  unfold showInfo at h
  simp only [List.cons_append, List.append_assoc, List.nil_append, List.cons.injEq, true_and] at h
  obtain ⟨hlines, -, hrest⟩ := append_cons_inj (hentries _) (hentries _) (isEntry_total _)
    (isEntry_total _) h
  refine ⟨entryLines_inj ?_ ?_ hlines, hrest⟩
  · exact List.forall_mem_map.mpr fun p _ => length_counts p
  · exact List.forall_mem_map.mpr fun p _ => length_counts p

theorem nl_notMem_countTexts {labels : List Str} (h : ∀ l ∈ labels, nl ∉ l) (counts : List Int) :
    nl ∉ countTexts labels counts := by
  induction labels generalizing counts with
  | nil => simp [countTexts]
  | cons label labels ih =>
    cases counts with
    | nil => simp [countTexts]
    | cons count counts =>
      have hrest := ih (fun l hl => h l (List.mem_cons_of_mem _ hl)) counts
      have hlabel := h label List.mem_cons_self
      intro hmem
      rcases List.mem_append.mp hmem with hmem | hmem
      · rcases List.mem_append.mp hmem with hmem | hmem
        · exact hlabel hmem
        · exact nl_notMem_numeral count hmem
      · exact hrest hmem

theorem nl_notMem_entryLine {i : Nat} {e : Shown} (h : nl ∉ e.name.chars) :
    nl ∉ entryLine k i e := by
  have hlabels : ∀ l ∈ k.labels, nl ∉ l := by
    cases k <;> decide
  have hcolon : nl ∉ chars [':', ' '] := by decide
  have hclose : nl ∉ chars [')'] := by decide
  unfold entryLine
  simp only [List.mem_append, not_or]
  exact ⟨⟨⟨⟨nl_notMem_numeral i, hcolon⟩, h⟩, nl_notMem_countTexts hlabels _⟩, hclose⟩

/-- A name without a newline keeps its entry on one line. -/
theorem nl_notMem_showInfo (h : ∀ p ∈ drv.mList k, nl ∉ (drv.mem p).name.chars) :
    ∀ l ∈ showInfo k drv unlocks, nl ∉ l := by
  intro l hl
  have htitle : nl ∉ k.title := by cases k <;> decide
  have htotal : nl ∉ k.total := by cases k <;> decide
  simp only [showInfo, List.cons_append, List.mem_cons, List.mem_append, List.not_mem_nil,
    or_false] at hl
  rcases hl with rfl | hl | rfl
  · exact htitle
  · obtain ⟨i, hi, rfl⟩ := List.mem_mapIdx.mp hl
    obtain ⟨p, hp, hshown⟩ := List.mem_map.mp (List.getElem_mem hi)
    rw [← hshown]
    exact nl_notMem_entryLine (h p hp)
  · intro hmem
    rcases List.mem_append.mp hmem with hmem | hmem
    · exact htotal hmem
    · exact nl_notMem_numeral _ hmem

theorem textOf_inj {lines lines' : List Str} (h : ∀ l ∈ lines, nl ∉ l)
    (h' : ∀ l ∈ lines', nl ∉ l) (heq : textOf lines = textOf lines') : lines = lines' := by
  rw [← linesOf_textOf h, heq, linesOf_textOf h']

end Report

section Claims

variable {drv drv' : Driver} {unlocks unlocks' : Ptr → Int}

/-- The report tells the registries of two states apart: every entry in its place, with its
name and its counts. -/
theorem report_determines (hnames : ∀ k, ∀ p ∈ drv.mList k, nl ∉ (drv.mem p).name.chars)
    (hnames' : ∀ k, ∀ p ∈ drv'.mList k, nl ∉ (drv'.mem p).name.chars) :
    ipcdrvProcShow drv unlocks = ipcdrvProcShow drv' unlocks' ↔
      ∀ k, (drv.mList k).map (shown k drv unlocks) =
        (drv'.mList k).map (shown k drv' unlocks') := by
  constructor
  · intro h
    have hlines := textOf_inj ?_ ?_ h
    · simp only [List.append_assoc] at hlines
      obtain ⟨hshm, hlines⟩ := showInfo_inj hlines
      obtain ⟨hsem, hlines⟩ := showInfo_inj hlines
      obtain ⟨hmutex, hlines⟩ := showInfo_inj hlines
      rw [← List.append_nil (showInfo .event drv unlocks),
        ← List.append_nil (showInfo .event drv' unlocks')] at hlines
      obtain ⟨hevent, -⟩ := showInfo_inj hlines
      intro k
      cases k with
      | sem => exact hsem
      | mutex => exact hmutex
      | event => exact hevent
      | shm => exact hshm
    · simp only [List.forall_mem_append]
      exact ⟨⟨⟨nl_notMem_showInfo (hnames _), nl_notMem_showInfo (hnames _)⟩,
        nl_notMem_showInfo (hnames _)⟩, nl_notMem_showInfo (hnames _)⟩
    · simp only [List.forall_mem_append]
      exact ⟨⟨⟨nl_notMem_showInfo (hnames' _), nl_notMem_showInfo (hnames' _)⟩,
        nl_notMem_showInfo (hnames' _)⟩, nl_notMem_showInfo (hnames' _)⟩
  · intro h
    have hinfo : ∀ k, showInfo k drv unlocks = showInfo k drv' unlocks' := by
      intro k
      have hlength : (drv.mList k).length = (drv'.mList k).length := by
        simpa using congrArg List.length (h k)
      rw [showInfo, showInfo, h k, hlength]
    rw [ipcdrvProcShow, ipcdrvProcShow, hinfo, hinfo, hinfo, hinfo]

/-- One semaphore, at `p`. -/
def oneSemaphore (p : Ptr) (name : CStr 128) : Driver where
  mem := fun _ => { Entry.zero with name, ownerCount := 1 }
  mList := Function.update (fun _ => []) .sem [p]
  mUsage := 1

/-- The address of an entry is not in the report, and its name is. -/
theorem report_determines_one :
    ipcdrvProcShow (oneSemaphore 1 .x) 0 = ipcdrvProcShow (oneSemaphore 2 .x) 0 ∧
      ipcdrvProcShow (oneSemaphore 1 .x) 0 ≠ ipcdrvProcShow (oneSemaphore 1 .y) 0 := by
  have hnames : ∀ p name, nl ∉ name.chars →
      ∀ k, ∀ q ∈ (oneSemaphore p name).mList k, nl ∉ ((oneSemaphore p name).mem q).name.chars :=
    fun _ _ h _ _ _ => h
  have hx : nl ∉ CStr.x.chars := by decide
  have hy : nl ∉ CStr.y.chars := by decide
  constructor
  · rw [report_determines (hnames 1 _ hx) (hnames 2 _ hx)]
    intro k
    cases k <;> rfl
  · rw [Ne, report_determines (hnames 1 _ hx) (hnames 1 _ hy)]
    intro h
    exact absurd (h .sem) (by decide)

end Claims

end Gipcy.Linux
