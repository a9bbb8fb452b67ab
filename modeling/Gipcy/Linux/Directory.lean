import Gipcy.Lib.CString
import Gipcy.Lib.Search

/-! `IPC_OpenDir`, `IPC_FindFile` and `IPC_FindFiles` of `diripc.cpp`. `fnmatch` is
a parameter, and a directory is what `readdir` delivers of it. -/
namespace Gipcy.Linux.Directory

open CString

def DT_DIR : UInt8 := 4
def DT_LNK : UInt8 := 10

structure Dirent where
  d_type : UInt8
  d_name : Str
  /-- `d_name` is an array of 256. -/
  fits : d_name.length < 256

/-- `pDir` is what `readdir` has still to deliver. -/
structure IpcDir where
  sFind : Str
  pDir : List Dirent

/-- Why a call does not return. -/
inductive Stop where
  | outOfBounds
  | nullPointer
deriving DecidableEq

/-- `IPC_OpenDir`. `entries` is `none` if the directory cannot be opened, and
`allocated` is whether `allocate_ipc_object` gives an object. -/
def openDir (sNameFilter : Str) (entries : Option (List Dirent)) (allocated : Bool) :
    Except Stop (Option IpcDir) :=
  match entries with
  | none => .ok none
  | some entries =>
    -- `sFind` is an array of 256.
    if 256 ≤ sNameFilter.length then .error .outOfBounds
    else if !allocated then .error .nullPointer
    else .ok (some ⟨sNameFilter, entries⟩)

/-- The loop of `IPC_FindFile`. -/
def findEntry (fnmatch : Str → Str → Int) (sFind : Str) : List Dirent → Option Dirent × List Dirent
  | [] => (none, [])
  | entry :: pDir =>
    if entry.d_type = DT_DIR ∨ entry.d_type = DT_LNK then findEntry fnmatch sFind pDir
    else if fnmatch sFind entry.d_name ≠ 0 then findEntry fnmatch sFind pDir
    else (some entry, pDir)

/-- `IPC_FindFile`: what it returns, and what it copies to `sFindFile`. -/
def findFile (fnmatch : Str → Str → Int) (h : IpcDir) : (Int × Option Str) × IpcDir :=
  match findEntry fnmatch h.sFind h.pDir with
  | (none, pDir) => ((-1, none), { h with pDir })
  | (some entry, pDir) => ((0, some entry.d_name), { h with pDir })

/-- A file matches the filter, and is neither a directory nor a link. -/
def wanted (fnmatch : Str → Str → Int) (sFind : Str) (entry : Dirent) : Bool :=
  ¬ (entry.d_type = DT_DIR ∨ entry.d_type = DT_LNK) ∧ fnmatch sFind entry.d_name = 0

section Search

variable {fnmatch : Str → Str → Int} {sFind : Str} {pDir : List Dirent} {h : IpcDir}

theorem findEntry_eq (fnmatch : Str → Str → Int) (sFind : Str) (pDir : List Dirent) :
    findEntry fnmatch sFind pDir = Search.next (wanted fnmatch sFind) pDir := by
  induction pDir with
  | nil => rfl
  | cons entry pDir ih =>
    rw [findEntry, Search.next, ih]
    by_cases hfile : entry.d_type = DT_DIR ∨ entry.d_type = DT_LNK
    · simp [wanted, hfile]
    · by_cases hmatch : fnmatch sFind entry.d_name = 0
      · simp [wanted, hfile, hmatch]
      · simp [wanted, hfile, hmatch]

theorem findFile_eq (fnmatch : Str → Str → Int) (h : IpcDir) :
    findFile fnmatch h =
      (match (Search.next (wanted fnmatch h.sFind) h.pDir).1 with
        | none => (-1, none)
        | some entry => (0, some entry.d_name),
        { h with pDir := (Search.next (wanted fnmatch h.sFind) h.pDir).2 }) := by
  unfold findFile
  rw [findEntry_eq]
  cases Search.next (wanted fnmatch h.sFind) h.pDir with
  | mk entry pDir => cases entry <;> rfl

theorem length_findFile_lt (hfound : (findFile fnmatch h).1.1 = 0) :
    (findFile fnmatch h).2.pDir.length < h.pDir.length := by
  rw [findFile_eq] at hfound ⊢
  cases hnext : (Search.next (wanted fnmatch h.sFind) h.pDir).1 with
  | none =>
    rw [hnext] at hfound
    cases hfound
  | some entry => exact Search.length_next_lt hnext

end Search

/-- The loop of `IPC_FindFiles` from `i` on: the strings that it copies to
`asEntries`, each with its index, and `i` after it. -/
def findAll (fnmatch : Str → Str → Int) (i : Nat) (h : IpcDir) : List (Nat × Str) × Nat :=
  if _found : (findFile fnmatch h).1.1 = 0 then
    let sFindFile := (findFile fnmatch h).1.2.getD []
    let (stores, count) := findAll fnmatch (i + 1) (findFile fnmatch h).2
    ((i, sFindFile) :: stores, count)
  else ([], i)
termination_by h.pDir.length
decreasing_by exact length_findFile_lt _found

/-- What `IPC_FindFiles` returns, what it stores to `asEntries` and at `pAllCount`. -/
structure Found where
  code : Int
  asEntries : List (Nat × Str)
  pAllCount : Option Nat
deriving DecidableEq

/-- `IPC_FindFiles`. It does not look at `nEntrCount`. -/
def findFiles (fnmatch : Str → Str → Int) (sNameFilter : Str) (entries : Option (List Dirent))
    (allocated : Bool) (_nEntrCount : Nat) : Except Stop Found := do
  match ← openDir sNameFilter entries allocated with
  | none => return ⟨-1, [], none⟩
  | some h =>
    let (asEntries, i) := findAll fnmatch 0 h
    return ⟨0, asEntries, some i⟩

/-- The names of the files of a directory that match the filter. -/
def files (fnmatch : Str → Str → Int) (sNameFilter : Str) (entries : List Dirent) : List Str :=
  (entries.filter (wanted fnmatch sNameFilter)).map Dirent.d_name

/-- The first files, as many as `asEntries` has room for, and the number of all. -/
def RespectsArray (fnmatch : Str → Str → Int) (sNameFilter : Str) (entries : List Dirent)
    (nEntrCount : Nat) (r : Except Stop Found) : Prop :=
  r = .ok ⟨0, (List.range nEntrCount).zip (files fnmatch sNameFilter entries),
    some (files fnmatch sNameFilter entries).length⟩

section Files

variable {fnmatch : Str → Str → Int} {sNameFilter : Str} {entries : List Dirent} {h : IpcDir}

theorem findAll_eq (fnmatch : Str → Str → Int) (i : Nat) (h : IpcDir) :
    findAll fnmatch i h =
      ((List.range' i (files fnmatch h.sFind h.pDir).length).zip (files fnmatch h.sFind h.pDir),
        i + (files fnmatch h.sFind h.pDir).length) := by
  induction hn : h.pDir.length using Nat.strongRecOn generalizing i h with
  | ind n ih =>
    rw [findAll]
    have hfile := findFile_eq fnmatch h
    have hhead := Search.next_fst (wanted fnmatch h.sFind) h.pDir
    have htail := Search.filter_next (wanted fnmatch h.sFind) h.pDir
    cases hnext : (Search.next (wanted fnmatch h.sFind) h.pDir).1 with
    | none =>
      have hnil : h.pDir.filter (wanted fnmatch h.sFind) = [] :=
        List.head?_eq_none_iff.mp (hhead.symm.trans hnext)
      simp [hfile, hnext, files, hnil]
    | some entry =>
      have hlt := Search.length_next_lt hnext
      have hcons : h.pDir.filter (wanted fnmatch h.sFind) =
          entry :: (Search.next (wanted fnmatch h.sFind) h.pDir).2.filter
            (wanted fnmatch h.sFind) := by
        rw [htail]
        exact (List.cons_head?_tail (hhead.symm.trans hnext)).symm
      have hrest := ih _ (hn ▸ hlt) (i + 1)
        { h with pDir := (Search.next (wanted fnmatch h.sFind) h.pDir).2 } rfl
      simp only [files, hcons, List.map_cons, List.length_cons, List.range'_succ,
        List.zip_cons_cons]
      simp only [files] at hrest
      simp only [hfile, hnext, hrest, dite_true, Option.getD_some]
      rw [Nat.add_assoc, Nat.add_comm 1]

/-- A call on a directory that was opened copies all the files. -/
theorem findFiles_eq (fnmatch : Str → Str → Int) (hfilter : sNameFilter.length < 256)
    (entries : List Dirent) (nEntrCount : Nat) :
    findFiles fnmatch sNameFilter (some entries) true nEntrCount =
      .ok ⟨0, (List.range (files fnmatch sNameFilter entries).length).zip
        (files fnmatch sNameFilter entries), some (files fnmatch sNameFilter entries).length⟩ := by
  have hopen : openDir sNameFilter (some entries) true = .ok (some ⟨sNameFilter, entries⟩) :=
    if_neg (Nat.not_le.mpr hfilter)
  unfold findFiles
  rw [hopen]
  show Except.ok _ = _
  rw [findAll_eq, Nat.zero_add, List.range_eq_range']

theorem zip_range_eq_iff {names : List Str} {n : Nat} :
    (List.range names.length).zip names = (List.range n).zip names ↔ names.length ≤ n := by
  constructor
  · intro h
    have hlength := congrArg List.length h
    simp only [List.length_zip, List.length_range] at hlength
    omega
  · intro h
    refine List.ext_getElem (by simp [h]) fun i hi hi' => ?_
    simp

/-- The array is respected iff the call gets its object, `sFind` has room for the
filter, and there are no more files than `asEntries` has room for. -/
theorem respects_array_iff (fnmatch : Str → Str → Int) (sNameFilter : Str)
    (entries : List Dirent) (allocated : Bool) (nEntrCount : Nat) :
    RespectsArray fnmatch sNameFilter entries nEntrCount
        (findFiles fnmatch sNameFilter (some entries) allocated nEntrCount) ↔
      allocated = true ∧ sNameFilter.length < 256 ∧
        (files fnmatch sNameFilter entries).length ≤ nEntrCount := by
  unfold RespectsArray
  rcases Nat.lt_or_ge sNameFilter.length 256 with hfilter | hlong
  · cases allocated with
    | true =>
      rw [findFiles_eq fnmatch hfilter]
      simp only [Except.ok.injEq, Found.mk.injEq, true_and, and_true, zip_range_eq_iff, hfilter]
    | false =>
      have hstop : findFiles fnmatch sNameFilter (some entries) false nEntrCount =
          .error .nullPointer := by
        simp [findFiles, openDir, Nat.not_le.mpr hfilter, bind, Except.bind]
      simp [hstop]
  · have hstop : findFiles fnmatch sNameFilter (some entries) allocated nEntrCount =
        .error .outOfBounds := by
      simp [findFiles, openDir, hlong, bind, Except.bind]
    simp [hstop, Nat.not_lt.mpr hlong]

/-- Two files, and an array for one. -/
theorem not_respects_array : ¬ ∀ (fnmatch : Str → Str → Int) (sNameFilter : Str)
    (entries : List Dirent) (nEntrCount : Nat),
    RespectsArray fnmatch sNameFilter entries nEntrCount
      (findFiles fnmatch sNameFilter (some entries) true nEntrCount) := by
  intro respects
  have h := respects (fun _ _ => 0) (chars ['*'])
    [⟨8, chars ['a'], by decide⟩, ⟨8, chars ['b'], by decide⟩] 1
  rw [RespectsArray, findFiles_eq _ (by decide)] at h
  revert h
  decide

end Files

end Gipcy.Linux.Directory
