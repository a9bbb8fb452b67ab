import Gipcy.Lib.CString
import Gipcy.Lib.Search

/-! `IPC_OpenDir`, `IPC_FindFile` and `IsSymLinks` of `diripc.cpp`, without
`_UNICODE`. A listing is what `FindFirstFile` and then `FindNextFile` deliver. -/
namespace Gipcy.Windows.Directory

open CString

def FILE_ATTRIBUTE_DIRECTORY : UInt32 := 0x10

structure FindData where
  dwFileAttributes : UInt32
  cFileName : Str

/-- A handle: its `ipc_data`, and what `FindNextFile` has still to deliver. -/
structure IpcHandle where
  ipc_data : Option FindData
  ipc_descr : List FindData

/-- `IPC_OpenDir`, which takes the first entry. -/
def openDir : List FindData → Option IpcHandle
  | [] => none
  | pFindData :: ipc_descr => some ⟨some pFindData, ipc_descr⟩

def lnk : Str := chars ['.', 'l', 'n', 'k']

/-- `IsSymLinks`. -/
def isSymLinks (sName : Str) : Bool :=
  match strstr sName lnk with
  | none => false
  | some p => sName.length - p = 4

/-- The body of the loop of `IPC_FindFile` comes to its `break`. -/
def isFindFile (pFindData : Option FindData) : Bool :=
  match pFindData with
  | none => false
  | some pFindData =>
    if pFindData.dwFileAttributes &&& FILE_ATTRIBUTE_DIRECTORY ≠ 0 then false
    else !isSymLinks pFindData.cFileName

/-- The loop of `IPC_FindFile`: its condition takes the next entry. -/
def findLoop (pFindData : Option FindData) : List FindData → Option FindData × List FindData
  | [] => if isFindFile pFindData then (pFindData, []) else (none, [])
  | next :: ipc_descr =>
    if isFindFile pFindData then (pFindData, next :: ipc_descr)
    else findLoop (some next) ipc_descr

/-- `IPC_FindFile`: what it returns, and what it copies to `sFindFile`. -/
def findFile (h : IpcHandle) : (Int × Option Str) × IpcHandle :=
  match findLoop h.ipc_data h.ipc_descr with
  | (none, ipc_descr) => ((-1, none), ⟨none, ipc_descr⟩)
  | (some pFindData, ipc_descr) => ((0, some pFindData.cFileName), ⟨none, ipc_descr⟩)

/-- The results of the first `n` calls. -/
def findCalls : Nat → IpcHandle → List (Int × Option Str)
  | 0, _ => []
  | n + 1, h => (findFile h).1 :: findCalls n (findFile h).2

/-- The entry is a file whose name does not end like that of a link. -/
def wanted (entry : FindData) : Bool :=
  entry.dwFileAttributes &&& FILE_ATTRIBUTE_DIRECTORY = 0 ∧ ¬ lnk <:+ entry.cFileName

/-- What a call returns for the entry that it finds, or without one. -/
def result : Option FindData → Int × Option Str
  | none => (-1, none)
  | some entry => (0, some entry.cFileName)

/-- The calls give the wanted entries, each once and in order, and then `-1`. -/
def FindsEach (entries : List FindData) : Prop :=
  ∃ h, openDir entries = some h ∧ ∀ n, findCalls n h =
    (List.range n).map fun k => result (entries.filter wanted)[k]?

section Links

variable {name : Str}

/-- Only the first `.lnk` of the name is looked at. -/
theorem isSymLinks_iff : isSymLinks name = true ↔ lnk <:+ name ∧ ¬ lnk <:+: name.dropLast := by
  have hlength : lnk.length = 4 := rfl
  have hfirst : isSymLinks name = true ↔ ∃ p, strstr name lnk = some p ∧ name.length - p = 4 := by
    unfold isSymLinks
    cases strstr name lnk <;> simp
  rw [hfirst]
  constructor
  · rintro ⟨p, hp, hend⟩
    obtain ⟨hfound, hleast⟩ := strstr_eq_some_iff.mp hp
    have hdrop : lnk = name.drop p := hfound.eq_of_length (by rw [hlength, List.length_drop, hend])
    refine ⟨hdrop ▸ List.drop_suffix p name, ?_⟩
    rintro ⟨before, after, hbefore⟩
    have hshort := congrArg List.length hbefore
    simp only [List.length_append, hlength, List.length_dropLast] at hshort
    refine hleast before.length (by omega) ?_
    have hprefix : before ++ lnk <+: name :=
      (hbefore ▸ List.prefix_append _ after).trans (List.dropLast_prefix name)
    obtain ⟨rest, rfl⟩ := hprefix
    simp
  · rintro ⟨⟨before, rfl⟩, honly⟩
    refine ⟨before.length, strstr_eq_some_iff.mpr ⟨by simp, fun j hj hfound => honly ?_⟩,
      by simp [hlength]⟩
    -- An earlier one ends before the last character.
    obtain ⟨rest, hrest⟩ := hfound
    have hsplit : before ++ lnk = (before ++ lnk).take j ++ (lnk ++ rest) := by
      rw [hrest, List.take_append_drop]
    have hne : rest ≠ [] := by
      rintro rfl
      have := congrArg List.length hrest
      simp only [List.length_append, List.length_drop, List.length_nil, hlength] at this
      omega
    rw [hsplit, ← List.append_assoc, List.dropLast_append_of_ne_nil hne, List.append_assoc]
    exact List.infix_append' _ _ _

theorem isFindFile_some (entry : FindData) : isFindFile (some entry) = true ↔
    entry.dwFileAttributes &&& FILE_ATTRIBUTE_DIRECTORY = 0 ∧
      isSymLinks entry.cFileName = false := by
  unfold isFindFile
  by_cases hdir : entry.dwFileAttributes &&& FILE_ATTRIBUTE_DIRECTORY = 0 <;> simp [hdir]

end Links

section Calls

variable {h : IpcHandle}

/-- The entries that the calls have still to examine. -/
def left (h : IpcHandle) : List FindData := h.ipc_data.toList ++ h.ipc_descr

theorem findLoop_eq (pFindData : Option FindData) (ipc_descr : List FindData) :
    findLoop pFindData ipc_descr =
      Search.next (fun entry => isFindFile (some entry)) (pFindData.toList ++ ipc_descr) := by
  induction ipc_descr generalizing pFindData with
  | nil => cases pFindData <;> rfl
  | cons next ipc_descr ih =>
    rw [findLoop, ih]
    cases pFindData with
    | none => rfl
    | some pFindData => rfl

theorem findFile_eq (h : IpcHandle) :
    findFile h = (result (Search.next (fun entry => isFindFile (some entry)) (left h)).1,
      ⟨none, (Search.next (fun entry => isFindFile (some entry)) (left h)).2⟩) := by
  unfold findFile left
  rw [findLoop_eq]
  rcases Search.next _ _ with ⟨pFindData, ipc_descr⟩
  cases pFindData <;> rfl

theorem findCalls_eq (n : Nat) (h : IpcHandle) :
    findCalls n h =
      (Search.answers (fun entry => isFindFile (some entry)) n (left h)).map result := by
  induction n generalizing h with
  | zero => rfl
  | succ n ih =>
    rw [findCalls, Search.answers, List.map_cons, ih, findFile_eq]
    rfl

/-- The calls find each file once iff no file has the ending of a link and the same
characters ahead of it as well. -/
theorem finds_each_iff (first : FindData) (rest : List FindData) :
    FindsEach (first :: rest) ↔ ∀ entry ∈ first :: rest,
      entry.dwFileAttributes &&& FILE_ATTRIBUTE_DIRECTORY = 0 → lnk <:+ entry.cFileName →
        ¬ lnk <:+: entry.cFileName.dropLast := by
  have hopen : FindsEach (first :: rest) ↔ ∀ n,
      (Search.answers (fun entry => isFindFile (some entry)) n (first :: rest)).map result =
        (List.range n).map fun k => result ((first :: rest).filter wanted)[k]? := by
    constructor
    · rintro ⟨h, hopen, hcalls⟩
      cases hopen
      intro n
      rw [← hcalls n, findCalls_eq]
      rfl
    · intro hcalls
      refine ⟨_, rfl, fun n => ?_⟩
      rw [findCalls_eq, ← hcalls n]
      rfl
  have hresult : ∀ entry, result (some entry) ≠ result none :=
    fun _ h => absurd (Prod.mk.inj h).1 (by decide)
  rw [hopen, Search.map_answers_eq_iff hresult]
  · refine forall₂_congr fun entry _ => ?_
    rw [isFindFile_some, wanted, decide_eq_true_iff, ← Bool.not_eq_true, isSymLinks_iff]
    tauto
  · intro entry _ hwanted
    obtain ⟨hdir, hname⟩ := of_decide_eq_true hwanted
    refine (isFindFile_some entry).mpr ⟨hdir, ?_⟩
    rw [← Bool.not_eq_true, isSymLinks_iff]
    exact fun hlink => hname hlink.1

/-- The link `a.lnk.lnk` is returned. -/
theorem not_finds_each : ¬ ∀ (first : FindData) (rest : List FindData),
    FindsEach (first :: rest) := by
  intro finds
  obtain ⟨h, hopen, hcalls⟩ :=
    finds ⟨0, chars ['a', '.', 'l', 'n', 'k', '.', 'l', 'n', 'k']⟩ []
  cases hopen
  have hfirst := hcalls 1
  revert hfirst
  decide

end Calls

end Gipcy.Windows.Directory
