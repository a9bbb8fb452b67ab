import Gipcy.Lib.Transition
import Gipcy.Linux.Insys
import Mathlib.Logic.Function.Basic

/-! The file calls of the Linux and the Windows library side by side. They translate the
flags of `IPC_openFile` and the distance of `IPC_setPosFile` differently; all else is the
same on both, for files that are opened without `IPC_FILE_DIRECT`. -/
namespace Gipcy.Ports

open Transition
open Linux (IPC_OK IPC_GENERAL_ERROR)

def IPC_CREATE_FILE : BitVec 32 := 0x1
def IPC_OPEN_FILE : BitVec 32 := 0x2
def IPC_FILE_RDONLY : BitVec 32 := 0x10
def IPC_FILE_WRONLY : BitVec 32 := 0x20
def IPC_FILE_RDWR : BitVec 32 := 0x40
def IPC_FILE_DIRECT : BitVec 32 := 0x80

def O_RDONLY : BitVec 32 := 0
def O_WRONLY : BitVec 32 := 0x1
def O_RDWR : BitVec 32 := 0x2
def O_CREAT : BitVec 32 := 0x40
def O_TRUNC : BitVec 32 := 0x200
def O_DIRECT : BitVec 32 := 0x4000

/-- `flags & bit` as the condition of an `if`. -/
def has (flags bit : BitVec 32) : Bool := flags &&& bit != 0

inductive PosMethod where
  | beg | cur | fin
  deriving DecidableEq

structure FileAccess where
  read : Bool
  write : Bool
  deriving DecidableEq

def FileAccess.any (access : FileAccess) : Bool := access.read || access.write

/-- What the system keeps for an open file. -/
structure OpenFile (ν : Type*) where
  name : ν
  access : FileAccess
  pos : Nat

/-- The two calls in which the libraries differ. -/
structure Port where
  /-- The bytes of the file after it was opened and what the handle may do. -/
  openFile : BitVec 32 → Option (List UInt8) → Option (List UInt8 × FileAccess)
  /-- The new position and the result, from the base of the method, the position before
  and the distance. -/
  setPosFile : FileAccess → Nat → Nat → BitVec 32 → Nat × Int

namespace LinuxFile

def convertIpcFlags (ipcFlags : BitVec 32) : BitVec 32 :=
  let flags := 0
  let flags := if has ipcFlags IPC_CREATE_FILE then flags ||| (O_CREAT ||| O_TRUNC) else flags
  let flags :=
    if has ipcFlags IPC_OPEN_FILE || has ipcFlags IPC_FILE_RDONLY then flags ||| O_RDONLY
    else flags
  let flags := if has ipcFlags IPC_FILE_WRONLY then flags ||| (O_CREAT ||| O_WRONLY) else flags
  let flags := if has ipcFlags IPC_FILE_RDWR then flags ||| (O_CREAT ||| O_RDWR) else flags
  if has ipcFlags IPC_FILE_DIRECT then flags ||| O_DIRECT else flags

/-- The access mode 3 opens a file for neither. -/
def accessMode (sysflag : BitVec 32) : FileAccess where
  read := sysflag &&& 3 == O_RDONLY || sysflag &&& 3 == O_RDWR
  write := sysflag &&& 3 == O_WRONLY || sysflag &&& 3 == O_RDWR

def sysOpen (sysflag : BitVec 32) : Option (List UInt8) → Option (List UInt8 × FileAccess)
  | none => if has sysflag O_CREAT then some ([], accessMode sysflag) else none
  | some bytes => some (if has sysflag O_TRUNC then [] else bytes, accessMode sysflag)

/-- `int res = lseek(..)` keeps the low 32 bits, and 0 is taken for a failure. -/
def ipcSetPosFile (base pos : Nat) (distance : BitVec 32) : Nat × Int :=
  if (base : Int) + distance.toInt < 0 then (pos, IPC_GENERAL_ERROR)
  else
    let new := ((base : Int) + distance.toInt).toNat
    (new, if (BitVec.ofNat 32 new).toInt ≤ 0 then IPC_GENERAL_ERROR else IPC_OK)

end LinuxFile

namespace WindowsFile

inductive Disposition where
  | zero | createAlways | openExisting

def disposition (flags : BitVec 32) : Disposition :=
  let cmode := if has (flags &&& 0xf) IPC_CREATE_FILE then .createAlways else .zero
  if has (flags &&& 0xf) IPC_OPEN_FILE then .openExisting else cmode

def desiredAccess (flags : BitVec 32) : FileAccess :=
  let amode := ⟨has (flags &&& 0xf0) IPC_FILE_RDONLY, false⟩
  let amode := if has (flags &&& 0xf0) IPC_FILE_WRONLY then { amode with write := true } else amode
  if has (flags &&& 0xf0) IPC_FILE_RDWR then ⟨true, true⟩ else amode

/-- A disposition of 0 is refused. -/
def createFile (access : FileAccess) :
    Disposition → Option (List UInt8) → Option (List UInt8 × FileAccess)
  | .zero, _ => none
  | .createAlways, _ => some ([], access)
  | .openExisting, content => content.map (·, access)

/-- With `HiPart` the distance is a number of 64 bits whose upper half is 0, so that a
negative `pos` moves forward. The low half of the position is tested against the mark
of a failure. -/
def ipcSetPosFile (access : FileAccess) (base pos : Nat) (distance : BitVec 32) : Nat × Int :=
  if access.any then
    let new := base + distance.toNat
    (new, if BitVec.ofNat 32 new = 0xFFFFFFFF then IPC_GENERAL_ERROR else IPC_OK)
  else (pos, IPC_GENERAL_ERROR)

end WindowsFile

def linuxFiles : Port where
  openFile flags content := LinuxFile.sysOpen (LinuxFile.convertIpcFlags flags) content
  setPosFile _ := LinuxFile.ipcSetPosFile

def windowsFiles : Port where
  openFile flags content :=
    WindowsFile.createFile (WindowsFile.desiredAccess flags) (WindowsFile.disposition flags) content
  setPosFile := WindowsFile.ipcSetPosFile

inductive FileCall (ν η : Type*) where
  | openFile (h : η) (name : ν) (flags : BitVec 32)
  | readFile (h : η) (size : Nat)
  | writeFile (h : η) (data : List UInt8)
  | setPosFile (h : η) (pos : BitVec 32) (method : PosMethod)
  | getFileSize (h : η)
  | closeFile (h : η)

inductive FileAnswer where
  | opened (ok : Bool)
  | data (bytes : List UInt8)
  | size (n : Nat)
  | code (res : Int)
  deriving DecidableEq

/-- The files of a machine, the open ones, and what the calls returned so far. -/
structure Files (ν η : Type*) where
  content : ν → Option (List UInt8)
  descr : η → Option (OpenFile ν)
  answers : List FileAnswer

/-- The bytes of `old` with those of `data` from a position on; a gap is filled with 0. -/
def splice (old : List UInt8) (pos : Nat) (data : List UInt8) : List UInt8 :=
  if data = [] then old
  else old.takeD pos 0 ++ data ++ old.drop (pos + data.length)

namespace Files

variable {ν η : Type*} [DecidableEq ν] [DecidableEq η]

def bytes (s : Files ν η) (name : ν) : List UInt8 := (s.content name).getD []

def base (s : Files ν η) (o : OpenFile ν) : PosMethod → Nat
  | .beg => 0
  | .cur => o.pos
  | .fin => (s.bytes o.name).length

def reply (s : Files ν η) (answer : FileAnswer) : Files ν η :=
  { s with answers := s.answers ++ [answer] }

def store (s : Files ν η) (name : ν) (bytes : List UInt8) : Files ν η :=
  { s with content := Function.update s.content name (some bytes) }

def closed (s : Files ν η) (h : η) : Files ν η :=
  { s with descr := Function.update s.descr h none }

def moved (s : Files ν η) (h : η) (o : OpenFile ν) (pos : Nat) : Files ν η :=
  { s with descr := Function.update s.descr h (some { o with pos := pos }) }

def opened (s : Files ν η) (h : η) (name : ν) : Option (List UInt8 × FileAccess) → Files ν η
  | none => s.reply (.opened false)
  | some (bytes, access) =>
    ((s.store name bytes).moved h ⟨name, access, 0⟩ 0).reply (.opened true)

/-- One call. The handle of an open file is a new one, that of another call an open one.
A file opened with `IPC_FILE_DIRECT` has no call here: Linux passes `O_DIRECT` on, and then
its reads and writes depend on how the data is aligned. -/
def call (P : Port) (s : Files ν η) : FileCall ν η → Option (Files ν η)
  | .openFile h name flags =>
    if (s.descr h).isSome || has flags IPC_FILE_DIRECT then none
    else some (s.opened h name (P.openFile flags (s.content name)))
  | .readFile h size =>
    (s.descr h).map fun o =>
      if o.access.read then
        let bytes := ((s.bytes o.name).drop o.pos).take size
        (s.moved h o (o.pos + bytes.length)).reply (.data bytes)
      else s.reply (.code IPC_GENERAL_ERROR)
  | .writeFile h data =>
    (s.descr h).map fun o =>
      if o.access.write then
        (((s.store o.name (splice (s.bytes o.name) o.pos data)).moved h o
          (o.pos + data.length)).reply (.code data.length))
      else s.reply (.code IPC_GENERAL_ERROR)
  | .setPosFile h pos method =>
    (s.descr h).map fun o =>
      let r := P.setPosFile o.access (s.base o method) o.pos pos
      (s.moved h o r.1).reply (.code r.2)
  | .getFileSize h => (s.descr h).map fun o => s.reply (.size (s.bytes o.name).length)
  | .closeFile h =>
    (s.descr h).map fun _ => (s.closed h).reply (.code IPC_OK)

end Files

/-- The same calls on two machines that begin with the same files. -/
def bothFiles (ν η : Type*) [DecidableEq ν] [DecidableEq η] (P Q : Port) :
    System (Files ν η × Files ν η) (FileCall ν η) :=
  .ofNext (fun s => s.1 = s.2 ∧ ∀ h, s.1.descr h = none) fun s c =>
    (s.1.call P c).bind fun left => (s.2.call Q c).map fun right => (left, right)

/-- The flags name one of the three modes, and a file that is opened is there and is not
to be emptied; or the file is missing and neither library would make it. -/
def OpenAgrees (flags : BitVec 32) (content : Option (List UInt8)) : Prop :=
  (if has flags IPC_FILE_RDWR then has flags IPC_FILE_WRONLY = false
    else has flags IPC_FILE_RDONLY ≠ has flags IPC_FILE_WRONLY) ∧
    (if has flags IPC_OPEN_FILE then
      content ≠ none ∧ (has flags IPC_CREATE_FILE → content = some [])
    else has flags IPC_CREATE_FILE) ∨
  content = none ∧ has flags IPC_CREATE_FILE = false ∧ has flags IPC_FILE_WRONLY = false ∧
    has flags IPC_FILE_RDWR = false

/-- The distance is not negative and the new position, as an `int`, is greater than 0 or
-1; or the position is the one before the move. -/
def SeekAgrees (base pos : Nat) (distance : BitVec 32) : Prop :=
  0 ≤ distance.toInt ∧
    ((base + distance.toNat) % 2 ^ 32 = 2 ^ 32 - 1 ∨
      0 < (base + distance.toNat) % 2 ^ 32 ∧ (base + distance.toNat) % 2 ^ 32 < 2 ^ 31) ∨
  distance.toInt < 0 ∧ base + distance.toNat = 2 ^ 32 - 1 ∧ pos = 2 ^ 32 - 1

/-- The condition on a call of both machines in the same state. -/
def CallAgrees {ν η : Type*} (s : Files ν η × Files ν η) : FileCall ν η → Prop
  | .openFile _ name flags => OpenAgrees flags (s.1.content name)
  | .setPosFile h pos method =>
    ∀ o, s.1.descr h = some o → SeekAgrees (s.1.base o method) o.pos pos
  | _ => True

/-! The flags and the distance. -/

theorem has_and (flags mask bit : BitVec 32) (h : mask &&& bit = bit) :
    has (flags &&& mask) bit = has flags bit := by
  rw [has, has, BitVec.and_assoc, h]

/-- What the system reads off the flags that it is given. -/
theorem convertIpcFlags_spec (flags : BitVec 32) :
    has (LinuxFile.convertIpcFlags flags) O_CREAT =
        (has flags IPC_CREATE_FILE || has flags IPC_FILE_WRONLY || has flags IPC_FILE_RDWR) ∧
      has (LinuxFile.convertIpcFlags flags) O_TRUNC = has flags IPC_CREATE_FILE ∧
      LinuxFile.accessMode (LinuxFile.convertIpcFlags flags) =
        ⟨!has flags IPC_FILE_WRONLY, has flags IPC_FILE_WRONLY != has flags IPC_FILE_RDWR⟩ := by
  simp only [LinuxFile.convertIpcFlags]
  cases has flags IPC_CREATE_FILE <;> cases has flags IPC_FILE_WRONLY <;>
    cases has flags IPC_FILE_RDWR <;> cases has flags IPC_FILE_DIRECT <;>
    cases has flags IPC_OPEN_FILE <;> cases has flags IPC_FILE_RDONLY <;> exact ⟨rfl, rfl, rfl⟩

theorem desiredAccess_eq (flags : BitVec 32) :
    WindowsFile.desiredAccess flags =
      ⟨has flags IPC_FILE_RDONLY || has flags IPC_FILE_RDWR,
        has flags IPC_FILE_WRONLY || has flags IPC_FILE_RDWR⟩ := by
  simp only [WindowsFile.desiredAccess, has_and flags 0xf0 IPC_FILE_RDONLY (by decide),
    has_and flags 0xf0 IPC_FILE_WRONLY (by decide), has_and flags 0xf0 IPC_FILE_RDWR (by decide)]
  cases has flags IPC_FILE_RDONLY <;> cases has flags IPC_FILE_WRONLY <;>
    cases has flags IPC_FILE_RDWR <;> rfl

theorem openFile_eq_iff (flags : BitVec 32) (content : Option (List UInt8)) :
    linuxFiles.openFile flags content = windowsFiles.openFile flags content ↔
      OpenAgrees flags content := by
  obtain ⟨hcreat, htrunc, haccess⟩ := convertIpcFlags_spec flags
  simp only [linuxFiles, windowsFiles, desiredAccess_eq, WindowsFile.disposition,
    has_and flags 0xf IPC_CREATE_FILE (by decide), has_and flags 0xf IPC_OPEN_FILE (by decide),
    OpenAgrees]
  cases content with
  | none =>
    simp only [LinuxFile.sysOpen, hcreat, haccess]
    cases has flags IPC_CREATE_FILE <;> cases has flags IPC_FILE_WRONLY <;>
      cases has flags IPC_FILE_RDWR <;> cases has flags IPC_OPEN_FILE <;>
      cases has flags IPC_FILE_RDONLY <;> simp [WindowsFile.createFile]
  | some bytes =>
    simp only [LinuxFile.sysOpen, htrunc, haccess]
    cases has flags IPC_CREATE_FILE <;> cases has flags IPC_FILE_WRONLY <;>
      cases has flags IPC_FILE_RDWR <;> cases has flags IPC_OPEN_FILE <;>
      cases has flags IPC_FILE_RDONLY <;> simp [WindowsFile.createFile, eq_comm]

theorem toInt_ofNat_le_iff (n : Nat) :
    (BitVec.ofNat 32 n).toInt ≤ 0 ↔ n % 2 ^ 32 = 0 ∨ 2 ^ 31 ≤ n % 2 ^ 32 := by
  rw [BitVec.toInt_eq_toNat_cond, BitVec.toNat_ofNat]
  have hlt : n % 2 ^ 32 < 2 ^ 32 := Nat.mod_lt n (by decide)
  split <;> omega

theorem ofNat_eq_ones_iff (n : Nat) :
    BitVec.ofNat 32 n = 0xFFFFFFFF ↔ n % 2 ^ 32 = 2 ^ 32 - 1 := by
  rw [← BitVec.toNat_inj, BitVec.toNat_ofNat]
  exact Iff.rfl

theorem setPosFile_eq_iff {access : FileAccess} (h : access.any = true) (base pos : Nat)
    (distance : BitVec 32) :
    linuxFiles.setPosFile access base pos distance =
        windowsFiles.setPosFile access base pos distance ↔ SeekAgrees base pos distance := by
  have hresult : IPC_GENERAL_ERROR ≠ IPC_OK := by decide
  have hlt := distance.isLt
  have hsign := BitVec.toInt_eq_toNat_cond distance
  simp only [linuxFiles, windowsFiles, LinuxFile.ipcSetPosFile, WindowsFile.ipcSetPosFile, h,
    if_true, SeekAgrees, toInt_ofNat_le_iff, ofNat_eq_ones_iff]
  by_cases hneg : 2 * distance.toNat < 2 ^ 32
  · -- both move to the same place, and the results are read off its low half
    rw [if_pos hneg] at hsign
    have hmove : ¬ (base : Int) + distance.toInt < 0 := by omega
    have hsame : ((base : Int) + distance.toInt).toNat = base + distance.toNat := by omega
    have hmod : (base + distance.toNat) % 2 ^ 32 < 2 ^ 32 := Nat.mod_lt _ (by decide)
    rw [if_neg hmove, hsame, Prod.mk.injEq]
    simp only [true_and]
    split <;> split <;> simp only [hresult, hresult.symm, true_iff, false_iff] <;> omega
  · rw [if_neg hneg] at hsign
    split
    · rw [Prod.mk.injEq]
      split <;> simp only [hresult, and_true, and_false, false_iff] <;> omega
    · rw [Prod.mk.injEq]
      have hother : ((base : Int) + distance.toInt).toNat ≠ base + distance.toNat := by omega
      simp only [hother, false_and, false_iff]
      omega

/-! One call of both machines. -/

section Step

variable {ν η : Type*} [DecidableEq ν] [DecidableEq η] {s : Files ν η}

/-- Every open file can be read or written. -/
def Usable (s : Files ν η) : Prop :=
  ∀ h o, s.descr h = some o → o.access.any = true

namespace Files

omit [DecidableEq ν] [DecidableEq η] in
theorem reply_inj {t : Files ν η} {a b : FileAnswer} (h : s.reply a = t.reply b)
    (answers : s.answers = t.answers) : a = b := by
  have hlast : s.answers ++ [a] = t.answers ++ [b] := congrArg Files.answers h
  rw [answers] at hlast
  simpa using hlast

theorem opened_inj {h : η} {name : ν} {left right : Option (List UInt8 × FileAccess)} :
    s.opened h name left = s.opened h name right ↔ left = right := by
  refine ⟨fun he => ?_, fun he => he ▸ rfl⟩
  rcases left with _ | ⟨bytes, access⟩ <;> rcases right with _ | ⟨bytes', access'⟩
  · rfl
  · cases reply_inj he rfl
  · cases reply_inj he rfl
  · have hbytes := congrFun (congrArg Files.content he) name
    have haccess := congrFun (congrArg Files.descr he) h
    simp only [opened, reply, moved, store, Function.update_self, Option.some.injEq,
      OpenFile.mk.injEq, true_and, and_true] at hbytes haccess
    rw [hbytes, haccess]

omit [DecidableEq ν] in
theorem moved_inj {h : η} {o : OpenFile ν} {left right : Nat × Int} :
    (s.moved h o left.1).reply (.code left.2) = (s.moved h o right.1).reply (.code right.2) ↔
      left = right := by
  refine ⟨fun he => ?_, fun he => he ▸ rfl⟩
  have hcode := FileAnswer.code.inj (reply_inj he rfl)
  have hpos := congrFun (congrArg Files.descr he) h
  simp only [reply, moved, Function.update_self, Option.some.injEq, OpenFile.mk.injEq,
    true_and] at hpos
  exact Prod.ext hpos hcode

end Files

theorem call_eq_iff (usable : Usable s) {c : FileCall ν η} {left right : Files ν η}
    (hleft : s.call linuxFiles c = some left) (hright : s.call windowsFiles c = some right) :
    left = right ↔ CallAgrees (s, s) c := by
  cases c with
  | openFile h name flags =>
    simp only [Files.call] at hleft hright
    split at hleft
    · cases hleft
    · rename_i hnew
      rw [if_neg hnew] at hright
      cases hleft
      cases hright
      rw [Files.opened_inj]
      exact openFile_eq_iff flags _
  | setPosFile h pos method =>
    obtain ⟨o, ho, rfl⟩ := Option.map_eq_some_iff.mp hleft
    obtain ⟨o', ho', rfl⟩ := Option.map_eq_some_iff.mp hright
    cases ho.symm.trans ho'
    have hopen : CallAgrees (s, s) (.setPosFile h pos method) ↔
        SeekAgrees (s.base o method) o.pos pos := by
      simp only [CallAgrees, ho, Option.some.injEq, forall_eq']
    rw [Files.moved_inj, hopen]
    exact setPosFile_eq_iff (usable h o ho) _ _ _
  | readFile | writeFile | getFileSize | closeFile =>
    exact iff_of_true (Option.some.inj (hleft.symm.trans hright)) trivial

omit [DecidableEq ν] in
theorem Usable.moved (usable : Usable s) {h : η} {o : OpenFile ν} (ho : o.access.any = true)
    (pos : Nat) : Usable (s.moved h o pos) := by
  intro h' o' ho'
  simp only [Files.moved, Function.update_apply] at ho'
  split at ho'
  · cases ho'
    exact ho
  · exact usable h' o' ho'

/-- A file that both libraries open in the same way is open for something. -/
theorem OpenAgrees.any {flags : BitVec 32} {content : Option (List UInt8)}
    (h : OpenAgrees flags content) :
    (LinuxFile.accessMode (LinuxFile.convertIpcFlags flags)).any = true := by
  rw [(convertIpcFlags_spec flags).2.2, FileAccess.any]
  rcases h with ⟨hmode, -⟩ | ⟨-, -, hwrite, hrdwr⟩
  · split at hmode
    · simp [hmode]
    · rename_i hrdwr
      cases has flags IPC_FILE_WRONLY <;> simp [hrdwr]
  · simp [hwrite]

theorem access_of_openFile {flags : BitVec 32} {content : Option (List UInt8)}
    {bytes : List UInt8} {access : FileAccess}
    (h : linuxFiles.openFile flags content = some (bytes, access)) :
    access = LinuxFile.accessMode (LinuxFile.convertIpcFlags flags) := by
  simp only [linuxFiles] at h
  cases content with
  | none =>
    simp only [LinuxFile.sysOpen] at h
    split at h <;> cases h
    rfl
  | some => cases h; rfl

theorem usable_call (usable : Usable s) {c : FileCall ν η} {t : Files ν η}
    (h : s.call linuxFiles c = some t) (agrees : CallAgrees (s, s) c) : Usable t := by
  cases c with
  | openFile handle name flags =>
    simp only [Files.call] at h
    split at h
    · cases h
    · cases h
      cases hopen : linuxFiles.openFile flags (s.content name) with
      | none => exact usable
      | some r =>
        have hany := OpenAgrees.any agrees
        rw [← access_of_openFile hopen] at hany
        exact Usable.moved (s := s.store name r.1) usable hany 0
  | readFile handle size =>
    obtain ⟨o, ho, rfl⟩ := Option.map_eq_some_iff.mp h
    split
    · exact usable.moved (usable handle o ho) _
    · exact usable
  | writeFile handle data =>
    obtain ⟨o, ho, rfl⟩ := Option.map_eq_some_iff.mp h
    split
    · exact Usable.moved (s := s.store o.name _) usable (usable handle o ho) _
    · exact usable
  | setPosFile handle pos method =>
    obtain ⟨o, ho, rfl⟩ := Option.map_eq_some_iff.mp h
    exact usable.moved (usable handle o ho) _
  | getFileSize handle =>
    obtain ⟨o, ho, rfl⟩ := Option.map_eq_some_iff.mp h
    exact usable
  | closeFile handle =>
    obtain ⟨o, ho, rfl⟩ := Option.map_eq_some_iff.mp h
    intro h' o' ho'
    simp only [Files.closed, Files.reply, Function.update_apply] at ho'
    split at ho'
    · cases ho'
    · exact usable h' o' ho'

end Step

section Claims

variable {ν η : Type*} [DecidableEq ν] [DecidableEq η]

/-- In a run of file calls over both libraries, none of which opens with
`IPC_FILE_DIRECT`, the files, the positions and all that the calls returned are the same
after every call exactly if each open and each move of a position meets its condition. -/
theorem files_agree_iff {s t : Files ν η × Files ν η} {calls : List (FileCall ν η)}
    (hs : (bothFiles ν η linuxFiles windowsFiles).init s) :
    ((bothFiles ν η linuxFiles windowsFiles).confine fun s => s.1 = s.2).Exec s calls t ↔
      ((bothFiles ν η linuxFiles windowsFiles).guard CallAgrees).Exec s calls t := by
  have meets : ∀ s c t, s.1 = s.2 → Usable s.1 →
      (bothFiles ν η linuxFiles windowsFiles).step s c t →
      (s.1.call linuxFiles c = some t.1 ∧ (t.1 = t.2 ↔ CallAgrees s c)) := by
    rintro ⟨left, right⟩ c t hsame usable step
    obtain rfl : left = right := hsame
    obtain ⟨left', hleft, hmap⟩ := Option.bind_eq_some_iff.mp step
    obtain ⟨right', hright, rfl⟩ := Option.map_eq_some_iff.mp hmap
    exact ⟨hleft, call_eq_iff usable hleft hright⟩
  refine System.exec_confine_iff_of_good (I := fun s => Usable s.1) ?_ ?_ ?_ hs.1
  · rintro ⟨left, right⟩ c t usable hsame step hgood
    obtain ⟨hleft, hiff⟩ := meets _ c t hsame usable step
    obtain rfl : left = right := hsame
    exact usable_call usable hleft (hiff.mp hgood)
  · exact fun s c t usable hgood step => (meets s c t hgood usable step).2
  · exact fun h o ho => absurd (ho.symm.trans (hs.2 h)) (by simp)

/-- A file that is made, written, set back to its second byte and read. -/
theorem files_agree_write_read : ∃ t : Files Unit Unit × Files Unit Unit,
    ((bothFiles Unit Unit linuxFiles windowsFiles).confine fun s => s.1 = s.2).Exec
      (⟨fun _ => none, fun _ => none, []⟩, ⟨fun _ => none, fun _ => none, []⟩)
      [.openFile () () (IPC_CREATE_FILE ||| IPC_FILE_RDWR), .writeFile () [7, 8],
        .setPosFile () 1 .beg, .readFile () 5] t ∧
      t.2.answers = [.opened true, .code 2, .code 0, .data [8]] := by
  refine ⟨_, (files_agree_iff ⟨rfl, fun _ => rfl⟩).mpr (.cons ⟨.inl ⟨by decide, by decide⟩, rfl⟩
    (.cons ⟨trivial, rfl⟩ (.cons ⟨?_, rfl⟩ (.cons ⟨trivial, rfl⟩ (.nil _))))), rfl⟩
  rintro o ⟨⟩
  exact .inl (by decide)

end Claims

end Gipcy.Ports
