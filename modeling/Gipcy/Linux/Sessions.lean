import Gipcy.Lib.Clients
import Gipcy.Linux.Insys

/-! `IPC_init` and `IPC_cleanup` of any number of processes, none forked from another one
that has the driver open. The driver sees files, a process sees descriptors, and the
library takes the descriptor 0 for none. -/
namespace Gipcy.Linux

open Transition Clients

def IPC_DRIVER_NOT_LOADED : Int := (0xC0000105 : UInt32).toInt32.toInt

/-- What a descriptor of a process is of. -/
inductive Descriptor where
  | driver (file : Nat)
  | other
deriving DecidableEq

/-- The library's variable, and the descriptors of the process. `inited` holds from an
`IPC_init` that answered `IPC_OK` to the next `IPC_cleanup`; only the proofs look at it. -/
structure Process where
  ipcDriverFd : Int
  fds : Nat → Option Descriptor
  inited : Bool

/-- `open` answers with the lowest number that is free. -/
def Process.Lowest (p : Process) (fd : Nat) : Prop :=
  p.fds fd = none ∧ ∀ n < fd, p.fds n ≠ none

instance (p : Process) (fd : Nat) : Decidable (p.Lowest fd) :=
  inferInstanceAs (Decidable (p.fds fd = none ∧ ∀ n < fd, p.fds n ≠ none))

def Process.opens (p : Process) (fd file : Nat) : Process where
  ipcDriverFd := fd
  fds := Function.update p.fds fd (some (.driver file))
  inited := true

def Process.closes (p : Process) : Process where
  ipcDriverFd := -1
  fds := Function.update p.fds p.ipcDriverFd.toNat none
  inited := false

/-- The file that `ipc_driver_handle` leads to. -/
def Process.handleFile (p : Process) : Option Nat :=
  if ipcDriverHandle p.ipcDriverFd < 0 then none
  else
    match p.fds (ipcDriverHandle p.ipcDriverFd).toNat with
    | some (.driver file) => some file
    | _ => none

/-- The driver, the files opened so far, the processes, and the files whose descriptor
was closed and which the kernel has not released yet. -/
structure Sessions (ι : Type*) where
  dev : Device Nat
  made : Nat
  procs : ι → Process
  closing : List Nat

inductive ProcessAct (ι : Type*) where
  /-- `IPC_init`, with the answer of the `open`. -/
  | init (c : ι) (answer : Option Nat)
  | cleanup (c : ι)
  /-- The last request through a closed file has ended. -/
  | release (file : Nat)
  /-- A create, a close or the start of a lock, unlock or reset of the library. -/
  | request (c : ι) (r : Request Nat)
  /-- A request goes on, or somebody writes to free memory of the kernel. -/
  | kernel (r : Request Nat)
  /-- The program opens a file of its own. -/
  | own (c : ι) (fd : Nat)
  | disown (c : ι) (fd : Nat)

/-- The file that a request of the library comes through. -/
def Request.through : Request Nat → Option Nat
  | .create file _ _ _ | .close file _ _ | .start file _ _ _ _ _ => some file
  | _ => none

/-- The steps of the driver that are not by a file. -/
def Request.inner : Request Nat → Bool
  | .access _ _ | .scribble _ _ => true
  | _ => false

/-- The process has the driver at its descriptor 0. -/
def Process.Stuck (p : Process) : Prop := ∃ file, p.fds 0 = some (.driver file)

instance (p : Process) : Decidable p.Stuck :=
  match h : p.fds 0 with
  | some (.driver file) => isTrue ⟨file, h⟩
  | some .other => isFalse fun ⟨_, hf⟩ => by
    rw [h] at hf
    cases hf
  | none => isFalse fun ⟨_, hf⟩ => by
    rw [h] at hf
    cases hf

/-- The files of the driver that a process has open. -/
def Process.weight (p : Process) : Int :=
  (if 0 < p.ipcDriverFd then 1 else 0) + if p.Stuck then 1 else 0

section Process

variable {p : Process} {fd n file file' : Nat}

theorem Process.weight_nonneg (p : Process) : 0 ≤ p.weight := by
  unfold Process.weight
  split <;> split <;> omega

theorem Process.handleFile_eq (opened : 0 < p.ipcDriverFd)
    (h : p.fds p.ipcDriverFd.toNat = some (.driver file)) : p.handleFile = some file := by
  have hhandle : ipcDriverHandle p.ipcDriverFd = p.ipcDriverFd := if_pos opened
  unfold Process.handleFile
  rw [hhandle, if_neg (by omega)]
  simp only [h]

theorem Process.handleFile_fds (h : p.handleFile = some file) :
    p.fds (ipcDriverHandle p.ipcDriverFd).toNat = some (.driver file) := by
  unfold Process.handleFile at h
  split at h
  · cases h
  · split at h
    · rename_i hfds
      cases h
      exact hfds
    · cases h

theorem Process.weight_congr {p q : Process} (opened : 0 < p.ipcDriverFd ↔ 0 < q.ipcDriverFd)
    (stuck : p.Stuck ↔ q.Stuck) : p.weight = q.weight := by
  simp only [Process.weight, opened, stuck]

theorem Process.opens_self : (p.opens fd file).fds fd = some (.driver file) :=
  Function.update_self ..

theorem Process.opens_of_ne (h : n ≠ fd) : (p.opens fd file).fds n = p.fds n :=
  Function.update_of_ne h _ _

theorem Process.opens_cases (h : (p.opens fd file).fds n = some (.driver file')) :
    n = fd ∧ file' = file ∨ p.fds n = some (.driver file') := by
  by_cases hn : n = fd
  · rw [hn, Process.opens_self] at h
    cases h
    exact .inl ⟨hn, rfl⟩
  · exact .inr (Process.opens_of_ne hn ▸ h)

theorem Process.weight_opens (closed : ¬ 0 < p.ipcDriverFd) (free : p.fds fd = none) :
    (p.opens fd file).weight = p.weight + 1 := by
  have hfd : (p.opens fd file).ipcDriverFd = fd := rfl
  unfold Process.weight
  rw [if_neg closed, hfd]
  by_cases hzero : fd = 0
  · subst hzero
    have hstuck : (p.opens 0 file).Stuck := ⟨_, Process.opens_self⟩
    have hwas : ¬ p.Stuck := by
      rintro ⟨file, hfile⟩
      rw [free] at hfile
      cases hfile
    simp [hstuck, hwas]
  · have hstuck : (p.opens fd file).Stuck ↔ p.Stuck := by
      unfold Process.Stuck
      rw [Process.opens_of_ne (Ne.symm hzero)]
    rw [if_pos (by omega)]
    simp only [hstuck]
    omega

theorem Process.closes_of_ne (h : n ≠ p.ipcDriverFd.toNat) : p.closes.fds n = p.fds n :=
  Function.update_of_ne h _ _

theorem Process.closes_cases {d : Descriptor} (h : p.closes.fds n = some d) :
    n ≠ p.ipcDriverFd.toNat ∧ p.fds n = some d := by
  by_cases hn : n = p.ipcDriverFd.toNat
  · subst hn
    simp [Process.closes] at h
  · exact ⟨hn, Process.closes_of_ne hn ▸ h⟩

theorem Process.weight_closes (opened : 0 < p.ipcDriverFd) : p.closes.weight = p.weight - 1 := by
  have hstuck : p.closes.Stuck ↔ p.Stuck := by
    unfold Process.Stuck
    rw [Process.closes_of_ne (by omega)]
  have hfd : ¬ 0 < p.closes.ipcDriverFd := by simp [Process.closes]
  unfold Process.weight
  rw [if_pos opened, if_neg hfd]
  simp only [hstuck]
  omega

end Process

namespace Sessions

variable {ι : Type*} [DecidableEq ι]

def setProc (s : Sessions ι) (c : ι) (p : Process) : Sessions ι :=
  { s with procs := Function.update s.procs c p }

/-- `IPC_init`, which is `open_ipc_driver`. -/
def ipcInit (s : Sessions ι) (c : ι) (answer : Option Nat) : Option (Sessions ι × Int) :=
  let p := s.procs c
  if p.ipcDriverFd > 0 then some (s.setProc c { p with inited := true }, IPC_OK)
  else
    match answer with
    | none =>
      some (s.setProc c { p with ipcDriverFd := -1, inited := false }, IPC_DRIVER_NOT_LOADED)
    | some fd =>
      if p.Lowest fd then
        (s.dev.next (.deviceOpen s.made)).map fun dev =>
          (({ s with dev := dev, made := s.made + 1 } : Sessions ι).setProc c (p.opens fd s.made),
            IPC_OK)
      else none

/-- `IPC_cleanup`, which is `close_ipc_driver`. -/
def ipcCleanup (s : Sessions ι) (c : ι) : Sessions ι × Int :=
  let p := s.procs c
  if p.ipcDriverFd > 0 then
    let fd := p.ipcDriverFd.toNat
    let closed := match p.fds fd with
      | some (.driver file) => file :: s.closing
      | _ => s.closing
    (({ s with closing := closed } : Sessions ι).setProc c p.closes, 0)
  else (s.setProc c { p with inited := false }, 0)

def next (s : Sessions ι) : ProcessAct ι → Option (Sessions ι)
  | .init c answer => (s.ipcInit c answer).map Prod.fst
  | .cleanup c => some (s.ipcCleanup c).1
  | .release file =>
    if file ∈ s.closing then
      (s.dev.next (.deviceClose file)).map fun dev =>
        { s with dev := dev, closing := s.closing.erase file }
    else none
  | .request c r =>
    if r.through.isSome ∧ r.through = (s.procs c).handleFile then
      (s.dev.next r).map fun dev => { s with dev := dev }
    else none
  | .kernel r =>
    if r.inner then (s.dev.next r).map fun dev => { s with dev := dev } else none
  | .own c fd =>
    let p := s.procs c
    if p.Lowest fd then
      some (s.setProc c { p with fds := Function.update p.fds fd (some .other) })
    else none
  | .disown c fd =>
    let p := s.procs c
    if p.fds fd = some .other then
      some (s.setProc c { p with fds := Function.update p.fds fd none })
    else none

/-- A freshly probed driver, and processes that have opened what they like but not the
driver. -/
def system (ι : Type*) [DecidableEq ι] : System (Sessions ι) (ProcessAct ι) :=
  .ofNext (fun s => (∃ mem, s.dev = ⟨ipcProbe mem, [], [], []⟩) ∧ s.closing = [] ∧
    ∀ c, (s.procs c).ipcDriverFd = -1 ∧ (s.procs c).inited = false ∧
      ∀ fd file, (s.procs c).fds fd ≠ some (.driver file)) next

/-- A first state: every process has its input, output and errors. -/
def started (ι : Type*) : Sessions ι where
  dev := ⟨ipcProbe fun _ => Entry.zero, [], [], []⟩
  made := 0
  procs := fun _ => ⟨-1, fun fd => if fd < 3 then some .other else none, false⟩
  closing := []

theorem started_init (ι : Type*) [DecidableEq ι] : (system ι).init (started ι) := by
  refine ⟨⟨_, rfl⟩, rfl, fun c => ⟨rfl, rfl, fun fd file => ?_⟩⟩
  simp only [started]
  split <;> simp

/-- The steps of the driver that its open files do not change by. -/
theorem next_files {s t : Device Nat} {r : Request Nat} (h : s.next r = some t)
    (hr : r.through.isSome ∨ r.inner) : t.files = s.files := by
  cases r with
  | deviceOpen file => simp [Request.through, Request.inner] at hr
  | deviceClose file => simp [Request.through, Request.inner] at hr
  | create file k param fresh =>
    obtain ⟨-, h⟩ := Option.ite_none_right_eq_some.mp h
    cases h
    rfl
  | close file k param =>
    obtain ⟨-, h⟩ := Option.ite_none_right_eq_some.mp h
    cases h
    rfl
  | start file k op handle timeout lockerid =>
    obtain ⟨-, h⟩ := Option.ite_none_right_eq_some.mp h
    obtain ⟨point, -, h⟩ := Option.map_eq_some_iff.mp h
    split at h <;> cases h <;> rfl
  | access i how =>
    obtain ⟨x, -, h⟩ := Option.bind_eq_some_iff.mp h
    obtain ⟨y, -, h⟩ := Option.map_eq_some_iff.mp h
    cases h
    rfl
  | scribble q e =>
    obtain ⟨-, h⟩ := Option.ite_none_right_eq_some.mp h
    cases h
    rfl

/-- The open files of the driver: each is at one descriptor, that of the library's variable
or 0, or it is closed and not released. -/
structure Owned [Fintype ι] (s : Sessions ι) : Prop where
  fresh : ∀ file ∈ s.dev.files, file < s.made
  closed : ∀ file ∈ s.closing, file ∈ s.dev.files
  nodup : s.closing.Nodup
  file : ∀ c fd file, (s.procs c).fds fd = some (.driver file) →
    file ∈ s.dev.files ∧ file ∉ s.closing
  place : ∀ c fd file, (s.procs c).fds fd = some (.driver file) →
    fd = 0 ∨ (fd : Int) = (s.procs c).ipcDriverFd
  once : ∀ c d fd fd' file, (s.procs c).fds fd = some (.driver file) →
    (s.procs d).fds fd' = some (.driver file) → c = d ∧ fd = fd'
  handle : ∀ c, 0 < (s.procs c).ipcDriverFd →
    ∃ file, (s.procs c).fds (s.procs c).ipcDriverFd.toNat = some (.driver file)
  inited : ∀ c, (s.procs c).inited = true → 0 < (s.procs c).ipcDriverFd ∨ (s.procs c).Stuck
  usage : (s.dev.files.length : Int) = tally Process.weight s.procs + s.closing.length

namespace Owned

variable [Fintype ι] {s t : Sessions ι} {c : ι}

/-- A process changes and gets no new file. -/
theorem setProc (h : Owned s) {p : Process}
    (fds : ∀ fd file, p.fds fd = some (.driver file) → (s.procs c).fds fd = some (.driver file))
    (place : ∀ fd file, p.fds fd = some (.driver file) → fd = 0 ∨ (fd : Int) = p.ipcDriverFd)
    (handle : 0 < p.ipcDriverFd → ∃ file, p.fds p.ipcDriverFd.toNat = some (.driver file))
    (inited : p.inited = true → 0 < p.ipcDriverFd ∨ p.Stuck)
    (weight : p.weight = (s.procs c).weight) : Owned (s.setProc c p) := by
  have hfds : ∀ d fd file, ((s.setProc c p).procs d).fds fd = some (.driver file) →
      (s.procs d).fds fd = some (.driver file) := by
    intro d
    exact forall_update (p := fun d (q : Process) => ∀ fd file, q.fds fd = some (.driver file) →
      (s.procs d).fds fd = some (.driver file)) (fun d _ fd file hd => hd) fds d
  constructor
  · exact h.fresh
  · exact h.closed
  · exact h.nodup
  · exact fun d fd file hd => h.file d fd file (hfds d fd file hd)
  · exact forall_update (p := fun _ (q : Process) => ∀ fd file, q.fds fd = some (.driver file) →
      fd = 0 ∨ (fd : Int) = q.ipcDriverFd) (fun d _ => h.place d) place
  · intro d e fd fd' file hd he
    exact h.once d e fd fd' file (hfds d fd file hd) (hfds e fd' file he)
  · exact forall_update (p := fun _ (q : Process) => 0 < q.ipcDriverFd →
      ∃ file, q.fds q.ipcDriverFd.toNat = some (.driver file)) (fun d _ => h.handle d) handle
  · exact forall_update (p := fun _ (q : Process) => q.inited = true →
      0 < q.ipcDriverFd ∨ q.Stuck) (fun d _ => h.inited d) inited
  · have htally := tally_update Process.weight s.procs c p
    have husage := h.usage
    simp only [Sessions.setProc]
    omega

/-- `open` gives a new file at a number that is free. -/
theorem opens (h : Owned s) {fd : Nat} {dev : Device Nat} (closed : ¬ 0 < (s.procs c).ipcDriverFd)
    (free : (s.procs c).fds fd = none) (files : dev.files = s.made :: s.dev.files) :
    Owned (({ s with dev := dev, made := s.made + 1 } : Sessions ι).setProc c
      ((s.procs c).opens fd s.made)) := by
  have hnew : s.made ∉ s.dev.files := fun hmade => Nat.lt_irrefl _ (h.fresh _ hmade)
  constructor
  · intro file hfile
    rcases List.mem_cons.mp (show file ∈ s.made :: s.dev.files from files ▸ hfile) with rfl | hfile
    · exact Nat.lt_succ_self _
    · exact Nat.lt_succ_of_lt (h.fresh file hfile)
  · intro file hfile
    exact files ▸ List.mem_cons_of_mem s.made (h.closed file hfile)
  · exact h.nodup
  · have hkeep : ∀ file, file ∈ s.dev.files ∧ file ∉ s.closing →
        file ∈ dev.files ∧ file ∉ s.closing :=
      fun file hfile => ⟨files ▸ List.mem_cons_of_mem _ hfile.1, hfile.2⟩
    refine forall_update (p := fun _ (q : Process) => ∀ fd file, q.fds fd = some (.driver file) →
      file ∈ dev.files ∧ file ∉ s.closing) (fun d _ n file hn => hkeep file (h.file d n file hn)) ?_
    intro n file hn
    rcases Process.opens_cases hn with ⟨-, rfl⟩ | hn
    · exact ⟨files ▸ List.mem_cons_self, fun hclosing => hnew (h.closed _ hclosing)⟩
    · exact hkeep file (h.file c n file hn)
  · refine forall_update (p := fun _ (q : Process) => ∀ fd file, q.fds fd = some (.driver file) →
      fd = 0 ∨ (fd : Int) = q.ipcDriverFd) (fun d _ => h.place d) ?_
    intro n file hn
    rcases Process.opens_cases hn with ⟨rfl, -⟩ | hn
    · exact .inr rfl
    · rcases h.place c n file hn with hzero | hplace
      · exact .inl hzero
      · exact .inl (by omega)
  · -- The new file is at one descriptor, and the others are where they were.
    have hold : ∀ d n file,
        (Function.update s.procs c ((s.procs c).opens fd s.made) d).fds n = some (.driver file) →
        d = c ∧ n = fd ∧ file = s.made ∨ (s.procs d).fds n = some (.driver file) := by
      intro d
      refine forall_update (p := fun d (q : Process) => ∀ n file, q.fds n = some (.driver file) →
        d = c ∧ n = fd ∧ file = s.made ∨ (s.procs d).fds n = some (.driver file))
        (fun d _ n file hn => .inr hn) (fun n file hn => ?_) d
      exact (Process.opens_cases hn).imp_left fun hn => ⟨rfl, hn⟩
    intro d e n n' file hd he
    rcases hold d n file hd with ⟨rfl, rfl, rfl⟩ | hd
    · rcases hold e n' _ he with ⟨rfl, rfl, -⟩ | he
      · exact ⟨rfl, rfl⟩
      · exact absurd (h.file e n' _ he).1 hnew
    · rcases hold e n' file he with ⟨-, -, rfl⟩ | he
      · exact absurd (h.file d n _ hd).1 hnew
      · exact h.once d e n n' file hd he
  · refine forall_update (p := fun _ (q : Process) => 0 < q.ipcDriverFd →
      ∃ file, q.fds q.ipcDriverFd.toNat = some (.driver file)) (fun d _ => h.handle d) fun _ => ?_
    exact ⟨s.made, Process.opens_self⟩
  · refine forall_update (p := fun _ (q : Process) => q.inited = true →
      0 < q.ipcDriverFd ∨ q.Stuck) (fun d _ => h.inited d) fun _ => ?_
    rcases Nat.eq_zero_or_pos fd with rfl | hpos
    · exact .inr ⟨_, Process.opens_self⟩
    · exact .inl (Int.natCast_pos.mpr hpos)
  · have htally := tally_update Process.weight s.procs c ((s.procs c).opens fd s.made)
    have hweight : ((s.procs c).opens fd s.made).weight = (s.procs c).weight + 1 :=
      Process.weight_opens closed free
    have husage := h.usage
    simp only [Sessions.setProc, files, List.length_cons]
    omega

/-- The file of the library's variable is closed, and goes when it can. -/
theorem closes (h : Owned s) {file : Nat} (opened : 0 < (s.procs c).ipcDriverFd)
    (at_fd : (s.procs c).fds (s.procs c).ipcDriverFd.toNat = some (.driver file)) :
    Owned
      (({ s with closing := file :: s.closing } : Sessions ι).setProc c (s.procs c).closes) := by
  obtain ⟨hfile, hopen⟩ := h.file c _ file at_fd
  have hfds : ∀ d n file', (Function.update s.procs c (s.procs c).closes d).fds n =
      some (.driver file') → (s.procs d).fds n = some (.driver file') ∧ file' ≠ file := by
    intro d
    refine forall_update (p := fun d (q : Process) => ∀ n file', q.fds n = some (.driver file') →
      (s.procs d).fds n = some (.driver file') ∧ file' ≠ file) ?_ ?_ d
    · rintro d hd n file' hn
      refine ⟨hn, ?_⟩
      rintro rfl
      exact hd (h.once d c n _ _ hn at_fd).1
    · rintro n file' hn
      obtain ⟨hne, hn⟩ := Process.closes_cases hn
      refine ⟨hn, ?_⟩
      rintro rfl
      exact hne (h.once c c n _ _ hn at_fd).2
  constructor
  · exact h.fresh
  · exact List.forall_mem_cons.mpr ⟨hfile, h.closed⟩
  · exact List.nodup_cons.mpr ⟨hopen, h.nodup⟩
  · intro d n file' hn
    obtain ⟨hn, hne⟩ := hfds d n file' hn
    obtain ⟨hlisted, hclosing⟩ := h.file d n file' hn
    exact ⟨hlisted, List.not_mem_cons_of_ne_of_not_mem hne hclosing⟩
  · refine forall_update (p := fun _ (q : Process) => ∀ fd file, q.fds fd = some (.driver file) →
      fd = 0 ∨ (fd : Int) = q.ipcDriverFd) (fun d _ => h.place d) fun n file' hn => ?_
    obtain ⟨hne, hn⟩ := Process.closes_cases hn
    rcases h.place c n file' hn with hzero | hplace
    · exact .inl hzero
    · exact absurd (by omega) hne
  · intro d e n n' file' hd he
    exact h.once d e n n' file' (hfds d n file' hd).1 (hfds e n' file' he).1
  · refine forall_update (p := fun _ (q : Process) => 0 < q.ipcDriverFd →
      ∃ file, q.fds q.ipcDriverFd.toNat = some (.driver file)) (fun d _ => h.handle d) ?_
    simp [Process.closes]
  · refine forall_update (p := fun _ (q : Process) => q.inited = true →
      0 < q.ipcDriverFd ∨ q.Stuck) (fun d _ => h.inited d) fun hinited => ?_
    cases hinited
  · have htally := tally_update Process.weight s.procs c (s.procs c).closes
    have hweight := Process.weight_closes opened
    have husage := h.usage
    simp only [Sessions.setProc, List.length_cons]
    omega

omit [DecidableEq ι] in
/-- The driver is told of the close. -/
theorem release (h : Owned s) {file : Nat} {dev : Device Nat} (hfile : file ∈ s.closing)
    (files : dev.files = s.dev.files.erase file) :
    Owned { s with dev := dev, closing := s.closing.erase file } := by
  have hlisted := h.closed file hfile
  constructor
  · intro file' hfile'
    exact h.fresh file' (List.mem_of_mem_erase (files ▸ hfile'))
  · intro file' hfile'
    have hne : file' ≠ file := by
      rintro rfl
      exact h.nodup.not_mem_erase hfile'
    exact files ▸ (List.mem_erase_of_ne hne).mpr (h.closed file' (List.mem_of_mem_erase hfile'))
  · exact h.nodup.erase file
  · intro c n file' hn
    obtain ⟨hopen, hclosing⟩ := h.file c n file' hn
    have hne : file' ≠ file := by
      rintro rfl
      exact hclosing hfile
    exact ⟨files ▸ (List.mem_erase_of_ne hne).mpr hopen,
      fun hmem => hclosing (List.mem_of_mem_erase hmem)⟩
  · exact h.place
  · exact h.once
  · exact h.handle
  · exact h.inited
  · have husage := h.usage
    have hlength := List.length_erase_of_mem hfile
    have hlength' := List.length_erase_of_mem hlisted
    have hpos := List.length_pos_of_mem hfile
    have hpos' := List.length_pos_of_mem hlisted
    simp only [files]
    omega

omit [DecidableEq ι] in
theorem sameFiles (h : Owned s) {dev : Device Nat} (files : dev.files = s.dev.files) :
    Owned { s with dev := dev } := by
  refine ⟨?_, ?_, h.nodup, ?_, h.place, h.once, h.handle, h.inited, ?_⟩
  · exact files ▸ h.fresh
  · exact files ▸ h.closed
  · exact files ▸ h.file
  · exact files ▸ h.usage

theorem init (h : Owned s) {answer : Option Nat} {r : Sessions ι × Int}
    (hr : s.ipcInit c answer = some r) : Owned r.1 := by
  simp only [ipcInit] at hr
  split at hr
  · rename_i opened
    cases hr
    exact h.setProc (fun _ _ hn => hn) (h.place c) (h.handle c) (fun _ => .inl opened) rfl
  · rename_i closed
    split at hr
    · cases hr
      have hclosed : ¬ (0 : Int) < -1 := by decide
      refine h.setProc (fun _ _ hn => hn) (fun n file hn => ?_) (fun hpos => absurd hpos hclosed)
        (fun hinited => by cases hinited)
        (Process.weight_congr (iff_of_false hclosed closed) Iff.rfl)
      rcases h.place c n file hn with hzero | hplace
      · exact .inl hzero
      · exact .inl (by omega)
    · obtain ⟨lowest, hr⟩ := Option.ite_none_right_eq_some.mp hr
      obtain ⟨dev, hdev, rfl⟩ := Option.map_eq_some_iff.mp hr
      refine h.opens closed lowest.1 ?_
      simp only [Device.next] at hdev
      split at hdev <;> cases hdev
      rfl

theorem cleanup (h : Owned s) (c : ι) : Owned (s.ipcCleanup c).1 := by
  simp only [ipcCleanup]
  split
  · rename_i opened
    obtain ⟨file, hfile⟩ := h.handle c opened
    simp only [hfile]
    exact h.closes opened hfile
  · rename_i closed
    exact h.setProc (fun _ _ hn => hn) (h.place c) (h.handle c)
      (fun hinited => by cases hinited) rfl

/-- The program's own files are not of the driver. -/
theorem own (h : Owned s) {fd : Nat} {d : Option Descriptor}
    (was : ∀ file, (s.procs c).fds fd ≠ some (.driver file))
    (is : ∀ file, d ≠ some (.driver file)) :
    Owned (s.setProc c { s.procs c with fds := Function.update (s.procs c).fds fd d }) := by
  have hiff : ∀ n file, Function.update (s.procs c).fds fd d n = some (.driver file) ↔
      (s.procs c).fds n = some (.driver file) := by
    intro n file
    by_cases hn : n = fd
    · subst hn
      rw [Function.update_self]
      exact iff_of_false (is file) (was file)
    · rw [Function.update_of_ne hn]
  have hstuck : (∃ file, Function.update (s.procs c).fds fd d 0 = some (.driver file)) ↔
      (s.procs c).Stuck := exists_congr (hiff 0)
  refine h.setProc (fun n file => (hiff n file).mp) (fun n file hn => ?_) (fun hpos => ?_)
    (fun hinited => (h.inited c hinited).imp_right hstuck.mpr) (Process.weight_congr Iff.rfl hstuck)
  · exact h.place c n file ((hiff n file).mp hn)
  · obtain ⟨file, hfile⟩ := h.handle c hpos
    exact ⟨file, (hiff _ file).mpr hfile⟩

theorem next (h : Owned s) {act : ProcessAct ι} (step : s.next act = some t) : Owned t := by
  cases act with
  | init c answer =>
    obtain ⟨r, hr, rfl⟩ := Option.map_eq_some_iff.mp step
    exact h.init hr
  | cleanup c =>
    cases step
    exact h.cleanup c
  | release file =>
    obtain ⟨hfile, step⟩ := Option.ite_none_right_eq_some.mp step
    obtain ⟨dev, hdev, rfl⟩ := Option.map_eq_some_iff.mp step
    obtain ⟨-, hdev⟩ := Option.ite_none_right_eq_some.mp hdev
    cases hdev
    exact h.release hfile rfl
  | request c r =>
    obtain ⟨⟨hthrough, -⟩, step⟩ := Option.ite_none_right_eq_some.mp step
    obtain ⟨dev, hdev, rfl⟩ := Option.map_eq_some_iff.mp step
    exact h.sameFiles (next_files hdev (.inl hthrough))
  | kernel r =>
    obtain ⟨hinner, step⟩ := Option.ite_none_right_eq_some.mp step
    obtain ⟨dev, hdev, rfl⟩ := Option.map_eq_some_iff.mp step
    exact h.sameFiles (next_files hdev (.inr hinner))
  | own c fd =>
    obtain ⟨lowest, step⟩ := Option.ite_none_right_eq_some.mp step
    cases step
    exact h.own (fun file hf => by rw [lowest.1] at hf; cases hf) fun file hf => by cases hf
  | disown c fd =>
    obtain ⟨hother, step⟩ := Option.ite_none_right_eq_some.mp step
    cases step
    exact h.own (fun file hf => by rw [hother] at hf; cases hf) fun file hf => by cases hf

end Owned

theorem owned_reachable [Fintype ι] {s : Sessions ι} (h : (system ι).Reachable s) : Owned s := by
  apply h.invariant (I := Owned)
  · rintro s ⟨⟨mem, hdev⟩, hclosing, hprocs⟩
    have hnone : ∀ c fd file, (s.procs c).fds fd ≠ some (.driver file) := fun c => (hprocs c).2.2
    constructor
    · intro file hfile
      rw [hdev] at hfile
      cases hfile
    · intro file hfile
      rw [hclosing] at hfile
      cases hfile
    · rw [hclosing]
      exact List.nodup_nil
    · exact fun c fd file hf => absurd hf (hnone c fd file)
    · exact fun c fd file hf => absurd hf (hnone c fd file)
    · exact fun c d fd fd' file hf => absurd hf (hnone c fd file)
    · intro c hpos
      rw [(hprocs c).1] at hpos
      exact absurd hpos (by decide)
    · intro c hinited
      rw [(hprocs c).2.1] at hinited
      cases hinited
    · have hweight : ∀ c, (s.procs c).weight = 0 := by
        intro c
        have hstuck : ¬ (s.procs c).Stuck := fun ⟨file, hf⟩ => hnone c 0 file hf
        simp [Process.weight, hstuck, (hprocs c).1]
      rw [tally_eq_zero hweight, hdev, hclosing]
      rfl
  · exact fun s act t _ inv step => inv.next step

/-- Nothing closes the descriptor 0 while it is the driver's. -/
theorem stuck_next {s t : Sessions ι} {c : ι} {act : ProcessAct ι} (h : (s.procs c).Stuck)
    (step : s.next act = some t) : (t.procs c).Stuck := by
  have hset : ∀ (u : Sessions ι) (d : ι) (p : Process), u.procs = s.procs →
      ((s.procs d).Stuck → p.Stuck) → ((u.setProc d p).procs c).Stuck := by
    intro u d p hu hp
    by_cases hcd : c = d
    · subst hcd
      simp only [Sessions.setProc, Function.update_self]
      exact hp h
    · simp only [Sessions.setProc, Function.update_of_ne hcd, hu]
      exact h
  have hother : ∀ (p : Process) n (d : Option Descriptor), p.Stuck →
      (n = 0 → ∀ file, p.fds 0 ≠ some (.driver file)) →
      ∃ file, Function.update p.fds n d 0 = some (.driver file) := by
    rintro p n d ⟨file, hfile⟩ hn
    refine ⟨file, ?_⟩
    rw [Function.update_of_ne fun hzero => hn hzero.symm file hfile]
    exact hfile
  cases act with
  | init d answer =>
    obtain ⟨r, hr, rfl⟩ := Option.map_eq_some_iff.mp step
    simp only [ipcInit] at hr
    split at hr
    · cases hr
      exact hset s d _ rfl id
    · split at hr
      · cases hr
        exact hset s d _ rfl id
      · rename_i fd
        obtain ⟨lowest, hr⟩ := Option.ite_none_right_eq_some.mp hr
        obtain ⟨dev, -, rfl⟩ := Option.map_eq_some_iff.mp hr
        refine hset _ d _ rfl fun hd => hother _ fd _ hd ?_
        rintro rfl file hf
        rw [lowest.1] at hf
        cases hf
  | cleanup d =>
    cases step
    simp only [ipcCleanup]
    split
    · exact hset _ d _ rfl fun hd => hother _ _ _ hd fun hzero => by omega
    · exact hset s d _ rfl id
  | release file | request d r | kernel r =>
    obtain ⟨-, step⟩ := Option.ite_none_right_eq_some.mp step
    obtain ⟨dev, -, rfl⟩ := Option.map_eq_some_iff.mp step
    exact h
  | own d fd =>
    obtain ⟨lowest, step⟩ := Option.ite_none_right_eq_some.mp step
    cases step
    refine hset s d _ rfl fun hd => hother _ fd _ hd ?_
    rintro rfl file hf
    rw [lowest.1] at hf
    cases hf
  | disown d fd =>
    obtain ⟨hfd, step⟩ := Option.ite_none_right_eq_some.mp step
    cases step
    refine hset s d _ rfl fun hd => hother _ fd _ hd ?_
    rintro rfl file hf
    rw [hfd] at hf
    cases hf

/-- Each step is one of the driver or none. -/
theorem device_reachable {s : Sessions ι} (h : (system ι).Reachable s) :
    (Device.system Nat).Reachable s.dev := by
  apply h.invariant (I := fun s => (Device.system Nat).Reachable s.dev)
  · rintro s ⟨⟨mem, hdev⟩, -⟩
    exact .init ⟨mem, hdev⟩
  · intro s act t _ inv step
    cases act with
    | init c answer =>
      obtain ⟨r, hr, rfl⟩ := Option.map_eq_some_iff.mp step
      simp only [ipcInit] at hr
      split at hr
      · cases hr
        exact inv
      · split at hr
        · cases hr
          exact inv
        · obtain ⟨-, hr⟩ := Option.ite_none_right_eq_some.mp hr
          obtain ⟨dev, hdev, rfl⟩ := Option.map_eq_some_iff.mp hr
          exact inv.step hdev
    | cleanup c =>
      cases step
      simp only [ipcCleanup]
      split <;> exact inv
    | release file | request c r | kernel r =>
      obtain ⟨-, step⟩ := Option.ite_none_right_eq_some.mp step
      obtain ⟨dev, hdev, rfl⟩ := Option.map_eq_some_iff.mp step
      exact inv.step hdev
    | own c fd | disown c fd =>
      obtain ⟨-, step⟩ := Option.ite_none_right_eq_some.mp step
      cases step
      exact inv

/-- An `IPC_init` that answered `IPC_OK` has given the library its driver. -/
def Connected (s : Sessions ι) : Prop :=
  ∀ c, (s.procs c).inited = true → 0 < (s.procs c).ipcDriverFd

/-- The process has something at its descriptor 0 when it opens the driver. -/
def ZeroTaken (s : Sessions ι) : ProcessAct ι → Prop
  | .init c (some _) => 0 < (s.procs c).ipcDriverFd ∨ (s.procs c).fds 0 ≠ none
  | _ => True

instance (s : Sessions ι) : ∀ act, Decidable (ZeroTaken s act)
  | .init c (some _) =>
    inferInstanceAs (Decidable (0 < (s.procs c).ipcDriverFd ∨ (s.procs c).fds 0 ≠ none))
  | .init _ none | .cleanup _ | .release _ | .request .. | .kernel _ | .own .. | .disown .. =>
    isTrue trivial

theorem connected_setProc_iff {s u : Sessions ι} {c : ι} {p : Process} (h : Connected s)
    (procs : u.procs = s.procs) :
    Connected (u.setProc c p) ↔ (p.inited = true → 0 < p.ipcDriverFd) := by
  constructor
  · intro hconnected
    have hc := hconnected c
    simp only [Sessions.setProc, Function.update_self] at hc
    exact hc
  · intro hp d
    simp only [Sessions.setProc, procs]
    exact forall_update (p := fun _ (q : Process) => q.inited = true → 0 < q.ipcDriverFd)
      (fun d _ => h d) hp d

theorem connected_next_iff {s t : Sessions ι} {act : ProcessAct ι} (h : Connected s)
    (step : s.next act = some t) : Connected t ↔ ZeroTaken s act := by
  cases act with
  | init c answer =>
    obtain ⟨r, hr, rfl⟩ := Option.map_eq_some_iff.mp step
    simp only [ipcInit] at hr
    split at hr
    · rename_i opened
      cases hr
      rw [connected_setProc_iff h rfl]
      cases answer with
      | none => exact iff_of_true (fun _ => opened) trivial
      | some fd => exact iff_of_true (fun _ => opened) (.inl opened)
    · rename_i closed
      split at hr
      · cases hr
        rw [connected_setProc_iff h rfl]
        exact iff_of_true (fun hinited => by cases hinited) trivial
      · rename_i fd
        obtain ⟨lowest, hr⟩ := Option.ite_none_right_eq_some.mp hr
        obtain ⟨dev, -, rfl⟩ := Option.map_eq_some_iff.mp hr
        refine (connected_setProc_iff
          (u := { s with dev := dev, made := s.made + 1 }) h rfl).trans ?_
        constructor
        · intro hopen
          have hpos : 0 < fd := Int.natCast_pos.mp (hopen rfl)
          exact .inr (lowest.2 0 hpos)
        · intro htaken _
          have hzero := htaken.resolve_left closed
          refine Int.natCast_pos.mpr (Nat.pos_of_ne_zero ?_)
          rintro rfl
          exact hzero lowest.1
  | cleanup c =>
    cases step
    refine iff_of_true ?_ trivial
    simp only [ipcCleanup]
    split
    · exact (connected_setProc_iff (u := { s with closing := _ }) h rfl).mpr fun hinited => by
        cases hinited
    · exact (connected_setProc_iff h rfl).mpr fun hinited => by cases hinited
  | release file | request c r | kernel r =>
    obtain ⟨-, step⟩ := Option.ite_none_right_eq_some.mp step
    obtain ⟨dev, -, rfl⟩ := Option.map_eq_some_iff.mp step
    exact iff_of_true h trivial
  | own c fd | disown c fd =>
    obtain ⟨-, step⟩ := Option.ite_none_right_eq_some.mp step
    cases step
    rw [connected_setProc_iff h rfl]
    exact iff_of_true (h c) trivial

section Claims

/-- In every run, whatever the processes request: the driver counts one use for each
process that has it open, one for each that has it at descriptor 0, and one for each file
that is closed and not released. After an `IPC_init` that answered `IPC_OK` the library's
requests reach the driver through a file of their own, unless the driver is at descriptor
0. When nobody has it open all registries are empty, but from a process with the driver at
descriptor 0 it never is closed again. -/
theorem sessions_counted [Fintype ι] {s : Sessions ι} (h : (system ι).Reachable s) :
    s.dev.drv.mUsage = tally Process.weight s.procs + s.closing.length ∧
    (∀ c, (s.procs c).inited = true →
      (∃ file ∈ s.dev.files, (s.procs c).handleFile = some file) ∨ (s.procs c).Stuck) ∧
    (∀ c d file, (s.procs c).handleFile = some file → (s.procs d).handleFile = some file → c = d) ∧
    ((∀ c, ¬ 0 < (s.procs c).ipcDriverFd ∧ ¬ (s.procs c).Stuck) → s.closing = [] →
      ∀ k, s.dev.drv.mList k = []) ∧
    ∀ c, (s.procs c).Stuck → ∀ acts t, (system ι).Exec s acts t →
      (t.procs c).Stuck ∧ 0 < t.dev.drv.mUsage := by
  have owned := owned_reachable h
  have sound := Device.sound_reachable (device_reachable h)
  refine ⟨sound.usage.trans owned.usage, fun c hinited => ?_, fun c d file hc hd => ?_,
    fun hclosed hclosing => ?_, fun c hstuck acts t exec => ?_⟩
  · rcases owned.inited c hinited with hopen | hstuck
    · obtain ⟨file, hfile⟩ := owned.handle c hopen
      exact .inl ⟨file, (owned.file c _ file hfile).1, Process.handleFile_eq hopen hfile⟩
    · exact .inr hstuck
  · exact (owned.once c d _ _ file (Process.handleFile_fds hc) (Process.handleFile_fds hd)).1
  · have htally : tally Process.weight s.procs = 0 :=
      tally_eq_zero fun c => by simp [Process.weight, hclosed c]
    have husage := owned.usage
    rw [htally, hclosing] at husage
    exact sound.idle (List.length_eq_zero_iff.mp (by simpa using husage))
  · have hkeep : (t.procs c).Stuck :=
      exec.preserves (I := fun s => (s.procs c).Stuck) (fun s act t hs step => stuck_next hs step)
        hstuck
    refine ⟨hkeep, ?_⟩
    have howned := owned_reachable (exec.reachable h)
    have hsound := Device.sound_reachable (device_reachable (exec.reachable h))
    have hone : 1 ≤ (t.procs c).weight := by
      unfold Process.weight
      rw [if_pos hkeep]
      split <;> omega
    have hle := @le_tally ι Process _ Process.weight t.procs
      (fun d => (t.procs d).weight_nonneg) c
    have husage := hsound.usage.trans howned.usage
    omega

/-- The second process has no input, and has the driver in its place. -/
theorem sessions_counted_stuck : ∃ s : Sessions Bool, (system Bool).Reachable s ∧
    s.dev.drv.mUsage = 3 ∧ s.closing = [0] ∧ tally Process.weight s.procs = 2 := by
  refine exists_reachable_of_run (started Bool)
    [.init false (some 3), .disown true 0, .init true (some 0), .cleanup true, .cleanup false,
      .init false (some 3)]
    (fun s => decide (s.dev.drv.mUsage = 3 ∧ s.closing = [0])) (started_init Bool) (by decide)
    fun s hs hp => ?_
  obtain ⟨husage, hclosing⟩ := of_decide_eq_true hp
  have hcount := (sessions_counted hs).1
  rw [husage, hclosing, List.length_singleton] at hcount
  exact ⟨husage, hclosing, by omega⟩

/-- In a run from the first state every answer `IPC_OK` of an `IPC_init` is true exactly
if each process that opens the driver has something at its descriptor 0. -/
theorem inits_connect_iff {s t : Sessions ι} {acts : List (ProcessAct ι)}
    (first : (system ι).init s) :
    ((system ι).confine Connected).Exec s acts t ↔ ((system ι).guard ZeroTaken).Exec s acts t := by
  refine System.exec_confine_iff (I := fun _ => True) (fun _ _ _ _ _ => trivial)
    (fun s act t _ connected step => connected_next_iff connected step) trivial fun c hinited => ?_
  rw [(first.2.2 c).2.1] at hinited
  cases hinited

/-- Two processes with their input, output and errors at the first three descriptors. -/
theorem inits_connect_usual : ∃ t, ((system Bool).confine Connected).Exec (started Bool)
    [.init false (some 3), .init true (some 3), .cleanup false, .release 0] t := by
  have hrun : (run (fun s act => if ZeroTaken s act then next s act else none) (started Bool)
      [.init false (some 3), .init true (some 3), .cleanup false, .release 0]).isSome = true := by
    decide
  obtain ⟨t, ht⟩ := Option.isSome_iff_exists.mp hrun
  exact ⟨t, (inits_connect_iff (started_init Bool)).mpr (exec_guarded_of_run ht)⟩

end Claims

end Sessions

end Gipcy.Linux
