import Gipcy.SystemV.Removal

/-! The create and delete calls of the System V library on one name, one system
call a step. The key comes from the key file of the name. `ftok` is taken to tell files
apart: a key stands for the file that it was made from. -/
namespace Gipcy.SystemV

open SystemVSemaphore Transition
open Linux (EEXIST Primitive)

/-- `semarg.val` of `SETVAL`. -/
def initValue : Primitive → Int → Int
  | .semaphore, value => value
  | _, _ => 1

/-- A set with its key. The value that its creator has for it and the one it was
given are only looked at by the proofs. -/
structure KeyedSet where
  key : Nat
  due : Int
  given : Option Int
deriving DecidableEq

/-- The system call that a process is before. -/
inductive Point where
  | idle
  /-- The `open` of the key file. -/
  | file (value : Int)
  | ftok (value : Int)
  /-- `semget` with `IPC_CREAT | IPC_EXCL`. -/
  | get (value : Int) (key : Nat)
  | setVal (value : Int) (id : Int)
  /-- The `semtimedop` that lowers a new event. -/
  | semop (id : Int)
  /-- `semget` without `IPC_CREAT`. -/
  | opens (key : Nat)
  /-- `IPC_STAT`, in the given pass of the loop. -/
  | stat (id : Int) (i : Nat)
  /-- The `unlink` of a create that fails. -/
  | discard
  | getVal (id : Int)
  | getNCnt (id semval : Int)
  | getZCnt (id semval semncnt : Int)
  | rmid (id : Int)
  /-- The `unlink` of a delete. -/
  | unlink
deriving DecidableEq

/-- Between the first read of a delete and its `unlink`. -/
def Point.deleting : Point → Bool
  | .getVal _ | .getNCnt _ _ | .getZCnt _ _ _ | .rmid _ | .unlink => true
  | _ => false

/-- `file` is the key file, of `files` made so far; `live` the identifiers in the
handles that were returned and not given to a delete. -/
structure Name (ι : Type*) where
  file : Option Nat
  files : Nat
  ids : Nat → Option Int
  sets : Int → Option KeyedSet
  point : ι → Point
  live : List Int

inductive StatResult where
  | ready
  /-- The time that the call looks at is 0. -/
  | zero
  | failed
deriving DecidableEq

/-- A call begins, or the system call goes through in the given way. -/
inductive Act where
  | create (value : Int)
  | delete (id : Int)
  | sys (ok : Bool)
  /-- The identifier, or -1, and `errno`. -/
  | semget (id errno : Int)
  | stat (result : StatResult)
  /-- What `GETVAL`, `GETNCNT` or `GETZCNT` gives, or -1. -/
  | value (result : Int)
deriving DecidableEq

/-- Not the beginning of a delete. -/
def Act.creates : Act → Bool
  | .delete _ => false
  | _ => true

namespace Name

variable {ι : Type*}

def make (s : Name ι) (key : Nat) (id due : Int) : Name ι :=
  { s with
    ids := Function.update s.ids key (some id)
    sets := Function.update s.sets id (some ⟨key, due, none⟩) }

def give (s : Name ι) (id : Int) (set : KeyedSet) (val : Int) : Name ι :=
  { s with sets := Function.update s.sets id (some { set with given := some val }) }

def remove (s : Name ι) (id : Int) (set : KeyedSet) : Name ι :=
  { s with
    ids := Function.update s.ids set.key none
    sets := Function.update s.sets id none }

section Sets

variable (s : Name ι) {key key' : Nat} {id id' : Int} (due val : Int) (set : KeyedSet)

@[simp] theorem make_ids_self : (s.make key id due).ids key = some id := Function.update_self ..

theorem make_ids_of_ne (h : key' ≠ key) : (s.make key id due).ids key' = s.ids key' :=
  Function.update_of_ne h ..

@[simp] theorem make_sets_self : (s.make key id due).sets id = some ⟨key, due, none⟩ :=
  Function.update_self ..

theorem make_sets_of_ne (h : id' ≠ id) : (s.make key id due).sets id' = s.sets id' :=
  Function.update_of_ne h ..

@[simp] theorem give_sets_self :
    (s.give id set val).sets id = some { set with given := some val } :=
  Function.update_self ..

theorem give_sets_of_ne (h : id' ≠ id) : (s.give id set val).sets id' = s.sets id' :=
  Function.update_of_ne h ..

@[simp] theorem remove_ids_self : (s.remove id set).ids set.key = none := Function.update_self ..

theorem remove_ids_of_ne (h : key ≠ set.key) : (s.remove id set).ids key = s.ids key :=
  Function.update_of_ne h ..

theorem remove_sets_of_ne (h : id' ≠ id) : (s.remove id set).sets id' = s.sets id' :=
  Function.update_of_ne h ..

end Sets

/-- `unlink` on the key file. -/
def unlinkFile (s : Name ι) (ok : Bool) : Name ι := { s with file := if ok then none else s.file }

/-- `semget` with `IPC_CREAT | IPC_EXCL`, where it gives this result. -/
def semgetExcl (s : Name ι) (key : Nat) (due id errno : Int) : Option (Name ι) :=
  if id = -1 then
    if errno = EEXIST ∧ s.ids key = none then none else some s
  else if 0 ≤ id ∧ s.ids key = none ∧ s.sets id = none then some (s.make key id due)
  else none

variable [DecidableEq ι]

def goto (s : Name ι) (c : ι) (p : Point) : Name ι :=
  { s with point := Function.update s.point c p }

@[simp] theorem goto_point_self (s : Name ι) (c : ι) (p : Point) : (s.goto c p).point c = p :=
  Function.update_self ..

theorem goto_point_of_ne {s : Name ι} {c d : ι} {p : Point} (h : d ≠ c) :
    (s.goto c p).point d = s.point d :=
  Function.update_of_ne h ..

/-- Where a process is after one of them has moved. -/
theorem goto_point_eq {s : Name ι} {c d : ι} {p q : Point} (h : (s.goto c p).point d = q) :
    d = c ∧ p = q ∨ d ≠ c ∧ s.point d = q := by
  by_cases hdc : d = c
  · subst hdc
    exact .inl ⟨rfl, (goto_point_self s d p).symm.trans h⟩
  · exact .inr ⟨hdc, (goto_point_of_ne hdc).symm.trans h⟩

/-- The create returns a handle with the identifier. -/
def ret (s : Name ι) (c : ι) (id : Int) : Name ι :=
  { s.goto c .idle with live := id :: s.live }

/-- The end of a pass of the loop over `IPC_STAT`; only an event is returned after
the last. -/
def nextPass (k : Primitive) (s : Name ι) (c : ι) (id : Int) (i : Nat) : Name ι :=
  if i + 1 < 10 then s.goto c (.stat id (i + 1))
  else if k = .event then s.ret c id
  else s.goto c .discard

def next (k : Primitive) (s : Name ι) : ι × Act → Option (Name ι)
  | (c, act) =>
    match s.point c, act with
    | .idle, .create value => some (s.goto c (.file value))
    | .file value, .sys ok =>
      if ok = true ∧ s.file = none then
        some ({ s with file := some s.files, files := s.files + 1 }.goto c (.ftok value))
      -- `create_ipc_file` gives a positive number for an error, and 0 for `EEXIST`.
      else some (s.goto c (.ftok value))
    | .ftok value, .sys ok =>
      match s.file, ok with
      | some key, true => some (s.goto c (.get value key))
      | none, true => none
      | _, false => some (s.goto c .discard)
    | .get value key, .semget id errno =>
      (s.semgetExcl key (initValue k value) id errno).map fun s =>
        if id > 0 then s.goto c (.setVal value id)
        -- After a `semget` that gave 0, `errno` is an earlier call's.
        else if errno = EEXIST then s.goto c (.opens key)
        else s.ret c id
    | .setVal value id, .sys ok =>
      match s.sets id, ok with
      | some set, true =>
        let val := initValue k value
        if 0 ≤ val ∧ val ≤ SEMVMX then
          if k = .event ∧ value = 0 then some ((s.give id set val).goto c (.semop id))
          else some ((s.give id set val).ret c id)
        else none
      | none, true => none
      | _, false => some (s.goto c .discard)
    | .semop id, .sys ok =>
      if ok then if (s.sets id).isSome then some (s.ret c id) else none
      else some (s.goto c .discard)
    | .opens key, .sys ok =>
      match s.ids key, ok with
      | some id, true => some (s.goto c (.stat id 0))
      | none, true => none
      | _, false => some (s.goto c (.stat (-1) 0))
    | .stat id i, .stat result =>
      match result with
      | .ready => if (s.sets id).isSome then some (s.ret c id) else none
      -- `sem_ctime` is never 0, the `sem_otime` of an event is until its first operation.
      | .zero => if k = .event ∧ (s.sets id).isSome then some (s.nextPass k c id i) else none
      | .failed => some (s.nextPass k c id i)
    | .discard, .sys ok => some ((s.unlinkFile ok).goto c .idle)
    | .idle, .delete id =>
      if id ∈ s.live then some ({ s with live := s.live.erase id }.goto c (.getVal id)) else none
    | .getVal id, .value result =>
      if s.sets id = none ∧ result ≠ -1 then none
      else some (s.goto c (if result = -1 then .unlink else .getNCnt id result))
    | .getNCnt id semval, .value result =>
      if s.sets id = none ∧ result ≠ -1 then none
      else some (s.goto c (if result = -1 then .unlink else .getZCnt id semval result))
    | .getZCnt id semval semncnt, .value result =>
      if s.sets id = none ∧ result ≠ -1 then none
      else some (s.goto c
        (if isOkRemove ⟨k.ipcType, id, 0⟩ semval semncnt result then .rmid id else .unlink))
    | .rmid id, .sys ok =>
      match s.sets id, ok with
      | some set, true => some ((s.remove id set).goto c .unlink)
      | none, true => none
      -- The delete answers with an error, but the handle counts as deleted.
      | _, false => some (s.goto c .idle)
    | .unlink, .sys ok => some ((s.unlinkFile ok).goto c .idle)
    | _, _ => none

/-- Any number of processes, none in a call yet, on a name without a set. -/
def system (k : Primitive) (ι : Type*) [DecidableEq ι] : System (Name ι) (ι × Act) :=
  System.ofNext (fun s => s.file = none ∧ (∀ key, s.ids key = none) ∧ (∀ id, s.sets id = none) ∧
    (∀ c, s.point c = .idle) ∧ s.live = []) (next k)

/-- What a process does in a step. -/
inductive Does (k : Primitive) (s : Name ι) (c : ι) : Act → Name ι → Prop where
  | create {value} : s.point c = .idle → Does k s c (.create value) (s.goto c (.file value))
  | fileMade {value} : s.point c = .file value → s.file = none →
      Does k s c (.sys true)
        ({ s with file := some s.files, files := s.files + 1 }.goto c (.ftok value))
  | fileKept {value ok} : s.point c = .file value → Does k s c (.sys ok) (s.goto c (.ftok value))
  | keyed {value key} : s.point c = .ftok value → s.file = some key →
      Does k s c (.sys true) (s.goto c (.get value key))
  | made {value key id errno} : s.point c = .get value key → s.ids key = none →
      s.sets id = none → 0 < id →
      Does k s c (.semget id errno)
        ((s.make key id (initValue k value)).goto c (.setVal value id))
  /-- The identifier is 0 and `errno` happens to be `EEXIST`. -/
  | madeOpens {value key} : s.point c = .get value key → s.ids key = none →
      s.sets 0 = none →
      Does k s c (.semget 0 EEXIST) ((s.make key 0 (initValue k value)).goto c (.opens key))
  | madeReturns {value key errno} : s.point c = .get value key → s.ids key = none →
      s.sets 0 = none → errno ≠ EEXIST →
      Does k s c (.semget 0 errno) ((s.make key 0 (initValue k value)).ret c 0)
  | exist {value key id} : s.point c = .get value key → s.ids key = some id →
      Does k s c (.semget (-1) EEXIST) (s.goto c (.opens key))
  | refused {value key errno} : s.point c = .get value key → errno ≠ EEXIST →
      Does k s c (.semget (-1) errno) (s.ret c (-1))
  | givenLowers {value id set} : s.point c = .setVal value id → s.sets id = some set →
      k = .event →
      Does k s c (.sys true) ((s.give id set (initValue k value)).goto c (.semop id))
  | givenReturns {value id set} : s.point c = .setVal value id → s.sets id = some set →
      Does k s c (.sys true) ((s.give id set (initValue k value)).ret c id)
  | lowered {id} : s.point c = .semop id → (s.sets id).isSome →
      Does k s c (.sys true) (s.ret c id)
  | opened {key id} : s.point c = .opens key → s.ids key = some id →
      Does k s c (.sys true) (s.goto c (.stat id 0))
  | notOpened {key} : s.point c = .opens key → Does k s c (.sys false) (s.goto c (.stat (-1) 0))
  | ready {id i} : s.point c = .stat id i → (s.sets id).isSome →
      Does k s c (.stat .ready) (s.ret c id)
  | again {id i result} : s.point c = .stat id i → result ≠ .ready →
      Does k s c (.stat result) (s.goto c (.stat id (i + 1)))
  | unready {id i result} : s.point c = .stat id i → result ≠ .ready → k = .event →
      Does k s c (.stat result) (s.ret c id)
  | fails {act} : (∀ value id, s.point c = .setVal value id → act = .sys false) →
      Does k s c act (s.goto c .discard)
  | discarded {ok} : s.point c = .discard → Does k s c (.sys ok) ((s.unlinkFile ok).goto c .idle)
  | delete {id} : s.point c = .idle → id ∈ s.live →
      Does k s c (.delete id) ({ s with live := s.live.erase id }.goto c (.getVal id))
  | reads {act point} : (s.point c).deleting = true → (point.deleting = true ∨ point = .idle) →
      Does k s c act (s.goto c point)
  | removed {id set} : s.point c = .rmid id → s.sets id = some set →
      Does k s c (.sys true) ((s.remove id set).goto c .unlink)
  | unlinked {ok} : s.point c = .unlink → Does k s c (.sys ok) ((s.unlinkFile ok).goto c .idle)

section Steps

variable {k : Primitive} {s t : Name ι} {c : ι}

theorem does_get {value : Int} {key : Nat} {id errno : Int} (hp : s.point c = .get value key)
    (h : (s.semgetExcl key (initValue k value) id errno).map (fun s =>
      if id > 0 then s.goto c (.setVal value id)
      else if errno = EEXIST then s.goto c (.opens key)
      else s.ret c id) = some t) : Does k s c (.semget id errno) t := by
  unfold semgetExcl at h
  by_cases hid : id = -1
  · subst hid
    rw [if_pos rfl] at h
    by_cases herrno : errno = EEXIST
    · subst herrno
      cases hids : s.ids key with
      | none => simp [hids] at h
      | some id =>
        simp [hids] at h
        subst h
        exact .exist hp hids
    · simp [herrno] at h
      subst h
      exact .refused hp herrno
  · rw [if_neg hid] at h
    by_cases hfree : 0 ≤ id ∧ s.ids key = none ∧ s.sets id = none
    · obtain ⟨hnonneg, hids, hsets⟩ := hfree
      rw [if_pos ⟨hnonneg, hids, hsets⟩, Option.map_some, Option.some.injEq] at h
      by_cases hpos : id > 0
      · rw [if_pos hpos] at h
        subst h
        exact .made hp hids hsets hpos
      · have hzero : id = 0 := by omega
        subst hzero
        rw [if_neg hpos] at h
        by_cases herrno : errno = EEXIST
        · subst herrno
          rw [if_pos rfl] at h
          subst h
          exact .madeOpens hp hids hsets
        · rw [if_neg herrno] at h
          subst h
          exact .madeReturns hp hids hsets herrno
    · rw [if_neg hfree] at h
      cases h

theorem does_setVal {value id : Int} {ok : Bool} (hp : s.point c = .setVal value id)
    (h : next k s (c, .sys ok) = some t) : Does k s c (.sys ok) t := by
  simp only [next, hp] at h
  cases ok with
  | false =>
    cases hset : s.sets id <;> simp only [hset, Option.some.injEq] at h <;> subst h <;>
      exact .fails fun _ _ _ => rfl
  | true =>
    cases hset : s.sets id with
    | none => simp only [hset] at h; cases h
    | some set =>
      simp only [hset] at h
      split at h
      · split at h
        · rename_i hevent
          cases h
          exact .givenLowers hp hset hevent.1
        · cases h
          exact .givenReturns hp hset
      · cases h

theorem does_nextPass {id : Int} {i : Nat} {result : StatResult} (hp : s.point c = .stat id i)
    (hresult : result ≠ .ready) : Does k s c (.stat result) (s.nextPass k c id i) := by
  unfold nextPass
  split
  · exact .again hp hresult
  · split
    · rename_i hk
      exact .unready hp hresult hk
    · exact .fails (by simp [hp])

/-- A read of a delete, while the set exists or with the result -1. -/
theorem does_reads {act : Act} {gone : Prop} [Decidable gone] {point : Point}
    (hp : (s.point c).deleting = true) (hpoint : point.deleting = true)
    (h : (if gone then none else some (s.goto c point)) = some t) : Does k s c act t := by
  split at h
  · cases h
  · cases h
    exact .reads hp (.inl hpoint)

theorem next_does {act : Act} (h : next k s (c, act) = some t) : Does k s c act t := by
  have hnext := h
  dsimp only [next] at h
  split at h
  case h_1 value hp =>
    cases h
    exact .create hp
  case h_2 value ok hp =>
    split at h
    · rename_i hfile
      obtain ⟨rfl, hfile⟩ := hfile
      cases h
      exact .fileMade hp hfile
    · cases h
      exact .fileKept hp
  case h_3 value ok hp =>
    split at h
    · rename_i hfile
      cases h
      exact .keyed hp hfile
    · cases h
    · cases h
      exact .fails (by simp [hp])
  case h_4 value key id errno hp => exact does_get hp h
  case h_5 value id ok hp => exact does_setVal hp hnext
  case h_6 id ok hp =>
    split at h
    · split at h
      · rename_i hok hset
        subst hok
        cases h
        exact .lowered hp hset
      · cases h
    · cases h
      exact .fails (by simp [hp])
  case h_7 key ok hp =>
    split at h
    · rename_i hids
      cases h
      exact .opened hp hids
    · cases h
    · cases h
      exact .notOpened hp
  case h_8 id i result hp =>
    split at h
    · split at h
      · rename_i hset
        cases h
        exact .ready hp hset
      · cases h
    · split at h
      · cases h
        exact does_nextPass hp nofun
      · cases h
    · cases h
      exact does_nextPass hp nofun
  case h_9 ok hp =>
    cases h
    exact .discarded hp
  case h_10 id hp =>
    split at h
    · rename_i hlive
      cases h
      exact .delete hp hlive
    · cases h
  case h_11 id result hp =>
    refine does_reads (by rw [hp]; rfl) ?_ h
    split <;> rfl
  case h_12 id semval result hp =>
    refine does_reads (by rw [hp]; rfl) ?_ h
    split <;> rfl
  case h_13 id semval semncnt result hp =>
    refine does_reads (by rw [hp]; rfl) ?_ h
    split <;> rfl
  case h_14 id ok hp =>
    split at h
    · rename_i hset
      cases h
      exact .removed hp hset
    · cases h
    · cases h
      exact .reads (by rw [hp]; rfl) (.inr rfl)
  case h_15 ok hp =>
    cases h
    exact .unlinked hp
  case h_16 => cases h

end Steps

/-- A name without a set, for examples. -/
def fresh : Name Bool where
  file := none
  files := 0
  ids := fun _ => none
  sets := fun _ => none
  point := fun _ => .idle
  live := []

end Name

end Gipcy.SystemV
