import Gipcy.Linux.Device
import Gipcy.Qnx.CloseUndoes

/-! The owners of the entries of the manager. The owner counts are `unsigned` and
two of the four closes never find an entry. -/
namespace Gipcy.Qnx

open PosixSemaphore Transition
open Linux (CStr Ptr Kind Record balance)

/-- The lists stay, and so do the name and the owners of each listed entry. -/
structure Quiet (drv drv' : Driver) : Prop where
  lists : drv'.mList = drv.mList
  name : ∀ k, ∀ p ∈ drv.mList k, (drv'.mem p).name = (drv.mem p).name
  owners : ∀ k, ∀ p ∈ drv.mList k, (drv'.mem p).ownerCount = (drv.mem p).ownerCount

namespace Quiet

variable {drv drv' : Driver} {p : Ptr} {e : Entry}

theorem refl (drv : Driver) : Quiet drv drv := ⟨rfl, fun _ _ _ => rfl, fun _ _ _ => rfl⟩

theorem setLock (h : Quiet drv drv') (k : Kind) (sem : Sem) : Quiet drv (drv'.setLock k sem) :=
  ⟨h.lists, h.name, h.owners⟩

theorem write (h : Quiet drv drv') (name : e.name = (drv'.mem p).name)
    (owners : e.ownerCount = (drv'.mem p).ownerCount) : Quiet drv (drv'.write p e) where
  lists := h.lists
  name := by
    intro k q hq
    by_cases hqp : q = p
    · subst hqp
      rw [Driver.write_mem_self, name, h.name k q hq]
    · rw [Driver.write_mem_ne _ _ hqp, h.name k q hq]
  owners := by
    intro k q hq
    by_cases hqp : q = p
    · subst hqp
      rw [Driver.write_mem_self, owners, h.owners k q hq]
    · rw [Driver.write_mem_ne _ _ hqp, h.owners k q hq]

theorem write_free (free : drv.Free p) : Quiet drv (drv.write p e) where
  lists := rfl
  name := fun _ _ hq => by rw [free.write_mem e hq]
  owners := fun _ _ hq => by rw [free.write_mem e hq]

end Quiet

/-- What a request does to the registries, with what it adds to the record. -/
inductive Registers (drv : Driver) : Option Record → Driver → Prop where
  | quiet {drv'} : Quiet drv drv' → Registers drv none drv'
  | found {k p drv'} : p ∈ drv.mList k → Quiet (countOwner drv p) drv' →
      Registers drv (some (.created k p false)) drv'
  | new {k p sema name drv'} : drv.Free p → findName drv k name = none →
      Quiet (insertEntry k sema drv name p) drv' → Registers drv (some (.created k p true)) drv'
  | last {k p e drv'} : p ∈ drv.mList k → ChecksOwnKind k → (drv.mem p).ownerCount = 1 →
      Quiet ((drv.write p e).setList k ((drv.mList k).erase p)) drv' →
      Registers drv (some (.closed k p)) drv'
  | busy {k p drv'} : p ∈ drv.mList k → ChecksOwnKind k → (drv.mem p).ownerCount ≠ 1 →
      Quiet (drv.write p { drv.mem p with ownerCount := (drv.mem p).ownerCount - 1 }) drv' →
      Registers drv (some (.closed k p)) drv'

/-- The record of a request: a create that returned a handle, a close that did not
answer with `EINVAL`. -/
def recordOf (lim : Limits) (drv : Driver) (malloc : Option Ptr) : Command → Option Record
  | .create k param =>
    match createOf lim k drv param malloc with
    | .done _ handle => some (.created k handle (decide (findName drv k param.name = none)))
    | _ => none
  | .close k param =>
    match closeOf lim k drv param with
    | .done _ error => if error = -EINVAL then none else some (.closed k param.handle)
    | _ => none
  | _ => none

/-- The manager with the record of its registry requests, the newest first. -/
structure Ledger where
  server : Server
  log : List Record

namespace Ledger

def next {ι : Type*} (lim : Limits) (s : Ledger) (a : ι × Move) : Option Ledger :=
  (s.server.next lim a).map fun server => ⟨server,
    match a.2 with
    | .request command malloc => (recordOf lim s.server.drv malloc command).toList ++ s.log
    | _ => s.log⟩

def system (lim : Limits) (ι : Type*) : System Ledger (ι × Move) :=
  .ofNext (fun s => (∃ mem, s.server = ⟨createInstance lim mem, .receiving, none⟩) ∧ s.log = [])
    (next lim)

end Ledger

section Requests

variable {lim : Limits} {drv : Driver} {k : Kind}

theorem objectLock_quiet (h : Open drv) (failed : Int → Int) (param : IpcLock) (clock : Clock) :
    (objectLock lim k failed drv param clock).All (Quiet drv) := by
  have outcome := objectLock_outcome (k := k) lim h failed param clock
  generalize objectLock lim k failed drv param clock = r at outcome
  have hquiet := Quiet.refl drv
  cases outcome with
  | refused sem | waits sem | failed sem => exact hquiet.setLock k sem
  | took sem n =>
    have htook : Quiet drv (drv.write param.handle { drv.mem param.handle with
        sema := some n, lockCount := (drv.mem param.handle).lockCount + 1 }) :=
      hquiet.write rfl rfl
    exact htook.setLock k sem
  | unheeded sem => exact (hquiet.setLock k sem).write rfl rfl
  | overflow => trivial

theorem objectUnlock_quiet (h : Open drv) (id : UInt32) (handle : Ptr) :
    (objectUnlock lim k id drv handle).All (Quiet drv) := by
  unfold objectUnlock
  split
  · exact .refl drv
  · obtain ⟨sem, -, heq⟩ := handleCheck_eq lim k h id handle (fun drv exist => _)
    rw [heq]
    have hquiet := (Quiet.refl drv).setLock k sem
    split
    · exact hquiet.write rfl rfl
    · exact hquiet

theorem create_registers (h : Open drv) (wf : drv.WellFormed) {param : IpcCreate}
    {malloc : Option Ptr} (free : ∀ p, malloc = some p → drv.Free p) :
    (createOf lim k drv param malloc).All
      (Registers drv (recordOf lim drv malloc (.create k param))) := by
  simp only [recordOf]
  rw [createOf_eq]
  cases hfind : findName drv k param.name with
  | some p =>
    have hp := mem_of_findName hfind
    have hends := registryCreate_found lim (initOf lim k) malloc h hfind
    obtain ⟨sem, -, heq⟩ := hends
    rw [heq, wf.handle k p hp]
    simp only [reduceCtorEq, decide_false]
    exact .found hp ((Quiet.refl _).setLock k sem)
  | none =>
    cases malloc with
    | none =>
      rw [registryCreate_undefined h hfind]
      trivial
    | some p =>
      obtain ⟨sem, -, heq⟩ := registryCreate_new lim (initOf lim k) p h hfind
      rw [heq]
      simp only [decide_true]
      exact .new (free p rfl) hfind ((Quiet.refl _).setLock k sem)

theorem close_registers (h : Open drv) (wf : drv.WellFormed) (malloc : Option Ptr)
    (handle : Ptr) :
    (closeOf lim k drv ⟨handle⟩).All
      (Registers drv (recordOf lim drv malloc (.close k ⟨handle⟩))) := by
  simp only [recordOf]
  by_cases refused : handle ∉ drv.mList k ∨ acceptsOf k (drv.mem handle) = false
  · obtain ⟨sem, -, heq⟩ := closeOf_refused lim h refused
    rw [heq]
    exact .quiet ((Quiet.refl drv).setLock k sem)
  · have hp : handle ∈ drv.mList k := Classical.not_not.mp fun hp => refused (.inl hp)
    have accepts : acceptsOf k (drv.mem handle) = true :=
      (Bool.not_eq_false _).mp fun ha => refused (.inr ha)
    have own := (acceptsOf_iff (wf.id k handle hp)).mp accepts
    have notNull := wf.notNull k handle hp
    by_cases last : (drv.mem handle).ownerCount = 1
    · obtain ⟨sem, -, heq⟩ := closeOf_last lim h (wf.nodup k) hp notNull accepts last
      rw [heq]
      exact .last hp own last ((Quiet.refl _).setLock k sem)
    · obtain ⟨sem, -, heq⟩ := closeOf_busy lim h (wf.nodup k) hp notNull accepts last
      rw [heq]
      exact .busy hp own last ((Quiet.refl _).setLock k sem)

theorem Result.All.of_quiet {α : Type} {r : Result α} (h : r.All (Quiet drv)) :
    r.All (Registers drv none) := by
  cases r with
  | done | waits => exact .quiet h
  | undefined => trivial

/-- Every command moves the registries as its record says. -/
theorem ioDevctl_registers (h : Open drv) (wf : drv.WellFormed) {malloc : Option Ptr}
    (free : ∀ p, malloc = some p → drv.Free p) (command : Command) :
    (ioDevctl lim drv malloc command).All (Registers drv (recordOf lim drv malloc command)) := by
  cases command with
  | create k param =>
    rw [ioDevctl_create_eq]
    exact (create_registers h wf free).map _
  | lock k param clock =>
    cases k with
    | shm => exact .quiet (.refl drv)
    | _ => exact (objectLock_quiet h _ param clock).of_quiet.map _
  | unlock k param =>
    cases k with
    | shm => exact .quiet (.refl drv)
    | _ => exact (objectUnlock_quiet h _ _).of_quiet.map _
  | close k param =>
    rw [ioDevctl_close_eq]
    exact (close_registers h wf malloc param.handle).map _
  | eventReset param => exact (objectUnlock_quiet h _ _).of_quiet.map _
  | unknown => exact .quiet (.refl drv)

end Requests

section Balance

variable {k l : Kind} {p q : Ptr} {log : List Record}

theorem balance_found : balance l q (.created k p false :: log) =
    balance l q log + if l = k ∧ q = p then 1 else 0 := by
  by_cases h : k = l ∧ p = q
  · simp [balance, h]
  · have h' : ¬ (l = k ∧ q = p) := fun e => h ⟨e.1.symm, e.2.symm⟩
    simp [balance, h, h']

theorem balance_new : balance l q (.created k p true :: log) =
    if l = k ∧ q = p then 1 else balance l q log := by
  by_cases h : k = l ∧ p = q
  · simp [balance, h]
  · have h' : ¬ (l = k ∧ q = p) := fun e => h ⟨e.1.symm, e.2.symm⟩
    simp [balance, h, h']

theorem balance_closed : balance l q (.closed k p :: log) =
    balance l q log - if l = k ∧ q = p then 1 else 0 := by
  by_cases h : k = l ∧ p = q
  · simp [balance, h]
  · have h' : ¬ (l = k ∧ q = p) := fun e => h ⟨e.1.symm, e.2.symm⟩
    simp [balance, h, h']

theorem balance_le_length (k : Kind) (p : Ptr) (log : List Record) :
    balance k p log ≤ log.length := by
  induction log with
  | nil => exact Int.le_refl 0
  | cons record log ih =>
    rw [List.length_cons]
    cases record with
    | created l q inserted =>
      cases inserted with
      | false => rw [balance_found]; split <;> omega
      | true => rw [balance_new]; split <;> omega
    | closed l q => rw [balance_closed]; split <;> omega

theorem ofInt_sub_one (b : Int) : UInt32.ofInt (b - 1) = UInt32.ofInt b - 1 := by
  rw [Int.sub_eq_add_neg, UInt32.ofInt_add, UInt32.ofInt_neg_one, UInt32.sub_eq_add_neg]

theorem ofInt_eq_one_iff {b : Int} (nonneg : 0 ≤ b) (lt : b < 2 ^ 32) :
    UInt32.ofInt b = 1 ↔ b = 1 := by
  have hmod : b.toNat % 2 ^ 32 = b.toNat := Nat.mod_eq_of_lt (by omega)
  have hone : (1 : UInt32).toNat = 1 := rfl
  rw [← UInt32.toNat_inj, hone, UInt32.ofInt, Int.emod_eq_of_lt nonneg (by omega),
    UInt32.toNat_ofNat', hmod]
  omega

end Balance

/-- What the lists hold after the requests of a record. The owner counts are right up to
overflow, the lists are right as long as the record is too short for one. -/
structure Counted (drv : Driver) (log : List Record) : Prop where
  names : ∀ k, ∀ p ∈ drv.mList k, ∀ q ∈ drv.mList k, (drv.mem p).name = (drv.mem q).name → p = q
  owners : ∀ k, ∀ p ∈ drv.mList k, (drv.mem p).ownerCount = UInt32.ofInt (balance k p log)
  closes : ∀ k p, .closed k p ∈ log → ChecksOwnKind k
  listed : log.length < 2 ^ 32 → ∀ k p,
    0 ≤ balance k p log ∧ (p ∈ drv.mList k ↔ 0 < balance k p log)

namespace Counted

variable {drv drv' : Driver} {log : List Record} {k : Kind} {p : Ptr}

theorem quiet (h : Counted drv log) (same : Quiet drv drv') : Counted drv' log where
  names := by
    intro k p hp q hq
    rw [same.lists] at hp hq
    rw [same.name k p hp, same.name k q hq]
    exact h.names k p hp q hq
  owners := by
    intro k p hp
    rw [same.lists] at hp
    rw [same.owners k p hp]
    exact h.owners k p hp
  closes := h.closes
  listed := by
    rw [same.lists]
    exact h.listed

/-- The owners of one entry are counted up or down. -/
theorem write (wf : drv.WellFormed) (h : Counted drv log) (hp : p ∈ drv.mList k) {count : UInt32}
    {log' : List Record} (closes : ∀ k p, .closed k p ∈ log' → ChecksOwnKind k)
    (self : count = UInt32.ofInt (balance k p log'))
    (other : ∀ l q, ¬ (l = k ∧ q = p) → balance l q log' = balance l q log)
    (longer : log.length ≤ log'.length)
    (listed : log'.length < 2 ^ 32 → 0 < balance k p log → 0 < balance k p log') :
    Counted (drv.write p { drv.mem p with ownerCount := count }) log' where
  names := by
    intro l q hq r hr
    have hname : ∀ q, ((drv.write p { drv.mem p with ownerCount := count }).mem q).name =
        (drv.mem q).name := by
      intro q
      by_cases hqp : q = p
      · subst hqp
        rw [Driver.write_mem_self]
      · rw [drv.write_mem_ne _ hqp]
    rw [hname q, hname r]
    exact h.names l q hq r hr
  owners := by
    intro l q hq
    by_cases hqp : q = p
    · subst hqp
      obtain rfl := wf.kind _ _ _ hp hq
      rw [Driver.write_mem_self]
      exact self
    · rw [drv.write_mem_ne _ hqp, other l q fun e => hqp e.2]
      exact h.owners l q hq
  closes := closes
  listed := by
    intro short l q
    by_cases hown : l = k ∧ q = p
    · obtain ⟨rfl, rfl⟩ := hown
      have hpos := listed short ((h.listed (by omega) l q).2.mp hp)
      exact ⟨by omega, iff_of_true hp hpos⟩
    · rw [other l q hown]
      exact h.listed (by omega) l q

theorem mem_insertEntry {l : Kind} {q : Ptr} {sema : Sem} {name : CStr 128} :
    q ∈ (insertEntry k sema drv name p).mList l ↔ q ∈ drv.mList l ∨ l = k ∧ q = p := by
  by_cases hl : l = k
  · subst hl
    simp [insertEntry]
  · rw [insertEntry, Driver.setList_mList_ne _ _ _ _ hl]
    simp [hl]

/-- An entry is made; its name is new. -/
theorem insert (h : Counted drv log) (free : drv.Free p) {name : CStr 128} (sema : Sem)
    (hname : findName drv k name = none) :
    Counted (insertEntry k sema drv name p) (.created k p true :: log) where
  names := by
    have hself : ((insertEntry k sema drv name p).mem p).name = name := by
      simp [insertEntry, newEntry]
    have hother : ∀ {l q}, q ∈ drv.mList l → (insertEntry k sema drv name p).mem q = drv.mem q :=
      fun hq => free.write_mem _ hq
    have hnew : ∀ q ∈ drv.mList k, (drv.mem q).name ≠ name := fun q hq =>
      by simpa using List.find?_eq_none.mp hname q hq
    intro l q hq r hr heq
    rcases mem_insertEntry.mp hq with hold | ⟨rfl, rfl⟩ <;>
      rcases mem_insertEntry.mp hr with hold' | ⟨hl, rfl⟩
    · rw [hother hold, hother hold'] at heq
      exact h.names l q hold r hold' heq
    · subst hl
      rw [hother hold, hself] at heq
      exact absurd heq (hnew q hold)
    · rw [hother hold', hself] at heq
      exact absurd heq.symm (hnew r hold')
    · rfl
  owners := by
    intro l q hq
    rw [balance_new]
    rcases mem_insertEntry.mp hq with hq | ⟨rfl, rfl⟩
    · have hqp : q ≠ p := fun e => free.2 l (e ▸ hq)
      have hmem : (insertEntry k sema drv name p).mem q = drv.mem q := free.write_mem _ hq
      rw [hmem, if_neg fun e => hqp e.2]
      exact h.owners l q hq
    · simp [insertEntry, newEntry]
  closes := by
    intro l q hq
    simp only [List.mem_cons, reduceCtorEq, false_or] at hq
    exact h.closes l q hq
  listed := by
    intro short l q
    rw [List.length_cons] at short
    obtain ⟨hnonneg, hiff⟩ := h.listed (by omega) l q
    rw [balance_new, mem_insertEntry, hiff]
    split
    · rename_i hown
      simp [hown]
    · rename_i hown
      simp [hown, hnonneg]

/-- An entry is taken away with its last owner. -/
theorem erase (wf : drv.WellFormed) (h : Counted drv log) (hp : p ∈ drv.mList k)
    (own : ChecksOwnKind k) (last : (drv.mem p).ownerCount = 1) (e : Entry) :
    Counted ((drv.write p e).setList k ((drv.mList k).erase p)) (.closed k p :: log) := by
  have member : ∀ l q, q ∈ ((drv.write p e).setList k ((drv.mList k).erase p)).mList l ↔
      q ∈ drv.mList l ∧ q ≠ p := by
    intro l q
    by_cases hl : l = k
    · subst hl
      rw [Driver.setList_mList_self, (wf.nodup l).mem_erase_iff]
      exact and_comm
    · rw [Driver.setList_mList_ne _ _ _ _ hl]
      refine ⟨fun hq => ⟨hq, ?_⟩, fun hq => hq.1⟩
      rintro rfl
      exact hl (wf.kind _ _ _ hp hq)
  have hmem : ∀ {q}, q ≠ p →
      ((drv.write p e).setList k ((drv.mList k).erase p)).mem q = drv.mem q := fun hq =>
    drv.write_mem_ne e hq
  refine ⟨fun l q hq r hr heq => ?_, fun l q hq => ?_, fun l q hq => ?_, fun short l q => ?_⟩
  · obtain ⟨hq, hqp⟩ := (member l q).mp hq
    obtain ⟨hr, hrp⟩ := (member l r).mp hr
    rw [hmem hqp, hmem hrp] at heq
    exact h.names l q hq r hr heq
  · obtain ⟨hq, hqp⟩ := (member l q).mp hq
    rw [hmem hqp, balance_closed, if_neg fun e => hqp e.2, Int.sub_zero]
    exact h.owners l q hq
  · rcases List.mem_cons.mp hq with hq | hq
    · cases hq
      exact own
    · exact h.closes l q hq
  · rw [List.length_cons] at short
    have hle := balance_le_length l q log
    obtain ⟨hnonneg, hiff⟩ := h.listed (by omega) l q
    rw [member l q, balance_closed]
    by_cases hown : l = k ∧ q = p
    · -- The count of the last owner is 1, and so is the balance.
      obtain ⟨rfl, rfl⟩ := hown
      rw [h.owners l q hp, ofInt_eq_one_iff hnonneg (by omega)] at last
      simp [last]
    · have hqp : q ∈ drv.mList l → q ≠ p := by
        rintro hq rfl
        exact hown ⟨wf.kind _ _ _ hp hq, rfl⟩
      rw [if_neg hown, Int.sub_zero, ← hiff]
      exact ⟨hnonneg, fun hq => hq.1, fun hq => ⟨hq, hqp hq⟩⟩

theorem registers (wf : drv.WellFormed) (h : Counted drv log) {record : Option Record}
    (r : Registers drv record drv') : Counted drv' (record.toList ++ log) := by
  cases r with
  | quiet same => exact h.quiet same
  | @found k p _ hp same =>
    refine (h.write wf hp ?_ ?_ ?_ (Nat.le_succ _) ?_).quiet same
    · intro l q hq
      simp only [Option.toList_some, List.singleton_append, List.mem_cons, reduceCtorEq,
        false_or] at hq
      exact h.closes l q hq
    · simp [balance_found, h.owners k p hp]
    · intro l q hown
      simp [balance_found, hown]
    · intro _ hpos
      simp only [Option.toList_some, List.singleton_append, balance_found, and_self, ↓reduceIte]
      omega
  | new free hname same => exact (h.insert free _ hname).quiet same
  | last hp own last same => exact (h.erase wf hp own last _).quiet same
  | @busy k p _ hp own more same =>
    refine (h.write wf hp ?_ ?_ ?_ (Nat.le_succ _) ?_).quiet same
    · intro l q hq
      rcases List.mem_cons.mp hq with hq | hq
      · cases hq
        exact own
      · exact h.closes l q hq
    · simp [balance_closed, h.owners k p hp, ofInt_sub_one]
    · intro l q hown
      simp [balance_closed, hown]
    · intro short hpos
      have hle := balance_le_length k p log
      simp only [Option.toList_some, List.singleton_append, List.length_cons] at short
      simp only [Option.toList_some, List.singleton_append, balance_closed, and_self, ↓reduceIte]
      rw [h.owners k p hp] at more
      have hone := (ofInt_eq_one_iff (Int.le_of_lt hpos) (by omega)).not.mp more
      omega

end Counted

/-- A request with an undefined end has recorded nothing. -/
theorem recordOf_undefined {lim : Limits} {drv : Driver} {malloc : Option Ptr} {command : Command}
    (h : ioDevctl lim drv malloc command = .undefined) :
    recordOf lim drv malloc command = none := by
  have hmap : ∀ {α : Type} {r : Result α} (f : α → Reply),
      r.map f = .undefined → r = .undefined := by
    intro α r f hr
    cases r <;> first | rfl | cases hr
  cases command with
  | create k param =>
    rw [ioDevctl_create_eq] at h
    simp only [recordOf, hmap _ h]
  | close k param =>
    rw [ioDevctl_close_eq] at h
    simp only [recordOf, hmap _ h]
  | _ => rfl

namespace Ledger

variable {lim : Limits} {ι : Type*} {s : Ledger}

theorem counted_request (h : Open s.server.drv) (wf : s.server.drv.WellFormed)
    (counted : Counted s.server.drv s.log) {malloc : Option Ptr}
    (free : ∀ p, malloc = some p → s.server.drv.Free p) (command : Command) :
    Counted (s.server.after (ioDevctl lim s.server.drv malloc command)).drv
      ((recordOf lim s.server.drv malloc command).toList ++ s.log) := by
  have hall : (ioDevctl lim s.server.drv malloc command).All _ :=
    ioDevctl_registers h wf free command
  cases hr : ioDevctl lim s.server.drv malloc command with
  | done drv reply =>
    rw [hr] at hall
    exact counted.registers wf hall
  | waits drv on =>
    rw [hr] at hall
    exact counted.registers wf hall
  | undefined =>
    rw [recordOf_undefined hr]
    exact counted

theorem counted_reachable (h : (system lim ι).Reachable s) :
    (Server.system lim ι).Reachable s.server ∧ Counted s.server.drv s.log := by
  apply h.invariant (I := fun s => (Server.system lim ι).Reachable s.server ∧
    Counted s.server.drv s.log)
  · rintro ⟨server, log⟩ ⟨⟨mem, hserver⟩, hlog⟩
    dsimp only at hserver hlog
    subst hserver hlog
    refine ⟨.init ⟨mem, rfl⟩, ⟨?_, ?_, ?_, ?_⟩⟩
    · exact fun k p hp => absurd hp List.not_mem_nil
    · exact fun k p hp => absurd hp List.not_mem_nil
    · exact fun k p hp => absurd hp List.not_mem_nil
    · exact fun _ k p => ⟨Int.le_refl 0, iff_of_false List.not_mem_nil (Int.lt_irrefl 0)⟩
  · rintro s ⟨c, move⟩ t - ⟨hr, counted⟩ step
    obtain ⟨server, hserver, rfl⟩ := Option.map_eq_some_iff.mp step
    refine ⟨hr.step hserver, ?_⟩
    cases move with
    | request command malloc =>
      obtain ⟨⟨-, free⟩, hserver⟩ := Option.ite_none_right_eq_some.mp hserver
      cases hserver
      exact counted_request (Server.open_reachable hr) (Server.wellFormed_reachable hr) counted
        free command
    | expire errno =>
      simp only [Server.next] at hserver
      split at hserver <;> cases hserver
      exact counted
    | scribble p e =>
      obtain ⟨free, hserver⟩ := Option.ite_none_right_eq_some.mp hserver
      cases hserver
      exact counted.quiet (.write_free free)

section Claims

/-- In every run of the manager, whatever the order of the requests, the waits that end
and the writes of others to its free memory: the names of a registry are distinct; the
owners of an entry are the creates that returned it less the closes that took one, up to
2 ^ 32; below that many requests a handle is listed exactly while that is positive, and a
close of it frees the entry with the last owner, unless its kind is one that refuses every
close. -/
theorem registries_counted (h : (system lim ι).Reachable s) :
    (∀ k, ((s.server.drv.mList k).map fun p => (s.server.drv.mem p).name).Nodup) ∧
    (∀ k, ∀ p ∈ s.server.drv.mList k,
      (s.server.drv.mem p).ownerCount = UInt32.ofInt (balance k p s.log)) ∧
    (∀ k p, .closed k p ∈ s.log → ChecksOwnKind k) ∧
    (s.log.length < 2 ^ 32 → ∀ k p,
      (p ∈ s.server.drv.mList k ↔ 0 < balance k p s.log) ∧
      (ChecksOwnKind k → balance k p s.log = 1 → ∃ drv,
        closeOf lim k s.server.drv ⟨p⟩ = .done drv 0 ∧ p ∉ drv.mList k) ∧
      (ChecksOwnKind k → 1 < balance k p s.log → ∃ drv,
        closeOf lim k s.server.drv ⟨p⟩ = .done drv (-EBUSY) ∧ p ∈ drv.mList k)) := by
  obtain ⟨hr, counted⟩ := counted_reachable h
  have hopen := Server.open_reachable hr
  have wf := Server.wellFormed_reachable hr
  refine ⟨fun k => ?_, counted.owners, counted.closes, fun short k p => ?_⟩
  · exact (wf.nodup k).map_on fun p hp q hq => counted.names k p hp q hq
  · obtain ⟨hnonneg, hiff⟩ := counted.listed short k p
    have hle := balance_le_length k p s.log
    have hone := ofInt_eq_one_iff hnonneg (by omega)
    refine ⟨hiff, fun own hbalance => ?_, fun own hbalance => ?_⟩
    · have hp := hiff.mpr (by omega)
      obtain ⟨sem, -, heq⟩ := closeOf_last lim hopen (wf.nodup k) hp (wf.notNull k p hp)
        ((acceptsOf_iff (wf.id k p hp)).mpr own)
        ((counted.owners k p hp).trans (hone.mpr hbalance))
      refine ⟨_, heq, ?_⟩
      rw [Driver.setLock_mList, Driver.setList_mList_self]
      exact (wf.nodup k).not_mem_erase
    · have hp := hiff.mpr (by omega)
      obtain ⟨sem, -, heq⟩ := closeOf_busy lim hopen (wf.nodup k) hp (wf.notNull k p hp)
        ((acceptsOf_iff (wf.id k p hp)).mpr own)
        (by rw [counted.owners k p hp, Ne, hone]; omega)
      exact ⟨_, heq, hp⟩

/-- Two creates of a semaphore and one close. -/
theorem registries_counted_twice : ∃ s, (system leastLimits Unit).Reachable s ∧
    s.log.length < 2 ^ 32 ∧ s.server.drv.mList .sem = [4096] ∧
      0 < balance .sem 4096 s.log := by
  refine exists_reachable_of_run ⟨freshServer, []⟩
    [((), .request (.create .sem ⟨CStr.x, 1, 0⟩) (some 4096)),
      ((), .request (.create .sem ⟨CStr.x, 1, 0⟩) (some 8192)),
      ((), .request (.close .sem ⟨4096⟩) none)]
    (fun s => decide (s.log.length < 2 ^ 32 ∧ s.server.drv.mList .sem = [4096])) ⟨⟨_, rfl⟩, rfl⟩
    (by decide +kernel) fun s hs hp => ?_
  obtain ⟨hshort, hlist⟩ := of_decide_eq_true hp
  exact ⟨hshort, hlist, ((registries_counted hs).2.2.2 hshort .sem 4096).1.mp (by simp [hlist])⟩

end Claims

end Ledger

end Gipcy.Qnx
