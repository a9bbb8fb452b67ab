import Gipcy.Lib.Clients
import Gipcy.Linux.Concurrent

/-! The registry mutexes: which one a client holds at each point, what each step
does to them, and what holds between any two steps. -/
namespace Gipcy.Linux

open CountingSemaphore Transition Clients

/-- A create that takes the unit of its semaphore initialises it. -/
theorem semaInit_mem_newStmts {k : Kind} {param : IpcCreate} (h : .down ∈ newStmts k param) :
    .semaInit ∈ newStmts k param := by
  cases k <;> simp_all [newStmts]

theorem newStmts_length (k : Kind) (param : IpcCreate) : (newStmts k param).length ≤ 9 := by
  cases k with
  | mutex =>
    by_cases hv : param.value = 0 <;> simp [newStmts, hv]
  | _ => simp [newStmts]

/-- Each statement occurs once. -/
theorem newStmts_nodup (k : Kind) (param : IpcCreate) : (newStmts k param).Nodup := by
  cases k with
  | mutex =>
    by_cases hv : param.value = 0 <;> simp [newStmts, hv]
  | _ => simp [newStmts]

def Op.has : Op → Point → Bool
  | .lock, .lockTest | .lock, .lockDown | .lock, .lockInc | .lock, .lockSet => true
  | .unlock, .unlockTest | .unlock, .unlockClear | .unlock, .unlockUp | .unlock, .unlockDec => true
  | .reset, .unlockTest | .reset, .unlockClear | .reset, .unlockUp | .reset, .unlockDec => true
  | _, _ => false

/-- A call is at a point that its kind and its operation have. -/
def Call.Fits (call : Call) : Prop :=
  call.kind.has call.point = true ∧ call.op.has call.point = true

theorem firstPoint_op_has {k : Kind} {op : Op} {point : Point}
    (h : firstPoint k op = some point) : op.has point = true := by
  cases k <;> cases op <;> cases h <;> rfl

theorem Effect.op_has {call : Call} {how : WaitEnd} {e e' : Entry} {point : Point}
    (h : Effect call how e e' (.goto point)) (hp : call.op.has call.point = true) :
    call.op.has point = true := by
  cases h <;> cases hop : call.op <;> simp_all [Op.has]

namespace Concurrent

variable {ι : Type*} {s : Concurrent ι} {c : ι} {how : WaitEnd}
  {kzalloc : Option Ptr} {pc : Pc} {m : Moved ι}

/-- The registry mutex that a client holds. -/
def holds : Pc → Option Kind
  | .search k _ _ | .allocate k _ | .fresh k _ _ _ | .countOwner k _ | .createLeave k => some k
  | .check _ call | .checkLeave _ call _ => some call.kind
  | .closeCheck k _ | .scan k _ _ | .listDel k _ | .kfree k _ | .closeLeave k => some k
  | .idle | .createEnter _ _ | .checkEnter _ _ | .access _ _ | .closeEnter _ _ => none

/-- The new entry that a client fills. -/
def freshAt : Pc → Option Ptr
  | .fresh _ _ p _ => some p
  | _ => none

/-- A wait on the semaphore of an object, which has no unit. -/
def Blocked (s : Concurrent ι) (c : ι) : Prop :=
  match s.pcs c with
  | .access p call => call.point = .lockDown ∧ (s.mem p).sema ≤ 0
  | .fresh _ _ p (.down :: _) => (s.mem p).sema ≤ 0
  | _ => False

/-- A new mutex that is to be locked, between its `sema_init` and the `down`. -/
def Claims (p : Ptr) : Pc → Prop
  | .fresh _ _ q todo => q = p ∧ .down ∈ todo ∧ .semaInit ∉ todo
  | _ => False

/-- No lock request takes the unit that a mutex has for the `down` of its create. -/
def Orderly (s : Concurrent ι) (a : ι × Move) : Prop :=
  ∀ p call kzalloc, s.pcs a.1 = .access p call → call.point = .lockDown →
    a.2 = .step .acquired kzalloc → ∀ d, ¬ Claims p (s.pcs d)

/-- The steps until the mutex is released, at most; `ps` is the registry list. -/
def remaining (ps : List Ptr) : Pc → Nat
  | .search _ _ rest => rest.length + 14
  | .allocate _ _ => 13
  | .fresh _ _ _ todo => todo.length + 3
  | .countOwner _ _ => 2
  | .createLeave _ => 1
  | .check _ _ => 2
  | .checkLeave _ _ _ => 1
  | .closeCheck _ _ => ps.length + 5
  | .scan _ _ rest => rest.length + 4
  | .listDel _ _ => 3
  | .kfree _ _ => 2
  | .closeLeave _ => 1
  | .idle | .createEnter _ _ | .checkEnter _ _ | .access _ _ | .closeEnter _ _ => 0

/-- What a point requires of its request and of the memory. -/
def Fine (mem : Ptr → Entry) : Pc → Prop
  | .fresh k param p todo =>
    todo <:+ newStmts k param ∧ (.down ∈ todo → .semaInit ∉ todo → 1 ≤ (mem p).sema)
  | .checkEnter _ call | .check _ call | .checkLeave _ call _ | .access _ call => call.Fits
  | _ => True

/-- The `mutex_lock` of a request, its only wait for a registry. -/
def entering : Pc → Option Kind
  | .createEnter k _ => some k
  | .checkEnter _ call => some call.kind
  | .closeEnter k _ => some k
  | _ => none

def inLock : Pc → Bool
  | .checkEnter _ call | .check _ call | .checkLeave _ call _ | .access _ call => call.op = .lock
  | _ => false

/-- A step inside a request to a point where no entry is filled. -/
structure Plain (pc pc' : Pc) : Prop where
  fresh : freshAt pc' = none
  entered : entering pc' = none
  lock : inLock pc' = inLock pc ∨ inLock pc' = false
  fine : ∀ mem mem', Fine mem pc → Fine mem' pc'

/-- What the steps of a client do, by their effect on the rest. -/
inductive Stepped (s : Concurrent ι) (c : ι) (how : WaitEnd) (kzalloc : Option Ptr) (pc : Pc) :
    Moved ι → Prop where
  | enters {k pc'} : s.locks k = none → entering pc = some k → holds pc' = some k → Plain pc pc' →
      Stepped s c how kzalloc pc
        { s.moved pc' with locks := Function.update s.locks k (some c) }
  | leaves {k pc'} : holds pc = some k → holds pc' = none → Plain pc pc' →
      Stepped s c how kzalloc pc (s.leave k pc')
  | reads {k pc'} : holds pc = some k → holds pc' = some k → Plain pc pc' →
      remaining (s.mList k) pc' < remaining (s.mList k) pc →
      Stepped s c how kzalloc pc (s.moved pc')
  | counts {k p pc'} (n : Int) : holds pc = some k → holds pc' = some k → Plain pc pc' →
      remaining (s.mList k) pc' < remaining (s.mList k) pc →
      Stepped s c how kzalloc pc (s.write p { s.mem p with ownerCount := n } pc')
  | lists {k pc'} (ps : List Ptr) : holds pc = some k → holds pc' = some k → Plain pc pc' →
      remaining ps pc' < remaining (s.mList k) pc →
      Stepped s c how kzalloc pc { s.moved pc' with mList := Function.update s.mList k ps }
  | allocates {k param p} : pc = .allocate k param → kzalloc = some p →
      Stepped s c how kzalloc pc (s.write p Entry.zero (.fresh k param p (newStmts k param)))
  | fills {k param p stmt todo e} : pc = .fresh k param p (stmt :: todo) →
      stmt.run k param p how (s.mem p) = some e →
      Stepped s c how kzalloc pc (s.write p e (.fresh k param p todo))
  | accesses {p call e nx} : pc = .access p call → Effect call how (s.mem p) e nx →
      Stepped s c how kzalloc pc (s.write p e (afterAccess p call nx))

theorem enter_stepped {k : Kind} {pc' : Pc} (h : s.enter c k pc' = some m)
    (hk : entering pc = some k) (hk' : holds pc' = some k) (plain : Plain pc pc') :
    Stepped s c how kzalloc pc m := by
  obtain ⟨free, h⟩ := Option.ite_none_right_eq_some.mp h
  cases h
  exact .enters free hk hk' plain

theorem step_stepped (h : s.step c how kzalloc pc = some m) :
    Stepped s c how kzalloc pc m := by
  have out : ∀ {pc'}, freshAt pc' = none → entering pc' = none → inLock pc' = false →
      (∀ mem, Fine mem pc') → Plain pc pc' :=
    fun hf he hl h => ⟨hf, he, .inr hl, fun _ mem _ => h mem⟩
  cases pc with
  | idle => cases h
  | createEnter k param => exact enter_stepped h rfl rfl (out rfl rfl rfl fun _ => trivial)
  | closeEnter k handle => exact enter_stepped h rfl rfl (out rfl rfl rfl fun _ => trivial)
  | checkEnter handle call =>
    exact enter_stepped h rfl rfl ⟨rfl, rfl, .inl rfl, fun _ _ fits => fits⟩
  | search k param rest =>
    cases rest with
    | nil =>
      cases h
      exact .reads rfl rfl (out rfl rfl rfl fun _ => trivial) (by simp [remaining])
    | cons p rest =>
      cases h
      split
      · exact .reads rfl rfl (out rfl rfl rfl fun _ => trivial) (by simp [remaining])
      · exact .reads rfl rfl (out rfl rfl rfl fun _ => trivial) (by simp [remaining])
  | allocate k param =>
    cases kzalloc with
    | none =>
      cases h
      exact .reads rfl rfl (out rfl rfl rfl fun _ => trivial) (by simp [remaining])
    | some p =>
      cases h
      exact .allocates rfl rfl
  | fresh k param p todo =>
    cases todo with
    | nil =>
      cases h
      exact .lists _ rfl rfl (out rfl rfl rfl fun _ => trivial) (by simp [remaining])
    | cons stmt todo =>
      obtain ⟨e, he, rfl⟩ := Option.map_eq_some_iff.mp h
      exact .fills rfl he
  | countOwner k p =>
    cases h
    exact .counts _ rfl rfl (out rfl rfl rfl fun _ => trivial) (by simp [remaining])
  | createLeave k =>
    cases h
    exact .leaves rfl rfl (out rfl rfl rfl fun _ => trivial)
  | check handle call =>
    cases h
    exact .reads rfl rfl ⟨rfl, rfl, .inl rfl, fun _ _ fits => fits⟩ (by simp [remaining])
  | checkLeave handle call exist =>
    cases h
    cases exist with
    | false => exact .leaves rfl rfl (out rfl rfl rfl fun _ => trivial)
    | true => exact .leaves rfl rfl ⟨rfl, rfl, .inl rfl, fun _ _ fits => fits⟩
  | access p call =>
    obtain ⟨⟨e, nx⟩, ha, rfl⟩ := Option.map_eq_some_iff.mp h
    exact .accesses rfl (access_effect ha)
  | closeCheck k handle =>
    simp only [step] at h
    split at h <;> cases h
    · exact .reads rfl rfl (out rfl rfl rfl fun _ => trivial) (by simp [remaining])
    · exact .reads rfl rfl (out rfl rfl rfl fun _ => trivial) (by simp [remaining])
  | scan k p rest =>
    cases rest with
    | nil =>
      cases h
      exact .reads rfl rfl (out rfl rfl rfl fun _ => trivial) (by simp [remaining])
    | cons q rest =>
      simp only [step] at h
      split at h <;> cases h
      · split
        · exact .counts _ rfl rfl (out rfl rfl rfl fun _ => trivial) (by simp [remaining])
        · exact .counts _ rfl rfl (out rfl rfl rfl fun _ => trivial) (by simp [remaining])
      · exact .reads rfl rfl (out rfl rfl rfl fun _ => trivial) (by simp [remaining])
  | listDel k p =>
    cases h
    exact .lists _ rfl rfl (out rfl rfl rfl fun _ => trivial) (by simp [remaining])
  | kfree k p =>
    cases h
    exact .reads rfl rfl (out rfl rfl rfl fun _ => trivial) (by simp [remaining])
  | closeLeave k =>
    cases h
    exact .leaves rfl rfl (out rfl rfl rfl fun _ => trivial)

theorem remaining_of_holds_none {ps : List Ptr} (h : holds pc = none) : remaining ps pc = 0 := by
  cases pc <;> first | rfl | cases h

theorem holds_of_entering {k : Kind} (h : entering pc = some k) : holds pc = none := by
  cases pc <;> first | rfl | cases h

theorem remaining_pos {ps : List Ptr} {k : Kind} (h : holds pc = some k) :
    0 < remaining ps pc := by
  cases pc <;> simp [remaining] <;> cases h

namespace Stepped

/-- A step takes a mutex that is free or gives back its own. -/
theorem locks (h : Stepped s c how kzalloc pc m)
    (own : ∀ k, s.locks k = some c ↔ holds pc = some k) :
    (∀ k, m.locks k = some c ↔ holds m.pc = some k) ∧
      ∀ d, d ≠ c → ∀ k, m.locks k = some d ↔ s.locks k = some d := by
  cases h with
  | @enters k pc' free hk hk' _ =>
    constructor
    · intro l
      by_cases hl : l = k
      · subst hl
        simp [hk']
      · have hne : holds pc' ≠ some l := by
          rw [hk']
          exact fun h => hl (Option.some.inj h).symm
        simp [hl, own, holds_of_entering hk, hne]
    · intro d hd l
      by_cases hl : l = k
      · subst hl
        simp [free, Ne.symm hd]
      · simp [hl]
  | @leaves k pc' hk hk' _ =>
    constructor
    · intro l
      by_cases hl : l = k
      · subst hl
        simp [leave, hk']
      · have hne : s.locks l ≠ some c := by
          rw [Ne, own, hk]
          exact fun h => hl (Option.some.inj h).symm
        simp [leave, moved, hl, hk', hne]
    · intro d hd l
      by_cases hl : l = k
      · subst hl
        simp [leave, (own l).mpr hk, Ne.symm hd]
      · simp [leave, moved, hl]
  | reads hk hk' _ _ | counts _ hk hk' _ _ | lists _ hk hk' _ _ =>
    refine ⟨fun l => ?_, fun d _ l => Iff.rfl⟩
    exact (own l).trans (by rw [hk, ← hk']; rfl)
  | allocates hpc _ | fills hpc _ =>
    subst hpc
    exact ⟨own, fun d _ l => Iff.rfl⟩
  | @accesses p call e nx hpc _ =>
    subst hpc
    refine ⟨fun l => (own l).trans ?_, fun d _ l => Iff.rfl⟩
    cases nx <;> exact Iff.rfl

/-- The list of a registry is changed by its holder only. -/
theorem mList (h : Stepped s c how kzalloc pc m) {k : Kind} (hk : holds pc ≠ some k) :
    m.mList k = s.mList k := by
  cases h with
  | @lists l pc' ps hl _ _ _ =>
    have hne : k ≠ l := fun e => hk (e ▸ hl)
    exact Function.update_of_ne hne _ _
  | _ => rfl

/-- The holder of a mutex is nearer to its release after each of its steps. -/
theorem remaining_lt (h : Stepped s c how kzalloc pc m) {k : Kind} (hk : holds pc = some k) :
    remaining (m.mList k) m.pc < remaining (s.mList k) pc := by
  cases h with
  | enters _ hn _ _ => cases hk.symm.trans (holds_of_entering hn)
  | leaves _ hk' _ =>
    rw [leave_pc, remaining_of_holds_none hk']
    exact remaining_pos hk
  | reads hl _ _ hlt | counts _ hl _ _ hlt =>
    cases hk.symm.trans hl
    exact hlt
  | lists ps hl _ _ hlt =>
    cases hk.symm.trans hl
    simpa [moved] using hlt
  | @allocates l param p hpc _ =>
    subst hpc
    have := newStmts_length l param
    simp only [remaining, write, moved]
    omega
  | fills hpc _ =>
    subst hpc
    simp [remaining, write, moved]
  | accesses hpc _ =>
    subst hpc
    cases hk

/-- A client fills the entry that it filled, or the one that it just got. -/
theorem freshAt (h : Stepped s c how kzalloc pc m) {p : Ptr} (hp : freshAt m.pc = some p) :
    Concurrent.freshAt pc = some p ∨ kzalloc = some p := by
  cases h with
  | enters _ _ _ plain | leaves _ _ plain | reads _ _ plain _ | counts _ _ _ plain _
  | lists _ _ _ plain _ =>
    cases plain.fresh.symm.trans hp
  | allocates _ hkz => exact .inr (hkz.trans hp)
  | fills hpc _ =>
    subst hpc
    exact .inl hp
  | @accesses p call e nx hpc _ => cases nx <;> cases hp

/-- A semaphore keeps its count or gets more, unless the step fills that entry,
or gets that memory, or is the `down` of a lock request. -/
theorem sema_le (h : Stepped s c how kzalloc pc m) (p : Ptr) :
    (s.mem p).sema ≤ (m.mem p).sema ∨ Concurrent.freshAt pc = some p ∨ kzalloc = some p ∨
      ∃ call, pc = .access p call ∧ call.point = .lockDown ∧ how = .acquired := by
  have written : ∀ {q : Ptr} {e : Entry} (pc' : Pc), (q = p → (s.mem p).sema ≤ e.sema) →
      (s.mem p).sema ≤ ((s.write q e pc').mem p).sema := by
    intro q e pc' he
    by_cases hq : p = q
    · subst hq
      simpa [write] using he rfl
    · simp [write, moved, hq]
  cases h with
  | enters _ _ _ _ | leaves _ _ _ | reads _ _ _ _ | lists _ _ _ _ _ => exact .inl (Int.le_refl _)
  | counts n _ _ _ _ =>
    refine .inl (written _ ?_)
    rintro rfl
    exact Int.le_refl _
  | @allocates k param q hpc hkz =>
    by_cases hq : q = p
    · exact .inr (.inr (.inl (hq ▸ hkz)))
    · exact .inl (written _ fun e => absurd e hq)
  | @fills k param q stmt todo e hpc _ =>
    by_cases hq : q = p
    · subst hpc
      exact .inr (.inl (congrArg some hq))
    · exact .inl (written _ fun e => absurd e hq)
  | @accesses q call e nx hpc effect =>
    by_cases took : q = p ∧ call.point = .lockDown ∧ how = .acquired
    · obtain ⟨rfl, hpoint, hhow⟩ := took
      exact .inr (.inr (.inr ⟨call, hpc, hpoint, hhow⟩))
    · refine .inl (written _ ?_)
      rintro rfl
      cases effect with
      | took hpoint hhow _ => exact absurd ⟨rfl, hpoint, hhow⟩ took
      | raised _ => exact Int.le_of_lt (Int.lt_succ _)
      | _ => exact Int.le_refl _

/-- What the next point requires. A statement after `sema_init` and before
`down` leaves the count of 1 alone. -/
theorem fine (h : Stepped s c how kzalloc pc m) (hf : Fine s.mem pc) : Fine m.mem m.pc := by
  cases h with
  | enters _ _ _ plain | leaves _ _ plain | reads _ _ plain _ | counts _ _ _ plain _
  | lists _ _ _ plain _ => exact plain.fine _ _ hf
  | @allocates k param p _ _ =>
    exact ⟨List.suffix_refl _, fun hd hs => absurd (semaInit_mem_newStmts hd) hs⟩
  | @fills k param p stmt todo e hpc he =>
    subst hpc
    obtain ⟨suffix, ready⟩ := hf
    refine ⟨(List.suffix_cons _ _).trans suffix, fun hd hs => ?_⟩
    have hmem : NewStmt.down ∈ newStmts k param := suffix.mem (List.mem_cons_of_mem _ hd)
    have hnot : stmt ≠ .down := by
      rintro rfl
      exact (List.nodup_cons.mp ((newStmts_nodup k param).sublist suffix.sublist)).1 hd
    simp only [write, moved, Function.update_self]
    have hold : stmt ≠ .semaInit → 1 ≤ (s.mem p).sema := fun hinit =>
      ready (List.mem_cons_of_mem _ hd) (by simp [Ne.symm hinit, hs])
    cases stmt with
    | down => exact absurd rfl hnot
    | semaInit =>
      cases he
      rw [if_neg (by rintro rfl; simp [newStmts] at hmem)]
    | _ =>
      cases he
      exact hold (by simp)
  | @accesses p call e nx hpc effect =>
    subst hpc
    cases nx with
    | ret error => trivial
    | goto point => exact ⟨effect.has hf.1, effect.op_has hf.2⟩

end Stepped

/-- What holds between any two steps. -/
structure Sound (s : Concurrent ι) : Prop where
  locks : ∀ c k, s.locks k = some c ↔ holds (s.pcs c) = some k
  apart : ∀ c d p, freshAt (s.pcs c) = some p → freshAt (s.pcs d) = some p → c = d
  fine : ∀ c, Fine s.mem (s.pcs c)

/-- Nothing after the `down` of a create initialises its semaphore again. -/
theorem semaInit_not_mem_of_down {k : Kind} {param : IpcCreate} {todo : List NewStmt}
    (h : .down :: todo <:+ newStmts k param) : .semaInit ∉ todo := by
  cases k with
  | mutex =>
    by_cases hv : param.value = 0
    · have := h.mem (List.mem_cons_self)
      simp [newStmts, hv] at this
    · simp [newStmts, hv, List.suffix_cons_iff] at h
      simp [h]
  | _ =>
    have := h.mem (List.mem_cons_self)
    simp [newStmts] at this

/-- The semaphore of a new mutex has a unit when its create comes to the `down`. -/
theorem Sound.sema_of_down (sound : Sound s) {c : ι} {k : Kind} {param : IpcCreate} {p : Ptr}
    {todo : List NewStmt} (h : s.pcs c = .fresh k param p (.down :: todo)) :
    1 ≤ (s.mem p).sema := by
  have hf := sound.fine c
  rw [h] at hf
  refine hf.2 List.mem_cons_self ?_
  simpa using semaInit_not_mem_of_down hf.1

/-- A client that waits for an object is in a lock request and holds nothing. -/
theorem Sound.of_blocked (sound : Sound s) {c : ι} (h : s.Blocked c) :
    holds (s.pcs c) = none ∧ inLock (s.pcs c) = true := by
  unfold Blocked at h
  split at h
  · rename_i p call hpc
    have hf := sound.fine c
    rw [hpc] at hf ⊢
    refine ⟨rfl, ?_⟩
    have hop := hf.2
    rw [h.1] at hop
    cases hcall : call.op <;> simp_all [Op.has, inLock]
  · rename_i k param p todo hpc
    have := sound.sema_of_down hpc
    omega
  · exact absurd h id

/-- The holder of a registry mutex can go on, whatever the allocator answers. -/
theorem Sound.enabled (sound : Sound s) {c : ι} {k : Kind} (hk : holds (s.pcs c) = some k)
    (kzalloc : Option Ptr) : ∃ m, s.step c .acquired kzalloc (s.pcs c) = some m := by
  cases hpc : s.pcs c with
  | idle | createEnter _ _ | checkEnter _ _ | closeEnter _ _ | access _ _ =>
    rw [hpc] at hk
    cases hk
  | search l param rest => cases rest <;> exact ⟨_, rfl⟩
  | allocate l param => cases kzalloc <;> exact ⟨_, rfl⟩
  | fresh l param p todo =>
    cases todo with
    | nil => exact ⟨_, rfl⟩
    | cons stmt todo =>
      cases stmt with
      | down =>
        have hpos : 0 < (s.mem p).sema := sound.sema_of_down hpc
        simp [Concurrent.step, NewStmt.run, Entry.down, wait_of_pos hpos]
      | _ => exact ⟨_, rfl⟩
  | closeCheck l handle =>
    simp only [Concurrent.step]
    split <;> exact ⟨_, rfl⟩
  | scan l p rest =>
    cases rest with
    | nil => exact ⟨_, rfl⟩
    | cons q rest =>
      simp only [Concurrent.step]
      split <;> exact ⟨_, rfl⟩
  | check _ _ | checkLeave _ _ _ | countOwner _ _ | createLeave _ | listDel _ _ | kfree _ _
  | closeLeave _ => exact ⟨_, rfl⟩

theorem inUse_of_freshAt {d : ι} {p : Ptr} (h : freshAt (s.pcs d) = some p) : s.InUse p := by
  refine .inr (.inr ⟨d, ?_⟩)
  cases hpc : s.pcs d <;> rw [hpc] at h <;> cases h
  rfl

/-- Only a semaphore that is claimed matters to a point. -/
theorem Fine.of_le {mem mem' : Ptr → Entry} (h : Fine mem pc)
    (hle : ∀ p, Claims p pc → (mem p).sema ≤ (mem' p).sema) : Fine mem' pc := by
  cases pc with
  | fresh k param p todo =>
    refine ⟨h.1, fun hd hs => ?_⟩
    exact Int.le_trans (h.2 hd hs) (hle p ⟨rfl, hd, hs⟩)
  | _ => exact h

theorem freshAt_of_claims {p : Ptr} (h : Claims p pc) : freshAt pc = some p := by
  cases pc with
  | fresh k param q todo => exact congrArg some h.1
  | _ => cases h

variable [DecidableEq ι] {t : Concurrent ι} {a : ι × Move}

/-- The moves: a request starts, its client takes a step, someone else writes. -/
theorem next_cases (h : s.next a = some t) :
    (∃ pc, s.pcs a.1 = .idle ∧ holds pc = none ∧ freshAt pc = none ∧ Fine s.mem pc ∧
      (∀ how kzalloc, a.2 ≠ .step how kzalloc) ∧
      t = { s with pcs := Function.update s.pcs a.1 pc }) ∨
    (∃ how kzalloc m, a.2 = .step how kzalloc ∧
      Stepped s a.1 how kzalloc (s.pcs a.1) m ∧
      t = s.after a.1 m) ∨
    (∃ p e, a.2 = .scribble p e ∧ t = { s with mem := Function.update s.mem p e }) := by
  have started : ∀ {pc}, s.begin a.1 pc = some t → holds pc = none → freshAt pc = none →
      Fine s.mem pc → (∀ how kzalloc, a.2 ≠ .step how kzalloc) →
      ∃ pc, s.pcs a.1 = .idle ∧ holds pc = none ∧ freshAt pc = none ∧ Fine s.mem pc ∧
        (∀ how kzalloc, a.2 ≠ .step how kzalloc) ∧
        t = { s with pcs := Function.update s.pcs a.1 pc } := by
    intro pc hb hh hf hfine hne
    obtain ⟨hidle, ht⟩ := Option.ite_none_right_eq_some.mp hb
    exact ⟨pc, hidle, hh, hf, hfine, hne, (Option.some.inj ht).symm⟩
  obtain ⟨c, move⟩ := a
  cases move with
  | create k param => exact .inl (started h rfl rfl trivial (by simp))
  | close k handle =>
    simp only [next] at h
    split at h
    · exact .inl (started h rfl rfl trivial (by simp))
    · exact .inl (started h rfl rfl trivial (by simp))
  | request k op handle timeout lockerid =>
    simp only [next] at h
    split at h
    · exact .inl (started h rfl rfl trivial (by simp))
    · obtain ⟨point, hp, h⟩ := Option.bind_eq_some_iff.mp h
      exact .inl (started h rfl rfl ⟨firstPoint_has hp, firstPoint_op_has hp⟩ (by simp))
  | step how kzalloc =>
    obtain ⟨m, hm, rfl⟩ := Option.map_eq_some_iff.mp h
    exact .inr (.inl ⟨how, kzalloc, m, rfl, step_stepped hm, rfl⟩)
  | scribble p e =>
    cases h
    exact .inr (.inr ⟨p, e, rfl, rfl⟩)

theorem apart_update {pcs : ι → Pc} {c : ι} {pc : Pc}
    (h : ∀ c d p, freshAt (pcs c) = some p → freshAt (pcs d) = some p → c = d)
    (new : ∀ p, freshAt pc = some p → ∀ d, d ≠ c → freshAt (pcs d) ≠ some p) (d d' : ι) (p : Ptr)
    (hd : freshAt (Function.update pcs c pc d) = some p)
    (hd' : freshAt (Function.update pcs c pc d') = some p) : d = d' := by
  by_cases e : d = c <;> by_cases e' : d' = c
  · rw [e, e']
  · subst e
    rw [Function.update_self] at hd
    rw [Function.update_of_ne e'] at hd'
    exact absurd hd' (new p hd d' e')
  · subst e'
    rw [Function.update_self] at hd'
    rw [Function.update_of_ne e] at hd
    exact absurd hd (new p hd' d e)
  · rw [Function.update_of_ne e] at hd
    rw [Function.update_of_ne e'] at hd'
    exact h d d' p hd hd'

/-- Every move keeps what holds between the steps, as long as no lock request
takes the unit of a mutex that is being created. -/
theorem Sound.next (sound : Sound s) (orderly : s.Orderly a) (allocates : s.Allocates a)
    (h : s.next a = some t) : Sound t := by
  rcases next_cases h with ⟨pc, hidle, hh, hf, hfine, -, rfl⟩ |
    ⟨how, kzalloc, m, hmove, stepped, rfl⟩ | ⟨p, e, hmove, rfl⟩
  · constructor
    · intro c k
      by_cases hc : c = a.1
      · subst hc
        simp [sound.locks, hidle, hh, show holds .idle = none from rfl]
      · simp [hc, sound.locks]
    · exact apart_update sound.apart fun p hp => (by rw [hf] at hp; cases hp)
    · exact forall_update (p := fun _ => Fine s.mem) (fun d _ => sound.fine d) hfine
  · have hlocks := stepped.locks (sound.locks a.1)
    have hgot : ∀ d p, kzalloc = some p → freshAt (s.pcs d) ≠ some p := by
      rintro d p rfl hp
      have hfree : ¬ s.InUse p := by simpa only [Allocates, hmove] using allocates
      exact hfree (inUse_of_freshAt hp)
    constructor
    · intro c k
      by_cases hc : c = a.1
      · subst hc
        simpa [after] using hlocks.1 k
      · simpa [after, hc] using (hlocks.2 c hc k).trans (sound.locks c k)
    · refine apart_update sound.apart fun p hp d hd hq => ?_
      rcases stepped.freshAt hp with hp | hkz
      · exact hd (sound.apart _ _ p hq hp)
      · exact hgot d p hkz hq
    · refine forall_update (p := fun _ => Fine m.mem) (fun d hd => ?_)
        (stepped.fine (sound.fine a.1))
      refine (sound.fine d).of_le fun p hclaims => ?_
      have hp := freshAt_of_claims hclaims
      rcases stepped.sema_le p with hle | hq | hkz | ⟨call, hpc, hpoint, rfl⟩
      · exact hle
      · exact absurd (sound.apart _ _ p hp hq) hd
      · exact absurd hp (hgot d p hkz)
      · exact absurd hclaims (orderly p call kzalloc hpc hpoint hmove d)
  · have hfree : ¬ s.InUse p := by simpa only [Allocates, hmove] using allocates
    refine ⟨sound.locks, sound.apart, fun c => (sound.fine c).of_le fun q hclaims => ?_⟩
    have hne : q ≠ p := fun e => hfree (e ▸ inUse_of_freshAt (freshAt_of_claims hclaims))
    simp [Function.update_of_ne hne]

/-- The runs on which no lock request takes the unit of a new mutex. -/
abbrev orderly (ι : Type*) [DecidableEq ι] : System (Concurrent ι) (ι × Move) :=
  (system ι).guard Orderly

theorem Sound.step (sound : Sound s) (h : (orderly ι).step s a t) : Sound t :=
  sound.next h.1 h.2.1 h.2.2

theorem Sound.of_reachable (h : (orderly ι).Reachable s) : Sound s := by
  apply h.invariant (I := Sound)
  · rintro s ⟨hlist, hlocks, hpcs⟩
    refine ⟨?_, ?_, ?_⟩
    · intro c k
      simp [hlocks, hpcs, show holds .idle = none from rfl]
    · intro c d p hp
      rw [hpcs] at hp
      cases hp
    · intro c
      rw [hpcs]
      trivial
  · exact fun s a t _ sound step => sound.step step

end Concurrent

end Gipcy.Linux
