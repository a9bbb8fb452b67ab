import Gipcy.SystemV.Creation

/-! Whether a create of the System V library returns before the set has its value.
Making a set and giving it its value are two system calls, and a process that finds
the set made does not wait for the second. -/
namespace Gipcy.SystemV.Name

open Transition
open Linux (EEXIST Primitive)

variable {ι : Type*}

/-- A point of a create of a semaphore or a mutex, but not before its `SETVAL`. -/
def plain : Point → Bool
  | .setVal _ _ | .semop _ => false
  | p => !p.deleting

theorem plain_ne_setVal {p : Point} (h : plain p = true) (value id : Int) :
    p ≠ .setVal value id := by
  rintro rfl
  cases h

/-- Some process is between the `semget` that made the set and its `SETVAL`. -/
def Pending (s : Name ι) (id : Int) : Prop := ∃ c value, s.point c = .setVal value id

/-- The set exists, it was given the value of its creator, and no `SETVAL` of it is
still to come. -/
def Initialised (s : Name ι) (id : Int) : Prop :=
  (∃ set, s.sets id = some set ∧ set.given = some set.due) ∧ ¬ Pending s id

/-- Calls of `IPC_createSemaphore` or `IPC_createMutex` and no other. -/
def CreatesOnly (_ : Name ι) (a : ι × Act) : Prop := a.2.creates = true

instance (s : Name ι) (a : ι × Act) : Decidable (CreatesOnly s a) :=
  inferInstanceAs (Decidable (_ = true))

/-- The exclusive `semget` makes a set with a positive identifier or finds one, a
`SETVAL` does not fail, and no `IPC_STAT` comes between the two. -/
def Orderly (s : Name ι) : ι × Act → Prop
  | (_, .semget id errno) => 0 < id ∨ id = -1 ∧ errno = EEXIST
  | (c, .sys ok) => ∀ value id, s.point c = .setVal value id → ok = true
  | (c, .stat .ready) => ∀ id i, s.point c = .stat id i → ¬ Pending s id
  | _ => True

structure Inv (k : Primitive) (s : Name ι) : Prop where
  live : ∀ id ∈ s.live, Initialised s id
  given : ∀ id set, s.sets id = some set → set.given = some set.due ∨ Pending s id
  due : ∀ c value id, s.point c = .setVal value id →
    ∃ set, s.sets id = some set ∧ set.due = initValue k value
  one : ∀ c d value value' id, s.point c = .setVal value id → s.point d = .setVal value' id → c = d
  creating : ∀ c, (s.point c).deleting = false ∧ ∀ id, s.point c ≠ .semop id

section Steps

variable {k : Primitive} {s t : Name ι} {c : ι} {p : Point} {id : Int}

/-- The files of the name do not matter. -/
theorem Inv.of_eq (h : Inv k s) (sets : t.sets = s.sets) (point : t.point = s.point)
    (live : t.live = s.live) : Inv k t := by
  obtain ⟨file, files, ids, sets', point', live'⟩ := t
  dsimp only at sets point live
  subst sets point live
  exact ⟨h.live, h.given, h.due, h.one, h.creating⟩

variable [DecidableEq ι]

/-- A process that is not before a `SETVAL` leaves the pending ones alone. -/
theorem pending_goto (hc : ∀ value, s.point c ≠ .setVal value id)
    (hp : ∀ value, p ≠ .setVal value id) : Pending (s.goto c p) id ↔ Pending s id := by
  constructor
  · rintro ⟨d, value, hd⟩
    rcases goto_point_eq hd with ⟨-, hd⟩ | ⟨-, hd⟩
    · exact absurd hd (hp value)
    · exact ⟨d, value, hd⟩
  · rintro ⟨d, value, hd⟩
    have hdc : d ≠ c := fun e => hc value (e ▸ hd)
    exact ⟨d, value, (goto_point_of_ne hdc).trans hd⟩

theorem creating_goto (h : ∀ d, (s.point d).deleting = false ∧ ∀ id, s.point d ≠ .semop id)
    (hp : p.deleting = false ∧ ∀ id, p ≠ .semop id) (d : ι) :
    ((s.goto c p).point d).deleting = false ∧ ∀ id, (s.goto c p).point d ≠ .semop id := by
  by_cases hdc : d = c
  · rw [hdc, goto_point_self]
    exact hp
  · rw [goto_point_of_ne hdc]
    exact h d

theorem Inv.goto (h : Inv k s) (hc : ∀ value id, s.point c ≠ .setVal value id)
    (hp : plain p = true) : Inv k (s.goto c p) := by
  have hpending : ∀ id, Pending (s.goto c p) id ↔ Pending s id := fun id =>
    pending_goto (fun value => hc value id) fun value => plain_ne_setVal hp value id
  have hother : ∀ d value id, (s.goto c p).point d = .setVal value id →
      s.point d = .setVal value id := by
    intro d value id hd
    rcases goto_point_eq hd with ⟨-, hd⟩ | ⟨-, hd⟩
    · exact absurd hd (plain_ne_setVal hp value id)
    · exact hd
  refine ⟨fun id hid => ?_, fun id set hset => ?_, fun d value id hd => ?_,
    fun d e value value' id hd he => ?_, fun d => ?_⟩
  · exact ⟨(h.live id hid).1, fun hpend => (h.live id hid).2 ((hpending id).mp hpend)⟩
  · exact (h.given id set hset).imp_right (hpending id).mpr
  · exact h.due d value id (hother d value id hd)
  · exact h.one d e value value' id (hother d value id hd) (hother e value' id he)
  · refine creating_goto h.creating ?_ d
    cases p <;> simp_all [plain, Point.deleting]

theorem Inv.ret (h : Inv k s) (hc : ∀ value id, s.point c ≠ .setVal value id)
    (hid : Initialised s id) : Inv k (s.ret c id) := by
  have hgoto : Inv k (s.goto c .idle) := h.goto hc rfl
  refine ⟨fun id' hlive => ?_, hgoto.given, hgoto.due, hgoto.one, hgoto.creating⟩
  rcases List.mem_cons.mp hlive with rfl | hlive
  · exact ⟨hid.1, fun hpend =>
      hid.2 ((pending_goto (fun value => hc value id') (by simp)).mp hpend)⟩
  · exact hgoto.live id' hlive

/-- A set is made under a new identifier, and its creator is before the `SETVAL`. -/
theorem Inv.made (h : Inv k s) {value : Int} {key : Nat}
    (hc : ∀ value id, s.point c ≠ .setVal value id) (new : s.sets id = none) :
    Inv k ((s.make key id (initValue k value)).goto c (.setVal value id)) := by
  have hold : ∀ id' set, s.sets id' = some set →
      id' ≠ id ∧ (s.make key id (initValue k value)).sets id' = some set := by
    intro id' set hset
    have hne : id' ≠ id := by
      rintro rfl
      rw [new] at hset
      cases hset
    exact ⟨hne, (s.make_sets_of_ne _ hne).trans hset⟩
  have hpoint : ∀ d value' id', ((s.make key id (initValue k value)).goto c
      (.setVal value id)).point d = .setVal value' id' →
      d = c ∧ value' = value ∧ id' = id ∨ s.point d = .setVal value' id' := by
    intro d value' id' hd
    rcases goto_point_eq hd with ⟨hdc, hd⟩ | ⟨-, hd⟩
    · cases hd
      exact .inl ⟨hdc, rfl, rfl⟩
    · exact .inr hd
  refine ⟨fun id' hlive => ?_, fun id' set hset => ?_, fun d value' id' hd => ?_,
    fun d e value' value'' id' hd he => ?_, fun d => ?_⟩
  · obtain ⟨⟨set, hset, hgiven⟩, hquiet⟩ := h.live id' hlive
    obtain ⟨hne, hset⟩ := hold id' set hset
    refine ⟨⟨set, hset, hgiven⟩, ?_⟩
    rintro ⟨d, value', hd⟩
    rcases hpoint d value' id' hd with ⟨-, -, heq⟩ | hd
    · exact hne heq
    · exact hquiet ⟨d, value', hd⟩
  · by_cases hid : id' = id
    · subst hid
      exact .inr ⟨c, value, goto_point_self ..⟩
    · have hset : s.sets id' = some set := (s.make_sets_of_ne _ hid).symm.trans hset
      refine (h.given id' set hset).imp_right ?_
      rintro ⟨d, value', hd⟩
      have hdc : d ≠ c := fun e => hc value' id' (e ▸ hd)
      exact ⟨d, value', (Function.update_of_ne hdc _ _).trans hd⟩
  · rcases hpoint d value' id' hd with ⟨-, rfl, rfl⟩ | hd
    · exact ⟨_, s.make_sets_self _, rfl⟩
    · obtain ⟨set, hset, hdue⟩ := h.due d value' id' hd
      exact ⟨set, (hold id' set hset).2, hdue⟩
  · have hfresh : ∀ f value', s.point f ≠ .setVal value' id := fun f value' hf => by
      obtain ⟨set, hset, -⟩ := h.due f value' id hf
      exact (hold id set hset).1 rfl
    rcases hpoint d value' id' hd with ⟨hdc, -, hid⟩ | hold'
    · rcases hpoint e value'' id' he with ⟨hec, -, -⟩ | hold'
      · rw [hdc, hec]
      · exact absurd (hid ▸ hold') (hfresh e value'')
    · rcases hpoint e value'' id' he with ⟨-, -, hid⟩ | hold''
      · exact absurd (hid ▸ hold') (hfresh d value')
      · exact h.one d e value' value'' id' hold' hold''
  · exact creating_goto (s := s.make key id (initValue k value)) h.creating ⟨rfl, by simp⟩ d

/-- The creator gives the set its value and returns. -/
theorem Inv.givenReturns (h : Inv k s) {value : Int} {set : KeyedSet}
    (hc : s.point c = .setVal value id) (hset : s.sets id = some set) :
    Inv k ((s.give id set (initValue k value)).ret c id) := by
  obtain ⟨made, hmade, hdue⟩ := h.due c value id hc
  cases hmade.symm.trans hset
  have hself : (s.give id set (initValue k value)).sets id =
      some { set with given := some set.due } := by
    rw [give_sets_self, hdue]
  have hother : ∀ id', id' ≠ id → (s.give id set (initValue k value)).sets id' = s.sets id' :=
    fun id' hne => s.give_sets_of_ne _ set hne
  have hpoint : ∀ d value' id', ((s.give id set (initValue k value)).ret c id).point d =
      .setVal value' id' → s.point d = .setVal value' id' ∧ id' ≠ id := by
    intro d value' id' hd
    rcases goto_point_eq hd with ⟨-, hd⟩ | ⟨hdc, hd⟩
    · cases hd
    · refine ⟨hd, ?_⟩
      rintro rfl
      exact hdc (h.one d c value' value id' hd hc)
  have hpending : ∀ id', Pending ((s.give id set (initValue k value)).ret c id) id' →
      Pending s id' ∧ id' ≠ id := by
    rintro id' ⟨d, value', hd⟩
    obtain ⟨hd, hne⟩ := hpoint d value' id' hd
    exact ⟨⟨d, value', hd⟩, hne⟩
  have hdone : Initialised ((s.give id set (initValue k value)).ret c id) id :=
    ⟨⟨_, hself, rfl⟩, fun hpend => (hpending id hpend).2 rfl⟩
  refine ⟨fun id' hlive => ?_, fun id' set' hset' => ?_, fun d value' id' hd => ?_,
    fun d e value' value'' id' hd he => ?_, fun d => ?_⟩
  · by_cases hid : id' = id
    · exact hid ▸ hdone
    · obtain ⟨hgiven, hquiet⟩ := h.live id' ((List.mem_cons.mp hlive).resolve_left hid)
      rw [← hother id' hid] at hgiven
      exact ⟨hgiven, fun hpend => hquiet (hpending id' hpend).1⟩
  · by_cases hid : id' = id
    · subst hid
      cases hself.symm.trans hset'
      exact .inl rfl
    · have hold : s.sets id' = some set' := (hother id' hid).symm.trans hset'
      refine (h.given id' set' hold).imp_right ?_
      rintro ⟨d, value', hd⟩
      have hdc : d ≠ c := by
        rintro rfl
        cases hd.symm.trans hc
        exact hid rfl
      exact ⟨d, value', (Function.update_of_ne hdc _ _).trans hd⟩
  · obtain ⟨hd, hne⟩ := hpoint d value' id' hd
    obtain ⟨set', hset', hdue'⟩ := h.due d value' id' hd
    exact ⟨set', (hother id' hne).trans hset', hdue'⟩
  · exact h.one d e value' value'' id' (hpoint d value' id' hd).1 (hpoint e value'' id' he).1
  · exact creating_goto (s := s.give id set (initValue k value)) h.creating ⟨rfl, by simp⟩ d

theorem Inv.step (h : Inv k s) (hk : k ≠ .event) {act : Act} (creates : CreatesOnly s (c, act))
    (orderly : Orderly s (c, act)) (does : Does k s c act t) : Inv k t := by
  cases does with
  | create hp => exact h.goto (by simp [hp]) rfl
  | fileMade hp hfile =>
    exact (h.goto (by simp [hp]) rfl).of_eq rfl rfl rfl
  | fileKept hp => exact h.goto (by simp [hp]) rfl
  | keyed hp _ => exact h.goto (by simp [hp]) rfl
  | made hp hids new hpos => exact h.made (by simp [hp]) new
  | madeOpens hp => exact absurd orderly (by simp [Orderly])
  | madeReturns hp => exact absurd orderly (by simp [Orderly])
  | exist hp _ => exact h.goto (by simp [hp]) rfl
  | refused hp herrno => exact absurd orderly (by simp [Orderly, herrno])
  | givenLowers _ _ hevent => exact absurd hevent hk
  | givenReturns hp hset => exact h.givenReturns hp hset
  | lowered hp _ => exact absurd hp ((h.creating c).2 _)
  | opened hp _ => exact h.goto (by simp [hp]) rfl
  | notOpened hp => exact h.goto (by simp [hp]) rfl
  | ready hp hset =>
    obtain ⟨set, hset⟩ := Option.isSome_iff_exists.mp hset
    have hquiet := orderly _ _ hp
    exact h.ret (by simp [hp]) ⟨⟨set, hset, (h.given _ _ hset).resolve_right hquiet⟩, hquiet⟩
  | again hp _ => exact h.goto (by simp [hp]) rfl
  | unready _ _ hevent => exact absurd hevent hk
  | fails hact =>
    refine h.goto (fun value id hp => ?_) rfl
    cases hact value id hp
    cases orderly value id hp
  | discarded hp =>
    exact (h.goto (by simp [hp]) rfl).of_eq rfl rfl rfl
  | delete => cases creates
  | reads hp _ => exact absurd hp (by rw [(h.creating c).1]; nofun)
  | removed hp _ => exact absurd (h.creating c).1 (by rw [hp]; nofun)
  | unlinked hp => exact absurd (h.creating c).1 (by rw [hp]; nofun)

theorem inv_reachable (hk : k ≠ .event)
    (h : (((system k ι).guard CreatesOnly).guard Orderly).Reachable s) : Inv k s := by
  apply h.invariant (I := Inv k)
  · rintro s ⟨-, -, hsets, hpoint, hlive⟩
    refine ⟨?_, ?_, ?_, ?_, ?_⟩
    · simp [hlive]
    · simp [hsets]
    · simp [hpoint]
    · simp [hpoint]
    · simp [hpoint, Point.deleting]
  · rintro s ⟨c, act⟩ t - inv ⟨orderly, creates, step⟩
    exact inv.step hk creates orderly (next_does step)

end Steps

section Claims

/-- In every run of creates whose steps are orderly a handle that was returned
belongs to a set that has its value for good. -/
theorem returned_initialised {ι : Type*} [DecidableEq ι] {k : Primitive} (hk : k ≠ .event)
    {s : Name ι} (h : (((system k ι).guard CreatesOnly).guard Orderly).Reachable s) {id : Int}
    (live : id ∈ s.live) : Initialised s id :=
  (inv_reachable hk h).live id live

/-- One process makes the set and gives it its value. -/
theorem returned_initialised_once : ∃ s : Name Bool,
    (((system .semaphore Bool).guard CreatesOnly).guard Orderly).Reachable s ∧ 7 ∈ s.live ∧
      Initialised s 7 := by
  let S := ((system .semaphore Bool).guard CreatesOnly).guard Orderly
  have step : ∀ {s t : Name Bool} (act : Act), S.Reachable s → CreatesOnly s (false, act) →
      Orderly s (false, act) → next .semaphore s (false, act) = some t → S.Reachable t :=
    fun _ h creates orderly hnext => h.step ⟨orderly, creates, hnext⟩
  have new : S.Reachable fresh := .init ⟨rfl, fun _ => rfl, fun _ => rfl, fun _ => rfl, rfl⟩
  have called := step (.create 1) new rfl trivial rfl
  have filed := step (.sys true) called rfl (fun _ _ _ => rfl) rfl
  have keyed := step (.sys true) filed rfl (fun _ _ _ => rfl) rfl
  have made := step (.semget 7 0) keyed rfl (.inl (by decide)) rfl
  have given := step (.sys true) made rfl (fun _ _ _ => rfl) rfl
  exact ⟨_, given, by decide, returned_initialised (by decide) given (by decide)⟩

/-- A process that finds the set returns before its creator gives it the value. -/
def overtaking : List (Bool × Act) :=
  [(false, .create 1), (false, .sys true), (false, .sys true), (false, .semget 7 0),
    (true, .create 1), (true, .sys true), (true, .sys true), (true, .semget (-1) EEXIST),
    (true, .sys true), (true, .stat .ready)]

theorem not_returned_initialised : ¬ ∀ s : Name Bool,
    ((system .semaphore Bool).guard CreatesOnly).Reachable s → ∀ id ∈ s.live,
      Initialised s id := by
  intro h
  obtain ⟨s, hs, live, new⟩ : ∃ s, ((system .semaphore Bool).guard CreatesOnly).Reachable s ∧
      7 ∈ s.live ∧ s.sets 7 = some ⟨0, 1, none⟩ := by
    refine exists_guarded_of_run fresh overtaking
      (fun s => decide (7 ∈ s.live ∧ s.sets 7 = some ⟨0, 1, none⟩))
      ⟨rfl, fun _ => rfl, fun _ => rfl, fun _ => rfl, rfl⟩ (by decide) ?_
    exact fun s _ hs => of_decide_eq_true hs
  obtain ⟨⟨set, hset, hgiven⟩, -⟩ := h s hs 7 live
  cases new.symm.trans hset
  cases hgiven

end Claims

end Gipcy.SystemV.Name
