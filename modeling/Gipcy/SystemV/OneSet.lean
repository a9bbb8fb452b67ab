import Gipcy.SystemV.Creation

/-! The handles of one name in the System V library. A delete unlinks the key file,
and it may remove the set, whoever else uses them. -/
namespace Gipcy.SystemV.Name

open Transition
open Linux (EEXIST Primitive)

/-- Between the `ftok` of a create and its return. -/
def creating : Point → Bool
  | .get _ _ | .setVal _ _ | .semop _ | .opens _ | .stat _ _ => true
  | _ => false

/-- Between the `semget` of a create that gave the identifier and its return. -/
def identified : Point → Bool
  | .setVal _ _ | .semop _ | .stat _ _ => true
  | _ => false

variable {ι : Type*}

/-- No handle is live, and no other create of the name has its key. -/
def Alone (s : Name ι) (c : ι) : Prop := s.live = [] ∧ ∀ d, d ≠ c → creating (s.point d) = false

/-- No handle is live, and no other create of the name has its identifier. -/
def Unused (s : Name ι) (c : ι) : Prop :=
  s.live = [] ∧ ∀ d, d ≠ c → identified (s.point d) = false

/-- The key file is unlinked only by a process that is alone, the set removed only
when it is unused, and `semget` has no error but `EEXIST`; for a semaphore or a mutex the
`semget` of an opener may have any, as the loop over `IPC_STAT` then fails. -/
def RemovesAlone (k : Primitive) (s : Name ι) : ι × Act → Prop
  | (c, .sys ok) =>
    match s.point c with
    | .discard | .unlink => ok = true → Alone s c
    | .rmid _ => ok = true → Unused s c
    | .opens _ => k = .event → ok = true
    | _ => True
  | (_, .semget id errno) => id ≠ -1 ∨ errno = EEXIST
  | _ => True

/-- The live handles have one identifier, and its set exists. -/
def Together (s : Name ι) : Prop :=
  (∀ id ∈ s.live, ∀ id' ∈ s.live, id = id') ∧ ∀ id ∈ s.live, (s.sets id).isSome

/-- The identifier of the set whose key is that of the key file. -/
def Here (s : Name ι) (id : Int) : Prop := ∃ key, s.file = some key ∧ s.ids key = some id

/-- What a process has learnt is still true. -/
def Knows (k : Primitive) (s : Name ι) : Point → Prop
  | .get _ key | .opens key => s.file = some key
  | .setVal _ id | .semop id => Here s id
  | .stat id _ => Here s id ∨ id = -1 ∧ k ≠ .event
  | _ => True

structure OneSet (k : Primitive) (s : Name ι) : Prop where
  points : ∀ c, Knows k s (s.point c)
  live : ∀ id ∈ s.live, Here s id
  linked : ∀ key id, s.ids key = some id → ∃ set, s.sets id = some set ∧ set.key = key
  nonneg : ∀ id set, s.sets id = some set → 0 ≤ id

section Known

variable {k : Primitive} {s t : Name ι} {p : Point} {id : Int}

theorem knows_of_not_creating (h : creating p = false) : Knows k s p := by
  cases p <;> trivial

/-- Without a key file only an opener is left that found none. -/
theorem knows_of_no_file (h : Knows k s p) (none : s.file = none) : Knows k t p := by
  cases p <;> simp_all [Knows, Here]

theorem OneSet.together (h : OneSet k s) : Together s := by
  refine ⟨fun id hid id' hid' => ?_, fun id hid => ?_⟩
  · obtain ⟨key, hfile, hids⟩ := h.live id hid
    obtain ⟨key', hfile', hids'⟩ := h.live id' hid'
    cases hfile.symm.trans hfile'
    exact Option.some.inj (hids.symm.trans hids')
  · obtain ⟨key, -, hids⟩ := h.live id hid
    obtain ⟨set, hset, -⟩ := h.linked key id hids
    exact Option.isSome_iff_exists.mpr ⟨set, hset⟩

/-- A new set: nobody had an identifier before. -/
theorem OneSet.make (h : OneSet k s) {key : Nat} (due : Int) (hfile : s.file = some key)
    (hids : s.ids key = none) (new : s.sets id = none) (pos : 0 ≤ id) :
    OneSet k (s.make key id due) ∧ Here (s.make key id due) id := by
  have hnone : ∀ id', ¬ Here s id' := by
    rintro id' ⟨key', hfile', hids'⟩
    cases hfile.symm.trans hfile'
    rw [hids] at hids'
    cases hids'
  refine ⟨⟨fun d => ?_, fun id' hlive => absurd (h.live id' hlive) (hnone id'), ?_, ?_⟩,
    key, hfile, s.make_ids_self due⟩
  · have hknows := h.points d
    show Knows k (s.make key id due) (s.point d)
    cases hpoint : s.point d <;> rw [hpoint] at hknows <;>
      first | trivial | exact hknows | exact absurd hknows (hnone _) |
        exact .inr (hknows.resolve_left (hnone _))
  · intro key' id' hlink
    by_cases hkey : key' = key
    · subst hkey
      cases (s.make_ids_self due).symm.trans hlink
      exact ⟨_, s.make_sets_self due, rfl⟩
    · obtain ⟨set, hset, hk⟩ := h.linked key' id' ((s.make_ids_of_ne due hkey).symm.trans hlink)
      have hne : id' ≠ id := by
        rintro rfl
        rw [new] at hset
        cases hset
      exact ⟨set, (s.make_sets_of_ne due hne).trans hset, hk⟩
  · intro id' set hset
    by_cases hid : id' = id
    · exact hid ▸ pos
    · exact h.nonneg id' set ((s.make_sets_of_ne due hid).symm.trans hset)

theorem OneSet.give (h : OneSet k s) {set : KeyedSet} (hset : s.sets id = some set) (val : Int) :
    OneSet k (s.give id set val) := by
  refine ⟨h.points, h.live, fun key id' hlink => ?_, fun id' set' hset' => ?_⟩
  · obtain ⟨set', hset', hkey⟩ := h.linked key id' hlink
    by_cases hid : id' = id
    · subst hid
      cases hset.symm.trans hset'
      exact ⟨_, s.give_sets_self val set, hkey⟩
    · exact ⟨set', (s.give_sets_of_ne val set hid).trans hset', hkey⟩
  · by_cases hid : id' = id
    · exact hid ▸ h.nonneg id set hset
    · exact h.nonneg id' set' ((s.give_sets_of_ne val set hid).symm.trans hset')

/-- Who has no identifier yet keeps what is known of the key file. -/
theorem OneSet.remove (h : OneSet k s) {c : ι} (unused : Unused s c) {set : KeyedSet}
    (hset : s.sets id = some set) (own : identified (s.point c) = false) :
    OneSet k (s.remove id set) := by
  refine ⟨fun d => ?_, ?_, fun key id' hlink => ?_, fun id' set' hset' => ?_⟩
  · have hknows := h.points d
    have hfree : identified (s.point d) = false := by
      by_cases hdc : d = c
      · exact hdc ▸ own
      · exact unused.2 d hdc
    show Knows k (s.remove id set) (s.point d)
    cases hpoint : s.point d <;> rw [hpoint] at hknows hfree <;> trivial
  · rw [show (s.remove id set).live = [] from unused.1]
    nofun
  · have hkey : key ≠ set.key := by
      rintro rfl
      cases (s.remove_ids_self set).symm.trans hlink
    obtain ⟨set', hset', rfl⟩ :=
      h.linked key id' ((s.remove_ids_of_ne set hkey).symm.trans hlink)
    have hid : id' ≠ id := by
      rintro rfl
      cases hset.symm.trans hset'
      exact hkey rfl
    exact ⟨set', (s.remove_sets_of_ne set hid).trans hset', rfl⟩
  · by_cases hid : id' = id
    · exact hid ▸ h.nonneg id set hset
    · exact h.nonneg id' set' ((s.remove_sets_of_ne set hid).symm.trans hset')

/-- Without the key file nothing is known, and nobody has learnt anything. -/
theorem OneSet.unlinkFile (h : OneSet k s) {c : ι} {ok : Bool} (alone : ok = true → Alone s c)
    (own : creating (s.point c) = false) : OneSet k (s.unlinkFile ok) := by
  cases ok with
  | false => exact h
  | true =>
    obtain ⟨hlive, hothers⟩ := alone rfl
    refine ⟨fun d => knows_of_not_creating ?_, ?_, h.linked, h.nonneg⟩
    · by_cases hdc : d = c
      · exact hdc ▸ own
      · exact hothers d hdc
    · rw [show (s.unlinkFile true).live = [] from hlive]
      nofun

end Known

section Steps

variable [DecidableEq ι] {k : Primitive} {s t : Name ι} {c : ι} {p : Point} {id : Int}

theorem OneSet.goto (h : OneSet k s) (hp : Knows k s p) : OneSet k (s.goto c p) := by
  refine ⟨fun d => ?_, h.live, h.linked, h.nonneg⟩
  show Knows k s ((s.goto c p).point d)
  by_cases hdc : d = c
  · rw [hdc, goto_point_self]
    exact hp
  · rw [goto_point_of_ne hdc]
    exact h.points d

theorem OneSet.ret (h : OneSet k s) (hid : Here s id) : OneSet k (s.ret c id) := by
  have hgoto : OneSet k (s.goto c .idle) := h.goto trivial
  refine ⟨hgoto.points, fun id' hlive => ?_, h.linked, h.nonneg⟩
  rcases List.mem_cons.mp hlive with rfl | hlive
  · exact hid
  · exact h.live id' hlive

theorem OneSet.step (h : OneSet k s) {act : Act} (condition : RemovesAlone k s (c, act))
    (does : Does k s c act t) : OneSet k t := by
  have hknows := h.points c
  cases does with
  | create hp => exact h.goto trivial
  | @fileMade value hp hfile =>
    -- Without a key file nobody has a key, and no handle is live.
    have hlive : s.live = [] := List.eq_nil_iff_forall_not_mem.mpr fun id hid => by
      obtain ⟨key, hkey, -⟩ := h.live id hid
      rw [hfile] at hkey
      cases hkey
    have hfiled : OneSet k { s with file := some s.files, files := s.files + 1 } := by
      refine ⟨fun d => knows_of_no_file (h.points d) hfile, ?_, h.linked, h.nonneg⟩
      rw [hlive]
      nofun
    exact hfiled.goto trivial
  | fileKept hp => exact h.goto trivial
  | keyed hp hfile => exact h.goto hfile
  | made hp hids new hpos =>
    rw [hp] at hknows
    obtain ⟨hmade, hhere⟩ := h.make (initValue k _) hknows hids new hpos.le
    exact hmade.goto hhere
  | madeOpens hp hids new =>
    rw [hp] at hknows
    exact (h.make (initValue k _) hknows hids new le_rfl).1.goto hknows
  | madeReturns hp hids new _ =>
    rw [hp] at hknows
    obtain ⟨hmade, hhere⟩ := h.make (initValue k _) hknows hids new le_rfl
    exact hmade.ret hhere
  | exist hp _ =>
    rw [hp] at hknows
    exact h.goto hknows
  | refused hp herrno => exact absurd condition (by simp [RemovesAlone, herrno])
  | givenLowers hp hset _ =>
    rw [hp] at hknows
    exact (h.give hset _).goto hknows
  | givenReturns hp hset =>
    rw [hp] at hknows
    exact (h.give hset _).ret hknows
  | lowered hp _ =>
    rw [hp] at hknows
    exact h.ret hknows
  | opened hp hids =>
    rw [hp] at hknows
    exact h.goto (.inl ⟨_, hknows, hids⟩)
  | notOpened hp =>
    simp only [RemovesAlone, hp] at condition
    exact h.goto (.inr ⟨rfl, fun hevent => by cases condition hevent⟩)
  | ready hp hset =>
    rw [hp] at hknows
    obtain ⟨set, hset⟩ := Option.isSome_iff_exists.mp hset
    have hpos := h.nonneg _ _ hset
    exact h.ret (hknows.resolve_right fun hnone => by omega)
  | again hp _ =>
    rw [hp] at hknows
    exact h.goto hknows
  | unready hp _ hevent =>
    rw [hp] at hknows
    exact h.ret (hknows.resolve_right fun hnone => hnone.2 hevent)
  | fails _ => exact h.goto trivial
  | discarded hp =>
    simp only [RemovesAlone, hp] at condition
    exact (h.unlinkFile condition (by rw [hp]; rfl)).goto trivial
  | @delete id hp hid =>
    have hfewer : OneSet k { s with live := s.live.erase id } :=
      ⟨h.points, fun id' hid' => h.live id' (List.mem_of_mem_erase hid'), h.linked, h.nonneg⟩
    exact hfewer.goto trivial
  | @reads _ point hp hpoint =>
    refine h.goto (knows_of_not_creating ?_)
    rcases hpoint with hpoint | rfl
    · cases point <;> trivial
    · rfl
  | removed hp hset =>
    simp only [RemovesAlone, hp] at condition
    exact (h.remove (condition trivial) hset (by rw [hp]; rfl)).goto trivial
  | unlinked hp =>
    simp only [RemovesAlone, hp] at condition
    exact (h.unlinkFile condition (by rw [hp]; rfl)).goto trivial

theorem oneSet_reachable (h : ((system k ι).guard (RemovesAlone k)).Reachable s) : OneSet k s := by
  apply h.invariant (I := OneSet k)
  · rintro s ⟨-, hids, hsets, hpoint, hlive⟩
    refine ⟨fun c => ?_, ?_, ?_, ?_⟩
    · rw [hpoint]
      trivial
    · rw [hlive]
      nofun
    · simp [hids]
    · simp [hsets]
  · rintro s ⟨c, act⟩ t - inv ⟨condition, step⟩
    exact inv.step condition (next_does step)

end Steps

end Gipcy.SystemV.Name
