import Gipcy.SystemV.Segments

/-! Who keeps a segment of the System V library attached, and what is left of it when
every handle has been deleted. -/
namespace Gipcy.SystemV

open Clients Transition

namespace Segments

variable {ν ι : Type*} [DecidableEq ν] [DecidableEq ι]

/-- Every attachment is held by a handle or is lost, and no segment that is marked stays
without one. -/
structure Accounted [Fintype ι] (s : Segments ν ι) : Prop where
  count : ∀ id, s.nattch id = s.attachments id
  marked : ∀ id g, s.segs id = some g → g.key = none → 0 < g.nattch

omit [DecidableEq ν] in
theorem detaching_eq_zero {p : ShmPoint ν} {i : Int} (h : p.doomed ≠ some i) :
    detaching i p = 0 := by
  cases p with
  | detach name id =>
    have hne : id ≠ i := fun e => h (congrArg some e)
    simp [detaching, hne]
  | _ => rfl

omit [DecidableEq ν] in
theorem detaching_nonneg (i : Int) (p : ShmPoint ν) : 0 ≤ detaching i p := by
  unfold detaching
  split
  · split <;> decide
  · decide

namespace Accounted

variable [Fintype ι] {s t : Segments ν ι} {c : ι}

omit [DecidableEq ν] [DecidableEq ι] in
theorem exists_segment (h : Accounted s) {id : Int} (pos : 0 < s.attachments id) :
    ∃ g, s.segs id = some g ∧ 0 < g.nattch := by
  have hcount := h.count id
  cases hg : s.segs id with
  | none =>
    have hzero : s.nattch id = 0 := by simp [nattch, hg]
    omega
  | some g =>
    rw [nattch_eq hg] at hcount
    exact ⟨g, rfl, by omega⟩

omit [DecidableEq ν] [DecidableEq ι] in
/-- A mapped handle has its segment. -/
theorem of_mapped (h : Accounted s) {x : ShmHandle ν} (hlive : x ∈ s.live) (hdata : x.data = true) :
    ∃ g, s.segs x.shm = some g ∧ 0 < g.nattch := by
  apply h.exists_segment
  have hpos : 0 < s.live.countP (mappedTo x.shm) :=
    List.countP_pos_iff.mpr ⟨x, hlive, by simp [mappedTo, hdata]⟩
  have htally := tally_nonneg s.point fun c => detaching_nonneg x.shm (s.point c)
  unfold attachments
  omega

omit [DecidableEq ν] [DecidableEq ι] in
/-- So has a delete that is about to detach. -/
theorem of_detaching (h : Accounted s) {name : ν} {id : Int} (hp : s.point c = .detach name id) :
    ∃ g, s.segs id = some g ∧ 0 < g.nattch := by
  apply h.exists_segment
  have htally := le_tally (fun c => detaching_nonneg id (s.point c)) c
  rw [hp, detaching, if_pos rfl] at htally
  unfold attachments
  omega

omit [DecidableEq ν] in
/-- A process moves on; it attaches and detaches nothing. -/
theorem goto (h : Accounted s) {p : ShmPoint ν} (file : ν → Option Nat)
    (same : ∀ i, detaching i (s.point c) = detaching i p) :
    Accounted ({ s with file := file }.goto c p) where
  count := by
    intro i
    have hcount := h.count i
    have hgoto := attachments_goto (s := { s with file := file }) (c := c) (i := i) p
    have hattach : ({ s with file := file } : Segments ν ι).attachments i = s.attachments i := rfl
    have hnattch : ({ s with file := file }.goto c p).nattch i = s.nattch i := rfl
    have hsame := same i
    dsimp only at hgoto
    omega
  marked := h.marked

omit [DecidableEq ν] in
theorem ret (h : Accounted s) {name : ν} {id : Int}
    (same : ∀ i, detaching i (s.point c) = 0) : Accounted (s.ret c name id) where
  count := by
    intro i
    have hcount := h.count i
    have hret : (s.ret c name id).attachments i = _ := attachments_ret
    have hnattch : (s.ret c name id).nattch i = s.nattch i := rfl
    have hsame := same i
    omega
  marked := h.marked

omit [DecidableEq ν] [DecidableEq ι] in
theorem make (h : Accounted s) {key : Nat} {id : Int} (hsegs : s.segs id = none) :
    Accounted (s.make key id) where
  count := fun i => (nattch_make hsegs).trans (h.count i)
  marked := by
    intro i g hg hkey
    by_cases hi : i = id
    · subst hi
      simp only [Segments.make, setSeg, Function.update_self, Option.some.injEq] at hg
      subst hg
      cases hkey
    · simp only [Segments.make, setSeg, Function.update_of_ne hi] at hg
      exact h.marked i g hg hkey

omit [DecidableEq ι] in
theorem map (h : Accounted s) {x : ShmHandle ν} {g : Segment} (hlive : x ∈ s.live)
    (hg : s.segs x.shm = some g) :
    Accounted (((s.attach x.shm g).lose x.shm (if x.data then 1 else 0)).store x true) where
  count := by
    intro i
    have hcount := h.count i
    have hnattch := nattch_attach (i := i) hg
    have hstore := attachments_store (i := i)
      (s := (s.attach x.shm g).lose x.shm (if x.data then 1 else 0)) hlive true
    rw [attachments_lose] at hstore
    have hattach : (s.attach x.shm g).attachments i = s.attachments i := rfl
    have heq : (((s.attach x.shm g).lose x.shm (if x.data then 1 else 0)).store x true).nattch i =
        (s.attach x.shm g).nattch i := rfl
    rw [heq, hnattch, hstore, hattach, hcount]
    by_cases hi : i = x.shm
    · subst hi
      cases hdata : x.data <;> simp [mappedTo, hdata]
    · simp [mappedTo, hi, Ne.symm hi]
  marked := by
    intro i g' hg' hkey
    by_cases hi : i = x.shm
    · subst hi
      simp only [store, lose, attach, setSeg, Function.update_self, Option.some.injEq] at hg'
      subst hg'
      exact Nat.succ_pos _
    · simp only [store, lose, attach, setSeg, Function.update_of_ne hi] at hg'
      exact h.marked i g' hg' hkey

omit [DecidableEq ν] [DecidableEq ι] in
theorem marked_detach (h : Accounted s) {id i : Int} {g g' : Segment} (hg : s.segs id = some g)
    (hg' : (s.detach id g).segs i = some g') (hkey : g'.key = none) : 0 < g'.nattch := by
  by_cases hi : i = id
  · subst hi
    simp only [detach, setSeg, Function.update_self] at hg'
    split at hg' <;> cases hg'
    rename_i hmore
    have hpos := h.marked i g hg hkey
    have hne : g.nattch ≠ 1 := fun hone => hmore ⟨hkey, hone⟩
    dsimp only
    omega
  · simp only [detach, setSeg, Function.update_of_ne hi] at hg'
    exact h.marked i g' hg' hkey

omit [DecidableEq ι] in
theorem unmap (h : Accounted s) {x : ShmHandle ν} {g : Segment} (hlive : x ∈ s.live)
    (hdata : x.data = true) (hg : s.segs x.shm = some g) :
    Accounted ((s.detach x.shm g).store x false) where
  count := by
    intro i
    obtain ⟨g', hg', hpos⟩ := h.of_mapped hlive hdata
    obtain rfl := Option.some.inj (hg'.symm.trans hg)
    have hnattch := nattch_detach (i := i) hg hpos
    have hstore := attachments_store (i := i) (s := s.detach x.shm g') hlive false
    have hattach : (s.detach x.shm g').attachments i = s.attachments i := rfl
    have heq : ((s.detach x.shm g').store x false).nattch i = (s.detach x.shm g').nattch i := rfl
    rw [heq, hnattch, hstore, hattach, h.count i]
    by_cases hi : i = x.shm
    · simp [mappedTo, hdata, hi]
    · simp [mappedTo, hi, Ne.symm hi]
  marked := fun _ _ => h.marked_detach hg

/-- The attachment of the handle becomes that of the delete. -/
theorem delete (h : Accounted s) {x : ShmHandle ν} (hlive : x ∈ s.live) (hp : s.point c = .idle) :
    Accounted ({ s with live := s.live.erase x }.goto c
      (if x.data then .detach x.name x.shm else .stat x.name x.shm)) where
  count := by
    intro i
    rw [attachments_goto, attachments_erase hlive]
    have hidle : ({ s with live := s.live.erase x } : Segments ν ι).point c = .idle := hp
    have hcount := h.count i
    rw [hidle]
    refine Eq.trans hcount ?_
    cases hdata : x.data with
    | true =>
      by_cases hi : i = x.shm
      · simp [mappedTo, detaching, hdata, hi]
      · simp [mappedTo, detaching, hdata, Ne.symm hi]
    | false => simp [mappedTo, detaching, hdata]
  marked := h.marked

omit [DecidableEq ν] in
theorem detached (h : Accounted s) {name : ν} {id : Int} {g : Segment}
    (hp : s.point c = .detach name id) (hg : s.segs id = some g) :
    Accounted ((s.detach id g).goto c (.stat name id)) where
  count := by
    intro i
    obtain ⟨g', hg', hpos⟩ := h.of_detaching hp
    obtain rfl := Option.some.inj (hg'.symm.trans hg)
    have hnattch := nattch_detach (i := i) hg hpos
    have hpoint : (s.detach id g').point c = .detach name id := hp
    have hattach : (s.detach id g').attachments i = s.attachments i := rfl
    rw [attachments_goto, hpoint, hattach, ← h.count i]
    refine Eq.trans hnattch ?_
    by_cases hi : i = id
    · simp [detaching, hi]
    · simp [detaching, hi, Ne.symm hi]
  marked := fun _ _ => h.marked_detach hg

omit [DecidableEq ν] in
theorem remove (h : Accounted s) {name : ν} {id : Int} {g : Segment}
    (hp : s.point c = .rmid name id) (hg : s.segs id = some g) :
    Accounted ((s.rmid id g).goto c (.unlink name)) where
  count := by
    intro i
    have hpoint : (s.rmid id g).point c = .rmid name id := hp
    have hattach : (s.rmid id g).attachments i = s.attachments i := rfl
    rw [attachments_goto, hpoint, hattach, ← h.count i]
    refine Eq.trans (nattch_rmid hg) ?_
    simp [detaching]
  marked := by
    intro i g' hg' hkey
    by_cases hi : i = id
    · subst hi
      simp only [Segments.goto, rmid, setSeg, Function.update_self] at hg'
      split at hg' <;> cases hg'
      exact Nat.pos_of_ne_zero ‹_›
    · simp only [Segments.goto, rmid, setSeg, Function.update_of_ne hi] at hg'
      exact h.marked i g' hg' hkey

theorem does (h : Accounted s) {act : ShmAct ν} (d : Does s c act t) : Accounted t := by
  cases d with
  | moves hfrom hto =>
    refine h.goto _ fun i => ?_
    rw [detaching_eq_zero (by rw [hfrom]; nofun), detaching_eq_zero (by rw [hto]; nofun)]
  | made hp hids hsegs => exact (h.make hsegs).ret fun i => by rw [Segments.make, setSeg, hp]; rfl
  | opened hp => exact h.ret fun i => by rw [hp]; rfl
  | mapped _ hlive hg => exact h.map hlive hg
  | refused => exact h
  | unmapped _ hlive hdata hg => exact h.unmap hlive hdata hg
  | deletes hp hlive => exact h.delete hlive hp
  | detached hp hg => exact h.detached hp hg
  | looked hp hg =>
    refine h.goto s.file fun i => ?_
    rw [hp]
    split <;> rfl
  | removed hp hg => exact h.remove hp hg
  | fails hp =>
    refine h.goto s.file fun i => ?_
    rcases hp with hp | hp <;> rw [hp] <;> rfl

end Accounted

theorem accounted_reachable [Fintype ι] {s : Segments ν ι} (h : (system ν ι).Reachable s) :
    Accounted s := by
  apply h.invariant (I := Accounted)
  · rintro s ⟨-, hsegs, hpoint, hlive, hlost⟩
    refine ⟨fun i => ?_, fun i g hg => ?_⟩
    · have hnattch : s.nattch i = 0 := by simp [nattch, hsegs]
      have htally : tally (detaching i) s.point = 0 := tally_eq_zero fun c => by rw [hpoint]; rfl
      rw [hnattch, attachments, hlive, htally, hlost]
      rfl
    · cases (hsegs i).symm.trans hg
  · rintro s ⟨c, act⟩ t - inv step
    exact inv.does (next_does step)

/-! The last delete. -/

/-- `IPC_STAT` and `IPC_RMID` fail only where the segment is gone. -/
def Granted (s : Segments ν ι) : ι × ShmAct ν → Prop
  | (c, .sys false) =>
    match s.point c with
    | .stat _ id | .rmid _ id => s.segs id = none
    | _ => True
  | _ => True

instance (s : Segments ν ι) (a : ι × ShmAct ν) : Decidable (s.Granted a) := by
  unfold Granted
  split
  · split <;> infer_instance
  · infer_instance

/-- A handle of the segment, or a delete that has yet to look at it or to remove it. -/
def Owned (s : Segments ν ι) (id : Int) : Prop :=
  (∃ x ∈ s.live, x.shm = id) ∨ ∃ c, (s.point c).doomed = some id

section Owners

variable {s t : Segments ν ι} {c : ι} {id : Int} {p : ShmPoint ν}

omit [DecidableEq ν] in
theorem owned_goto (h : s.Owned id) (same : (s.point c).doomed = some id → p.doomed = some id) :
    (s.goto c p).Owned id := by
  obtain hlive | ⟨d, hd⟩ := h
  · exact .inl hlive
  · refine .inr ?_
    by_cases hdc : d = c
    · subst hdc
      exact ⟨d, by simpa [goto] using same hd⟩
    · exact ⟨d, by simpa [goto, Function.update_of_ne hdc] using hd⟩

omit [DecidableEq ν] in
theorem owned_ret {name : ν} {i : Int} (h : s.Owned id ∨ i = id)
    (none : (s.point c).doomed = none) : (s.ret c name i).Owned id := by
  obtain h | rfl := h
  · obtain ⟨x, hx, hshm⟩ | howner :=
      owned_goto (c := c) (p := .idle) h fun e => by rw [none] at e; cases e
    · exact .inl ⟨x, List.mem_cons_of_mem _ hx, hshm⟩
    · exact .inr howner
  · exact .inl ⟨_, List.mem_cons_self, rfl⟩

omit [DecidableEq ι] in
theorem owned_store {x : ShmHandle ν} {data : Bool} (h : s.Owned id) :
    (s.store x data).Owned id := by
  obtain ⟨y, hy, hshm⟩ | howner := h
  · refine .inl ?_
    by_cases hyx : y = x
    · exact ⟨_, List.mem_cons_self, hyx ▸ hshm⟩
    · exact ⟨y, List.mem_cons_of_mem _ ((List.mem_erase_of_ne hyx).mpr hy), hshm⟩
  · exact .inr howner

theorem owned_delete {x : ShmHandle ν} (h : s.Owned id) (hp : s.point c = .idle) :
    ({ s with live := s.live.erase x }.goto c
      (if x.data then .detach x.name x.shm else .stat x.name x.shm)).Owned id := by
  obtain ⟨y, hy, hshm⟩ | howner := h
  · by_cases hyx : y = x
    · subst hyx
      refine .inr ⟨c, ?_⟩
      simp only [goto, Function.update_self]
      split <;> exact congrArg some hshm
    · exact .inl ⟨y, (List.mem_erase_of_ne hyx).mpr hy, hshm⟩
  · have howned : ({ s with live := s.live.erase x } : Segments ν ι).Owned id := .inr howner
    exact owned_goto howned fun e => by rw [hp] at e; cases e

omit [DecidableEq ν] [DecidableEq ι] in
/-- What attaches a segment, if nothing of it is lost. -/
theorem Accounted.held [Fintype ι] (h : Accounted s) {g : Segment} (hg : s.segs id = some g)
    (pos : 0 < g.nattch) (hlost : s.lost id = 0) :
    (∃ x ∈ s.live, x.shm = id) ∨ ∃ c name, s.point c = .detach name id := by
  have hcount := h.count id
  rw [nattch_eq hg, attachments, hlost] at hcount
  by_cases hlive : 0 < s.live.countP (mappedTo id)
  · obtain ⟨x, hx, hmapped⟩ := List.countP_pos_iff.mp hlive
    exact .inl ⟨x, hx, by simp [mappedTo] at hmapped; exact hmapped.2⟩
  · refine .inr ?_
    by_contra hnone
    have htally : tally (detaching id) s.point = 0 := by
      apply tally_eq_zero
      intro c
      unfold detaching
      split
      · rename_i name i hp
        have hne : i ≠ id := fun e => hnone ⟨c, name, by rw [hp, e]⟩
        exact if_neg hne
      · rfl
    omega

omit [DecidableEq ν] in
/-- Then nobody is needed who has already detached. -/
theorem Accounted.owned_goto [Fintype ι] (h : Accounted s) {g : Segment}
    (hg : s.segs id = some g) (pos : 0 < g.nattch) (hlost : s.lost id = 0)
    (hp : ∀ name, s.point c ≠ .detach name id) : (s.goto c p).Owned id := by
  obtain hlive | ⟨d, name, hd⟩ := h.held hg pos hlost
  · exact .inl hlive
  · have hdc : d ≠ c := fun e => hp name (e ▸ hd)
    refine .inr ⟨d, ?_⟩
    simp only [Segments.goto, Function.update_of_ne hdc, hd]
    rfl

end Owners

/-- A segment of which nothing is lost has an owner. -/
def Kept (s : Segments ν ι) : Prop := ∀ id, (s.segs id).isSome → s.lost id = 0 → s.Owned id

namespace Kept

variable {s t : Segments ν ι} {c : ι}

omit [DecidableEq ν] in
theorem make (h : Kept s) {name : ν} {key : Nat} {i : Int} (none : (s.point c).doomed = none) :
    Kept ((s.make key i).ret c name i) := by
  intro id hsome hlost
  by_cases hi : i = id
  · exact owned_ret (.inr hi) none
  · have hsegs : (s.segs id).isSome := by
      simpa [ret, goto, Segments.make, setSeg, Function.update_of_ne (Ne.symm hi)] using hsome
    exact owned_ret (s := s.make key i) (.inl (h id hsegs hlost)) none

omit [DecidableEq ι] in
theorem map (h : Kept s) {x : ShmHandle ν} {g : Segment} {n : Nat} (hg : s.segs x.shm = some g) :
    Kept (((s.attach x.shm g).lose x.shm n).store x true) := by
  intro id hsome hlost
  have hsegs : (s.segs id).isSome := by
    by_cases hi : id = x.shm
    · simp [hi, hg]
    · simpa [store, lose, attach, setSeg, Function.update_of_ne hi] using hsome
  have hzero : s.lost id = 0 := by
    by_cases hi : id = x.shm
    · subst hi
      simp only [store, lose, attach, setSeg, Function.update_self] at hlost
      omega
    · simpa [store, lose, attach, setSeg, Function.update_of_ne hi] using hlost
  exact owned_store (s := (s.attach x.shm g).lose x.shm n) (h id hsegs hzero)

omit [DecidableEq ν] [DecidableEq ι] in
theorem isSome_of_detach {id i : Int} {g : Segment} (hg : s.segs i = some g)
    (hsome : ((s.detach i g).segs id).isSome) : (s.segs id).isSome := by
  by_cases hi : id = i
  · simp [hi, hg]
  · simpa [detach, setSeg, Function.update_of_ne hi] using hsome

omit [DecidableEq ν] in
theorem remove [Fintype ι] (h : Kept s) (inv : Accounted s) {name : ν} {i : Int} {g : Segment}
    (hp : s.point c = .rmid name i) (hg : s.segs i = some g) :
    Kept ((s.rmid i g).goto c (.unlink name)) := by
  intro id hsome hlost
  by_cases hi : id = i
  · subst hi
    have hpos : 0 < g.nattch := by
      apply Nat.pos_of_ne_zero
      intro hzero
      simp [goto, rmid, setSeg, hzero] at hsome
    have hother : ∀ name, s.point c ≠ .detach name id := by simp [hp]
    exact inv.owned_goto hg hpos hlost hother
  · have hsegs : (s.segs id).isSome := by
      simpa [goto, rmid, setSeg, Function.update_of_ne hi] using hsome
    have hpoint : (s.rmid i g).point c = .rmid name i := hp
    refine owned_goto (h id hsegs hlost) fun e => ?_
    rw [hpoint] at e
    exact absurd (Option.some.inj e).symm hi

omit [DecidableEq ν] in
theorem look [Fintype ι] (h : Kept s) (inv : Accounted s) {name : ν} {i : Int} {g : Segment}
    (hp : s.point c = .stat name i) (hg : s.segs i = some g) :
    Kept (s.goto c (if g.nattch = 0 then .rmid name i else .idle)) := by
  intro id hsome hlost
  by_cases hi : id = i
  · subst hi
    by_cases hzero : g.nattch = 0
    · exact owned_goto (h id hsome hlost) fun _ => by rw [if_pos hzero]; rfl
    · exact inv.owned_goto hg (Nat.pos_of_ne_zero hzero) hlost (by rw [hp]; nofun)
  · refine owned_goto (h id hsome hlost) fun e => ?_
    rw [hp] at e
    exact absurd (Option.some.inj e).symm hi

theorem does [Fintype ι] (h : Kept s) (inv : Accounted s) {act : ShmAct ν}
    (granted : s.Granted (c, act)) (d : Does s c act t) : Kept t := by
  cases d with
  | moves hfrom =>
    intro id hsome hlost
    exact owned_goto (s := { s with file := _ }) (h id hsome hlost) fun e => by
      rw [hfrom] at e
      cases e
  | made hp => exact h.make (by rw [hp]; rfl)
  | opened hp =>
    intro id hsome hlost
    exact owned_ret (.inl (h id hsome hlost)) (by rw [hp]; rfl)
  | mapped _ _ hg => exact h.map hg
  | refused => exact h
  | unmapped _ _ _ hg =>
    intro id hsome hlost
    exact owned_store (s := s.detach _ _) (h id (isSome_of_detach hg hsome) hlost)
  | deletes hp =>
    intro id hsome hlost
    exact owned_delete (h id hsome hlost) hp
  | detached hp hg =>
    intro id hsome hlost
    refine owned_goto (s := s.detach _ _) (h id (isSome_of_detach hg hsome) hlost) fun e => ?_
    exact (congrArg ShmPoint.doomed hp).symm.trans e
  | looked hp hg => exact h.look inv hp hg
  | removed hp hg => exact h.remove inv hp hg
  | fails hp =>
    intro id hsome hlost
    refine owned_goto (h id hsome hlost) fun e => ?_
    -- The system call failed, so this segment is gone.
    rcases hp with hp | hp
    all_goals
      rw [hp] at e
      cases Option.some.inj e
      simp only [Granted, hp] at granted
      exact absurd hsome (by simp [goto, granted])

end Kept

theorem kept_reachable [Fintype ι] {s : Segments ν ι}
    (h : ((system ν ι).guard Granted).Reachable s) : Accounted s ∧ Kept s := by
  apply h.invariant (I := fun s => Accounted s ∧ Kept s)
  · intro s hs
    refine ⟨accounted_reachable (.init hs), fun id hsome => ?_⟩
    rw [hs.2.1] at hsome
    cases hsome
  · rintro s ⟨c, act⟩ t - ⟨inv, kept⟩ ⟨granted, step⟩
    have d := next_does step
    exact ⟨inv.does d, kept.does inv granted d⟩

section Claims

/-- In every run of the library by any number of processes, whatever fails, a segment is
attached exactly as often as handles are mapped to it or about to be detached from it,
plus the attachments that a second mapping of a handle has lost; a mapped handle has its
segment, whoever removed it, and can be unmapped. -/
theorem attachments_accounted [Fintype ι] {s : Segments ν ι} (h : (system ν ι).Reachable s) :
    (∀ id, s.nattch id =
      s.live.countP (mappedTo id) + tally (detaching id) s.point + s.lost id) ∧
    ∀ x ∈ s.live, x.data = true → (∃ g, s.segs x.shm = some g ∧ 0 < g.nattch) ∧
      ∀ c, s.point c = .idle → (next s (c, .unmap x)).isSome := by
  have inv := accounted_reachable h
  refine ⟨inv.count, fun x hlive hdata => ⟨inv.of_mapped hlive hdata, fun c hp => ?_⟩⟩
  obtain ⟨g, hg, -⟩ := inv.of_mapped hlive hdata
  simp [next, hp, hlive, hdata, hg]

/-- Two processes map the segment that one of them has created. -/
theorem attachments_accounted_shared : ∃ s : Segments Unit Bool,
    (system Unit Bool).Reachable s ∧ s.nattch 0 = 2 ∧
      s.live.countP (mappedTo 0) + tally (detaching 0) s.point + s.lost 0 = (2 : Int) := by
  refine exists_reachable_of_run
    ⟨fun _ => none, fun _ => none, fun _ => none, fun _ => .idle, [], fun _ => 0⟩
    [(true, .create () 64), (true, .file (some 7)), (true, .sys true), (true, .shmget 0 0),
      (false, .opens ()), (false, .file none), (false, .sys true), (false, .sys true),
      (true, .map ⟨(), 0, false⟩ true), (false, .map ⟨(), 0, false⟩ true)]
    (fun s => decide (s.nattch 0 = 2))
    ⟨fun _ => rfl, fun _ => rfl, fun _ => rfl, rfl, fun _ => rfl⟩ (by decide) fun s hs hp => ?_
  have htwo := of_decide_eq_true hp
  exact ⟨htwo, ((attachments_accounted hs).1 0).symm.trans htwo⟩

/-- Where the system grants `IPC_STAT` and `IPC_RMID` on a segment that exists, a segment
is left behind when every handle has been given to a delete and no call is under way if
and only if a handle was mapped again while it was mapped. -/
theorem left_behind_iff [Fintype ι] {s : Segments ν ι}
    (h : ((system ν ι).guard Granted).Reachable s) (returned : ∀ c, s.point c = .idle)
    (deleted : s.live = []) (id : Int) : (s.segs id).isSome ↔ 0 < s.lost id := by
  obtain ⟨inv, kept⟩ := kept_reachable h
  constructor
  · intro hsome
    apply Nat.pos_of_ne_zero
    intro hzero
    obtain ⟨x, hx, -⟩ | ⟨c, hc⟩ := kept id hsome hzero
    · rw [deleted] at hx
      cases hx
    · rw [returned] at hc
      cases hc
  · intro hlost
    have htally := tally_nonneg s.point fun c => detaching_nonneg id (s.point c)
    have hattached : 0 < s.attachments id := by
      unfold attachments
      omega
    obtain ⟨g, hg, -⟩ := inv.exists_segment hattached
    rw [hg]
    rfl

/-- The second process maps its handle twice, and both delete theirs. -/
theorem left_behind_twice : ∃ s : Segments Unit Bool,
    ((system Unit Bool).guard Granted).Reachable s ∧ ((s.segs 0).isSome ↔ 0 < s.lost 0) ∧
      0 < s.lost 0 := by
  refine exists_guarded_of_run
    ⟨fun _ => none, fun _ => none, fun _ => none, fun _ => .idle, [], fun _ => 0⟩
    [(true, .create () 64), (true, .file (some 7)), (true, .sys true), (true, .shmget 0 0),
      (false, .opens ()), (false, .file none), (false, .sys true), (false, .sys true),
      (true, .map ⟨(), 0, false⟩ true), (false, .map ⟨(), 0, false⟩ true),
      (false, .map ⟨(), 0, true⟩ true), (true, .delete ⟨(), 0, true⟩), (true, .sys true),
      (true, .sys true), (false, .delete ⟨(), 0, true⟩), (false, .sys true), (false, .sys true)]
    (fun s => decide ((∀ c, s.point c = .idle) ∧ s.live = [] ∧ 0 < s.lost 0))
    ⟨fun _ => rfl, fun _ => rfl, fun _ => rfl, rfl, fun _ => rfl⟩ (by decide) fun s hs hp => ?_
  obtain ⟨returned, deleted, hlost⟩ := of_decide_eq_true hp
  exact ⟨left_behind_iff hs returned deleted 0, hlost⟩

end Claims

end Segments

end Gipcy.SystemV
