import Gipcy.Lib.Transition
import Gipcy.Linux.Insys

/-! The life of the threads behind the handles of `threadipc.cpp`. A wait joins the
thread, a delete joins it again and takes `ESRCH` for success; the system gives the
`pthread_t` of a joined thread to another. -/
namespace Gipcy.Linux

open Transition

abbrev ESRCH : Int := 3

/-- A thread that was not joined. The threads are numbered as they are created. -/
structure Thread where
  number : Nat
  cancelled : Bool
  ended : Bool
deriving DecidableEq

/-- The `pthread_t` of a handle; the number of the thread it was made for is only looked
at by the proofs. -/
structure ThreadHandle where
  ipcThread : Nat
  number : Nat
deriving DecidableEq

/-- The threads by `pthread_t`, the handles returned and not deleted, and the numbers of
the threads that have ended and of those that were joined. -/
structure Threads where
  thread : Nat → Option Thread
  created : Nat
  live : List ThreadHandle
  ended : List Nat
  joined : List Nat

inductive ThreadCall where
  /-- `pthread_create` gives a thread this `pthread_t`, or it fails. -/
  | create (id : Option Nat)
  /-- The thread returns, exits or acts on its cancellation. -/
  | ends (id : Nat)
  | stop (h : ThreadHandle)
  /-- The join succeeds, or it fails for the limit in time or any other reason. -/
  | wait (h : ThreadHandle) (failed : Option Int)
  | delete (h : ThreadHandle) (failed : Option Int)
deriving DecidableEq

namespace Threads

/-- `pthread_join` or `pthread_timedjoin_np`, where it succeeds. -/
def join (s : Threads) (id : Nat) : Option Threads :=
  match s.thread id with
  | some t =>
    if t.ended then
      some { s with thread := Function.update s.thread id none, joined := t.number :: s.joined }
    else none
  | none => none

/-- `IPC_createThread`, and `IPC_createThreadEx` apart from its semaphore. -/
def ipcCreateThread (s : Threads) (id : Option Nat) : Option Threads :=
  match id with
  | none => some s
  | some id =>
    if s.thread id = none then
      some { s with
        thread := Function.update s.thread id (some ⟨s.created, false, false⟩)
        created := s.created + 1
        live := ⟨id, s.created⟩ :: s.live }
    else none

/-- `pthread_cancel` finds the thread or answers with `ESRCH`. -/
def ipcStopThread (s : Threads) (h : ThreadHandle) : Threads × Int :=
  match s.thread h.ipcThread with
  | some t =>
    ({ s with thread := Function.update s.thread h.ipcThread (some { t with cancelled := true }) },
      IPC_OK)
  | none => (s, IPC_GENERAL_ERROR)

def ipcWaitThread (s : Threads) (h : ThreadHandle) : Option Int → Option (Threads × Int)
  | none => (s.join h.ipcThread).map (·, IPC_OK)
  | some errno =>
    if errno = ESRCH ∧ s.thread h.ipcThread ≠ none then none else some (s, IPC_GENERAL_ERROR)

def ipcDeleteThread (s : Threads) (h : ThreadHandle) : Option Int → Option (Threads × Int)
  | none =>
    (s.join h.ipcThread).map fun s => ({ s with live := s.live.erase h }, IPC_OK)
  | some errno =>
    if errno = ESRCH then
      if s.thread h.ipcThread = none then some ({ s with live := s.live.erase h }, IPC_OK) else none
    else some (s, IPC_GENERAL_ERROR)

def next (s : Threads) : ThreadCall → Option Threads
  | .create id => s.ipcCreateThread id
  | .ends id =>
    (s.thread id).map fun t => { s with
      thread := Function.update s.thread id (some { t with ended := true })
      ended := t.number :: s.ended }
  | .stop h => if h ∈ s.live then some (s.ipcStopThread h).1 else none
  | .wait h failed => if h ∈ s.live then (s.ipcWaitThread h failed).map Prod.fst else none
  | .delete h failed => if h ∈ s.live then (s.ipcDeleteThread h failed).map Prod.fst else none

/-- The runs of any threads that use the handles, before the first of them. -/
def system : System Threads ThreadCall :=
  .ofNext (fun s => (∀ id, s.thread id = none) ∧ s.created = 0 ∧ s.live = [] ∧ s.ended = [] ∧
    s.joined = []) next

/-- A thread that was not joined has its handle; the `pthread_t` of a handle is that of
its thread until the thread is joined; only a thread that has ended is joined. -/
structure Sound (s : Threads) : Prop where
  held : ∀ id t, s.thread id = some t → ⟨id, t.number⟩ ∈ s.live ∧ t.number ∉ s.joined
  own : ∀ x ∈ s.live, x.number ∉ s.joined → ∃ t, s.thread x.ipcThread = some t ∧ t.number = x.number
  once : (s.live.map ThreadHandle.number).Nodup
  fresh : (∀ x ∈ s.live, x.number < s.created) ∧ ∀ n ∈ s.joined, n < s.created
  ended : ∀ id t, s.thread id = some t → t.ended = true → t.number ∈ s.ended
  joined : ∀ n ∈ s.joined, n ∈ s.ended

namespace Sound

variable {s s' : Threads} {id : Nat} {t : Thread} {x y : ThreadHandle}

theorem eq_of_number (h : Sound s) (hx : x ∈ s.live) (hy : y ∈ s.live)
    (hnumber : x.number = y.number) : x = y :=
  List.inj_on_of_nodup_map h.once hx hy hnumber

/-- A `pthread_t` names one thread, and no two name the same. -/
theorem eq_of_thread (h : Sound s) {id' : Nat} {t' : Thread} (ht : s.thread id = some t)
    (ht' : s.thread id' = some t') (hnumber : t.number = t'.number) : id = id' :=
  congrArg ThreadHandle.ipcThread (h.eq_of_number (h.held id t ht).1 (h.held id' t' ht').1 hnumber)

/-- A thread changes; it stays the same thread. -/
theorem update (h : Sound s) (ht : s.thread id = some t) {t' : Thread} {ended : List Nat}
    (same : t'.number = t.number) (sub : ∀ n ∈ s.ended, n ∈ ended)
    (hended : t'.ended = true → t'.number ∈ ended) :
    Sound { s with thread := Function.update s.thread id (some t'), ended := ended } where
  held := by
    intro i u hu
    by_cases hi : i = id
    · subst hi
      simp only [Function.update_self, Option.some.injEq] at hu
      subst hu
      rw [same]
      exact h.held i t ht
    · simp only [Function.update_of_ne hi] at hu
      exact h.held i u hu
  own := by
    intro z hz hjoined
    obtain ⟨u, hu, hnumber⟩ := h.own z hz hjoined
    by_cases hi : z.ipcThread = id
    · subst hi
      cases hu.symm.trans ht
      exact ⟨t', by simp, same.trans hnumber⟩
    · exact ⟨u, by simpa [Function.update_of_ne hi] using hu, hnumber⟩
  once := h.once
  fresh := h.fresh
  ended := by
    intro i u hu hend
    by_cases hi : i = id
    · subst hi
      simp only [Function.update_self, Option.some.injEq] at hu
      subst hu
      exact hended hend
    · simp only [Function.update_of_ne hi] at hu
      exact sub _ (h.ended i u hu hend)
  joined := fun n hn => sub n (h.joined n hn)

theorem create (h : Sound s) (hid : s.thread id = none) :
    Sound { s with
      thread := Function.update s.thread id (some ⟨s.created, false, false⟩)
      created := s.created + 1
      live := ⟨id, s.created⟩ :: s.live } where
  held := by
    intro i u hu
    by_cases hi : i = id
    · subst hi
      simp only [Function.update_self, Option.some.injEq] at hu
      subst hu
      refine ⟨List.mem_cons_self, fun hj => ?_⟩
      exact absurd (h.fresh.2 _ hj) (Nat.lt_irrefl _)
    · simp only [Function.update_of_ne hi] at hu
      obtain ⟨hlive, hjoined⟩ := h.held i u hu
      exact ⟨List.mem_cons_of_mem _ hlive, hjoined⟩
  own := by
    intro z hz hjoined
    rcases List.mem_cons.mp hz with rfl | hz
    · exact ⟨_, Function.update_self .., rfl⟩
    · obtain ⟨u, hu, hnumber⟩ := h.own z hz hjoined
      have hi : z.ipcThread ≠ id := by
        intro e
        rw [e, hid] at hu
        cases hu
      exact ⟨u, by simpa [Function.update_of_ne hi] using hu, hnumber⟩
  once := by
    refine List.nodup_cons.mpr ⟨fun hmem => ?_, h.once⟩
    obtain ⟨z, hz, hnumber⟩ := List.mem_map.mp hmem
    exact absurd (h.fresh.1 z hz) (hnumber ▸ Nat.lt_irrefl _)
  fresh := by
    constructor
    · intro z hz
      rcases List.mem_cons.mp hz with rfl | hz
      · exact Nat.lt_succ_self _
      · exact Nat.lt_succ_of_lt (h.fresh.1 z hz)
    · exact fun n hn => Nat.lt_succ_of_lt (h.fresh.2 n hn)
  ended := by
    intro i u hu hend
    by_cases hi : i = id
    · subst hi
      simp only [Function.update_self, Option.some.injEq] at hu
      subst hu
      cases hend
    · simp only [Function.update_of_ne hi] at hu
      exact h.ended i u hu hend
  joined := h.joined

theorem join (h : Sound s) (hs : s.join id = some s') : Sound s' ∧ s'.live = s.live := by
  unfold Threads.join at hs
  split at hs
  · rename_i t ht
    obtain ⟨hend, hs⟩ := Option.ite_none_right_eq_some.mp hs
    cases hs
    refine ⟨⟨?_, ?_, h.once, ⟨h.fresh.1, ?_⟩, ?_, ?_⟩, rfl⟩
    · intro i u hu
      have hi : i ≠ id := by
        rintro rfl
        simp at hu
      simp only [Function.update_of_ne hi] at hu
      obtain ⟨hlive, hjoined⟩ := h.held i u hu
      refine ⟨hlive, fun hj => ?_⟩
      rcases List.mem_cons.mp hj with hnumber | hj
      · exact hi (h.eq_of_thread hu ht hnumber)
      · exact hjoined hj
    · intro z hz hjoined
      obtain ⟨hne, hjoined⟩ := not_or.mp (List.mem_cons.not.mp hjoined)
      obtain ⟨u, hu, hnumber⟩ := h.own z hz hjoined
      have hi : z.ipcThread ≠ id := by
        intro e
        rw [e, ht] at hu
        cases hu
        exact hne hnumber.symm
      exact ⟨u, by simpa [Function.update_of_ne hi] using hu, hnumber⟩
    · intro n hn
      rcases List.mem_cons.mp hn with rfl | hn
      · exact h.fresh.1 _ (h.held id t ht).1
      · exact h.fresh.2 n hn
    · intro i u hu hend'
      have hi : i ≠ id := by
        rintro rfl
        simp at hu
      simp only [Function.update_of_ne hi] at hu
      exact h.ended i u hu hend'
    · intro n hn
      rcases List.mem_cons.mp hn with rfl | hn
      · exact h.ended id t ht hend
      · exact h.joined n hn
  · cases hs

/-- A handle whose thread was joined can be given up. -/
theorem erase (h : Sound s) (hx : x ∈ s.live) (hjoined : x.number ∈ s.joined) :
    Sound { s with live := s.live.erase x } where
  held := by
    intro i u hu
    obtain ⟨hlive, hnot⟩ := h.held i u hu
    have hne : (⟨i, u.number⟩ : ThreadHandle) ≠ x := by
      rintro rfl
      exact hnot hjoined
    exact ⟨(List.mem_erase_of_ne hne).mpr hlive, hnot⟩
  own := fun z hz => h.own z (List.mem_of_mem_erase hz)
  once := h.once.sublist (List.erase_sublist.map _)
  fresh := ⟨fun z hz => h.fresh.1 z (List.mem_of_mem_erase hz), h.fresh.2⟩
  ended := h.ended
  joined := h.joined

/-- After a join by the `pthread_t` of a handle, its thread was joined. -/
theorem joined_of_join (h : Sound s) (hx : x ∈ s.live) (hs : s.join x.ipcThread = some s') :
    x.number ∈ s'.joined := by
  unfold Threads.join at hs
  split at hs
  · rename_i t ht
    obtain ⟨-, hs⟩ := Option.ite_none_right_eq_some.mp hs
    cases hs
    by_cases hjoined : x.number ∈ s.joined
    · exact List.mem_cons_of_mem _ hjoined
    · obtain ⟨u, hu, hnumber⟩ := h.own x hx hjoined
      cases hu.symm.trans ht
      exact hnumber ▸ List.mem_cons_self
  · cases hs

/-- A delete that answers with success has its thread joined, by itself or before. -/
theorem delete (h : Sound s) (hx : x ∈ s.live) {failed : Option Int} {answer : Int}
    (hs : s.ipcDeleteThread x failed = some (s', answer)) :
    Sound s' ∧ (answer = IPC_OK → x.number ∈ s'.joined) := by
  cases failed with
  | none =>
    obtain ⟨u, hu, heq⟩ := Option.map_eq_some_iff.mp hs
    cases heq
    obtain ⟨hsound, hlive⟩ := h.join hu
    have hjoined := h.joined_of_join hx hu
    exact ⟨hsound.erase (hlive ▸ hx) hjoined, fun _ => hjoined⟩
  | some errno =>
    simp only [ipcDeleteThread] at hs
    split at hs
    · obtain ⟨hnone, hs⟩ := Option.ite_none_right_eq_some.mp hs
      cases hs
      have hjoined : x.number ∈ s.joined := by
        by_contra hnot
        obtain ⟨u, hu, -⟩ := h.own x hx hnot
        rw [hnone] at hu
        cases hu
      exact ⟨h.erase hx hjoined, fun _ => hjoined⟩
    · cases hs
      exact ⟨h, fun e => absurd e (by decide)⟩

theorem wait (h : Sound s) (hx : x ∈ s.live) {failed : Option Int} {answer : Int}
    (hs : s.ipcWaitThread x failed = some (s', answer)) :
    Sound s' ∧ (answer = IPC_OK → x.number ∈ s'.joined) := by
  cases failed with
  | none =>
    obtain ⟨u, hu, heq⟩ := Option.map_eq_some_iff.mp hs
    cases heq
    exact ⟨(h.join hu).1, fun _ => h.joined_of_join hx hu⟩
  | some errno =>
    simp only [ipcWaitThread] at hs
    split at hs <;> cases hs
    exact ⟨h, fun e => absurd e (by decide)⟩

theorem next (h : Sound s) {call : ThreadCall} (hs : s.next call = some s') : Sound s' := by
  cases call with
  | create id =>
    cases id with
    | none =>
      cases hs
      exact h
    | some id =>
      obtain ⟨hid, hs⟩ := Option.ite_none_right_eq_some.mp hs
      cases hs
      exact h.create hid
  | ends id =>
    obtain ⟨t, ht, rfl⟩ := Option.map_eq_some_iff.mp hs
    exact h.update ht rfl (fun n hn => List.mem_cons_of_mem _ hn) fun _ => List.mem_cons_self
  | stop x =>
    obtain ⟨-, hs⟩ := Option.ite_none_right_eq_some.mp hs
    cases hs
    unfold ipcStopThread
    split
    · rename_i t ht
      exact h.update ht rfl (fun _ hn => hn) (h.ended _ t ht)
    · exact h
  | wait x failed =>
    obtain ⟨hx, hs⟩ := Option.ite_none_right_eq_some.mp hs
    obtain ⟨⟨u, answer⟩, hu, rfl⟩ := Option.map_eq_some_iff.mp hs
    exact (h.wait hx hu).1
  | delete x failed =>
    obtain ⟨hx, hs⟩ := Option.ite_none_right_eq_some.mp hs
    obtain ⟨⟨u, answer⟩, hu, rfl⟩ := Option.map_eq_some_iff.mp hs
    exact (h.delete hx hu).1

end Sound

theorem sound_reachable {s : Threads} (h : system.Reachable s) : Sound s := by
  apply h.invariant (I := Sound)
  · rintro s ⟨hthread, -, hlive, -, hjoined⟩
    refine ⟨fun i t ht => ?_, ?_, ?_, ?_, fun i t ht => ?_, ?_⟩
    · cases (hthread i).symm.trans ht
    · simp [hlive]
    · simp [hlive]
    · simp [hlive, hjoined]
    · cases (hthread i).symm.trans ht
    · simp [hjoined]
  · exact fun s call t _ inv step => inv.next step

section Claims

/-- In every run, a wait or a delete that answers with success has the thread of its own
handle ended and joined; a `pthread_t` that names another thread is that of a handle
whose own thread was joined; and once every handle is deleted no thread is left. -/
theorem threads_joined {s : Threads} (h : system.Reachable s) :
    (∀ x ∈ s.live, ∀ failed s',
      (s.ipcWaitThread x failed = some (s', IPC_OK) → x.number ∈ s'.ended ∧ x.number ∈ s'.joined) ∧
      (s.ipcDeleteThread x failed = some (s', IPC_OK) →
        x.number ∈ s'.ended ∧ x.number ∈ s'.joined)) ∧
    (∀ x ∈ s.live, ∀ t, s.thread x.ipcThread = some t →
      t.number = x.number ∨ x.number ∈ s.joined) ∧
    (s.live = [] → ∀ id, s.thread id = none) := by
  have inv := sound_reachable h
  refine ⟨fun x hx failed s' => ⟨fun hs => ?_, fun hs => ?_⟩, fun x hx t ht => ?_,
    fun hlive id => ?_⟩
  · obtain ⟨hsound, hjoined⟩ := inv.wait hx hs
    exact ⟨hsound.joined _ (hjoined rfl), hjoined rfl⟩
  · obtain ⟨hsound, hjoined⟩ := inv.delete hx hs
    exact ⟨hsound.joined _ (hjoined rfl), hjoined rfl⟩
  · by_cases hjoined : x.number ∈ s.joined
    · exact .inr hjoined
    · obtain ⟨u, hu, hnumber⟩ := inv.own x hx hjoined
      cases hu.symm.trans ht
      exact .inl hnumber
  · cases ht : s.thread id with
    | none => rfl
    | some t =>
      have hheld := (inv.held id t ht).1
      rw [hlive] at hheld
      cases hheld

/-- The first thread is waited for and the second gets its `pthread_t`. -/
theorem threads_joined_reused : ∃ s, system.Reachable s ∧ s.live = [⟨7, 1⟩, ⟨7, 0⟩] ∧
    0 ∈ s.joined := by
  refine exists_reachable_of_run ⟨fun _ => none, 0, [], [], []⟩
    [.create (some 7), .ends 7, .wait ⟨7, 0⟩ none, .create (some 7)]
    (fun s => decide (s.live = [⟨7, 1⟩, ⟨7, 0⟩] ∧ s.thread 7 = some ⟨1, false, false⟩))
    ⟨fun _ => rfl, rfl, rfl, rfl, rfl⟩ (by decide) fun s hs hp => ?_
  obtain ⟨hlive, hthread⟩ := of_decide_eq_true hp
  refine ⟨hlive, ?_⟩
  have hother := (threads_joined hs).2.1 ⟨7, 0⟩ (by simp [hlive]) _ hthread
  exact hother.resolve_left (by decide)

end Claims

end Threads

end Gipcy.Linux
