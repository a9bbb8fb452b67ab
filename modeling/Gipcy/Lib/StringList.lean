import Gipcy.Lib.CString

/-! What a caller finds in its buffer: a string, or a list of strings, each with its
NUL and one more NUL after the last. -/
namespace CString

/-- The list is what stands at the front of the memory. An empty string ends a list. -/
def HoldsList (mem : Nat → UInt8) : List Str → Prop
  | [] => mem 0 = 0
  | s :: list => (s ≠ [] ∧ 0 ∉ s) ∧ Holds mem s ∧ HoldsList (fun i => mem (i + (s.length + 1))) list

/-- The same string stands at the front of both, if one does. -/
def SameString (mem mem' : Nat → UInt8) : Prop := ∀ s, 0 ∉ s → (Holds mem s ↔ Holds mem' s)

def SameList (mem mem' : Nat → UInt8) : Prop := ∀ list, HoldsList mem list ↔ HoldsList mem' list

/-- Strings, each with its NUL. -/
def packed (list : List Str) : List UInt8 := list.flatMap (· ++ [0])

/-- The strings ahead of the first empty one. -/
def untilEmpty (list : List Str) : List Str := list.takeWhile (· ≠ [])

/-- The strings fill the memory up to some place. -/
def Filled (mem : Nat → UInt8) (list : List Str) : Prop :=
  ∀ i, i < (packed list).length → mem i = (packed list).getD i 0

variable {mem mem' : Nat → UInt8} {s t : Str} {list list' : List Str}

@[simp] theorem packed_nil : packed [] = [] := rfl

@[simp] theorem packed_cons (s : Str) (list : List Str) :
    packed (s :: list) = s ++ 0 :: packed list := by
  simp [packed]

@[simp] theorem packed_append (list list' : List Str) :
    packed (list ++ list') = packed list ++ packed list' := List.flatMap_append

@[simp] theorem packed_singleton (s : Str) : packed [s] = s ++ [0] := by
  simp [packed]

theorem Holds.same (hs : Holds mem s) (ht : Holds mem' t) (zero : 0 ∉ s) (zero' : 0 ∉ t) :
    SameString mem mem' ↔ s = t := by
  constructor
  · intro h
    exact ((h s zero).mp hs).unique ht zero zero'
  · rintro rfl r hr
    constructor
    · intro h
      rwa [h.unique hs hr zero]
    · intro h
      rwa [h.unique ht hr zero]

theorem HoldsList.unique (h : HoldsList mem list) (h' : HoldsList mem list') : list = list' := by
  have hfirst : ∀ {mem : Nat → UInt8} {s : Str}, mem 0 = 0 → s ≠ [] ∧ 0 ∉ s → ¬ Holds mem s := by
    rintro mem s hmem ⟨hs, zero⟩ h
    have hempty : Holds mem [] := by
      intro i hi
      obtain rfl : i = 0 := Nat.le_zero.mp hi
      exact hmem
    exact hs (h.unique hempty zero List.not_mem_nil)
  induction list generalizing mem list' with
  | nil =>
    cases list' with
    | nil => rfl
    | cons t list' => exact absurd h'.2.1 (hfirst h h'.1)
  | cons s list ih =>
    cases list' with
    | nil => exact absurd h.2.1 (hfirst h' h.1)
    | cons t list' =>
      obtain ⟨⟨-, zero⟩, hs, hlist⟩ := h
      obtain ⟨⟨-, zero'⟩, ht, hlist'⟩ := h'
      obtain rfl := hs.unique ht zero zero'
      rw [ih hlist hlist']

theorem HoldsList.same (h : HoldsList mem list) (h' : HoldsList mem' list') :
    SameList mem mem' ↔ list = list' := by
  constructor
  · intro hsame
    exact ((hsame list).mp h).unique h'
  · rintro rfl list'
    constructor
    · intro hlist
      rwa [hlist.unique h]
    · intro hlist
      rwa [hlist.unique h']

/-- Packed strings and a NUL are a list, up to the first empty string. -/
theorem holdsList_of_packed (zero : ∀ s ∈ list, 0 ∉ s) (h : Holds mem (packed list)) :
    HoldsList mem (untilEmpty list) := by
  induction list generalizing mem with
  | nil => exact h 0 le_rfl
  | cons s list ih =>
    obtain ⟨hs, hlist⟩ := List.forall_mem_cons.mp zero
    rw [packed_cons] at h
    by_cases hempty : s = []
    · subst hempty
      exact h 0 (Nat.zero_le _)
    · have hfront : untilEmpty (s :: list) = s :: untilEmpty list :=
        List.takeWhile_cons_of_pos (by simpa using hempty)
      rw [hfront]
      refine ⟨⟨hempty, hs⟩, fun i hi => ?_, ih hlist fun i hi => ?_⟩
      · rw [h i (by simp; omega)]
        rcases Nat.lt_or_eq_of_le hi with hlt | rfl
        · exact List.getD_append _ _ _ _ hlt
        · rw [List.getD_append_right _ _ _ _ le_rfl, Nat.sub_self, List.getD_eq_default _ _ le_rfl]
          rfl
      · rw [h _ (by simp; omega), List.getD_append_right _ _ _ _ (by omega)]
        have hindex : i + (s.length + 1) - s.length = i + 1 := by omega
        rw [hindex, List.getD_cons_succ]

theorem filled_nil (mem : Nat → UInt8) : Filled mem [] := nofun

/-- What is stored after the strings leaves them as they are. -/
theorem Filled.store (h : Filled mem list) (bytes : List UInt8) :
    Filled (store mem (packed list).length bytes) list := by
  intro i hi
  rw [← h i hi]
  simp [CString.store, Nat.not_le.mpr hi]

theorem Filled.concat (h : Filled mem list) (s : Str) :
    Filled (CString.store mem (packed list).length (s ++ [0])) (list ++ [s]) := by
  intro i hi
  rw [packed_append, packed_singleton] at hi ⊢
  rcases Nat.lt_or_ge i (packed list).length with hlt | hge
  · rw [h.store _ i hlt, List.getD_append _ _ _ _ hlt]
  · have hin : i - (packed list).length < (s ++ [(0 : UInt8)]).length := by
      rw [List.length_append] at hi
      omega
    rw [List.getD_append_right _ _ _ _ hge, List.getD_eq_getElem _ _ hin]
    simp [CString.store, hge, List.getElem?_eq_getElem hin]

/-- The NUL after the last string makes a list of them. -/
theorem Filled.holdsList (h : Filled mem list) (zero : ∀ s ∈ list, 0 ∉ s) :
    HoldsList (CString.store mem (packed list).length [0]) (untilEmpty list) := by
  refine holdsList_of_packed zero fun i hi => ?_
  rcases Nat.lt_or_eq_of_le hi with hlt | rfl
  · exact h.store [0] i hlt
  · rw [List.getD_eq_default _ _ le_rfl]
    simp [CString.store]

end CString
