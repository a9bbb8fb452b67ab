import Mathlib.Data.List.GetD
import Mathlib.Data.List.Infix
import Mathlib.Data.List.TakeWhile
import Mathlib.Tactic.Common

/-! C strings, as the lists of the characters before the NUL that ends them, and
the memory that they are copied to. The locale is the one a program starts with. -/
namespace CString

abbrev Str := List UInt8

def chars (s : List Char) : Str := s.map Char.toUInt8

/-- The string at the front of some memory. -/
def cstr (mem : List UInt8) : Str := mem.takeWhile (· ≠ 0)

/-- A string and its NUL, stored at the front of some memory. -/
def overwrite (mem : List UInt8) (s : Str) : List UInt8 := s ++ 0 :: mem.drop (s.length + 1)

/-- Where `t` occurs in `s` for the first time. -/
def strstr : Str → Str → Option Nat
  | [], t => if t = [] then some 0 else none
  | c :: s, t => if t <+: c :: s then some 0 else (strstr s t).map (· + 1)

/-- `if(p = strstr(s, t)) p[0] = '\0'`. -/
def cutAt (s t : Str) : Str :=
  match strstr s t with
  | some i => s.take i
  | none => s

def tolower (c : UInt8) : UInt8 :=
  if 'A'.toUInt8 ≤ c ∧ c ≤ 'Z'.toUInt8 then c + 32 else c

/-- The bytes from `pos` on are overwritten. -/
def store (mem : Nat → UInt8) (pos : Nat) (bytes : List UInt8) : Nat → UInt8 := fun i =>
  if pos ≤ i then bytes[i - pos]?.getD (mem i) else mem i

/-- The string is what stands at the front of the memory. -/
def Holds (mem : Nat → UInt8) (s : Str) : Prop := ∀ i, i ≤ s.length → mem i = s.getD i 0

instance (mem : Nat → UInt8) (s : Str) : Decidable (Holds mem s) :=
  inferInstanceAs (Decidable (∀ i, i ≤ s.length → _))

section Strings

variable {s t : Str} {c : UInt8}

theorem takeWhile_ne (h : c ∉ s) (rest : Str) : (s ++ c :: rest).takeWhile (· ≠ c) = s := by
  rw [List.takeWhile_append_of_pos]
  · simp
  · intro d hd
    have hne : d ≠ c := fun heq => h (heq ▸ hd)
    simpa using hne

theorem dropWhile_ne (h : c ∉ s) (rest : Str) :
    (s ++ c :: rest).dropWhile (· ≠ c) = c :: rest := by
  have hsplit := List.takeWhile_append_dropWhile (p := (· ≠ c)) (l := s ++ c :: rest)
  rw [takeWhile_ne h] at hsplit
  exact List.append_cancel_left hsplit

theorem cstr_self (h : 0 ∉ s) : cstr s = s := by
  refine List.takeWhile_eq_self_iff.mpr fun c hc => ?_
  have hne : c ≠ 0 := fun h0 => h (h0 ▸ hc)
  simpa using hne

theorem cstr_append (h : 0 ∉ s) (mem : List UInt8) : cstr (s ++ 0 :: mem) = s := takeWhile_ne h mem

theorem cstr_append_cstr (h : 0 ∉ s) (mem : List UInt8) : cstr (s ++ mem) = s ++ cstr mem := by
  refine List.takeWhile_append_of_pos fun c hc => ?_
  have hne : c ≠ 0 := fun h0 => h (h0 ▸ hc)
  simpa using hne

theorem zero_not_mem_cstr (mem : List UInt8) : 0 ∉ cstr mem := by
  intro h
  simpa using List.mem_takeWhile_imp h

theorem cstr_append_zero (s mem : List UInt8) : cstr (s ++ 0 :: mem) = cstr s := by
  induction s with
  | nil => simp [cstr]
  | cons c s ih =>
    unfold cstr at ih ⊢
    rw [List.cons_append, List.takeWhile_cons, List.takeWhile_cons, ih]

/-- The string and its NUL are at the front of the memory. -/
theorem eq_cstr_append {mem : List UInt8} (h : 0 ∈ mem) : ∃ rest, mem = cstr mem ++ 0 :: rest := by
  obtain ⟨s, rest, rfl, hs⟩ := List.eq_append_cons_of_mem h
  exact ⟨rest, by rw [cstr_append hs]⟩

theorem length_cstr_lt {mem : List UInt8} (h : 0 ∈ mem) : (cstr mem).length < mem.length := by
  obtain ⟨rest, hmem⟩ := eq_cstr_append h
  have hlength := congrArg List.length hmem
  rw [List.length_append, List.length_cons] at hlength
  omega

theorem getElem?_eq_cstr {mem : List UInt8} (h : 0 ∈ mem) {p : Nat} (hp : p ≤ (cstr mem).length) :
    mem[p]? = (cstr mem ++ [0])[p]? := by
  obtain ⟨rest, hmem⟩ := eq_cstr_append h
  rw [List.append_cons] at hmem
  have hin : p < (cstr mem ++ [0]).length := by
    rw [List.length_append, List.length_singleton]
    exact Nat.lt_succ_of_le hp
  conv_lhs => rw [hmem]
  exact List.getElem?_append_left hin

theorem cstr_cons {c : UInt8} (h : c ≠ 0) (mem : List UInt8) : cstr (c :: mem) = c :: cstr mem := by
  simp [cstr, h]

/-- A string is known from its characters and its NUL. -/
theorem cstr_congr {mem mem' : List UInt8}
    (h : ∀ p, p ≤ (cstr mem).length → mem[p]? = mem'[p]?) :
    cstr mem' = cstr mem ∧ (0 ∈ mem' ↔ 0 ∈ mem) := by
  induction mem generalizing mem' with
  | nil =>
    cases mem' with
    | nil => exact ⟨rfl, Iff.rfl⟩
    | cons c mem' => cases h 0 (Nat.zero_le _)
  | cons c mem ih =>
    cases mem' with
    | nil => cases h 0 (Nat.zero_le _)
    | cons d mem' =>
      obtain rfl : c = d := Option.some.inj (h 0 (Nat.zero_le _))
      by_cases hc : c = 0
      · subst hc
        exact ⟨rfl, by simp⟩
      · rw [cstr_cons hc] at h
        obtain ⟨hline, hnul⟩ := ih fun p hp => h (p + 1) (Nat.succ_le_succ hp)
        rw [cstr_cons hc, cstr_cons hc, hline]
        exact ⟨rfl, by simp [Ne.symm hc, hnul]⟩

theorem cstr_overwrite (mem : List UInt8) (h : 0 ∉ s) : cstr (overwrite mem s) = s :=
  cstr_append h _

theorem strstr_isSome_iff : (strstr s t).isSome ↔ t <:+: s := by
  induction s with
  | nil => simp [strstr]
  | cons c s ih =>
    rw [List.infix_cons_iff, ← ih, strstr]
    split <;> simp [*]

theorem strstr_eq_none_iff : strstr s t = none ↔ ¬ t <:+: s := by
  rw [← strstr_isSome_iff]
  simp

/-- What has no separator is on one side of it. -/
theorem infix_append_cons {u : Str} (h : c ∉ t) (hpart : t <:+: s ++ c :: u) :
    t <:+: s ∨ t <:+: u := by
  induction s with
  | nil =>
    rcases List.infix_cons_iff.mp hpart with hprefix | hpart
    · cases t with
      | nil => exact .inl (List.infix_refl [])
      | cons d t =>
        obtain ⟨rfl, -⟩ := List.cons_prefix_cons.mp hprefix
        exact absurd List.mem_cons_self h
    · exact .inr hpart
  | cons d s ih =>
    rcases List.infix_cons_iff.mp hpart with hprefix | hpart
    · refine .inl (List.IsPrefix.isInfix ?_)
      rcases List.prefix_or_prefix_of_prefix hprefix (List.prefix_append (d :: s) (c :: u)) with
        hle | ⟨rest, rfl⟩
      · exact hle
      · have hrest := (List.prefix_append_right_inj (d :: s)).mp hprefix
        cases rest with
        | nil => rw [List.append_nil]
        | cons e rest =>
          obtain ⟨rfl, -⟩ := List.cons_prefix_cons.mp hrest
          exact absurd (List.mem_append_right _ List.mem_cons_self) h
    · exact (ih hpart).imp_left List.infix_cons

/-- The first occurrence of a character that the text before it does not have. -/
theorem strstr_append (h : c ∉ s) (rest : Str) : strstr (s ++ c :: rest) [c] = some s.length := by
  induction s with
  | nil => simp [strstr]
  | cons d s ih =>
    obtain ⟨hd, hs⟩ := not_or.mp (List.mem_cons.not.mp h)
    rw [List.cons_append, strstr, ih hs]
    simp [hd]

theorem strstr_append_right {t : Str} (h : c ∉ t) (s : Str) :
    strstr (s ++ t) [c] = strstr s [c] := by
  induction s with
  | nil =>
    have hnone : strstr t [c] = none :=
      strstr_eq_none_iff.mpr ((List.singleton_infix_iff c t).not.mpr h)
    rw [List.nil_append, hnone]
    rfl
  | cons d s ih =>
    rw [List.cons_append, strstr, strstr, ih]
    simp only [List.cons_prefix_cons, List.nil_prefix, and_true]

/-- The first of the places where the string occurs. -/
theorem strstr_eq_some_iff {i : Nat} :
    strstr s t = some i ↔ t <+: s.drop i ∧ ∀ j, j < i → ¬ t <+: s.drop j := by
  induction s generalizing i with
  | nil =>
    rw [strstr]
    by_cases ht : t = []
    · subst ht
      cases i with
      | zero => simp
      | succ i =>
        refine iff_of_false (fun h => by cases h) fun h => h.2 0 (Nat.succ_pos i) ?_
        rw [List.drop_nil]
    · simp [ht]
  | cons c s ih =>
    rw [strstr]
    by_cases hfront : t <+: c :: s
    · rw [if_pos hfront]
      cases i with
      | zero => simpa using hfront
      | succ i =>
        exact iff_of_false (fun h => by cases h) fun h => h.2 0 (Nat.succ_pos i) hfront
    · rw [if_neg hfront]
      cases i with
      | zero => simpa using fun h => absurd h hfront
      | succ i =>
        rw [Option.map_eq_some_iff]
        constructor
        · rintro ⟨k, hk, heq⟩
          obtain rfl := Nat.succ.inj heq
          obtain ⟨hfound, hfirst⟩ := ih.mp hk
          refine ⟨hfound, fun j hj => ?_⟩
          cases j with
          | zero => exact hfront
          | succ j => exact hfirst j (Nat.lt_of_succ_lt_succ hj)
        · rintro ⟨hfound, hfirst⟩
          exact ⟨i, ih.mpr ⟨hfound, fun j hj => hfirst (j + 1) (Nat.succ_lt_succ hj)⟩, rfl⟩

theorem strstr_add_length_le {i : Nat} (h : strstr s t = some i) : i + t.length ≤ s.length := by
  induction s generalizing i with
  | nil =>
    obtain ⟨rfl, h⟩ := Option.ite_none_right_eq_some.mp h
    cases h
    exact le_rfl
  | cons c s ih =>
    rw [strstr] at h
    split at h
    · rename_i hfront
      cases h
      rw [Nat.zero_add]
      exact hfront.length_le
    · obtain ⟨j, hj, rfl⟩ := Option.map_eq_some_iff.mp h
      have := ih hj
      rw [List.length_cons]
      omega

theorem cutAt_nil (t : Str) : cutAt [] t = [] := by
  unfold cutAt
  split <;> simp

theorem cutAt_cons (c : UInt8) (s t : Str) :
    cutAt (c :: s) t = if t <+: c :: s then [] else c :: cutAt s t := by
  unfold cutAt
  rw [strstr]
  by_cases h : t <+: c :: s
  · simp [h]
  · rw [if_neg h, if_neg h]
    cases strstr s t <;> rfl

theorem cutAt_isPrefix (s t : Str) : cutAt s t <+: s := by
  unfold cutAt
  split
  · exact List.take_prefix _ _
  · exact List.prefix_rfl

theorem not_infix_cutAt (ht : t ≠ []) : ¬ t <:+: cutAt s t := by
  induction s with
  | nil => simpa [cutAt_nil] using ht
  | cons c s ih =>
    rw [cutAt_cons]
    split
    · simpa using ht
    · rename_i hfront
      rw [List.infix_cons_iff, not_or]
      refine ⟨fun h => hfront (h.trans ?_), ih⟩
      exact (List.prefix_cons_inj c).mpr (cutAt_isPrefix s t)

theorem cutAt_eq_self (h : ¬ t <:+: s) : cutAt s t = s := by
  unfold cutAt
  rw [strstr_eq_none_iff.mpr h]

/-- Cuts at several strings, one after the other. -/
def cutAll (s : Str) (cuts : List Str) : Str := cuts.foldl cutAt s

theorem cutAll_isPrefix (cuts : List Str) (s : Str) : cutAll s cuts <+: s := by
  induction cuts generalizing s with
  | nil => exact List.prefix_rfl
  | cons t cuts ih => exact (ih _).trans (cutAt_isPrefix s t)

theorem not_infix_cutAll {cuts : List Str} (hcuts : [] ∉ cuts) (ht : t ∈ cuts) :
    ¬ t <:+: cutAll s cuts := by
  induction cuts generalizing s with
  | nil => cases ht
  | cons u cuts ih =>
    obtain ⟨hu, hcuts⟩ := not_or.mp (List.mem_cons.not.mp hcuts)
    rcases List.mem_cons.mp ht with rfl | ht
    · intro h
      exact not_infix_cutAt (Ne.symm hu) (h.trans (cutAll_isPrefix cuts _).isInfix)
    · exact ih hcuts ht

/-- Nothing is cut off exactly when none of the strings occurs. -/
theorem cutAll_eq_self_iff {cuts : List Str} (hcuts : [] ∉ cuts) :
    cutAll s cuts = s ↔ ∀ t ∈ cuts, ¬ t <:+: s := by
  constructor
  · intro h t ht
    rw [← h]
    exact not_infix_cutAll hcuts ht
  · intro h
    clear hcuts
    induction cuts with
    | nil => rfl
    | cons t cuts ih =>
      obtain ⟨ht, hcuts⟩ := List.forall_mem_cons.mp h
      show cutAll (cutAt s t) cuts = s
      rw [cutAt_eq_self ht]
      exact ih hcuts

end Strings

section Memory

variable {mem : Nat → UInt8} {s t : Str}

@[simp] theorem store_nil (mem : Nat → UInt8) (pos : Nat) : store mem pos [] = mem := by
  funext i
  simp [store]

/-- The other bytes stay as they are. -/
theorem store_outside {mem : Nat → UInt8} {pos i : Nat} {bytes : List UInt8}
    (h : i < pos ∨ pos + bytes.length ≤ i) : store mem pos bytes i = mem i := by
  rw [store]
  split
  · rw [List.getElem?_eq_none (by omega), Option.getD_none]
  · rfl

theorem store_append (mem : Nat → UInt8) (pos : Nat) (a b : List UInt8) :
    store (store mem pos a) (pos + a.length) b = store mem pos (a ++ b) := by
  funext i
  rcases Nat.lt_or_ge i pos with hlt | hge
  · have hfar : ¬ pos + a.length ≤ i := by omega
    simp [store, hfar, Nat.not_le.mpr hlt]
  · rcases Nat.lt_or_ge i (pos + a.length) with hin | hout
    · have hi : i - pos < a.length := by omega
      simp [store, hge, Nat.not_le.mpr hin, List.getElem?_append_left hi]
    · have hi : a.length ≤ i - pos := by omega
      simp [store, hge, hout, List.getElem?_append_right hi, List.getElem?_eq_none hi,
        Nat.sub_sub]

theorem store_store (mem : Nat → UInt8) (pos : Nat) (bytes : List UInt8) :
    store (store mem pos bytes) pos bytes = store mem pos bytes := by
  funext i
  by_cases hi : pos ≤ i
  · cases h : bytes[i - pos]? <;> simp [store, hi, h]
  · simp [store, hi]

theorem holds_store (mem : Nat → UInt8) (s : Str) : Holds (store mem 0 (s ++ [0])) s := by
  intro i hi
  rcases Nat.lt_or_eq_of_le hi with hlt | rfl
  · simp [store, List.getElem?_append_left hlt, List.getElem?_eq_getElem hlt]
  · simp [store]

theorem Holds.length_le (hs : Holds mem s) (ht : Holds mem t) (zero : 0 ∉ t) :
    t.length ≤ s.length := by
  by_contra hlt
  have hlt : s.length < t.length := by omega
  have h := (hs s.length le_rfl).symm.trans (ht s.length hlt.le)
  rw [List.getD_eq_default _ _ le_rfl, List.getD_eq_getElem _ _ hlt] at h
  exact zero (h ▸ List.getElem_mem hlt)

theorem Holds.unique (hs : Holds mem s) (ht : Holds mem t) (zero : 0 ∉ s) (zero' : 0 ∉ t) :
    s = t := by
  have hlength := le_antisymm (ht.length_le hs zero) (hs.length_le ht zero')
  refine List.ext_getElem hlength fun i hi hi' => ?_
  have h := (hs i hi.le).symm.trans (ht i hi'.le)
  rwa [List.getD_eq_getElem _ _ hi, List.getD_eq_getElem _ _ hi'] at h

theorem holds_store_iff (zero : 0 ∉ s) (zero' : 0 ∉ t) :
    Holds (store mem 0 (s ++ [0])) t ↔ s = t := by
  constructor
  · exact fun h => (holds_store mem s).unique h zero zero'
  · rintro rfl
    exact holds_store mem s

end Memory

end CString
