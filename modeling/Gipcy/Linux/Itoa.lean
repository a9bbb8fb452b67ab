import Gipcy.Lib.CString
import Gipcy.Lib.Reversal
import Mathlib.Data.Nat.Digits.Lemmas

/-! `IPC_itoa`. -/
namespace Gipcy.Linux.Itoa

open CString Reversal

/-- The value of an expression of type `int`, if it does not overflow. -/
def int (n : Int) : Option Int := if -0x80000000 ≤ n ∧ n < 0x80000000 then some n else none

def digitTable : Str := chars [
  'z', 'y', 'x', 'w', 'v', 'u', 't', 's', 'r', 'q', 'p', 'o', 'n', 'm', 'l', 'k', 'j', 'i', 'h',
  'g', 'f', 'e', 'd', 'c', 'b', 'a', '9', '8', '7', '6', '5', '4', '3', '2', '1', '0', '1', '2',
  '3', '4', '5', '6', '7', '8', '9', 'a', 'b', 'c', 'd', 'e', 'f', 'g', 'h', 'i', 'j', 'k', 'l',
  'm', 'n', 'o', 'p', 'q', 'r', 's', 't', 'u', 'v', 'w', 'x', 'y', 'z']

/-- The character that a round of the division loop stores. -/
def digitAt (base tmp_value : Int) : Option UInt8 := do
  let value ← int (tmp_value.tdiv base)
  let product ← int (value * base)
  let rest ← int (tmp_value - product)
  let index ← int (35 + rest)
  if index < 0 then none else digitTable[index.toNat]?

/-- The division loop: what it stores, and the last `tmp_value`. -/
def digitLoop (base : Int) (hbase : 2 ≤ base) (value : Int) : Option (Str × Int) := do
  let digit ← digitAt base value
  if _more : value.tdiv base ≠ 0 then
    let (digits, tmp_value) ← digitLoop base hbase (value.tdiv base)
    return (digit :: digits, tmp_value)
  else return ([digit], value)
termination_by value.natAbs
decreasing_by
  rw [Int.natAbs_tdiv]
  have hvalue : value.natAbs ≠ 0 := fun h => _more (by rw [Int.natAbs_eq_zero.mp h]; simp)
  exact Nat.div_lt_self (Nat.pos_of_ne_zero hvalue) (by omega)

theorem two_le_toInt {base : Int32} (h : ¬ (base < 2 ∨ 36 < base)) : 2 ≤ base.toInt := by
  have hlow : ¬ base < 2 := fun hlt => h (.inl hlt)
  exact Int32.le_iff_toInt_le.mp (Int32.not_lt.mp hlow)

/-- The bytes that the call stores from `result` on; `none` if an `int` overflows
or the table is left. -/
def itoa (value base : Int32) : Option (List UInt8) :=
  if hbase : base < 2 ∨ 36 < base then some [0]
  else do
    let (digits, tmp_value) ← digitLoop base.toInt (two_le_toInt hbase) value.toInt
    let s := if tmp_value < 0 then digits ++ ['-'.toUInt8] else digits
    return swapLoop 0 (s.length - 1) s ++ [0]

/-! Numerals. -/

def digitChar (d : Nat) : UInt8 :=
  if d < 10 then '0'.toUInt8 + d.toUInt8 else 'a'.toUInt8 + (d - 10).toUInt8

def digitValue (c : UInt8) : Nat :=
  if c ≤ '9'.toUInt8 then (c - '0'.toUInt8).toNat else (c - 'a'.toUInt8).toNat + 10

/-- The digits of a number, the last one first. -/
def digitsOf (base n : Nat) : List Nat := if n = 0 then [0] else Nat.digits base n

def numeral (base : Nat) (value : Int) : Str :=
  (if value < 0 then ['-'.toUInt8] else []) ++ ((digitsOf base value.natAbs).map digitChar).reverse

def readDigits (base : Nat) (s : Str) : Nat := Nat.ofDigits base (s.reverse.map digitValue)

/-- The number that a numeral stands for. -/
def readNumeral (base : Nat) (s : Str) : Int :=
  if s.head? = some '-'.toUInt8 then -(readDigits base s.tail : Int) else readDigits base s

section Digits

variable {b n d : Nat}

theorem int_eq {n : Int} (low : -0x80000000 ≤ n) (high : n < 0x80000000) : int n = some n :=
  if_pos ⟨low, high⟩

/-- The table from its middle on, in both directions. -/
theorem digitTable_mirrored : ∀ d : Fin 36, digitTable[35 + d.val]? = some (digitChar d) ∧
    digitTable[35 - d.val]? = some (digitChar d) := by
  decide

theorem digitValue_digitChar : ∀ d : Fin 36, digitValue (digitChar d) = d := by decide

theorem digitChar_ne_minus : ∀ d : Fin 36, digitChar d ≠ '-'.toUInt8 := by decide

theorem digitChar_eq_zero_iff : ∀ d : Fin 36, digitChar d = '0'.toUInt8 ↔ d.val = 0 := by decide

theorem digitsOf_lt (hb : 2 ≤ b) : ∀ d ∈ digitsOf b n, d < b := by
  intro d hd
  unfold digitsOf at hd
  split at hd
  · rw [List.mem_singleton.mp hd]
    omega
  · exact Nat.digits_lt_base hb hd

theorem digitsOf_of_lt (h : n < b) : digitsOf b n = [n] := by
  unfold digitsOf
  split
  · rename_i hn
    rw [hn]
  · rename_i hn
    exact Nat.digits_of_lt b n hn h

theorem digitsOf_of_le (hb : 2 ≤ b) (h : b ≤ n) :
    digitsOf b n = (n % b) :: digitsOf b (n / b) := by
  have hn : n ≠ 0 := by omega
  have hdiv : n / b ≠ 0 := Nat.div_ne_zero_iff.mpr ⟨by omega, h⟩
  rw [digitsOf, digitsOf, if_neg hn, if_neg hdiv, Nat.digits_def' hb (Nat.pos_of_ne_zero hn)]

/-- The round of the loop, with the values of its expressions. -/
theorem digitAt_of_parts {base value quotient product rest : Int}
    (hdiv : value.tdiv base = quotient)
    (hproduct : quotient * base = product) (hrest : value - product = rest)
    (quotient_fits : int quotient = some quotient) (product_fits : int product = some product)
    (rest_fits : int rest = some rest) (index_fits : int (35 + rest) = some (35 + rest)) :
    digitAt base value = if 35 + rest < 0 then none else digitTable[(35 + rest).toNat]? := by
  unfold digitAt
  rw [hdiv, quotient_fits]
  simp only [Option.bind_eq_bind, Option.bind_some]
  rw [hproduct, product_fits]
  simp only [Option.bind_some]
  rw [hrest, rest_fits]
  simp only [Option.bind_some]
  rw [index_fits]
  rfl

/-- The remainder has the sign of the number, and so has the digit its place in the
table. -/
theorem digitAt_eq (hb : 2 ≤ b) (hb' : b ≤ 36) {value : Int} (low : -0x80000000 ≤ value)
    (high : value < 0x80000000) :
    digitAt b value = some (digitChar (value.natAbs % b)) := by
  obtain ⟨n, hn⟩ := value.eq_nat_or_neg
  obtain ⟨quotient, hquotient⟩ : ∃ quotient, n / b = quotient := ⟨_, rfl⟩
  obtain ⟨rest, hrest⟩ : ∃ rest, n % b = rest := ⟨_, rfl⟩
  obtain ⟨product, hproduct⟩ : ∃ product, quotient * b = product := ⟨_, rfl⟩
  have hlt : rest < b := hrest ▸ Nat.mod_lt n (by omega)
  have hsum : product + rest = n := by
    rw [← hproduct, ← hquotient, ← hrest]
    exact Nat.div_add_mod' n b
  have hle : quotient ≤ n := hquotient ▸ Nat.div_le_self n b
  have hcast : (quotient : Int) * b = product := by
    rw [← hproduct]
    push_cast
    rfl
  obtain ⟨hup, hdown⟩ := digitTable_mirrored ⟨rest, by omega⟩
  rcases hn with rfl | rfl
  · have hdiv : (n : Int).tdiv b = quotient := by rw [← Int.ofNat_tdiv, hquotient]
    have hremainder : (n : Int) - product = rest := by omega
    rw [digitAt_of_parts hdiv hcast hremainder (int_eq (by omega) (by omega))
      (int_eq (by omega) (by omega)) (int_eq (by omega) (by omega)) (int_eq (by omega) (by omega))]
    have hindex : ((35 : Int) + rest).toNat = 35 + rest := by omega
    rw [if_neg (by omega), hindex, Int.natAbs_natCast, hrest]
    exact hup
  · have hdiv : (-(n : Int)).tdiv b = -(quotient : Int) := by
      rw [Int.neg_tdiv, ← Int.ofNat_tdiv, hquotient]
    have hcast : -(quotient : Int) * b = -(product : Int) := by rw [Int.neg_mul, hcast]
    have hremainder : -(n : Int) - -(product : Int) = -(rest : Int) := by omega
    rw [digitAt_of_parts hdiv hcast hremainder (int_eq (by omega) (by omega))
      (int_eq (by omega) (by omega)) (int_eq (by omega) (by omega)) (int_eq (by omega) (by omega))]
    have hindex : ((35 : Int) + -(rest : Int)).toNat = 35 - rest := by omega
    rw [if_neg (by omega), hindex, Int.natAbs_neg, Int.natAbs_natCast, hrest]
    exact hdown

/-- The loop stores the digits, the last one first, and ends on a number of the same
sign. -/
theorem digitLoop_eq (hb : 2 ≤ b) (hb' : b ≤ 36) (hbase : 2 ≤ (b : Int)) {value : Int}
    (low : -0x80000000 ≤ value) (high : value < 0x80000000) :
    ∃ tmp_value, digitLoop b hbase value =
      some ((digitsOf b value.natAbs).map digitChar, tmp_value) ∧ (tmp_value < 0 ↔ value < 0) := by
  induction hn : value.natAbs using Nat.strongRecOn generalizing value with
  | ind n ih =>
    have hdigit := digitAt_eq hb hb' low high
    have hquotient : (value.tdiv b).natAbs = value.natAbs / b := by
      rw [Int.natAbs_tdiv, Int.natAbs_natCast]
      rfl
    rw [digitLoop, hdigit]
    by_cases hmore : value.tdiv b ≠ 0
    · have hle : b ≤ value.natAbs := by
        by_contra hlt
        rw [Nat.div_eq_of_lt (Nat.not_le.mp hlt)] at hquotient
        exact hmore (Int.natAbs_eq_zero.mp hquotient)
      have hdown : value.natAbs / b < n := hn ▸ Nat.div_lt_self (by omega) hb
      have hshrinks : (value.tdiv b).natAbs ≤ value.natAbs :=
        hquotient ▸ Nat.div_le_self value.natAbs b
      have hsign : value.tdiv b < 0 ↔ value < 0 := by
        have hpos : 0 ≤ value → 0 ≤ value.tdiv b := fun h => Int.tdiv_nonneg h (by omega)
        have hneg : 0 ≤ -value → 0 ≤ (-value).tdiv b := fun h => Int.tdiv_nonneg h (by omega)
        rw [Int.neg_tdiv] at hneg
        omega
      obtain ⟨tmp_value, hrest, hlast⟩ := ih _ hdown (by omega) (by omega) hquotient
      refine ⟨tmp_value, ?_, hlast.trans hsign⟩
      rw [← hn, digitsOf_of_le hb hle]
      simp [hmore, hrest]
    · have hlt : value.natAbs < b := by
        rw [not_not.mp hmore, Int.natAbs_zero, eq_comm, Nat.div_eq_zero_iff] at hquotient
        omega
      refine ⟨value, ?_, Iff.rfl⟩
      rw [← hn, digitsOf_of_lt hlt, Nat.mod_eq_of_lt hlt]
      simp [hmore]

theorem readDigits_map (hb : 2 ≤ b) (hb' : b ≤ 36) (n : Nat) :
    readDigits b ((digitsOf b n).map digitChar).reverse = n := by
  have hvalues : (digitsOf b n).map (digitValue ∘ digitChar) = digitsOf b n := by
    refine (List.map_congr_left fun d hd => ?_).trans (List.map_id _)
    have hd := digitsOf_lt hb d hd
    exact digitValue_digitChar ⟨d, by omega⟩
  rw [readDigits, List.reverse_reverse, List.map_map, hvalues, digitsOf]
  split
  · rename_i hn
    simp [hn]
  · exact Nat.ofDigits_digits b n

/-- A property that every digit has, every character of the digits has. -/
theorem forall_mem_digits {p : UInt8 → Prop} (hp : ∀ d : Fin 36, p (digitChar d)) (hb : 2 ≤ b)
    (hb' : b ≤ 36) (n : Nat) : ∀ c ∈ ((digitsOf b n).map digitChar).reverse, p c := by
  intro c hc
  obtain ⟨d, hd, rfl⟩ := List.mem_map.mp (List.mem_reverse.mp hc)
  have hd := digitsOf_lt hb d hd
  exact hp ⟨d, by omega⟩

theorem digitsOf_ne_nil (b n : Nat) : digitsOf b n ≠ [] := by
  unfold digitsOf
  split
  · simp
  · rename_i hn
    exact Nat.digits_ne_nil_iff_ne_zero.mpr hn

/-- A number of 32 bits has no more digits than in base two. -/
theorem length_digitsOf_le (hb : 2 ≤ b) (hn : n < 2 ^ 32) : (digitsOf b n).length ≤ 32 := by
  unfold digitsOf
  split
  · simp
  · rw [Nat.digits_length_le_iff hb]
    exact hn.trans_le (Nat.pow_le_pow_left hb 32)

theorem eq_zero_of_leading (hb : 2 ≤ b) (hb' : b ≤ 36)
    (h : ((digitsOf b n).map digitChar).reverse.head? = some '0'.toUInt8) : n = 0 := by
  rw [List.head?_reverse, List.getLast?_map, List.getLast?_eq_some_getLast (digitsOf_ne_nil b n),
    Option.map_some] at h
  have hlt := digitsOf_lt hb _ (List.getLast_mem (digitsOf_ne_nil b n))
  have hlast := (digitChar_eq_zero_iff ⟨_, by omega⟩).mp (Option.some.inj h)
  by_contra hn
  have hdigits : digitsOf b n = Nat.digits b n := if_neg hn
  simp only [hdigits] at hlast
  exact Nat.getLast_digit_ne_zero b hn hlast

end Digits

/-- The bytes are the numeral of the number, with its NUL. -/
structure Converts (base : Nat) (value : Int) (bytes : List UInt8) : Prop where
  stored : bytes = numeral base value ++ [0]
  ended : 0 ∉ numeral base value
  read : readNumeral base (numeral base value) = value
  leading : (numeral base value).head? = some '0'.toUInt8 → value = 0
  size : bytes.length ≤ 34

section Numerals

variable {b : Nat} {value : Int}

theorem converts_numeral (hb : 2 ≤ b) (hb' : b ≤ 36) (low : -0x80000000 ≤ value)
    (high : value < 0x80000000) : Converts b value (numeral b value ++ [0]) := by
  have hzero := forall_mem_digits (p := (· ≠ 0)) (by decide) hb hb' value.natAbs
  have hminus := forall_mem_digits (p := (· ≠ '-'.toUInt8)) digitChar_ne_minus hb hb' value.natAbs
  have hlength := length_digitsOf_le (n := value.natAbs) hb (by omega)
  have hread := readDigits_map hb hb' value.natAbs
  have hleading := eq_zero_of_leading (n := value.natAbs) hb hb'
  rcases Int.lt_or_le value 0 with hneg | hpos
  · have hnumeral : numeral b value =
        '-'.toUInt8 :: ((digitsOf b value.natAbs).map digitChar).reverse := by
      rw [numeral, if_pos hneg, List.singleton_append]
    refine ⟨rfl, ?_, ?_, ?_, ?_⟩
    · rw [hnumeral]
      exact List.not_mem_cons_of_ne_of_not_mem (by decide) fun h => hzero 0 h rfl
    · rw [hnumeral, readNumeral, if_pos List.head?_cons, List.tail_cons, hread]
      omega
    · rw [hnumeral]
      exact fun h => absurd (Option.some.inj h) (by decide)
    · rw [hnumeral]
      simp only [List.length_append, List.length_cons, List.length_reverse, List.length_map,
        List.length_nil]
      omega
  · have hnumeral : numeral b value = ((digitsOf b value.natAbs).map digitChar).reverse := by
      rw [numeral, if_neg (Int.not_lt.mpr hpos), List.nil_append]
    have hfirst : ((digitsOf b value.natAbs).map digitChar).reverse.head? ≠ some '-'.toUInt8 :=
      fun h => hminus _ (List.mem_of_head? h) rfl
    refine ⟨rfl, ?_, ?_, ?_, ?_⟩
    · rw [hnumeral]
      exact fun h => hzero 0 h rfl
    · rw [hnumeral, readNumeral, if_neg hfirst, hread]
      omega
    · rw [hnumeral]
      exact fun h => Int.natAbs_eq_zero.mp (hleading h)
    · rw [hnumeral]
      simp only [List.length_append, List.length_cons, List.length_reverse, List.length_map,
        List.length_nil]
      omega

end Numerals

theorem itoa_eq {value base : Int32} (low : 2 ≤ base) (high : base ≤ 36) :
    itoa value base = some (numeral base.toInt.toNat value.toInt ++ [0]) := by
  have hlow : (2 : Int) ≤ base.toInt := Int32.le_iff_toInt_le.mp low
  have hhigh : base.toInt ≤ 36 := Int32.le_iff_toInt_le.mp high
  have hbase : ¬ (base < 2 ∨ 36 < base) := by
    rintro (hlt | hlt)
    · exact Int32.not_lt.mpr low hlt
    · exact Int32.not_lt.mpr high hlt
  have hloop : ∀ base' (hbase' : 2 ≤ base'), base' = (base.toInt.toNat : Int) →
      ∃ tmp_value, digitLoop base' hbase' value.toInt =
        some ((digitsOf base.toInt.toNat value.toInt.natAbs).map digitChar, tmp_value) ∧
        (tmp_value < 0 ↔ value.toInt < 0) := by
    rintro _ hbase' rfl
    exact digitLoop_eq (by omega) (by omega) hbase' (Int32.le_toInt value) (Int32.toInt_lt value)
  obtain ⟨tmp_value, hdigits, hsign⟩ := hloop _ (two_le_toInt hbase) (by omega)
  rw [itoa, dif_neg hbase, hdigits]
  simp only [Option.bind_eq_bind, Option.bind_some, hsign, swapLoop_eq_reverse, numeral]
  split <;> simp

/-- The call stores the numeral of the number in the base. -/
theorem itoa_converts {value base : Int32} (low : 2 ≤ base) (high : base ≤ 36) :
    ∃ bytes, itoa value base = some bytes ∧ Converts base.toInt.toNat value.toInt bytes := by
  have hlow : (2 : Int) ≤ base.toInt := Int32.le_iff_toInt_le.mp low
  have hhigh : base.toInt ≤ 36 := Int32.le_iff_toInt_le.mp high
  exact ⟨_, itoa_eq low high, converts_numeral (by omega) (by omega) (Int32.le_toInt value)
    (Int32.toInt_lt value)⟩

/-- `INT_MIN` in base two takes all the 34 bytes. -/
theorem itoa_converts_int_min : ∃ bytes, itoa (-2147483648) 2 = some bytes ∧
    Converts 2 (-2147483648) bytes :=
  @itoa_converts (-2147483648) 2 (by decide) (by decide)

end Gipcy.Linux.Itoa
