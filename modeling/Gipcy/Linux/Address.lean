import Gipcy.Linux.Itoa

/-! Addresses of sockets as text: `IPC_resolve` over `inet_addr` and `atoi`, and
`IPC_inet_ntoa`, on a machine that stores the low byte first. -/
namespace Gipcy.Linux.Address

open CString Itoa

def isspace (c : UInt8) : Bool := c = 32 ∨ 9 ≤ c ∧ c ≤ 13

/-- Digits above 9 are letters of either case. -/
def isDigit (base : Nat) (c : UInt8) : Bool := digitValue (tolower c) < base

/-- The digits at the front as a number, and what follows them. -/
def readNumber (base : Nat) (s : Str) : Nat × Str :=
  (readDigits base ((s.takeWhile (isDigit base)).map tolower), s.dropWhile (isDigit base))

/-- `strtoul` in the base 0, on a string that begins with a digit. -/
def strtoul (s : Str) : Nat × Str :=
  if s.head? = some '0'.toUInt8 then
    if (s[1]?).any (fun c => tolower c = 'x'.toUInt8) ∧ (s[2]?).any (isDigit 16) then
      readNumber 16 (s.drop 2)
    else readNumber 8 s
  else readNumber 10 s

/-- The numbers of an address with at most `more` dots, and what follows them. -/
def inetParts : Nat → Str → Option (List Nat × Str)
  | more, s =>
    if s.head?.any (isDigit 10) then
      let (val, rest) := strtoul s
      if 0xffffffff < val then none
      else if rest.head? = some '.'.toUInt8 then
        match more with
        | 0 => none
        | more + 1 =>
          if 0xff < val then none
          else (inetParts more rest.tail).map fun r => (val :: r.1, r.2)
      else some ([val], rest)
    else none

def bigEndian (size n : Nat) : List Nat := (List.range size).reverse.map fun i => n / 256 ^ i % 256

/-- The last number fills the bytes that the others leave. -/
def addressBytes (vals : List Nat) : Option (List Nat) :=
  let room := 5 - vals.length
  vals.getLast?.bind fun last =>
    if last < 256 ^ room then some (vals.dropLast ++ bigEndian room last) else none

def INADDR_NONE : Nat := 0xffffffff

def inetAddr (cp : Str) : Nat :=
  match inetParts 3 cp with
  | none => INADDR_NONE
  | some (vals, rest) =>
    if rest.head?.all isspace then
      match addressBytes vals with
      | some bytes => Nat.ofDigits 256 bytes
      | none => INADDR_NONE
    else INADDR_NONE

/-- The value is that of `strtol`, cast to an `int`. -/
def atoi (s : Str) : Int :=
  let s := s.dropWhile isspace
  let negative := s.head? = some '-'.toUInt8
  let digits := if negative ∨ s.head? = some '+'.toUInt8 then s.tail else s
  let n : Int := (readNumber 10 digits).1
  Int.bmod (if negative then max (-n) (-0x8000000000000000) else min n 0x7fffffffffffffff) (2 ^ 32)

structure IpcSockaddr where
  port : UInt16
  ip : Nat
deriving DecidableEq

/-- `IPC_resolve`; `none` where the text does not fit into its buffer of 256 characters. -/
def ipcResolve (addr : Str) : Option IpcSockaddr :=
  if 256 ≤ addr.length then none
  else
    match strstr addr [':'.toUInt8] with
    | some pp =>
      some ⟨UInt16.ofInt (atoi (addr.drop (pp + 1))), inetAddr (addr.take pp)⟩
    | none => some ⟨0, inetAddr addr⟩

/-- `IPC_inet_ntoa`. -/
def ipcInetNtoa (addr : Nat) : Str :=
  let byte := fun i => numeral 10 (addr / 256 ^ i % 256 : Nat)
  byte 0 ++ '.'.toUInt8 :: (byte 1 ++ '.'.toUInt8 :: (byte 2 ++ '.'.toUInt8 :: byte 3))

/-! Numerals are read back. -/

section Numbers

variable {n b : Nat} {rest : Str}

/-- No digit of any base follows. -/
def Ends (rest : Str) : Prop := ∀ c ∈ rest.head?, 36 ≤ digitValue (tolower c)

theorem ends_nil : Ends [] := by
  intro c hc
  cases hc

theorem ends_cons {c : UInt8} (h : 36 ≤ digitValue (tolower c)) (rest : Str) :
    Ends (c :: rest) := by
  rintro d ⟨⟩
  exact h

theorem isDigit_digitChar : ∀ d : Fin 10, isDigit 10 (digitChar d) = true := by decide

theorem tolower_digitChar : ∀ d : Fin 10, tolower (digitChar d) = digitChar d := by decide

theorem numeral_natCast (n : Nat) :
    numeral 10 n = ((digitsOf 10 n).map digitChar).reverse := by
  rw [numeral, if_neg (by omega), List.nil_append, Int.natAbs_natCast]

/-- What every decimal digit has, the characters of a numeral have. -/
theorem forall_mem_numeral {p : UInt8 → Prop} (hp : ∀ d : Fin 10, p (digitChar d)) (n : Nat) :
    ∀ c ∈ numeral 10 n, p c := by
  rw [numeral_natCast]
  intro c hc
  obtain ⟨d, hd, rfl⟩ := List.mem_map.mp (List.mem_reverse.mp hc)
  exact hp ⟨d, digitsOf_lt (by decide) d hd⟩

theorem numeral_ne_nil (n : Nat) : numeral 10 n ≠ [] := by
  rw [numeral_natCast]
  simp [digitsOf_ne_nil]

theorem not_isDigit_of_ends (hb : b ≤ 36) (ends : Ends rest) :
    ∀ c ∈ rest.head?, isDigit b c = false := by
  intro c hc
  have hvalue := ends c hc
  exact decide_eq_false (by omega)

theorem takeWhile_digits {s : Str} (hs : ∀ c ∈ s, isDigit b c = true)
    (hrest : ∀ c ∈ rest.head?, isDigit b c = false) : (s ++ rest).takeWhile (isDigit b) = s := by
  rw [List.takeWhile_append_of_pos hs]
  cases rest with
  | nil => simp
  | cons c rest => simp [hrest c rfl]

theorem dropWhile_digits {s : Str} (hs : ∀ c ∈ s, isDigit b c = true)
    (hrest : ∀ c ∈ rest.head?, isDigit b c = false) : (s ++ rest).dropWhile (isDigit b) = rest := by
  rw [List.dropWhile_append_of_pos hs]
  cases rest with
  | nil => rfl
  | cons c rest => simp [hrest c rfl]

theorem readNumber_numeral (n : Nat) (ends : Ends rest) :
    readNumber 10 (numeral 10 n ++ rest) = (n, rest) := by
  have hdigits := forall_mem_numeral (p := fun c => isDigit 10 c = true) isDigit_digitChar n
  have hrest := not_isDigit_of_ends (by decide : 10 ≤ 36) ends
  have hlower : (numeral 10 n).map tolower = numeral 10 n := by
    refine (List.map_congr_left fun c hc => ?_).trans (List.map_id _)
    exact forall_mem_numeral (p := fun c => tolower c = c) tolower_digitChar n c hc
  rw [readNumber, takeWhile_digits hdigits hrest, dropWhile_digits hdigits hrest, hlower,
    numeral_natCast, readDigits_map (by decide) (by decide)]

/-- A numeral other than that of 0 does not begin like a number in another base. -/
theorem strtoul_numeral (n : Nat) (ends : Ends rest) :
    strtoul (numeral 10 n ++ rest) = (n, rest) := by
  rcases Nat.eq_zero_or_pos n with rfl | hpos
  · have hzero : numeral 10 (0 : Nat) = ['0'.toUInt8] := by decide
    have hx : (rest.head?).any (fun c => tolower c = 'x'.toUInt8) = false := by
      cases hc : rest.head? with
      | none => rfl
      | some c =>
        have hvalue := ends c hc
        have hne : tolower c ≠ 'x'.toUInt8 := by
          intro heq
          rw [heq] at hvalue
          exact absurd hvalue (by decide)
        simp [hne]
    have hrest := not_isDigit_of_ends (by decide : 8 ≤ 36) ends
    rw [hzero, List.singleton_append, strtoul, if_pos List.head?_cons, List.getElem?_cons_succ,
      ← List.head?_eq_getElem?, hx, if_neg (by simp), readNumber]
    have hs : ∀ c ∈ ['0'.toUInt8], isDigit 8 c = true :=
      List.forall_mem_singleton.mpr (by decide)
    rw [← List.singleton_append, takeWhile_digits hs hrest, dropWhile_digits hs hrest]
    rfl
  · have hhead : (numeral 10 n ++ rest).head? ≠ some '0'.toUInt8 := by
      intro hhead
      rw [List.head?_append_of_ne_nil _ (numeral_ne_nil n), numeral_natCast] at hhead
      exact absurd (eq_zero_of_leading (by decide) (by decide) hhead) (by omega)
    rw [strtoul, if_neg hhead]
    exact readNumber_numeral n ends

end Numbers

/-! Addresses are read back. -/

section Addresses

variable {val more : Nat} {rest : Str} {ip : Nat}

theorem head?_numeral_append (n : Nat) (rest : Str) :
    ((numeral 10 n ++ rest).head?).any (isDigit 10) = true := by
  rw [List.head?_append_of_ne_nil _ (numeral_ne_nil n)]
  obtain ⟨c, hc⟩ := Option.ne_none_iff_exists'.mp
    (fun h => numeral_ne_nil n (List.head?_eq_none_iff.mp h))
  rw [hc]
  exact forall_mem_numeral (p := fun c => isDigit 10 c = true) isDigit_digitChar n c
    (List.mem_of_head? hc)

theorem inetParts_dot (hval : val < 256) :
    inetParts (more + 1) (numeral 10 val ++ '.'.toUInt8 :: rest) =
      (inetParts more rest).map fun r => (val :: r.1, r.2) := by
  have ends : Ends ('.'.toUInt8 :: rest) := ends_cons (by decide) rest
  rw [inetParts, if_pos (head?_numeral_append val _), strtoul_numeral val ends]
  simp only [List.head?_cons, List.tail_cons]
  rw [if_neg (by omega), if_pos trivial, if_neg (by omega)]

theorem inetParts_last (hval : val < 256) : inetParts more (numeral 10 val) = some ([val], []) := by
  have hhead := head?_numeral_append val []
  have hnumber := strtoul_numeral val ends_nil
  rw [List.append_nil] at hhead hnumber
  have hfits : ¬ 0xffffffff < val := by omega
  cases more <;> simp [inetParts, hhead, hnumber, hfits]

/-- The four bytes of an address, the low one first. -/
theorem ofDigits_bytes (hip : ip < 2 ^ 32) : Nat.ofDigits 256
    [ip / 256 ^ 0 % 256, ip / 256 ^ 1 % 256, ip / 256 ^ 2 % 256, ip / 256 ^ 3 % 256] = ip := by
  simp only [Nat.ofDigits_cons, Nat.ofDigits_nil]
  omega

theorem inetAddr_ntoa (hip : ip < 2 ^ 32) : inetAddr (ipcInetNtoa ip) = ip := by
  have hlt : ∀ i, ip / 256 ^ i % 256 < 256 := fun i => Nat.mod_lt _ (by decide)
  have hparts : inetParts 3 (ipcInetNtoa ip) = some ([ip / 256 ^ 0 % 256, ip / 256 ^ 1 % 256,
      ip / 256 ^ 2 % 256, ip / 256 ^ 3 % 256], []) := by
    simp only [ipcInetNtoa]
    rw [inetParts_dot (hlt 0), inetParts_dot (hlt 1), inetParts_dot (hlt 2), inetParts_last (hlt 3)]
    rfl
  have hbytes : addressBytes [ip / 256 ^ 0 % 256, ip / 256 ^ 1 % 256, ip / 256 ^ 2 % 256,
      ip / 256 ^ 3 % 256] = some [ip / 256 ^ 0 % 256, ip / 256 ^ 1 % 256, ip / 256 ^ 2 % 256,
      ip / 256 ^ 3 % 256] := by
    have hlast := hlt 3
    simp only [addressBytes, List.getLast?_cons_cons, List.getLast?_singleton, Option.bind_some]
    rw [if_pos (by simpa using hlast)]
    simp [bigEndian]
  rw [inetAddr, hparts]
  simp only [List.head?_nil, Option.all_none, if_true, hbytes]
  exact ofDigits_bytes hip

theorem atoi_numeral {n : Nat} (hn : n < 2 ^ 31) : atoi (numeral 10 n) = n := by
  have hspace := forall_mem_numeral (p := fun c => isspace c = false) (by decide) n
  have hsign := forall_mem_numeral (p := fun c => c ≠ '-'.toUInt8 ∧ c ≠ '+'.toUInt8) (by decide) n
  have hdrop : (numeral 10 n).dropWhile isspace = numeral 10 n := by
    cases hs : numeral 10 (n : Int) with
    | nil => rfl
    | cons c s =>
      rw [List.dropWhile_cons, hspace c (hs ▸ List.mem_cons_self)]
      simp
  have hminus : (numeral 10 n).head? ≠ some '-'.toUInt8 :=
    fun hc => (hsign _ (List.mem_of_head? hc)).1 rfl
  have hplus : (numeral 10 n).head? ≠ some '+'.toUInt8 :=
    fun hc => (hsign _ (List.mem_of_head? hc)).2 rfl
  have hread := readNumber_numeral n ends_nil
  rw [List.append_nil] at hread
  unfold atoi
  simp only [hdrop, hminus, hplus, or_self, if_false, hread]
  rw [min_eq_left (by omega)]
  exact Int.bmod_eq_of_le (by omega) (by omega)

theorem colon_not_mem_ntoa (ip : Nat) : ':'.toUInt8 ∉ ipcInetNtoa ip := by
  have hbyte : ∀ n : Nat, ':'.toUInt8 ∉ numeral 10 n := fun n hc =>
    forall_mem_numeral (p := fun c => c ≠ ':'.toUInt8) (by decide) n _ hc rfl
  have hdot : ':'.toUInt8 ≠ '.'.toUInt8 := by decide
  simp only [ipcInetNtoa, List.mem_append, List.mem_cons, not_or]
  exact ⟨hbyte _, hdot, hbyte _, hdot, hbyte _, hdot, hbyte _⟩

theorem length_numeral_le {n : Nat} (hn : n < 2 ^ 32) : (numeral 10 n).length ≤ 32 := by
  rw [numeral_natCast, List.length_reverse, List.length_map]
  exact length_digitsOf_le (by decide) hn

theorem length_ntoa_le (ip : Nat) : (ipcInetNtoa ip).length ≤ 131 := by
  have hbyte : ∀ i, (numeral 10 (ip / 256 ^ i % 256 : Nat)).length ≤ 32 := fun i =>
    length_numeral_le ((Nat.mod_lt _ (by decide)).trans (by decide))
  have h0 := hbyte 0
  have h1 := hbyte 1
  have h2 := hbyte 2
  have h3 := hbyte 3
  simp only [ipcInetNtoa, List.length_append, List.length_cons]
  omega

theorem port_toInt (port : UInt16) : port.toUInt32.toInt32.toInt = port.toNat := by
  have hlt : port.toNat < 2 ^ 16 := port.toNat_lt
  have hbmod : port.toUInt32.toInt32.toInt = (port.toUInt32.toNat : Int).bmod (2 ^ 32) :=
    BitVec.toInt_eq_toNat_bmod _
  rw [hbmod, UInt16.toNat_toUInt32]
  exact Int.bmod_eq_of_le (by omega) (by omega)

theorem port_ofInt (port : UInt16) : UInt16.ofInt port.toNat = port := by
  have hlt : port.toNat < 2 ^ 16 := port.toNat_lt
  rw [UInt16.ofInt, Int.emod_eq_of_lt (by omega) (by omega), Int.toNat_natCast, UInt16.ofNat_toNat]

end Addresses

section Claims

/-- `IPC_resolve` reads the address that `IPC_inet_ntoa` writes, alone or with a colon and
the port that `IPC_itoa` writes. -/
theorem resolve_written (ip : UInt32) (port : UInt16) :
    ipcResolve (ipcInetNtoa ip.toNat) = some ⟨0, ip.toNat⟩ ∧
    ∃ digits, itoa port.toUInt32.toInt32 10 = some (digits ++ [0]) ∧
      ipcResolve (ipcInetNtoa ip.toNat ++ ':'.toUInt8 :: digits) = some ⟨port, ip.toNat⟩ := by
  have hip : ip.toNat < 2 ^ 32 := ip.toNat_lt
  have hhost := length_ntoa_le ip.toNat
  have hcolon := colon_not_mem_ntoa ip.toNat
  refine ⟨?_, numeral 10 port.toNat, ?_, ?_⟩
  · have hnone : strstr (ipcInetNtoa ip.toNat) [':'.toUInt8] = none :=
      strstr_eq_none_iff.mpr fun hpart => hcolon ((List.singleton_infix_iff _ _).mp hpart)
    rw [ipcResolve, if_neg (by omega), hnone]
    simp only [inetAddr_ntoa hip]
  · have hvalue : port.toUInt32.toInt32.toInt = port.toNat := port_toInt port
    rw [itoa_eq (by decide) (by decide), hvalue]
    rfl
  · have hlt : port.toNat < 2 ^ 16 := port.toNat_lt
    have hdigits := length_numeral_le (n := port.toNat) (by omega)
    have hlength :
        ¬ 256 ≤ (ipcInetNtoa ip.toNat ++ ':'.toUInt8 :: numeral 10 port.toNat).length := by
      rw [List.length_append, List.length_cons]
      omega
    have hdrop : (ipcInetNtoa ip.toNat ++ ':'.toUInt8 :: numeral 10 port.toNat).drop
        ((ipcInetNtoa ip.toNat).length + 1) = numeral 10 port.toNat := by
      rw [List.drop_append]
      simp
    rw [ipcResolve, if_neg hlength, strstr_append hcolon]
    simp only [hdrop, List.take_left, inetAddr_ntoa hip]
    rw [atoi_numeral (by omega), port_ofInt]

end Claims

end Gipcy.Linux.Address
