import Mathlib.Algebra.Ring.Int.Defs
import Mathlib.Algebra.Ring.Nat

/-!
# Lib.Bytes

Byte memory as a C program sees it: fixed-width little-endian words, strings
closed by a NUL byte, and the string comparisons of `<string.h>`.

A reader is a function of the bytes that follow a pointer and fails
(`none`) when it would run off their end, so a proof that a read succeeds is
also a proof that it stays inside the object.
-/

namespace Bytes

/-! ## Little-endian words -/

/-- The low `k` bytes of `n`, least significant first. -/
def leBytes : Nat → Nat → List UInt8
  | 0, _ => []
  | k + 1, n => UInt8.ofNat n :: leBytes k (n / 256)

/-- The number that little-endian bytes spell. -/
def leNat : List UInt8 → Nat
  | [] => 0
  | b :: bs => b.toNat + 256 * leNat bs

@[simp] theorem length_leBytes (k n : Nat) : (leBytes k n).length = k := by
  induction k generalizing n with
  | zero => rfl
  | succ k ih => simp [leBytes, ih]

/-- Reading back a word gives the number, reduced to the width of the word. -/
theorem leNat_leBytes (k n : Nat) : leNat (leBytes k n) = n % 256 ^ k := by
  induction k generalizing n with
  | zero => simp [leBytes, leNat, Nat.mod_one]
  | succ k ih =>
      have hb : (UInt8.ofNat n).toNat = n % 256 := by simp
      rw [leBytes, leNat, ih, hb, Nat.pow_succ, Nat.mul_comm (256 ^ k) 256, Nat.mod_mul]

/-- Read an unsigned `k`-byte word at the pointer and step over it. -/
def readU (k : Nat) (mem : List UInt8) : Option (Nat × List UInt8) :=
  if k ≤ mem.length then some (leNat (mem.take k), mem.drop k) else none

theorem readU_append (k n : Nat) (rest : List UInt8) :
    readU k (leBytes k n ++ rest) = some (n % 256 ^ k, rest) := by
  have hlen : k ≤ (leBytes k n ++ rest).length := by simp
  rw [readU, if_pos hlen, List.take_left' (length_leBytes k n),
    List.drop_left' (length_leBytes k n), leNat_leBytes]

theorem readU_append_of_lt {k n : Nat} (h : n < 256 ^ k) (rest : List UInt8) :
    readU k (leBytes k n ++ rest) = some (n, rest) := by
  rw [readU_append, Nat.mod_eq_of_lt h]

/-! ## Two's complement -/

/-- The bits of an integer stored in `k` bytes. -/
def wrap (k : Nat) (i : Int) : Nat := (i % (256 ^ k : Nat)).toNat

/-- The signed reading of a `k`-byte word. -/
def signed (k : Nat) (n : Nat) : Int :=
  if 2 * n < 256 ^ k then n else (n : Int) - (256 ^ k : Nat)

/-- An integer in the signed range of `k` bytes survives being stored. -/
theorem signed_wrap {k : Nat} {i : Int} (hlo : -(256 ^ k : Nat) ≤ 2 * i)
    (hhi : 2 * i < (256 ^ k : Nat)) : signed k (wrap k i) = i := by
  generalize hM : (256 ^ k : Nat) = M at hlo hhi
  unfold signed wrap
  rw [hM]
  by_cases hi : 0 ≤ i
  · have hmod : i % (M : Int) = i := Int.emod_eq_of_lt hi (by omega)
    rw [hmod, if_pos (by omega)]
    omega
  · have hmod : i % (M : Int) = i + M := by
      rw [← Int.add_emod_right, Int.emod_eq_of_lt (by omega) (by omega)]
    rw [hmod, if_neg (by omega)]
    omega

/-- An integer stored in an `int`. -/
def toInt (i : Int) : Int := signed 4 (wrap 4 i)

/-- An integer stored in a `short`. -/
def toShort (i : Int) : Int := signed 2 (wrap 2 i)

theorem toInt_of_range {i : Int} (hlo : 0 ≤ i) (hhi : i < 2 ^ 31) : toInt i = i :=
  signed_wrap (by omega) (by omega)

theorem wrap_lt (k : Nat) (i : Int) : wrap k i < 256 ^ k := by
  have hpos : (0 : Int) < (256 ^ k : Nat) := by exact_mod_cast Nat.pow_pos (by decide)
  have hlt := Int.emod_lt_of_pos i hpos
  have hge := Int.emod_nonneg i (Int.ne_of_gt hpos)
  unfold wrap
  omega

theorem toInt_range (i : Int) : -2 ^ 31 ≤ toInt i ∧ toInt i < 2 ^ 31 := by
  have hlt := wrap_lt 4 i
  have hpow : (256 ^ 4 : Nat) = 2 ^ 32 := rfl
  unfold toInt signed
  split <;> omega

/-- The range of `int`. -/
def IntRange (i : Int) : Prop := -2 ^ 31 ≤ i ∧ i < 2 ^ 31

instance (i : Int) : Decidable (IntRange i) := inferInstanceAs (Decidable (_ ∧ _))

theorem IntRange.toInt {i : Int} (h : IntRange i) : toInt i = i := by
  obtain ⟨hlo, hhi⟩ := h
  exact signed_wrap (by omega) (by omega)

theorem wrap_add_mul (k : Nat) (i n : Int) : wrap k (i + (256 ^ k : Nat) * n) = wrap k i := by
  rw [wrap, wrap, Int.add_mul_emod_self_left]

/-- An integer past the end of the range becomes negative. -/
theorem toInt_of_ge {i : Int} (hlo : 2 ^ 31 ≤ i) (hhi : i < 2 ^ 32 + 2 ^ 31) :
    toInt i = i - 2 ^ 32 := by
  have hturn : i - 2 ^ 32 = i + (256 ^ 4 : Nat) * -1 := by omega
  have hwrap : wrap 4 (i - 2 ^ 32) = wrap 4 i := by rw [hturn, wrap_add_mul]
  have hrange : signed 4 (wrap 4 (i - 2 ^ 32)) = i - 2 ^ 32 :=
    signed_wrap (by omega) (by omega)
  rw [toInt, ← hwrap, hrange]

/-- An integer differs from what is stored by whole turns. -/
theorem toInt_eq_add (i : Int) : ∃ n, toInt i = i + (256 ^ 4 : Nat) * n := by
  have hmod := Int.emod_add_mul_ediv i (256 ^ 4 : Nat)
  unfold toInt signed wrap
  split
  · exact ⟨-(i / (256 ^ 4 : Nat)), by omega⟩
  · exact ⟨-(i / (256 ^ 4 : Nat)) - 1, by omega⟩

/-- What is added to a stored integer may as well be added to the integer itself. -/
theorem toInt_add_toInt (i j : Int) : toInt (i + toInt j) = toInt (i + j) := by
  obtain ⟨n, hn⟩ := toInt_eq_add j
  rw [hn, ← Int.add_assoc, toInt, wrap_add_mul, toInt]
/-- Read a signed `k`-byte word at the pointer and step over it. -/
def readI (k : Nat) (mem : List UInt8) : Option (Int × List UInt8) :=
  (readU k mem).map fun (n, rest) => (signed k n, rest)

theorem readI_append {k : Nat} {i : Int} (hlo : -(256 ^ k : Nat) ≤ 2 * i)
    (hhi : 2 * i < (256 ^ k : Nat)) (rest : List UInt8) :
    readI k (leBytes k (wrap k i) ++ rest) = some (i, rest) := by
  rw [readI, readU_append_of_lt (wrap_lt k i)]
  simp only [Option.map_some, signed_wrap hlo hhi]

/-- A natural number below the sign bit reads back as itself. -/
theorem readI_append_nat {k n : Nat} (h : 2 * n < 256 ^ k) (rest : List UInt8) :
    readI k (leBytes k n ++ rest) = some ((n : Int), rest) := by
  rw [readI, readU_append_of_lt (by omega)]
  simp only [Option.map_some, signed, if_pos h]

/-! ## Strings closed by a NUL byte -/

/-- The contents of a C string kept in an array of `n + 1` bytes. -/
structure CStr (n : Nat) where
  bytes : List UInt8
  nz : 0 ∉ bytes
  le : bytes.length ≤ n
  deriving DecidableEq

/-- `strcpy` of the string at the pointer: its bytes, and what follows its NUL. -/
def readStr : List UInt8 → Option (List UInt8 × List UInt8)
  | [] => none
  | b :: bs => if b = 0 then some ([], bs) else (readStr bs).map fun (s, r) => (b :: s, r)

theorem readStr_append {s : List UInt8} (hs : 0 ∉ s) (rest : List UInt8) :
    readStr (s ++ 0 :: rest) = some (s, rest) := by
  induction s with
  | nil => simp [readStr]
  | cons b s ih =>
      simp only [List.mem_cons, not_or] at hs
      have hb : b ≠ 0 := fun h => hs.1 h.symm
      simp [readStr, hb, ih hs.2]

/-- `strncmp(a, b, n) == 0`, reading no byte after the first difference or NUL. -/
def strncmp : Nat → List UInt8 → List UInt8 → Option Bool
  | 0, _, _ => some true
  | n + 1, a :: as, b :: bs =>
      if a ≠ b then some false else if a = 0 then some true else strncmp n as bs
  | _ + 1, _, _ => none

/-- `strcmp(a, b) == 0`. -/
def strcmp : List UInt8 → List UInt8 → Option Bool
  | a :: as, b :: bs =>
      if a ≠ b then some false else if a = 0 then some true else strcmp as bs
  | _, _ => none

/-- `strncmp` on two strings compares their first `n` bytes. -/
theorem strncmp_append {s t : List UInt8} (hs : 0 ∉ s) (ht : 0 ∉ t) (n : Nat)
    (rs rt : List UInt8) :
    strncmp n (s ++ 0 :: rs) (t ++ 0 :: rt) = some (decide (s.take n = t.take n)) := by
  induction n generalizing s t with
  | zero => simp [strncmp]
  | succ n ih =>
      cases s with
      | nil =>
          cases t with
          | nil => simp [strncmp]
          | cons c t =>
              have hc : (0 : UInt8) ≠ c := fun h => ht (h ▸ List.mem_cons_self)
              simp [strncmp, hc]
      | cons b s =>
          have hb : b ≠ 0 := fun h => hs (h ▸ List.mem_cons_self)
          cases t with
          | nil => simp [strncmp, hb]
          | cons c t =>
              have hs' : 0 ∉ s := fun h => hs (List.mem_cons_of_mem _ h)
              have ht' : 0 ∉ t := fun h => ht (List.mem_cons_of_mem _ h)
              by_cases hbc : b = c
              · subst hbc
                simp [strncmp, hb, ih hs' ht']
              · simp [strncmp, hbc]

/-- `strcmp` on two strings compares them whole. -/
theorem strcmp_append {s t : List UInt8} (hs : 0 ∉ s) (ht : 0 ∉ t) (rs rt : List UInt8) :
    strcmp (s ++ 0 :: rs) (t ++ 0 :: rt) = some (decide (s = t)) := by
  induction s generalizing t with
  | nil =>
      cases t with
      | nil => simp [strcmp]
      | cons c t =>
          have hc : (0 : UInt8) ≠ c := fun h => ht (h ▸ List.mem_cons_self)
          simp [strcmp, hc]
  | cons b s ih =>
      have hb : b ≠ 0 := fun h => hs (h ▸ List.mem_cons_self)
      cases t with
      | nil => simp [strcmp, hb]
      | cons c t =>
          have hs' : 0 ∉ s := fun h => hs (List.mem_cons_of_mem _ h)
          have ht' : 0 ∉ t := fun h => ht (List.mem_cons_of_mem _ h)
          by_cases hbc : b = c
          · subst hbc
            simp [strcmp, hb, ih hs' ht']
          · simp [strcmp, hbc]

/-- Memory that compares equal to a string begins with it. -/
theorem eq_of_strcmp {a t : List UInt8} (ht : 0 ∉ t) (h : strcmp a (t ++ [0]) = some true) :
    ∃ rest, a = t ++ 0 :: rest := by
  induction t generalizing a with
  | nil =>
      cases a with
      | nil => simp [strcmp] at h
      | cons b a =>
          by_cases hb : b = 0
          · exact ⟨a, by simp [hb]⟩
          · simp [strcmp, hb] at h
  | cons c t ih =>
      have ht' : 0 ∉ t := fun h => ht (List.mem_cons_of_mem _ h)
      have hc : c ≠ 0 := fun h => ht (h ▸ List.mem_cons_self)
      cases a with
      | nil => simp [strcmp] at h
      | cons b a =>
          by_cases hbc : b = c
          · subst hbc
            simp only [List.cons_append, strcmp, ne_eq, not_true_eq_false, if_false, if_neg hc] at h
            obtain ⟨rest, rfl⟩ := ih ht' h
            exact ⟨rest, rfl⟩
          · simp [strcmp, hbc] at h

/-! ## Letters, in the C locale -/

def isUpper (c : UInt8) : Bool := 65 ≤ c && c ≤ 90

def isLower (c : UInt8) : Bool := 97 ≤ c && c ≤ 122

def isAlpha (c : UInt8) : Bool := isUpper c || isLower c

def toLower (c : UInt8) : UInt8 := if isUpper c then c + 32 else c

def toUpper (c : UInt8) : UInt8 := if isLower c then c - 32 else c

/-- `strcasecmp(a, b) == 0` for the contents of two strings. -/
def strcasecmp (a b : List UInt8) : Bool := a.map toLower == b.map toLower

theorem strcasecmp_iff {a b : List UInt8} :
    strcasecmp a b = true ↔ a.map toLower = b.map toLower := by
  rw [strcasecmp, beq_iff_eq]

/-- `strncasecmp(a, b, n) == 0`. -/
def strncasecmp (n : Nat) (a b : List UInt8) : Bool := strcasecmp (a.take n) (b.take n)

/-! ## Flag bits -/

/-- `b | (1 << k)` sets bit `k` and leaves the others. -/
theorem testBit_or_shift {k : Nat} (hk : k < 8) (b : UInt8) (m : Nat) :
    (b ||| UInt8.ofNat (1 <<< k)).toNat.testBit m = (b.toNat.testBit m || decide (k = m)) := by
  have hlt : 1 <<< k < 256 := by
    rw [Nat.one_shiftLeft]
    exact Nat.pow_lt_pow_right (by decide) hk
  rw [UInt8.toNat_or, UInt8.toNat_ofNat', Nat.mod_eq_of_lt hlt, Nat.testBit_or,
    Nat.one_shiftLeft, Nat.testBit_two_pow]

end Bytes
