import Mathlib.Data.List.Basic

/-!
# Lib.Base64

Standard base64: four characters of the alphabet for three bytes, `=` in place of
the characters that a last group of one or two bytes lacks.  Text comes in lines
that end in CR LF.
-/

namespace Base64

/-! ## The alphabet -/

def alphabet : List UInt8 :=
  "ABCDEFGHIJKLMNOPQRSTUVWXYZabcdefghijklmnopqrstuvwxyz0123456789+/".toList.map
    fun c => UInt8.ofNat c.toNat

/-- The character for six bits. -/
def char (v : Nat) : UInt8 := alphabet.getD v 0

/-- `=`. -/
def pad : UInt8 := 61

/-- The six bits a character stands for. -/
def value (c : UInt8) : Option Nat :=
  if 65 ≤ c ∧ c ≤ 90 then some (c.toNat - 65)
  else if 97 ≤ c ∧ c ≤ 122 then some (c.toNat - 97 + 26)
  else if 48 ≤ c ∧ c ≤ 57 then some (c.toNat - 48 + 52)
  else if c = 43 then some 62
  else if c = 47 then some 63
  else none

theorem map_value_alphabet : alphabet.map value = (List.range 64).map some := rfl

@[simp] theorem value_char {v : Nat} (h : v < 64) : value (char v) = some v := by
  have hget : (alphabet.map value)[v]? = some (some v) := by
    rw [map_value_alphabet]
    simp [h]
  rw [List.getElem?_map] at hget
  obtain ⟨c, hc, hv⟩ := Option.map_eq_some_iff.mp hget
  rw [char, List.getD_eq_getElem?_getD, hc]
  exact hv

theorem char_ne_pad {v : Nat} (h : v < 64) : char v ≠ pad := by
  intro he
  have hv := value_char h
  rw [he] at hv
  contradiction

/-- A character of the alphabet ends no line. -/
theorem char_ne_cr {v : Nat} (h : v < 64) : char v ≠ 13 := by
  intro he
  have hv := value_char h
  rw [he] at hv
  contradiction

/-! ## Groups of characters -/

def encode : List UInt8 → List UInt8
  | [] => []
  | [a] => [char (a.toNat / 4), char (a.toNat % 4 * 16), pad, pad]
  | [a, b] =>
      [char (a.toNat / 4), char (a.toNat % 4 * 16 + b.toNat / 16), char (b.toNat % 16 * 4), pad]
  | a :: b :: c :: rest =>
      char (a.toNat / 4) :: char (a.toNat % 4 * 16 + b.toNat / 16) ::
        char (b.toNat % 16 * 4 + c.toNat / 64) :: char (c.toNat % 64) :: encode rest

/-- The bytes of a text without line breaks.  Only the last group may be padded, and
the bits that no byte takes are zero. -/
def decode : List UInt8 → Option (List UInt8)
  | [] => some []
  | c0 :: c1 :: c2 :: c3 :: rest => do
      let x ← value c0
      let y ← value c1
      if c3 ≠ pad then
        let z ← value c2
        let w ← value c3
        let bytes ← decode rest
        return UInt8.ofNat (x * 4 + y / 16) :: UInt8.ofNat (y % 16 * 16 + z / 4) ::
          UInt8.ofNat (z % 4 * 64 + w) :: bytes
      else if rest ≠ [] then none
      else if c2 ≠ pad then
        let z ← value c2
        if z % 4 ≠ 0 then none
        else return [UInt8.ofNat (x * 4 + y / 16), UInt8.ofNat (y % 16 * 16 + z / 4)]
      else if y % 16 ≠ 0 then none
      else return [UInt8.ofNat (x * 4 + y / 16)]
  | _ => none

variable {x y z w : Nat}

/-- One byte, in two characters. -/
theorem decode_one (hx : x < 64) (hy : y < 64) (hzero : y % 16 = 0) :
    decode [char x, char y, pad, pad] = some [UInt8.ofNat (x * 4 + y / 16)] := by
  simp only [decode, value_char hx, value_char hy, hzero, ne_eq, not_true_eq_false, if_false,
    Option.pure_def, Option.bind_eq_bind, Option.bind_some]

/-- Two bytes, in three characters. -/
theorem decode_two (hx : x < 64) (hy : y < 64) (hz : z < 64) (hzero : z % 4 = 0) :
    decode [char x, char y, char z, pad] =
      some [UInt8.ofNat (x * 4 + y / 16), UInt8.ofNat (y % 16 * 16 + z / 4)] := by
  simp only [decode, value_char hx, value_char hy, value_char hz, hzero, ne_eq,
    not_true_eq_false, if_false, char_ne_pad hz, not_false_eq_true, if_true, Option.pure_def,
    Option.bind_eq_bind, Option.bind_some]

/-- Three bytes, in four characters. -/
theorem decode_three (hx : x < 64) (hy : y < 64) (hz : z < 64) (hw : w < 64)
    {rest bytes : List UInt8} (h : decode rest = some bytes) :
    decode (char x :: char y :: char z :: char w :: rest) =
      some (UInt8.ofNat (x * 4 + y / 16) :: UInt8.ofNat (y % 16 * 16 + z / 4) ::
        UInt8.ofNat (z % 4 * 64 + w) :: bytes) := by
  simp only [decode, value_char hx, value_char hy, value_char hz, value_char hw, ne_eq,
    char_ne_pad hw, not_false_eq_true, if_true, h, Option.pure_def, Option.bind_eq_bind,
    Option.bind_some]

theorem ofNat_eq_of_toNat {n : Nat} {b : UInt8} (h : n = b.toNat) : UInt8.ofNat n = b := by
  rw [h, UInt8.ofNat_toNat]

/-- **Decoding gives back what was encoded.** -/
theorem decode_encode (bytes : List UInt8) : decode (encode bytes) = some bytes := by
  induction bytes using encode.induct with
  | case1 => rfl
  | case2 a =>
      have ha := a.toNat_lt
      rw [encode, decode_one (by omega) (by omega) (by omega), ofNat_eq_of_toNat (b := a)]
      omega
  | case3 a b =>
      have ha := a.toNat_lt
      have hb := b.toNat_lt
      rw [encode, decode_two (by omega) (by omega) (by omega) (by omega),
        ofNat_eq_of_toNat (b := a) (by omega), ofNat_eq_of_toNat (b := b) (by omega)]
  | case4 a b c rest ih =>
      have ha := a.toNat_lt
      have hb := b.toNat_lt
      have hc := c.toNat_lt
      rw [encode, decode_three (by omega) (by omega) (by omega) (by omega) ih,
        ofNat_eq_of_toNat (b := a) (by omega), ofNat_eq_of_toNat (b := b) (by omega),
        ofNat_eq_of_toNat (b := c) (by omega)]

theorem pad_ne_cr : pad ≠ 13 := by decide

/-- Encoded text has no line breaks. -/
theorem cr_notMem_encode (bytes : List UInt8) : 13 ∉ encode bytes := by
  induction bytes using encode.induct with
  | case1 => simp [encode]
  | case2 a =>
      have ha := a.toNat_lt
      simp only [encode, List.mem_cons, not_or]
      exact ⟨(char_ne_cr (by omega)).symm, (char_ne_cr (by omega)).symm, pad_ne_cr.symm,
        pad_ne_cr.symm, List.not_mem_nil⟩
  | case3 a b =>
      have ha := a.toNat_lt
      have hb := b.toNat_lt
      simp only [encode, List.mem_cons, not_or]
      exact ⟨(char_ne_cr (by omega)).symm, (char_ne_cr (by omega)).symm,
        (char_ne_cr (by omega)).symm, pad_ne_cr.symm, List.not_mem_nil⟩
  | case4 a b c rest ih =>
      have ha := a.toNat_lt
      have hb := b.toNat_lt
      have hc := c.toNat_lt
      simp only [encode, List.mem_cons, not_or]
      exact ⟨(char_ne_cr (by omega)).symm, (char_ne_cr (by omega)).symm,
        (char_ne_cr (by omega)).symm, (char_ne_cr (by omega)).symm, ih⟩

theorem length_encode_le {bytes : List UInt8} (h : bytes.length ≤ 3) :
    (encode bytes).length ≤ 4 := by
  match bytes, h with
  | [], _ | [_], _ | [_, _], _ | [_, _, _], _ => simp [encode]

/-! ## Lines -/

/-- The lines of a text, without the CR LF between them. -/
def lines : List UInt8 → List (List UInt8)
  | [] => [[]]
  | 13 :: 10 :: s => [] :: lines s
  | c :: s =>
      match lines s with
      | l :: ls => (c :: l) :: ls
      | [] => [[c]]

theorem lines_ne_nil (s : List UInt8) : lines s ≠ [] := by
  fun_cases lines s <;> simp_all

theorem lines_cons {c : UInt8} (hc : c ≠ 13) (s : List UInt8) :
    lines (c :: s) = (c :: (lines s).headD []) :: (lines s).tail := by
  cases h : lines s with
  | nil => exact absurd h (lines_ne_nil s)
  | cons l ls => simp [lines, hc, h]

/-- Text without CR goes to the front of the first line. -/
theorem lines_append {l : List UInt8} (hl : 13 ∉ l) (s : List UInt8) :
    lines (l ++ s) = (l ++ (lines s).headD []) :: (lines s).tail := by
  induction l with
  | nil =>
      cases h : lines s with
      | nil => exact absurd h (lines_ne_nil s)
      | cons l ls => simp [h]
  | cons c l ih =>
      simp only [List.mem_cons, not_or] at hl
      rw [List.cons_append, lines_cons (Ne.symm hl.1), ih hl.2]
      rfl

/-- A line and what follows it. -/
theorem lines_append_crlf {l : List UInt8} (hl : 13 ∉ l) (s : List UInt8) :
    lines (l ++ 13 :: 10 :: s) = l :: lines s := by
  rw [lines_append hl, lines]
  simp

theorem lines_eq_single {l : List UInt8} (hl : 13 ∉ l) : lines l = [l] := by
  have h := lines_append hl []
  simpa [lines] using h

end Base64
