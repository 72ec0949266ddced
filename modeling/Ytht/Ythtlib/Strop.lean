import Mathlib.Data.List.DropRight

/-!
# Ythtlib.Strop

Strings of the library: cutting at a byte, and taking blanks off both ends.
`strrtrim` works in a buffer of its own, which holds 1023 bytes.
-/

namespace Ytht

/-- The string up to a byte: `if ((p = strchr(s, ch))) *p = 0`. -/
def cutAt (ch : UInt8) (s : List UInt8) : List UInt8 := s.takeWhile (· != ch)

/-- `strtok(linebuf, " ")` -/
def strtokBlank (linebuf : List UInt8) : Option (List UInt8) :=
  let token := (linebuf.dropWhile (· == 32)).takeWhile (· != 32)
  if token = [] then none else some token

/-- The bytes of `" \t\r\n"`. -/
def isBlank (ch : UInt8) : Bool := ch == 32 || ch == 9 || ch == 13 || ch == 10

/-- The loop of `strrtrim` leaves the first byte alone. -/
def trimRight : List UInt8 → List UInt8
  | [] => []
  | ch :: s => ch :: s.rdropWhile isBlank

/-- `strrtrim`, which looks for the last byte of a longer string behind its buffer. -/
def strrtrim (s : List UInt8) : Option (List UInt8) :=
  if s.length ≤ 1024 then some (trimRight (s.take 1023)) else none

/-- `strltrim`. -/
def strltrim (s : List UInt8) : List UInt8 := s.dropWhile isBlank

theorem cutAt_of_notMem {ch : UInt8} {s : List UInt8} (h : ch ∉ s) : cutAt ch s = s := by
  rw [cutAt, List.takeWhile_eq_self_iff]
  intro x hx
  rw [bne_iff_ne]
  rintro rfl
  exact h hx

theorem cutAt_append_cons {ch : UInt8} {s : List UInt8} (h : ch ∉ s) (rest : List UInt8) :
    cutAt ch (s ++ ch :: rest) = s := by
  have hall : ∀ x ∈ s, (x != ch) = true := by
    intro x hx
    rw [bne_iff_ne]
    rintro rfl
    exact h hx
  rw [cutAt, List.takeWhile_append_of_pos hall, List.takeWhile_cons_of_neg (by simp),
    List.append_nil]

theorem notMem_cutAt (ch : UInt8) (s : List UInt8) : ch ∉ cutAt ch s := by
  intro hmem
  have hne := List.mem_takeWhile_imp hmem
  rw [bne_iff_ne] at hne
  exact hne rfl

theorem strrtrim_of_le {s : List UInt8} (h : s.length ≤ 1023) : strrtrim s = some (trimRight s) := by
  rw [strrtrim, if_pos (by omega), List.take_of_length_le h]

/-- A string without blanks at its ends stays as it is. -/
theorem trimRight_of_last {s : List UInt8} (h : ∀ ch, s.getLast? = some ch → isBlank ch = false) :
    trimRight s = s := by
  cases s with
  | nil => rfl
  | cons ch s =>
      rw [trimRight]
      cases s using List.reverseRecOn with
      | nil => rfl
      | append_singleton s last =>
          have hlast : isBlank last = false := by
            refine h last ?_
            rw [← List.cons_append, List.getLast?_concat]
          rw [List.rdropWhile_concat_neg _ _ _ (by simp [hlast])]

end Ytht
