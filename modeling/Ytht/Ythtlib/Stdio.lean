import Mathlib.Algebra.Ring.Int.Defs
import Mathlib.Algebra.Ring.Nat
import Mathlib.Data.List.Basic
import Mathlib.Data.List.TakeWhile

/-!
# Ythtlib.Stdio

Words and decimal numbers, as `sprintf` writes them and `atoi` and `sscanf` read them, and
the lines that `fgets` reads.
-/

namespace Ytht

/-! ## Reading -/

def isdigit (ch : UInt8) : Bool := 48 ≤ ch && ch ≤ 57

/-- The value of the leading digits. -/
def digitsValue (s : List UInt8) : Nat :=
  (s.takeWhile isdigit).foldl (fun n ch => 10 * n + (ch.toNat - 48)) 0

/-- `atoi`, by `strtol`: blanks, a sign, digits; `long` has 32 bits, as the cast
of a filetime to `time_t` in `Retr` needs it, and takes values outside to its
ends. -/
def atoi (s : List UInt8) : Int :=
  let s := s.dropWhile fun ch => ch == 32 || (9 ≤ ch && ch ≤ 13)
  let v : Int :=
    match s with
    | 45 :: s => -digitsValue s
    | 43 :: s => digitsValue s
    | s => digitsValue s
  max (-2147483648) (min v 2147483647)

def isspace (ch : UInt8) : Bool := ch == 32 || (9 ≤ ch && ch ≤ 13)

/-- `atol`, where a `long` has 64 bits. -/
def atol (s : List UInt8) : Int :=
  match s.dropWhile isspace with
  | 45 :: s => max (-(2 ^ 63)) (-digitsValue s)
  | 43 :: s => min (digitsValue s) (2 ^ 63 - 1)
  | s => min (digitsValue s) (2 ^ 63 - 1)

/-- `sscanf` with `%s`. -/
def scanWord (str : List UInt8) : Option (List UInt8) :=
  let word := (str.dropWhile isspace).takeWhile fun ch => !isspace ch
  if word = [] then none else some word

/-- `sscanf` with `%d`. -/
def scanInt (str : List UInt8) : Option Int :=
  let word := str.dropWhile isspace
  let digits := if word.head? = some 45 ∨ word.head? = some 43 then word.tail else word
  if (digits.takeWhile isdigit) = [] then none else some (atoi str)

/-- `%d`, and what follows it. -/
def scanNext (str : List UInt8) : Option (Int × List UInt8) :=
  let word := str.dropWhile isspace
  let digits := if word.head? = some 45 ∨ word.head? = some 43 then word.tail else word
  (scanInt str).map fun v => (v, digits.dropWhile isdigit)

/-- The strings that `fgets` reads with a buffer of `size + 1` bytes; in the one that is being
read there is room for `room`. -/
def fgetsLines (size : Nat) : Nat → List UInt8 → List (List UInt8)
  | _, [] => []
  | room, ch :: file =>
      if ch = 10 ∨ room ≤ 1 then [ch] :: fgetsLines size size file
      else
        match fgetsLines size (room - 1) file with
        | [] => [[ch]]
        | buf :: rest => (ch :: buf) :: rest

/-! ## Writing -/

/-- `sprintf` with `%d`. -/
def decimal (n : Nat) : List UInt8 :=
  if n < 10 then [UInt8.ofNat (48 + n)] else decimal (n / 10) ++ [UInt8.ofNat (48 + n % 10)]

theorem isdigit_ofNat {d : Nat} (hd : d < 10) : isdigit (UInt8.ofNat (48 + d)) = true ∧
    (UInt8.ofNat (48 + d)).toNat - 48 = d := by
  have hmod : (UInt8.ofNat (48 + d)).toNat = 48 + d := by
    rw [UInt8.toNat_ofNat', Nat.mod_eq_of_lt (by omega)]
  simp only [isdigit, UInt8.le_iff_toNat_le, hmod, Bool.and_eq_true, decide_eq_true_eq]
  refine ⟨⟨?_, ?_⟩, by omega⟩
  · change 48 ≤ _
    omega
  · change _ ≤ 57
    omega

theorem isdigit_decimal (n : Nat) : ∀ ch ∈ decimal n, isdigit ch = true := by
  fun_induction decimal n with
  | case1 n hn => simpa using (isdigit_ofNat hn).1
  | case2 n hn ih =>
      intro ch hch
      rcases List.mem_append.mp hch with hch | hch
      · exact ih ch hch
      · rw [List.mem_singleton.mp hch]
        exact (isdigit_ofNat (by omega)).1

theorem digitsValue_decimal (n : Nat) : digitsValue (decimal n) = n := by
  rw [digitsValue, List.takeWhile_eq_self_iff.mpr (isdigit_decimal n)]
  fun_induction decimal n with
  | case1 n hn =>
      rw [List.foldl_cons, (isdigit_ofNat hn).2, List.foldl_nil]
      omega
  | case2 n hn ih =>
      rw [List.foldl_append, ih, List.foldl_cons, (isdigit_ofNat (by omega)).2, List.foldl_nil]
      omega

theorem atoi_decimal {n : Nat} (h : n < 2147483648) : atoi (decimal n) = n := by
  have hdig := isdigit_decimal n
  have hval := digitsValue_decimal n
  cases hd : decimal n with
  | nil =>
      unfold decimal at hd
      split at hd <;> simp at hd
  | cons ch s =>
      rw [hd] at hdig hval
      have hch := hdig ch List.mem_cons_self
      simp only [isdigit, Bool.and_eq_true, decide_eq_true_eq, UInt8.le_iff_toNat_le] at hch
      have hblank : (ch == 32 || (9 ≤ ch && ch ≤ 13)) = false := by
        rw [← Bool.not_eq_true]
        simp only [Bool.or_eq_true, beq_iff_eq, Bool.and_eq_true, decide_eq_true_eq,
          UInt8.le_iff_toNat_le, ← UInt8.toNat_inj]
        have h48 : (48 : UInt8).toNat = 48 := rfl
        have h32 : (32 : UInt8).toNat = 32 := rfl
        have h13 : (13 : UInt8).toNat = 13 := rfl
        omega
      unfold atoi
      simp only [List.dropWhile_cons, hblank, Bool.false_eq_true, if_false]
      split
      · next heq =>
        obtain ⟨rfl, -⟩ := List.cons.inj heq
        exact absurd hch.1 (by decide)
      · next heq =>
        obtain ⟨rfl, -⟩ := List.cons.inj heq
        exact absurd hch.1 (by decide)
      · rw [hval]
        omega

theorem length_decimal {n k : Nat} (hk : 0 < k) (h : n < 10 ^ k) : (decimal n).length ≤ k := by
  induction k generalizing n with
  | zero => contradiction
  | succ k ih =>
      unfold decimal
      split
      · rw [List.length_singleton]
        omega
      · next hn =>
        have hk' : 0 < k := by
          by_contra hzero
          rw [Nat.eq_zero_of_not_pos hzero] at h
          omega
        rw [List.length_append, List.length_singleton]
        have := ih hk' (Nat.div_lt_of_lt_mul (by rwa [← Nat.pow_succ']))
        omega

/-- `fprintf` with `%d`. -/
def printInt (i : Int) : List UInt8 := if i < 0 then 45 :: decimal i.natAbs else decimal i.natAbs

/-! ## Reading back -/

theorem decimal_ne_nil (n : Nat) : decimal n ≠ [] := by
  unfold decimal
  split <;> simp

/-- The digits end at the next byte that is none. -/
theorem takeWhile_decimal {sep : UInt8} (hsep : isdigit sep = false) (n : Nat) (rest : List UInt8) :
    (decimal n ++ sep :: rest).takeWhile isdigit = decimal n := by
  rw [List.takeWhile_append_of_pos (isdigit_decimal n), List.takeWhile_cons_of_neg (by simp [hsep]),
    List.append_nil]

theorem dropWhile_decimal {sep : UInt8} (hsep : isdigit sep = false) (n : Nat) (rest : List UInt8) :
    (decimal n ++ sep :: rest).dropWhile isdigit = sep :: rest := by
  rw [List.dropWhile_append_of_pos (isdigit_decimal n), List.dropWhile_cons_of_neg (by simp [hsep])]

theorem digitsValue_append {sep : UInt8} (hsep : isdigit sep = false) (n : Nat)
    (rest : List UInt8) : digitsValue (decimal n ++ sep :: rest) = n := by
  have hval := digitsValue_decimal n
  rw [digitsValue, List.takeWhile_eq_self_iff.mpr (isdigit_decimal n)] at hval
  rw [digitsValue, takeWhile_decimal hsep, hval]

/-- A digit is neither a blank nor a sign. -/
theorem isdigit_spec {ch : UInt8} (h : isdigit ch = true) :
    isspace ch = false ∧ ch ≠ 45 ∧ ch ≠ 43 := by
  have h48 : (48 : UInt8).toNat = 48 := rfl
  have h57 : (57 : UInt8).toNat = 57 := rfl
  have h32 : (32 : UInt8).toNat = 32 := rfl
  have h13 : (13 : UInt8).toNat = 13 := rfl
  have h45 : (45 : UInt8).toNat = 45 := rfl
  have h43 : (43 : UInt8).toNat = 43 := rfl
  simp only [isdigit, Bool.and_eq_true, decide_eq_true_eq, UInt8.le_iff_toNat_le] at h
  refine ⟨?_, ?_, ?_⟩
  · rw [← Bool.not_eq_true]
    simp only [isspace, Bool.or_eq_true, beq_iff_eq, Bool.and_eq_true, decide_eq_true_eq,
      UInt8.le_iff_toNat_le, ← UInt8.toNat_inj]
    omega
  · rw [ne_eq, ← UInt8.toNat_inj]
    omega
  · rw [ne_eq, ← UInt8.toNat_inj]
    omega

/-- A number that fits is read back. -/
theorem atol_decimal {n : Nat} (h : n < 2 ^ 63) {sep : UInt8} (hsep : isdigit sep = false)
    (rest : List UInt8) : atol (decimal n ++ sep :: rest) = n := by
  have hval := digitsValue_append hsep n rest
  obtain ⟨ch, s, hd⟩ := List.exists_cons_of_ne_nil (decimal_ne_nil n)
  obtain ⟨hspace, h45, h43⟩ := isdigit_spec (isdigit_decimal n ch (by rw [hd]; exact List.mem_cons_self))
  rw [hd, List.cons_append] at hval
  rw [hd, List.cons_append, atol, List.dropWhile_cons_of_neg (by simp [hspace])]
  split
  · next heq => exact absurd (List.cons.inj heq).1 h45
  · next heq => exact absurd (List.cons.inj heq).1 h43
  · rw [hval]
    omega

/-- A number that fits is read back. -/
theorem atoi_printInt {i : Int} (hlo : -2 ^ 31 ≤ i) (hhi : i < 2 ^ 31) {sep : UInt8}
    (hsep : isdigit sep = false) (rest : List UInt8) : atoi (printInt i ++ sep :: rest) = i := by
  unfold printInt
  split
  · have hblank : ((45 : UInt8) == 32 || (9 ≤ (45 : UInt8) && (45 : UInt8) ≤ 13)) = false := rfl
    unfold atoi
    simp only [List.cons_append, List.dropWhile_cons, hblank, Bool.false_eq_true, if_false,
      digitsValue_append hsep]
    omega
  · have hval := digitsValue_append hsep i.natAbs rest
    cases hd : decimal i.natAbs with
    | nil => exact absurd hd (decimal_ne_nil _)
    | cons ch s =>
        have hch := isdigit_decimal i.natAbs ch (by rw [hd]; exact List.mem_cons_self)
        obtain ⟨hspace, h45, h43⟩ := isdigit_spec hch
        rw [isspace] at hspace
        rw [hd, List.cons_append] at hval
        unfold atoi
        simp only [List.cons_append, List.dropWhile_cons, hspace, Bool.false_eq_true, if_false]
        split
        · next heq => exact absurd (List.cons.inj heq).1 h45
        · next heq => exact absurd (List.cons.inj heq).1 h43
        · rw [hval]
          omega

/-- **`%d` after `%d`**: `sscanf` reads back what `fprintf` has written. -/
theorem scanNext_printInt {i : Int} (hlo : -2 ^ 31 ≤ i) (hhi : i < 2 ^ 31) {sep : UInt8}
    (hsep : isdigit sep = false) (rest : List UInt8) :
    scanNext (printInt i ++ sep :: rest) = some (i, sep :: rest) := by
  have hatoi := atoi_printInt hlo hhi hsep rest
  have hne : (decimal i.natAbs ++ sep :: rest).takeWhile isdigit ≠ [] := by
    rw [takeWhile_decimal hsep]
    exact decimal_ne_nil _
  rw [scanNext, scanInt, hatoi]
  unfold printInt
  split
  · have hspace : isspace 45 = false := rfl
    simp only [List.cons_append, List.dropWhile_cons, hspace, Bool.false_eq_true, if_false,
      List.head?_cons, true_or, if_true, List.tail_cons, if_neg hne, dropWhile_decimal hsep,
      Option.map_some]
  · have hdrop := dropWhile_decimal hsep i.natAbs rest
    cases hd : decimal i.natAbs with
    | nil => exact absurd hd (decimal_ne_nil _)
    | cons ch s =>
        have hch := isdigit_decimal i.natAbs ch (by rw [hd]; exact List.mem_cons_self)
        obtain ⟨hspace, h45, h43⟩ := isdigit_spec hch
        rw [hd, List.cons_append] at hne hdrop
        have hsign : ¬(some ch = some 45 ∨ some ch = some 43) := by simp [h45, h43]
        simp only [List.cons_append, List.dropWhile_cons, hspace, Bool.false_eq_true, if_false,
          List.head?_cons, if_neg hsign, if_neg hne, Option.map_some]
        rw [← List.dropWhile_cons, hdrop]

/-! ## Words -/

theorem takeWhile_append_of_neg {α : Type} {p : α → Bool} {x : α} (hx : p x = false)
    (a b : List α) : (a ++ x :: b).takeWhile p = a.takeWhile p := by
  induction a with
  | nil => rw [List.nil_append, List.takeWhile_cons_of_neg (by simp [hx]), List.takeWhile_nil]
  | cons c a ih => rw [List.cons_append, List.takeWhile_cons, List.takeWhile_cons, ih]

theorem scanWord_space {ch : UInt8} (h : isspace ch = true) (str : List UInt8) :
    scanWord (ch :: str) = scanWord str := by
  unfold scanWord
  rw [List.dropWhile_cons_of_pos h]

theorem scanWord_cons {ch : UInt8} (h : isspace ch = false) (str : List UInt8) :
    scanWord (ch :: str) = some (ch :: str.takeWhile fun ch => !isspace ch) := by
  unfold scanWord
  rw [List.dropWhile_cons_of_neg (by simp [h]), List.takeWhile_cons_of_pos (by simp [h]),
    if_neg (List.cons_ne_nil _ _)]

/-- The first word of a text with a blank is before the blank, if there is one. -/
theorem scanWord_append (a b : List UInt8) :
    scanWord (a ++ 32 :: b) = (scanWord a).or (scanWord b) := by
  induction a with
  | nil => exact scanWord_space rfl b
  | cons ch a ih =>
      rw [List.cons_append]
      cases hch : isspace ch with
      | true => rw [scanWord_space hch, scanWord_space hch, ih]
      | false => rw [scanWord_cons hch, scanWord_cons hch, takeWhile_append_of_neg rfl, Option.some_or]

theorem scanWord_blanks (n : Nat) (str : List UInt8) :
    scanWord (List.replicate n 32 ++ str) = scanWord str := by
  induction n with
  | zero => rfl
  | succ n ih => rw [List.replicate_succ, List.cons_append, scanWord_space rfl, ih]

theorem scanWord_word {word : List UInt8} (hne : word ≠ []) (h : ∀ ch ∈ word, isspace ch = false) :
    scanWord word = some word := by
  obtain ⟨ch, rest, rfl⟩ := List.exists_cons_of_ne_nil hne
  rw [scanWord_cons (h ch List.mem_cons_self), List.takeWhile_eq_self_iff.mpr]
  intro ch' hch'
  simp [h ch' (List.mem_cons_of_mem _ hch')]

theorem scanWord_ne_none {ch : UInt8} {str : List UInt8} (hmem : ch ∈ str) (h : isspace ch = false) :
    scanWord str ≠ none := by
  induction str with
  | nil => contradiction
  | cons c str ih =>
      cases hc : isspace c with
      | false =>
          rw [scanWord_cons hc]
          exact Option.some_ne_none _
      | true =>
          rw [scanWord_space hc]
          refine ih ((List.mem_cons.mp hmem).resolve_left fun heq => ?_)
          rw [heq, hc] at h
          contradiction

theorem sublist_of_scanWord {str word : List UInt8} (h : scanWord str = some word) :
    word.Sublist str := by
  obtain ⟨-, h⟩ := Option.ite_none_left_eq_some.mp h
  rw [← Option.some.inj h]
  exact (List.takeWhile_prefix _).sublist.trans (List.dropWhile_suffix _).sublist

/-! ## Lines -/

theorem fgetsLines_line {size room : Nat} {l : List UInt8} (hroom : l.length < room) (h : 10 ∉ l)
    (file : List UInt8) :
    fgetsLines size room (l ++ 10 :: file) = (l ++ [10]) :: fgetsLines size size file := by
  induction l generalizing room with
  | nil => rw [List.nil_append, fgetsLines, if_pos (Or.inl rfl), List.nil_append]
  | cons ch l ih =>
      rw [List.length_cons] at hroom
      obtain ⟨hch, hl⟩ := List.ne_and_not_mem_of_not_mem_cons h
      rw [List.cons_append, fgetsLines, if_neg (not_or.mpr ⟨hch.symm, by omega⟩), ih (by omega) hl]
      rfl

/-- The lines of a file that are short enough are read one by one. -/
theorem fgetsLines_content {size : Nat} {ls : List (List UInt8)}
    (hshort : ∀ l ∈ ls, l.length < size) (h : ∀ l ∈ ls, 10 ∉ l) :
    fgetsLines size size (ls.flatMap (· ++ [10])) = ls.map (· ++ [10]) := by
  induction ls with
  | nil => rfl
  | cons l ls ih =>
      rw [List.flatMap_cons, List.append_assoc, List.singleton_append,
        fgetsLines_line (hshort l List.mem_cons_self) (h l List.mem_cons_self), List.map_cons,
        ih (fun l' hl' => hshort l' (List.mem_cons_of_mem _ hl'))
          fun l' hl' => h l' (List.mem_cons_of_mem _ hl')]

/-- The end of a file without a new line. -/
theorem fgetsLines_last {size room : Nat} {l : List UInt8} (hroom : l.length < room) (h : 10 ∉ l)
    (hne : l ≠ []) : fgetsLines size room l = [l] := by
  induction l generalizing room with
  | nil => exact absurd rfl hne
  | cons ch l ih =>
      rw [List.length_cons] at hroom
      obtain ⟨hch, hl⟩ := List.ne_and_not_mem_of_not_mem_cons h
      rw [fgetsLines, if_neg (not_or.mpr ⟨hch.symm, by omega⟩)]
      cases l with
      | nil => rfl
      | cons d l => rw [ih (by omega) hl (List.cons_ne_nil d l)]

theorem splitOn_content {ls : List (List UInt8)} (h : ∀ l ∈ ls, 10 ∉ l) :
    (ls.flatMap (· ++ [10])).splitOn 10 = ls ++ [[]] := by
  induction ls with
  | nil => rfl
  | cons l ls ih =>
      rw [List.flatMap_cons, List.append_assoc, List.singleton_append,
        List.splitOn_append_cons_self_of_not_mem (h l List.mem_cons_self), List.cons_append,
        ih fun l' hl' => h l' (List.mem_cons_of_mem _ hl')]

end Ytht
