import Ytht.Ythtlib.Stdio

/-!
# Ythtlib.Inet

Addresses of the internet as text: `inet_aton` and `inet_ntoa`.  An address is the number in
`s_addr`, whose lowest byte is the first one in the text.
-/

namespace Ytht

/-! ## Numbers -/

/-- The value of a digit; what is none has a value that is too large. -/
def digitVal (ch : UInt8) : Nat :=
  if isdigit ch then ch.toNat - 48
  else if 97 ≤ ch ∧ ch ≤ 102 then ch.toNat - 87
  else if 65 ≤ ch ∧ ch ≤ 70 then ch.toNat - 55
  else 36

/-- The number of leading digits, and what is left. -/
def numeral (base : Nat) (s : List UInt8) : Nat × List UInt8 :=
  ((s.takeWhile (digitVal · < base)).foldl (fun n ch => base * n + digitVal ch) 0,
    s.dropWhile (digitVal · < base))

/-- `strtoul` with base 0, where a digit stands; without its limit, which is not reached by
what `inet_aton` takes. -/
def strtoul (s : List UInt8) : Nat × List UInt8 :=
  if s.head? = some 48 then
    if (s.tail.head? = some 120 ∨ s.tail.head? = some 88) ∧
        (s.drop 2).head?.any (digitVal · < 16) then numeral 16 (s.drop 2)
    else numeral 8 s
  else numeral 10 s

/-- `htonl`, as a number -/
def netWord (val : Nat) : Nat :=
  val % 256 * 2 ^ 24 + val / 256 % 256 * 2 ^ 16 + val / 65536 % 256 * 256 + val / 2 ^ 24 % 256

/-! ## Addresses -/

/-- The loop of `inet_aton`, when `left` more dots may come; the next part belongs at `place`. -/
def inetLoop : Nat → Nat → Nat → List UInt8 → Option Nat
  | left, place, word, s =>
    if s.head?.all (!isdigit ·) then none
    else
      let (val, rest) := strtoul s
      if 2 ^ 32 ≤ val then none
      else if rest.head? = some 46 then
        match left with
        | 0 => none
        | left + 1 =>
          if 255 < val then none else inetLoop left (256 * place) (word + place * val) rest.tail
      else if rest.head?.any (!isspace ·) then none
      else if 256 ^ (left + 1) ≤ val then none
      else some (word + netWord val)

/-- `inet_aton` -/
def inetAton (s : List UInt8) : Option Nat := inetLoop 3 1 0 s

/-- `inet_ntoa` -/
def inetNtoa (addr : Nat) : List UInt8 :=
  decimal (addr % 256) ++ 46 :: (decimal (addr / 256 % 256) ++ 46 ::
    (decimal (addr / 65536 % 256) ++ 46 :: decimal (addr / 2 ^ 24 % 256)))

theorem digitVal_of_digit {ch : UInt8} (h : isdigit ch = true) :
    digitVal ch = ch.toNat - 48 ∧ digitVal ch < 10 := by
  rw [digitVal, if_pos h]
  simp only [isdigit, Bool.and_eq_true, decide_eq_true_eq, UInt8.le_iff_toNat_le] at h
  have h57 : (57 : UInt8).toNat = 57 := rfl
  omega

theorem head_decimal {n : Nat} (hn : 0 < n) : (decimal n).head? ≠ some 48 := by
  fun_induction decimal n with
  | case1 n hlt =>
      intro h
      have hch : UInt8.ofNat (48 + n) = 48 := Option.some.inj h
      have hval := (isdigit_ofNat hlt).2
      rw [hch] at hval
      have h48 : (48 : UInt8).toNat = 48 := rfl
      omega
  | case2 n hge ih =>
      rw [List.head?_append_of_ne_nil _ (decimal_ne_nil _)]
      exact ih (by omega)

/-- What may follow a number. -/
def Stops (rest : List UInt8) : Prop := rest = [] ∨ ∃ s, rest = 46 :: s

theorem Stops.digitVal_ge {rest : List UInt8} (h : Stops rest) {base : Nat} (hbase : base ≤ 10) :
    rest.takeWhile (digitVal · < base) = [] ∧ rest.dropWhile (digitVal · < base) = rest := by
  have hdot : ¬ digitVal 46 < base := by
    have : digitVal 46 = 36 := rfl
    omega
  rcases h with rfl | ⟨s, rfl⟩
  · exact ⟨rfl, rfl⟩
  · rw [List.takeWhile_cons, List.dropWhile_cons]
    simp [hdot]

theorem numeral_decimal {rest : List UInt8} (h : Stops rest) (n : Nat) :
    numeral 10 (decimal n ++ rest) = (n, rest) := by
  have hall : ∀ ch ∈ decimal n, decide (digitVal ch < 10) = true := fun ch hch =>
    decide_eq_true (digitVal_of_digit (isdigit_decimal n ch hch)).2
  obtain ⟨htake, hdrop⟩ := h.digitVal_ge (Nat.le_refl 10)
  rw [numeral, List.takeWhile_append_of_pos hall, List.dropWhile_append_of_pos hall, htake, hdrop,
    List.append_nil]
  congr 1
  have hval := digitsValue_decimal n
  rw [digitsValue, List.takeWhile_eq_self_iff.mpr (isdigit_decimal n)] at hval
  refine (List.foldl_ext _ _ _ fun m ch hch => ?_).trans hval
  rw [(digitVal_of_digit (isdigit_decimal n ch hch)).1]

/-- **A decimal number** is read back. -/
theorem strtoul_decimal {rest : List UInt8} (h : Stops rest) (n : Nat) :
    strtoul (decimal n ++ rest) = (n, rest) := by
  rcases Nat.eq_zero_or_pos n with rfl | hn
  · obtain ⟨htake, hdrop⟩ := h.digitVal_ge (show 8 ≤ 10 by decide)
    have hzero : decimal 0 = [48] := by
      rw [decimal]
      rfl
    have hx : ¬ ((rest.head? = some 120 ∨ rest.head? = some 88) ∧
        rest.tail.head?.any (digitVal · < 16) = true) := by
      rcases h with rfl | ⟨s, rfl⟩ <;> simp
    have hdigit : decide (digitVal 48 < 8) = true := rfl
    rw [hzero, List.singleton_append, strtoul, if_pos List.head?_cons, if_neg (by simpa using hx),
      numeral, List.takeWhile_cons, if_pos hdigit, List.dropWhile_cons, if_pos hdigit, htake, hdrop]
    rfl
  · rw [strtoul, if_neg, numeral_decimal h]
    rw [List.head?_append_of_ne_nil _ (decimal_ne_nil _)]
    exact head_decimal hn

theorem head_digit (n : Nat) (rest : List UInt8) :
    (decimal n ++ rest).head?.all (!isdigit ·) = false := by
  rw [List.head?_append_of_ne_nil _ (decimal_ne_nil n)]
  obtain ⟨ch, s, hs⟩ := List.exists_cons_of_ne_nil (decimal_ne_nil n)
  have hch := isdigit_decimal n ch (hs ▸ List.mem_cons_self)
  rw [hs, List.head?_cons, Option.all_some, hch]
  rfl

/-- A part with a dot behind it. -/
theorem inetLoop_part {val : Nat} (h : val < 256) (left place word : Nat) (s : List UInt8) :
    inetLoop (left + 1) place word (decimal val ++ 46 :: s) =
      inetLoop left (256 * place) (word + place * val) s := by
  rw [inetLoop, if_neg (by rw [head_digit]; exact Bool.false_ne_true),
    strtoul_decimal (Or.inr ⟨s, rfl⟩)]
  dsimp only
  rw [if_neg (by omega), if_pos List.head?_cons, if_neg (by omega), List.tail_cons]

/-- The last of four parts. -/
theorem inetLoop_last {val : Nat} (h : val < 256) (place word : Nat) :
    inetLoop 0 place word (decimal val) = some (word + val * 2 ^ 24) := by
  have hhead := head_digit val []
  have hparse := strtoul_decimal (Or.inl rfl) val
  rw [List.append_nil] at hhead hparse
  rw [inetLoop, if_neg (by rw [hhead]; exact Bool.false_ne_true), hparse]
  dsimp only
  have hnet : netWord val = val * 2 ^ 24 := by
    unfold netWord
    omega
  rw [if_neg (by omega), if_neg (by simp), if_neg (by simp), if_neg (by omega), hnet]

/-- **An address** is read back. -/
theorem inetAton_inetNtoa {addr : Nat} (h : addr < 2 ^ 32) : inetAton (inetNtoa addr) = some addr := by
  have hbyte : ∀ n, n % 256 < 256 := fun n => Nat.mod_lt n (by decide)
  rw [inetAton, inetNtoa, inetLoop_part (hbyte _), inetLoop_part (hbyte _),
    inetLoop_part (hbyte _), inetLoop_last (hbyte _)]
  congr 1
  omega

theorem length_inetNtoa_le (addr : Nat) : (inetNtoa addr).length ≤ 15 := by
  have hbyte : ∀ n, (decimal (n % 256)).length ≤ 3 := fun n =>
    length_decimal (by decide) ((Nat.mod_lt n (by decide)).trans (by decide))
  have h0 := hbyte addr
  have h1 := hbyte (addr / 256)
  have h2 := hbyte (addr / 65536)
  have h3 := hbyte (addr / 2 ^ 24)
  simp only [inetNtoa, List.length_append, List.length_cons]
  omega

theorem zero_notMem_inetNtoa (addr : Nat) : 0 ∉ inetNtoa addr := by
  have hdigit : ∀ n, 0 ∉ decimal n := fun n hmem => absurd (isdigit_decimal n 0 hmem) (by decide)
  simp [inetNtoa, hdigit]

end Ytht
