import Mathlib.Data.List.Basic

/-!
# Lib.Settle

A list is gone through from the front, and what is marked is taken out, with a blank put on top
instead so that the length stays.  As blanks are not marked, no element is missed
(`settle_eq`).
-/

namespace Settle

variable {R : Type} (full : R → Bool) (empty : R)

/-- One place: what stands there is taken out when it is marked, and counted. -/
def settleAt (s : List R × Nat) (i : Nat) : List R × Nat :=
  if (s.1[i]?).any full then (empty :: s.1.eraseIdx i, s.2 + 1) else s

/-- All places. -/
def settle (l : List R) (n : Nat) : List R × Nat :=
  (List.range l.length).foldl (settleAt full empty) (l, n)

variable {full empty}

/-- In front of the place stand `m` blanks and the unmarked elements that have been passed. -/
theorem foldl_settleAt (rest : List R) (m n : Nat) (kept : List R) :
    (List.range' (m + kept.length) rest.length).foldl (settleAt full empty)
        (List.replicate m empty ++ kept ++ rest, n) =
      (List.replicate (m + rest.countP full) empty ++ (kept ++ rest.filter (!full ·)),
        n + rest.countP full) := by
  induction rest generalizing m n kept with
  | nil => simp
  | cons r rest ih =>
      have hlen : (List.replicate m empty ++ kept).length = m + kept.length := by
        rw [List.length_append, List.length_replicate]
      have hat : (List.replicate m empty ++ kept ++ r :: rest)[m + kept.length]? = some r := by
        rw [← hlen, List.getElem?_append_right (Nat.le_refl _), Nat.sub_self]
        rfl
      rw [List.length_cons, List.range'_succ, List.foldl_cons, settleAt, hat, Option.any_some]
      cases hfull : full r with
      | true =>
          have herase : (List.replicate m empty ++ kept ++ r :: rest).eraseIdx (m + kept.length) =
              List.replicate m empty ++ kept ++ rest := by
            rw [← hlen, List.eraseIdx_append_of_length_le (Nat.le_refl _), Nat.sub_self,
              List.eraseIdx_zero, List.tail_cons]
          have hnext := ih (m + 1) (n + 1) kept
          rw [List.replicate_succ, List.cons_append, List.cons_append] at hnext
          rw [if_pos rfl, herase, List.countP_cons_of_pos hfull,
            List.filter_cons_of_neg (by simp [hfull]), Nat.add_right_comm m, hnext,
            Nat.add_right_comm m, Nat.add_assoc m, Nat.add_right_comm n, Nat.add_assoc n]
      | false =>
          have hnext := ih m n (kept ++ [r])
          rw [List.length_append, List.length_singleton, ← Nat.add_assoc] at hnext
          rw [if_neg Bool.false_ne_true, List.countP_cons_of_neg (by simp [hfull]),
            List.filter_cons_of_pos (by simp [hfull])]
          simpa using hnext

/-- **Exactly what is marked is taken out**, and as many blanks are put on top. -/
theorem settle_eq (l : List R) (n : Nat) : settle full empty l n =
    (List.replicate (l.countP full) empty ++ l.filter (!full ·), n + l.countP full) := by
  have hall := @foldl_settleAt R full empty l 0 n []
  rw [List.length_nil, Nat.zero_add, ← List.range_eq_range'] at hall
  simpa [settle] using hall

end Settle
