import Mathlib.Algebra.BigOperators.Group.List.Lemmas
import Mathlib.Data.List.Sections
import Mathlib.Tactic.Ring
import Ytht.Lib.Bytes
import Ytht.Ythtlib.Stdio

/-!
# Moneycenter.Lottery

The bets of the two lotteries, and how the numbers of winning bets are found.

A bet of 36-7 wins by the numbers it shares with the drawn ones.  A soccer bet may name
several results for a match: it stands for all the simple bets that choose one of them for
each match, and `parseSoccerBet` splits it until only these are left.
-/

namespace Ytht

open Bytes

/-! ## Choices -/

theorem sum_flatMap {α : Type} (l : List α) (f : α → List Nat) :
    (l.flatMap f).sum = (l.map fun a => (f a).sum).sum := by
  rw [List.flatMap_def, List.sum_flatten, List.map_map]
  rfl

theorem sum_sections_cons {α : Type} (g : List α → Nat) (unit : List α) (units : List (List α)) :
    ((unit :: units).sections.map g).sum =
      (units.sections.map fun s => (unit.map fun x => g (x :: s)).sum).sum := by
  rw [List.sections, List.map_flatMap, sum_flatMap]
  simp only [List.map_map, Function.comp_def]

/-- A sum over the choices from some lists, with one list split into its elements. -/
theorem sum_sections {α : Type} (g : List α → Nat) (before : List (List α)) (unit : List α)
    (after : List (List α)) :
    ((before ++ unit :: after).sections.map g).sum =
      (unit.map fun x => ((before ++ [x] :: after).sections.map g).sum).sum := by
  induction before generalizing g with
  | nil =>
    simp only [List.nil_append, sum_sections_cons, List.map_cons, List.map_nil, List.sum_cons,
      List.sum_nil, Nat.add_zero]
    induction after.sections with
    | nil => simp
    | cons s rest ih =>
      simp only [List.map_cons, List.sum_cons]
      rw [ih, ← List.sum_map_add]
  | cons first before ih =>
    simp only [List.cons_append, sum_sections_cons]
    exact ih _

/-! ## 36-7 -/

/-- The byte `-`. -/
def dash : UInt8 := 45

/-- The bytes at `i` and `i + 1`, for `i = 0, 3, 6, …`. -/
def numbers : List UInt8 → List (UInt8 × UInt8)
  | a :: b :: _ :: rest => (a, b) :: numbers rest
  | [a, b] => [(a, b)]
  | _ => []

/-- Whether the bytes between the numbers are all `-`. -/
def separated : List UInt8 → Bool
  | _ :: _ :: c :: rest => c == dash && separated rest
  | _ => true

/-- `(buf[i] - '0') * 10 + (buf[i + 1] - '0')` -/
def numberValue (number : UInt8 × UInt8) : Nat :=
  (number.1.toNat - 48) * 10 + (number.2.toNat - 48)

/-- `valid367Bet` -/
def valid367Bet (buf : List UInt8) : Bool :=
  buf.length = 20 && separated buf &&
    (numbers buf).all (fun number =>
      isdigit number.1 && isdigit number.2 && numberValue number ≤ 36) &&
    ((numbers buf).map numberValue).Nodup

/-- `betCount` of a `struct LotteryRecord`. -/
abbrev Counts : Type := Fin 5 → Int

/-- Counts as `int`s hold them. -/
def counts (n : Fin 5 → Int) : Counts := fun i => toInt (n i)

/-- `parse367Bet` -/
def parse367Bet (prizeSeq bet : List UInt8) (record : Counts) : Counts :=
  if bet.length ≠ prizeSeq.length then record
  else
    let count := ((numbers bet).map fun number => (numbers prizeSeq).count number).sum
    fun i => if 3 ≤ count ∧ count ≤ 7 ∧ (i : Nat) = 7 - count then 1 else record i

/-- The numbers that `make367Seq` has drawn. -/
structure Draw where
  nums : List Nat
  length_eq : nums.length = 7
  nodup : nums.Nodup
  range : ∀ num ∈ nums, 1 ≤ num ∧ num ≤ 36

/-- The numbers 1 to 7. -/
def firstSeven : Draw where
  nums := [1, 2, 3, 4, 5, 6, 7]
  length_eq := rfl
  nodup := by decide
  range := by decide

def twoDigits (num : Nat) : List UInt8 := [UInt8.ofNat (num / 10 + 48), UInt8.ofNat (num % 10 + 48)]

/-- The sequence that `make367Seq` writes. -/
def make367Seq (drawn : Draw) : List UInt8 := [dash].intercalate (drawn.nums.map twoDigits)

/-- The class of a bet of 36-7, by how many of its numbers were drawn. -/
def wins367 (prizeSeq bet : List UInt8) (i : Fin 5) : Nat :=
  if ((numbers bet).filter (· ∈ numbers prizeSeq)).length + (i : Nat) = 7 then 1 else 0

theorem numbers_twoDigits (nums : List Nat) :
    numbers ([dash].intercalate (nums.map twoDigits)) =
      nums.map fun num => (UInt8.ofNat (num / 10 + 48), UInt8.ofNat (num % 10 + 48)) := by
  induction nums with
  | nil => rfl
  | cons num rest ih =>
    cases rest with
    | nil => rfl
    | cons next rest =>
      rw [List.map_cons, List.map_cons, List.intercalate_cons_cons]
      rw [List.map_cons] at ih
      simp only [twoDigits, List.cons_append, List.nil_append, numbers, List.map_cons]
      exact congrArg _ ih

theorem length_twoDigits (num : Nat) (rest : List Nat) :
    ([dash].intercalate ((num :: rest).map twoDigits)).length = 3 * rest.length + 2 := by
  induction rest generalizing num with
  | nil => rfl
  | cons next rest ih =>
    have hnext := ih next
    rw [List.map_cons] at hnext ⊢
    rw [List.map_cons, List.intercalate_cons_cons, List.length_append, List.length_append, hnext]
    simp only [twoDigits, List.length_cons, List.length_nil]
    omega

theorem length_make367Seq (drawn : Draw) : (make367Seq drawn).length = 20 := by
  have hlength := drawn.length_eq
  rw [make367Seq]
  cases hnums : drawn.nums with
  | nil => simp [hnums] at hlength
  | cons num rest =>
    rw [hnums, List.length_cons] at hlength
    rw [length_twoDigits]
    omega

theorem numberValue_twoDigits {num : Nat} (h : num ≤ 36) :
    numberValue (UInt8.ofNat (num / 10 + 48), UInt8.ofNat (num % 10 + 48)) = num := by
  rw [numberValue, UInt8.toNat_ofNat', UInt8.toNat_ofNat']
  omega

/-- No number is drawn twice. -/
theorem nodup_make367Seq (drawn : Draw) : (numbers (make367Seq drawn)).Nodup := by
  rw [make367Seq, numbers_twoDigits]
  refine List.Nodup.of_map numberValue ?_
  have hvalue : ∀ num ∈ drawn.nums,
      (numberValue ∘ fun num => (UInt8.ofNat (num / 10 + 48), UInt8.ofNat (num % 10 + 48))) num =
        num :=
    fun num hnum => numberValue_twoDigits (drawn.range num hnum).2
  rw [List.map_map, List.map_congr_left hvalue, List.map_id']
  exact drawn.nodup

theorem sum_count {α : Type} [BEq α] [LawfulBEq α] {drawn : List α} (h : drawn.Nodup)
    (bet : List α) :
    (bet.map fun number => drawn.count number).sum = (bet.filter (· ∈ drawn)).length := by
  induction bet with
  | nil => rfl
  | cons number bet ih =>
    rw [List.map_cons, List.sum_cons, ih, h.count]
    by_cases hmem : number ∈ drawn
    · rw [if_pos hmem, List.filter_cons_of_pos (by simpa using hmem), List.length_cons]
      omega
    · rw [if_neg hmem, List.filter_cons_of_neg (by simpa using hmem)]
      omega

/-- **`parse367Bet`** finds the class of a bet. -/
theorem parse367Bet_make367Seq (drawn : Draw) {bet : List UInt8} (h : valid367Bet bet = true) :
    parse367Bet (make367Seq drawn) bet (counts fun _ => 0) =
      counts fun i => wins367 (make367Seq drawn) bet i := by
  have hlength : bet.length = 20 := by
    simp only [valid367Bet, Bool.and_eq_true, decide_eq_true_eq] at h
    exact h.1.1.1
  rw [parse367Bet, if_neg (by rw [hlength, length_make367Seq]; simp),
    sum_count (nodup_make367Seq drawn)]
  funext i
  have hi := i.isLt
  rw [counts, counts, wins367]
  by_cases hclass : ((numbers bet).filter (· ∈ numbers (make367Seq drawn))).length + (i : Nat) = 7
  · rw [if_pos hclass, if_pos (by omega)]
    rfl
  · rw [if_neg hclass, if_neg (by omega)]
    rfl

/-! ## Soccer -/

/-- The loop of `validSoccerBet`. -/
def validSoccerLoop (count : Nat) (meetSeperator : Bool) (first second : UInt8) :
    List UInt8 → Bool
  | [] => true
  | c :: buf =>
    if c = dash then
      if meetSeperator then false else validSoccerLoop 0 true first second buf
    else if c ≠ 51 ∧ c ≠ 49 ∧ c ≠ 48 then false
    else if 3 < count + 1 then false
    else if count + 1 = 1 then validSoccerLoop 1 false c second buf
    else if count + 1 = 2 then
      if c = first then false else validSoccerLoop 2 false first c buf
    else if c = first ∨ c = second then false
    else validSoccerLoop (count + 1) false first second buf

/-- `validSoccerBet` -/
def validSoccerBet (buf : List UInt8) : Bool :=
  buf ≠ [] && validSoccerLoop 0 true 0 0 buf && buf.getLast? ≠ some dash

/-- The results that a bet names, match by match. -/
def units : List UInt8 → List (List UInt8)
  | [] => [[]]
  | c :: buf => if c = dash then [] :: units buf else (units buf).modifyHead (c :: ·)

/-- `makeSoccerPrize` -/
def makeSoccerPrize (bet prizeSeq : List UInt8) : Nat :=
  if bet.length ≠ prizeSeq.length then 10
  else (bet.zip prizeSeq).countP fun result => result.1 ≠ result.2

/-- Whether the bytes at `1, 3, 5, …` are all `-`. -/
def isSimple : List UInt8 → Bool
  | _ :: c :: rest => c == dash && isSimple rest
  | _ => true

/-- `firstDivEnd` and `count` for the first unit of more than one result. -/
def firstDiv (i count : Nat) : List UInt8 → Nat × Nat
  | [] => (i, count)
  | c :: rest =>
    if c = dash then
      if 1 < count then (i, count) else firstDiv (i + 1) 0 rest
    else firstDiv (i + 1) (count + 1) rest

/-- `parseSoccerBet`.  A call that has something to split hands on shorter bets, unless
the unit it finds has one result: then `C` makes the same call for ever. -/
def parseSoccerBet : Nat → List UInt8 → List UInt8 → Counts → Option Counts
  | 0, _, _, _ => none
  | fuel + 1, prizeSeq, complexBet, record =>
    if isSimple complexBet then
      let diff := makeSoccerPrize prizeSeq (complexBet.filter (· ≠ dash))
      some fun i => if (i : Nat) = diff then toInt (record i + 1) else record i
    else
      let div := firstDiv 0 0 complexBet
      let firstDivStart := div.1 - div.2
      ((complexBet.drop firstDivStart).take div.2).foldlM
        (fun record c => parseSoccerBet fuel prizeSeq
          (complexBet.take firstDivStart ++ c :: complexBet.drop div.1) record)
        record

/-- The choices of a bet with `i` results wrong. -/
def winsSoccer (prizeSeq bet : List UInt8) (i : Fin 5) : Nat :=
  (units bet).sections.countP fun choice => makeSoccerPrize prizeSeq choice = i

theorem units_ne_nil (buf : List UInt8) : units buf ≠ [] := by
  induction buf with
  | nil => simp [units]
  | cons c buf ih =>
    rw [units]
    split
    · simp
    · simpa using ih

theorem dash_notMem_units (buf : List UInt8) : ∀ unit ∈ units buf, dash ∉ unit := by
  induction buf with
  | nil => simp [units]
  | cons c buf ih =>
    rw [units]
    split
    · simpa using ih
    · rename_i hc
      obtain ⟨unit, rest, hunits⟩ := List.exists_cons_of_ne_nil (units_ne_nil buf)
      rw [hunits, List.forall_mem_cons] at ih
      rw [hunits, List.modifyHead_cons, List.forall_mem_cons, List.mem_cons]
      exact ⟨fun h => h.elim (fun heq => hc heq.symm) ih.1, ih.2⟩

theorem intercalate_units (buf : List UInt8) : [dash].intercalate (units buf) = buf := by
  induction buf with
  | nil => simp [units]
  | cons c buf ih =>
    obtain ⟨unit, rest, hunits⟩ := List.exists_cons_of_ne_nil (units_ne_nil buf)
    rw [units]
    split
    · rename_i hc
      rw [List.intercalate_cons_of_ne_nil (units_ne_nil buf), ih, hc]
      rfl
    · rw [hunits] at ih ⊢
      rw [List.modifyHead_cons, List.intercalate_cons_cons_left, ih]

/-- No unit of a valid bet is empty. -/
theorem forall_units_ne_nil {buf : List UInt8} {count : Nat} {meet : Bool} {first second : UInt8}
    (hvalid : validSoccerLoop count meet first second buf = true)
    (hmeet : buf = [] → meet = false) (hlast : buf.getLast? ≠ some dash) :
    (∀ unit ∈ (units buf).tail, unit ≠ []) ∧ (meet = true → (units buf).head? ≠ some []) := by
  induction buf generalizing count meet first second with
  | nil =>
    rw [units, hmeet rfl]
    simp
  | cons c buf ih =>
    have hlast' : buf.getLast? ≠ some dash := by
      intro h
      rw [List.getLast?_cons, h] at hlast
      exact hlast rfl
    rw [validSoccerLoop] at hvalid
    rw [units]
    split at hvalid
    · rename_i hc
      rw [if_pos hc]
      split at hvalid
      · cases hvalid
      · rename_i hnot
        have hne : buf = [] → true = false := by
          rintro rfl
          rw [hc] at hlast
          exact absurd rfl hlast
        obtain ⟨htail, hhead⟩ := ih hvalid hne hlast'
        obtain ⟨unit, rest, hunits⟩ := List.exists_cons_of_ne_nil (units_ne_nil buf)
        rw [hunits] at htail hhead ⊢
        rw [List.head?_cons] at hhead
        refine ⟨?_, fun h => absurd h hnot⟩
        rw [List.tail_cons, List.forall_mem_cons]
        exact ⟨fun h => hhead rfl (congrArg some h), htail⟩
    · rename_i hc
      rw [if_neg hc]
      have hnext : ∃ count' first' second',
          validSoccerLoop count' false first' second' buf = true := by
        split at hvalid
        · cases hvalid
        · split at hvalid
          · cases hvalid
          · split at hvalid
            · exact ⟨_, _, _, hvalid⟩
            · split at hvalid <;> split at hvalid
              · cases hvalid
              · exact ⟨_, _, _, hvalid⟩
              · cases hvalid
              · exact ⟨_, _, _, hvalid⟩
      obtain ⟨count', first', second', hvalid'⟩ := hnext
      obtain ⟨htail, -⟩ := ih hvalid' (fun _ => rfl) hlast'
      obtain ⟨unit, rest, hunits⟩ := List.exists_cons_of_ne_nil (units_ne_nil buf)
      rw [hunits] at htail ⊢
      rw [List.modifyHead_cons]
      exact ⟨htail, fun _ => by simp⟩

theorem units_of_valid {buf : List UInt8} (h : validSoccerBet buf = true) :
    ∀ unit ∈ units buf, unit ≠ [] := by
  simp only [validSoccerBet, Bool.and_eq_true, decide_eq_true_eq] at h
  obtain ⟨⟨hne, hvalid⟩, hlast⟩ := h
  obtain ⟨htail, hhead⟩ := forall_units_ne_nil hvalid (fun hnil => absurd hnil (by simpa using hne))
    (by simpa using hlast)
  obtain ⟨unit, rest, hunits⟩ := List.exists_cons_of_ne_nil (units_ne_nil buf)
  rw [hunits] at htail hhead ⊢
  rw [List.head?_cons] at hhead
  rw [List.forall_mem_cons]
  exact ⟨fun hnil => hhead rfl (congrArg some hnil), htail⟩

/-! ## The split of a bet -/

/-- The bytes before a unit, when one result is named for each match before it. -/
def lead (results : List UInt8) : List UInt8 := results.flatMap fun a => [a, dash]

/-- The bytes after a unit. -/
def trail (after : List (List UInt8)) : List UInt8 := after.flatMap fun unit => dash :: unit

theorem length_lead (results : List UInt8) : (lead results).length = 2 * results.length := by
  induction results with
  | nil => rfl
  | cons a results ih =>
    rw [lead, List.flatMap_cons, List.length_append, ← lead, ih, List.length_cons, List.length_cons,
      List.length_cons, List.length_nil]
    omega

theorem intercalate_trail (unit : List UInt8) (after : List (List UInt8)) :
    [dash].intercalate (unit :: after) = unit ++ trail after := by
  induction after generalizing unit with
  | nil => simp [trail]
  | cons next after ih =>
    rw [List.intercalate_cons_cons, ih next, trail, trail, List.flatMap_cons]
    simp

theorem intercalate_lead (results unit : List UInt8) (after : List (List UInt8)) :
    [dash].intercalate (results.map (fun a => [a]) ++ unit :: after) =
      lead results ++ (unit ++ trail after) := by
  induction results with
  | nil => exact intercalate_trail unit after
  | cons a results ih =>
    rw [List.map_cons, List.cons_append, List.intercalate_cons_of_ne_nil (by simp), ih, lead, lead,
      List.flatMap_cons]
    simp

theorem firstDiv_lead {results : List UInt8} (h : dash ∉ results) (i : Nat) (rest : List UInt8) :
    firstDiv i 0 (lead results ++ rest) = firstDiv (i + 2 * results.length) 0 rest := by
  induction results generalizing i with
  | nil => rfl
  | cons a results ih =>
    rw [List.mem_cons, not_or] at h
    rw [lead, List.flatMap_cons, ← lead, List.append_assoc, List.cons_append, List.cons_append,
      List.nil_append, firstDiv, if_neg (Ne.symm h.1), firstDiv, if_pos rfl, if_neg (by omega),
      ih h.2, List.length_cons]
    congr 1
    omega

theorem firstDiv_unit {unit : List UInt8} (h : dash ∉ unit) (i count : Nat) (rest : List UInt8) :
    firstDiv i count (unit ++ rest) = firstDiv (i + unit.length) (count + unit.length) rest := by
  induction unit generalizing i count with
  | nil => rfl
  | cons a unit ih =>
    rw [List.mem_cons, not_or] at h
    rw [List.cons_append, firstDiv, if_neg (Ne.symm h.1), ih h.2, List.length_cons]
    congr 1 <;> omega

theorem firstDiv_trail {count : Nat} (h : 1 < count) (i : Nat) (after : List (List UInt8)) :
    firstDiv i count (trail after) = (i, count) := by
  cases after with
  | nil => rfl
  | cons unit after =>
    rw [trail, List.flatMap_cons, List.cons_append, firstDiv, if_pos rfl, if_pos h]

/-- The first unit of more than one result is found. -/
theorem firstDiv_first {results unit : List UInt8} (hresults : dash ∉ results)
    (hdash : dash ∉ unit) (hunit : 2 ≤ unit.length) (after : List (List UInt8)) :
    firstDiv 0 0 (lead results ++ (unit ++ trail after)) =
      (2 * results.length + unit.length, unit.length) := by
  rw [firstDiv_lead hresults, firstDiv_unit hdash, firstDiv_trail (by omega)]
  simp

theorem isSimple_lead (results rest : List UInt8) :
    isSimple (lead results ++ rest) = isSimple rest := by
  induction results with
  | nil => rfl
  | cons a results ih =>
    rw [lead, List.flatMap_cons, ← lead, List.append_assoc, List.cons_append, List.cons_append,
      List.nil_append, isSimple, ih]
    rfl

theorem isSimple_unit {unit : List UInt8} (hdash : dash ∉ unit) (hlength : 2 ≤ unit.length)
    (rest : List UInt8) : isSimple (unit ++ rest) = false := by
  match unit, hlength with
  | a :: b :: unit, _ =>
    simp only [List.mem_cons, not_or] at hdash
    rw [List.cons_append, List.cons_append, isSimple, beq_eq_false_iff_ne.mpr (Ne.symm hdash.2.1),
      Bool.false_and]

/-- A bet that names one result for each match, or the first match with several. -/
theorem units_cases {bet : List (List UInt8)} (h : ∀ unit ∈ bet, unit ≠ []) :
    (∃ results : List UInt8, bet = results.map fun a => [a]) ∨
      ∃ (results : List UInt8) (unit : List UInt8) (after : List (List UInt8)),
        bet = results.map (fun a => [a]) ++ unit :: after ∧ 2 ≤ unit.length := by
  induction bet with
  | nil => exact .inl ⟨[], rfl⟩
  | cons unit rest ih =>
    rw [List.forall_mem_cons] at h
    by_cases hlength : 2 ≤ unit.length
    · exact .inr ⟨[], unit, rest, rfl, hlength⟩
    · have hpos := List.length_pos_iff.mpr h.1
      obtain ⟨a, rfl⟩ := List.length_eq_one_iff.mp (by omega : unit.length = 1)
      obtain ⟨results, rfl⟩ | ⟨results, unit, after, rfl, hunit⟩ := ih h.2
      · exact .inl ⟨a :: results, rfl⟩
      · exact .inr ⟨a :: results, unit, after, rfl, hunit⟩

theorem isSimple_results (results : List UInt8) :
    isSimple ([dash].intercalate (results.map fun a => [a])) = true := by
  induction results with
  | nil => simp [isSimple]
  | cons a results ih =>
    cases results with
    | nil => simp [isSimple]
    | cons b results =>
      rw [List.map_cons] at ih
      rw [List.map_cons, List.map_cons, List.intercalate_cons_cons, List.append_assoc,
        List.singleton_append, List.singleton_append, isSimple, ih]
      rfl

theorem filter_results {results : List UInt8} (h : dash ∉ results) :
    ([dash].intercalate (results.map fun a => [a])).filter (· ≠ dash) = results := by
  induction results with
  | nil => simp
  | cons a results ih =>
    rw [List.mem_cons, not_or] at h
    cases results with
    | nil => simp [Ne.symm h.1]
    | cons b results =>
      have hrest := ih h.2
      rw [List.map_cons] at hrest
      rw [List.map_cons, List.map_cons, List.intercalate_cons_cons, List.append_assoc,
        List.singleton_append, List.singleton_append,
        List.filter_cons_of_pos (by simpa using Ne.symm h.1), List.filter_cons_of_neg (by simp),
        hrest]

theorem sections_results (results : List UInt8) :
    (results.map fun a => [a]).sections = [results] := by
  induction results with
  | nil => rfl
  | cons a results ih =>
    rw [List.map_cons, List.sections, ih]
    rfl

/-! ## The number of winning bets -/

theorem countP_eq_sum {α : Type} (p : α → Bool) (l : List α) :
    l.countP p = (l.map fun a => if p a then 1 else 0).sum := by
  induction l with
  | nil => rfl
  | cons a l ih =>
    rw [List.countP_cons, ih, List.map_cons, List.sum_cons]
    omega

/-- A pass over the results of a unit that adds to the counts for each. -/
theorem foldlM_counts {unit : List UInt8} {parse : Counts → UInt8 → Option Counts}
    {wins : UInt8 → Fin 5 → Nat}
    (h : ∀ x ∈ unit, ∀ n, parse (counts n) x = some (counts fun i => n i + wins x i))
    (n : Fin 5 → Int) :
    unit.foldlM parse (counts n) =
      some (counts fun i => n i + (unit.map fun x => wins x i).sum) := by
  induction unit generalizing n with
  | nil => simp
  | cons x unit ih =>
    rw [List.forall_mem_cons] at h
    rw [List.foldlM_cons, h.1]
    dsimp only [Option.bind_eq_bind, Option.bind_some]
    rw [ih h.2]
    congr 2
    funext i
    rw [List.map_cons, List.sum_cons, Nat.cast_add]
    ring

/-- **`parseSoccerBet`** finds every choice of a bet, with enough fuel. -/
theorem parseSoccerBet_units {bet : List (List UInt8)} (hne : ∀ unit ∈ bet, unit ≠ [])
    (hdash : ∀ unit ∈ bet, dash ∉ unit) {fuel : Nat} (hfuel : bet.flatten.length < fuel)
    (prizeSeq : List UInt8) (n : Fin 5 → Int) :
    parseSoccerBet fuel prizeSeq ([dash].intercalate bet) (counts n) =
      some (counts fun i =>
        n i + bet.sections.countP fun choice => makeSoccerPrize prizeSeq choice = i) := by
  induction fuel generalizing bet n with
  | zero => omega
  | succ fuel ih =>
    rw [parseSoccerBet]
    obtain ⟨results, rfl⟩ | ⟨results, unit, after, rfl, hunit⟩ := units_cases hne
    · have hresults : dash ∉ results := by
        intro hmem
        exact hdash [dash] (List.mem_map.mpr ⟨dash, hmem, rfl⟩) (List.mem_singleton_self dash)
      rw [if_pos (isSimple_results results), filter_results hresults, sections_results]
      dsimp only
      congr 1
      funext i
      rw [counts, counts, List.countP_singleton]
      by_cases hi : (i : Nat) = makeSoccerPrize prizeSeq results
      · rw [if_pos hi, if_pos (by simpa using hi.symm), Int.add_comm, toInt_add_toInt, Int.add_comm]
        rfl
      · rw [if_neg hi, if_neg (by simpa using Ne.symm hi)]
        simp
    · have hmem : ∀ unit' ∈ results.map (fun a => [a]) ++ unit :: after, dash ∉ unit' := hdash
      rw [List.forall_mem_append, List.forall_mem_cons] at hmem hne
      obtain ⟨hsingle, hdashUnit, hdashAfter⟩ := hmem
      obtain ⟨hneSingle, -, hneAfter⟩ := hne
      have hresults : dash ∉ results := by
        intro hmem
        exact hsingle [dash] (List.mem_map.mpr ⟨dash, hmem, rfl⟩) (List.mem_singleton_self dash)
      have hlead := length_lead results
      rw [intercalate_lead, if_neg (by rw [isSimple_lead, isSimple_unit hdashUnit hunit]; simp),
        firstDiv_first hresults hdashUnit hunit]
      dsimp only
      rw [Nat.add_sub_cancel, ← hlead, List.drop_left, List.take_left, List.take_left,
        ← List.append_assoc, ← List.length_append, List.drop_left]
      have hsplit : ∀ x ∈ unit, ∀ n,
          parseSoccerBet fuel prizeSeq (lead results ++ x :: trail after) (counts n) =
            some (counts fun i => n i + (results.map (fun a => [a]) ++ [x] :: after).sections.countP
              fun choice => makeSoccerPrize prizeSeq choice = i) := by
        intro x hx n
        have htext : lead results ++ x :: trail after =
            [dash].intercalate (results.map (fun a => [a]) ++ [x] :: after) := by
          rw [intercalate_lead, List.singleton_append]
        have hxdash : dash ∉ [x] := by
          rw [List.mem_singleton]
          rintro rfl
          exact hdashUnit hx
        rw [htext]
        refine ih ?_ ?_ ?_ n
        · rw [List.forall_mem_append, List.forall_mem_cons]
          exact ⟨hneSingle, by simp, hneAfter⟩
        · rw [List.forall_mem_append, List.forall_mem_cons]
          exact ⟨hsingle, hxdash, hdashAfter⟩
        · simp only [List.flatten_append, List.flatten_cons, List.length_append,
            List.length_singleton] at hfuel ⊢
          omega
      rw [foldlM_counts hsplit]
      congr 2
      funext i
      rw [countP_eq_sum, sum_sections]
      simp only [countP_eq_sum]

/-! ## Bets -/

/-- The two lotteries. -/
inductive Lottery where
  | select36
  | soccer
  deriving DecidableEq

def validBet : Lottery → List UInt8 → Bool
  | .select36 => valid367Bet
  | .soccer => validSoccerBet

/-- A line of a list of bets: `buyLottery` writes valid bets only. -/
structure Bet (U : Type) (lottery : Lottery) where
  user : U
  text : List UInt8
  valid : validBet lottery text = true

variable {U : Type} {lottery : Lottery}

/-- The sequence that decides: the drawn numbers, or what the manager has entered. -/
def decidingSeq (drawn : Draw) (entered : List UInt8) : Lottery → List UInt8
  | .select36 => make367Seq drawn
  | .soccer => entered

/-- The bets of class `i` among those that a line stands for. -/
def Bet.wins (prizeSeq : List UInt8) (bet : Bet U lottery) : Fin 5 → Nat :=
  match lottery with
  | .select36 => wins367 prizeSeq bet.text
  | .soccer => winsSoccer prizeSeq bet.text

/-- A bet is parsed into a record that `memset` has cleared. -/
def parseBet (prizeSeq : List UInt8) (bet : Bet U lottery) : Option Counts :=
  match lottery with
  | .select36 => some (parse367Bet prizeSeq bet.text fun _ => 0)
  | .soccer => parseSoccerBet (bet.text.length + 1) prizeSeq bet.text fun _ => 0

theorem length_flatten_units (buf : List UInt8) : (units buf).flatten.length ≤ buf.length := by
  induction buf with
  | nil => simp [units]
  | cons c buf ih =>
    obtain ⟨unit, rest, hunits⟩ := List.exists_cons_of_ne_nil (units_ne_nil buf)
    rw [units]
    split
    · rw [List.flatten_cons, List.nil_append, List.length_cons]
      omega
    · rw [hunits] at ih ⊢
      rw [List.modifyHead_cons, List.flatten_cons, List.cons_append, List.length_cons,
        List.length_cons]
      rw [List.flatten_cons] at ih
      omega

/-- **Both parsers** find the winning bets of a line. -/
theorem parseBet_wins (drawn : Draw) (entered : List UInt8) (bet : Bet U lottery) :
    parseBet (decidingSeq drawn entered lottery) bet =
      some (counts fun i => bet.wins (decidingSeq drawn entered lottery) i) := by
  obtain ⟨user, text, valid⟩ := bet
  cases lottery with
  | select36 => exact congrArg some (parse367Bet_make367Seq drawn valid)
  | soccer =>
    have hparse := parseSoccerBet_units (units_of_valid valid) (dash_notMem_units text)
      (Nat.lt_succ_of_le (length_flatten_units text)) entered fun _ => 0
    rw [intercalate_units] at hparse
    simp only [Int.zero_add] at hparse
    exact hparse

end Ytht
