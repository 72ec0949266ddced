import Mathlib.Data.List.GetD
import Mathlib.Data.List.Infix
import Mathlib.Data.List.Nodup
import Mathlib.Tactic.SplitIfs
import Ytht.Lib.Chain
import Ytht.Lib.Skip

/-!
# Ythtlib.Mgrep

The filter for forbidden words, `mgrep.c`: a list of words is made into tables once (`prepf`), and a
text is searched for any of them with these tables (`mgrep_str`).

The search moves a window of the length of the shortest word over the text.  The last two characters
in the window, or three, say how far it can move at least.  Where it cannot move, the characters of
the window select the words to compare with.  With a word of a single character in the list,
`m_short` compares at every place instead; but it drops what it finds at the last one, and selects
the words by the character as it stands, so that no word is found where upper case begins.
`filterString_iff` says what is found.
-/

namespace Ytht.Mgrep

open Chain
open Function (update update_self update_of_ne)

/-- `MAXPAT` -/
def maxPat : Nat := 256

/-- `MAXPATFILE` -/
def maxPatFile : Nat := 2600

/-- `max_num` -/
def maxNum : Nat := 200

/-- `struct pattern_image`; `index` and `next` are the fields of `hashtable`. -/
structure PatternImage where
  long : Bool
  short : Bool
  pSize : Nat
  shift1 : Nat → Nat
  tr : UInt8 → UInt8
  hash : Nat → Nat
  patSpool : List UInt8
  patt : Nat → Nat
  patLen : Nat → Nat
  index : Nat → Nat
  next : Nat → Nat

/-- A byte of memory; behind what is written it is 0. -/
def byte (mem : List UInt8) (k : Nat) : UInt8 := mem.getD k 0

/-- The low four bits. -/
def nibble (c : UInt8) : Nat := c.toNat % 16

/-- The hash of two characters, or of three, from the last one backwards. -/
def blockHash (long : Bool) (x y z : UInt8) : Nat :=
  if long then (nibble x * 16 + nibble y) * 16 + nibble z else nibble x * 16 + nibble y

/-- The hash of the characters of a window, from the last one backwards. -/
def windowHash (window : List Nat) : Nat := window.reverse.foldl (fun h c => h * 16 + c) 0 % 512

/-! ## prepf -/

/-- The lines of the file, with fuel for as many. -/
def wordsOf : Nat → List UInt8 → List (List UInt8)
  | 0, _ => []
  | _, [] => []
  | fuel + 1, buf =>
      buf.takeWhile (· ≠ 10) :: wordsOf fuel (buf.dropWhile (· ≠ 10)).tail

/-- The lines of the file. -/
def words (file : List UInt8) : List (List UInt8) := wordsOf file.length file

/-- `tr`: with `NOUPPER`, upper case is as lower case. -/
def fold (noupper : Bool) (c : UInt8) : UInt8 :=
  if noupper ∧ 65 ≤ c ∧ c ≤ 90 then c + 32 else c

/-- `pat_spool`: the words, each with its NUL, and what the boundary zone is. -/
def spool (ws : List (List UInt8)) : List UInt8 := ws.flatMap (· ++ [0]) ++ [19]

/-- Where word `i` begins, counted from 1. -/
def offset (ws : List (List UInt8)) (i : Nat) : Nat :=
  ((ws.take (i - 1)).flatMap (· ++ [0])).length

/-- `strlen` -/
def strlen (mem : List UInt8) : Nat := (mem.takeWhile (· ≠ 0)).length

/-- The length of the shortest word that is not empty. -/
def shortest (len : Nat → Nat) (pats : List Nat) : Nat :=
  pats.foldl (fun pSize i => if len i ≠ 0 ∧ len i < pSize then len i else pSize) maxPat

namespace PatternImage

variable (img : PatternImage)

/-- `Pattern[i]` -/
def pattern (patIndex i : Nat) : UInt8 := byte (img.patSpool.drop (img.patt patIndex)) i

/-- `1 + LONG` -/
def low : Nat := if img.long then 2 else 1

/-- The entry of `SHIFT1` for the characters of a word that end at `i`. -/
def wordBlock (patIndex i : Nat) : Nat :=
  blockHash img.long (img.pattern patIndex i) (img.pattern patIndex (i - 1))
    (img.pattern patIndex (i - 2))

/-- The entry of `HASH` for a word. -/
def wordWindow (patIndex : Nat) : Nat :=
  windowHash ((List.range img.pSize).map fun i =>
    let c := img.tr (img.pattern patIndex i)
    if img.short then c.toNat else nibble c)

end PatternImage

/-- The loop on `SHIFT1`. -/
def lower (block dist : Nat → Nat) (shift1 : Nat → Nat) (places : List Nat) : Nat → Nat :=
  places.foldl (fun shift1 i =>
    if dist i ≤ shift1 (block i) then update shift1 (block i) (dist i) else shift1) shift1

/-- `f_prep` -/
def fPrep (img : PatternImage) (patIndex : Nat) : PatternImage :=
  let hash := img.wordWindow patIndex
  let next := if img.hash hash ≠ 0 then img.index (img.hash hash) else 0
  { img with
    shift1 := lower (img.wordBlock patIndex) (fun i => img.pSize - 1 - i) img.shift1
      (List.range' img.low (img.pSize - img.low)).reverse
    hash := update img.hash hash patIndex
    index := update img.index patIndex patIndex
    next := update img.next patIndex next }

/-- What `prepf` has before `f_prep`. -/
def blank (noupper : Bool) (file : List UInt8) : PatternImage :=
  let ws := words file
  let len i := strlen ((spool ws).drop (offset ws i))
  let pSize := shortest len (List.range' 1 ws.length)
  { long := 400 < file.length ∧ 2 < pSize
    short := pSize = 1
    pSize := pSize
    shift1 := fun _ => (pSize + 254) % 256
    tr := fold noupper
    hash := fun _ => 0
    patSpool := spool ws
    patt := offset ws
    patLen := fun i => len i % 256
    index := fun _ => 0
    next := fun _ => 0 }

/-- `prepf` on a file of words; `none` when there are too many. -/
def prepf (noupper : Bool) (file : List UInt8) : Option PatternImage :=
  if maxPatFile < file.length ∨ maxNum < (words file).length + 1 then none
  else some ((List.range' 1 (words file).length).foldl fPrep (blank noupper file))

/-! ## mgrep_str -/

/-- How many characters are the same, `j`. -/
def agree (tr : UInt8 → UInt8) : List UInt8 → List UInt8 → Nat
  | x :: xs, y :: ys => if tr x = tr y then agree tr xs ys + 1 else 0
  | _, _ => 0

section

variable (img : PatternImage) (mem : List UInt8)

/-- The comparison of a word with the text at `qx`; `least` characters must be the same. -/
def matched (least qx patIndex : Nat) : Bool :=
  let j := agree img.tr (img.patSpool.drop (img.patt patIndex)) (mem.drop qx)
  least ≤ j ∧ img.patLen patIndex ≤ j

/-- The loop on the words from `p` on. -/
def walk (least qx : Nat) : Nat → Nat → Bool
  | 0, _ => false
  | fuel + 1, p =>
      if img.index p = 0 then false
      else if matched img mem least qx (img.index p) then true
      else if img.next p = 0 then false
      else walk least qx fuel (img.next p)

/-- `tr1` of the text -/
def textBlock (text : Nat) : Nat :=
  let tr k := img.tr (byte mem k)
  blockHash img.long (tr text) (tr (text - 1)) (tr (text - 2))

/-- The entry of `HASH` for the window that ends at `text`. -/
def textWindow (text : Nat) : Nat :=
  windowHash ((List.range img.pSize).map fun i =>
    nibble (img.tr (byte mem (text - (img.pSize - 1) + i))))

/-- `monkey1`, from `text` on: whether it counts a match.  The text is the first `num` bytes of
`mem`. -/
def monkey1 (num : Nat) : Nat → Nat → Bool
  | 0, _ => false
  | fuel + 1, text =>
      if text < num then
        let shift := img.shift1 (textBlock img mem text)
        if shift = 0 then
          let p := img.hash (textWindow img mem text)
          if walk img mem img.pSize (text - (img.pSize - 1)) maxNum p then true
          else monkey1 num fuel (text + 1)
        else monkey1 num fuel (text + shift)
      else false

/-- `m_short`, from `text` on: whether it counts a match, which it does not at the last place. -/
def mShort (num : Nat) : Nat → Nat → Bool
  | 0, _ => false
  | fuel + 1, text =>
      if text < num then
        if walk img mem 0 text maxNum (img.hash (byte mem text).toNat) then text < num - 1
        else mShort num fuel (text + 1)
      else false

/-- `mgrep_str`, with what has been counted before. -/
def mgrepStr (num numOfMatched : Nat) : Nat :=
  let found :=
    if img.short then mShort img mem num num 0 else monkey1 img mem num num (img.pSize - 1)
  if found then numOfMatched + 1 else numOfMatched

end

/-- `filter_string`; `beyond` is what the memory holds behind the string. -/
def filterString (img : PatternImage) (s beyond : List UInt8) : Nat :=
  mgrepStr img (s ++ 0 :: beyond) s.length 0

/-! ## The words in the tables -/

section

variable {noupper : Bool} {c : UInt8}

theorem fold_eq_zero : fold noupper c = 0 ↔ c = 0 := by
  unfold fold
  split
  · next h =>
      have hlo := UInt8.le_iff_toNat_le.mp h.2.1
      have hhi := UInt8.le_iff_toNat_le.mp h.2.2
      constructor
      · intro h0
        have hn := congrArg UInt8.toNat h0
        simp only [UInt8.toNat_add] at hn
        simp at hn hlo hhi
        omega
      · rintro rfl
        simp at hlo
  · exact Iff.rfl

theorem nibble_fold : nibble (fold noupper c) = nibble c := by
  unfold fold nibble
  split
  · simp only [UInt8.toNat_add]
    simp
    omega
  · rfl

end

theorem drop_spool (ws : List (List UInt8)) (rest : List UInt8) (k : Nat) :
    (ws.flatMap (· ++ [0]) ++ rest).drop ((ws.take k).flatMap (· ++ [0])).length =
      (ws.drop k).flatMap (· ++ [0]) ++ rest := by
  have hsplit : ws.flatMap (· ++ [0]) =
      (ws.take k).flatMap (· ++ [0]) ++ (ws.drop k).flatMap (· ++ [0]) := by
    rw [← List.flatMap_append, List.take_append_drop]
  rw [hsplit, List.append_assoc, List.drop_left]

/-- The bytes of word `x`. -/
def word (file : List UInt8) (x : Nat) : List UInt8 := (words file).getD (x - 1) []

/-- The numbers of the words. -/
def IsWord (file : List UInt8) (x : Nat) : Prop := 1 ≤ x ∧ x ≤ (words file).length

theorem IsWord.spool {file : List UInt8} {x : Nat} (h : IsWord file x) :
    ∃ rest, (spool (words file)).drop (offset (words file) x) = word file x ++ 0 :: rest := by
  have hlt : x - 1 < (words file).length := by have := h.1; have := h.2; omega
  refine ⟨((words file).drop (x - 1 + 1)).flatMap (· ++ [0]) ++ [19], ?_⟩
  rw [Mgrep.spool, offset, drop_spool, List.drop_eq_getElem_cons hlt, word,
    List.getD_eq_getElem _ _ hlt, List.flatMap_cons, List.append_assoc, List.append_assoc]
  rfl

theorem strlen_append {w rest : List UInt8} (h : 0 ∉ w) : strlen (w ++ 0 :: rest) = w.length := by
  rw [strlen, List.takeWhile_append_of_pos]
  · simp
  · intro a ha
    simpa using fun h0 : a = 0 => h (h0 ▸ ha)

theorem shortest_loop (len : Nat → Nat) (pats : List Nat) (start : Nat) :
    let r := pats.foldl (fun pSize i => if len i ≠ 0 ∧ len i < pSize then len i else pSize) start
    r ≤ start ∧ (∀ i ∈ pats, len i ≠ 0 → r ≤ len i) ∧
      (r = start ∨ ∃ i ∈ pats, len i ≠ 0 ∧ r = len i) := by
  induction pats generalizing start with
  | nil => simp
  | cons i pats ih =>
      have h := ih (if len i ≠ 0 ∧ len i < start then len i else start)
      simp only [List.foldl_cons, List.mem_cons, forall_eq_or_imp, exists_eq_or_imp]
      grind

/-! ## What the loops put into the tables -/

/-- No entry gets larger, and none is larger than a distance that was written to it. -/
theorem lower_le (block dist : Nat → Nat) (places : List Nat) (shift1 : Nat → Nat) :
    (∀ h, lower block dist shift1 places h ≤ shift1 h) ∧
      ∀ i ∈ places, lower block dist shift1 places (block i) ≤ dist i := by
  induction places generalizing shift1 with
  | nil => simp [lower]
  | cons i places ih =>
      have hstep : lower block dist shift1 (i :: places) =
          lower block dist
            (if dist i ≤ shift1 (block i) then update shift1 (block i) (dist i) else shift1)
            places := rfl
      obtain ⟨hall, hmem⟩ := ih
        (if dist i ≤ shift1 (block i) then update shift1 (block i) (dist i) else shift1)
      rw [hstep]
      refine ⟨fun h => (hall h).trans ?_, ?_⟩
      · split
        · next hle =>
            by_cases heq : h = block i
            · subst heq
              simpa using hle
            · simp [heq]
        · exact le_refl _
      · intro j hj
        obtain rfl | hj := List.mem_cons.mp hj
        · refine (hall _).trans ?_
          split
          · simp
          · omega
        · exact hmem j hj

/-- The tables `img` hold the words 1 to `k` of the list that `base` has: `own h` are those that
entry `h` of `HASH` leads to. -/
structure Holds (base img : PatternImage) (k : Nat) (own : Nat → List Nat) : Prop where
  same : img = { base with
    shift1 := img.shift1, hash := img.hash, index := img.index, next := img.next }
  chain : Threaded img.next img.hash own
  index : ∀ x, img.index x = if x ≤ k then x else 0
  mem : ∀ {h x}, x ∈ own h ↔ 1 ≤ x ∧ x ≤ k ∧ base.wordWindow x = h
  shift : ∀ {x i}, 1 ≤ x → x ≤ k → base.low ≤ i → i < base.pSize →
    img.shift1 (base.wordBlock x i) ≤ base.pSize - 1 - i
  bound : ∀ h, img.shift1 h ≤ base.shift1 h

namespace Holds

variable {base img : PatternImage} {k : Nat} {own : Nat → List Nat}

theorem pSize_eq (h : Holds base img k own) : img.pSize = base.pSize := by rw [h.same]

theorem low_eq (h : Holds base img k own) : img.low = base.low := by
  rw [h.same]
  rfl

theorem tr_eq (h : Holds base img k own) : img.tr = base.tr := by rw [h.same]

theorem head_le (h : Holds base img k own) (b : Nat) : img.hash b ≤ k := by
  have hchain := h.chain.chain b
  cases hown : own b with
  | nil =>
      rw [hown] at hchain
      have h0 : img.hash b = 0 := hchain
      omega
  | cons x l =>
      have hx : x ∈ own b := by simp [hown]
      rw [hown] at hchain
      have heq : img.hash b = x := hchain.1
      have := h.mem.mp hx
      omega

/-- One word more. -/
theorem fPrep (h : Holds base img k own) :
    Holds base (fPrep img (k + 1)) (k + 1)
      (update own (base.wordWindow (k + 1)) ((k + 1) :: own (base.wordWindow (k + 1)))) := by
  have hsame := h.same
  have hwindow : img.wordWindow (k + 1) = base.wordWindow (k + 1) := by rw [hsame]; rfl
  have hblock : img.wordBlock (k + 1) = base.wordBlock (k + 1) := by rw [hsame]; rfl
  have hnext : (if img.hash (base.wordWindow (k + 1)) ≠ 0 then
      img.index (img.hash (base.wordWindow (k + 1))) else 0) =
      img.hash (base.wordWindow (k + 1)) := by
    have hle := h.head_le (base.wordWindow (k + 1))
    rw [h.index, if_pos hle]
    split <;> omega
  have hfree : ∀ b, k + 1 ∉ own b := fun b hx => by
    have := (h.mem.mp hx).2.1
    omega
  have hlower := lower_le (base.wordBlock (k + 1)) (fun i => base.pSize - 1 - i)
    (List.range' base.low (base.pSize - base.low)).reverse img.shift1
  unfold Mgrep.fPrep
  simp only [hwindow, hblock, h.pSize_eq, h.low_eq, hnext]
  constructor
  · rw [hsame]
  · exact h.chain.pushFront hfree (by omega)
  · intro x
    by_cases hx : x = k + 1
    · subst hx
      simp
    · simp only [update_of_ne hx, h.index]
      grind
  · intro b x
    rw [Threaded.mem_update_cons, h.mem]
    grind
  · intro x i h1 hx hi him
    obtain hle | rfl : x ≤ k ∨ x = k + 1 := by omega
    · exact (hlower.1 _).trans (h.shift h1 hle hi him)
    · refine hlower.2 i ?_
      simp only [List.mem_reverse, List.mem_range'_1]
      omega
  · exact fun b => (hlower.1 b).trans (h.bound b)

end Holds

theorem blank_holds (noupper : Bool) (file : List UInt8) :
    Holds (blank noupper file) (blank noupper file) 0 fun _ => [] := by
  constructor
  · rfl
  · exact Threaded.empty _
  · intro x
    simp only [blank]
    grind
  · intro h x
    simp
    omega
  · intro x i h1 hx
    omega
  · exact fun h => le_refl _

/-- **The tables hold all words.** -/
theorem prepf_holds (noupper : Bool) (file : List UInt8) (k : Nat) :
    ∃ own,
      Holds (blank noupper file) ((List.range' 1 k).foldl fPrep (blank noupper file)) k own := by
  induction k with
  | zero => exact ⟨_, blank_holds noupper file⟩
  | succ k ih =>
      obtain ⟨own, h⟩ := ih
      rw [List.range'_1_concat, List.foldl_append, Nat.add_comm 1 k]
      exact ⟨_, h.fPrep⟩

/-! ## What is in the text -/

section

variable {tr : UInt8 → UInt8} {w ys mem : List UInt8} {q i : Nat}

theorem length_le_agree (rest : List UInt8) :
    w.length ≤ agree tr (w ++ rest) ys ↔ w.map tr <+: ys.map tr := by
  induction w generalizing ys with
  | nil => simp
  | cons x w ih =>
      cases ys with
      | nil => simp [agree]
      | cons y ys =>
          rw [List.cons_append, agree, List.map_cons, List.map_cons, List.cons_prefix_cons, ← ih]
          split
          · next heq => simp [heq]
          · next hne => simp [hne]

/-- What begins as a word does has its characters. -/
theorem byte_of_stands (rest : List UInt8) (h : w.map tr <+: (mem.drop q).map tr)
    (hi : i < w.length) :
    tr (byte mem (q + i)) = tr (byte (w ++ rest) i) := by
  obtain ⟨t, ht⟩ := h
  have hget := congrArg (fun l => l[i]?) ht
  simp only [List.getElem?_append_left (show i < (w.map tr).length by simpa using hi),
    List.getElem?_map, List.getElem?_drop, List.getElem?_eq_getElem hi, Option.map_some] at hget
  obtain ⟨c, hc, hctr⟩ := Option.map_eq_some_iff.mp hget.symm
  rw [byte, byte, List.getD_eq_getElem?_getD, List.getD_eq_getElem?_getD, hc,
    List.getElem?_append_left hi, List.getElem?_eq_getElem hi]
  exact hctr

end

section

variable {img : PatternImage} {mem : List UInt8} {least qx : Nat}

theorem walk_eq {fuel p : Nat} {l : List Nat} (hchain : IsChain img.next p l)
    (hindex : ∀ x ∈ l, img.index x = x) (h0 : img.index 0 = 0) (hfuel : l.length ≤ fuel) :
    walk img mem least qx fuel p = l.any (matched img mem least qx) := by
  induction fuel generalizing p l with
  | zero =>
      obtain rfl : l = [] := List.eq_nil_of_length_eq_zero (by omega)
      rfl
  | succ fuel ih =>
      cases l with
      | nil =>
          obtain rfl : p = 0 := hchain
          simp [walk, h0]
      | cons x l =>
          obtain ⟨rfl, hp, htail⟩ := hchain
          rw [walk, hindex p List.mem_cons_self, if_neg hp, List.any_cons]
          cases hm : matched img mem least qx p with
          | true => simp
          | false =>
              rw [if_neg (by simp), Bool.false_or]
              split
              · next hnext =>
                  rw [hnext] at htail
                  cases l with
                  | nil => rfl
                  | cons y l => exact absurd htail.1.symm htail.2.1
              · exact ih htail (fun y hy => hindex y (List.mem_cons_of_mem _ hy))
                  (by simpa using hfuel)

/-- `monkey1` looks at these places only, -/
def hit (img : PatternImage) (mem : List UInt8) (text : Nat) : Bool :=
  img.shift1 (textBlock img mem text) = 0 ∧
    walk img mem img.pSize (text - (img.pSize - 1)) maxNum (img.hash (textWindow img mem text))

/-- and goes on by so much. -/
def skip (img : PatternImage) (mem : List UInt8) (text : Nat) : Nat :=
  max 1 (img.shift1 (textBlock img mem text))

theorem monkey1_eq {num fuel text : Nat} :
    monkey1 img mem num fuel text = Skip.search (hit img mem) (skip img mem) num fuel text := by
  induction fuel generalizing text with
  | zero => rfl
  | succ fuel ih =>
      rw [monkey1, Skip.search]
      split
      · by_cases hshift : img.shift1 (textBlock img mem text) = 0
        · simp only [hit, skip, hshift, ih, true_and, if_true, Bool.decide_eq_true]
          simp
        · simp only [hit, hshift, ih, false_and, if_false, decide_false, Bool.false_eq_true]
          rw [skip, Nat.max_eq_right (by omega)]
      · rfl

/-- Where `m_short` finds something. -/
def hitShort (img : PatternImage) (mem : List UInt8) (text : Nat) : Bool :=
  walk img mem 0 text maxNum (img.hash (byte mem text).toNat)

theorem mShort_of_le {num fuel text : Nat} (h : num ≤ text) :
    mShort img mem num fuel text = false := by
  cases fuel with
  | zero => rfl
  | succ fuel => rw [mShort, if_neg (by omega)]

theorem mShort_eq {num fuel text : Nat} :
    mShort img mem num fuel text =
      Skip.search (hitShort img mem) (fun _ => 1) (num - 1) fuel text := by
  induction fuel generalizing text with
  | zero => rfl
  | succ fuel ih =>
      rw [mShort, Skip.search]
      by_cases hlast : text < num - 1
      · rw [if_pos (by omega), if_pos hlast, ih, hitShort]
        simp [hlast]
      · rw [if_neg hlast]
        split
        · rw [mShort_of_le (by omega)]
          simp [hlast]
        · rfl

end

/-- A list of words without NUL, which fit where their lengths are stored. -/
structure Plain (file : List UInt8) : Prop where
  noNul : 0 ∉ file
  fits : ∀ w ∈ words file, w.length < 256

/-- Some word is a single character. -/
def HasSingle (file : List UInt8) : Prop := ∃ w ∈ words file, w.length = 1

theorem mem_of_mem_wordsOf {fuel : Nat} {buf w : List UInt8} {c : UInt8}
    (hw : w ∈ wordsOf fuel buf) (hc : c ∈ w) : c ∈ buf := by
  induction fuel generalizing buf with
  | zero => simp [wordsOf] at hw
  | succ fuel ih =>
      cases buf with
      | nil => simp [wordsOf] at hw
      | cons x buf =>
          rw [wordsOf, List.mem_cons] at hw
          · obtain rfl | hw := hw
            · exact (List.takeWhile_sublist _).subset hc
            · exact (List.dropWhile_sublist _).subset (List.mem_of_mem_tail (ih hw))
          · simp

section

variable {noupper : Bool} {file : List UInt8} {x : Nat}

theorem IsWord.mem (h : IsWord file x) : word file x ∈ words file := by
  have hlt : x - 1 < (words file).length := by have := h.1; have := h.2; omega
  rw [word, List.getD_eq_getElem _ _ hlt]
  exact List.getElem_mem hlt

theorem exists_isWord {P : List UInt8 → Prop} :
    (∃ x, IsWord file x ∧ P (word file x)) ↔ ∃ w ∈ words file, P w := by
  constructor
  · rintro ⟨x, hx, hp⟩
    exact ⟨_, hx.mem, hp⟩
  · rintro ⟨w, hw, hp⟩
    obtain ⟨k, hk, rfl⟩ := List.mem_iff_getElem.mp hw
    refine ⟨k + 1, ⟨by omega, hk⟩, ?_⟩
    rwa [word, Nat.add_sub_cancel, List.getD_eq_getElem _ _ hk]

theorem low_blank_le (h2 : 2 ≤ (blank noupper file).pSize) :
    (blank noupper file).low ≤ (blank noupper file).pSize - 1 := by
  unfold PatternImage.low
  split
  · next hlong =>
      have hlong' : 400 < file.length ∧ 2 < (blank noupper file).pSize := of_decide_eq_true hlong
      omega
  · omega

namespace Plain

variable (hp : Plain file)
include hp

theorem noNul_word (hx : IsWord file x) : 0 ∉ word file x :=
  fun h => hp.noNul (mem_of_mem_wordsOf hx.mem h)

theorem strlen_word (hx : IsWord file x) :
    strlen ((spool (words file)).drop (offset (words file) x)) = (word file x).length := by
  obtain ⟨rest, hrest⟩ := hx.spool
  rw [hrest, strlen_append (hp.noNul_word hx)]

theorem patLen (noupper : Bool) (hx : IsWord file x) :
    (blank noupper file).patLen x = (word file x).length := by
  have hlt := hp.fits _ hx.mem
  show strlen _ % 256 = _
  rw [hp.strlen_word hx, Nat.mod_eq_of_lt hlt]

theorem pSize (noupper : Bool) :
    (blank noupper file).pSize ≤ 256 ∧
      (∀ x, IsWord file x → word file x ≠ [] →
        (blank noupper file).pSize ≤ (word file x).length) ∧
      (blank noupper file).pSize ≠ 0 ∧ ((blank noupper file).pSize = 1 → HasSingle file) := by
  have hloop := shortest_loop
    (fun i => strlen ((spool (words file)).drop (offset (words file) i)))
    (List.range' 1 (words file).length) maxPat
  have hword : ∀ i ∈ List.range' 1 (words file).length, IsWord file i := fun i hi => by
    rw [List.mem_range'_1] at hi
    exact ⟨hi.1, by omega⟩
  refine ⟨hloop.1, fun x hx hne => ?_, ?_⟩
  · rw [← hp.strlen_word hx]
    refine hloop.2.1 x ?_ ?_
    · rw [List.mem_range'_1]
      exact ⟨hx.1, by have := hx.2; omega⟩
    · rw [hp.strlen_word hx]
      simpa using hne
  · show shortest _ _ ≠ 0 ∧ (shortest _ _ = 1 → _)
    obtain heq | ⟨i, hi, hlen, heq⟩ := hloop.2.2
    · rw [shortest, heq]
      exact ⟨by decide, fun h => absurd h (by decide)⟩
    · rw [shortest, heq]
      refine ⟨hlen, fun h1 => ⟨_, (hword i hi).mem, ?_⟩⟩
      rw [← hp.strlen_word (hword i hi)]
      exact h1

theorem pSize_eq_one (noupper : Bool) : (blank noupper file).pSize = 1 ↔ HasSingle file := by
  have hsize := hp.pSize noupper
  refine ⟨hsize.2.2.2, ?_⟩
  rintro ⟨w, hw, hlen⟩
  obtain ⟨x, hx, rfl⟩ := exists_isWord.mpr ⟨w, hw, rfl⟩
  have hle := hsize.2.1 x hx (fun h => by simp [h] at hlen)
  omega

theorem shift1 (h2 : 2 ≤ (blank noupper file).pSize) (h : Nat) :
    (blank noupper file).shift1 h = (blank noupper file).pSize - 2 := by
  have hsize := (hp.pSize noupper).1
  show ((blank noupper file).pSize + 254) % 256 = _
  omega

end Plain

/-! ## The search -/

variable {img : PatternImage} {own : Nat → List Nat} {s beyond : List UInt8} {q : Nat}

/-- A word that stands in the memory before a NUL stands in the text. -/
theorem prefix_of_prefix_append {u a b : List UInt8} {z : UInt8} (hz : z ∉ u)
    (h : u <+: a ++ z :: b) : u <+: a := by
  obtain hle | hge := List.prefix_or_prefix_of_prefix h (List.prefix_append a (z :: b))
  · exact hle
  · obtain ⟨t, rfl⟩ := hge
    have ht : t <+: z :: b := (List.prefix_append_right_inj a).mp h
    cases t with
    | nil => simp
    | cons c t =>
        obtain rfl : c = z := (List.cons_prefix_cons.mp ht).1
        exact absurd (by simp) hz

/-- A word stands at a place of the text. -/
def Stands (noupper : Bool) (w s : List UInt8) (q : Nat) : Prop :=
  w.map (fold noupper) <+: (s.drop q).map (fold noupper)

/-- The text, as `filter_string` has it in memory -/
def inMemory (s beyond : List UInt8) : List UInt8 := s ++ 0 :: beyond

theorem Stands.length_le {w : List UInt8} (h : Stands noupper w s q) (hne : w ≠ []) :
    q + w.length ≤ s.length := by
  have hle := List.IsPrefix.length_le h
  have hpos := List.length_pos_iff.mpr hne
  simp only [List.length_map, List.length_drop] at hle
  omega

/-- Where a word stands, the text has its characters. -/
theorem Stands.char_eq {mem : List UInt8} (h : Stands noupper (word file x) mem q)
    (hx : IsWord file x) {i : Nat} (hi : i < (word file x).length) :
    fold noupper (byte mem (q + i)) = fold noupper ((blank noupper file).pattern x i) := by
  obtain ⟨rest, hrest⟩ := hx.spool
  rw [byte_of_stands (0 :: rest) h hi, ← hrest]
  rfl

theorem stands_inMemory {w : List UInt8} (hw : 0 ∉ w) (hq : q ≤ s.length) :
    Stands noupper w (inMemory s beyond) q ↔ Stands noupper w s q := by
  have hsplit : (inMemory s beyond).drop q = s.drop q ++ 0 :: beyond := by
    rw [inMemory, List.drop_append_of_le_length hq]
  rw [Stands, Stands, hsplit, List.map_append, List.map_cons]
  constructor
  · refine prefix_of_prefix_append fun h => ?_
    obtain ⟨c, hc, heq⟩ := List.mem_map.mp h
    have h0 : fold noupper c = 0 := heq.trans (fold_eq_zero.mpr rfl)
    exact hw (fold_eq_zero.mp h0 ▸ hc)
  · exact fun h => h.trans (List.prefix_append _ _)

namespace Holds

variable (h : Holds (blank noupper file) img (words file).length own)
include h

theorem spool_eq (hx : IsWord file x) :
    ∃ rest, img.patSpool.drop (img.patt x) = word file x ++ 0 :: rest := by
  rw [h.same]
  exact hx.spool

theorem matched_iff (hp : Plain file) (hx : IsWord file x) {mem : List UInt8} {least : Nat} :
    matched img mem least q x = true ↔
      least ≤ agree (fold noupper) (img.patSpool.drop (img.patt x)) (mem.drop q) ∧
        Stands noupper (word file x) mem q := by
  obtain ⟨rest, hspool⟩ := h.spool_eq hx
  have hlen : img.patLen x = (word file x).length := by
    rw [← hp.patLen noupper hx, h.same]
  have htr : img.tr = fold noupper := h.tr_eq
  rw [matched, hlen, htr, hspool, Stands, ← length_le_agree (0 :: rest)]
  simp

/-- What `monkey1` compares. -/
theorem matched_pSize_iff (hp : Plain file) (hx : IsWord file x) (hs : 0 ∉ s) (hq : q < s.length) :
    matched img (inMemory s beyond) img.pSize q x = true ↔
      word file x ≠ [] ∧ Stands noupper (word file x) (inMemory s beyond) q := by
  have hsize := hp.pSize noupper
  obtain ⟨rest, hspool⟩ := h.spool_eq hx
  rw [h.matched_iff hp hx, hspool, h.pSize_eq]
  constructor
  · rintro ⟨hm, hst⟩
    refine ⟨fun hnil => ?_, hst⟩
    have hlt : q < (inMemory s beyond).length := by simp [inMemory]; omega
    rw [hnil, List.nil_append, List.drop_eq_getElem_cons hlt, agree, if_neg] at hm
    · omega
    · intro heq
      have h0 : (inMemory s beyond)[q] = 0 :=
        fold_eq_zero.mp (heq.symm.trans (fold_eq_zero.mpr rfl))
      have hsq : s[q] = 0 := by simpa [inMemory, hq] using h0
      exact hs (hsq ▸ List.getElem_mem hq)
  · rintro ⟨hne, hst⟩
    exact ⟨(hsize.2.1 x hx hne).trans ((length_le_agree _).mpr hst), hst⟩

/-- Where a word stands, the entry of `SHIFT1` is the same for its characters and those of the
text. -/
theorem block_eq {mem : List UInt8} (hx : IsWord file x)
    (hst : Stands noupper (word file x) mem q) {i : Nat} (hlow : img.low ≤ i)
    (hi : i < (word file x).length) :
    textBlock img mem (q + i) = (blank noupper file).wordBlock x i := by
  have hlong : img.long = (blank noupper file).long := by rw [h.same]
  have htr : img.tr = fold noupper := h.tr_eq
  have hchar : ∀ j ≤ i,
      nibble (img.tr (byte mem (q + j))) = nibble ((blank noupper file).pattern x j) := by
    intro j hj
    rw [htr, hst.char_eq hx (by omega), nibble_fold]
  have hlow1 : 1 ≤ i := by
    unfold PatternImage.low at hlow
    split at hlow <;> omega
  have h0 := hchar i (le_refl i)
  have h1 := hchar (i - 1) (by omega)
  have e1 : q + i - 1 = q + (i - 1) := by omega
  unfold textBlock PatternImage.wordBlock blockHash
  rw [← hlong]
  split
  · next hl =>
      have hi2 : 2 ≤ i := by
        unfold PatternImage.low at hlow
        rwa [if_pos hl] at hlow
      have h2 := hchar (i - 2) (by omega)
      have e2 : q + i - 2 = q + (i - 2) := by omega
      simp only [e1, e2, h0, h1, h2]
  · simp only [e1, h0, h1]

/-- The entry of `SHIFT1` there is no more than the distance to the word's window. -/
theorem shift_le (hp : Plain file) (hx : IsWord file x) (hne : word file x ≠ []) {mem : List UInt8}
    (hst : Stands noupper (word file x) mem q) {i : Nat} (hlow : img.low ≤ i) (hi : i < img.pSize) :
    img.shift1 (textBlock img mem (q + i)) ≤ img.pSize - 1 - i := by
  have hlen := (hp.pSize noupper).2.1 x hx hne
  rw [h.pSize_eq] at hi
  rw [h.block_eq hx hst hlow (by omega), h.pSize_eq]
  exact h.shift hx.1 hx.2 (h.low_eq ▸ hlow) hi

/-- Where a word stands, the entry of `HASH` is its own. -/
theorem window_eq (hp : Plain file) (hx : IsWord file x) (hne : word file x ≠ [])
    (h2 : 2 ≤ (blank noupper file).pSize) {mem : List UInt8}
    (hst : Stands noupper (word file x) mem q) :
    textWindow img mem (q + (img.pSize - 1)) = (blank noupper file).wordWindow x := by
  have hlen := (hp.pSize noupper).2.1 x hx hne
  have htr : img.tr = fold noupper := h.tr_eq
  have hshort : (blank noupper file).short = false := by
    show decide ((blank noupper file).pSize = 1) = false
    simp
    omega
  unfold textWindow PatternImage.wordWindow
  rw [h.pSize_eq, hshort, htr]
  congr 1
  refine List.map_congr_left fun i hi => ?_
  have hilen := List.mem_range.mp hi
  rw [Nat.add_sub_cancel, hst.char_eq hx (by omega)]
  rfl

/-- The words that the loop compares are those of the entry. -/
theorem walk_iff (hmany : (words file).length < maxNum) {mem : List UInt8} {least b : Nat} :
    walk img mem least q maxNum (img.hash b) = true ↔
      ∃ x, IsWord file x ∧ (blank noupper file).wordWindow x = b ∧
        matched img mem least q x = true := by
  have hown : ∀ y ∈ own b, IsWord file y := fun y hy => ⟨(h.mem.mp hy).1, (h.mem.mp hy).2.1⟩
  have hsub : own b ⊆ List.range' 1 (words file).length := fun y hy => by
    have hword := hown y hy
    rw [List.mem_range'_1]
    exact ⟨hword.1, by have := hword.2; omega⟩
  have hlen := (h.chain.nodup b).length_le_of_subset hsub
  rw [List.length_range'] at hlen
  rw [walk_eq (h.chain.chain b) (fun y hy => by rw [h.index, if_pos (hown y hy).2])
    (by rw [h.index]; simp) (by omega), List.any_eq_true]
  constructor
  · rintro ⟨x, hx, hm⟩
    exact ⟨x, hown x hx, (h.mem.mp hx).2.2, hm⟩
  · rintro ⟨x, hx, hb, hm⟩
    exact ⟨x, h.mem.mpr ⟨hx.1, hx.2, hb⟩, hm⟩

/-! ### monkey1 -/

theorem hit_iff (hp : Plain file) (hmany : (words file).length < maxNum)
    (h2 : 2 ≤ (blank noupper file).pSize) (hs : 0 ∉ s) {text : Nat}
    (hfirst : img.pSize - 1 ≤ text) (htext : text < s.length) :
    hit img (inMemory s beyond) text = true ↔
      ∃ x, IsWord file x ∧ word file x ≠ [] ∧
        Stands noupper (word file x) (inMemory s beyond) (text - (img.pSize - 1)) := by
  have him := h.pSize_eq
  have hq : text - (img.pSize - 1) < s.length := by omega
  rw [hit, decide_eq_true_iff, h.walk_iff hmany]
  constructor
  · rintro ⟨-, x, hx, -, hm⟩
    exact ⟨x, hx, (h.matched_pSize_iff hp hx hs hq).mp hm⟩
  · rintro ⟨x, hx, hne, hst⟩
    have hplace : text - (img.pSize - 1) + (img.pSize - 1) = text := by omega
    have hlow : img.low ≤ img.pSize - 1 := by
      rw [h.low_eq, h.pSize_eq]
      exact low_blank_le h2
    have hshift := h.shift_le hp hx hne hst hlow (by omega)
    have hwindow := h.window_eq hp hx hne h2 hst
    rw [hplace] at hshift hwindow
    exact ⟨by omega, x, hx, hwindow.symm, (h.matched_pSize_iff hp hx hs hq).mpr ⟨hne, hst⟩⟩

/-- No word is skipped. -/
theorem sound (hp : Plain file) (hmany : (words file).length < maxNum)
    (h2 : 2 ≤ (blank noupper file).pSize) (hs : 0 ∉ s) :
    Skip.Sound (hit img (inMemory s beyond)) (skip img (inMemory s beyond)) (img.pSize - 1)
      s.length := by
  have him := h.pSize_eq
  refine ⟨fun e => by unfold skip; omega, fun {e e'} hfirst hlt hlast hhit => ?_⟩
  obtain ⟨x, hx, hne, hst⟩ := (h.hit_iff hp hmany h2 hs (by omega) hlast).mp hhit
  have hbound : img.shift1 (textBlock img (inMemory s beyond) e) ≤ img.pSize - 2 := by
    rw [him, ← hp.shift1 h2]
    exact h.bound _
  have hlow2 : img.low ≤ 2 := by
    unfold PatternImage.low
    split <;> omega
  unfold skip
  -- the characters at `e` are in the word's window, or it is too far away for any skip
  by_cases hin : e' - (img.pSize - 1) + img.low ≤ e
  · have hshift := h.shift_le hp hx hne hst
      (i := e - (e' - (img.pSize - 1))) (by omega) (by omega)
    have hplace : e' - (img.pSize - 1) + (e - (e' - (img.pSize - 1))) = e := by omega
    rw [hplace] at hshift
    omega
  · omega

theorem monkey1_iff (hp : Plain file) (hmany : (words file).length < maxNum)
    (h2 : 2 ≤ (blank noupper file).pSize) (hs : 0 ∉ s) (beyond : List UInt8) :
    monkey1 img (inMemory s beyond) s.length s.length (img.pSize - 1) = true ↔
      ∃ q, ∃ w ∈ words file, w ≠ [] ∧ Stands noupper w s q := by
  have hsize := hp.pSize noupper
  have him := h.pSize_eq
  rw [monkey1_eq, Skip.search_eq_true_iff (h.sound hp hmany h2 hs) (le_refl _) (by omega)]
  constructor
  · rintro ⟨e, hfirst, hlast, hhit⟩
    obtain ⟨x, hx, hne, hst⟩ := (h.hit_iff hp hmany h2 hs hfirst hlast).mp hhit
    rw [stands_inMemory (hp.noNul_word hx) (by omega)] at hst
    exact ⟨_, _, hx.mem, hne, hst⟩
  · rintro ⟨q, w, hw, hne, hst⟩
    obtain ⟨x, hx, rfl⟩ := exists_isWord.mpr ⟨w, hw, rfl⟩
    have hlen := hst.length_le hne
    have hge := hsize.2.1 x hx hne
    refine ⟨q + (img.pSize - 1), by omega, by omega, ?_⟩
    rw [h.hit_iff hp hmany h2 hs (by omega) (by omega), Nat.add_sub_cancel]
    exact ⟨x, hx, hne, (stands_inMemory (hp.noNul_word hx) (by omega)).mpr hst⟩

/-! ### m_short -/

theorem hitShort_iff (hp : Plain file) (hmany : (words file).length < maxNum)
    (h1 : (blank noupper file).pSize = 1) (hs : 0 ∉ s) (hq : q < s.length) :
    hitShort img (inMemory s beyond) q = true ↔
      fold noupper (byte s q) = byte s q ∧
        ∃ x, IsWord file x ∧ word file x ≠ [] ∧ Stands noupper (word file x) s q := by
  have hbyte : byte (inMemory s beyond) q = byte s q := by
    simp [byte, inMemory, List.getElem?_append_left hq]
  have hwindow : ∀ x, (blank noupper file).wordWindow x =
      (fold noupper ((blank noupper file).pattern x 0)).toNat := fun x => by
    have hshort : (blank noupper file).short = true := decide_eq_true h1
    have hlt := (fold noupper ((blank noupper file).pattern x 0)).toNat_lt
    have htr : (blank noupper file).tr = fold noupper := rfl
    rw [PatternImage.wordWindow, h1, hshort, htr]
    simp [windowHash]
    omega
  have hne0 : byte s q ≠ 0 := fun h0 => by
    rw [byte, List.getD_eq_getElem _ _ hq] at h0
    exact hs (h0 ▸ List.getElem_mem hq)
  rw [hitShort, h.walk_iff hmany, hbyte]
  constructor
  · rintro ⟨x, hx, hb, hm⟩
    obtain ⟨rest, hrest⟩ := hx.spool
    have hst := (stands_inMemory (hp.noNul_word hx) hq.le).mp ((h.matched_iff hp hx).mp hm).2
    rw [hwindow, UInt8.toNat_inj] at hb
    have hne : word file x ≠ [] := fun hnil => by
      have hpattern : (blank noupper file).pattern x 0 = byte (word file x ++ 0 :: rest) 0 := by
        rw [← hrest]
        rfl
      rw [hpattern, hnil] at hb
      exact hne0 (hb.symm.trans (fold_eq_zero.mpr rfl))
    exact ⟨(hst.char_eq hx (List.length_pos_iff.mpr hne)).trans hb, x, hx, hne, hst⟩
  · rintro ⟨hfold, x, hx, hne, hst⟩
    have hchar := hst.char_eq hx (List.length_pos_iff.mpr hne)
    refine ⟨x, hx, ?_, (h.matched_iff hp hx).mpr ⟨Nat.zero_le _, ?_⟩⟩
    · rw [hwindow, ← hchar, Nat.add_zero, hfold]
    · exact (stands_inMemory (hp.noNul_word hx) hq.le).mpr hst

theorem mShort_iff (hp : Plain file) (hmany : (words file).length < maxNum)
    (h1 : (blank noupper file).pSize = 1) (hs : 0 ∉ s) (beyond : List UInt8) :
    mShort img (inMemory s beyond) s.length s.length 0 = true ↔
      ∃ q, (q + 1 < s.length ∧ fold noupper (byte s q) = byte s q) ∧
        ∃ w ∈ words file, w ≠ [] ∧ Stands noupper w s q := by
  have hsound : Skip.Sound (hitShort img (inMemory s beyond)) (fun _ => 1) 0 (s.length - 1) :=
    ⟨fun _ => Nat.one_pos, fun _ hlt _ _ => hlt⟩
  rw [mShort_eq, Skip.search_eq_true_iff hsound (le_refl _) (by omega)]
  constructor
  · rintro ⟨q, -, hlast, hhit⟩
    obtain ⟨hfold, x, hx, hrest⟩ := (h.hitShort_iff hp hmany h1 hs (by omega)).mp hhit
    exact ⟨q, ⟨by omega, hfold⟩, _, hx.mem, hrest⟩
  · rintro ⟨q, ⟨hlast, hfold⟩, w, hw, hne, hst⟩
    obtain ⟨x, hx, rfl⟩ := exists_isWord.mpr ⟨w, hw, rfl⟩
    refine ⟨q, Nat.zero_le q, by omega, ?_⟩
    rw [h.hitShort_iff hp hmany h1 hs (by omega)]
    exact ⟨hfold, x, hx, hne, hst⟩

end Holds

/-- The places where a word is found: with a word of a single character, not the last one, and none
where `tr` changes the character. -/
def Searched (noupper : Bool) (file s : List UInt8) (q : Nat) : Prop :=
  HasSingle file → q + 1 < s.length ∧ fold noupper (byte s q) = byte s q

/-- **The filter finds what is there**, in these letters or, with `NOUPPER`, in others, whatever
lies behind the string; but for the places that `m_short` passes over. -/
theorem filterString_iff (hp : Plain file) (himg : prepf noupper file = some img) (hs : 0 ∉ s) :
    filterString img s beyond ≠ 0 ↔
      ∃ q, Searched noupper file s q ∧ ∃ w ∈ words file, w ≠ [] ∧ Stands noupper w s q := by
  rw [prepf] at himg
  split at himg
  · contradiction
  · next hsmall =>
      obtain ⟨own, h⟩ := prepf_holds noupper file (words file).length
      rw [Option.some.inj himg] at h
      have hmany : (words file).length < maxNum := by omega
      have hshort : img.short = decide ((blank noupper file).pSize = 1) := by
        rw [h.same]
        rfl
      have hsingle := hp.pSize_eq_one noupper
      have h0 := (hp.pSize noupper).2.2.1
      have hmem : s ++ 0 :: beyond = inMemory s beyond := rfl
      rw [filterString, mgrepStr, hshort, hmem]
      by_cases h1 : (blank noupper file).pSize = 1
      · have hfound := h.mShort_iff hp hmany h1 hs beyond
        simp [h1, hfound, Searched, hsingle.mp h1, and_assoc]
      · have hfound := h.monkey1_iff hp hmany (by omega) hs beyond
        simp [h1, hfound, Searched, mt hsingle.mpr h1]

end

/-- `ab` -/
def abList : List UInt8 := [97, 98, 10]

def abImage : PatternImage := fPrep (blank true abList) 1

theorem filterString_iff_ab :
    filterString abImage [120, 65, 66] [97] ≠ 0 ↔
      ∃ q, Searched true abList [120, 65, 66] q ∧
        ∃ w ∈ words abList, w ≠ [] ∧ Stands true w [120, 65, 66] q :=
  filterString_iff ⟨by decide, by decide⟩ rfl (by decide)

-- the list is `b`, and the strings are `bb`, `b` and `Bb`
example : filterString (fPrep (blank true [98]) 1) [98, 98] [] = 1 ∧
    filterString (fPrep (blank true [98]) 1) [98] [] = 0 ∧
    filterString (fPrep (blank true [98]) 1) [66, 98] [] = 0 := by
  decide

end Ytht.Mgrep
