import Mathlib.Data.Int.Order.Basic
import Mathlib.Data.List.DropRight
import Mathlib.Data.List.Nodup
import Ytht.Lib.Bytes
import Ytht.Lib.Exchange
import Ytht.Ythtlib.Stdio

/-!
# Moneycenter.Ranking

The ranking file of the money center: three lists of `LISTNUM` users with their scores,
which `check_top` reads, brings up to date for one user, sorts, and writes again.

A user who is found on a list gets his score, and the score that would be entered in
the last place becomes -1.  So a last place below -1 is taken by the user once more:
`enter_nodup` and `mem_enter` need that it is not.
-/

namespace Ytht

open Bytes Exchange

/-! ## The file -/

def LISTNUM : Nat := 60

/-- One place of a list: `topIDM[n]` and `topMoney[n]`. -/
structure Place where
  id : List UInt8
  score : Int
  deriving DecidableEq

/-- `"null."` -/
def nullId : List UInt8 := [110, 117, 108, 108, 46]

/-- What a place is before the file has been read. -/
def Place.null : Place := ⟨nullId, 0⟩

/-- The three lists of the file. -/
structure Top where
  money : List Place
  rob : List Place
  beg : List Place
  deriving DecidableEq

/-- `fprintf(fpnew, "%s %d\n", ...)` -/
def Place.line (e : Place) : List UInt8 := e.id ++ 32 :: (printInt e.score ++ [10])

/-- What is written to the file. -/
def Top.print (t : Top) : List UInt8 := (t.money ++ t.rob ++ t.beg).flatMap Place.line

/-- `fscanf(fp, "%s %d\n", ...)`, or `%hd`: the place after it, and what follows in the
file. -/
def scanPlace (conv : Int → Int) (e : Place) (file : List UInt8) : Place × List UInt8 :=
  let word := file.dropWhile isspace
  let id := word.takeWhile fun ch => !isspace ch
  if id = [] then (e, [])
  else
    let rest := word.dropWhile fun ch => !isspace ch
    match scanNext rest with
    | none => (⟨id, e.score⟩, rest.dropWhile isspace)
    | some (v, rest) => (⟨id, conv v⟩, rest.dropWhile isspace)

/-- The loop that reads one list. -/
def scanList (conv : Int → Int) : Nat → List UInt8 → List Place × List UInt8
  | 0, file => ([], file)
  | n + 1, file =>
      let r := scanPlace conv .null file
      ((r.1 :: (scanList conv n r.2).1), (scanList conv n r.2).2)

/-- What `check_top` has read. -/
def scanTop (file : List UInt8) : Top :=
  let money := scanList toInt LISTNUM file
  let rob := scanList toShort LISTNUM money.2
  let beg := scanList toShort LISTNUM rob.2
  ⟨money.1, rob.1, beg.1⟩

/-! ## One run -/

/-- What `check_top` uses of `currentuser` and `myInfo`; the experiences are `short`. -/
structure Player where
  userid : List UInt8
  cash : Int
  credit : Int
  interest : Int
  safemoney : Int
  robExp : Int
  begExp : Int
  userid_ne_nil : userid ≠ []
  userid_word : ∀ ch ∈ userid, isspace ch = false
  userid_ne_null : userid ≠ nullId
  robExp_range : -2 ^ 15 ≤ robExp ∧ robExp < 2 ^ 15
  begExp_range : -2 ^ 15 ≤ begExp ∧ begExp < 2 ^ 15

/-- The loop over the users on the list: their scores, and `tmpM` after it. -/
def markListed (id : List UInt8) : Int → List Place → List Place × Int
  | tmp, [] => ([], tmp)
  | tmp, e :: l =>
      if e.id = id then
        (⟨e.id, tmp⟩ :: (markListed id (-1) l).1, (markListed id (-1) l).2)
      else (e :: (markListed id tmp l).1, (markListed id tmp l).2)

/-- `if (tmpM > topMoney[LISTNUM - 1])`: the last place is taken. -/
def takeLast (id : List UInt8) (tmp : Int) (l : List Place) : List Place :=
  match l.getLast? with
  | none => l
  | some last => if last.score < tmp then l.dropLast ++ [⟨id, tmp⟩] else l

/-- What `check_top` makes of one list. -/
def enter (id : List UInt8) (tmp : Int) (l : List Place) : List Place :=
  exchangeSort Place.score (takeLast id (markListed id tmp l).2 (markListed id tmp l).1)

/-- `tmpM` -/
def Player.money (u : Player) : Int := toInt (u.cash + u.credit + u.interest + u.safemoney)

/-- What `check_top` makes of the three lists. -/
def Top.update (t : Top) (u : Player) : Top :=
  ⟨enter u.userid u.money t.money, enter u.userid u.robExp t.rob, enter u.userid u.begExp t.beg⟩

/-! ## Reading back -/

/-- A list that the file can hold, with scores from `lo` up to `hi`. -/
structure Listed (lo hi : Int) (l : List Place) : Prop where
  length : l.length = LISTNUM
  ne_nil : ∀ e ∈ l, e.id ≠ []
  word : ∀ e ∈ l, ∀ ch ∈ e.id, isspace ch = false
  lo_le : ∀ e ∈ l, lo ≤ e.score
  lt_hi : ∀ e ∈ l, e.score < hi

theorem takeWhile_word {id : List UInt8} (h : ∀ ch ∈ id, isspace ch = false) (rest : List UInt8) :
    (id ++ 32 :: rest).takeWhile (fun ch => !isspace ch) = id ∧
      (id ++ 32 :: rest).dropWhile (fun ch => !isspace ch) = 32 :: rest := by
  have hall : ∀ ch ∈ id, (!isspace ch) = true := by
    intro ch hch
    rw [h ch hch]
    rfl
  constructor
  · rw [List.takeWhile_append_of_pos hall, List.takeWhile_cons_of_neg (by decide), List.append_nil]
  · rw [List.dropWhile_append_of_pos hall, List.dropWhile_cons_of_neg (by decide)]

/-- A blank in front of `%d` is skipped. -/
theorem scanNext_blank (rest : List UInt8) : scanNext (32 :: rest) = scanNext rest := by
  have hblank : isspace 32 = true := rfl
  simp only [scanNext, scanInt, atoi, List.dropWhile_cons, hblank, if_true]
  rfl

theorem scanPlace_line {e : Place} (hne : e.id ≠ []) (hword : ∀ ch ∈ e.id, isspace ch = false)
    (hlo : -2 ^ 31 ≤ e.score) (hhi : e.score < 2 ^ 31) (conv : Int → Int) (old : Place)
    (file : List UInt8) :
    scanPlace conv old (e.line ++ file) = (⟨e.id, conv e.score⟩, file.dropWhile isspace) := by
  have hline : e.line ++ file = e.id ++ 32 :: (printInt e.score ++ 10 :: file) := by
    simp [Place.line]
  have hstart : (e.line ++ file).dropWhile isspace = e.line ++ file := by
    rw [hline]
    cases hid : e.id with
    | nil => exact absurd hid hne
    | cons ch s =>
        have hch := hword ch (by rw [hid]; exact List.mem_cons_self)
        rw [List.cons_append, List.dropWhile_cons_of_neg (by simp [hch])]
  obtain ⟨htake, hdrop⟩ := takeWhile_word hword (printInt e.score ++ 10 :: file)
  have hsep : isdigit 10 = false := rfl
  have hnewline : isspace 10 = true := rfl
  rw [scanPlace, hstart, hline, htake, hdrop]
  simp only [if_neg hne, scanNext_blank, scanNext_printInt hlo hhi hsep, List.dropWhile_cons,
    hnewline, if_true]

/-- Blanks in front of a line are skipped. -/
theorem scanPlace_blanks (conv : Int → Int) (old : Place) (file : List UInt8) :
    scanPlace conv old (file.dropWhile isspace) = scanPlace conv old file := by
  rw [scanPlace, scanPlace, List.dropWhile_idempotent]

theorem scanList_lines {conv : Int → Int} {l : List Place} (hne : ∀ e ∈ l, e.id ≠ [])
    (hword : ∀ e ∈ l, ∀ ch ∈ e.id, isspace ch = false) (hlo : ∀ e ∈ l, -2 ^ 31 ≤ e.score)
    (hhi : ∀ e ∈ l, e.score < 2 ^ 31) (hconv : ∀ e ∈ l, conv e.score = e.score)
    (file : List UInt8) :
    (scanList conv l.length ((l.flatMap Place.line ++ file).dropWhile isspace)).1 = l ∧
      (scanList conv l.length ((l.flatMap Place.line ++ file).dropWhile isspace)).2 =
        file.dropWhile isspace := by
  induction l with
  | nil => exact ⟨rfl, rfl⟩
  | cons e l ih =>
      simp only [List.forall_mem_cons] at hne hword hlo hhi hconv
      have ih := ih hne.2 hword.2 hlo.2 hhi.2 hconv.2
      have hplace := scanPlace_line hne.1 hword.1 hlo.1 hhi.1 conv .null
        (l.flatMap Place.line ++ file)
      rw [List.flatMap_cons, List.append_assoc, List.length_cons, scanList, scanPlace_blanks, hplace]
      dsimp only
      rw [ih.1, ih.2, hconv.1]
      exact ⟨rfl, rfl⟩

/-- The lists of the file have the values of their types. -/
structure Top.Valid (t : Top) : Prop where
  money : Listed (-2 ^ 31) (2 ^ 31) t.money
  rob : Listed (-2 ^ 15) (2 ^ 15) t.rob
  beg : Listed (-2 ^ 15) (2 ^ 15) t.beg

theorem Listed.scan {conv : Int → Int} {lo hi : Int} {l : List Place} (h : Listed lo hi l)
    (hlo : -2 ^ 31 ≤ lo) (hhi : hi ≤ 2 ^ 31) (hconv : ∀ i, lo ≤ i → i < hi → conv i = i)
    (file : List UInt8) :
    (scanList conv LISTNUM ((l.flatMap Place.line ++ file).dropWhile isspace)).1 = l ∧
      (scanList conv LISTNUM ((l.flatMap Place.line ++ file).dropWhile isspace)).2 =
        file.dropWhile isspace := by
  rw [← h.length]
  exact scanList_lines h.ne_nil h.word (fun e he => hlo.trans (h.lo_le e he))
    (fun e he => (h.lt_hi e he).trans_le hhi)
    (fun e he => hconv _ (h.lo_le e he) (h.lt_hi e he)) file

theorem scanList_blanks (conv : Int → Int) (n : Nat) (file : List UInt8) :
    scanList conv (n + 1) (file.dropWhile isspace) = scanList conv (n + 1) file := by
  rw [scanList, scanList, scanPlace_blanks]

/-- **The ranking file is read back as it was written.** -/
theorem scanTop_print {t : Top} (h : t.Valid) : scanTop t.print = t := by
  have hint : ∀ i, -2 ^ 31 ≤ i → i < 2 ^ 31 → toInt i = i := fun i hlo hhi =>
    signed_wrap (by omega) (by omega)
  have hshort : ∀ i, -2 ^ 15 ≤ i → i < 2 ^ 15 → toShort i = i := fun i hlo hhi =>
    signed_wrap (by omega) (by omega)
  obtain ⟨money, rob, beg⟩ := t
  have hmoney := h.money.scan (by omega) (by omega) hint
    (rob.flatMap Place.line ++ beg.flatMap Place.line)
  have hrob := h.rob.scan (by omega) (by omega) hshort (beg.flatMap Place.line)
  have hbeg := h.beg.scan (by omega) (by omega) hshort []
  rw [List.append_nil] at hbeg
  dsimp only at hmoney hrob hbeg
  rw [scanTop, Top.print, List.flatMap_append, List.flatMap_append, List.append_assoc]
  dsimp only
  have hlist : LISTNUM = 59 + 1 := rfl
  rw [hlist, ← scanList_blanks, ← hlist, hmoney.1, hmoney.2, hrob.1, hrob.2, hbeg.1]

/-! ## One list -/

/-- The users on a list; nobody has the name `null.`. -/
def names (l : List Place) : List (List UInt8) := (l.map Place.id).filter (· ≠ nullId)

/-- The last place is not below -1 when the user is on the list. -/
def KeepsLast (id : List UInt8) (tmp : Int) (l : List Place) : Prop :=
  id ∈ l.map Place.id →
    ∀ last ∈ l.getLast?, -1 ≤ if last.id = id then tmp else last.score

instance (id : List UInt8) (tmp : Int) (l : List Place) : Decidable (KeepsLast id tmp l) :=
  inferInstanceAs (Decidable (_ ∈ _ → ∀ last ∈ l.getLast?, _))

/-- The place of the user gets his score. -/
def setScore (id : List UInt8) (tmp : Int) (e : Place) : Place :=
  if e.id = id then ⟨e.id, tmp⟩ else e

@[simp] theorem setScore_id (id : List UInt8) (tmp : Int) (e : Place) :
    (setScore id tmp e).id = e.id := by
  unfold setScore
  split <;> rfl

theorem markListed_of_notMem {id : List UInt8} {l : List Place} (h : id ∉ l.map Place.id)
    (tmp : Int) : markListed id tmp l = (l, tmp) := by
  induction l with
  | nil => rfl
  | cons e l ih =>
      obtain ⟨hne, hl⟩ := List.ne_and_not_mem_of_not_mem_cons h
      rw [markListed, if_neg hne.symm, ih hl]

theorem map_setScore_of_notMem {id : List UInt8} {l : List Place} (h : id ∉ l.map Place.id)
    (tmp : Int) : l.map (setScore id tmp) = l := by
  have hsame : ∀ e ∈ l, setScore id tmp e = e := by
    intro e he
    rw [setScore, if_neg]
    rintro rfl
    exact h (List.mem_map_of_mem he)
  rw [List.map_congr_left hsame, List.map_id']

/-- Who is on the list once gets his score there, and -1 is left for the last place. -/
theorem markListed_of_mem {id : List UInt8} {l : List Place} (hid : id ≠ nullId)
    (hnd : (names l).Nodup) (h : id ∈ l.map Place.id) (tmp : Int) :
    markListed id tmp l = (l.map (setScore id tmp), -1) := by
  induction l with
  | nil => contradiction
  | cons e l ih =>
      rw [names, List.map_cons] at hnd
      by_cases he : e.id = id
      · have hl : id ∉ l.map Place.id := by
          rw [he, List.filter_cons_of_pos (by simpa using hid)] at hnd
          intro hmem
          refine (List.nodup_cons.mp hnd).1 (List.mem_filter.mpr ⟨hmem, by simpa using hid⟩)
        rw [markListed, if_pos he, markListed_of_notMem hl, List.map_cons,
          map_setScore_of_notMem hl, setScore, if_pos he]
      · have hmem : id ∈ l.map Place.id := (List.mem_cons.mp h).resolve_left (Ne.symm he)
        have hnd' : (names l).Nodup :=
          hnd.sublist (((List.sublist_cons_self _ _)).filter _)
        rw [markListed, if_neg he, ih hnd' hmem, List.map_cons, setScore, if_neg he]

theorem enter_of_mem {id : List UInt8} {tmp : Int} {l : List Place} (hid : id ≠ nullId)
    (hnd : (names l).Nodup) (h : id ∈ l.map Place.id) (hkeeps : KeepsLast id tmp l) :
    enter id tmp l = exchangeSort Place.score (l.map (setScore id tmp)) := by
  rw [enter, markListed_of_mem hid hnd h, takeLast]
  cases hlast : l.getLast? with
  | none =>
      rw [List.getLast?_eq_none_iff.mp hlast]
      rfl
  | some last =>
      have hle := hkeeps h last hlast
      have hscore : (setScore id tmp last).score = if last.id = id then tmp else last.score := by
        unfold setScore
        split <;> rfl
      rw [List.getLast?_map, hlast, Option.map_some]
      dsimp only
      rw [if_neg (by rw [hscore]; omega)]

theorem enter_of_notMem {id : List UInt8} {l : List Place} (h : id ∉ l.map Place.id) (tmp : Int) :
    enter id tmp l = exchangeSort Place.score (takeLast id tmp l) := by
  rw [enter, markListed_of_notMem h]

/-- A place of the list that is entered: the user's, with his score, or one of before. -/
theorem mem_enter {id : List UInt8} {tmp : Int} {l : List Place} {e : Place} (hid : id ≠ nullId)
    (hnd : (names l).Nodup) (hkeeps : KeepsLast id tmp l) (he : e ∈ enter id tmp l) :
    e = ⟨id, tmp⟩ ∨ e ∈ l ∧ e.id ≠ id := by
  by_cases h : id ∈ l.map Place.id
  · rw [enter_of_mem hid hnd h hkeeps, (exchangeSort_perm _).mem_iff] at he
    obtain ⟨e', he', rfl⟩ := List.mem_map.mp he
    unfold setScore
    split
    · next heq => exact Or.inl (by rw [heq])
    · next hne => exact Or.inr ⟨he', hne⟩
  · have hold : e ∈ l → e ∈ l ∧ e.id ≠ id := fun hmem =>
      ⟨hmem, fun heq => h (heq ▸ List.mem_map_of_mem hmem)⟩
    rw [enter_of_notMem h, (exchangeSort_perm _).mem_iff, takeLast] at he
    cases hlast : l.getLast? with
    | none =>
        rw [hlast] at he
        exact Or.inr (hold he)
    | some last =>
        rw [hlast] at he
        dsimp only at he
        split at he
        · rcases List.mem_append.mp he with he | he
          · exact Or.inr (hold ((List.dropLast_sublist l).subset he))
          · exact Or.inl (List.mem_singleton.mp he)
        · exact Or.inr (hold he)

theorem enter_length {id : List UInt8} {tmp : Int} {l : List Place} (hid : id ≠ nullId)
    (hnd : (names l).Nodup) (hkeeps : KeepsLast id tmp l) :
    (enter id tmp l).length = l.length := by
  by_cases h : id ∈ l.map Place.id
  · rw [enter_of_mem hid hnd h hkeeps, (exchangeSort_perm _).length_eq, List.length_map]
  · rw [enter_of_notMem h, (exchangeSort_perm _).length_eq, takeLast]
    cases hlast : l.getLast? with
    | none => rfl
    | some last =>
        have hne : l ≠ [] := by
          rintro rfl
          contradiction
        have hpos := List.length_pos_iff.mpr hne
        dsimp only
        split
        · rw [List.length_append, List.length_dropLast, List.length_singleton]
          omega
        · rfl

/-- Nobody is on the list twice. -/
theorem enter_nodup {id : List UInt8} {tmp : Int} {l : List Place} (hid : id ≠ nullId)
    (hnd : (names l).Nodup) (hkeeps : KeepsLast id tmp l) : (names (enter id tmp l)).Nodup := by
  have hperm : ∀ l', (names (exchangeSort Place.score l')).Perm (names l') := fun l' =>
    ((exchangeSort_perm l').map Place.id).filter _
  by_cases h : id ∈ l.map Place.id
  · rw [enter_of_mem hid hnd h hkeeps, (hperm _).nodup_iff, names, List.map_map]
    have hsame : Place.id ∘ setScore id tmp = Place.id := funext (setScore_id id tmp)
    rwa [hsame]
  · rw [enter_of_notMem h, (hperm _).nodup_iff, takeLast]
    cases hlast : l.getLast? with
    | none => exact hnd
    | some last =>
        dsimp only
        split
        · have hsub : (names l.dropLast).Sublist (names l) :=
            ((List.dropLast_sublist l).map Place.id).filter _
          have hnew : id ∉ names l.dropLast := fun hmem =>
            h ((List.dropLast_sublist l).map Place.id |>.subset (List.mem_filter.mp hmem).1)
          rw [names, List.map_append, List.filter_append, ← names]
          have hone : ([⟨id, tmp⟩].map Place.id).filter (· ≠ nullId) = [id] := by simp [hid]
          rw [hone, ← List.concat_eq_append, List.nodup_concat]
          exact ⟨hnew, hnd.sublist hsub⟩
        · exact hnd

theorem enter_sorted (id : List UInt8) (tmp : Int) (l : List Place) :
    (enter id tmp l).Pairwise fun a b => b.score ≤ a.score :=
  exchangeSort_pairwise _

/-! ## The three lists -/

/-- A list of the file in order, with nobody on it twice. -/
structure Ordered (lo hi : Int) (l : List Place) : Prop extends Listed lo hi l where
  nodup : (names l).Nodup
  sorted : l.Pairwise fun a b => b.score ≤ a.score

theorem Ordered.enter {lo hi : Int} {l : List Place} (h : Ordered lo hi l) (u : Player) {tmp : Int}
    (hlo : lo ≤ tmp) (hhi : tmp < hi) (hkeeps : KeepsLast u.userid tmp l) :
    Ordered lo hi (enter u.userid tmp l) where
  length := (enter_length u.userid_ne_null h.nodup hkeeps).trans h.length
  ne_nil e he := by
    rcases mem_enter u.userid_ne_null h.nodup hkeeps he with rfl | hold
    · exact u.userid_ne_nil
    · exact h.ne_nil e hold.1
  word e he := by
    rcases mem_enter u.userid_ne_null h.nodup hkeeps he with rfl | hold
    · exact u.userid_word
    · exact h.word e hold.1
  lo_le e he := by
    rcases mem_enter u.userid_ne_null h.nodup hkeeps he with rfl | hold
    · exact hlo
    · exact h.lo_le e hold.1
  lt_hi e he := by
    rcases mem_enter u.userid_ne_null h.nodup hkeeps he with rfl | hold
    · exact hhi
    · exact h.lt_hi e hold.1
  nodup := enter_nodup u.userid_ne_null h.nodup hkeeps
  sorted := enter_sorted u.userid tmp l

/-- All three lists are in order. -/
structure Top.Ordered (t : Top) : Prop where
  money : Ytht.Ordered (-2 ^ 31) (2 ^ 31) t.money
  rob : Ytht.Ordered (-2 ^ 15) (2 ^ 15) t.rob
  beg : Ytht.Ordered (-2 ^ 15) (2 ^ 15) t.beg

theorem Top.Ordered.valid {t : Top} (h : t.Ordered) : t.Valid :=
  ⟨h.money.toListed, h.rob.toListed, h.beg.toListed⟩

/-- The last place of no list is taken by a user who is on it. -/
def Top.KeepsLast (t : Top) (u : Player) : Prop :=
  Ytht.KeepsLast u.userid u.money t.money ∧ Ytht.KeepsLast u.userid u.robExp t.rob ∧
    Ytht.KeepsLast u.userid u.begExp t.beg

instance (t : Top) (u : Player) : Decidable (t.KeepsLast u) :=
  inferInstanceAs (Decidable (_ ∧ _ ∧ _))

/-- One update keeps the lists in order. -/
theorem Top.Ordered.update {t : Top} (h : t.Ordered) {u : Player} (hkeeps : t.KeepsLast u) :
    (t.update u).Ordered where
  money := h.money.enter u (toInt_range _).1 (toInt_range _).2 hkeeps.1
  rob := h.rob.enter u u.robExp_range.1 u.robExp_range.2 hkeeps.2.1
  beg := h.beg.enter u u.begExp_range.1 u.begExp_range.2 hkeeps.2.2

/-! ## One update after the other -/

/-- The updates are applied in this order, and none takes the last place wrongly. -/
inductive Updated (t : Top) : List Player → Top → Prop
  | start : Updated t [] t
  | next {us : List Player} {t' : Top} {u : Player} :
      Updated t us t' → t'.KeepsLast u → Updated t (us ++ [u]) (t'.update u)

theorem Updated.ordered {t t' : Top} {us : List Player} (h : Updated t us t') (ht : t.Ordered) :
    t'.Ordered := by
  induction h with
  | start => exact ht
  | next _ hkeeps ih => exact ih.update hkeeps

theorem Updated.eq_foldl {t t' : Top} {us : List Player} (h : Updated t us t') :
    t' = us.foldl Top.update t := by
  induction h with
  | start => rfl
  | next _ _ ih => rw [List.foldl_append, ← ih]; rfl

/-- A user who is on the list has the score of his last run. -/
theorem lastScore {f : Player → Int} {part : Top → List Place}
    (hpart : ∀ t u, part (t.update u) = enter u.userid (f u) (part t))
    (hkeeps : ∀ t u, t.KeepsLast u → KeepsLast u.userid (f u) (part t))
    (hnd : ∀ t : Top, t.Ordered → (names (part t)).Nodup) {t t' : Top} {us : List Player}
    (h : Updated t us t') (ht : t.Ordered) {e : Place} (he : e ∈ part t') {u : Player}
    (hu : us.reverse.find? (·.userid = e.id) = some u) : e.score = f u := by
  induction h with
  | start => contradiction
  | next hrun hk ih =>
      rw [hpart] at he
      rw [List.reverse_append, List.reverse_singleton, List.singleton_append] at hu
      rcases mem_enter (Player.userid_ne_null _) (hnd _ (hrun.ordered ht)) (hkeeps _ _ hk) he with
        rfl | ⟨hmem, hne⟩
      · rw [List.find?_cons_of_pos (by simp)] at hu
        cases hu
        rfl
      · rw [List.find?_cons_of_neg (by simpa using Ne.symm hne)] at hu
        exact ih hmem hu

end Ytht
