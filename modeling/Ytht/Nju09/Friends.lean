import Mathlib.Data.List.Sort
import Ytht.Lib.Bisect
import Ytht.Ucache.Getuser

/-!
# Nju09.Friends

The friends and the rejects of a user, each a file of names with a remark.  `initfriends` looks the
friends up, sorts their numbers for the bisection of the terminal, and drops from the file whoever
is not registered any more; `isbad` reads the rejects at every call.

The number of a user who is gone is 0, and the zeros come first when the numbers are sorted, while
the count that is left is that of the others.  And the rejects are read over the friends, so that
the array that is searched stays empty.  `friends_iff` says when the two are right all the same.
-/

namespace Ytht

open Bytes

namespace Friends

/-! ## Data -/

/-- `struct override` -/
structure Override where
  id : List UInt8
  exp : List UInt8
  deriving DecidableEq

/-- `MAXFRIENDS` -/
abbrev maxfriends : Nat := 200

/-- `MAXREJECTS` -/
abbrev maxrejects : Nat := 32

/-- The variables of the program: `fff`, `friendnum` and `badnum`. -/
structure Lists where
  fff : List Override
  friendnum : Nat
  badnum : Nat

/-- The array `bbb`, to which nothing is written. -/
def bbb : List Override := List.replicate maxrejects ⟨[], []⟩

/-- `struct user_info`, of which the lists need the friends. -/
structure UserInfo where
  friend : List Nat
  fnum : Nat
  deriving DecidableEq

/-- Who is using the program. -/
structure Session where
  loginok : Bool
  isguest : Bool

/-! ## Friends -/

/-- `fread` of at most `nmemb` records over an array -/
def freadOver (array : List Override) (nmemb : Nat) (file : List Override) : List Override :=
  file.take nmemb ++ array.drop (file.take nmemb).length

/-- `loadfriend` -/
def loadfriend (g : Lists) (file : Option (List Override)) : Lists :=
  match file with
  | none => { g with friendnum := 0 }
  | some file =>
      { g with
        fff := freadOver g.fff maxfriends file
        friendnum := (file.take maxfriends).length }

/-- `cmpfuid`: the difference of two `unsigned`, as an `int`. -/
def cmpfuid (a b : Nat) : Int := toInt ((a : Int) - b)

/-- `initfriends`, with the file that is left; `none` when a chain of the table does not end. -/
def initfriends (c : HashConf) (s : Ucache) (g : Lists) (file : List Override) :
    Option (UserInfo × Lists × List Override) :=
  let fnum := min file.length maxfriends
  if fnum = 0 then some (⟨List.replicate maxfriends 0, 0⟩, g, file)
  else do
    let g := loadfriend g (some file)
    let found ← (g.fff.take fnum).mapM fun f => getuser c s f.id
    let nums := found.map (·.getD 0)
    let fff := List.zipWith (fun f num => if num = 0 then { f with id := [] } else f) g.fff nums
    let g := { g with fff := fff ++ g.fff.drop fnum }
    let friend := nums.insertionSort (fun a b => cmpfuid a b ≤ 0) ++
      List.replicate (maxfriends - fnum) 0
    let left := nums.countP (· ≠ 0)
    if left = fnum then some (⟨friend, fnum⟩, g, file)
    else some (⟨friend, left⟩, g, fff.filter (·.id ≠ []))

/-- `isfriend` -/
def isfriend (c : HashConf) (s : Ucache) (me : Session) (u : UserInfo) (id : List UInt8) :
    Option Bool :=
  if !me.loginok || me.isguest then some false
  else (getuser c s id).map fun num => num.any fun num => (u.friend.take u.fnum).any (· = num)

/-- `friend_search`; `hi` is one more here. -/
def friendSearch (uid : Nat) (u : UserInfo) (tblsize : Nat) : Bool :=
  if uid = 0 then false
  else
    Bisect.search (fun low hi => (low + hi - 1) / 2) uid (fun i => u.friend.getD i 0) (tblsize + 1) 0
      tblsize

/-! ## Rejects -/

/-- `loadbad` -/
def loadbad (g : Lists) (file : Option (List Override)) : Lists :=
  match file with
  | none => g
  | some file =>
      { g with
        fff := freadOver g.fff maxrejects file
        badnum := (file.take maxrejects).length }

/-- `isbad` -/
def isbad (me : Session) (g : Lists) (file : Option (List Override)) (id : List UInt8) :
    Bool × Lists :=
  if !me.loginok || me.isguest then (false, g)
  else
    let g := loadbad g file
    ((bbb.take g.badnum).any fun b => strcasecmp id b.id, g)

/-! ## The numbers in order -/

/-- The entries of users that are registered. -/
def present (c : HashConf) (s : Ucache) (file : List Override) : List Override :=
  file.filter fun f => (s.account c f.id).isSome

/-- Their numbers, in increasing order. -/
def numbers (c : HashConf) (s : Ucache) (file : List Override) : List Nat :=
  ((present c s file).filterMap fun f => s.account c f.id).insertionSort (· ≤ ·)

/-- What `getuser` says, with 0 for nobody. -/
def number (c : HashConf) (s : Ucache) (f : Override) : Nat := (s.account c f.id).getD 0

theorem account_range {c : HashConf} {s : Ucache} {id : List UInt8} {x : Nat}
    (h : s.account c id = some x) : x ≠ 0 ∧ x ≤ c.maxusers ∧ id ≠ [] := by
  obtain ⟨hacc, hid⟩ := Ucache.account_some h
  refine ⟨hacc.1.ne_zero, hacc.1.2, ?_⟩
  rintro rfl
  exact hacc.2.1 (strcasecmp_nil_right.mp (strcasecmp_symm hid))

theorem number_eq_zero {c : HashConf} {s : Ucache} {f : Override} :
    number c s f = 0 ↔ s.account c f.id = none := by
  unfold number
  cases h : s.account c f.id with
  | none => simp
  | some x => simpa using (account_range h).1

theorem filterMap_present (c : HashConf) (s : Ucache) (file : List Override) :
    ((present c s file).filterMap fun f => s.account c f.id) =
      (file.map (number c s)).filter (· ≠ 0) := by
  induction file with
  | nil => rfl
  | cons f file ih =>
      rw [present, List.map_cons]
      cases h : s.account c f.id with
      | none =>
          rw [List.filter_cons_of_neg (by simp [h]),
            List.filter_cons_of_neg (by simpa using number_eq_zero.mpr h)]
          exact ih
      | some x =>
          have hnum : number c s f = x := by rw [number, h, Option.getD_some]
          rw [List.filter_cons_of_pos (by simp [h]), List.filterMap_cons, h, hnum,
            List.filter_cons_of_pos (by simpa using (account_range h).1)]
          exact congrArg (x :: ·) ih

/-- Sorting with two rules that agree on the members. -/
theorem orderedInsert_congr {r r' : Nat → Nat → Prop} [DecidableRel r] [DecidableRel r'] {a : Nat}
    {l : List Nat} (h : ∀ b ∈ l, r a b ↔ r' a b) :
    l.orderedInsert r a = l.orderedInsert r' a := by
  induction l with
  | nil => rfl
  | cons b l ih =>
      rw [List.orderedInsert_cons, List.orderedInsert_cons,
        ih fun x hx => h x (List.mem_cons_of_mem _ hx)]
      exact if_congr (h b List.mem_cons_self) rfl rfl

theorem insertionSort_congr {r r' : Nat → Nat → Prop} [DecidableRel r] [DecidableRel r']
    {l : List Nat} (h : ∀ a ∈ l, ∀ b ∈ l, r a b ↔ r' a b) :
    l.insertionSort r = l.insertionSort r' := by
  induction l with
  | nil => rfl
  | cons a l ih =>
      have htail := ih fun x hx y hy => h x (List.mem_cons_of_mem _ hx) y (List.mem_cons_of_mem _ hy)
      rw [List.insertionSort_cons, List.insertionSort_cons, htail]
      refine orderedInsert_congr fun b hb => h a List.mem_cons_self b ?_
      exact List.mem_cons_of_mem _ ((List.mem_insertionSort _).mp hb)

/-- The difference of two numbers of users is their difference. -/
theorem cmpfuid_le {a b : Nat} (ha : a < 2 ^ 31) (hb : b < 2 ^ 31) : cmpfuid a b ≤ 0 ↔ a ≤ b := by
  have hrange : IntRange ((a : Int) - b) := by
    constructor <;> omega
  rw [cmpfuid, hrange.toInt]
  omega

/-- The zeros come first. -/
theorem sort_zeros (l : List Nat) : l.insertionSort (· ≤ ·) =
    List.replicate (l.length - (l.filter (· ≠ 0)).length) 0 ++
      (l.filter (· ≠ 0)).insertionSort (· ≤ ·) := by
  refine List.Perm.eq_of_pairwise' (r := (· ≤ ·)) (List.pairwise_insertionSort _ _) ?_ ?_
  · refine List.pairwise_append.mpr ⟨?_, List.pairwise_insertionSort _ _, ?_⟩
    · exact List.pairwise_replicate.mpr (Or.inr le_rfl)
    · intro x hx y _
      rw [List.eq_of_mem_replicate hx]
      exact Nat.zero_le y
  · have hzeros : l.filter (fun n => !decide (n ≠ 0)) =
        List.replicate (l.length - (l.filter (· ≠ 0)).length) 0 := by
      have hlen := (List.filter_append_perm (· ≠ 0) l).length_eq
      rw [List.length_append] at hlen
      refine List.eq_replicate_iff.mpr ⟨by omega, fun n hn => ?_⟩
      simpa using (List.mem_filter.mp hn).2
    refine (List.perm_insertionSort _ l).trans ?_
    rw [← hzeros]
    refine ((List.filter_append_perm (· ≠ 0) l).symm.trans List.perm_append_comm).trans ?_
    exact (List.Perm.refl _).append (List.perm_insertionSort _ _).symm

/-! ## What `initfriends` leaves -/

theorem length_numbers (c : HashConf) (s : Ucache) (file : List Override) :
    (numbers c s file).length = ((file.map (number c s)).filter (· ≠ 0)).length := by
  rw [numbers, List.length_insertionSort, filterMap_present]

theorem length_present (c : HashConf) (s : Ucache) (file : List Override) :
    (numbers c s file).length = (present c s file).length := by
  rw [numbers, List.length_insertionSort, List.filterMap_length_eq_length]
  exact fun f hf => (List.mem_filter.mp hf).2

/-- As many users are gone. -/
def gone (c : HashConf) (s : Ucache) (file : List Override) : Nat :=
  file.length - (numbers c s file).length

theorem gone_add (c : HashConf) (s : Ucache) (file : List Override) :
    gone c s file + (numbers c s file).length = file.length := by
  have hle := List.length_filter_le (· ≠ 0) (file.map (number c s))
  rw [← length_numbers, List.length_map] at hle
  unfold gone
  omega

theorem sort_numbers {c : HashConf} (hmax : c.maxusers < 2 ^ 31) (s : Ucache)
    (file : List Override) :
    (file.map (number c s)).insertionSort (fun a b => cmpfuid a b ≤ 0) =
      List.replicate (gone c s file) 0 ++ numbers c s file := by
  have hsmall : ∀ a ∈ file.map (number c s), a < 2 ^ 31 := by
    intro a ha
    obtain ⟨f, -, rfl⟩ := List.mem_map.mp ha
    unfold number
    cases h : s.account c f.id with
    | none => exact Nat.zero_lt_of_lt hmax
    | some x => exact (account_range h).2.1.trans_lt hmax
  rw [insertionSort_congr fun a ha b hb => cmpfuid_le (hsmall a ha) (hsmall b hb), sort_zeros,
    gone, length_numbers, numbers, filterMap_present, List.length_map]

/-- The entries whose names are cleared are those of users who are gone. -/
theorem filter_cleared (c : HashConf) (s : Ucache) (file rest : List Override) :
    (List.zipWith (fun f num => if num = 0 then { f with id := [] } else f) (file ++ rest)
      (file.map (number c s))).filter (·.id ≠ []) = present c s file := by
  induction file with
  | nil => rw [List.map_nil, List.zipWith_nil_right]; rfl
  | cons f file ih =>
      rw [List.cons_append, List.map_cons, List.zipWith_cons_cons, present]
      split
      · next hzero =>
        rw [List.filter_cons_of_neg (by simp),
          List.filter_cons_of_neg (by simp [number_eq_zero.mp hzero])]
        exact ih
      · next hsome =>
        obtain ⟨x, hx⟩ := Option.ne_none_iff_exists'.mp (mt number_eq_zero.mpr hsome)
        rw [List.filter_cons_of_pos (by simpa using (account_range hx).2.2),
          List.filter_cons_of_pos (by simp [hx])]
        exact congrArg (f :: ·) ih

/-- **`initfriends`**: the count and the file are those of the users that are registered, but the
zeros of the others stand before their numbers. -/
theorem initfriends_spec {c : HashConf} (hmax : c.maxusers < 2 ^ 31) {s : Ucache}
    {own : Nat → List Nat} (h : s.Inv c c.Slot own) (hd : s.Distinct c) (g : Lists)
    {file : List Override} (hfile : file.length ≤ maxfriends) :
    ∃ g', initfriends c s g file = some
      (⟨List.replicate (gone c s file) 0 ++ numbers c s file ++
          List.replicate (maxfriends - file.length) 0, (numbers c s file).length⟩, g',
        present c s file) := by
  have hmin : min file.length maxfriends = file.length := Nat.min_eq_left hfile
  have hload : (loadfriend g (some file)).fff = file ++ g.fff.drop file.length := by
    rw [loadfriend, freadOver, List.take_of_length_le hfile]
  have hfound : (((file ++ g.fff.drop file.length).take file.length).mapM
      fun f => getuser c s f.id) = some (file.map fun f => s.account c f.id) := by
    rw [List.take_left]
    simp only [getuser_eq h hd]
    exact List.mapM_pure
  have hnums : ((file.map fun f => s.account c f.id).map (·.getD 0)) = file.map (number c s) := by
    rw [List.map_map]
    rfl
  have hleft : (file.map (number c s)).countP (· ≠ 0) = (numbers c s file).length := by
    rw [length_numbers, List.countP_eq_length_filter]
  unfold initfriends
  rw [hmin]
  dsimp only
  split
  · next hempty =>
    obtain rfl := List.length_eq_zero_iff.mp hempty
    exact ⟨_, rfl⟩
  · simp only [hload, Option.bind_eq_bind, hfound, Option.bind_some, hnums, sort_numbers hmax, hleft,
      filter_cleared]
    split
    · next hall =>
      have hpresent : present c s file = file := by
        rw [length_present] at hall
        exact List.filter_sublist.eq_of_length hall
      rw [hpresent, ← hall]
      exact ⟨_, rfl⟩
    · exact ⟨_, rfl⟩

/-! ## The searches -/

theorem mem_numbers {c : HashConf} {s : Ucache} {file : List Override} {uid : Nat} :
    uid ∈ numbers c s file ↔ ∃ f ∈ present c s file, s.account c f.id = some uid := by
  rw [numbers, List.mem_insertionSort, List.mem_filterMap]

/-- `friend_search` finds a number in order. -/
theorem friendSearch_iff {u : UserInfo} {uid : Nat} (huid : uid ≠ 0)
    (hsorted : (u.friend.take u.fnum).Pairwise (· ≤ ·)) (hlen : u.fnum ≤ u.friend.length) :
    friendSearch uid u u.fnum = true ↔ uid ∈ u.friend.take u.fnum := by
  have hmid : Bisect.Inside fun low hi => (low + hi - 1) / 2 := by
    intro low hi hlt
    dsimp only
    omega
  have hat : ∀ i, i < u.fnum → (u.friend.take u.fnum)[i]? = some (u.friend.getD i 0) := by
    intro i hi
    have hbound : i < u.friend.length := by omega
    rw [List.getElem?_take_of_lt hi, List.getD_eq_getElem?_getD, List.getElem?_eq_getElem hbound,
      Option.getD_some]
  have hmono : ∀ i j, i ≤ j → j < u.fnum → u.friend.getD i 0 ≤ u.friend.getD j 0 := by
    intro i j hij hj
    rcases Nat.eq_or_lt_of_le hij with rfl | hlt
    · exact Nat.le_refl _
    · obtain ⟨hi', hiv⟩ := List.getElem?_eq_some_iff.mp (hat i (by omega))
      obtain ⟨hj', hjv⟩ := List.getElem?_eq_some_iff.mp (hat j hj)
      rw [← hiv, ← hjv]
      exact List.pairwise_iff_getElem.mp hsorted i j hi' hj' hlt
  rw [friendSearch, if_neg huid, Bisect.search_iff hmid hmono (by omega) le_rfl,
    List.mem_iff_getElem?]
  constructor
  · rintro ⟨i, -, hi, hkey⟩
    exact ⟨i, (hat i hi).trans (congrArg some hkey)⟩
  · rintro ⟨i, hi⟩
    have hlt : i < u.fnum := by
      have hbound := (List.getElem?_eq_some_iff.mp hi).1
      rw [List.length_take] at hbound
      omega
    rw [hat i hlt] at hi
    exact ⟨i, Nat.zero_le i, hlt, Option.some.inj hi⟩

/-- The lists after `initfriends`: the count, the numbers and the file are those of the entries of
registered users, and the two searches find exactly these users. -/
structure UserInfo.Right (c : HashConf) (s : Ucache) (me : Session) (file : List Override)
    (u : UserInfo) (left : List Override) : Prop where
  fnum : u.fnum = (present c s file).length
  friend : u.friend.take u.fnum = numbers c s file
  file : left = present c s file
  search : ∀ uid, friendSearch uid u u.fnum = true ↔ ∃ f ∈ left, s.account c f.id = some uid
  isfriend : ∀ id, isfriend c s me u id = some true ↔
    ∃ f ∈ left, ∃ x, s.account c f.id = some x ∧ s.account c id = some x

/-- With the numbers in place, all is right. -/
theorem right_of_friend {c : HashConf} {s : Ucache} {own : Nat → List Nat}
    (h : s.Inv c c.Slot own) (hd : s.Distinct c) {me : Session}
    (hme : me.loginok = true ∧ me.isguest = false) {file : List Override} {u : UserInfo}
    (hfnum : u.fnum = (numbers c s file).length)
    (hfriend : u.friend.take u.fnum = numbers c s file) (hlen : u.fnum ≤ u.friend.length) :
    u.Right c s me file (present c s file) := by
  refine ⟨hfnum.trans (length_present c s file), hfriend, rfl, fun uid => ?_, fun id => ?_⟩
  · rw [← mem_numbers, ← hfriend]
    by_cases huid : uid = 0
    · have hzero : 0 ∉ numbers c s file := by
        intro hmem
        obtain ⟨f, -, hf⟩ := mem_numbers.mp hmem
        exact (account_range hf).1 rfl
      rw [huid, hfriend, friendSearch, if_pos rfl]
      exact ⟨nofun, fun hmem => absurd hmem hzero⟩
    · refine friendSearch_iff huid ?_ hlen
      rw [hfriend]
      exact List.pairwise_insertionSort _ _
  · rw [Friends.isfriend, hme.1, hme.2, getuser_eq h hd, hfriend]
    simp only [Bool.not_true, Bool.or_self, Bool.false_eq_true, if_false, Option.map_some,
      Option.some.injEq, Option.any_eq_true, List.any_eq_true, decide_eq_true_eq]
    constructor
    · rintro ⟨num, hnum, x, hx, rfl⟩
      obtain ⟨f, hf, hfx⟩ := mem_numbers.mp hx
      exact ⟨f, hf, x, hfx, hnum⟩
    · rintro ⟨f, hf, x, hfx, hx⟩
      exact ⟨x, hx, x, mem_numbers.mpr ⟨f, hf, hfx⟩, rfl⟩

/-- `initfriends` leaves the lists right. -/
def FriendsRight (c : HashConf) (s : Ucache) (me : Session) (g : Lists) (file : List Override) :
    Prop :=
  ∃ u g' left, initfriends c s g file = some (u, g', left) ∧ u.Right c s me file left

theorem numbers_eq_nil {c : HashConf} {s : Ucache} {file : List Override} :
    numbers c s file = [] ↔ ∀ f ∈ file, s.account c f.id = none := by
  rw [← List.length_eq_zero_iff, length_present, List.length_eq_zero_iff, present,
    List.filter_eq_nil_iff]
  simp

theorem gone_eq_zero {c : HashConf} {s : Ucache} {file : List Override} :
    gone c s file = 0 ↔ ∀ f ∈ file, s.account c f.id ≠ none := by
  have hadd := gone_add c s file
  rw [length_present] at hadd
  have hle : (present c s file).length ≤ file.length := List.length_filter_le _ _
  have hall : (present c s file).length = file.length ↔ ∀ f ∈ file, s.account c f.id ≠ none := by
    rw [present, List.length_filter_eq_length_iff]
    simp only [Option.isSome_iff_ne_none]
  rw [← hall]
  omega

/-- **The friends are right** unless some are gone and some are not. -/
theorem friendsRight_iff {c : HashConf} (hmax : c.maxusers < 2 ^ 31) {s : Ucache}
    {own : Nat → List Nat} (h : s.Inv c c.Slot own) (hd : s.Distinct c) {me : Session}
    (hme : me.loginok = true ∧ me.isguest = false) (g : Lists) {file : List Override}
    (hfile : file.length ≤ maxfriends) :
    FriendsRight c s me g file ↔
      (∀ f ∈ file, s.account c f.id ≠ none) ∨ ∀ f ∈ file, s.account c f.id = none := by
  obtain ⟨g', hinit⟩ := initfriends_spec hmax h hd g hfile
  rw [← gone_eq_zero, ← numbers_eq_nil]
  constructor
  · rintro ⟨u, g'', left, hu, hright⟩
    rw [hinit] at hu
    obtain rfl := (Prod.mk.inj (Option.some.inj hu)).1
    refine or_iff_not_imp_right.mpr fun hsome => ?_
    have hfriend := hright.friend
    dsimp only at hfriend
    obtain ⟨x, xs, hxs⟩ := List.exists_cons_of_ne_nil hsome
    cases hgone : gone c s file with
    | zero => rfl
    | succ k =>
        rw [hgone, hxs, List.replicate_succ, List.cons_append, List.cons_append, List.length_cons,
          List.take_succ_cons] at hfriend
        have hmem : x ∈ numbers c s file := by
          rw [hxs]
          exact List.mem_cons_self
        obtain ⟨f, -, hf⟩ := mem_numbers.mp hmem
        exact absurd (List.cons.inj hfriend).1.symm (account_range hf).1
  · intro hcond
    refine ⟨_, g', _, hinit, right_of_friend h hd hme rfl ?_ ?_⟩
    · dsimp only
      rcases hcond with hgone | hnone
      · rw [hgone, List.replicate_zero, List.nil_append, List.take_left]
      · rw [hnone]
        rfl
    · dsimp only
      rw [List.length_append, List.length_append]
      omega

/-! ## The rejects -/

/-- What `initfriends` leaves to the user and in the file. -/
def lists (c : HashConf) (s : Ucache) (g : Lists) (file : List Override) :
    Option (UserInfo × List Override) :=
  (initfriends c s g file).map fun r => (r.1, r.2.2)

/-- `isbad` finds who is in the file, and touches neither the friends nor what comes of them. -/
structure BadRight (me : Session) (g : Lists) (rejects : List Override) (id : List UInt8) :
    Prop where
  found : (isbad me g (some rejects) id).1 = true ↔ ∃ r ∈ rejects, strcasecmp id r.id = true
  fff : (isbad me g (some rejects) id).2.fff = g.fff
  friendnum : (isbad me g (some rejects) id).2.friendnum = g.friendnum
  later : ∀ c s file, lists c s (isbad me g (some rejects) id).2 file = lists c s g file

/-- `initfriends` does not look at the count of the rejects. -/
theorem lists_badnum (c : HashConf) (s : Ucache) (g : Lists) (n : Nat) (file : List Override) :
    lists c s { g with badnum := n } file = lists c s g file := by
  unfold lists initfriends loadfriend
  dsimp only
  split
  · rfl
  · simp only [Option.bind_eq_bind, Option.map_bind]
    congr 1
    funext found
    simp only [Function.comp_apply]
    split <;> rfl

theorem any_bbb (id : List UInt8) (n : Nat) : ((bbb.take (n + 1)).any fun b => strcasecmp id b.id) =
    decide (id = []) := by
  have hone : strcasecmp id [] = decide (id = []) := by
    rw [Bool.eq_iff_iff, strcasecmp_nil_right, decide_eq_true_eq]
  rw [bbb, List.take_replicate, Bool.eq_iff_iff, List.any_eq_true]
  constructor
  · rintro ⟨b, hb, hid⟩
    rwa [List.eq_of_mem_replicate hb, hone] at hid
  · intro hid
    refine ⟨⟨[], []⟩, List.mem_replicate.mpr ⟨?_, rfl⟩, hone.trans hid⟩
    exact Nat.ne_of_gt (Nat.lt_min.mpr ⟨Nat.succ_pos n, by decide⟩)

/-- **The rejects are right** when there are none, or the friends begin with them and the name is
empty, or is not in the file. -/
theorem badRight_iff {me : Session} (hme : me.loginok = true ∧ me.isguest = false) (g : Lists)
    (rejects : List Override) (id : List UInt8) :
    BadRight me g rejects id ↔ rejects = [] ∨ rejects.take maxrejects <+: g.fff ∧
      (id = [] ↔ ∃ r ∈ rejects, strcasecmp id r.id = true) := by
  have hbad : isbad me g (some rejects) id =
      ((bbb.take (rejects.take maxrejects).length).any fun b => strcasecmp id b.id,
        { g with
          fff := freadOver g.fff maxrejects rejects
          badnum := (rejects.take maxrejects).length }) := by
    rw [isbad, hme.1, hme.2]
    rfl
  have hfff : freadOver g.fff maxrejects rejects = g.fff ↔ rejects.take maxrejects <+: g.fff := by
    rw [freadOver, List.prefix_iff_eq_append]
  cases rejects with
  | nil =>
      refine ⟨fun _ => Or.inl rfl, fun _ => ?_⟩
      have hsame : isbad me g (some []) id = (false, { g with badnum := 0 }) := hbad
      refine ⟨?_, ?_, ?_, fun c s file => ?_⟩
      · rw [hsame]
        exact ⟨nofun, fun ⟨r, hr, _⟩ => absurd hr List.not_mem_nil⟩
      · rw [hsame]
      · rw [hsame]
      · rw [hsame]
        exact lists_badnum c s g 0 file
  | cons r rejects =>
      have hfound : (isbad me g (some (r :: rejects)) id).1 = true ↔ id = [] := by
        rw [hbad]
        dsimp only
        rw [List.take_succ_cons, List.length_cons, any_bbb, decide_eq_true_eq]
      rw [or_iff_right (List.cons_ne_nil r rejects)]
      constructor
      · intro hright
        have hkept := hright.fff
        rw [hbad] at hkept
        exact ⟨hfff.mp hkept, hfound.symm.trans hright.found⟩
      · rintro ⟨hbegins, hid⟩
        have hkept := hfff.mpr hbegins
        refine ⟨hfound.trans hid, ?_, ?_, fun c s file => ?_⟩
        · rw [hbad]
          exact hkept
        · rw [hbad]
        · rw [hbad]
          dsimp only
          rw [hkept]
          exact lists_badnum c s g _ file

theorem friends_iff {c : HashConf} {s : Ucache} (h : PasswdReachable c s)
    (hmax : c.maxusers < 2 ^ 31) {me : Session} (hme : me.loginok = true ∧ me.isguest = false)
    (g : Lists) :
    (∀ file : List Override, file.length ≤ maxfriends → (FriendsRight c s me g file ↔
      (∀ f ∈ file, s.account c f.id ≠ none) ∨ ∀ f ∈ file, s.account c f.id = none)) ∧
    ∀ rejects id, BadRight me g rejects id ↔
      rejects = [] ∨ rejects.take maxrejects <+: g.fff ∧
        (id = [] ↔ ∃ r ∈ rejects, strcasecmp id r.id = true) := by
  obtain ⟨own, hinv, hdist⟩ := h.inv
  exact ⟨fun file hfile => friendsRight_iff hmax hinv hdist hme g hfile,
    fun rejects id => badRight_iff hme g rejects id⟩

/-- `Ab` is registered, `cd` is not. -/
def oneGone : List Override := [⟨shortName.bytes, []⟩, ⟨[99, 100], []⟩]

/-- Before anything is read. -/
def noLists : Lists := ⟨List.replicate maxfriends ⟨[], []⟩, 0, 0⟩

theorem friends_iff_one : ∃ s, PasswdReachable twoUsers s ∧
    FriendsRight twoUsers s ⟨true, false⟩ noLists [⟨shortName.bytes, []⟩] ∧
    BadRight ⟨true, false⟩ noLists [] shortName.bytes := by
  obtain ⟨s, hs, hname, hacc, -⟩ := exists_onlyUser (u := shortName) (by decide) (by decide)
  obtain ⟨own, hinv, hdist⟩ := hs.inv
  have hid : strcasecmp shortName.bytes (s.userid 1) = true := by
    rw [hname]
    rfl
  have hiff := @friends_iff twoUsers s hs (by decide) ⟨true, false⟩ ⟨rfl, rfl⟩ noLists
  refine ⟨s, hs, (hiff.1 _ (by decide)).mpr (Or.inl fun f hf => ?_),
    (hiff.2 _ _).mpr (Or.inl rfl)⟩
  rw [List.mem_singleton.mp hf, Ucache.account_eq hdist hacc hid]
  exact Option.some_ne_none 1

/-- With `cd` gone, `Ab` is no friend, either; and `Ab` is not found among the rejects. -/
theorem friends_lost : ∃ s, PasswdReachable twoUsers s ∧
    ¬ FriendsRight twoUsers s ⟨true, false⟩ noLists oneGone ∧
    ¬ BadRight ⟨true, false⟩ noLists [⟨shortName.bytes, []⟩] shortName.bytes := by
  obtain ⟨s, hs, hname, hacc, honly⟩ := exists_onlyUser (u := shortName) (by decide) (by decide)
  obtain ⟨own, hinv, hdist⟩ := hs.inv
  have hsome : s.account twoUsers shortName.bytes = some 1 :=
    Ucache.account_eq hdist hacc (by rw [hname]; rfl)
  have hnone : s.account twoUsers [99, 100] = none := by
    refine Ucache.account_none.mpr fun x hx => ?_
    rw [honly x hx, hname]
    decide
  refine ⟨s, hs, fun hright => ?_, fun hright => ?_⟩
  · rcases (friendsRight_iff (by decide) hinv hdist ⟨rfl, rfl⟩ noLists (by decide)).mp hright
      with hall | hno
    · exact hall ⟨[99, 100], []⟩ (List.mem_cons_of_mem _ List.mem_cons_self) hnone
    · exact Option.some_ne_none 1 (hsome.symm.trans (hno ⟨shortName.bytes, []⟩ List.mem_cons_self))
  · have hfound := (badRight_iff ⟨rfl, rfl⟩ noLists _ _).mp hright
    rcases hfound with hnil | ⟨hbegins, -⟩
    · exact absurd hnil (List.cons_ne_nil _ _)
    · exact absurd hbegins (by decide)

end Friends

end Ytht
