import Mathlib.Data.List.Basic
import Ytht.Lib.Bytes

/-!
# Ucache.Hash

The hash of user ids.  An id is walked letter by letter through a trie kept in
a table of lines, to a leaf that gives a first bucket; the letters the trie did
not need move the bucket on by a weighted sum modulo `UCACHE_HASHBSIZE`.

`strcasecmp`-equal ids have equal hashes (`ucacheHash_congr`), and bucket 0 is
the bucket of the empty id alone (`ucacheHash_eq_zero`).
-/

namespace Ytht

open Bytes

abbrev idlen : Nat := 12
abbrev ucacheHashline : Nat := 1335
abbrev ucacheHashbsize : Nat := 617

/-- `mytoupper`: every byte goes to a letter. -/
def mytoupper (ch : UInt8) : UInt8 :=
  if isAlpha ch then toUpper ch else ch % (90 - 65) + 65

/-- `mytoupper(ch) - 'A'`, the column of a character in a line of the table. -/
def letter (ch : UInt8) : Nat := (mytoupper ch).toNat - 65

theorem letter_ofNat : ∀ n < 256, letter (UInt8.ofNat n) < 26 ∧
    letter (toLower (UInt8.ofNat n)) = letter (UInt8.ofNat n) := by
  decide +kernel

theorem letter_lt (ch : UInt8) : letter ch < 26 := by
  have h := (letter_ofNat ch.toNat ch.toNat_lt).1
  rwa [UInt8.ofNat_toNat] at h

@[simp] theorem letter_toLower (ch : UInt8) : letter (toLower ch) = letter ch := by
  have h := (letter_ofNat ch.toNat ch.toNat_lt).2
  rwa [UInt8.ofNat_toNat] at h

/-- The columns of an id do not depend on the case of its letters. -/
theorem map_letter_congr {u v : List UInt8} (h : strcasecmp u v = true) :
    u.map letter = v.map letter := by
  have hmap : ∀ w : List UInt8, w.map letter = (w.map toLower).map letter := by
    intro w
    simp
  rw [hmap u, hmap v, strcasecmp_iff.mp h]

/-! ## The table -/

/-- `struct ucache_hashtable` as `uhashgen.dat` fills it: a negative entry
`-k - 1` leads to line `k`, and no walk comes back to a line (`rank`); a leaf is
small enough for the `int` arithmetic of the hash. -/
structure HashTable where
  hash : Nat → Nat → Int
  rank : Nat → Nat
  inTable : ∀ line col, -(hash line col) ≤ ucacheHashline
  acyclic : ∀ line col, hash line col < 0 → rank (-(hash line col) - 1).toNat < rank line
  noOverflow : ∀ line col, hash line col * ucacheHashbsize < 2 ^ 31

namespace HashTable

/-- Where the `while (n1 < 0)` loop ends: the leaf, what is left of the id, and
the number `n` of entries looked at. -/
structure Walk where
  leaf : Nat
  rest : List UInt8
  n : Nat
  deriving DecidableEq

/-- The entry for the next character; an id that has ended counts as `'A'`. -/
def entry (t : HashTable) (line : Nat) (userid : List UInt8) : Int :=
  match userid with
  | [] => t.hash line 0
  | ch :: _ => t.hash line (letter ch)

/-- The walk from a line, with fuel. -/
def walkLoop (t : HashTable) : Nat → Nat → List UInt8 → Walk
  | 0, _, userid => ⟨0, userid, 0⟩
  | fuel + 1, line, userid =>
      let n1 := t.entry line userid
      if n1 < 0 then
        let w := walkLoop t fuel (-n1 - 1).toNat userid.tail
        { w with n := w.n + 1 }
      else ⟨n1.toNat, userid.tail, 1⟩

/-- The walk from a line; the rank of the line is fuel enough. -/
def walk (t : HashTable) (line : Nat) (userid : List UInt8) : Walk :=
  t.walkLoop (t.rank line + 1) line userid

theorem rank_entry {t : HashTable} {line : Nat} {userid : List UInt8}
    (h : t.entry line userid < 0) : t.rank (-(t.entry line userid) - 1).toNat < t.rank line := by
  cases userid with
  | nil => exact t.acyclic line 0 h
  | cons ch _ => exact t.acyclic line (letter ch) h

theorem walkLoop_fuel (t : HashTable) {fuel fuel' line : Nat} (userid : List UInt8)
    (h : t.rank line < fuel) (h' : t.rank line < fuel') :
    t.walkLoop fuel line userid = t.walkLoop fuel' line userid := by
  induction fuel generalizing fuel' line userid with
  | zero => omega
  | succ fuel ih =>
      cases fuel' with
      | zero => omega
      | succ fuel' =>
          simp only [walkLoop]
          split
          · next hneg =>
            have hrank := rank_entry hneg
            rw [@ih fuel' _ userid.tail (by omega) (by omega)]
          · rfl

/-- The walk goes on at an inner entry. -/
theorem walk_of_neg {t : HashTable} {line : Nat} {userid : List UInt8}
    (h : t.entry line userid < 0) :
    t.walk line userid =
      { t.walk (-(t.entry line userid) - 1).toNat userid.tail with
        n := (t.walk (-(t.entry line userid) - 1).toNat userid.tail).n + 1 } := by
  have hrank := rank_entry h
  rw [walk, walkLoop]
  simp only [if_pos h]
  rw [t.walkLoop_fuel userid.tail hrank (Nat.lt_add_one _)]
  rfl

/-- The walk ends at a leaf. -/
theorem walk_of_nonneg {t : HashTable} {line : Nat} {userid : List UInt8}
    (h : ¬ t.entry line userid < 0) :
    t.walk line userid = ⟨(t.entry line userid).toNat, userid.tail, 1⟩ := by
  rw [walk, walkLoop]
  simp only [if_neg h]

theorem walk_pos (t : HashTable) (line : Nat) (userid : List UInt8) :
    0 < (t.walk line userid).n := by
  by_cases h : t.entry line userid < 0
  · rw [walk_of_neg h]
    exact Nat.succ_pos _
  · rw [walk_of_nonneg h]
    exact Nat.one_pos

/-- The walk passes over as many characters as it looks at entries. -/
theorem walk_rest (t : HashTable) (line : Nat) (userid : List UInt8) :
    (t.walk line userid).rest = userid.drop (t.walk line userid).n := by
  generalize hr : t.rank line = r
  induction r using Nat.strongRecOn generalizing line userid with
  | _ r ih =>
      by_cases h : t.entry line userid < 0
      · have hrank := rank_entry h
        rw [walk_of_neg h]
        simp only
        rw [ih _ (hr ▸ hrank) _ _ rfl, Nat.add_comm, ← List.drop_drop, List.drop_one]
      · rw [walk_of_nonneg h, List.drop_one]

end HashTable

/-- A table of one line, the 26 letters being its leaves. -/
def lettersTable : HashTable where
  hash line col := if line = 0 ∧ col < 26 then col else 0
  rank _ := 0
  inTable line col := by
    split <;> omega
  acyclic line col h := by
    split at h <;> omega
  noOverflow line col := by
    split <;> simp only [ucacheHashbsize] <;> omega

/-! ## ucache_hash -/

/-- What the hash depends on: `MAXUSERS` and the table. -/
structure HashConf where
  maxusers : Nat
  maxusers_pos : 0 < maxusers
  table : HashTable

namespace HashConf

/-- `UCACHE_HASHSIZE`. -/
def hashsize (c : HashConf) : Nat := c.maxusers * 4

theorem hashsize_pos (c : HashConf) : 0 < c.hashsize := by
  have := c.maxusers_pos
  unfold hashsize
  omega

end HashConf

/-- The sum `n2` over the characters left by the trie, each weighted by the
number of characters from it to the end. -/
def tailSum : List UInt8 → Nat
  | [] => 0
  | ch :: userid => letter ch * (userid.length + 1) + tailSum userid

/-- `ucache_hash_deep`. -/
def ucacheHashDeep (c : HashConf) (userid : List UInt8) : Nat :=
  if userid = [] then 0 else (c.table.walk 0 userid).n

/-- The first of the buckets of a leaf, less one. -/
def leafBase (c : HashConf) (leaf : Nat) : Nat := (leaf * ucacheHashbsize) % c.hashsize

/-- `ucache_hash`. -/
def ucacheHash (c : HashConf) (userid : List UInt8) : Nat :=
  if userid = [] then 0
  else
    let w := c.table.walk 0 userid
    let n1 := leafBase c w.leaf + 1
    if w.rest = [] then n1
    else (n1 + tailSum w.rest % ucacheHashbsize) % c.hashsize + 1

/-- The sum stays far inside an `int` for the ids there are. -/
theorem tailSum_le (userid : List UInt8) : tailSum userid ≤ 25 * (userid.length * userid.length) := by
  induction userid with
  | nil => exact Nat.le_refl _
  | cons ch userid ih =>
      have hlt := letter_lt ch
      have hmul : letter ch * (userid.length + 1) ≤ 25 * (userid.length + 1) :=
        Nat.mul_le_mul_right _ (by omega)
      have hsq : (userid.length + 1) * (userid.length + 1) =
          userid.length * userid.length + userid.length + userid.length + 1 :=
        Nat.succ_mul_succ userid.length userid.length
      rw [tailSum, List.length_cons]
      omega

/-- Bucket 0 is for the empty id alone. -/
theorem ucacheHash_eq_zero {c : HashConf} {userid : List UInt8} :
    ucacheHash c userid = 0 ↔ userid = [] := by
  by_cases h : userid = []
  · simp [ucacheHash, h]
  · simp only [ucacheHash, h, if_false, iff_false]
    split <;> omega

/-- Every hash is an index of `hash_head`. -/
theorem ucacheHash_le (c : HashConf) (userid : List UInt8) : ucacheHash c userid ≤ c.hashsize := by
  have hpos := c.hashsize_pos
  simp only [ucacheHash, leafBase]
  have hmod := Nat.mod_lt ((c.table.walk 0 userid).leaf * ucacheHashbsize) hpos
  split
  · omega
  · split
    · omega
    · have := Nat.mod_lt (leafBase c (c.table.walk 0 userid).leaf + 1 +
        tailSum (c.table.walk 0 userid).rest % ucacheHashbsize) hpos
      unfold leafBase at this
      omega

theorem tailSum_congr {u v : List UInt8} (h : u.map letter = v.map letter) :
    tailSum u = tailSum v := by
  induction u generalizing v with
  | nil =>
      cases v with
      | nil => rfl
      | cons _ _ => simp at h
  | cons a u ih =>
      cases v with
      | nil => simp at h
      | cons b v =>
          simp only [List.map_cons, List.cons.injEq] at h
          have hlen : u.length = v.length := by simpa using congrArg List.length h.2
          rw [tailSum, tailSum, h.1, hlen, ih h.2]

/-- The column a walk takes at character `i`. -/
def column (userid : List UInt8) (i : Nat) : Nat := (userid.map letter).getD i 0

theorem column_tail (userid : List UInt8) (i : Nat) :
    column userid.tail i = column userid (i + 1) := by
  cases userid <;> simp [column]

theorem HashTable.entry_eq (t : HashTable) (line : Nat) (userid : List UInt8) :
    t.entry line userid = t.hash line (column userid 0) := by
  cases userid <;> rfl

/-- **A walk depends on the columns it takes only.** -/
theorem HashTable.walk_agree (t : HashTable) {line : Nat} {u v : List UInt8}
    (h : ∀ i < (t.walk line u).n, column u i = column v i) :
    (t.walk line u).leaf = (t.walk line v).leaf ∧ (t.walk line u).n = (t.walk line v).n := by
  generalize hr : t.rank line = r
  induction r using Nat.strongRecOn generalizing line u v with
  | _ r ih =>
      have hentry : t.entry line u = t.entry line v := by
        rw [entry_eq, entry_eq, h 0 (walk_pos t line u)]
      by_cases hneg : t.entry line u < 0
      · have hneg' : t.entry line v < 0 := hentry ▸ hneg
        rw [walk_of_neg hneg] at h
        rw [walk_of_neg hneg, walk_of_neg hneg', hentry]
        have hrank := hr ▸ rank_entry hneg'
        have hrec := ih _ hrank (u := u.tail) (v := v.tail) (fun i hi => by
          rw [column_tail, column_tail]
          exact h (i + 1) (by rw [hentry]; exact Nat.succ_lt_succ hi)) rfl
        exact ⟨hrec.1, congrArg (· + 1) hrec.2⟩
      · have hneg' : ¬ t.entry line v < 0 := hentry ▸ hneg
        rw [walk_of_nonneg hneg, walk_of_nonneg hneg', hentry]
        exact ⟨rfl, rfl⟩

/-- **The hash ignores case.** -/
theorem ucacheHash_congr (c : HashConf) {u v : List UInt8} (h : strcasecmp u v = true) :
    ucacheHash c u = ucacheHash c v := by
  have hmap := map_letter_congr h
  have hnil : u = [] ↔ v = [] := by
    rw [← @List.map_eq_nil_iff _ _ letter u, hmap, List.map_eq_nil_iff]
  obtain ⟨hleaf, hn⟩ := @HashTable.walk_agree c.table 0 u v fun i _ => by rw [column, hmap, column]
  have hrest : (c.table.walk 0 u).rest.map letter = (c.table.walk 0 v).rest.map letter := by
    rw [HashTable.walk_rest, HashTable.walk_rest, List.map_drop, List.map_drop, hmap, hn]
  have hrnil : (c.table.walk 0 u).rest = [] ↔ (c.table.walk 0 v).rest = [] := by
    rw [← @List.map_eq_nil_iff _ _ letter, hrest, List.map_eq_nil_iff]
  simp only [ucacheHash, hnil, hleaf, hrnil, tailSum_congr hrest]

end Ytht
