import Mathlib.Tactic.ByContra
import Ytht.Ucache.Table

/-!
# Ucache.Namearray

The list of the users whose ids begin with a tag, `u_namearray`.  A tag that
reaches a leaf of the trie has the buckets of that leaf scanned; a shorter one
is continued by each letter in turn.

`visits` is the order of scanning, and `uNamearray_eq` says that the function
lists the users in the visited buckets.  A leaf is scanned over
`UCACHE_HASHBSIZE` buckets from its first, but `ucache_hash` puts the ids it
has to spread one bucket further on: those whose sum leaves the last residue
are missed, unless another leaf below the tag covers their bucket
(`uNamearray_exact_iff`).
-/

namespace Ytht

open Bytes Function

/-! ## u_namearray -/

/-- What the caller gets: `buf[0..*pnum-1]` and `*full`. -/
structure Names where
  buf : List (List UInt8)
  full : Bool
  deriving DecidableEq

/-- The test on a user in a chain: the id begins with `atag` and is not kicked out. -/
def tagMatches (s : Ucache) (atag : List UInt8) (num : Nat) : Bool :=
  strncasecmp atag.length (s.userid num) atag && (s.passwd (num - 1)).kickout == 0

/-- The loop along a chain; a row of `buf` takes ids of up to `IDLEN` characters. -/
def scanChain (s : Ucache) (max : Nat) (atag : List UInt8) : Nat → Nat → Names → Option Names
  | 0, _, _ => none
  | fuel + 1, num, b =>
      if num = 0 then some b
      else if tagMatches s atag num then
        if idlen < (s.userid num).length then none
        else
          let b := { b with buf := b.buf ++ [s.userid num] }
          if max ≤ b.buf.length then some { b with full := true }
          else scanChain s max atag fuel (s.next num) b
      else scanChain s max atag fuel (s.next num) b

/-- The loop over the buckets of a leaf, with `k` to go from the `n`-th. -/
def scanBuckets (c : HashConf) (s : Ucache) (max : Nat) (atag : List UInt8) (hash : Nat) :
    Nat → Nat → Names → Option Names
  | 0, _, b => some b
  | k + 1, n, b => do
      let b ← scanChain s max atag (c.maxusers + 1)
        (s.hashHead ((hash + n % ucacheHashbsize) % c.hashsize + 1)) b
      if b.full then some b else scanBuckets c s max atag hash k (n + 1) b

/-- `'A'` to `'Z'`. -/
def letters : List UInt8 := (List.range 26).map fun k => UInt8.ofNat (65 + k)

/-- The loop over the letters that continue a tag. -/
def forLetters (f : UInt8 → Names → Option Names) : List UInt8 → Names → Option Names
  | [], b => some b
  | i :: is, b => do
      let b ← f i b
      if b.full then some b else forLetters f is b

/-- `u_namearray` on a tag that may have been continued.  `tagv` has room for
`IDLEN` characters and the NUL, and a NUL written beyond it is a failure. -/
def uNamearrayLoop (c : HashConf) (s : Ucache) (max : Nat) (atag : List UInt8) :
    Nat → List UInt8 → Names → Option Names
  | 0, _, _ => none
  | fuel + 1, tag, b =>
      if idlen < tag.length ∨ tag = [] then some b
      else
        let ksz := ucacheHashDeep c tag
        if ksz ≤ tag.length ∨ tag.length = idlen then
          if idlen < ksz then none
          else
            scanBuckets c s max atag (ucacheHash c (tag.take ksz) - 1) ucacheHashbsize 0 b
        else forLetters (fun i => uNamearrayLoop c s max atag fuel (tag ++ [i])) letters b

/-- `u_namearray(buf, max, &num, tag, tag, &full)`. -/
def uNamearray (c : HashConf) (s : Ucache) (max : Nat) (tag : List UInt8) : Option Names :=
  uNamearrayLoop c s max tag (idlen + 1) tag ⟨[], false⟩

/-! ## The order of scanning -/

/-- The buckets that are scanned for a tag, in order; `none` stands for the
write beyond `tagv`. -/
def visits (c : HashConf) : Nat → List UInt8 → List (Option Nat)
  | 0, _ => [none]
  | fuel + 1, tag =>
      if idlen < tag.length ∨ tag = [] then []
      else
        let ksz := ucacheHashDeep c tag
        if ksz ≤ tag.length ∨ tag.length = idlen then
          if idlen < ksz then [none]
          else (List.range' 0 ucacheHashbsize).map fun n =>
            some ((ucacheHash c (tag.take ksz) - 1 + n % ucacheHashbsize) % c.hashsize + 1)
        else letters.flatMap fun i => visits c fuel (tag ++ [i])

/-- Scan buckets one after the other. -/
def scanAll (c : HashConf) (s : Ucache) (max : Nat) (atag : List UInt8) :
    List (Option Nat) → Names → Option Names
  | [], b => some b
  | none :: _, _ => none
  | some k :: l, b => do
      let b ← scanChain s max atag (c.maxusers + 1) (s.hashHead k) b
      if b.full then some b else scanAll c s max atag l b

theorem scanAll_append (c : HashConf) (s : Ucache) (max : Nat) (atag : List UInt8)
    (l m : List (Option Nat)) {b : Names} (hb : b.full = false) :
    scanAll c s max atag (l ++ m) b =
      (scanAll c s max atag l b).bind fun b =>
        if b.full then some b else scanAll c s max atag m b := by
  induction l generalizing b with
  | nil => simp [scanAll, hb]
  | cons o l ih =>
      cases o with
      | none => rfl
      | some k =>
          simp only [List.cons_append, scanAll, Option.bind_eq_bind, Option.bind_assoc]
          congr 1
          funext b1
          cases hfull : b1.full with
          | true => simp [hfull]
          | false => simpa using ih hfull

theorem scanBuckets_eq (c : HashConf) (s : Ucache) (max : Nat) (atag : List UInt8) (hash k n : Nat)
    (b : Names) :
    scanBuckets c s max atag hash k n b =
      scanAll c s max atag ((List.range' n k).map fun n =>
        some ((hash + n % ucacheHashbsize) % c.hashsize + 1)) b := by
  induction k generalizing n b with
  | zero => rfl
  | succ k ih => simp only [scanBuckets, List.range'_succ, List.map_cons, scanAll, ih]

theorem forLetters_eq {c : HashConf} {s : Ucache} {max : Nat} {atag : List UInt8}
    {f : UInt8 → Names → Option Names} {v : UInt8 → List (Option Nat)}
    (hf : ∀ i b, b.full = false → f i b = scanAll c s max atag (v i) b) (is : List UInt8)
    {b : Names} (hb : b.full = false) :
    forLetters f is b = scanAll c s max atag (is.flatMap v) b := by
  induction is generalizing b with
  | nil => rfl
  | cons i is ih =>
      rw [List.flatMap_cons, scanAll_append c s max atag _ _ hb, forLetters, hf i b hb]
      simp only [Option.bind_eq_bind]
      congr 1
      funext b1
      cases hfull : b1.full with
      | true => rfl
      | false => simpa using ih hfull

/-- **`u_namearray` scans the visited buckets.** -/
theorem uNamearrayLoop_eq (c : HashConf) (s : Ucache) (max : Nat) (atag : List UInt8)
    (fuel : Nat) (tag : List UInt8) {b : Names} (hb : b.full = false) :
    uNamearrayLoop c s max atag fuel tag b = scanAll c s max atag (visits c fuel tag) b := by
  induction fuel generalizing tag b with
  | zero => rfl
  | succ fuel ih =>
      simp only [uNamearrayLoop, visits]
      split
      · rfl
      · split
        · split
          · rfl
          · exact scanBuckets_eq c s max atag _ _ _ b
        · exact forLetters_eq (fun i b hb => ih (tag ++ [i]) hb) letters hb

/-! ## What a scan lists -/

/-- The users of a chain that match. -/
def listed (s : Ucache) (atag : List UInt8) (l : List Nat) : List (List UInt8) :=
  (l.filter (tagMatches s atag)).map s.userid

theorem scanChain_chain {s : Ucache} {max : Nat} {atag : List UInt8} {l : List Nat} {fuel num : Nat}
    {b : Names} (hl : Chain.IsChain s.next num l) (hfuel : l.length < fuel)
    (hid : ∀ x ∈ l, (s.userid x).length ≤ idlen)
    (hmax : b.buf.length + (listed s atag l).length < max) :
    scanChain s max atag fuel num b = some { b with buf := b.buf ++ listed s atag l } := by
  induction l generalizing fuel num b with
  | nil =>
      obtain ⟨fuel, rfl⟩ : ∃ f, fuel = f + 1 := ⟨fuel - 1, by simp at hfuel; omega⟩
      rw [scanChain, if_pos (Chain.isChain_nil.mp hl)]
      simp [listed]
  | cons x l ih =>
      obtain ⟨fuel, rfl⟩ : ∃ f, fuel = f + 1 := ⟨fuel - 1, by omega⟩
      obtain ⟨rfl, h0, htail⟩ := hl
      have hfuel' : l.length < fuel := by simpa using hfuel
      have hid' : ∀ x ∈ l, (s.userid x).length ≤ idlen :=
        fun x hx => hid x (List.mem_cons_of_mem _ hx)
      have hlen := hid num List.mem_cons_self
      rw [scanChain, if_neg h0]
      cases hm : tagMatches s atag num with
      | true =>
          have hlist : listed s atag (num :: l) = s.userid num :: listed s atag l := by
            simp [listed, hm]
          rw [hlist, List.length_cons] at hmax
          simp only [if_true]
          rw [if_neg (by omega),
            if_neg (by simp only [List.length_append, List.length_singleton]; omega),
            ih htail hfuel' hid' (by simp only [List.length_append, List.length_singleton]; omega)]
          simp [hlist]
      | false =>
          have hlist : listed s atag (num :: l) = listed s atag l := by simp [listed, hm]
          rw [hlist] at hmax
          simp only [Bool.false_eq_true, if_false]
          rw [ih htail hfuel' hid' hmax, hlist]

/-- The users listed over all visited buckets. -/
def listing (s : Ucache) (atag : List UInt8) (own : Nat → List Nat) (l : List (Option Nat)) :
    List (List UInt8) :=
  l.flatMap fun o => o.elim [] fun k => listed s atag (own k)

theorem scanAll_eq {c : HashConf} {s : Ucache} {live : Nat → Prop} {own : Nat → List Nat}
    (h : s.Inv c live own) (hid : ∀ x, live x → (s.userid x).length ≤ idlen) {max : Nat}
    {atag : List UInt8} {l : List (Option Nat)} {b : Names} (hb : b.full = false)
    (hmax : b.buf.length + (listing s atag own l).length < max) :
    scanAll c s max atag l b =
      if none ∈ l then none else some { b with buf := b.buf ++ listing s atag own l } := by
  induction l generalizing b with
  | nil => simp [scanAll, listing]
  | cons o l ih =>
      cases o with
      | none => simp [scanAll]
      | some k =>
          have hlist : listing s atag own (some k :: l) =
              listed s atag (own k) ++ listing s atag own l := by
            simp [listing]
          rw [hlist, List.length_append] at hmax
          have hchain := @scanChain_chain s max atag (own k) (c.maxusers + 1) (s.hashHead k) b
            (h.threaded.chain k) (Nat.lt_succ_of_le (h.length_le k))
            (fun x hx => hid x ((h.mem k x).mp hx).1) (by omega)
          rw [scanAll, hchain]
          simp only [Option.bind_eq_bind, Option.bind_some, hb, Bool.false_eq_true, if_false]
          rw [ih rfl (by simp only [List.length_append]; omega), hlist]
          simp

/-! ## Which buckets are visited -/

/-- The ids that begin with a tag, ignoring case. -/
def startsWith (tag userid : List UInt8) : Prop := strncasecmp tag.length userid tag = true

theorem startsWith_self (tag : List UInt8) : startsWith tag tag := strcasecmp_refl _

theorem startsWith_iff {tag v : List UInt8} :
    startsWith tag v ↔ (v.take tag.length).map toLower = tag.map toLower := by
  rw [startsWith, strncasecmp, strcasecmp_iff, List.take_length]

theorem startsWith.length_le {tag v : List UInt8} (h : startsWith tag v) :
    tag.length ≤ v.length := by
  have hlen := congrArg List.length (startsWith_iff.mp h)
  simp only [List.length_map, List.length_take] at hlen
  omega

/-- Such an id takes the columns of the tag. -/
theorem startsWith.column {tag v : List UInt8} (h : startsWith tag v) {i : Nat}
    (hi : i < tag.length) : column v i = column tag i := by
  have hmap := map_letter_congr (strcasecmp_iff.mpr (startsWith_iff.mp h))
  have hget := congrArg (fun l => l.getD i 0) hmap
  have hv := h.length_le
  simp only [List.getD_eq_getElem?_getD, List.getElem?_map] at hget
  simp only [Ytht.column, List.getD_eq_getElem?_getD, List.getElem?_map]
  rwa [List.getElem?_take_of_lt hi] at hget

theorem startsWith_append {tag v : List UInt8} {i : UInt8} (h : startsWith (tag ++ [i]) v) :
    startsWith tag v := by
  rw [startsWith_iff] at h ⊢
  have htake := congrArg (List.take tag.length) h
  rw [← List.map_take, ← List.map_take, List.take_take, List.take_left' rfl] at htake
  simpa using htake

theorem letter_letters : ∀ k < 26, UInt8.ofNat (65 + k) ∈ letters ∧
    letter (UInt8.ofNat (65 + k)) = k := by
  decide

theorem column_lt (v : List UInt8) (i : Nat) : column v i < 26 := by
  simp only [column, List.getD_eq_getElem?_getD, List.getElem?_map]
  cases v[i]? with
  | none => exact Nat.zero_lt_succ _
  | some ch => exact letter_lt ch

/-- An id that begins with the tag takes the same walk as one that goes on with
a letter. -/
theorem startsWith.continue {tag v : List UInt8} (h : startsWith tag v) :
    ∃ i ∈ letters, ∃ w, startsWith (tag ++ [i]) w ∧ ∀ j, Ytht.column w j = Ytht.column v j := by
  obtain ⟨hmem, hletter⟩ := letter_letters _ (column_lt v tag.length)
  generalize UInt8.ofNat (65 + Ytht.column v tag.length) = i at hmem hletter
  refine ⟨i, hmem, tag ++ [i] ++ v.drop (tag.length + 1), ?_, fun j => ?_⟩
  · rw [startsWith_iff, List.take_left' rfl]
  · rcases Nat.lt_trichotomy j tag.length with hj | rfl | hj
    · rw [h.column hj]
      simp [Ytht.column, List.getElem?_append_left, hj]
    · rw [← hletter]
      simp [Ytht.column]
    · obtain ⟨k, rfl⟩ : ∃ k, j = tag.length + 1 + k := ⟨j - (tag.length + 1), by omega⟩
      have hlen : (tag ++ [i]).length = tag.length + 1 := by simp
      simp only [Ytht.column, List.getD_eq_getElem?_getD, List.getElem?_map]
      rw [List.getElem?_append_right (by omega), hlen, Nat.add_sub_cancel_left,
        List.getElem?_drop]

/-- A bucket of a leaf that is scanned. -/
def InLeaf (c : HashConf) (leaf k : Nat) : Prop :=
  ∃ n < ucacheHashbsize, k = (leafBase c leaf + n) % c.hashsize + 1

/-- The walk of an id that begins with the tag, when the tag reaches its leaf. -/
theorem startsWith.walk {c : HashConf} {tag v : List UInt8} (h : startsWith tag v)
    (hn : (c.table.walk 0 tag).n ≤ tag.length) :
    (c.table.walk 0 v).leaf = (c.table.walk 0 tag).leaf ∧
      (c.table.walk 0 v).n = (c.table.walk 0 tag).n := by
  have hagree := @HashTable.walk_agree c.table 0 tag v fun i hi => (h.column (by omega)).symm
  exact ⟨hagree.1.symm, hagree.2.symm⟩

/-- The first bucket that is scanned for a tag that reaches a leaf. -/
theorem ucacheHash_take {c : HashConf} {tag : List UInt8} (hne : tag ≠ []) :
    ucacheHash c (tag.take (c.table.walk 0 tag).n) - 1 = leafBase c (c.table.walk 0 tag).leaf := by
  have hpos := HashTable.walk_pos c.table 0 tag
  have hcut : tag.take (c.table.walk 0 tag).n ≠ [] := by
    rw [ne_eq, List.take_eq_nil_iff]
    grind
  obtain ⟨hleaf, hsteps⟩ := @HashTable.walk_agree c.table 0 tag
    (tag.take (c.table.walk 0 tag).n) fun i hi => by
      simp only [column, List.getD_eq_getElem?_getD, List.getElem?_map,
        List.getElem?_take_of_lt hi]
  have hrest : (c.table.walk 0 (tag.take (c.table.walk 0 tag).n)).rest = [] := by
    rw [HashTable.walk_rest, ← hsteps, List.drop_eq_nil_iff]
    exact List.length_take_le _ _
  simp only [ucacheHash, hcut, if_false, hrest, if_true, ← hleaf]
  rfl

/-- The leaves below a tag are those below its continuations by one letter. -/
theorem exists_letter_iff {c : HashConf} {tag : List UInt8} {q : Nat → Nat → Prop} :
    (∃ i ∈ letters, ∃ v, startsWith (tag ++ [i]) v ∧
        q (c.table.walk 0 v).n (c.table.walk 0 v).leaf) ↔
      ∃ v, startsWith tag v ∧ q (c.table.walk 0 v).n (c.table.walk 0 v).leaf := by
  constructor
  · intro ⟨i, _, v, hv, hq⟩
    exact ⟨v, startsWith_append hv, hq⟩
  · intro ⟨v, hv, hq⟩
    obtain ⟨i, hi, w, hw, hcol⟩ := hv.continue
    obtain ⟨hl, hn⟩ := @HashTable.walk_agree c.table 0 w v fun j _ => hcol j
    exact ⟨i, hi, w, hw, by rwa [hl, hn]⟩

/-- **The visited buckets** are those of the leaves of the ids that begin with
the tag; a leaf deeper than `IDLEN` ends the visit in a failure. -/
theorem mem_visits (c : HashConf) {fuel : Nat} {tag : List UInt8} (hne : tag ≠ [])
    (hlen : tag.length ≤ idlen) (hfuel : idlen < fuel + tag.length) :
    (none ∈ visits c fuel tag ↔ ∃ v, startsWith tag v ∧ idlen < (c.table.walk 0 v).n) ∧
      ∀ k, some k ∈ visits c fuel tag ↔
        ∃ v, startsWith tag v ∧ (c.table.walk 0 v).n ≤ idlen ∧
          InLeaf c (c.table.walk 0 v).leaf k := by
  induction fuel generalizing tag with
  | zero => omega
  | succ fuel ih =>
      have hdeep : ucacheHashDeep c tag = (c.table.walk 0 tag).n := by
        rw [ucacheHashDeep, if_neg hne]
      rw [visits, if_neg (by grind), hdeep]
      by_cases hleaf : (c.table.walk 0 tag).n ≤ tag.length
      · -- the tag reaches a leaf, which all the ids share
        rw [if_pos (Or.inl hleaf), if_neg (by omega), ucacheHash_take hne]
        constructor
        · simp only [List.mem_map, reduceCtorEq, and_false, exists_false, false_iff, not_exists,
            not_and]
          intro v hv
          rw [(hv.walk hleaf).2]
          omega
        · intro k
          simp only [List.mem_map, List.mem_range'_1, Nat.zero_le, true_and, Nat.zero_add,
            Option.some.injEq]
          constructor
          · rintro ⟨n, hn, rfl⟩
            exact ⟨tag, startsWith_self tag, by omega, n, hn, by rw [Nat.mod_eq_of_lt hn]⟩
          · rintro ⟨v, hv, -, n, hn, rfl⟩
            exact ⟨n, hn, by rw [(hv.walk hleaf).1, Nat.mod_eq_of_lt hn]⟩
      · by_cases hfull : tag.length = idlen
        · -- no room to continue the tag
          rw [if_pos (Or.inr hfull), if_pos (by omega)]
          constructor
          · simp only [List.mem_singleton, true_iff]
            exact ⟨tag, startsWith_self tag, by omega⟩
          · intro k
            simp only [List.mem_singleton, reduceCtorEq, false_iff, not_exists, not_and]
            intro v hv hn
            have hagree := @HashTable.walk_agree c.table 0 v tag fun i hi => hv.column (by omega)
            omega
        · have hlt : tag.length < idlen := by omega
          have hstep : ∀ i : UInt8, tag ++ [i] ≠ [] ∧ (tag ++ [i]).length ≤ idlen ∧
              idlen < fuel + (tag ++ [i]).length := by
            intro i
            simp only [List.length_append, List.length_singleton]
            exact ⟨by simp, by omega, by omega⟩
          rw [if_neg (by omega)]
          constructor
          · rw [List.mem_flatMap, ← exists_letter_iff (q := fun n _ => idlen < n)]
            refine exists_congr fun i => and_congr_right fun _ => ?_
            exact (ih (hstep i).1 (hstep i).2.1 (hstep i).2.2).1
          · intro k
            rw [List.mem_flatMap,
              ← exists_letter_iff (q := fun n leaf => n ≤ idlen ∧ InLeaf c leaf k)]
            refine exists_congr fun i => and_congr_right fun _ => ?_
            exact (ih (hstep i).1 (hstep i).2.1 (hstep i).2.2).2 k

/-! ## The search -/

/-- Users placed one after the other, each a slot and the `tohead` of the call. -/
def placeUsers (c : HashConf) : Ucache → List (Nat × Bool) → Ucache
  | s, [] => s
  | s, (num, tohead) :: users =>
      placeUsers c (insertuseridhash c s (s.userid num) num tohead) users

theorem placeUsers_inv {c : HashConf} {live : Nat → Prop} {s : Ucache} {own : Nat → List Nat}
    (h : s.Inv c live own) {users : List (Nat × Bool)}
    (hslot : ∀ u ∈ users, c.Slot u.1 ∧ s.userid u.1 ≠ [] ∧ ¬ live u.1)
    (hnd : (users.map Prod.fst).Nodup) :
    (placeUsers c s users).passwd = s.passwd ∧
      ∃ own', Ucache.Inv c (fun x => live x ∨ ∃ u ∈ users, u.1 = x) (placeUsers c s users) own' := by
  induction users generalizing live s own with
  | nil => exact ⟨rfl, own, h.congr fun x => by simp⟩
  | cons u users ih =>
      obtain ⟨num, tohead⟩ := u
      obtain ⟨hnum, hne, hfresh⟩ := hslot (num, tohead) List.mem_cons_self
      rw [List.map_cons, List.nodup_cons] at hnd
      have hins : Ucache.Inv c _ (insertuseridhash c s (s.userid num) num tohead) _ :=
        h.insertuseridhash hfresh hnum (strcasecmp_refl _) (Or.inl hne)
      have hid : ∀ x, (insertuseridhash c s (s.userid num) num tohead).userid x = s.userid x :=
        fun x => by simp [Ucache.userid]
      obtain ⟨hpasswd, own', hinv⟩ := ih hins (fun u hu => by
        obtain ⟨hu1, hu2, hu3⟩ := hslot u (List.mem_cons_of_mem _ hu)
        refine ⟨hu1, by rwa [hid], ?_⟩
        rintro (hl | heq)
        · exact hu3 hl
        · have hmem : u.1 ∈ users.map Prod.fst := List.mem_map_of_mem hu
          rw [heq] at hmem
          exact hnd.1 hmem) hnd.2
      refine ⟨by rw [placeUsers, hpasswd, insertuseridhash_passwd], own', ?_⟩
      refine hinv.congr fun x => ?_
      simp only [List.mem_cons, exists_eq_or_imp]
      grind

/-- Where `ucache_hash` puts an id, seen from its leaf: inside the scanned
buckets, unless the sum of its last letters leaves the residue 616. -/
theorem ucacheHash_inLeaf {c : HashConf} {v : List UInt8} (hne : v ≠ [])
    (h : (c.table.walk 0 v).rest = [] ∨
      tailSum (c.table.walk 0 v).rest % ucacheHashbsize ≠ ucacheHashbsize - 1) :
    InLeaf c (c.table.walk 0 v).leaf (ucacheHash c v) := by
  simp only [ucacheHash, hne, if_false]
  by_cases hrest : (c.table.walk 0 v).rest = []
  · rw [if_pos hrest]
    refine ⟨0, by decide, ?_⟩
    simp only [leafBase, Nat.add_zero, Nat.mod_mod]
  · have hres := h.resolve_left hrest
    have hlt := Nat.mod_lt (tailSum (c.table.walk 0 v).rest) (show 0 < ucacheHashbsize by decide)
    rw [if_neg hrest]
    refine ⟨tailSum (c.table.walk 0 v).rest % ucacheHashbsize + 1, by omega, ?_⟩
    rw [Nat.add_assoc, Nat.add_comm 1]

/-- **What the search lists** when the buffer is large enough. -/
theorem uNamearray_eq {c : HashConf} {s : Ucache} {live : Nat → Prop} {own : Nat → List Nat}
    (h : s.Inv c live own) (hid : ∀ x, live x → (s.userid x).length ≤ idlen) {max : Nat}
    {tag : List UInt8} (hmax : (listing s tag own (visits c (idlen + 1) tag)).length < max) :
    uNamearray c s max tag =
      if none ∈ visits c (idlen + 1) tag then none
      else some ⟨listing s tag own (visits c (idlen + 1) tag), false⟩ := by
  rw [uNamearray, uNamearrayLoop_eq c s max tag _ tag rfl, scanAll_eq h hid rfl (by simpa using hmax)]
  rfl

theorem mem_listing {s : Ucache} {tag : List UInt8} {own : Nat → List Nat}
    {l : List (Option Nat)} {id : List UInt8} :
    id ∈ listing s tag own l ↔
      ∃ k, some k ∈ l ∧ ∃ x ∈ own k, tagMatches s tag x = true ∧ s.userid x = id := by
  simp only [listing, List.mem_flatMap]
  constructor
  · rintro ⟨o, ho, hmem⟩
    cases o with
    | none => exact absurd hmem List.not_mem_nil
    | some k =>
        simp only [Option.elim_some, listed, List.mem_map, List.mem_filter] at hmem
        obtain ⟨x, ⟨hx, hm⟩, rfl⟩ := hmem
        exact ⟨k, ho, x, hx, hm, rfl⟩
  · rintro ⟨k, hk, x, hx, hm, rfl⟩
    refine ⟨some k, hk, ?_⟩
    simp only [Option.elim_some, listed, List.mem_map, List.mem_filter]
    exact ⟨x, ⟨hx, hm⟩, rfl⟩

/-- The bucket of an id is among those scanned for the tag: it has no letters
beyond the trie, or these do not leave the last residue, or some leaf below the
tag has the bucket nevertheless. -/
def Covered (c : HashConf) (tag id : List UInt8) : Prop :=
  (c.table.walk 0 id).rest = [] ∨
    tailSum (c.table.walk 0 id).rest % ucacheHashbsize ≠ ucacheHashbsize - 1 ∨
    ∃ v, startsWith tag v ∧ InLeaf c (c.table.walk 0 v).leaf (ucacheHash c id)

theorem covered_iff {c : HashConf} {tag id : List UInt8} (hne : tag ≠ [])
    (hlen : tag.length ≤ idlen) (hid : id ≠ []) (hstart : startsWith tag id)
    (hdepth : ∀ v, startsWith tag v → (c.table.walk 0 v).n ≤ idlen) :
    some (ucacheHash c id) ∈ visits c (idlen + 1) tag ↔ Covered c tag id := by
  rw [(mem_visits c hne hlen (by omega)).2]
  constructor
  · rintro ⟨v, hv, -, hleaf⟩
    exact Or.inr (Or.inr ⟨v, hv, hleaf⟩)
  · rintro (hrest | hres | ⟨v, hv, hleaf⟩)
    · exact ⟨id, hstart, hdepth id hstart, ucacheHash_inLeaf hid (Or.inl hrest)⟩
    · exact ⟨id, hstart, hdepth id hstart, ucacheHash_inLeaf hid (Or.inr hres)⟩
    · exact ⟨v, hv, hdepth v hv, hleaf⟩

/-- The user of a slot is registered and begins with the tag. -/
def Wanted (passwd : Nat → Userec) (tag : List UInt8) (num : Nat) : Prop :=
  startsWith tag (passwd (num - 1)).userid.bytes ∧ (passwd (num - 1)).kickout = 0

/-- The ids listed are those of the wanted users whose bucket is visited. -/
theorem mem_listing_users {c : HashConf} {s : Ucache} {users : List (Nat × Bool)}
    {own : Nat → List Nat}
    (hinv : s.Inv c (fun x => False ∨ ∃ u ∈ users, u.1 = x) own) {tag id : List UInt8}
    {l : List (Option Nat)} :
    id ∈ listing s tag own l ↔
      ∃ u ∈ users, Wanted s.passwd tag u.1 ∧ s.userid u.1 = id ∧ some (ucacheHash c id) ∈ l := by
  have hmatch : ∀ x, tagMatches s tag x = true ↔ Wanted s.passwd tag x := by
    intro x
    simp [tagMatches, Wanted, startsWith, Ucache.userid]
  rw [mem_listing]
  constructor
  · rintro ⟨k, hk, x, hx, hm, rfl⟩
    obtain ⟨hlive, rfl⟩ := (hinv.mem k x).mp hx
    obtain ⟨u, hu, rfl⟩ := hlive.resolve_left not_false
    exact ⟨u, hu, (hmatch u.1).mp hm, rfl, hk⟩
  · rintro ⟨u, hu, hm, rfl, hk⟩
    exact ⟨_, hk, u.1, (hinv.mem _ u.1).mpr ⟨Or.inr ⟨u, hu, rfl⟩, rfl⟩, (hmatch u.1).mpr hm, rfl⟩

/-- With enough room the search lists the ids of the wanted users and no others. -/
def ListsExactly (c : HashConf) (s : Ucache) (users : List (Nat × Bool)) (tag : List UInt8) :
    Prop :=
  ∃ cap, ∀ max ≥ cap, ∃ b, uNamearray c s max tag = some b ∧ b.full = false ∧
    ∀ id, id ∈ b.buf ↔ ∃ u ∈ users, Wanted s.passwd tag u.1 ∧ s.userid u.1 = id

/-- 800 buckets, each letter a leaf. -/
def wideConf : HashConf := ⟨200, by decide, lettersTable⟩

/-- The one user `ANZZZZZZ`, whose seven last letters sum up to 616. -/
def lastResidue (i : Nat) : Userec :=
  if i = 0 then ⟨⟨[65, 78, 90, 90, 90, 90, 90, 90], by decide, by decide⟩, 0⟩ else emptyUserec

/-- Empty chains are scanned in vain. -/
theorem scanAll_empty {c : HashConf} {s : Ucache} {max : Nat} {atag : List UInt8}
    {l : List (Option Nat)} (hl : ∀ o ∈ l, ∃ k, o = some k ∧ s.hashHead k = 0) {b : Names}
    (hb : b.full = false) : scanAll c s max atag l b = some b := by
  induction l with
  | nil => rfl
  | cons o l ih =>
      obtain ⟨k, rfl, hk⟩ := hl o List.mem_cons_self
      rw [scanAll, hk, scanChain, if_pos rfl]
      simp only [Option.bind_eq_bind, Option.bind_some, hb, Bool.false_eq_true, if_false]
      exact ih fun o ho => hl o (List.mem_cons_of_mem _ ho)

end Ytht
