import Ytht.Boardrc.Record

/-!
# Boardrc.Codec

The packed form of a read record, `struct onebrc_c`: `compress_brc` with
`shorter_brc`, its inverse `uncompress_brc`, and the second decoder
`brc_c_unreadt` that answers the unread question without unpacking.

A packed record is the board name with its NUL, the number of entries, the
first entry in four bytes, two flag bits for each difference between
neighbours (four differences to a byte), the differences in one to four
bytes each, and last the note time, left out when it is 0.
-/

namespace Ytht

open Bytes

/-- `sizeof (brc_c->data)`. -/
abbrev brcDataSize : Nat := 280

/-- `struct onebrc_c`. -/
structure OneBrcC where
  len : Nat
  data : List UInt8
  deriving DecidableEq

/-- The `len` bytes that `memcpy(ptr1, brc_c, brc_c->len)` moves. -/
def OneBrcC.bytes (c : OneBrcC) : List UInt8 := (leBytes 2 c.len ++ c.data).take c.len

/-! ## The encoder -/

/-- The loop of `shorter_brc`, with `i` counting down from `num - 1`. -/
def shorterLoop (list : List Int) : Nat → List Int
  | 0 => list
  | i + 1 =>
      if list.getD i 0 - list.getD (i + 1) 0 = 1 then shorterLoop list.dropLast i else list

/-- `shorter_brc` on the live entries. -/
def shorterList (list : List Int) : List Int :=
  if list.length < 2 then list
  else
    let list :=
      if 2 ≤ list.getD 0 0 ∧ list.getD (list.length - 1) 0 = 1 ∧ list.getD (list.length - 2) 0 = 2
      then list.dropLast else list
    shorterLoop list (list.length - 1)

theorem prefix_shorterLoop (list : List Int) (i : Nat) : shorterLoop list i <+: list := by
  induction i generalizing list with
  | zero => exact List.prefix_rfl
  | succ i ih =>
      rw [shorterLoop]
      split
      · exact (ih list.dropLast).trans (List.dropLast_prefix list)
      · exact List.prefix_rfl

theorem prefix_shorterList (list : List Int) : shorterList list <+: list := by
  unfold shorterList
  split
  · exact List.prefix_rfl
  · refine (prefix_shorterLoop _ _).trans ?_
    split
    · exact List.dropLast_prefix list
    · exact List.prefix_rfl

/-- `shorter_brc`. -/
def shorterBrc (brc : OneBrc) : OneBrc :=
  { brc with
    list := shorterList brc.list
    num_le := Nat.le_trans (prefix_shorterList brc.list).length_le brc.num_le }

/-- `bits[j] |= 1 << k`. -/
def setFlag (bits : List UInt8) (j k : Nat) : List UInt8 :=
  bits.modify j (· ||| UInt8.ofNat (1 <<< k))

/-- `bits[j] & (1 << k)`. -/
def getFlag (bits : List UInt8) (j k : Nat) : Bool := (bits.getD j 0).toNat.testBit k

/-- `diff` of entry `i` and the next. -/
def diffAt (list : List Int) (i : Nat) : Int := list.getD i 0 - list.getD (i + 1) 0

/-- One turn of the loop of `compress_brc`: the flag area `bits`, and what has
been written after it up to `ptr`. -/
def compressStep (list : List Int) : List UInt8 × List UInt8 → Nat → List UInt8 × List UInt8
  | (bits, ptr), i =>
    let diff := diffAt list i
    if diff < 256 then (bits, ptr ++ leBytes 1 (wrap 1 diff))
    else if diff < 256 * 256 then
      (setFlag bits (i / 4) (i % 4), ptr ++ leBytes 2 (wrap 2 diff))
    else if diff < 256 * 256 * 256 then
      (setFlag bits (i / 4) (i % 4 + 4), ptr ++ leBytes 3 (wrap 3 diff))
    else
      (setFlag (setFlag bits (i / 4) (i % 4)) (i / 4) (i % 4 + 4), ptr ++ leBytes 4 (wrap 4 diff))

/-- `((brc->num - 1) * 2 + 7) / 8`, the size of the flag area. -/
def flagBytes (num : Nat) : Nat := ((num - 1) * 2 + 7) / 8

/-- The note time, written only when it is not 0. -/
def encNote (notetime : Int) : List UInt8 :=
  if notetime ≠ 0 then leBytes 4 (wrap 4 notetime) else []

/-- What `compress_brc` writes after the board name and its NUL. -/
def compressBody (list : List Int) (notetime : Int) : List UInt8 :=
  let r := (List.range (list.length - 1)).foldl (compressStep list)
    (List.replicate (flagBytes list.length) 0, [])
  UInt8.ofNat list.length ::
    (leBytes 4 (wrap 4 (list.getD 0 0)) ++ (r.1 ++ (r.2 ++ encNote notetime)))

/-- `compress_brc`; `none` when the record would overrun `data`. -/
def compressBrc (brc : OneBrc) : Option OneBrcC :=
  let out := brc.board.bytes ++ 0 :: compressBody brc.list brc.notetime
  if out.length ≤ brcDataSize then
    some ⟨2 + out.length, out ++ List.replicate (brcDataSize - out.length) 0⟩
  else none

/-! ## The decoders -/

/-- The reading of one difference, common to both decoders. -/
def readDiff (bits : List UInt8) (i : Nat) (ptr : List UInt8) : Option (Int × List UInt8) :=
  let bl := getFlag bits (i / 4) (i % 4)
  let bh := getFlag bits (i / 4) (i % 4 + 4)
  if !bh then
    if !bl then (readU 1 ptr).map fun (d, ptr) => (d, ptr)
    else (readU 2 ptr).map fun (d, ptr) => (d, ptr)
  else
    if !bl then (readU 3 ptr).map fun (d, ptr) => (d, ptr)
    else readI 4 ptr

/-- The loop of `uncompress_brc` after entry `last`, for `k` more entries. -/
def uncompressLoop (bits : List UInt8) :
    Nat → Nat → Int → List UInt8 → Option (List Int × List UInt8)
  | 0, _, _, ptr => some ([], ptr)
  | k + 1, i, last, ptr => do
      let (diff, ptr) ← readDiff bits i ptr
      let (list, ptr) ← uncompressLoop bits k (i + 1) (last - diff) ptr
      pure ((last - diff) :: list, ptr)

/-- The fields in front of the differences, read alike by both decoders. -/
structure BrcHead where
  len : Int
  board : List UInt8
  num : Nat
  first : Int
  bits : List UInt8

def readHead (mem : List UInt8) : Option BrcHead := do
  let (len, data) ← readI 2 mem
  let (board, ptr) ← readStr data
  let (byte, ptr) ← readU 1 ptr
  let (first, bits) ← readI 4 ptr
  pure ⟨len, board, byte % 128, first, bits⟩

/-- The note time is there when the record is longer than what was read. -/
def readNotetime (off : Nat) (len : Int) (ptr : List UInt8) : Option Int :=
  if (off : Int) < len then (readI 4 ptr).map Prod.fst else some 0

/-- Store the unpacked fields; `none` when `board` or `list` would overrun. -/
def OneBrc.fill (brc : OneBrc) (board : List UInt8) (list : List Int) (notetime : Int) :
    Option OneBrc :=
  if h : 0 ∉ board ∧ board.length ≤ brcStrlen - 1 ∧ list.length ≤ brcMaxnum then
    some { brc with changed := false, board := ⟨board, h.1, h.2.1⟩, list := list,
                    num_le := h.2.2, notetime := notetime }
  else none

/-- `uncompress_brc` of the packed record that starts at `mem`; `none` when
it reads outside the memory or overruns `board` or `list`.  The cursor of
`brc` stays as it was. -/
def uncompressBrc (brc : OneBrc) (mem : List UInt8) : Option OneBrc := do
  let head ← readHead mem
  let (_, ptr) ← readU (flagBytes head.num) head.bits
  let (list, ptr) ← uncompressLoop head.bits (head.num - 1) 0 head.first ptr
  let notetime ← readNotetime (mem.length - ptr.length) head.len ptr
  brc.fill head.board ((head.first :: list).take head.num) notetime

/-- The loop of `brc_c_unreadt`. -/
def brcCUnreadtLoop (bits : List UInt8) (t : Int) :
    Nat → Nat → Int → List UInt8 → Option Bool
  | 0, _, _, _ => some false
  | k + 1, i, thist, ptr => do
      let (diff, ptr) ← readDiff bits i ptr
      let thist := thist - diff
      if t > thist then some true
      else if t = thist then some false
      else brcCUnreadtLoop bits t k (i + 1) thist ptr

/-- `brc_c_unreadt` of the packed record that starts at `mem`. -/
def brcCUnreadt (mem : List UInt8) (t : Int) : Option Bool := do
  let head ← readHead mem
  if t > head.first then some true
  else if t = head.first then some false
  else
    let (_, ptr) ← readU (flagBytes head.num) head.bits
    brcCUnreadtLoop head.bits t (head.num - 1) 0 head.first ptr

/-! ## Shortening -/

/-- The last entry says nothing when it directly follows the one before. -/
theorem unreadIn_dropLast {list : List Int} (hs : list.Pairwise (· > ·)) {i : Nat}
    (hi : i + 2 = list.length) (h1 : list.getD i 0 - list.getD (i + 1) 0 = 1) (t : Int) :
    UnreadIn list.dropLast t ↔ UnreadIn list t := by
  have hne : list ≠ [] := by
    rintro rfl
    simp at hi
  have hlast : list.getLast hne = list.getD (i + 1) 0 := by
    rw [List.getLast_eq_getElem, List.getD_eq_getElem _ _ (by omega)]
    congr 1
    omega
  have hsplit : list = list.dropLast ++ [list.getD (i + 1) 0] := by
    rw [← hlast, List.dropLast_concat_getLast]
  have hprev : list.getD i 0 ∈ list.dropLast := by
    refine mem_iff_getD.mpr ⟨i, by rw [List.length_dropLast]; omega, ?_⟩
    rw [List.getD_eq_getElem _ _ (by rw [List.length_dropLast]; omega), List.getElem_dropLast,
      List.getD_eq_getElem]
  have habove : ∀ x ∈ list.dropLast, list.getD (i + 1) 0 < x := by
    intro x hx
    have hs' := hs
    rw [hsplit] at hs'
    exact (List.pairwise_append.mp hs').2.2 x hx _ (List.mem_singleton.mpr rfl)
  conv_rhs => rw [hsplit]
  unfold UnreadIn
  simp only [List.mem_append, List.mem_singleton, not_or]
  constructor
  · rintro ⟨hnot, x, hx, hxt⟩
    have := habove x hx
    exact ⟨⟨hnot, by omega⟩, x, Or.inl hx, hxt⟩
  · rintro ⟨⟨hnot, hne'⟩, x, hx | rfl, hxt⟩
    · exact ⟨hnot, x, hx, hxt⟩
    · have hprevt : t ≠ list.getD i 0 := fun h => hnot (h ▸ hprev)
      exact ⟨hnot, _, hprev, by omega⟩

theorem shorterLoop_unreadIn {list : List Int} (hs : list.Pairwise (· > ·)) {i : Nat}
    (hi : i + 1 = list.length) :
    shorterLoop list i ≠ [] ∧ ∀ t, UnreadIn (shorterLoop list i) t ↔ UnreadIn list t := by
  induction i generalizing list with
  | zero =>
      refine ⟨?_, fun t => Iff.rfl⟩
      rw [shorterLoop]
      exact List.length_pos_iff.mp (by omega)
  | succ i ih =>
      rw [shorterLoop]
      split
      · next h1 =>
        obtain ⟨hne, hun⟩ := ih (hs.sublist (List.dropLast_sublist list))
          (by rw [List.length_dropLast]; omega)
        exact ⟨hne, fun t => (hun t).trans (unreadIn_dropLast hs (by omega) h1 t)⟩
      · exact ⟨List.length_pos_iff.mp (by omega), fun t => Iff.rfl⟩

/-- **Shortening loses nothing**: a valid record stays valid and the same posts
are unread. -/
theorem OneBrc.Valid.shorterBrc {brc : OneBrc} (hv : brc.Valid) :
    (shorterBrc brc).Valid ∧
      ∀ t, UnreadIn (Ytht.shorterBrc brc).list t ↔ UnreadIn brc.list t := by
  have hpre := prefix_shorterList brc.list
  have hpos : 0 < brc.list.length := List.length_pos_iff.mpr hv.nonempty
  have hspec : shorterList brc.list ≠ [] ∧
      ∀ t, UnreadIn (shorterList brc.list) t ↔ UnreadIn brc.list t := by
    unfold shorterList
    split
    · exact ⟨hv.nonempty, fun t => Iff.rfl⟩
    · split
      · next hend =>
        obtain ⟨_, hlast, hprev⟩ := hend
        have hdrop := unreadIn_dropLast hv.decreasing (i := brc.list.length - 2) (by omega) (by
          rw [hprev, show brc.list.length - 2 + 1 = brc.list.length - 1 by omega, hlast]
          rfl)
        obtain ⟨hne, hun⟩ := shorterLoop_unreadIn
          (hv.decreasing.sublist (List.dropLast_sublist brc.list))
          (i := brc.list.dropLast.length - 1) (by rw [List.length_dropLast]; omega)
        exact ⟨hne, fun t => (hun t).trans (hdrop t)⟩
      · exact shorterLoop_unreadIn hv.decreasing (by omega)
  exact ⟨⟨hv.decreasing.sublist hpre.sublist, fun x hx => hv.positive x (hpre.subset hx),
    fun x hx => hv.inInt x (hpre.subset hx), hspec.1, hv.note⟩, hspec.2⟩

/-! ## The flag area -/

theorem getFlag_setFlag {bits : List UInt8} {j k : Nat} (hj : j < bits.length) (hk : k < 8)
    (j' k' : Nat) :
    getFlag (setFlag bits j k) j' k' = (getFlag bits j' k' || (decide (j = j') && decide (k = k'))) := by
  unfold getFlag setFlag
  by_cases hjj : j = j'
  · subst hjj
    rw [List.getD_eq_getElem _ _ (by simpa using hj), List.getElem_modify_eq,
      List.getD_eq_getElem _ _ hj, testBit_or_shift hk]
    simp
  · simp only [List.getD_eq_getElem?_getD, List.getElem?_modify_ne _ _ hjj, decide_eq_false hjj,
      Bool.false_and, Bool.or_false]

/-- The width in which a difference is written. -/
def diffWidth (d : Int) : Nat :=
  if d < 256 then 1 else if d < 256 * 256 then 2 else if d < 256 * 256 * 256 then 3 else 4

/-- The low flag marks widths 2 and 4. -/
def lowFlag (d : Int) : Bool := diffWidth d = 2 || diffWidth d = 4

/-- The high flag marks widths 3 and 4. -/
def highFlag (d : Int) : Bool := diffWidth d = 3 || diffWidth d = 4

/-- The bytes of difference `i`. -/
def encDiff (list : List Int) (i : Nat) : List UInt8 :=
  leBytes (diffWidth (diffAt list i)) (wrap (diffWidth (diffAt list i)) (diffAt list i))

/-- The bytes of all differences. -/
def encDiffs (list : List Int) : List UInt8 :=
  (List.range' 0 (list.length - 1)).flatMap (encDiff list)

/-- One turn of the encoder writes the bytes of one difference, and sets its
two flags and no others. -/
theorem compressStep_spec (list : List Int) {bits : List UInt8} (ptr : List UInt8) {i : Nat}
    (hi : i / 4 < bits.length) :
    (compressStep list (bits, ptr) i).2 = ptr ++ encDiff list i ∧
      (compressStep list (bits, ptr) i).1.length = bits.length ∧
      ∀ j k, getFlag (compressStep list (bits, ptr) i).1 j k = (getFlag bits j k ||
        (decide (i / 4 = j) && (lowFlag (diffAt list i) && decide (i % 4 = k) ||
          highFlag (diffAt list i) && decide (i % 4 + 4 = k)))) := by
  have hlow : i % 4 < 8 := by omega
  have hhigh : i % 4 + 4 < 8 := by omega
  have hset : ∀ k, (setFlag bits (i / 4) k).length = bits.length := by simp [setFlag]
  unfold compressStep encDiff lowFlag highFlag diffWidth
  simp only
  split
  · exact ⟨rfl, rfl, by simp⟩
  · split
    · exact ⟨rfl, hset _, by simp [getFlag_setFlag hi hlow]⟩
    · split
      · exact ⟨rfl, hset _, by simp [getFlag_setFlag hi hhigh]⟩
      · refine ⟨rfl, by simp [setFlag], fun j k => ?_⟩
        rw [getFlag_setFlag (by rwa [hset]) hhigh, getFlag_setFlag hi hlow]
        simp [Bool.or_assoc, Bool.and_or_distrib_left]

/-- After `n` turns of the encoder: the differences written so far, and the
flags of exactly those. -/
structure Encoded (list : List Int) (nb n : Nat) (r : List UInt8 × List UInt8) : Prop where
  length : r.1.length = nb
  written : r.2 = (List.range n).flatMap (encDiff list)
  low : ∀ i, getFlag r.1 (i / 4) (i % 4) = (decide (i < n) && lowFlag (diffAt list i))
  high : ∀ i, getFlag r.1 (i / 4) (i % 4 + 4) = (decide (i < n) && highFlag (diffAt list i))

theorem compressLoop_encoded (list : List Int) (nb n : Nat) (hn : n ≤ 4 * nb) :
    Encoded list nb n
      ((List.range n).foldl (compressStep list) (List.replicate nb 0, [])) := by
  induction n with
  | zero =>
      have hzero : ∀ j k, getFlag (List.replicate nb 0) j k = false := by
        intro j k
        by_cases hj : j < nb
        · simp [getFlag, hj]
        · simp [getFlag, hj]
      exact ⟨by simp, by simp, by simp [hzero], by simp [hzero]⟩
  | succ n ih =>
      obtain ⟨hlen, hwritten, hlow, hhigh⟩ := ih (by omega)
      rw [List.range_succ, List.foldl_append, List.foldl_cons, List.foldl_nil]
      generalize (List.range n).foldl (compressStep list) (List.replicate nb 0, []) = r at *
      obtain ⟨bits, ptr⟩ := r
      obtain ⟨hptr, hbits, hflag⟩ :=
        @compressStep_spec list bits ptr n (by simp only at hlen; omega)
      refine ⟨by rw [hbits, hlen], ?_, ?_, ?_⟩
      · simp only at hwritten
        rw [hptr, hwritten, List.range_succ, List.flatMap_append, List.flatMap_singleton]
      · intro i
        simp only at hlow
        rw [hflag, hlow]
        by_cases hin : i = n
        · subst hin
          simp
        · have hmod : n / 4 = i / 4 → n % 4 ≠ i % 4 := by omega
          have hne : n % 4 + 4 ≠ i % 4 := by omega
          have hlt : decide (i < n + 1) = decide (i < n) := by
            rw [decide_eq_decide]
            omega
          rw [hlt, decide_eq_false hne]
          by_cases h4 : n / 4 = i / 4
          · simp [h4, hmod h4]
          · simp [h4]
      · intro i
        simp only at hhigh
        rw [hflag, hhigh]
        by_cases hin : i = n
        · subst hin
          simp
        · have hmod : n / 4 = i / 4 → n % 4 ≠ i % 4 := by omega
          have hne : n % 4 ≠ i % 4 + 4 := by omega
          have hlt : decide (i < n + 1) = decide (i < n) := by
            rw [decide_eq_decide]
            omega
          rw [hlt, decide_eq_false hne]
          by_cases h4 : n / 4 = i / 4
          · simp [h4, hmod h4]
          · simp [h4]

/-! ## The decoders read back what the encoder wrote -/

/-- The differences of a list a C record can hold. -/
def DiffsOk (list : List Int) : Prop :=
  ∀ i, i + 1 < list.length → 0 < diffAt list i ∧ diffAt list i < 2 ^ 31

theorem OneBrc.Valid.diffsOk {brc : OneBrc} (hv : brc.Valid) : DiffsOk brc.list := by
  intro i hi
  have hlt := getD_lt_getD hv.decreasing (Nat.lt_add_one i) hi
  have hpos := hv.positive _ (mem_iff_getD.mpr ⟨i + 1, hi, rfl⟩)
  have hint := hv.inInt _ (mem_iff_getD.mpr ⟨i, by omega, rfl⟩)
  unfold diffAt
  omega

/-- Both decoders read one difference as it was written. -/
theorem readDiff_append {bits : List UInt8} {list : List Int} {i : Nat}
    (hlow : getFlag bits (i / 4) (i % 4) = lowFlag (diffAt list i))
    (hhigh : getFlag bits (i / 4) (i % 4 + 4) = highFlag (diffAt list i))
    (hd : 0 < diffAt list i ∧ diffAt list i < 2 ^ 31) (rest : List UInt8) :
    readDiff bits i (encDiff list i ++ rest) = some (diffAt list i, rest) := by
  obtain ⟨hpos, hlt⟩ := hd
  unfold readDiff encDiff
  rw [hlow, hhigh]
  generalize diffAt list i = d at *
  have hwrap : ∀ k, d < (256 ^ k : Nat) → ((wrap k d : Nat) : Int) = d := by
    intro k hk
    unfold wrap
    rw [Int.emod_eq_of_lt (by omega) hk]
    omega
  unfold lowFlag highFlag diffWidth
  by_cases h1 : d < 256
  · simp only [if_pos h1]
    rw [readU_append_of_lt (wrap_lt 1 d)]
    simp [hwrap 1 (by simpa using h1)]
  · by_cases h2 : d < 256 * 256
    · simp only [if_neg h1, if_pos h2]
      rw [readU_append_of_lt (wrap_lt 2 d)]
      simp [hwrap 2 (by simpa using h2)]
    · by_cases h3 : d < 256 * 256 * 256
      · simp only [if_neg h1, if_neg h2, if_pos h3]
        rw [readU_append_of_lt (wrap_lt 3 d)]
        simp [hwrap 3 (by simpa using h3)]
      · simp only [if_neg h1, if_neg h2, if_neg h3]
        rw [readI_append (by omega) (by omega)]
        simp

/-- What the decoders need of the memory at `bits`: the flags of the first
`n` differences. -/
def FlagsAt (list : List Int) (n : Nat) (bits : List UInt8) : Prop :=
  ∀ i < n, getFlag bits (i / 4) (i % 4) = lowFlag (diffAt list i) ∧
    getFlag bits (i / 4) (i % 4 + 4) = highFlag (diffAt list i)

theorem Encoded.flagsAt {list : List Int} {nb n : Nat} {r : List UInt8 × List UInt8}
    (h : Encoded list nb n r) (hn : n ≤ 4 * nb) (rest : List UInt8) :
    FlagsAt list n (r.1 ++ rest) := by
  intro i hi
  have hget : ∀ k, getFlag (r.1 ++ rest) (i / 4) k = getFlag r.1 (i / 4) k := by
    intro k
    have hlen : i / 4 < r.1.length := by
      rw [h.length]
      omega
    unfold getFlag
    rw [List.getD_append _ _ _ _ hlen]
  rw [hget, hget, h.low, h.high]
  simp [hi]

theorem uncompressLoop_append {bits : List UInt8} {list : List Int} (hd : DiffsOk list)
    (hf : FlagsAt list (list.length - 1) bits) (k i : Nat) (hk : i + k + 1 = list.length)
    (rest : List UInt8) :
    uncompressLoop bits k i (list.getD i 0) ((List.range' i k).flatMap (encDiff list) ++ rest) =
      some (list.drop (i + 1), rest) := by
  induction k generalizing i with
  | zero =>
      have hnil : list.drop (i + 1) = [] := List.drop_of_length_le (by omega)
      simp [uncompressLoop, hnil]
  | succ k ih =>
      have hnext : list.getD i 0 - diffAt list i = list.getD (i + 1) 0 := by
        unfold diffAt
        omega
      have hcons : list.drop (i + 1) = list.getD (i + 1) 0 :: list.drop (i + 2) := by
        rw [List.getD_eq_getElem _ _ (by omega)]
        exact List.drop_eq_getElem_cons (by omega)
      obtain ⟨hlow, hhigh⟩ := hf i (by omega)
      rw [List.range'_succ, List.flatMap_cons, List.append_assoc, uncompressLoop,
        readDiff_append hlow hhigh (hd i (by omega))]
      simp only [Option.bind_eq_bind, Option.bind_some, hnext, ih (i + 1) (by omega), hcons]
      rfl

/-- An entry newer than `t` has no say about `t`. -/
theorem unreadIn_cons_of_lt {x t : Int} {list : List Int} (h : t < x) :
    UnreadIn (x :: list) t ↔ UnreadIn list t := by
  unfold UnreadIn
  simp only [List.mem_cons, not_or, exists_eq_or_imp]
  constructor
  · rintro ⟨⟨_, h1⟩, h2 | h2⟩
    · omega
    · exact ⟨h1, h2⟩
  · rintro ⟨h1, h2⟩
    exact ⟨⟨Int.ne_of_lt h, h1⟩, Or.inr h2⟩

/-- The walk of `brc_c_unreadt` answers for the entries after the one it
stands on. -/
theorem brcCUnreadtLoop_append {bits : List UInt8} {list : List Int} (hd : DiffsOk list)
    (hs : list.Pairwise (· > ·)) (hf : FlagsAt list (list.length - 1) bits) (t : Int) (k i : Nat)
    (hk : i + k + 1 = list.length) (rest : List UInt8) :
    brcCUnreadtLoop bits t k i (list.getD i 0)
        ((List.range' i k).flatMap (encDiff list) ++ rest) =
      some (decide (UnreadIn (list.drop (i + 1)) t)) := by
  induction k generalizing i with
  | zero =>
      have hnil : list.drop (i + 1) = [] := List.drop_of_length_le (by omega)
      simp [brcCUnreadtLoop, hnil, UnreadIn]
  | succ k ih =>
      have hnext : list.getD i 0 - diffAt list i = list.getD (i + 1) 0 := by
        unfold diffAt
        omega
      have hcons : list.drop (i + 1) = list.getD (i + 1) 0 :: list.drop (i + 2) := by
        rw [List.getD_eq_getElem _ _ (by omega)]
        exact List.drop_eq_getElem_cons (by omega)
      have hle : ∀ x ∈ list.drop (i + 2), x < list.getD (i + 1) 0 := by
        have hsub := hs.sublist (List.drop_sublist (i + 1) list)
        rw [hcons] at hsub
        exact (List.pairwise_cons.mp hsub).1
      obtain ⟨hlow, hhigh⟩ := hf i (by omega)
      rw [List.range'_succ, List.flatMap_cons, List.append_assoc, brcCUnreadtLoop,
        readDiff_append hlow hhigh (hd i (by omega))]
      simp only [Option.bind_eq_bind, Option.bind_some, hnext, hcons]
      by_cases hgt : t > list.getD (i + 1) 0
      · have hun : UnreadIn (list.getD (i + 1) 0 :: list.drop (i + 2)) t := by
          refine ⟨?_, _, List.mem_cons_self, hgt⟩
          rintro (_ | ⟨_, hmem⟩)
          · omega
          · have := hle t hmem
            omega
        rw [if_pos hgt, decide_eq_true hun]
      · rw [if_neg hgt]
        by_cases heq : t = list.getD (i + 1) 0
        · have hun : ¬ UnreadIn (list.getD (i + 1) 0 :: list.drop (i + 2)) t :=
            fun h => h.1 (heq ▸ List.mem_cons_self)
          rw [if_pos heq, decide_eq_false hun]
        · rw [if_neg heq, ih (i + 1) (by omega)]
          rw [decide_eq_decide.mpr (unreadIn_cons_of_lt (by omega))]

/-! ## Whole records -/

/-- The record `brc` packed without being shortened first, as it lies in
memory. -/
def packed (brc : OneBrc) : List UInt8 :=
  leBytes 2 (3 + brc.board.bytes.length + (compressBody brc.list brc.notetime).length) ++
    (brc.board.bytes ++ 0 :: compressBody brc.list brc.notetime)

theorem length_encDiff_le (list : List Int) (i : Nat) : (encDiff list i).length ≤ 4 := by
  rw [encDiff, length_leBytes, diffWidth]
  split
  · omega
  · split
    · omega
    · split <;> omega

theorem length_encDiffs_le (list : List Int) : (encDiffs list).length ≤ 4 * (list.length - 1) := by
  have hle : ∀ l : List Nat, (l.flatMap (encDiff list)).length ≤ 4 * l.length := by
    intro l
    induction l with
    | nil => simp
    | cons i l ih =>
        have := length_encDiff_le list i
        rw [List.flatMap_cons, List.length_append, List.length_cons]
        omega
  simpa [encDiffs] using hle (List.range' 0 (list.length - 1))

@[simp] theorem length_encNote (notetime : Int) :
    (encNote notetime).length = if notetime ≠ 0 then 4 else 0 := by
  unfold encNote
  split <;> simp

/-- The body is one byte of count, the first entry, the flags, the differences
and the note time. -/
theorem compressBody_eq (list : List Int) (notetime : Int) :
    ∃ bits, bits.length = flagBytes list.length ∧
      (∀ rest, FlagsAt list (list.length - 1) (bits ++ rest)) ∧
      compressBody list notetime = leBytes 1 list.length ++
        (leBytes 4 (wrap 4 (list.getD 0 0)) ++ (bits ++ (encDiffs list ++ encNote notetime))) := by
  have hn : list.length - 1 ≤ 4 * flagBytes list.length := by
    unfold flagBytes
    omega
  have henc := compressLoop_encoded list (flagBytes list.length) (list.length - 1) hn
  refine ⟨_, henc.length, henc.flagsAt hn, ?_⟩
  rw [compressBody, henc.written, List.range_eq_range']
  rfl

/-- The body of a full list of sixty entries, each difference in four bytes,
takes 260 bytes. -/
theorem length_compressBody_le {list : List Int} (hlen : list.length ≤ brcMaxnum)
    (notetime : Int) : (compressBody list notetime).length ≤ 260 := by
  obtain ⟨bits, hbits, -, heq⟩ := compressBody_eq list notetime
  have hdiff := length_encDiffs_le list
  have hnum : list.length ≤ 60 := hlen
  rw [heq]
  simp only [List.length_append, length_leBytes, hbits, flagBytes, length_encNote]
  split <;> omega

theorem length_packed (brc : OneBrc) : (packed brc).length =
    3 + brc.board.bytes.length + (compressBody brc.list brc.notetime).length := by
  simp [packed]
  omega

/-- What both decoders find at a packed record: the head, and behind the flags
the differences, the note time and whatever follows. -/
theorem readHead_packed {brc : OneBrc} (hv : brc.Valid) (rest : List UInt8) :
    ∃ bits n, readHead (packed brc ++ rest) =
        some ⟨(packed brc).length, brc.board.bytes, brc.list.length, brc.list.getD 0 0, bits⟩ ∧
      readU (flagBytes brc.list.length) bits =
        some (n, encDiffs brc.list ++ (encNote brc.notetime ++ rest)) ∧
      FlagsAt brc.list (brc.list.length - 1) bits := by
  obtain ⟨bits, hbits, hflags, heq⟩ := compressBody_eq brc.list brc.notetime
  have hbody := length_compressBody_le brc.num_le brc.notetime
  have hboard : brc.board.bytes.length ≤ 14 := brc.board.le
  have hnum : brc.list.length ≤ 60 := brc.num_le
  have hpos : 0 < brc.list.length := List.length_pos_iff.mpr hv.nonempty
  have hfirst := hv.inInt _ (mem_iff_getD.mpr ⟨0, hpos, rfl⟩)
  have hfirst0 := hv.positive _ (mem_iff_getD.mpr ⟨0, hpos, rfl⟩)
  have hlen := length_packed brc
  refine ⟨bits ++ (encDiffs brc.list ++ (encNote brc.notetime ++ rest)), leNat bits, ?_, ?_,
    hflags _⟩
  · have hmem : packed brc ++ rest = leBytes 2 (packed brc).length ++ (brc.board.bytes ++ 0 ::
        (leBytes 1 brc.list.length ++ (leBytes 4 (wrap 4 (brc.list.getD 0 0)) ++
          (bits ++ (encDiffs brc.list ++ (encNote brc.notetime ++ rest)))))) := by
      rw [hlen]
      simp [packed, heq]
    unfold readHead
    rw [hmem, readI_append_nat (by omega)]
    simp only [Option.bind_eq_bind, Option.bind_some]
    rw [readStr_append brc.board.nz]
    simp only [Option.bind_some]
    rw [readU_append_of_lt (by omega)]
    simp only [Option.bind_some, Nat.mod_eq_of_lt (show brc.list.length < 128 by omega)]
    rw [readI_append (by omega) (by omega)]
    rfl
  · rw [readU, if_pos (by simp [hbits]), List.take_left' hbits, List.drop_left' hbits]

/-- The note time is read back, 0 from its absence. -/
theorem readNotetime_packed {brc : OneBrc} (hv : brc.Valid) (rest : List UInt8) :
    readNotetime ((packed brc ++ rest).length - (encNote brc.notetime ++ rest).length)
      (packed brc).length (encNote brc.notetime ++ rest) = some brc.notetime := by
  have hnote := hv.note
  have hle : (encNote brc.notetime).length ≤ (packed brc).length := by
    obtain ⟨bits, -, -, heq⟩ := compressBody_eq brc.list brc.notetime
    rw [length_packed, heq]
    simp only [List.length_append]
    omega
  rw [readNotetime, List.length_append, List.length_append, Nat.add_sub_add_right]
  by_cases hz : brc.notetime = 0
  · rw [if_neg (by simp [hz]), hz]
  · rw [if_pos (by simp [hz] at hle ⊢; omega), encNote, if_pos hz,
      readI_append (by omega) (by omega)]
    rfl

/-- **Unpacking undoes packing**: the record comes back with its cursor as the
caller left it, from the front of any memory. -/
theorem uncompressBrc_packed (brc0 : OneBrc) {brc : OneBrc} (hv : brc.Valid) (rest : List UInt8) :
    uncompressBrc brc0 (packed brc ++ rest) =
      some { brc with cur := brc0.cur, changed := false } := by
  obtain ⟨bits, n, hhead, hskip, hflags⟩ := readHead_packed hv rest
  have hpos : 0 < brc.list.length := List.length_pos_iff.mpr hv.nonempty
  have hloop := uncompressLoop_append hv.diffsOk hflags (brc.list.length - 1) 0 (by omega)
    (encNote brc.notetime ++ rest)
  have hlist : (brc.list.getD 0 0 :: brc.list.drop (0 + 1)).take brc.list.length = brc.list := by
    rw [List.getD_eq_getElem _ _ hpos, ← List.drop_eq_getElem_cons hpos, List.drop_zero,
      List.take_length]
  unfold uncompressBrc
  simp only [Option.bind_eq_bind, Option.bind_some, hhead, hskip, encDiffs, hloop,
    readNotetime_packed hv rest, hlist]
  rw [OneBrc.fill, dif_pos ⟨brc.board.nz, brc.board.le, brc.num_le⟩]

/-- **The second decoder** answers the unread question of the packed list. -/
theorem brcCUnreadt_packed {brc : OneBrc} (hv : brc.Valid) (t : Int) (rest : List UInt8) :
    brcCUnreadt (packed brc ++ rest) t = some (decide (UnreadIn brc.list t)) := by
  obtain ⟨bits, n, hhead, hskip, hflags⟩ := readHead_packed hv rest
  have hpos : 0 < brc.list.length := List.length_pos_iff.mpr hv.nonempty
  have hloop := brcCUnreadtLoop_append hv.diffsOk hv.decreasing hflags t (brc.list.length - 1) 0
    (by omega) (encNote brc.notetime ++ rest)
  have hmem : brc.list.getD 0 0 ∈ brc.list := mem_iff_getD.mpr ⟨0, hpos, rfl⟩
  have hcons : brc.list = brc.list.getD 0 0 :: brc.list.drop (0 + 1) := by
    rw [List.getD_eq_getElem _ _ hpos, ← List.drop_eq_getElem_cons hpos, List.drop_zero]
  have hle : ∀ x ∈ brc.list, x ≤ brc.list.getD 0 0 := by
    intro x hx
    obtain ⟨j, hj, rfl⟩ := mem_iff_getD.mp hx
    rcases Nat.eq_zero_or_pos j with rfl | hj0
    · exact Int.le_refl _
    · exact Int.le_of_lt (getD_lt_getD hv.decreasing hj0 hj)
  unfold brcCUnreadt
  simp only [Option.bind_eq_bind, Option.bind_some, hhead, hskip, encDiffs, hloop]
  by_cases hgt : t > brc.list.getD 0 0
  · have hun : UnreadIn brc.list t := by
      refine ⟨fun hmem' => ?_, _, hmem, hgt⟩
      have := hle t hmem'
      omega
    rw [if_pos hgt, decide_eq_true hun]
  · rw [if_neg hgt]
    by_cases heq : t = brc.list.getD 0 0
    · rw [if_pos heq, decide_eq_false fun h => h.1 (heq ▸ hmem)]
    · have hun : UnreadIn brc.list t ↔ UnreadIn (brc.list.drop (0 + 1)) t := by
        conv_lhs => rw [hcons]
        exact unreadIn_cons_of_lt (by omega)
      rw [if_neg heq, decide_eq_decide.mpr hun]

end Ytht
