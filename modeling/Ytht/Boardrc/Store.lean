import Mathlib.Data.List.TakeWhile
import Mathlib.Logic.Relation
import Ytht.Boardrc.Codec
import Ytht.Lib.Recency

/-!
# Boardrc.Store

The store of all packed records of one user, `struct allbrc`: blocks laid end
to end in one buffer, each beginning with its length and its name.
`brc_getblock` walks the lengths to a name, `brc_putblock` rebuilds the buffer
with the new block in front.

The functions are modelled on the raw buffer and fail (`none`) where the C code
would read or write outside it or walk for ever.  `AllBrc.Holds` relates a
buffer to the list of its blocks; on such buffers `brc_getblock` is a search
(`brcGetblock_holds`) and `brc_putblock` is `Recency.put`
(`brcPutblock_holds`), the block `#INFO` being the pinned one.
-/

namespace Ytht

open Bytes

/-- `struct allbrc`.  What `brc_c` holds beyond `size` is left over from
earlier and means nothing. -/
structure AllBrc where
  size : Nat
  changed : Bool
  maxsize : Nat
  brcC : List UInt8
  length_brcC : brcC.length = brcMaxsize
  size_le : size ≤ brcMaxsize
  maxsize_le : maxsize ≤ brcMaxsize

/-- The store of a new user. -/
def freshBrc (maxsize : Nat) (h : maxsize ≤ brcMaxsize) : AllBrc where
  size := 0
  changed := false
  maxsize := maxsize
  brcC := List.replicate brcMaxsize 0
  length_brcC := List.length_replicate
  size_le := Nat.zero_le _
  maxsize_le := h

/-- `"#INFO"`. -/
def infoName : List UInt8 := [35, 73, 78, 70, 79]

/-- `((struct onebrc_c *) ptr)->len`. -/
def lenAt (mem : List UInt8) (ptr : Int) : Option Int :=
  if 0 ≤ ptr then (readI 2 (mem.drop ptr.toNat)).map Prod.fst else none

/-! ## brc_getblock -/

/-- The loop of `brc_getblock` from `ptr`. -/
def brcGetblockLoop (all : AllBrc) (name : List UInt8) : Nat → Int → Option (Option Nat)
  | 0, _ => none
  | fuel + 1, ptr =>
      if ptr < all.size then do
        let len ← lenAt all.brcC ptr
        if len = 0 then some none
        else if all.size < ptr + len then some none
        else
          let same ← strncmp (brcStrlen - 1) (all.brcC.drop (ptr.toNat + 2)) (name ++ [0])
          if same then some (some ptr.toNat) else brcGetblockLoop all name fuel (ptr + len)
      else some none

/-- `brc_getblock`: the position of the block, or NULL.  The fuel is enough: a
walk of more than `size` turns is back where it was before and never ends. -/
def brcGetblock (all : AllBrc) (name : List UInt8) : Option (Option Nat) :=
  brcGetblockLoop all name (all.size + 1) 0

/-- The bytes of the block `brc_getblock` finds. -/
def brcBlock (all : AllBrc) (name : List UInt8) : Option (List UInt8) :=
  match brcGetblock all name with
  | some (some ptr) => (lenAt all.brcC ptr).map fun len => (all.brcC.drop ptr).take len.toNat
  | _ => none

/-! ## brc_putblock -/

/-- The copying loop of `brc_putblock`: `out` is what `ptr1` has left behind. -/
def brcPutblockLoop (all : AllBrc) (name : List UInt8) :
    Nat → Nat → List UInt8 → Option (List UInt8)
  | 0, _, _ => none
  | fuel + 1, ptr, out =>
      if ptr < all.size then do
        let len ← lenAt all.brcC ptr
        if len ≤ 0 then some out
        else if all.size < ptr + len then some out
        else if all.maxsize < out.length + len then some out
        else
          let same ← strncmp (brcStrlen - 1) (all.brcC.drop (ptr + 2)) name
          brcPutblockLoop all name fuel (ptr + len.toNat)
            (if same then out else out ++ (all.brcC.drop ptr).take len.toNat)
      else some out

/-- The length of the block `#INFO` that stays in front of the new block. -/
def frontInfo (all : AllBrc) (brcC : OneBrcC) : Option Nat :=
  if 0 < all.size then do
    let isInfo ← strcmp brcC.data (infoName ++ [0])
    if isInfo then some 0
    else
      let hasInfo ← strcmp (all.brcC.drop 2) (infoName ++ [0])
      if hasInfo then
        let len ← lenAt all.brcC 0
        if 0 ≤ len ∧ len ≤ brcMaxsize then some len.toNat else none
      else some 0
  else some 0

/-- What `brc_putblock` builds in `tmpallbrc->brc_c`. -/
def brcPutblockOut (all : AllBrc) (brcC : OneBrcC) : Option (List UInt8) := do
  let len ← frontInfo all brcC
  brcPutblockLoop all brcC.data (all.size + 1) len (all.brcC.take len ++ brcC.bytes)

/-- `memcpy(allbrc, tmpallbrc, ptr1 - (char *) tmpallbrc)`. -/
def AllBrc.store (all : AllBrc) (out : List UInt8) (h : out.length ≤ brcMaxsize) : AllBrc :=
  { all with
    size := out.length
    changed := true
    brcC := out ++ all.brcC.drop out.length
    length_brcC := by
      rw [List.length_append, List.length_drop, all.length_brcC]
      omega
    size_le := h }

/-- `brc_putblock`. -/
def brcPutblock (all : AllBrc) (brcC : OneBrcC) : Option AllBrc := do
  let out ← brcPutblockOut all brcC
  if h : out.length ≤ brcMaxsize then some (all.store out h) else none

/-! ## The functions on boards and on #INFO -/

/-- `strncpy` of a string into an array of `n + 1` bytes, and its closing NUL. -/
def strncpy (n : Nat) (s : List UInt8) : CStr n where
  bytes := (s.takeWhile (· ≠ 0)).take n
  nz := by
    intro h
    simpa using List.mem_takeWhile_imp (List.mem_of_mem_take h)
  le := by
    rw [List.length_take]
    omega

/-- `brc_getboard`. -/
def brcGetboard (all : AllBrc) (brc : OneBrc) (board : List UInt8) : Option OneBrc := do
  match ← brcGetblock all board with
  | some ptr => uncompressBrc brc (all.brcC.drop ptr)
  | none =>
      some { cur := 0, changed := false, board := strncpy (brcStrlen - 1) board, list := [1],
             num_le := by decide, notetime := 0 }

/-- `brc_unreadt_quick`. -/
def brcUnreadtQuick (all : AllBrc) (board : List UInt8) (t : Int) : Option Bool := do
  match ← brcGetblock all board with
  | some ptr => brcCUnreadt (all.brcC.drop ptr) t
  | none => some true

/-- `brc_putboard`, which also clears the record's `changed` and shortens it. -/
def brcPutboard (all : AllBrc) (brc : OneBrc) : Option (AllBrc × OneBrc) :=
  if brc.changed then do
    let brc := shorterBrc { brc with changed := false }
    let brcC ← compressBrc brc
    let all ← brcPutblock all brcC
    some (all, brc)
  else some (all, brc)

/-- `struct brcinfo`, by its bytes. -/
@[ext] structure BrcInfo where
  bytes : List UInt8
  length_bytes : bytes.length = 44

/-- `brc_getinfo`; without a block the structure is all zero. -/
def brcGetinfo (all : AllBrc) : Option BrcInfo := do
  match ← brcGetblock all infoName with
  | some ptr =>
      let len ← lenAt all.brcC ptr
      -- a negative size compares as a huge unsigned number
      let size := if len - 8 < 0 ∨ 44 < len - 8 then 44 else (len - 8).toNat
      let bytes := (all.brcC.drop (ptr + 8)).take size
      if h : bytes.length = size ∧ size ≤ 44 then
        some ⟨bytes ++ List.replicate (44 - size) 0, by
          rw [List.length_append, List.length_replicate, h.1]
          omega⟩
      else none
  | none => some ⟨List.replicate 44 0, by simp⟩

/-- The block `brc_putinfo` builds: the string `"#INFO"` and the structure. -/
def infoBrcC (info : BrcInfo) : OneBrcC :=
  ⟨8 + 44, infoName ++ 0 :: (info.bytes ++ List.replicate (brcDataSize - 6 - 44) 0)⟩

/-- `brc_putinfo`. -/
def brcPutinfo (all : AllBrc) (info : BrcInfo) : Option AllBrc := brcPutblock all (infoBrcC info)

/-! ## Blocks -/

/-- A block: a name and what follows it, small enough for a `struct onebrc_c`. -/
structure Block where
  name : CStr (brcStrlen - 1)
  body : List UInt8
  fits : name.bytes.length + 1 + body.length ≤ brcDataSize

namespace Block

def key (b : Block) : List UInt8 := b.name.bytes

def len (b : Block) : Nat := 3 + b.name.bytes.length + b.body.length

def bytes (b : Block) : List UInt8 := leBytes 2 b.len ++ (b.name.bytes ++ 0 :: b.body)

@[simp] theorem length_bytes (b : Block) : b.bytes.length = b.len := by
  simp [bytes, len]
  omega

theorem len_le (b : Block) : b.len ≤ 282 := by
  have := b.fits
  simp only [len, brcDataSize] at *
  omega

theorem len_pos (b : Block) : 0 < b.len := by
  unfold len
  omega

/-- What `strncmp` with a name looks for. -/
def named (name : List UInt8) (b : Block) : Bool := decide (b.key = name.take (brcStrlen - 1))

theorem key_nz (b : Block) : 0 ∉ b.key := b.name.nz

theorem take_key (b : Block) : b.key.take (brcStrlen - 1) = b.key :=
  List.take_of_length_le b.name.le

theorem named_key (b x : Block) : named b.key x = true ↔ x.key = b.key := by
  rw [named, take_key, decide_eq_true_eq]

end Block

/-- The bytes of a run of blocks. -/
def flat (bs : List Block) : List UInt8 := bs.flatMap Block.bytes

@[simp] theorem flat_nil : flat [] = [] := rfl

@[simp] theorem flat_cons (b : Block) (bs : List Block) : flat (b :: bs) = b.bytes ++ flat bs := rfl

@[simp] theorem flat_append (bs cs : List Block) : flat (bs ++ cs) = flat bs ++ flat cs := by
  simp [flat]

@[simp] theorem length_flat (bs : List Block) : (flat bs).length = Recency.total Block.len bs := by
  induction bs with
  | nil => rfl
  | cons b bs ih => simp [ih]

/-- The live part of the buffer is exactly these blocks. -/
def AllBrc.Holds (all : AllBrc) (bs : List Block) : Prop := all.brcC.take all.size = flat bs

theorem AllBrc.Holds.split {all : AllBrc} {bs : List Block} (h : all.Holds bs) :
    all.brcC = flat bs ++ all.brcC.drop all.size ∧ all.size = Recency.total Block.len bs := by
  have hlen : (all.brcC.take all.size).length = all.size := by
    rw [List.length_take, all.length_brcC, Nat.min_eq_left all.size_le]
  refine ⟨?_, ?_⟩
  · rw [← h, List.take_append_drop]
  · rw [← hlen, h, length_flat]

theorem lenAt_bytes {mem rest : List UInt8} {off : Nat} {b : Block}
    (h : mem.drop off = b.bytes ++ rest) : lenAt mem off = some (b.len : Int) := by
  have hle := b.len_le
  unfold lenAt
  rw [if_pos (by omega), Int.toNat_natCast, h, Block.bytes, List.append_assoc,
    readI_append_nat (by omega)]
  rfl

theorem drop_name {mem rest : List UInt8} {off : Nat} {b : Block}
    (h : mem.drop off = b.bytes ++ rest) :
    mem.drop (off + 2) = b.key ++ 0 :: (b.body ++ rest) := by
  rw [← List.drop_drop, h, Block.bytes, List.append_assoc, List.drop_left' (length_leBytes 2 _)]
  simp [Block.key]

theorem drop_next {mem rest : List UInt8} {off : Nat} {b : Block}
    (h : mem.drop off = b.bytes ++ rest) : mem.drop (off + b.len) = rest := by
  rw [← List.drop_drop, h, List.drop_left' b.length_bytes]

/-! ## The search on a buffer of blocks -/

/-- The position of the first block of a name, counted from `off`. -/
def findBlock (name : List UInt8) : Nat → List Block → Option Nat
  | _, [] => none
  | off, b :: bs =>
      if b.key = name.take (brcStrlen - 1) then some off else findBlock name (off + b.len) bs

theorem brcGetblockLoop_holds {all : AllBrc} {name rest : List UInt8} (hname : 0 ∉ name)
    (bs : List Block) (off fuel : Nat) (hmem : all.brcC.drop off = flat bs ++ rest)
    (hsize : off + Recency.total Block.len bs = all.size) (hfuel : bs.length < fuel) :
    brcGetblockLoop all name fuel off = some (findBlock name off bs) := by
  induction bs generalizing off fuel with
  | nil =>
      obtain ⟨fuel, rfl⟩ : ∃ f, fuel = f + 1 := ⟨fuel - 1, by simp at hfuel; omega⟩
      simp only [Recency.total_nil] at hsize
      rw [brcGetblockLoop, if_neg (by omega), findBlock]
  | cons b bs ih =>
      obtain ⟨fuel, rfl⟩ : ∃ f, fuel = f + 1 := ⟨fuel - 1, by omega⟩
      have hpos := b.len_pos
      rw [flat_cons, List.append_assoc] at hmem
      rw [Recency.total_cons] at hsize
      have hcmp := strncmp_append (s := b.key) (t := name) b.name.nz hname (brcStrlen - 1)
        (b.body ++ (flat bs ++ rest)) []
      rw [b.take_key] at hcmp
      rw [brcGetblockLoop, if_pos (by omega), lenAt_bytes hmem]
      simp only [Option.bind_eq_bind, Option.bind_some, Int.toNat_natCast]
      rw [if_neg (by omega), if_neg (by omega), drop_name hmem, hcmp]
      simp only [Option.bind_some, findBlock]
      by_cases hkey : b.key = name.take (brcStrlen - 1)
      · simp [hkey]
      · simp only [hkey, decide_false, Bool.false_eq_true, if_false]
        rw [← Int.natCast_add]
        exact ih (off + b.len) fuel (drop_next hmem) (by omega)
          (by simp only [List.length_cons] at hfuel; omega)

theorem length_le_total (bs : List Block) : bs.length ≤ Recency.total Block.len bs := by
  induction bs with
  | nil => simp
  | cons b bs ih =>
      have := b.len_pos
      rw [List.length_cons, Recency.total_cons]
      omega

theorem brcGetblock_holds {all : AllBrc} {bs : List Block} (h : all.Holds bs) {name : List UInt8}
    (hname : 0 ∉ name) : brcGetblock all name = some (findBlock name 0 bs) := by
  obtain ⟨hmem, hsize⟩ := h.split
  have hle := length_le_total bs
  exact brcGetblockLoop_holds hname bs 0 _ (by rw [List.drop_zero]; exact hmem) (by omega) (by omega)

/-- Where a block is found, its bytes begin. -/
theorem findBlock_spec (name : List UInt8) (bs : List Block) (off : Nat) :
    match bs.find? (Block.named name) with
    | none => findBlock name off bs = none
    | some b => ∃ pre post, bs = pre ++ b :: post ∧
        findBlock name off bs = some (off + Recency.total Block.len pre) := by
  induction bs generalizing off with
  | nil => rfl
  | cons b bs ih =>
      by_cases hkey : b.key = name.take (brcStrlen - 1)
      · have hnamed : Block.named name b = true := decide_eq_true hkey
        rw [List.find?_cons_of_pos hnamed, findBlock, if_pos hkey]
        exact ⟨[], bs, rfl, by simp⟩
      · have hnamed : ¬ Block.named name b = true := by simpa [Block.named] using hkey
        rw [List.find?_cons_of_neg hnamed, findBlock, if_neg hkey]
        have hrec := ih (off + b.len)
        split at hrec
        · exact hrec
        · obtain ⟨pre, post, rfl, heq⟩ := hrec
          exact ⟨b :: pre, post, rfl, by rw [heq, Recency.total_cons]; congr 1; omega⟩

/-- **`brc_getblock` is a search by name**: it finds a block exactly when the
list has one, and the block's bytes are what lies there. -/
theorem brcGetblock_find {all : AllBrc} {bs : List Block} (h : all.Holds bs) {name : List UInt8}
    (hname : 0 ∉ name) :
    match bs.find? (Block.named name) with
    | none => brcGetblock all name = some none
    | some b => ∃ ptr rest, brcGetblock all name = some (some ptr) ∧
        all.brcC.drop ptr = b.bytes ++ rest := by
  have hfind := findBlock_spec name bs 0
  rw [brcGetblock_holds h hname]
  split at hfind
  · rw [hfind]
  · next b _ =>
    obtain ⟨pre, post, rfl, heq⟩ := hfind
    obtain ⟨hmem, -⟩ := h.split
    generalize all.brcC.drop all.size = stale at hmem
    refine ⟨_, flat post ++ stale, by rw [heq], ?_⟩
    rw [Nat.zero_add, hmem, flat_append, List.append_assoc, List.drop_left' (length_flat pre),
      flat_cons, List.append_assoc]

theorem brcBlock_holds {all : AllBrc} {bs : List Block} (h : all.Holds bs) {name : List UInt8}
    (hname : 0 ∉ name) : brcBlock all name =
      (bs.find? (Block.named name)).map Block.bytes := by
  have hfind := brcGetblock_find h hname
  unfold brcBlock
  split at hfind
  · next hnone => rw [hfind, hnone]; rfl
  · next b hsome =>
    obtain ⟨ptr, rest, heq, hmem⟩ := hfind
    rw [heq, hsome]
    simp only [lenAt_bytes hmem, Option.map_some, Int.toNat_natCast, hmem]
    rw [List.take_left' b.length_bytes]

/-! ## The update of a buffer of blocks -/

/-- The block as `struct onebrc_c`, the rest of `data` zero. -/
def Block.toC (b : Block) : OneBrcC :=
  ⟨2 + (b.name.bytes ++ 0 :: b.body).length, (b.name.bytes ++ 0 :: b.body) ++
    List.replicate (brcDataSize - (b.name.bytes ++ 0 :: b.body).length) 0⟩

theorem Block.len_toC (b : Block) : b.toC.len = b.len := by
  simp [toC, len]
  omega

theorem Block.bytes_toC (b : Block) : b.toC.bytes = b.bytes := by
  rw [OneBrcC.bytes, b.len_toC, bytes, toC, ← List.append_assoc, List.take_left']
  rw [List.length_append, length_leBytes]
  simp [len]
  omega

theorem Block.data_toC (b : Block) : ∃ pad, b.toC.data = b.key ++ 0 :: (b.body ++ pad) :=
  ⟨List.replicate (brcDataSize - (b.name.bytes ++ 0 :: b.body).length) 0, by simp [toC, key]⟩

theorem brcPutblockLoop_holds {all : AllBrc} {b : Block} {pad rest : List UInt8}
    (bs : List Block) (off fuel : Nat) (out : List UInt8)
    (hmem : all.brcC.drop off = flat bs ++ rest)
    (hsize : off + Recency.total Block.len bs = all.size) (hfuel : bs.length < fuel) :
    brcPutblockLoop all (b.key ++ 0 :: pad) fuel off out =
      some (out ++ flat (Recency.keep Block.key Block.len all.maxsize b.key out.length bs)) := by
  induction bs generalizing off fuel out with
  | nil =>
      obtain ⟨fuel, rfl⟩ : ∃ f, fuel = f + 1 := ⟨fuel - 1, by simp at hfuel; omega⟩
      simp only [Recency.total_nil] at hsize
      rw [brcPutblockLoop, if_neg (by omega)]
      simp [Recency.keep]
  | cons x bs ih =>
      obtain ⟨fuel, rfl⟩ : ∃ f, fuel = f + 1 := ⟨fuel - 1, by omega⟩
      have hpos := x.len_pos
      rw [flat_cons, List.append_assoc] at hmem
      rw [Recency.total_cons] at hsize
      have hcmp := strncmp_append (s := x.key) (t := b.key) x.name.nz b.name.nz (brcStrlen - 1)
        (x.body ++ (flat bs ++ rest)) pad
      rw [x.take_key, b.take_key] at hcmp
      rw [brcPutblockLoop, if_pos (by omega), lenAt_bytes hmem]
      simp only [Option.bind_eq_bind, Option.bind_some, Int.toNat_natCast]
      rw [if_neg (by omega), if_neg (by omega), drop_name hmem, hcmp, Recency.keep]
      simp only [Option.bind_some, decide_eq_true_eq]
      have hrec := ih (off + x.len) fuel
      by_cases hroom : all.maxsize < out.length + x.len
      · rw [if_pos hroom, if_pos (by omega)]
        simp
      · rw [if_neg hroom, if_neg (by omega)]
        have hnext : bs.length < fuel := by
          simp only [List.length_cons] at hfuel
          omega
        by_cases hkey : x.key = b.key
        · simp only [if_pos hkey]
          exact hrec out (drop_next hmem) (by omega) hnext
        · simp only [if_neg hkey]
          rw [hrec _ (drop_next hmem) (by omega) hnext, hmem, List.take_left' x.length_bytes]
          simp

/-- The length of what stays in front of the new block. -/
def keptLen (b : Block) : List Block → Nat
  | [] => 0
  | p :: _ => if b.key ≠ infoName ∧ p.key = infoName then p.len else 0

theorem frontInfo_holds {all : AllBrc} {bs : List Block} (h : all.Holds bs) (b : Block) :
    frontInfo all b.toC = some (keptLen b bs) := by
  obtain ⟨hmem, hsize⟩ := h.split
  obtain ⟨pad, hdata⟩ := b.data_toC
  have hinfo : 0 ∉ infoName := by decide
  unfold frontInfo
  cases bs with
  | nil =>
      rw [if_neg (by rw [hsize]; simp)]
      rfl
  | cons p bs =>
      have hpos := p.len_pos
      have hle := p.len_le
      have hmax : brcMaxsize = 28672 := rfl
      have hmem0 : all.brcC.drop 0 = p.bytes ++ (flat bs ++ all.brcC.drop all.size) := by
        rw [List.drop_zero, ← List.append_assoc, ← flat_cons]
        exact hmem
      rw [Recency.total_cons] at hsize
      rw [if_pos (by omega), hdata, strcmp_append (s := b.key) b.name.nz hinfo]
      simp only [Option.bind_eq_bind, Option.bind_some, decide_eq_true_eq, keptLen]
      by_cases hb : b.key = infoName
      · simp [hb]
      · rw [if_neg hb, show (2 : Nat) = 0 + 2 from rfl, drop_name hmem0,
          strcmp_append (s := p.key) p.name.nz hinfo]
        simp only [Option.bind_some, decide_eq_true_eq]
        by_cases hp : p.key = infoName
        · have hlen := lenAt_bytes hmem0
          rw [if_pos hp, if_pos ⟨hb, hp⟩]
          simp only [Int.natCast_zero] at hlen
          rw [hlen]
          simp only [Option.bind_some]
          rw [if_pos (by omega), Int.toNat_natCast]
        · rw [if_neg hp, if_neg (fun h => hp h.2)]

theorem brcPutblockOut_holds {all : AllBrc} {bs : List Block} (h : all.Holds bs) (b : Block) :
    brcPutblockOut all b.toC =
      some (flat (Recency.put Block.key Block.len infoName all.maxsize b bs)) := by
  obtain ⟨hmem, hsize⟩ := h.split
  obtain ⟨pad, hdata⟩ := b.data_toC
  have hbs := length_le_total bs
  unfold brcPutblockOut
  rw [frontInfo_holds h b, b.bytes_toC, hdata]
  simp only [Option.bind_eq_bind, Option.bind_some]
  cases bs with
  | nil =>
      have hrun := @brcPutblockLoop_holds all b (b.body ++ pad) all.brcC [] 0 (all.size + 1)
        b.bytes rfl (by simpa using hsize.symm) (by simp)
      simpa [keptLen, Recency.keep, Recency.put] using hrun
  | cons p bs =>
      simp only [Recency.total_cons, List.length_cons] at hsize hbs
      rw [Recency.put, keptLen]
      by_cases hp : b.key ≠ infoName ∧ p.key = infoName
      · have hsplit : all.brcC = p.bytes ++ (flat bs ++ all.brcC.drop all.size) := by
          rw [← List.append_assoc, ← flat_cons]
          exact hmem
        have htake : all.brcC.take p.len = p.bytes := by
          rw [hsplit, List.take_left' p.length_bytes]
        have hdrop : all.brcC.drop p.len = flat bs ++ all.brcC.drop all.size := by
          have := congrArg (List.drop p.len) hsplit
          rwa [List.drop_left' p.length_bytes] at this
        rw [if_pos hp, if_pos hp, htake,
          brcPutblockLoop_holds bs p.len _ _ hdrop (by omega) (by omega)]
        simp
      · rw [if_neg hp, if_neg hp, brcPutblockLoop_holds (p :: bs) 0 _ _ hmem
          (by rw [Recency.total_cons]; omega) (by rw [List.length_cons]; omega)]
        simp

/-- **`brc_putblock` is `Recency.put`**: on a buffer of blocks it always
succeeds, and the buffer again holds blocks. -/
theorem brcPutblock_holds {all : AllBrc} {bs : List Block} (h : all.Holds bs) (b : Block) :
    ∃ all', brcPutblock all b.toC = some all' ∧ all'.maxsize = all.maxsize ∧
      all'.Holds (Recency.put Block.key Block.len infoName all.maxsize b bs) := by
  have hmax : brcMaxsize = 28672 := rfl
  have hb := b.len_le
  have hlen : (flat (Recency.put Block.key Block.len infoName all.maxsize b bs)).length ≤
      brcMaxsize := by
    rw [length_flat]
    refine Recency.total_put_le all.maxsize_le (by omega) ?_
    intro p _ _ _
    have := p.len_le
    omega
  refine ⟨all.store _ hlen, ?_, rfl, List.take_left' rfl⟩
  rw [brcPutblock, brcPutblockOut_holds h b]
  exact dif_pos hlen

end Ytht
