import Ytht.Boardrc.Store

/-!
# Boardrc.Marks

The read marks of one user over time: a store that starts empty and is changed
by `brc_putboard` and `brc_putinfo` only.  Every such store holds blocks of
distinct names with `#INFO` in front (`AllBrc.Inv`), and on it

* a record that is put comes back with the same posts unread
  (`brcGetboard_brcPutboard`);
* an update keeps all other blocks exactly when the old copy of the block does
  not end the rebuilding too early (`brcPutblock_keeps_iff`);
* `brc_unreadt_quick` agrees with `brc_unreadt` exactly for the boards that
  have a block, and for the others on times above 1
  (`brcUnreadtQuick_agrees_iff`).
-/

namespace Ytht

open Bytes

/-! ## Records and the information block as blocks -/

/-- The block `compress_brc` makes of a record. -/
def blockOf (brc : OneBrc) : Block where
  name := brc.board
  body := compressBody brc.list brc.notetime
  fits := by
    have hbody := length_compressBody_le brc.num_le brc.notetime
    have hboard : brc.board.bytes.length ≤ 14 := brc.board.le
    have hmax : brcDataSize = 280 := rfl
    omega

theorem bytes_blockOf (brc : OneBrc) : (blockOf brc).bytes = packed brc := rfl

/-- **The encoding fits**: `compress_brc` never overruns its data field. -/
theorem compressBrc_eq_blockOf (brc : OneBrc) : compressBrc brc = some (blockOf brc).toC := by
  have hfit := (blockOf brc).fits
  rw [compressBrc, if_pos]
  · rfl
  · simp only [List.length_append, List.length_cons]
    simp only [blockOf] at hfit
    omega

/-- The block `brc_putinfo` makes. -/
def infoBlock (info : BrcInfo) : Block where
  name := ⟨infoName, by decide, by decide⟩
  body := info.bytes
  fits := by
    rw [info.length_bytes]
    decide

theorem infoBrcC_eq (info : BrcInfo) : infoBrcC info = (infoBlock info).toC := by
  simp [infoBrcC, Block.toC, infoBlock, info.length_bytes, infoName, brcDataSize]

theorem brcPutboard_holds {all : AllBrc} {bs : List Block} (h : all.Holds bs) {brc : OneBrc}
    (hch : brc.changed = true) :
    ∃ all', brcPutboard all brc = some (all', shorterBrc { brc with changed := false }) ∧
      all'.maxsize = all.maxsize ∧
      all'.Holds (Recency.put Block.key Block.len infoName all.maxsize
        (blockOf (shorterBrc brc)) bs) := by
  obtain ⟨all', hput, hmax, hholds⟩ := brcPutblock_holds h (blockOf (shorterBrc brc))
  refine ⟨all', ?_, hmax, hholds⟩
  have hsame : (blockOf (shorterBrc { brc with changed := false })).toC =
      (blockOf (shorterBrc brc)).toC := rfl
  unfold brcPutboard
  rw [if_pos hch]
  simp only [Option.bind_eq_bind, compressBrc_eq_blockOf, Option.bind_some, hsame, hput]

/-! ## Stores over time -/

/-- A store as `brc_init` makes it when there is no file, for a user or a guest. -/
structure AllBrc.Empty (all : AllBrc) : Prop where
  size : all.size = 0
  maxsize : all.maxsize = brcMaxsize ∨ all.maxsize = brcMaxsizeGuest

/-- One update, by a record of the kind `P` or of the information block. -/
inductive BrcStep (P : OneBrc → Prop) (all all' : AllBrc) : Prop
  | putboard (brc brc' : OneBrc) (hp : P brc) (h : brcPutboard all brc = some (all', brc'))
  | putinfo (info : BrcInfo) (h : brcPutinfo all info = some all')

/-- The stores reached from an empty one. -/
def BrcReachable (P : OneBrc → Prop) (all : AllBrc) : Prop :=
  ∃ all0 : AllBrc, all0.Empty ∧ Relation.ReflTransGen (BrcStep P) all0 all

/-- What every reachable store is: blocks of distinct names, `#INFO` only in
front, each made from a record or from the information structure, within the
capacity. -/
structure AllBrc.Inv (P : OneBrc → Prop) (all : AllBrc) (bs : List Block) : Prop where
  holds : all.Holds bs
  shape : Recency.Shape Block.key infoName bs
  made : ∀ b ∈ bs, (∃ info, b = infoBlock info) ∨ ∃ brc, P brc ∧ b = blockOf (shorterBrc brc)
  maxsize : all.maxsize = brcMaxsize ∨ all.maxsize = brcMaxsizeGuest
  size_le : all.size ≤ all.maxsize

theorem AllBrc.Empty.inv {P : OneBrc → Prop} {all : AllBrc} (h : all.Empty) : all.Inv P [] := by
  refine ⟨by simp [AllBrc.Holds, h.size], ⟨by simp, by simp⟩, by simp, h.maxsize, ?_⟩
  rw [h.size]
  exact Nat.zero_le _

/-- Putting a block made of a record or of the information structure keeps the
invariant. -/
theorem AllBrc.Inv.put {P : OneBrc → Prop} {all all' : AllBrc} {bs : List Block}
    (h : all.Inv P bs) {b : Block}
    (hb : (∃ info, b = infoBlock info) ∨ ∃ brc, P brc ∧ b = blockOf (shorterBrc brc))
    (hmax : all'.maxsize = all.maxsize)
    (hholds : all'.Holds (Recency.put Block.key Block.len infoName all.maxsize b bs)) :
    all'.Inv P (Recency.put Block.key Block.len infoName all.maxsize b bs) := by
  refine ⟨hholds, Recency.put_shape _ _ b h.shape, ?_, by rw [hmax]; exact h.maxsize, ?_⟩
  · intro x hx
    rcases Recency.mem_of_mem_put hx with rfl | hx
    · exact hb
    · exact h.made x hx
  · have hlen := b.len_le
    have hroom : 10240 ≤ all.maxsize := by
      rcases h.maxsize with hm | hm
      · rw [hm]
        decide
      · rw [hm]
    rw [hholds.split.2, hmax]
    refine Recency.total_put_le (Nat.le_refl _) (by omega) ?_
    intro p _ _ _
    have := p.len_le
    omega

/-- One update keeps the invariant. -/
theorem AllBrc.Inv.step {P : OneBrc → Prop} {all all' : AllBrc} {bs : List Block}
    (h : all.Inv P bs) (hstep : BrcStep P all all') : ∃ bs', all'.Inv P bs' := by
  cases hstep with
  | putboard brc brc' hp hput =>
      by_cases hch : brc.changed = true
      · obtain ⟨all'', hput', hmax, hholds⟩ := brcPutboard_holds h.holds hch
        rw [hput', Option.some.injEq, Prod.mk.injEq] at hput
        obtain ⟨rfl, -⟩ := hput
        exact ⟨_, h.put (Or.inr ⟨brc, hp, rfl⟩) hmax hholds⟩
      · rw [brcPutboard, if_neg hch, Option.some.injEq, Prod.mk.injEq] at hput
        obtain ⟨rfl, -⟩ := hput
        exact ⟨bs, h⟩
  | putinfo info hput =>
      obtain ⟨all'', hput', hmax, hholds⟩ := brcPutblock_holds h.holds (infoBlock info)
      rw [brcPutinfo, infoBrcC_eq, hput', Option.some.injEq] at hput
      subst hput
      exact ⟨_, h.put (Or.inl ⟨info, rfl⟩) hmax hholds⟩

/-- **Every reachable store is well formed.** -/
theorem BrcReachable.inv {P : OneBrc → Prop} {all : AllBrc} (h : BrcReachable P all) :
    ∃ bs, all.Inv P bs := by
  obtain ⟨all0, hempty, hrun⟩ := h
  induction hrun with
  | refl => exact ⟨[], hempty.inv⟩
  | tail _ hstep ih =>
      obtain ⟨bs, hinv⟩ := ih
      exact hinv.step hstep

/-! ## A record comes back -/

/-- The block in front, when it is named `#INFO`, is not shorter than its own
length word and name. -/
def AllBrc.FrontWhole (all : AllBrc) : Prop :=
  0 < all.size → strcmp (all.brcC.drop 2) (infoName ++ [0]) = some true →
    ∀ len, lenAt all.brcC 0 = some len → len = 0 ∨ 8 ≤ len

theorem prefix_brcPutblockLoop {all : AllBrc} {name : List UInt8} {fuel ptr : Nat}
    {out out' : List UInt8} (h : brcPutblockLoop all name fuel ptr out = some out') :
    out <+: out' := by
  induction fuel generalizing ptr out with
  | zero => simp [brcPutblockLoop] at h
  | succ fuel ih =>
      rw [brcPutblockLoop] at h
      split at h
      · cases hlen : lenAt all.brcC ptr with
        | none => rw [hlen] at h; cases h
        | some len =>
            rw [hlen] at h
            simp only [Option.bind_eq_bind, Option.bind_some] at h
            split at h
            · cases h; exact List.prefix_rfl
            · split at h
              · cases h; exact List.prefix_rfl
              · split at h
                · cases h; exact List.prefix_rfl
                · cases hcmp : strncmp (brcStrlen - 1) (all.brcC.drop (ptr + 2)) name with
                  | none => rw [hcmp] at h; cases h
                  | some same =>
                      rw [hcmp] at h
                      simp only [Option.bind_some] at h
                      have hpre := ih h
                      split at hpre
                      · exact hpre
                      · exact (List.prefix_append _ _).trans hpre
      · cases h; exact List.prefix_rfl

/-- On any buffer: the new block lands behind the part that stays in front. -/
theorem brcPutblock_front {all all' : AllBrc} {b : Block} (h : brcPutblock all b.toC = some all') :
    ∃ len tail, frontInfo all b.toC = some len ∧
      all'.brcC = all.brcC.take len ++ (b.bytes ++ tail) ∧
      (all.brcC.take len).length + b.len ≤ all'.size := by
  unfold brcPutblock brcPutblockOut at h
  cases hfront : frontInfo all b.toC with
  | none => rw [hfront] at h; cases h
  | some len =>
      rw [hfront] at h
      simp only [Option.bind_eq_bind, Option.bind_some] at h
      cases hloop : brcPutblockLoop all b.toC.data (all.size + 1) len
          (all.brcC.take len ++ b.toC.bytes) with
      | none => rw [hloop] at h; cases h
      | some out =>
          rw [hloop] at h
          simp only [Option.bind_some] at h
          obtain ⟨kept, rfl⟩ := prefix_brcPutblockLoop hloop
          split at h
          · next hlen =>
            cases h
            refine ⟨len, kept ++ all.brcC.drop (all.brcC.take len ++ b.toC.bytes ++ kept).length,
              rfl, ?_, ?_⟩
            · simp [AllBrc.store, b.bytes_toC]
            · simp only [AllBrc.store, List.length_append, b.bytes_toC, Block.length_bytes]
              omega
          · cases h

/-- The part kept in front is a whole block `#INFO`. -/
theorem frontInfo_pos {all : AllBrc} (hfront : all.FrontWhole) {b : Block} {len : Nat}
    (h : frontInfo all b.toC = some len) (hlen : 0 < len) :
    8 ≤ len ∧ len ≤ brcMaxsize ∧ b.key ≠ infoName ∧ lenAt all.brcC 0 = some (len : Int) ∧
      ∃ rest, all.brcC.drop 2 = infoName ++ 0 :: rest := by
  obtain ⟨pad, hdata⟩ := b.data_toC
  have hinfo : 0 ∉ infoName := by decide
  unfold frontInfo at h
  split at h
  · next hsz =>
    rw [hdata, strcmp_append (s := b.key) b.name.nz hinfo] at h
    simp only [Option.bind_eq_bind, Option.bind_some, decide_eq_true_eq] at h
    split at h
    · cases h; omega
    · next hb =>
      cases hold : strcmp (all.brcC.drop 2) (infoName ++ [0]) with
      | none => rw [hold] at h; cases h
      | some old =>
          rw [hold] at h
          simp only [Option.bind_some] at h
          split at h
          · next htrue =>
            subst htrue
            cases hat : lenAt all.brcC 0 with
            | none => rw [hat] at h; cases h
            | some l =>
                rw [hat] at h
                simp only [Option.bind_some] at h
                split at h
                · simp only [Option.some.injEq] at h
                  have hwhole := hfront hsz hold l hat
                  exact ⟨by omega, by omega, hb, by rw [← h, Int.toNat_of_nonneg (by omega)],
                    eq_of_strcmp hinfo hold⟩
                · cases h
          · cases h; omega
  · cases h; omega

/-- Two buffers that agree up to `n` hold the same length word at 0. -/
theorem lenAt_take_append {mem tail : List UInt8} {n : Nat} (hn : 2 ≤ n) (hmem : n ≤ mem.length) :
    lenAt (mem.take n ++ tail) 0 = lenAt mem 0 := by
  obtain ⟨x, y, mem, rfl⟩ : ∃ x y rest, mem = x :: y :: rest :=
    match mem, hmem with
    | [], h | [_], h => by simp at h; omega
    | x :: y :: rest, _ => ⟨x, y, rest, rfl⟩
  obtain ⟨n, rfl⟩ : ∃ k, n = k + 2 := ⟨n - 2, by omega⟩
  simp [lenAt, readI, readU]

/-- On any buffer: the block put is the block found. -/
theorem brcGetblock_brcPutblock {all all' : AllBrc} (hfront : all.FrontWhole) {b : Block}
    (h : brcPutblock all b.toC = some all') :
    ∃ ptr rest, brcGetblock all' b.key = some (some ptr) ∧
      all'.brcC.drop ptr = b.bytes ++ rest := by
  obtain ⟨len, tail, hlen, hmem, hsize⟩ := brcPutblock_front h
  have hpos := b.len_pos
  have hcmp := strncmp_append (s := b.key) (t := b.key) b.name.nz b.name.nz (brcStrlen - 1)
    (b.body ++ tail) []
  have hfound : ∀ ptr fuel : Nat, all'.brcC.drop ptr = b.bytes ++ tail →
      ptr + b.len ≤ all'.size →
      brcGetblockLoop all' b.key (fuel + 1) ptr = some (some ptr) := by
    intro ptr fuel hptr hend
    rw [brcGetblockLoop, if_pos (by omega), lenAt_bytes hptr]
    simp only [Option.bind_eq_bind, Option.bind_some, Int.toNat_natCast]
    rw [if_neg (by omega), if_neg (by omega), drop_name hptr, hcmp]
    simp
  rcases Nat.eq_zero_or_pos len with rfl | hlenpos
  · simp only [List.take_zero, List.nil_append, List.length_nil, Nat.zero_add] at hmem hsize
    have hptr : all'.brcC.drop 0 = b.bytes ++ tail := by rw [List.drop_zero, hmem]
    exact ⟨0, tail, hfound 0 _ hptr (by omega), hptr⟩
  · -- the front part is the block `#INFO`, which the walk steps over
    obtain ⟨h8, hmax, hb, hat, rest, hname⟩ := frontInfo_pos hfront hlen hlenpos
    have hall : len ≤ all.brcC.length := by
      rw [all.length_brcC]
      exact hmax
    have htake : (all.brcC.take len).length = len := by
      rw [List.length_take, Nat.min_eq_left hall]
    have hat' : lenAt all'.brcC 0 = some (len : Int) := by
      rw [hmem, lenAt_take_append (by omega) hall, hat]
    have hname' : all'.brcC.drop 2 = infoName ++ 0 :: (rest.take (len - 8) ++ (b.bytes ++ tail)) := by
      rw [hmem, List.drop_append_of_le_length (by omega), List.drop_take, hname]
      obtain ⟨k, rfl⟩ : ∃ k, len = k + 8 := ⟨len - 8, by omega⟩
      simp [infoName]
    have hcmp' := strncmp_append (s := infoName) (t := b.key) (by decide) b.name.nz (brcStrlen - 1)
      (rest.take (len - 8) ++ (b.bytes ++ tail)) []
    rw [b.take_key] at hcmp'
    have hne : ¬ infoName.take (brcStrlen - 1) = b.key := fun heq => hb heq.symm
    have hptr : all'.brcC.drop len = b.bytes ++ tail := by
      rw [hmem, List.drop_left' htake]
    refine ⟨len, tail, ?_, hptr⟩
    obtain ⟨fuel, hfuel⟩ : ∃ fuel, all'.size = fuel + 1 := ⟨all'.size - 1, by omega⟩
    rw [brcGetblock, brcGetblockLoop, if_pos (by omega), hat']
    simp only [Option.bind_eq_bind, Option.bind_some]
    rw [if_neg (by omega), if_neg (by omega), Int.toNat_zero, Nat.zero_add, hname', hcmp']
    simp only [Option.bind_some, decide_eq_true_eq]
    rw [if_neg hne, hfuel, Int.zero_add]
    exact hfound len fuel hptr (by omega)

/-- The first block of a store of blocks is all there. -/
theorem AllBrc.Holds.frontWhole {all : AllBrc} {bs : List Block} (h : all.Holds bs) :
    all.FrontWhole := by
  intro hsz hname len hlen
  obtain ⟨hmem, hsize⟩ := h.split
  cases bs with
  | nil =>
      rw [Recency.total_nil] at hsize
      omega
  | cons p bs =>
      have hmem0 : all.brcC.drop 0 = p.bytes ++ (flat bs ++ all.brcC.drop all.size) := by
        rw [List.drop_zero, ← List.append_assoc, ← flat_cons]
        exact hmem
      have hat := lenAt_bytes hmem0
      rw [show (2 : Nat) = 0 + 2 from rfl, drop_name hmem0,
        strcmp_append (s := p.key) p.name.nz (by decide)] at hname
      simp only [Option.some.injEq, decide_eq_true_eq] at hname
      have hplen : p.name.bytes.length = 5 := congrArg List.length hname
      rw [Int.natCast_zero, hlen, Option.some.injEq] at hat
      have h8 : 8 ≤ p.len := by
        unfold Block.len
        omega
      omega

/-- **A record that is put comes back**: the packed form always fits, a store
of blocks always takes it, and wherever it is taken the record read back has
the same posts unread and the same note time. -/
theorem brcGetboard_brcPutboard (all : AllBrc) (brc brc0 : OneBrc) (hv : brc.Valid)
    (hch : brc.changed = true) (hfront : all.FrontWhole) :
    (compressBrc (shorterBrc brc)).isSome ∧
      (∀ bs, all.Holds bs → (brcPutboard all brc).isSome) ∧
      ∀ all' brc1, brcPutboard all brc = some (all', brc1) →
        ∃ brc', brcGetboard all' brc0 brc.board.bytes = some brc' ∧
          brc'.notetime = brc.notetime ∧
          ∀ t, (brcUnreadt brc' t).1 = (brcUnreadt brc t).1 := by
  refine ⟨by simp [compressBrc_eq_blockOf], ?_, ?_⟩
  · intro bs hholds
    obtain ⟨all', hput, -⟩ := brcPutboard_holds hholds hch
    simp [hput]
  · intro all' brc1 hput
    obtain ⟨hshort, hunread⟩ := hv.shorterBrc
    have hput' : brcPutblock all (blockOf (shorterBrc brc)).toC = some all' := by
      have hsame : (blockOf (shorterBrc { brc with changed := false })).toC =
          (blockOf (shorterBrc brc)).toC := rfl
      rw [brcPutboard, if_pos hch] at hput
      simp only [Option.bind_eq_bind, compressBrc_eq_blockOf, Option.bind_some, hsame] at hput
      cases hblock : brcPutblock all (blockOf (shorterBrc brc)).toC with
      | none => rw [hblock] at hput; cases hput
      | some all'' =>
          rw [hblock, Option.bind_some, Option.some.injEq, Prod.mk.injEq] at hput
          rw [hput.1]
    obtain ⟨ptr, rest, hget, hmem⟩ := brcGetblock_brcPutblock hfront hput'
    rw [bytes_blockOf] at hmem
    have hback := uncompressBrc_packed brc0 hshort rest
    refine ⟨{ shorterBrc brc with cur := brc0.cur, changed := false }, ?_, rfl, ?_⟩
    · rw [brcGetboard, show brc.board.bytes = (blockOf (shorterBrc brc)).key from rfl, hget]
      simp only [Option.bind_eq_bind, Option.bind_some, hmem]
      exact hback
    · intro t
      rw [Bool.eq_iff_iff, brcUnreadt_iff hv.decreasing hv.nonempty, ← hunread t]
      exact @brcUnreadt_iff { shorterBrc brc with cur := brc0.cur, changed := false }
        hshort.decreasing hshort.nonempty t

theorem freshBrc_empty : (freshBrc brcMaxsize (Nat.le_refl _)).Empty :=
  ⟨rfl, Or.inl rfl⟩

theorem zero_notMem_test : (0 : UInt8) ∉ [116, 101, 115, 116] := by decide

theorem length_test : [116, 101, 115, 116].length ≤ brcStrlen - 1 := by decide

theorem mixed_short : [1000000000, 999999000, 999900000, 999899900, 2].length ≤ brcMaxnum := by
  decide

/-- Differences of one, two, three and four bytes. -/
def mixedBrc : OneBrc where
  cur := 0
  changed := true
  board := ⟨[116, 101, 115, 116], zero_notMem_test, length_test⟩
  list := [1000000000, 999999000, 999900000, 999899900, 2]
  num_le := mixed_short
  notetime := 7

theorem mixedBrc_valid : mixedBrc.Valid where
  decreasing := by decide
  positive := by decide
  inInt := by decide
  nonempty := by decide
  note := by decide

theorem brcGetboard_brcPutboard_mixed :
    (compressBrc (shorterBrc mixedBrc)).isSome ∧
      (∀ bs, (freshBrc brcMaxsize (Nat.le_refl _)).Holds bs →
        (brcPutboard (freshBrc brcMaxsize (Nat.le_refl _)) mixedBrc).isSome) ∧
      ∀ all' brc1, brcPutboard (freshBrc brcMaxsize (Nat.le_refl _)) mixedBrc = some (all', brc1) →
        ∃ brc', brcGetboard all' mixedBrc mixedBrc.board.bytes = some brc' ∧
          brc'.notetime = mixedBrc.notetime ∧
          ∀ t, (brcUnreadt brc' t).1 = (brcUnreadt mixedBrc t).1 :=
  brcGetboard_brcPutboard _ mixedBrc mixedBrc mixedBrc_valid rfl (fun h => absurd h (by decide))

/-! ## The two unread tests -/

/-- A block of a board was made from a record. -/
theorem AllBrc.Inv.find?_board {P : OneBrc → Prop} {all : AllBrc} {bs : List Block}
    (h : all.Inv P bs) {board : List UInt8} (hboard : board ≠ infoName) {b : Block}
    (hfind : bs.find? (Block.named board) = some b) :
    ∃ brc, P brc ∧ b = blockOf (shorterBrc brc) := by
  rcases h.made b (List.mem_of_find?_eq_some hfind) with ⟨info, rfl⟩ | hmade
  · have hfound : Block.named board (infoBlock info) = true := List.find?_some hfind
    have hnamed : infoName = board.take (brcStrlen - 1) := of_decide_eq_true hfound
    have hshort : board.length ≤ brcStrlen - 1 := by
      have h15 : brcStrlen = 15 := rfl
      have hlen := congrArg List.length hnamed
      simp only [infoName, List.length_cons, List.length_nil, List.length_take] at hlen
      omega
    rw [List.take_of_length_le hshort] at hnamed
    exact absurd hnamed.symm hboard
  · exact hmade

/-- In the record that `brc_getboard` makes up, all posts up to time 1 are read. -/
theorem unreadIn_one (t : Int) : UnreadIn [1] t ↔ 1 < t := by
  simp only [UnreadIn, List.mem_singleton, exists_eq_left]
  omega

/-- **The quick unread test agrees with the slow one** on every board that has
a block; on a board that has none, exactly on the times above 1. -/
theorem brcUnreadtQuick_agrees_iff {all : AllBrc} (h : BrcReachable OneBrc.Valid all) :
    ∃ bs, all.Holds bs ∧ ∀ (brc0 : OneBrc) (board : List UInt8) (t : Int), 0 ∉ board →
      board ≠ infoName →
      ∃ quick brc, brcUnreadtQuick all board t = some quick ∧
        brcGetboard all brc0 board = some brc ∧
        ((quick = true ↔ (brcUnreadt brc t).1 = true) ↔
          ((∃ b ∈ bs, Block.named board b = true) ∨ 1 < t)) := by
  obtain ⟨bs, hinv⟩ := h.inv
  refine ⟨bs, hinv.holds, ?_⟩
  intro brc0 board t hz hboard
  have hget := brcGetblock_find hinv.holds hz
  unfold brcUnreadtQuick brcGetboard
  cases hfind : bs.find? (Block.named board) with
  | none =>
      simp only [hfind] at hget
      have hnone : ¬ ∃ b ∈ bs, Block.named board b = true := by
        simpa using hfind
      refine ⟨true, _, by rw [hget]; rfl, by rw [hget]; rfl, ?_⟩
      rw [brcUnreadt_iff (by simp) (by simp), unreadIn_one]
      simp only [true_iff, hnone, false_or]
  | some b =>
      simp only [hfind] at hget
      obtain ⟨ptr, rest, hptr, hmem⟩ := hget
      obtain ⟨brc, hv, rfl⟩ := hinv.find?_board hboard hfind
      obtain ⟨hshort, -⟩ := hv.shorterBrc
      have hsome : ∃ b ∈ bs, Block.named board b = true :=
        ⟨_, List.mem_of_find?_eq_some hfind, List.find?_some hfind⟩
      rw [bytes_blockOf] at hmem
      refine ⟨decide (UnreadIn (shorterBrc brc).list t),
        { shorterBrc brc with cur := brc0.cur, changed := false }, ?_, ?_, ?_⟩
      · simp only [hptr, Option.bind_eq_bind, Option.bind_some, hmem]
        exact brcCUnreadt_packed hshort t rest
      · simp only [hptr, Option.bind_eq_bind, Option.bind_some, hmem]
        exact uncompressBrc_packed brc0 hshort rest
      · rw [decide_eq_true_eq,
          @brcUnreadt_iff { shorterBrc brc with cur := brc0.cur, changed := false }
            hshort.decreasing hshort.nonempty t]
        simp only [hsome, true_or]

theorem brcUnreadtQuick_agrees_iff_fresh :
    ∃ bs, (freshBrc brcMaxsize (Nat.le_refl _)).Holds bs ∧
      ∀ (brc0 : OneBrc) (board : List UInt8) (t : Int), 0 ∉ board → board ≠ infoName →
      ∃ quick brc, brcUnreadtQuick (freshBrc brcMaxsize (Nat.le_refl _)) board t = some quick ∧
        brcGetboard (freshBrc brcMaxsize (Nat.le_refl _)) brc0 board = some brc ∧
        ((quick = true ↔ (brcUnreadt brc t).1 = true) ↔
          ((∃ b ∈ bs, Block.named board b = true) ∨ 1 < t)) :=
  brcUnreadtQuick_agrees_iff ⟨_, freshBrc_empty, Relation.ReflTransGen.refl⟩

/-- A board without posts has `lastpost` 0: for a new user it is unread to the
quick test and read to the slow one. -/
theorem brcUnreadtQuick_fresh_zero :
    BrcReachable OneBrc.Valid (freshBrc brcMaxsize (Nat.le_refl _)) ∧
      brcUnreadtQuick (freshBrc brcMaxsize (Nat.le_refl _)) [116, 101, 115, 116] 0 = some true ∧
      (brcGetboard (freshBrc brcMaxsize (Nat.le_refl _)) mixedBrc [116, 101, 115, 116]).map
        (fun brc => (brcUnreadt brc 0).1) = some false :=
  ⟨⟨_, freshBrc_empty, Relation.ReflTransGen.refl⟩, rfl, rfl⟩

end Ytht
