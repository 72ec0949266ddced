import Ytht.Boardrc.Marks

/-!
# Boardrc.Update

What an update of one board does to the marks of the others.  `brc_putblock`
copies the old blocks behind the new one and stops at the first for which there
is no room, and it asks for room before it notices that a block is the old copy
of the one being put.  So in a nearly full store the old copy can end the copy,
and the blocks behind it are lost although they would fit
(`brcPutblock_keeps_iff`, `brcPutblock_loses_last`).
-/

namespace Ytht

open Bytes

/-- Looking a name up in a store of blocks of distinct names. -/
theorem AllBrc.Holds.brcBlock_eq_some {all : AllBrc} {bs : List Block} (h : all.Holds bs)
    (hnd : (bs.map Block.key).Nodup) {name : List UInt8} (hname : 0 ∉ name) {bytes : List UInt8} :
    brcBlock all name = some bytes ↔
      ∃ x ∈ bs, x.key = name.take (brcStrlen - 1) ∧ x.bytes = bytes := by
  rw [brcBlock_holds h hname, Option.map_eq_some_iff]
  constructor
  · rintro ⟨x, hfind, hbytes⟩
    obtain ⟨hx, hkey⟩ := (Recency.find?_eq_some_iff hnd).mp hfind
    exact ⟨x, hx, hkey, hbytes⟩
  · rintro ⟨x, hx, hkey, hbytes⟩
    exact ⟨x, (Recency.find?_eq_some_iff hnd).mpr ⟨hx, hkey⟩, hbytes⟩

/-- **What an update keeps**: when the new block and all others fit together,
each other block is still there, byte for byte, exactly when the old copy of
the block is the oldest of all or still has room behind the new one. -/
theorem brcPutblock_keeps_iff {all : AllBrc} (h : BrcReachable (fun _ => True) all) :
    ∃ bs, all.Holds bs ∧ ∀ b : Block,
      b.len + Recency.total Block.len (Recency.others Block.key b.key bs) ≤ all.maxsize →
      ∃ all', brcPutblock all b.toC = some all' ∧
        (((∀ name bytes, 0 ∉ name → name.take (brcStrlen - 1) ≠ b.key →
            brcBlock all name = some bytes → brcBlock all' name = some bytes) ∧
          brcBlock all' b.key = some b.bytes) ↔
        ∀ pre old post, bs = pre ++ old :: post → old.key = b.key →
          post = [] ∨ b.len + Recency.total Block.len pre + old.len ≤ all.maxsize) := by
  obtain ⟨bs, hinv⟩ := h.inv
  refine ⟨bs, hinv.holds, ?_⟩
  intro b hfit
  obtain ⟨all', hput, -, hholds⟩ := brcPutblock_holds hinv.holds b
  have hshape := Recency.put_shape Block.len all.maxsize b hinv.shape
  have hold := hinv.shape.nodup
  have hself : brcBlock all' b.key = some b.bytes :=
    (hholds.brcBlock_eq_some hshape.nodup b.key_nz).mpr
      ⟨b, Recency.mem_put_self _ _ _ _, b.take_key.symm, rfl⟩
  refine ⟨all', hput, ?_⟩
  rw [← Recency.mem_put_iff hinv.shape hfit]
  constructor
  · rintro ⟨hkeep, -⟩ x hx hxb
    have hthere := hkeep x.key x.bytes x.key_nz (by rwa [x.take_key])
      ((hinv.holds.brcBlock_eq_some hold x.key_nz).mpr ⟨x, hx, x.take_key.symm, rfl⟩)
    obtain ⟨y, hy, hykey, -⟩ := (hholds.brcBlock_eq_some hshape.nodup x.key_nz).mp hthere
    rw [x.take_key] at hykey
    rcases Recency.mem_of_mem_put hy with rfl | hybs
    · exact absurd hykey.symm hxb
    · rwa [List.inj_on_of_nodup_map hold hybs hx hykey] at hy
  · intro hkeep
    refine ⟨?_, hself⟩
    intro name bytes hz hne hbytes
    obtain ⟨x, hx, hkey, hxbytes⟩ := (hinv.holds.brcBlock_eq_some hold hz).mp hbytes
    exact (hholds.brcBlock_eq_some hshape.nodup hz).mpr
      ⟨x, hkeep x hx (by rwa [hkey]), hkey, hxbytes⟩

theorem brcPutblock_keeps_iff_fresh :
    ∃ bs, (freshBrc brcMaxsize (Nat.le_refl _)).Holds bs ∧ ∀ b : Block,
      b.len + Recency.total Block.len (Recency.others Block.key b.key bs) ≤ brcMaxsize →
      ∃ all', brcPutblock (freshBrc brcMaxsize (Nat.le_refl _)) b.toC = some all' ∧
        (((∀ name bytes, 0 ∉ name → name.take (brcStrlen - 1) ≠ b.key →
            brcBlock (freshBrc brcMaxsize (Nat.le_refl _)) name = some bytes →
            brcBlock all' name = some bytes) ∧
          brcBlock all' b.key = some b.bytes) ↔
        ∀ pre old post, bs = pre ++ old :: post → old.key = b.key →
          post = [] ∨ b.len + Recency.total Block.len pre + old.len ≤ brcMaxsize) :=
  brcPutblock_keeps_iff ⟨_, freshBrc_empty, Relation.ReflTransGen.refl⟩

/-! ## A nearly full store -/

/-- Any records of distinct boards that fit together make a reachable store. -/
theorem BrcReachable.of_fits {P : OneBrc → Prop} {maxsize : Nat}
    (hmax : maxsize = brcMaxsize ∨ maxsize = brcMaxsizeGuest) (brcs : List OneBrc)
    (hrec : ∀ brc ∈ brcs, P brc ∧ brc.changed = true ∧ brc.board.bytes ≠ infoName)
    (hnd : (brcs.map fun brc => brc.board.bytes).Nodup)
    (hfit : Recency.total Block.len (brcs.map fun brc => blockOf (shorterBrc brc)) ≤ maxsize) :
    ∃ all, BrcReachable P all ∧ all.maxsize = maxsize ∧
      all.Holds (brcs.map fun brc => blockOf (shorterBrc brc)) := by
  induction brcs with
  | nil =>
      have hle : maxsize ≤ brcMaxsize := by
        rcases hmax with rfl | rfl <;> decide
      exact ⟨freshBrc maxsize hle, ⟨_, ⟨rfl, hmax⟩, Relation.ReflTransGen.refl⟩, rfl, rfl⟩
  | cons brc brcs ih =>
      rw [List.map_cons, List.nodup_cons] at hnd
      rw [List.map_cons, Recency.total_cons] at hfit
      obtain ⟨all, ⟨all0, hempty, hrun⟩, rfl, hholds⟩ :=
        ih (fun x hx => hrec x (List.mem_cons_of_mem _ hx)) hnd.2 (by omega)
      obtain ⟨hp, hch, -⟩ := hrec brc List.mem_cons_self
      obtain ⟨all', hput, hmax', hholds'⟩ := brcPutboard_holds hholds hch
      refine ⟨all', ⟨all0, hempty, hrun.tail (BrcStep.putboard _ _ hp hput)⟩, hmax', ?_⟩
      rw [Recency.put_unpinned, Recency.keep_fresh ?_ hfit] at hholds'
      · exact hholds'
      · intro x hx hkey
        obtain ⟨old, hold, rfl⟩ := List.mem_map.mp hx
        have hsame : old.board.bytes = brc.board.bytes := hkey
        exact hnd.1 (hsame ▸ List.mem_map_of_mem hold)
      · intro x hx
        obtain ⟨old, hold, rfl⟩ := List.mem_map.mp hx
        exact (hrec old (List.mem_cons_of_mem _ hold)).2.2

/-- The `i`-th of many boards with a name of full length. -/
def longBoard (i : Nat) : CStr (brcStrlen - 1) where
  bytes := UInt8.ofNat (65 + i / 26 % 26) :: UInt8.ofNat (65 + i % 26) :: List.replicate 12 120
  nz := by
    have hletter : ∀ k < 26, (0 : UInt8) ≠ UInt8.ofNat (65 + k) := by decide
    simp only [List.mem_cons, List.mem_replicate, not_or]
    exact ⟨hletter _ (Nat.mod_lt _ (by decide)), hletter _ (Nat.mod_lt _ (by decide)), by decide⟩
  le := by simp

theorem length_longBoard (i : Nat) : (longBoard i).bytes.length = 14 := rfl

theorem longBoard_inj {i j : Nat} (hi : i < 676) (hj : j < 676)
    (h : (longBoard i).bytes = (longBoard j).bytes) : i = j := by
  have hletter : ∀ k < 26, ∀ l < 26, UInt8.ofNat (65 + k) = UInt8.ofNat (65 + l) → k = l := by
    decide
  simp only [longBoard, List.cons.injEq] at h
  have hhigh := hletter _ (Nat.mod_lt _ (by decide)) _ (Nat.mod_lt _ (by decide)) h.1
  have hlow := hletter _ (Nat.mod_lt _ (by decide)) _ (Nat.mod_lt _ (by decide)) h.2.1
  omega

/-- A record of one read post. -/
def shortBrc (board : CStr (brcStrlen - 1)) (notetime : Int) : OneBrc where
  cur := 0
  changed := true
  board := board
  list := [2]
  num_le := by decide
  notetime := notetime

theorem len_shortBrc (board : CStr (brcStrlen - 1)) :
    (blockOf (shorterBrc (shortBrc board 1))).len = board.bytes.length + 12 ∧
      (blockOf (shorterBrc (shortBrc board 0))).len = board.bytes.length + 8 := by
  have h1 : (compressBody [2] 1).length = 9 := rfl
  have h0 : (compressBody [2] 0).length = 5 := rfl
  constructor
  · change 3 + board.bytes.length + (compressBody [2] 1).length = _
    omega
  · change 3 + board.bytes.length + (compressBody [2] 0).length = _
    omega

/-- The board `z`, the one read longest ago. -/
def lastBoard : CStr (brcStrlen - 1) := ⟨[122], by decide, by decide⟩

/-- The blocks of 392 boards. -/
def longBlocks : List Block :=
  (List.range 392).map fun i => blockOf (shorterBrc (shortBrc (longBoard i) 1))

/-- The block that is put a second time. -/
def againBlock : Block := blockOf (shorterBrc (shortBrc (longBoard 392) 1))

def lastBlock : Block := blockOf (shorterBrc (shortBrc lastBoard 0))

/-- The records of a guest who has read many boards, newest first. -/
def fullBrcs : List OneBrc :=
  (List.range 393).map (fun i => shortBrc (longBoard i) 1) ++ [shortBrc lastBoard 0]

theorem fullBrcs_blocks : (fullBrcs.map fun brc => blockOf (shorterBrc brc)) =
    longBlocks ++ [againBlock, lastBlock] := by
  rw [fullBrcs, List.range_succ]
  simp only [List.map_append, List.map_map, List.append_assoc]
  rfl

theorem longBlocks_key {x : Block} (hx : x ∈ longBlocks) :
    ∃ i < 392, x.key = (longBoard i).bytes := by
  obtain ⟨i, hi, rfl⟩ := List.mem_map.mp hx
  exact ⟨i, List.mem_range.mp hi, rfl⟩

theorem total_longBlocks : Recency.total Block.len longBlocks = 392 * 26 := by
  have hlen : longBlocks.length = 392 := by simp [longBlocks]
  rw [← hlen]
  refine Recency.total_eq_mul Block.len ?_
  intro x hx
  obtain ⟨i, -, rfl⟩ := List.mem_map.mp hx
  exact (len_shortBrc (longBoard i)).1

theorem len_againBlock : againBlock.len = 26 := (len_shortBrc _).1

theorem len_lastBlock : lastBlock.len = 9 := (len_shortBrc _).2

theorem fullBrcs_nodup : (fullBrcs.map fun brc => brc.board.bytes).Nodup := by
  have hboards : (fullBrcs.map fun brc => brc.board.bytes) =
      (List.range 393).map (fun i => (longBoard i).bytes) ++ [lastBoard.bytes] := by
    rw [fullBrcs, List.map_append, List.map_map]
    rfl
  rw [hboards, List.nodup_append]
  refine ⟨?_, List.nodup_singleton _, ?_⟩
  · refine List.Nodup.map_on ?_ List.nodup_range
    intro i hi j hj h
    rw [List.mem_range] at hi hj
    exact longBoard_inj (by omega) (by omega) h
  · intro a ha c hc
    obtain ⟨i, -, rfl⟩ := List.mem_map.mp ha
    rw [List.mem_singleton.mp hc]
    exact fun h => absurd (congrArg List.length h) (by simp [longBoard, lastBoard])

theorem longBlocks_other {x : Block} (hx : x ∈ longBlocks) :
    x.key ≠ againBlock.key ∧ x.key ≠ lastBlock.key ∧ x.key ≠ infoName := by
  obtain ⟨i, hi, hkey⟩ := longBlocks_key hx
  rw [hkey]
  refine ⟨fun h => ?_, fun h => ?_, fun h => ?_⟩
  · exact absurd (@longBoard_inj i 392 (by omega) (by decide) h) (by omega)
  · exact absurd (congrArg List.length h) (by rw [length_longBoard]; decide)
  · exact absurd (congrArg List.length h) (by rw [length_longBoard]; decide)

/-- The put of the last block but one, in a store of the guest's size. -/
theorem put_againBlock :
    Recency.put Block.key Block.len infoName brcMaxsizeGuest againBlock
      (longBlocks ++ [againBlock, lastBlock]) = againBlock :: longBlocks := by
  have hguest : brcMaxsizeGuest = 10240 := rfl
  have hlong := total_longBlocks
  have hagain := len_againBlock
  rw [Recency.put_unpinned,
    Recency.keep_append_stop (fun y hy => (longBlocks_other hy).1) (by omega) (by omega)]
  intro x hx
  rw [List.mem_append, List.mem_cons, List.mem_singleton] at hx
  rcases hx with hx | rfl | rfl
  · exact (longBlocks_other hx).2.2
  · decide
  · decide

/-- In a nearly full store of a guest, the board put again drives out the one
read longest ago. -/
theorem brcPutblock_loses_last :
    ∃ all, BrcReachable (fun _ => True) all ∧ all.maxsize = brcMaxsizeGuest ∧
      all.Holds (longBlocks ++ [againBlock, lastBlock]) ∧
      againBlock.len + Recency.total Block.len
        (Recency.others Block.key againBlock.key (longBlocks ++ [againBlock, lastBlock])) ≤
          all.maxsize ∧
      brcBlock all lastBlock.key = some lastBlock.bytes ∧
      ∃ all', brcPutblock all againBlock.toC = some all' ∧ brcBlock all' lastBlock.key = none := by
  have hguest : brcMaxsizeGuest = 10240 := rfl
  have hlong := total_longBlocks
  have hagain := len_againBlock
  have hlast := len_lastBlock
  have hne : againBlock.key ≠ lastBlock.key := by decide
  have hrec : ∀ brc ∈ fullBrcs, True ∧ brc.changed = true ∧ brc.board.bytes ≠ infoName := by
    intro brc hbrc
    rcases List.mem_append.mp hbrc with h | h
    · obtain ⟨i, -, rfl⟩ := List.mem_map.mp h
      refine ⟨trivial, rfl, fun h => absurd (congrArg List.length h) ?_⟩
      rw [shortBrc, length_longBoard]
      decide
    · rw [List.mem_singleton.mp h]
      exact ⟨trivial, rfl, by decide⟩
  obtain ⟨all, hreach, hmax, hholds⟩ := BrcReachable.of_fits (Or.inr rfl) fullBrcs hrec
    fullBrcs_nodup (by
      rw [fullBrcs_blocks]
      simp only [Recency.total_append, Recency.total_cons, Recency.total_nil]
      omega)
  rw [fullBrcs_blocks] at hholds
  obtain ⟨all', hput, -, hholds'⟩ := brcPutblock_holds hholds againBlock
  rw [hmax, put_againBlock] at hholds'
  refine ⟨all, hreach, hmax, hholds, ?_, ?_, all', hput, ?_⟩
  · have hothers : Recency.others Block.key againBlock.key
        (longBlocks ++ [againBlock, lastBlock]) = longBlocks ++ [lastBlock] := by
      rw [Recency.others, List.filter_append,
        List.filter_eq_self.mpr (fun x hx => by simpa using (longBlocks_other hx).1)]
      simp [hne.symm]
    rw [hothers, Recency.total_append, Recency.total_cons, Recency.total_nil]
    omega
  · rw [brcBlock_holds hholds lastBlock.key_nz, List.find?_append,
      List.find?_eq_none.mpr ?_]
    · rw [Option.none_or, List.find?_cons_of_neg (by rwa [Block.named_key]),
        List.find?_cons_of_pos (by rw [Block.named_key])]
      rfl
    · intro x hx
      rw [Block.named_key]
      exact (longBlocks_other hx).2.1
  · rw [brcBlock_holds hholds' lastBlock.key_nz, List.find?_eq_none.mpr ?_]
    · rfl
    · intro x hx
      rw [Block.named_key]
      rcases List.mem_cons.mp hx with rfl | hx
      · exact hne
      · exact (longBlocks_other hx).2.1

end Ytht
