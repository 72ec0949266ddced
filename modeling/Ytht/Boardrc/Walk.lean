import Mathlib.Data.Int.Interval
import Ytht.Boardrc.Store
import Ytht.Lib.Walks

/-!
# Boardrc.Walk

The walks along a store that comes from a file, in which the lengths of the blocks can be
anything.  Here the two loops read only the bytes of the store, and not what else is in its
buffer: a read past the store is a fault, as one before it is.

`brc_putblock` does not go on from a length that is not positive; `brc_getblock` stops only
at one that is zero, and from a negative one it goes back (`lookups_return_iff`).
-/

namespace Ytht

open Bytes Walks

/-- The bytes of the store. -/
def AllBrc.bytes (all : AllBrc) : List UInt8 := all.brcC.take all.size

/-- `brc_init` with the file of a user or a guest, over whatever was in the buffer. -/
def brcInit (all : AllBrc) (guest : Bool) (file : List UInt8) : AllBrc where
  size := (file.take brcMaxsize).length
  changed := false
  maxsize := if guest then brcMaxsizeGuest else brcMaxsize
  brcC := file.take brcMaxsize ++ all.brcC.drop (file.take brcMaxsize).length
  length_brcC := by
    have hle : (file.take brcMaxsize).length ≤ brcMaxsize := List.length_take_le _ _
    rw [List.length_append, List.length_drop, all.length_brcC]
    omega
  size_le := List.length_take_le _ _
  maxsize_le := by
    split
    · decide
    · exact Nat.le_refl _

theorem bytes_brcInit (all : AllBrc) (guest : Bool) (file : List UInt8) :
    (brcInit all guest file).bytes = file.take brcMaxsize := List.take_left

/-! ## The loops -/

/-- One turn of `brc_getblock` in a memory. -/
def brcGetblockStep (mem : List UInt8) (size : Nat) (name : List UInt8) (ptr : Int) :
    Out Int (Option Nat) :=
  if ptr < size then
    match lenAt mem ptr with
    | none => .fault
    | some len =>
        if len = 0 then .stop none
        else if size < ptr + len then .stop none
        else
          match strncmp (brcStrlen - 1) (mem.drop (ptr.toNat + 2)) (name ++ [0]) with
          | none => .fault
          | some true => .stop (some ptr.toNat)
          | some false => .next (ptr + len)
  else .stop none

/-- One turn of `brc_putblock`. -/
def brcPutblockStep (mem : List UInt8) (size maxsize : Nat) (name : List UInt8) :
    Nat × List UInt8 → Out (Nat × List UInt8) (List UInt8)
  | (ptr, out) =>
      if ptr < size then
        match lenAt mem ptr with
        | none => .fault
        | some len =>
            if len ≤ 0 then .stop out
            else if size < ptr + len then .stop out
            else if maxsize < out.length + len then .stop out
            else
              match strncmp (brcStrlen - 1) (mem.drop (ptr + 2)) name with
              | none => .fault
              | some same =>
                  .next (ptr + len.toNat,
                    if same then out else out ++ (mem.drop ptr).take len.toNat)
      else .stop out

/-- The loop of `brc_getblock` in the buffer. -/
theorem run_brcGetblockStep (all : AllBrc) (name : List UInt8) :
    ∀ (fuel : Nat) (ptr : Int),
      run (brcGetblockStep all.brcC all.size name) fuel ptr =
        brcGetblockLoop all name fuel ptr := by
  intro fuel
  induction fuel with
  | zero => exact fun _ => rfl
  | succ fuel ih =>
      intro ptr
      rw [run, brcGetblockStep, brcGetblockLoop]
      by_cases hlt : ptr < all.size
      · rw [if_pos hlt, if_pos hlt]
        cases lenAt all.brcC ptr with
        | none => rfl
        | some len =>
            simp only [Option.bind_eq_bind, Option.bind_some]
            by_cases h0 : len = 0
            · rw [if_pos h0, if_pos h0]
            · rw [if_neg h0, if_neg h0]
              by_cases hend : all.size < ptr + len
              · rw [if_pos hend, if_pos hend]
              · rw [if_neg hend, if_neg hend]
                cases strncmp (brcStrlen - 1) (all.brcC.drop (ptr.toNat + 2)) (name ++ [0]) with
                | none => rfl
                | some same =>
                    cases same with
                    | true => rfl
                    | false => exact ih (ptr + len)
      · rw [if_neg hlt, if_neg hlt]

/-- The loop of `brc_putblock` in the buffer. -/
theorem run_brcPutblockStep (all : AllBrc) (name : List UInt8) :
    ∀ (fuel ptr : Nat) (out : List UInt8),
      run (brcPutblockStep all.brcC all.size all.maxsize name) fuel (ptr, out) =
        brcPutblockLoop all name fuel ptr out := by
  intro fuel
  induction fuel with
  | zero => exact fun _ _ => rfl
  | succ fuel ih =>
      intro ptr out
      rw [run, brcPutblockStep, brcPutblockLoop]
      by_cases hlt : ptr < all.size
      · rw [if_pos hlt, if_pos hlt]
        cases lenAt all.brcC ptr with
        | none => rfl
        | some len =>
            simp only [Option.bind_eq_bind, Option.bind_some]
            by_cases h0 : len ≤ 0
            · rw [if_pos h0, if_pos h0]
            · rw [if_neg h0, if_neg h0]
              by_cases hend : all.size < ptr + len
              · rw [if_pos hend, if_pos hend]
              · rw [if_neg hend, if_neg hend]
                by_cases hmax : all.maxsize < out.length + len
                · rw [if_pos hmax, if_pos hmax]
                · rw [if_neg hmax, if_neg hmax]
                  cases strncmp (brcStrlen - 1) (all.brcC.drop (ptr + 2)) name with
                  | none => rfl
                  | some same => exact ih _ _
      · rw [if_neg hlt, if_neg hlt]

/-! ## What is read -/

/-- More memory changes nothing. -/
theorem strncmp_of_starts {as as' bs : List UInt8} {same : Bool} (hpre : as <+: as') :
    ∀ {n : Nat}, strncmp n as bs = some same → strncmp n as' bs = some same := by
  obtain ⟨rest, rfl⟩ := hpre
  induction as generalizing bs with
  | nil =>
      intro n h
      cases n with
      | zero => simpa [strncmp] using h
      | succ n => simp [strncmp] at h
  | cons a as ih =>
      intro n h
      cases n with
      | zero => simpa [strncmp] using h
      | succ n =>
          cases bs with
          | nil => simp [strncmp] at h
          | cons b bs =>
              rw [strncmp] at h
              rw [List.cons_append, strncmp]
              split
              · next hne => rwa [if_pos hne] at h
              · next heq =>
                  rw [if_neg heq] at h
                  split
                  · next h0 => rwa [if_pos h0] at h
                  · next h0 =>
                      rw [if_neg h0] at h
                      exact ih h

theorem prefix_drop_bytes (all : AllBrc) (k : Nat) : all.bytes.drop k <+: all.brcC.drop k := by
  rw [AllBrc.bytes, List.drop_take]
  exact List.take_prefix _ _

theorem length_bytes_store (all : AllBrc) : all.bytes.length = all.size := by
  rw [AllBrc.bytes, List.length_take, all.length_brcC]
  exact Nat.min_eq_left all.size_le

/-- The length of a block is two bytes. -/
theorem lenAt_eq (mem : List UInt8) (ptr : Int) :
    lenAt mem ptr =
      if 0 ≤ ptr ∧ ptr + 2 ≤ mem.length then
        some (signed 2 (leNat ((mem.drop ptr.toNat).take 2)))
      else none := by
  unfold lenAt readI readU
  by_cases h0 : 0 ≤ ptr
  · rw [if_pos h0, List.length_drop]
    by_cases h2 : ptr + 2 ≤ mem.length
    · rw [if_pos (by omega), if_pos ⟨h0, h2⟩]
      rfl
    · rw [if_neg (by omega), if_neg fun h => h2 h.2]
      rfl
  · rw [if_neg h0, if_neg fun h => h0 h.1]

theorem lenAt_ne_none {mem : List UInt8} {ptr : Int} :
    lenAt mem ptr ≠ none ↔ 0 ≤ ptr ∧ ptr + 2 ≤ mem.length := by
  rw [lenAt_eq]
  split
  · next h => exact iff_of_true (Option.some_ne_none _) h
  · next h => exact iff_of_false (fun hne => hne rfl) h

theorem lenAt_of_bytes {all : AllBrc} {ptr len : Int} (h : lenAt all.bytes ptr = some len) :
    lenAt all.brcC ptr = some len := by
  obtain ⟨h0, h2⟩ := lenAt_ne_none.mp (h ▸ Option.some_ne_none len)
  rw [length_bytes_store] at h2
  have hsize := all.size_le
  have hlen := all.length_brcC
  rw [lenAt_eq, length_bytes_store, if_pos ⟨h0, h2⟩, AllBrc.bytes, List.drop_take,
    List.take_take, Nat.min_eq_left (by omega)] at h
  rw [lenAt_eq, if_pos ⟨h0, by omega⟩, h]

/-- It has 15 bits and a sign. -/
theorem le_of_lenAt {mem : List UInt8} {ptr len : Int} (h : lenAt mem ptr = some len) :
    -2 ^ 15 ≤ len := by
  rw [lenAt_eq] at h
  split at h
  · rw [← Option.some.inj h, signed]
    split <;> omega
  · contradiction

/-! ## The store and its buffer -/

theorem brcGetblockStep_bytes (all : AllBrc) (name : List UInt8) (ptr : Int)
    (h : brcGetblockStep all.bytes all.size name ptr ≠ .fault) :
    brcGetblockStep all.brcC all.size name ptr = brcGetblockStep all.bytes all.size name ptr := by
  unfold brcGetblockStep at h ⊢
  split
  · next hlt =>
      rw [if_pos hlt] at h
      cases hlen : lenAt all.bytes ptr with
      | none => simp [hlen] at h
      | some len =>
          rw [hlen] at h
          rw [lenAt_of_bytes hlen]
          dsimp only at h ⊢
          split
          · rfl
          · next h0 =>
              split
              · rfl
              · next hend =>
                  rw [if_neg h0, if_neg hend] at h
                  cases hcmp : strncmp (brcStrlen - 1) (all.bytes.drop (ptr.toNat + 2)) (name ++ [0]) with
                  | none =>
                      rw [hcmp] at h
                      exact absurd rfl h
                  | some same => rw [strncmp_of_starts (prefix_drop_bytes all _) hcmp]
  · rfl

theorem brcPutblockStep_bytes (all : AllBrc) (name : List UInt8) (s : Nat × List UInt8)
    (h : brcPutblockStep all.bytes all.size all.maxsize name s ≠ .fault) :
    brcPutblockStep all.brcC all.size all.maxsize name s =
      brcPutblockStep all.bytes all.size all.maxsize name s := by
  obtain ⟨ptr, out⟩ := s
  unfold brcPutblockStep at h ⊢
  dsimp only at h ⊢
  split
  · next hlt =>
      rw [if_pos hlt] at h
      cases hlen : lenAt all.bytes ptr with
      | none => simp [hlen] at h
      | some len =>
          rw [hlen] at h
          rw [lenAt_of_bytes hlen]
          dsimp only at h ⊢
          split
          · rfl
          · next h0 =>
              split
              · rfl
              · next hend =>
                  split
                  · rfl
                  · next hmax =>
                      rw [if_neg h0, if_neg hend, if_neg hmax] at h
                      have hblock : (all.bytes.drop ptr).take len.toNat =
                          (all.brcC.drop ptr).take len.toNat := by
                        rw [AllBrc.bytes, List.drop_take, List.take_take,
                          Nat.min_eq_left (by omega)]
                      cases hcmp : strncmp (brcStrlen - 1) (all.bytes.drop (ptr + 2)) name with
                      | none =>
                      rw [hcmp] at h
                      exact absurd rfl h
                      | some same =>
                          rw [strncmp_of_starts (prefix_drop_bytes all _) hcmp, hblock]
  · rfl

/-! ## Look-ups -/

/-- `brc_getblock` returns, and has read nothing but the store. -/
def GetReturns (all : AllBrc) (name : List UInt8) : Prop :=
  Returns (brcGetblockStep all.bytes all.size name) 0

/-- The places in the store that `brc_getblock` comes to. -/
def GetVisits (all : AllBrc) (name : List UInt8) : Int → Prop :=
  Visits (brcGetblockStep all.bytes all.size name) 0

/-- At a place in the store there are a length and, when the block is in the store, a name that
can be told from the other one. -/
structure ReadsInside (all : AllBrc) (name : List UInt8) (ptr : Int) : Prop where
  ge : 0 ≤ ptr
  length : ptr + 2 ≤ all.size
  name : ∀ len, lenAt all.bytes ptr = some len → len ≠ 0 → ptr + len ≤ all.size →
    strncmp (brcStrlen - 1) (all.bytes.drop (ptr.toNat + 2)) name ≠ none

theorem lenAt_bytes_ne_none {all : AllBrc} {ptr : Int} :
    lenAt all.bytes ptr ≠ none ↔ 0 ≤ ptr ∧ ptr + 2 ≤ all.size := by
  rw [lenAt_ne_none, length_bytes_store]

/-- A length that has been read, by what is read behind it. -/
theorem readsInside_iff {all : AllBrc} {name : List UInt8} {ptr len : Int}
    (hlen : lenAt all.bytes ptr = some len) :
    ReadsInside all name ptr ↔ (len ≠ 0 → ptr + len ≤ all.size →
      strncmp (brcStrlen - 1) (all.bytes.drop (ptr.toNat + 2)) name ≠ none) := by
  obtain ⟨hge, hlength⟩ := lenAt_bytes_ne_none.mp (hlen ▸ Option.some_ne_none len)
  constructor
  · exact fun h => h.name len hlen
  · refine fun h => ⟨hge, hlength, fun len' hlen' => ?_⟩
    rw [hlen] at hlen'
    cases hlen'
    exact h

theorem brcGetblockStep_ne_fault {all : AllBrc} {name : List UInt8} {ptr : Int} :
    brcGetblockStep all.bytes all.size name ptr ≠ .fault ↔
      (ptr < all.size → ReadsInside all (name ++ [0]) ptr) := by
  unfold brcGetblockStep
  by_cases hlt : ptr < all.size
  · rw [if_pos hlt]
    cases hlen : lenAt all.bytes ptr with
    | none =>
        refine iff_of_false (fun h => h rfl) fun h => ?_
        exact lenAt_bytes_ne_none.mpr ⟨(h hlt).ge, (h hlt).length⟩ hlen
    | some len =>
        dsimp only
        rw [readsInside_iff hlen]
        by_cases h0 : len = 0
        · simp [h0]
        · rw [if_neg h0]
          by_cases hend : all.size < ptr + len
          · simp [hend]
          · rw [if_neg hend]
            cases hcmp : strncmp (brcStrlen - 1) (all.bytes.drop (ptr.toNat + 2)) (name ++ [0]) with
            | none => exact iff_of_false (fun h => h rfl) fun h => h hlt h0 (by omega) rfl
            | some same => cases same <;> simp
  · simp [hlt]

/-- A place that `brc_getblock` goes on to. -/
theorem brcGetblockStep_next {mem : List UInt8} {size : Nat} {name : List UInt8} {p q : Int}
    (h : Hop (brcGetblockStep mem size name) p q) :
    p < size ∧ ∃ len, lenAt mem p = some len ∧ len ≠ 0 ∧ q ≤ size ∧ q = p + len := by
  unfold Hop brcGetblockStep at h
  split at h
  · next hlt =>
      split at h
      · contradiction
      · next len hlen =>
          split at h
          · contradiction
          · next h0 =>
              split at h
              · contradiction
              · next hend =>
                  split at h
                  · contradiction
                  · contradiction
                  · cases h
                    exact ⟨hlt, len, hlen, h0, by omega, rfl⟩
  · contradiction

/-- There are only so many places. -/
theorem finite_getVisits (all : AllBrc) (name : List UInt8) : {p | GetVisits all name p}.Finite := by
  refine (Set.finite_Icc (-2 ^ 15 : Int) all.size).subset fun p hp => ?_
  induction hp with
  | refl => exact ⟨by decide, Int.natCast_nonneg _⟩
  | tail _ hhop _ =>
      obtain ⟨-, len, hlen, -, hle, rfl⟩ := brcGetblockStep_next hhop
      have hge := (lenAt_ne_none.mp (hlen ▸ Option.some_ne_none len)).1
      have hlow := le_of_lenAt hlen
      exact ⟨by omega, hle⟩

theorem getReturns_iff (all : AllBrc) (name : List UInt8) :
    GetReturns all name ↔
      (∀ p, GetVisits all name p → p < all.size → ReadsInside all (name ++ [0]) p) ∧
        ∀ p, GetVisits all name p →
          ¬ Relation.TransGen (Hop (brcGetblockStep all.bytes all.size name)) p p := by
  rw [GetReturns, returns_iff (finite_getVisits all name)]
  simp only [brcGetblockStep_ne_fault]
  rfl

/-- No length leads back to where it was when none is negative. -/
theorem no_circle {all : AllBrc} {name : List UInt8}
    (h : ∀ p len, GetVisits all name p → lenAt all.bytes p = some len → 0 ≤ len) {p : Int}
    (hp : GetVisits all name p) :
    ¬ Relation.TransGen (Hop (brcGetblockStep all.bytes all.size name)) p p := by
  have hup : ∀ q, Relation.TransGen (Hop (brcGetblockStep all.bytes all.size name)) p q →
      GetVisits all name q ∧ p < q := by
    intro q hq
    induction hq with
    | single hhop =>
        obtain ⟨-, len, hlen, h0, -, rfl⟩ := brcGetblockStep_next hhop
        have hge := h p len hp hlen
        exact ⟨hp.tail hhop, by omega⟩
    | tail _ hhop ih =>
        obtain ⟨-, len, hlen, h0, -, rfl⟩ := brcGetblockStep_next hhop
        have hge := h _ len ih.1 hlen
        exact ⟨ih.1.tail hhop, by have := ih.2; omega⟩
  exact fun hcircle => absurd (hup p hcircle).2 (Int.lt_irrefl p)

/-! ## Updates -/

/-- The length of the block `#INFO` that stays in front of the new block, when its bytes are in
the store. -/
def frontLen (mem : List UInt8) (size : Nat) (brcC : OneBrcC) : Option Nat :=
  if 0 < size then do
    let isInfo ← strcmp brcC.data (infoName ++ [0])
    if isInfo then some 0
    else
      let hasInfo ← strcmp (mem.drop 2) (infoName ++ [0])
      if hasInfo then
        let len ← lenAt mem 0
        if 0 ≤ len ∧ len ≤ size then some len.toNat else none
      else some 0
  else some 0

/-- Where the loop of `brc_putblock` begins. -/
def putStart (all : AllBrc) (brcC : OneBrcC) (len : Nat) : Nat × List UInt8 :=
  (len, all.bytes.take len ++ brcC.bytes)

/-- `brc_putblock` returns, and has read nothing but the store and the new block. -/
def PutReturns (all : AllBrc) (brcC : OneBrcC) : Prop :=
  ∃ len, frontLen all.bytes all.size brcC = some len ∧
    Returns (brcPutblockStep all.bytes all.size all.maxsize brcC.data) (putStart all brcC len)

/-- The first block is `#INFO`, and the new one is not. -/
def KeepsInfo (all : AllBrc) (brcC : OneBrcC) : Prop :=
  0 < all.size ∧ strcmp brcC.data (infoName ++ [0]) = some false ∧
    strcmp (all.bytes.drop 2) (infoName ++ [0]) = some true

/-- What is read in front of the new block is in the store. -/
structure FrontInside (all : AllBrc) (brcC : OneBrcC) : Prop where
  new : 0 < all.size → strcmp brcC.data (infoName ++ [0]) ≠ none
  first : 0 < all.size → strcmp brcC.data (infoName ++ [0]) = some false →
    strcmp (all.bytes.drop 2) (infoName ++ [0]) ≠ none
  length : KeepsInfo all brcC → ∃ len, lenAt all.bytes 0 = some len ∧ 0 ≤ len ∧ len ≤ all.size

theorem frontLen_isSome (all : AllBrc) (brcC : OneBrcC) :
    (∃ len, frontLen all.bytes all.size brcC = some len) ↔ FrontInside all brcC := by
  unfold frontLen
  by_cases hpos : 0 < all.size
  · rw [if_pos hpos]
    cases hnew : strcmp brcC.data (infoName ++ [0]) with
    | none => exact iff_of_false (fun ⟨_, h⟩ => by contradiction) fun h => h.new hpos hnew
    | some isInfo =>
        cases isInfo with
        | true =>
            refine iff_of_true ⟨0, rfl⟩ ⟨fun _ => by simp [hnew], fun _ h => ?_, fun h => ?_⟩
            · simp [hnew] at h
            · simp [KeepsInfo, hnew] at h
        | false =>
            cases hfirst : strcmp (all.bytes.drop 2) (infoName ++ [0]) with
            | none =>
                refine iff_of_false (fun ⟨_, h⟩ => ?_) fun h => h.first hpos hnew hfirst
                simp at h
            | some hasInfo =>
                cases hasInfo with
                | false =>
                    refine iff_of_true ⟨0, by simp⟩
                      ⟨fun _ => by simp [hnew], fun _ _ => by simp [hfirst], fun h => ?_⟩
                    simp [KeepsInfo, hfirst] at h
                | true =>
                    have hkeeps : KeepsInfo all brcC := ⟨hpos, hnew, hfirst⟩
                    cases hlen : lenAt all.bytes 0 with
                    | none =>
                        refine iff_of_false (fun ⟨_, h⟩ => by simp at h) fun h => ?_
                        obtain ⟨len, hsome, -⟩ := h.length hkeeps
                        simp [hlen] at hsome
                    | some len =>
                        by_cases hin : 0 ≤ len ∧ len ≤ all.size
                        · refine iff_of_true ⟨len.toNat, by simp [hin]⟩
                            ⟨fun _ => by simp [hnew], fun _ _ => by simp [hfirst], fun _ => ?_⟩
                          exact ⟨len, hlen, hin⟩
                        · refine iff_of_false (fun ⟨_, h⟩ => by simp [hin] at h) fun h => ?_
                          obtain ⟨len', hsome, hin'⟩ := h.length hkeeps
                          rw [hlen] at hsome
                          cases hsome
                          exact hin hin'
  · rw [if_neg hpos]
    exact iff_of_true ⟨0, rfl⟩ ⟨fun h => absurd h hpos, fun h => absurd h hpos,
      fun h => absurd h.1 hpos⟩

theorem frontLen_le {mem : List UInt8} {size len : Nat} {brcC : OneBrcC}
    (h : frontLen mem size brcC = some len) : len ≤ size := by
  unfold frontLen at h
  simp only [Option.bind_eq_bind] at h
  split at h
  · obtain ⟨isInfo, -, h⟩ := Option.bind_eq_some_iff.mp h
    split at h
    · cases h
      exact Nat.zero_le _
    · obtain ⟨hasInfo, -, h⟩ := Option.bind_eq_some_iff.mp h
      split at h
      · obtain ⟨len', -, h⟩ := Option.bind_eq_some_iff.mp h
        split at h
        · cases h
          omega
        · contradiction
      · cases h
        exact Nat.zero_le _
  · cases h
    exact Nat.zero_le _

/-- At a place there is a length and, when the block is to be moved, its name. -/
structure MovesInside (all : AllBrc) (name : List UInt8) (s : Nat × List UInt8) : Prop where
  length : s.1 + 2 ≤ all.size
  name : ∀ len, lenAt all.bytes s.1 = some len → 0 < len → s.1 + len ≤ all.size →
    s.2.length + len ≤ all.maxsize →
    strncmp (brcStrlen - 1) (all.bytes.drop (s.1 + 2)) name ≠ none

theorem movesInside_iff {all : AllBrc} {name : List UInt8} {s : Nat × List UInt8} {len : Int}
    (hlen : lenAt all.bytes s.1 = some len) :
    MovesInside all name s ↔ (0 < len → s.1 + len ≤ all.size →
      s.2.length + len ≤ all.maxsize →
      strncmp (brcStrlen - 1) (all.bytes.drop (s.1 + 2)) name ≠ none) := by
  obtain ⟨-, hlength⟩ := lenAt_bytes_ne_none.mp (hlen ▸ Option.some_ne_none len)
  constructor
  · exact fun h => h.name len hlen
  · refine fun h => ⟨by omega, fun len' hlen' => ?_⟩
    rw [hlen] at hlen'
    cases hlen'
    exact h

theorem brcPutblockStep_ne_fault {all : AllBrc} {name : List UInt8} {s : Nat × List UInt8} :
    brcPutblockStep all.bytes all.size all.maxsize name s ≠ .fault ↔
      (s.1 < all.size → MovesInside all name s) := by
  obtain ⟨ptr, out⟩ := s
  unfold brcPutblockStep
  dsimp only
  by_cases hlt : ptr < all.size
  · rw [if_pos hlt]
    cases hlen : lenAt all.bytes ptr with
    | none =>
        refine iff_of_false (fun h => h rfl) fun h => ?_
        have hlength := (h hlt).length
        exact lenAt_bytes_ne_none.mpr ⟨Int.natCast_nonneg ptr, by exact_mod_cast hlength⟩ hlen
    | some len =>
        dsimp only
        rw [movesInside_iff hlen]
        by_cases h0 : len ≤ 0
        · simp [h0, Int.not_lt.mpr h0]
        · rw [if_neg h0]
          by_cases hend : all.size < ptr + len
          · simp [hend]
          · rw [if_neg hend]
            by_cases hmax : all.maxsize < out.length + len
            · simp [hmax]
            · rw [if_neg hmax]
              cases hcmp : strncmp (brcStrlen - 1) (all.bytes.drop (ptr + 2)) name with
              | none =>
                  refine iff_of_false (fun h => h rfl) fun h => ?_
                  exact h hlt (by omega) (by omega) (by dsimp only; omega) rfl
              | some same => simp
  · simp [hlt]

/-- `brc_putblock` goes on. -/
theorem brcPutblockStep_lt {mem : List UInt8} {size maxsize : Nat} {name : List UInt8}
    {s t : Nat × List UInt8} (h : Hop (brcPutblockStep mem size maxsize name) s t) :
    s.1 < size ∧ s.1 < t.1 := by
  obtain ⟨ptr, out⟩ := s
  unfold Hop brcPutblockStep at h
  dsimp only at h
  split at h
  · next hlt =>
      split at h
      · contradiction
      · next len hlen =>
          split at h
          · contradiction
          · next h0 =>
              split at h
              · contradiction
              · split at h
                · contradiction
                · split at h
                  · contradiction
                  · cases h
                    exact ⟨hlt, by dsimp only; omega⟩
  · contradiction

theorem putReturns_iff (all : AllBrc) (brcC : OneBrcC) :
    PutReturns all brcC ↔ FrontInside all brcC ∧
      ∀ len, frontLen all.bytes all.size brcC = some len →
        ∀ s, Visits (brcPutblockStep all.bytes all.size all.maxsize brcC.data)
          (putStart all brcC len) s → s.1 < all.size → MovesInside all brcC.data s := by
  have hmeasure : ∀ len, Returns (brcPutblockStep all.bytes all.size all.maxsize brcC.data)
      (putStart all brcC len) ↔ ∀ s, Visits (brcPutblockStep all.bytes all.size all.maxsize brcC.data)
        (putStart all brcC len) s → s.1 < all.size → MovesInside all brcC.data s := by
    intro len
    rw [returns_iff_of_measure (fun s => all.size - s.1) fun s t h => by
      have := brcPutblockStep_lt h
      omega]
    simp only [brcPutblockStep_ne_fault]
  unfold PutReturns
  simp only [hmeasure]
  rw [← frontLen_isSome]
  constructor
  · rintro ⟨len, hfront, hs⟩
    refine ⟨⟨len, hfront⟩, fun len' hfront' => ?_⟩
    rw [hfront] at hfront'
    cases hfront'
    exact hs
  · rintro ⟨⟨len, hfront⟩, hs⟩
    exact ⟨len, hfront, hs len hfront⟩

/-! ## Both -/

/-- What returns in the store returns in its buffer, with the same. -/
theorem GetReturns.buffer {all : AllBrc} {name : List UInt8} (h : GetReturns all name) :
    ∃ fuel r, brcGetblockLoop all name fuel 0 = some r := by
  obtain ⟨fuel, r, hrun⟩ := h
  refine ⟨fuel, r, ?_⟩
  rw [← run_brcGetblockStep]
  exact run_mono (brcGetblockStep_bytes all name) hrun

theorem PutReturns.buffer {all : AllBrc} {brcC : OneBrcC} (h : PutReturns all brcC) :
    ∃ len fuel out, frontLen all.bytes all.size brcC = some len ∧
      brcPutblockLoop all brcC.data fuel len (all.brcC.take len ++ brcC.bytes) = some out := by
  obtain ⟨len, hfront, fuel, out, hrun⟩ := h
  refine ⟨len, fuel, out, hfront, ?_⟩
  have hle := frontLen_le hfront
  have hstart : putStart all brcC len = (len, all.brcC.take len ++ brcC.bytes) := by
    rw [putStart, AllBrc.bytes, List.take_take, Nat.min_eq_left hle]
  rw [hstart] at hrun
  rw [← run_brcPutblockStep]
  exact run_mono (brcPutblockStep_bytes all brcC.data) hrun

/-- A block `a` of four bytes, and a block `b` of -4. -/
def circleFile : List UInt8 := [4, 0, 97, 0, 252, 255, 98, 0]

end Ytht
