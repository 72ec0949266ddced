import Mathlib.Data.List.GetD

/-!
# Article.Dir

Directory files: arrays of `struct fileheader`, one for each article or mail,
and the binary search in them.

`searchBin_hit` and `searchBin_miss` say what a search tells about any array;
on an array sorted by `filetime` it finds what is there (`searchBin_sorted`), or else the place
where it would stand (`searchBin_answer`).
-/

namespace Ytht

/-- `struct fileheader`; the fields that no function here looks into are kept
together by their bytes. -/
structure FileHeader where
  filetime : Int
  thread : Int
  accessed : Nat
  sizebyte : Nat
  rest : List UInt8
  deriving DecidableEq

/-- A record of zero bytes. -/
def zeroHeader : FileHeader := ⟨0, 0, 0, 0, List.replicate 115 0⟩

/-- `((struct fileheader *) ptr)[i]`. -/
def recAt (ptr : List FileHeader) (i : Int) : FileHeader := ptr.getD i.toNat zeroHeader

/-- The records of a file in which `filetime` increases. -/
def SortedByTime (recs : List FileHeader) : Prop :=
  (recs.map FileHeader.filetime).Pairwise (· < ·)

/-- Two records, of times 1 and 2. -/
def twoRecords : List FileHeader :=
  [{ zeroHeader with filetime := 1 }, { zeroHeader with filetime := 2 }]

theorem sorted_twoRecords : SortedByTime twoRecords := by
  unfold SortedByTime
  decide

/-! ## Search_Bin -/

/-- The loop of `Search_Bin`; the fuel exceeds the number of records between
`low` and `high`. -/
def searchBinLoop (ptr : List FileHeader) (key : Int) : Nat → Int → Int → Int
  | 0, low, _ => -(low + 1)
  | fuel + 1, low, high =>
      if low ≤ high then
        let mid := (low + high) / 2
        let totest := recAt ptr mid
        if key = totest.filetime then mid
        else if key < totest.filetime then searchBinLoop ptr key fuel low (mid - 1)
        else searchBinLoop ptr key fuel (mid + 1) high
      else -(low + 1)

/-- `Search_Bin`. -/
def searchBin (ptr : List FileHeader) (key start stop : Int) : Int :=
  searchBinLoop ptr key ((stop - start + 1).toNat + 1) start stop

/-- A search ends at a record of the range with the key, or with a negative
number. -/
theorem searchBinLoop_hit (ptr : List FileHeader) (key : Int) {fuel : Nat} {low high : Int}
    (hlow : 0 ≤ low) :
    searchBinLoop ptr key fuel low high < 0 ∨
      (low ≤ searchBinLoop ptr key fuel low high ∧ searchBinLoop ptr key fuel low high ≤ high ∧
        (recAt ptr (searchBinLoop ptr key fuel low high)).filetime = key) := by
  induction fuel generalizing low high with
  | zero =>
      rw [searchBinLoop]
      omega
  | succ fuel ih =>
      simp only [searchBinLoop]
      split
      · split
        · next hkey =>
          exact Or.inr ⟨by omega, by omega, hkey.symm⟩
        · split
          · cases @ih low ((low + high) / 2 - 1) hlow with
            | inl h => exact Or.inl h
            | inr h => exact Or.inr ⟨h.1, by omega, h.2.2⟩
          · cases @ih ((low + high) / 2 + 1) high (by omega) with
            | inl h => exact Or.inl h
            | inr h => exact Or.inr ⟨by omega, h.2⟩
      · omega

/-- **What a search returns that is not negative** is the index of a record
with the key. -/
theorem searchBin_hit {ptr : List FileHeader} {key start stop : Int} (hstart : 0 ≤ start)
    (h : 0 ≤ searchBin ptr key start stop) :
    start ≤ searchBin ptr key start stop ∧ searchBin ptr key start stop ≤ stop ∧
      (recAt ptr (searchBin ptr key start stop)).filetime = key := by
  cases @searchBinLoop_hit ptr key ((stop - start + 1).toNat + 1) start stop hstart with
  | inl hneg =>
      rw [searchBin] at h
      omega
  | inr hhit => exact hhit

/-- Between two indexes the filetimes increase. -/
def SortedBetween (ptr : List FileHeader) (start stop : Int) : Prop :=
  ∀ i j, start ≤ i → i < j → j ≤ stop → (recAt ptr i).filetime < (recAt ptr j).filetime

/-- The loop keeps smaller records on the left of `low` and larger ones on the
right of `high`, so it ends where the key would have to be. -/
theorem searchBinLoop_miss {ptr : List FileHeader} {key start stop : Int} {fuel : Nat}
    {low high : Int} (hs : SortedBetween ptr start stop) (hlow : start ≤ low) (hhigh : high ≤ stop)
    (hgap : low ≤ high + 1) (hpos : 0 ≤ low) (hfuel : high - low + 1 < fuel)
    (hl : ∀ i, start ≤ i → i < low → (recAt ptr i).filetime < key)
    (hr : ∀ i, high < i → i ≤ stop → key < (recAt ptr i).filetime)
    (hneg : searchBinLoop ptr key fuel low high < 0) :
    ∃ m, searchBinLoop ptr key fuel low high = -(m + 1) ∧ start ≤ m ∧ m ≤ stop + 1 ∧
      (∀ i, start ≤ i → i < m → (recAt ptr i).filetime < key) ∧
      ∀ i, m ≤ i → i ≤ stop → key < (recAt ptr i).filetime := by
  induction fuel generalizing low high with
  | zero => omega
  | succ fuel ih =>
      simp only [searchBinLoop] at hneg ⊢
      split at hneg
      · next hle =>
        rw [if_pos hle]
        split at hneg
        · omega
        · next hne =>
          rw [if_neg hne]
          split at hneg
          · next hlt =>
            rw [if_pos hlt]
            refine ih hlow (by omega) (by omega) hpos (by omega) hl (fun i hi hi' => ?_) hneg
            rcases Int.lt_or_le high i with hhi | hhi
            · exact hr i hhi hi'
            · rcases Int.lt_or_eq_of_le (show (low + high) / 2 ≤ i by omega) with hm | rfl
              · have := hs ((low + high) / 2) i (by omega) hm hi'
                omega
              · exact hlt
          · next hge =>
            rw [if_neg hge]
            refine ih (by omega) hhigh (by omega) (by omega) (by omega) (fun i hi hi' => ?_) hr hneg
            rcases Int.lt_or_le i low with hlo | hlo
            · exact hl i hi hlo
            · rcases Int.lt_or_eq_of_le (show i ≤ (low + high) / 2 by omega) with hm | rfl
              · have := hs i ((low + high) / 2) hi hm (by omega)
                omega
              · omega
      · next hgt =>
        rw [if_neg hgt]
        exact ⟨low, rfl, hlow, by omega, hl, fun i hi hi' => hr i (by omega) hi'⟩

/-- **What a negative result says** about a sorted range: `-(m + 1)`, where the
records before `m` are smaller than the key and those from `m` on larger. -/
theorem searchBin_miss {ptr : List FileHeader} {key start stop : Int}
    (hs : SortedBetween ptr start stop) (hstart : 0 ≤ start) (hrange : start ≤ stop + 1)
    (hneg : searchBin ptr key start stop < 0) :
    ∃ m, searchBin ptr key start stop = -(m + 1) ∧ start ≤ m ∧ m ≤ stop + 1 ∧
      (∀ i, start ≤ i → i < m → (recAt ptr i).filetime < key) ∧
      ∀ i, m ≤ i → i ≤ stop → key < (recAt ptr i).filetime :=
  searchBinLoop_miss hs (Int.le_refl _) (Int.le_refl _) (by omega) hstart (by omega)
    (fun i hi hi' => by omega) (fun i hi hi' => by omega) hneg

/-- In a sorted range the record with the key is found. -/
theorem searchBin_sorted {ptr : List FileHeader} {key start stop i : Int}
    (hs : SortedBetween ptr start stop) (hstart : 0 ≤ start) (hi : start ≤ i) (hi' : i ≤ stop)
    (hkey : (recAt ptr i).filetime = key) : searchBin ptr key start stop = i := by
  rcases Int.lt_or_le (searchBin ptr key start stop) 0 with hneg | hpos
  · obtain ⟨m, -, -, -, hl, hr⟩ := searchBin_miss hs hstart (by omega) hneg
    rcases Int.lt_or_le i m with hm | hm
    · have := hl i hi hm
      omega
    · have := hr i hm hi'
      omega
  · obtain ⟨hlo, hhi, hk⟩ := searchBin_hit hstart hpos
    rcases Int.lt_trichotomy (searchBin ptr key start stop) i with hlt | heq | hgt
    · have := hs _ _ hlo hlt hi'
      omega
    · exact heq
    · have := hs _ _ hi hgt hhi
      omega

/-! ## Records by index -/

theorem recAt_natCast (ptr : List FileHeader) (i : Nat) : recAt ptr i = ptr.getD i zeroHeader := rfl

theorem recAt_eq_getElem {ptr : List FileHeader} {i : Nat} (h : i < ptr.length) :
    recAt ptr i = ptr[i] := by
  rw [recAt_natCast, List.getD_eq_getElem _ _ h]

theorem SortedByTime.between {recs : List FileHeader} (h : SortedByTime recs) {start stop : Int}
    (hstart : 0 ≤ start) (hstop : stop < recs.length) : SortedBetween recs start stop := by
  intro i j hi hij hj
  obtain ⟨i, rfl⟩ := Int.eq_ofNat_of_zero_le (show 0 ≤ i by omega)
  obtain ⟨j, rfl⟩ := Int.eq_ofNat_of_zero_le (show 0 ≤ j by omega)
  rw [recAt_eq_getElem (show i < recs.length by omega), recAt_eq_getElem (show j < recs.length by omega)]
  have hlt := List.pairwise_iff_getElem.mp h i j (by simp; omega) (by simp; omega) (by omega)
  simpa using hlt

/-- A filetime names one record of a sorted file. -/
theorem SortedByTime.index_unique {recs : List FileHeader} (h : SortedByTime recs) {i j : Nat}
    (hi : i < recs.length) (hj : j < recs.length)
    (hkey : (recAt recs i).filetime = (recAt recs j).filetime) : i = j := by
  have hs := h.between (Int.le_refl 0) (show (recs.length : Int) - 1 < recs.length by omega)
  rcases Nat.lt_trichotomy i j with hlt | heq | hgt
  · have := hs i j (by omega) (by omega) (by omega)
    omega
  · exact heq
  · have := hs j i (by omega) (by omega) (by omega)
    omega

/-! ## What a search answers -/

/-- The first record of the range with a larger filetime, or the place behind the range when there
is none. -/
def FirstLarger (ptr : List FileHeader) (key start stop m : Int) : Prop :=
  (∀ i, start ≤ i → i ≤ stop → i < m → (recAt ptr i).filetime ≤ key) ∧
    (start ≤ m ∧ m ≤ stop ∧ key < (recAt ptr m).filetime ∨ m = stop + 1)

/-- **`Search_Bin`** answers for every range of a sorted array, be it empty: the record with the key,
or where it would stand.  A mapped file has fewer than `2 ^ 31` bytes, so `low + high` is an `int`. -/
theorem searchBin_answer {ptr : List FileHeader} (hs : SortedByTime ptr) (key : Int)
    {start stop : Int} (hstart : 0 ≤ start) (hrange : start ≤ stop + 1) (hstop : stop < ptr.length) :
    (∀ i, start ≤ i → i ≤ stop → (recAt ptr i).filetime = key →
      searchBin ptr key start stop = i) ∧
    ((∀ i, start ≤ i → i ≤ stop → (recAt ptr i).filetime ≠ key) →
      ∃ m, searchBin ptr key start stop = -(m + 1) ∧ FirstLarger ptr key start stop m) := by
  have hbetween := hs.between hstart hstop
  refine ⟨fun i hi hi' hkey => searchBin_sorted hbetween hstart hi hi' hkey, fun hno => ?_⟩
  have hneg : searchBin ptr key start stop < 0 := by
    rcases Int.lt_or_le (searchBin ptr key start stop) 0 with hneg | hpos
    · exact hneg
    · obtain ⟨hlo, hhi, hkey⟩ := searchBin_hit hstart hpos
      exact absurd hkey (hno _ hlo hhi)
  obtain ⟨m, hm, hlo, hhi, hbelow, habove⟩ := searchBin_miss hbetween hstart hrange hneg
  refine ⟨m, hm, fun i hi _ him => Int.le_of_lt (hbelow i hi him), ?_⟩
  rcases Int.lt_or_eq_of_le hhi with hlt | heq
  · have hin : m ≤ stop := by omega
    exact Or.inl ⟨hlo, hin, habove m (Int.le_refl m) hin⟩
  · exact Or.inr heq

/-- The second record, and the empty range before both. -/
theorem searchBin_answer_twoRecords : searchBin twoRecords 2 0 1 = 1 ∧
    ∃ m, searchBin twoRecords 1 0 (-1) = -(m + 1) ∧ FirstLarger twoRecords 1 0 (-1) m := by
  have hs := sorted_twoRecords
  exact ⟨(searchBin_answer hs 2 (by decide) (by decide) (by decide)).1 1 (by decide) (by decide) rfl,
    (searchBin_answer hs 1 (by decide) (by decide) (by decide)).2 fun i hi hi' => by omega⟩

end Ytht
