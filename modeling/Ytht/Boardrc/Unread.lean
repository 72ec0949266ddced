import Mathlib.Data.Set.Insert
import Ytht.Boardrc.Record

/-!
# Boardrc.Unread

What the read marks of a board mean: the set of the times a record calls
unread.  The set is a function of the list alone, so the cursor `brc_locate`
remembers never shows; marking one time read takes that time out of the set,
and clearing up to a time leaves the newer times.  A full list forgets its
oldest entry when it takes a new one, and the times that entry stood for are
read from then on.
-/

namespace Ytht

/-- The times `brc_unreadt` calls unread. -/
def unreadSet (brc : OneBrc) : Set Int := {u | (brcUnreadt brc u).1 = true}

theorem mem_unreadSet {brc : OneBrc} (hs : brc.list.Pairwise (· > ·)) (hne : brc.list ≠ [])
    (u : Int) : u ∈ unreadSet brc ↔ UnreadIn brc.list u :=
  brcUnreadt_iff hs hne u

/-! ## Cutting a list off -/

theorem pairwise_getLast {list : List Int} (hs : list.Pairwise (· > ·)) {last : Int}
    (hlast : list.getLast? = some last) : ∀ x ∈ list, last ≤ x := by
  obtain ⟨before, rfl⟩ := List.getLast?_eq_some_iff.mp hlast
  intro x hx
  rcases List.mem_append.mp hx with hx | hx
  · have := (List.pairwise_append.mp hs).2.2 x hx last (List.mem_singleton_self last)
    omega
  · rw [List.mem_singleton.mp hx]

/-- A list cut off says as much as before about the times after its new last
entry, and calls the others read. -/
theorem unreadIn_take {list : List Int} (hs : list.Pairwise (· > ·)) {n : Nat} {last : Int}
    (hlast : (list.take n).getLast? = some last) (u : Int) :
    UnreadIn (list.take n) u ↔ UnreadIn list u ∧ last < u := by
  have hmem : last ∈ list.take n := List.mem_of_getLast? hlast
  have hle := pairwise_getLast (hs.sublist (List.take_sublist n list)) hlast
  constructor
  · rintro ⟨hnot, x, hx, hxu⟩
    have hlt : last < u := Int.lt_of_le_of_lt (hle x hx) hxu
    refine ⟨⟨?_, x, List.mem_of_mem_take hx, hxu⟩, hlt⟩
    intro hu
    rw [← List.take_append_drop n list] at hs hu
    rcases List.mem_append.mp hu with hu | hu
    · exact hnot hu
    · have := (List.pairwise_append.mp hs).2.2 last hmem u hu
      omega
  · rintro ⟨⟨hnot, _⟩, hlt⟩
    exact ⟨fun hu => hnot (List.mem_of_mem_take hu), last, hmem, hlt⟩

theorem length_insertAt (list : List Int) (t : Int) (n : Nat) :
    (list.take n ++ t :: list.drop n).length = list.length + 1 := by
  simp only [List.length_append, List.length_take, List.length_cons, List.length_drop]
  omega

/-- An unread time put at its place is the only one that becomes read. -/
theorem unreadIn_insertAt {list : List Int} {t : Int} (ht : UnreadIn list t) (n : Nat) (u : Int) :
    UnreadIn (list.take n ++ t :: list.drop n) u ↔ UnreadIn list u ∧ u ≠ t := by
  have hmem : ∀ x, x ∈ list.take n ++ t :: list.drop n ↔ x = t ∨ x ∈ list := by
    intro x
    conv_rhs => rw [← List.take_append_drop n list]
    simp only [List.mem_append, List.mem_cons]
    exact or_left_comm
  obtain ⟨-, oldest, hold, hlt⟩ := ht
  unfold UnreadIn
  rw [hmem, not_or]
  constructor
  · rintro ⟨⟨hne, hnot⟩, x, hx, hxu⟩
    rcases (hmem x).mp hx with rfl | hx
    · exact ⟨⟨hnot, oldest, hold, Int.lt_trans hlt hxu⟩, hne⟩
    · exact ⟨⟨hnot, x, hx, hxu⟩, hne⟩
  · rintro ⟨⟨hnot, x, hx, hxu⟩, hne⟩
    exact ⟨⟨hne, hnot⟩, x, (hmem x).mpr (Or.inr hx), hxu⟩

/-! ## brc_addlistt -/

/-- `brc_addlistt` leaves the list of a read time alone, and puts an unread one
at its place, keeping the newest `BRC_MAXNUM` entries. -/
theorem brcAddlistt_list {brc : OneBrc} (hs : brc.list.Pairwise (· > ·)) (hne : brc.list ≠ [])
    (t : Int) :
    (¬UnreadIn brc.list t ∧ (brcAddlistt brc t).list = brc.list) ∨
      ∃ r, UnreadIn brc.list t ∧ Located brc.list t r ∧ r.1 = false ∧
        (brcAddlistt brc t).list =
          (brc.list.take r.2 ++ t :: brc.list.drop r.2).take brcMaxnum := by
  obtain ⟨r, hloc, heq⟩ := brcLocate_located hs t
  have hiff := brcUnreadt_iff hs hne t
  unfold brcAddlistt
  simp only [brcUnreadt_record heq]
  by_cases hu : (brcUnreadt brc t).1 = true
  · right
    obtain ⟨hnot, hold⟩ := hiff.mp hu
    have hr : r.1 = false := by
      rw [← Bool.not_eq_true, hloc.found_iff]
      exact hnot
    have hlt := (hloc.lt_iff hr).mpr hold
    have hle : brc.num ≤ brcMaxnum := brc.num_le
    refine ⟨r, ⟨hnot, hold⟩, hloc, hr, ?_⟩
    rw [if_pos hu, brcInsert, if_neg (by simp only [OneBrc.num]; split <;> omega)]
    dsimp only [OneBrc.num] at hle ⊢
    split
    · have hlen := length_insertAt brc.list t r.2
      have hroom : brc.list.length + 1 ≤ brcMaxnum := by omega
      rw [List.take_of_length_le (Nat.le_of_eq hlen),
        List.take_of_length_le (Nat.le_trans (Nat.le_of_eq hlen) hroom)]
    · rw [Nat.le_antisymm hle (by omega)]
  · left
    rw [if_neg hu]
    exact ⟨fun h => hu (hiff.mpr h), rfl⟩

/-- What `brc_addlistt` makes of a record: the list stays newest first, and the
unread times are the old ones without `t` that come after its last entry, which
says something only when the list was full. -/
theorem brcAddlistt_unreadIn {brc : OneBrc} (hs : brc.list.Pairwise (· > ·))
    (hne : brc.list ≠ []) (t : Int) :
    (brcAddlistt brc t).list.Pairwise (· > ·) ∧
      (brc.num < brcMaxnum → ∀ u, UnreadIn (brcAddlistt brc t).list u ↔
        UnreadIn brc.list u ∧ u ≠ t) ∧
      ∃ last, (brcAddlistt brc t).list.getLast? = some last ∧
        ∀ u, UnreadIn (brcAddlistt brc t).list u ↔ (UnreadIn brc.list u ∧ u ≠ t) ∧ last < u := by
  rcases brcAddlistt_list hs hne t with ⟨hread, hlist⟩ | ⟨r, hunread, hloc, hr, hlist⟩
  · have hkeep : ∀ u, UnreadIn brc.list u ↔ UnreadIn brc.list u ∧ u ≠ t := fun u =>
      ⟨fun h => ⟨h, fun heq => hread (heq ▸ h)⟩, And.left⟩
    have hlast := List.getLast?_eq_some_getLast hne
    rw [hlist]
    refine ⟨hs, fun _ => hkeep, _, hlast, fun u => ?_⟩
    have hle := pairwise_getLast hs hlast
    rw [← hkeep u, iff_self_and]
    rintro ⟨-, x, hx, hxu⟩
    exact Int.lt_of_le_of_lt (hle x hx) hxu
  · have hsorted := hloc.pairwise_insert hr hs
    have hinsert := unreadIn_insertAt hunread r.2
    have hlen := length_insertAt brc.list t r.2
    have hnum : brc.num = brc.list.length := rfl
    rw [hlist]
    refine ⟨hsorted.sublist (List.take_sublist _ _), fun hroom => ?_, ?_⟩
    · rwa [List.take_of_length_le (by omega)]
    · have htake : (brc.list.take r.2 ++ t :: brc.list.drop r.2).take brcMaxnum ≠ [] := by
        rw [← List.length_pos_iff, List.length_take, hlen, brcMaxnum]
        omega
      have hlast := List.getLast?_eq_some_getLast htake
      refine ⟨_, hlast, fun u => ?_⟩
      rw [unreadIn_take hsorted hlast, hinsert]

/-! ## brc_clearto -/

/-- No entry from the cursor on is newer than `t`. -/
theorem Located.le_mem {list : List Int} {t : Int} {r : Bool × Nat} (h : Located list t r)
    (hs : list.Pairwise (· > ·)) : ∀ x ∈ list.drop r.2, x ≤ t := by
  cases hr : r.1 with
  | true =>
      obtain ⟨hlt, hget⟩ := h.found hr
      have hdrop := hs.sublist (List.drop_sublist r.2 list)
      rw [List.getD_eq_getElem _ _ hlt] at hget
      rw [List.drop_eq_getElem_cons hlt, hget] at hdrop ⊢
      intro x hx
      rcases List.mem_cons.mp hx with rfl | hx
      · exact Int.le_refl _
      · exact Int.le_of_lt ((List.pairwise_cons.mp hdrop).1 x hx)
  | false => exact fun x hx => Int.le_of_lt (h.older_mem hr x hx)

theorem brcClearto_unreadIn {brc : OneBrc} (hs : brc.list.Pairwise (· > ·)) (hne : brc.list ≠ [])
    (t : Int) : (brcClearto brc t).list.Pairwise (· > ·) ∧ (brcClearto brc t).list ≠ [] ∧
      ∀ u, UnreadIn (brcClearto brc t).list u ↔ UnreadIn brc.list u ∧ t < u := by
  obtain ⟨r, hloc, heq⟩ := brcLocate_located hs t
  have hnum : brc.list.length ≠ 0 := fun h => hne (List.length_eq_zero_iff.mp h)
  unfold brcClearto
  rw [heq]
  unfold brcSet
  dsimp only [OneBrc.num]
  by_cases hcur : brc.list.length ≤ r.2
  · -- every entry is newer than `t`, and the record stays
    rw [dif_pos ⟨hnum, hcur⟩]
    refine ⟨hs, hne, fun u => ⟨fun hu => ⟨hu, ?_⟩, And.left⟩⟩
    obtain ⟨-, x, hx, hxu⟩ := hu
    rw [← List.take_of_length_le hcur] at hx
    exact Int.lt_trans (hloc.newer_mem x hx) hxu
  · rw [dif_neg fun h => hcur h.2]
    have hsorted : (brc.list.take r.2 ++ [t]).Pairwise (· > ·) := by
      refine List.pairwise_append.mpr
        ⟨hs.sublist (List.take_sublist _ _), List.pairwise_singleton _ _, ?_⟩
      intro x hx y hy
      rw [List.mem_singleton.mp hy]
      exact hloc.newer_mem x hx
    refine ⟨hsorted, List.append_ne_nil_of_right_ne_nil _ (List.cons_ne_nil t []), fun u => ?_⟩
    have hlast := pairwise_getLast hsorted (List.getLast?_concat ..)
    have hsplit : ∀ x, x ∈ brc.list ↔ x ∈ brc.list.take r.2 ∨ x ∈ brc.list.drop r.2 := by
      intro x
      rw [← List.mem_append, List.take_append_drop]
    constructor
    · rintro ⟨hnot, x, hx, hxu⟩
      have htu : t < u := Int.lt_of_le_of_lt (hlast x hx) hxu
      refine ⟨⟨?_, ?_⟩, htu⟩
      · intro hu
        rcases (hsplit u).mp hu with hu | hu
        · exact hnot (List.mem_append_left _ hu)
        · have := hloc.le_mem hs u hu
          omega
      · have hhead : brc.list[r.2] ∈ brc.list.drop r.2 := by
          rw [List.drop_eq_getElem_cons (by omega)]
          exact List.mem_cons_self
        exact ⟨brc.list[r.2], List.getElem_mem _,
          Int.lt_of_le_of_lt (hloc.le_mem hs _ hhead) htu⟩
    · rintro ⟨⟨hnot, -⟩, htu⟩
      refine ⟨?_, t, List.mem_append_right _ List.mem_cons_self, htu⟩
      intro hu
      rcases List.mem_append.mp hu with hu | hu
      · exact hnot ((hsplit u).mpr (Or.inl hu))
      · rw [List.mem_singleton.mp hu] at htu
        exact Int.lt_irrefl t htu

/-! ## Marking articles read -/

theorem ne_nil_of_getLast {list : List Int} {last : Int} (h : list.getLast? = some last) :
    list ≠ [] := by
  rintro rfl
  cases h

/-- **Marking read**: the cursor does not matter; `brc_addlistt` takes one time
out of the unread ones, and with a full list those no longer after the last
entry; `brc_clearto` leaves those after its time. -/
theorem unreadSet_marks {brc : OneBrc} (hs : brc.list.Pairwise (· > ·)) (hnum : 1 ≤ brc.num)
    (t : Int) :
    (∀ cur, unreadSet { brc with cur } = unreadSet brc) ∧
      (brcAddlistt brc t).list.Pairwise (· > ·) ∧
      (brc.num < brcMaxnum → unreadSet (brcAddlistt brc t) = unreadSet brc \ {t}) ∧
      (brc.num = brcMaxnum → ∃ last, (brcAddlistt brc t).list.getLast? = some last ∧
        unreadSet (brcAddlistt brc t) = {u ∈ unreadSet brc \ {t} | last < u}) ∧
      unreadSet (brcClearto brc t) = {u ∈ unreadSet brc | t < u} := by
  have hne : brc.list ≠ [] := List.length_pos_iff.mp hnum
  obtain ⟨hadd, hroom, last, hlast, hfull⟩ := brcAddlistt_unreadIn hs hne t
  obtain ⟨hclear, hcne, hclearto⟩ := brcClearto_unreadIn hs hne t
  have hane := ne_nil_of_getLast hlast
  refine ⟨fun cur => ?_, hadd, fun hlt => ?_, fun _ => ⟨last, hlast, ?_⟩, ?_⟩
  · ext u
    rw [mem_unreadSet hs hne]
    have hiff : ∀ moved : OneBrc, moved.list = brc.list →
        ((brcUnreadt moved u).1 = true ↔ UnreadIn brc.list u) := by
      rintro moved hlist
      rw [← hlist] at hs hne ⊢
      exact brcUnreadt_iff hs hne u
    exact hiff { brc with cur } rfl
  · ext u
    rw [mem_unreadSet hadd hane, hroom hlt, Set.mem_sdiff, mem_unreadSet hs hne,
      Set.mem_singleton_iff]
  · ext u
    rw [mem_unreadSet hadd hane, hfull, Set.mem_ofPred_eq, Set.mem_sdiff, mem_unreadSet hs hne,
      Set.mem_singleton_iff]
  · ext u
    rw [mem_unreadSet hclear hcne, hclearto, Set.mem_ofPred_eq, mem_unreadSet hs hne]

/-- A board `test` with three read marks, the cursor left past them. -/
def readBrc : OneBrc where
  cur := 7
  changed := false
  board := ⟨[116, 101, 115, 116], by decide, by decide⟩
  list := [9, 5, 3]
  num_le := by decide
  notetime := 0

theorem unreadSet_marks_read :
    (∀ cur, unreadSet { readBrc with cur } = unreadSet readBrc) ∧
      (brcAddlistt readBrc 7).list.Pairwise (· > ·) ∧
      (readBrc.num < brcMaxnum → unreadSet (brcAddlistt readBrc 7) = unreadSet readBrc \ {7}) ∧
      (readBrc.num = brcMaxnum → ∃ last, (brcAddlistt readBrc 7).list.getLast? = some last ∧
        unreadSet (brcAddlistt readBrc 7) = {u ∈ unreadSet readBrc \ {7} | last < u}) ∧
      unreadSet (brcClearto readBrc 7) = {u ∈ unreadSet readBrc | 7 < u} :=
  unreadSet_marks (by decide) (by decide) 7

end Ytht
