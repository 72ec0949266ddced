import Mathlib.Data.List.GetD

/-!
# Lib.Journal

The last entries of a list, in an array of bytes.  Before an entry is added to an array
that is full, the oldest entries are dropped: the bytes behind them move to the front and
the count goes down (`add`).

`Kept` says that the array has the last `n` entries; the move keeps it when its offset is
that of the entries that are dropped and it takes all the others along (`Layout.Fits`).
-/

namespace Journal

variable {β : Type}

/-- When an array of entries of `width` bytes is full, what moves to the front, and how many
entries that drops. -/
structure Layout where
  cap : Nat
  width : Nat
  off : Nat
  len : Nat
  drop : Nat

/-- `len` bytes from `off` on move to the front. -/
def moveDown (a : Nat → β) (off len : Nat) : Nat → β := fun i => if i < len then a (i + off) else a i

/-- The bytes of `e` are written from `pos` on. -/
def put (a : Nat → β) (pos : Nat) (e : List β) : Nat → β := fun i =>
  if pos ≤ i then e.getD (i - pos) (a i) else a i

/-- An entry is added. -/
def add (L : Layout) (a : Nat → β) (n : Nat) (e : List β) : (Nat → β) × Nat :=
  let (a, n) := if L.cap ≤ n then (moveDown a L.off L.len, n - L.drop) else (a, n)
  (put a (L.width * n) e, n + 1)

/-- The first `n` entries. -/
def entries (w : Nat) (a : Nat → β) (n : Nat) : List (List β) :=
  (List.range n).map fun k => (List.range w).map fun i => a (w * k + i)

/-- The first `n` entries are the last `n` of `es`. -/
def Kept (w : Nat) (a : Nat → β) (n : Nat) (es : List (List β)) : Prop :=
  n ≤ es.length ∧ entries w a n = es.drop (es.length - n)

/-- The entries that stay move by as many bytes as those that go have. -/
structure Layout.Fits (L : Layout) : Prop where
  pos : 0 < L.drop
  le : L.drop ≤ L.cap
  off : L.off = L.width * L.drop
  len : L.width * (L.cap - L.drop) ≤ L.len

/-! ## Entries -/

variable {w n : Nat} {a : Nat → β}

@[simp] theorem length_entries : (entries w a n).length = n := by simp [entries]

theorem getElem?_entries {k : Nat} (hk : k < n) :
    (entries w a n)[k]? = some ((List.range w).map fun i => a (w * k + i)) := by
  simp [entries, hk]

theorem place_lt {k i : Nat} (hk : k < n) (hi : i < w) : w * k + i < w * n :=
  calc w * k + i < w * k + w := Nat.add_lt_add_left hi _
    _ = w * (k + 1) := (Nat.mul_succ w k).symm
    _ ≤ w * n := Nat.mul_le_mul_left w hk

/-- Entries with the same bytes. -/
theorem entries_congr {b : Nat → β} (h : ∀ i < w * n, a i = b i) :
    entries w a n = entries w b n := by
  refine List.map_congr_left fun k hk => List.map_congr_left fun i hi => h _ ?_
  exact place_lt (List.mem_range.mp hk) (List.mem_range.mp hi)

theorem entries_put_of_le {pos : Nat} (h : w * n ≤ pos) (e : List β) :
    entries w (put a pos e) n = entries w a n :=
  entries_congr fun i hi => by rw [put, if_neg (Nat.not_le.mpr (Nat.lt_of_lt_of_le hi h))]

/-- An entry behind the others. -/
theorem entries_put (e : List β) (he : e.length = w) :
    entries w (put a (w * n) e) (n + 1) = entries w a n ++ [e] := by
  have hlast : (List.range w).map (fun i => put a (w * n) e (w * n + i)) = e := by
    refine List.ext_getElem (by simp [he]) fun i hi hi' => ?_
    rw [List.getElem_map, List.getElem_range, put, if_pos (Nat.le_add_right _ _),
      Nat.add_sub_cancel_left, List.getD_eq_getElem _ _ hi']
  have hfirst : entries w (put a (w * n) e) n = entries w a n :=
    entries_put_of_le (Nat.le_refl _) e
  rw [← hfirst]
  unfold entries
  rw [List.range_succ, List.map_append, List.map_singleton, hlast]

/-- The entries from the `d`-th on move to the front. -/
theorem entries_moveDown {off len d m : Nat} (hoff : off = w * d) (hlen : w * m ≤ len) :
    entries w (moveDown a off len) m = (entries w a (d + m)).drop d := by
  refine List.ext_getElem (by simp) fun k hk hk' => ?_
  rw [length_entries] at hk
  simp only [entries, List.getElem_map, List.getElem_range, List.getElem_drop]
  refine List.map_congr_left fun i hi => ?_
  have hplace := place_lt hk (List.mem_range.mp hi)
  rw [moveDown, if_pos (Nat.lt_of_lt_of_le hplace hlen), hoff, Nat.mul_add]
  congr 1
  omega

/-! ## The last entries -/

variable {es : List (List β)}

theorem kept_nil : Kept w a 0 es := by
  refine ⟨Nat.zero_le _, ?_⟩
  rw [Nat.sub_zero, List.drop_length]
  rfl

/-- A write behind the entries. -/
theorem Kept.put {pos : Nat} (h : Kept w a n es) (hpos : w * n ≤ pos) (e : List β) :
    Kept w (put a pos e) n es :=
  ⟨h.1, (entries_put_of_le hpos e).trans h.2⟩

theorem Kept.append {e : List β} (h : Kept w a n es) (he : e.length = w) :
    Kept w (Journal.put a (w * n) e) (n + 1) (es ++ [e]) := by
  obtain ⟨hle, heq⟩ := h
  rw [Kept, List.length_append, List.length_singleton, entries_put e he, heq, Nat.add_sub_add_right,
    List.drop_append_of_le_length (Nat.sub_le _ _)]
  exact ⟨Nat.succ_le_succ hle, rfl⟩

theorem Kept.moveDown {off len d : Nat} (h : Kept w a n es) (hd : d ≤ n) (hoff : off = w * d)
    (hlen : w * (n - d) ≤ len) : Kept w (moveDown a off len) (n - d) es := by
  obtain ⟨hle, heq⟩ := h
  refine ⟨Nat.le_trans (Nat.sub_le _ _) hle, ?_⟩
  rw [entries_moveDown hoff hlen, Nat.add_sub_cancel' hd, heq, List.drop_drop]
  congr 1
  omega

theorem add_of_lt {L : Layout} (hn : n < L.cap) (e : List β) :
    add L a n e = (put a (L.width * n) e, n + 1) := by
  rw [add, if_neg (Nat.not_le.mpr hn)]

theorem add_of_ge {L : Layout} (hn : L.cap ≤ n) (e : List β) :
    add L a n e =
      (put (moveDown a L.off L.len) (L.width * (n - L.drop)) e, n - L.drop + 1) := by
  rw [add, if_pos hn]

/-- **An entry is added**, and the array has the last entries still. -/
theorem Kept.add {L : Layout} {e : List β} (hL : L.Fits) (h : Kept L.width a n es)
    (hn : n ≤ L.cap) (he : e.length = L.width) :
    Kept L.width (add L a n e).1 (add L a n e).2 (es ++ [e]) ∧ (Journal.add L a n e).2 ≤ L.cap := by
  rcases Nat.lt_or_ge n L.cap with hlt | hge
  · rw [add_of_lt hlt]
    exact ⟨h.append he, hlt⟩
  · have hcap : n = L.cap := Nat.le_antisymm hn hge
    have hpos := hL.pos
    have hle := hL.le
    rw [add_of_ge hge]
    refine ⟨(h.moveDown (hcap ▸ hle) hL.off (hcap ▸ hL.len)).append he, ?_⟩
    dsimp only
    omega

end Journal
