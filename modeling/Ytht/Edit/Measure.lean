import Ytht.Lib.Bytes

/-!
# Edit.Measure

How the editor measures the bytes of a display line: `measureLine` takes what fits
in a width, `measureWidth` says how wide some bytes are, and `indb` whether a
place is inside a pair of bytes.

A line that `measureLine` cuts at `MAXLINELEN` is no wider (`width_take_measureLine`),
and what is left of a line after a byte was typed fits in the next line
(`width_drop_insert`): tabs can only make it narrower there.
-/

namespace Ytht

def MAXLINELEN : Nat := 80

/-- `indb(ptr, n)`, with `enabledbchar`. -/
def indb (enabledbchar : Bool) (text : List UInt8) (n : Nat) : Bool :=
  enabledbchar && (text.take n).foldl (fun db ch => !db && 128 ≤ ch) false

/-- The column after a byte at column `w`. -/
def nextColumn (w : Nat) (ch : UInt8) : Nat := if ch = 9 then (w + 8) / 8 * 8 else w + 1

/-- The column after some bytes from column `w` on. -/
def columnFrom (w : Nat) (text : List UInt8) : Nat := text.foldl nextColumn w

def measureWidth (text : List UInt8) : Nat := columnFrom 0 text

/-- `'\\n'` and `'\\r'` -/
def isNewline (ch : UInt8) : Bool := ch == 10 || ch == 13

/-- The loop of `measureLine` at byte `i`: the number of bytes, and what `*width` is
set to, if it is. -/
def measureLoop (maxwidth cutmode : Nat) :
    List UInt8 → (i w : Nat) → (db : Bool) → (lastspace lastwidth : Nat) → Nat × Option Nat
  | [], i, w, _, _, _ => (i, some w)
  | ch :: rest, i, w, db, lastspace, lastwidth =>
      if isNewline ch then (i, none)
      else if ch = 9 then
        let w1 := (w + 8) / 8 * 8
        if maxwidth < w1 then (i, some w)
        else if w1 = maxwidth then (i + 1, some w1)
        else measureLoop maxwidth cutmode rest (i + 1) w1 db (i + 1) w1
      else
        let w := w + 1
        let lastwidth := if !db && ch == 32 then w else lastwidth
        let lastspace := if db || ch == 32 then i + 1 else lastspace
        let db := !db && 128 ≤ ch
        if maxwidth ≤ w then
          if db then (i, some (w - 1))
          else if cutmode = 0 ∧ 0 < lastspace ∨ cutmode = 1 then (lastspace, some lastwidth)
          else (i + 1, some w)
        else measureLoop maxwidth cutmode rest (i + 1) w db lastspace lastwidth

def measureLine (p0 : List UInt8) (maxwidth cutmode : Nat) : Nat × Option Nat :=
  if p0 = [] ∨ maxwidth = 0 then (0, some 0) else measureLoop maxwidth cutmode p0 0 0 false 0 0

/-! ## Columns -/

section columns

variable {w w' : Nat} {text : List UInt8}

@[simp] theorem columnFrom_nil (w : Nat) : columnFrom w [] = w := rfl

@[simp] theorem columnFrom_cons (w : Nat) (ch : UInt8) (text : List UInt8) :
    columnFrom w (ch :: text) = columnFrom (nextColumn w ch) text := rfl

theorem columnFrom_append (w : Nat) (l l' : List UInt8) :
    columnFrom w (l ++ l') = columnFrom (columnFrom w l) l' := List.foldl_append

theorem lt_nextColumn (w : Nat) (ch : UInt8) : w < nextColumn w ch := by
  unfold nextColumn
  split <;> omega

theorem nextColumn_mono (h : w ≤ w') (ch : UInt8) : nextColumn w ch ≤ nextColumn w' ch := by
  unfold nextColumn
  split <;> omega

/-- Every byte takes a column. -/
theorem add_length_le_columnFrom (w : Nat) (text : List UInt8) :
    w + text.length ≤ columnFrom w text := by
  induction text generalizing w with
  | nil => exact Nat.le_refl w
  | cons ch text ih =>
      have hnext := lt_nextColumn w ch
      have hrest := ih (nextColumn w ch)
      rw [columnFrom_cons, List.length_cons]
      omega

/-- A text that starts further left ends further left. -/
theorem columnFrom_mono (h : w ≤ w') (text : List UInt8) :
    columnFrom w text ≤ columnFrom w' text := by
  induction text generalizing w w' with
  | nil => exact h
  | cons ch text ih => exact ih (nextColumn_mono h ch)

theorem length_le_measureWidth (text : List UInt8) : text.length ≤ measureWidth text := by
  have h := add_length_le_columnFrom 0 text
  unfold measureWidth
  omega

theorem measureWidth_append (l l' : List UInt8) :
    measureWidth (l ++ l') = columnFrom (measureWidth l) l' := columnFrom_append 0 l l'

/-- A part of a text is no wider. -/
theorem measureWidth_take_le (n : Nat) (text : List UInt8) :
    measureWidth (text.take n) ≤ measureWidth text := by
  have h := measureWidth_append (text.take n) (text.drop n)
  have hle := add_length_le_columnFrom (measureWidth (text.take n)) (text.drop n)
  rw [List.take_append_drop] at h
  omega

/-- What is behind some bytes is no wider on a line of its own. -/
theorem measureWidth_suffix_le (l l' : List UInt8) : measureWidth l' ≤ measureWidth (l ++ l') := by
  rw [measureWidth_append]
  exact columnFrom_mono (Nat.zero_le _) l'

theorem measureWidth_drop_le (n : Nat) (text : List UInt8) :
    measureWidth (text.drop n) ≤ measureWidth text := by
  have h := measureWidth_suffix_le (text.take n) (text.drop n)
  rwa [List.take_append_drop] at h

/-- A text is no wider when bytes are taken out. -/
theorem measureWidth_cut_le (i n : Nat) (text : List UInt8) :
    measureWidth (text.take i ++ text.drop (i + n)) ≤ measureWidth text := by
  have hbytes := add_length_le_columnFrom (measureWidth (text.take i)) ((text.drop i).take n)
  have hsplit : text = text.take i ++ ((text.drop i).take n ++ text.drop (i + n)) := by
    rw [← List.drop_drop, List.take_append_drop, List.take_append_drop]
  conv_rhs => rw [hsplit, measureWidth_append, columnFrom_append]
  rw [measureWidth_append]
  exact columnFrom_mono (by omega) _

/-- Without tabs, a byte is a column. -/
theorem columnFrom_noTab (w : Nat) (h : ∀ ch ∈ text, ch ≠ 9) :
    columnFrom w text = w + text.length := by
  induction text generalizing w with
  | nil => rfl
  | cons ch text ih =>
      have hnext : nextColumn w ch = w + 1 := if_neg (h ch List.mem_cons_self)
      rw [columnFrom_cons, hnext, ih (w + 1) fun c hc => h c (List.mem_cons_of_mem ch hc),
        List.length_cons]
      omega

end columns

/-! ## Measured lines -/

section measure

variable {maxwidth cutmode : Nat} {text : List UInt8}

/-- The next byte of a text that is read from the front. -/
theorem read_next {i : Nat} {ch : UInt8} {rest : List UInt8} (h : text.drop i = ch :: rest) :
    i < text.length ∧ text.drop (i + 1) = rest ∧ text.take (i + 1) = text.take i ++ [ch] := by
  have hlt : i < text.length := by
    have hlen := congrArg List.length h
    rw [List.length_drop, List.length_cons] at hlen
    omega
  have hcons := List.drop_eq_getElem_cons hlt
  rw [h] at hcons
  obtain ⟨hch, hrest⟩ := List.cons.inj hcons
  refine ⟨hlt, hrest.symm, ?_⟩
  rw [List.take_succ_eq_append_getElem hlt, hch]

/-- No more bytes are taken than there are, and no newline among them. -/
theorem measureLoop_le (rest : List UInt8) (i w : Nat) (db : Bool) (lastspace lastwidth : Nat)
    (hrest : text.drop i = rest) (hi : i ≤ text.length) (hspace : lastspace ≤ i)
    (hread : ∀ ch ∈ text.take i, isNewline ch = false) :
    (measureLoop maxwidth cutmode rest i w db lastspace lastwidth).1 ≤ text.length ∧
      ∀ ch ∈ text.take (measureLoop maxwidth cutmode rest i w db lastspace lastwidth).1,
        isNewline ch = false := by
  have hstop : ∀ i, i ≤ text.length → (∀ ch ∈ text.take i, isNewline ch = false) → ∀ n, n ≤ i →
      n ≤ text.length ∧ ∀ ch ∈ text.take n, isNewline ch = false := by
    intro i hi hread n hn
    refine ⟨Nat.le_trans hn hi, fun ch hch => hread ch ?_⟩
    exact (List.take_subset_take_left text hn) hch
  induction rest generalizing i w db lastspace lastwidth with
  | nil => exact hstop i hi hread i (Nat.le_refl i)
  | cons ch rest ih =>
      obtain ⟨hlt, hrest', htake⟩ := read_next hrest
      unfold measureLoop
      split
      · exact hstop i hi hread i (Nat.le_refl i)
      · next hch =>
          rw [Bool.not_eq_true] at hch
          have hread' : ∀ c ∈ text.take (i + 1), isNewline c = false := by
            intro c hc
            rw [htake] at hc
            cases List.mem_append.mp hc with
            | inl hc => exact hread c hc
            | inr hc =>
                rw [List.mem_singleton.mp hc]
                exact hch
          split
          · dsimp only
            split
            · exact hstop i hi hread i (Nat.le_refl i)
            · split
              · exact hstop (i + 1) hlt hread' (i + 1) (Nat.le_refl _)
              · exact ih (i + 1) _ _ _ _ hrest' hlt (Nat.le_refl _) hread'
          · dsimp only
            have hspace' : (if (db || ch == 32) = true then i + 1 else lastspace) ≤ i + 1 := by
              split <;> omega
            generalize (if (db || ch == 32) = true then i + 1 else lastspace) = lastspace' at hspace' ⊢
            split
            · split
              · exact hstop i hi hread i (Nat.le_refl i)
              · split
                · exact hstop (i + 1) hlt hread' _ hspace'
                · exact hstop (i + 1) hlt hread' (i + 1) (Nat.le_refl _)
            · exact ih (i + 1) _ _ _ _ hrest' hlt hspace' hread'

theorem measureLine_le (text : List UInt8) (maxwidth cutmode : Nat) :
    (measureLine text maxwidth cutmode).1 ≤ text.length := by
  unfold measureLine
  split
  · exact Nat.zero_le _
  · exact (measureLoop_le text 0 0 false 0 0 rfl (Nat.zero_le _) (Nat.le_refl _) (by simp)).1

theorem measureLine_noNewline (text : List UInt8) (maxwidth cutmode : Nat) :
    ∀ ch ∈ text.take (measureLine text maxwidth cutmode).1, isNewline ch = false := by
  unfold measureLine
  split
  · simp
  · exact (measureLoop_le text 0 0 false 0 0 rfl (Nat.zero_le _) (Nat.le_refl _) (by simp)).2

/-- How `measureLine` ends with the width of a line, when it cuts words. -/
inductive Measured (text : List UInt8) (len : Nat) : Prop
  /-- All bytes fit. -/
  | whole (hlen : len = text.length) (hwidth : measureWidth text < MAXLINELEN)
  /-- A newline is next. -/
  | newline (ch : UInt8) (rest : List UInt8) (hch : isNewline ch = true)
      (hrest : text.drop len = ch :: rest) (hwidth : measureWidth (text.take len) < MAXLINELEN)
  /-- The first `full` bytes fill the line, and there is no tab between the cut and
  their end. -/
  | cut (full : Nat) (hfull : full ≤ text.length)
      (hwidth : measureWidth (text.take full) = MAXLINELEN) (hpos : 0 < len) (hle : len ≤ full)
      (htab : ∀ ch ∈ (text.take full).drop len, ch ≠ 9)

theorem measureLoop_measured (rest : List UInt8) (i w : Nat) (db : Bool) (lastspace lastwidth : Nat)
    (hrest : text.drop i = rest) (hi : i ≤ text.length) (hw : measureWidth (text.take i) = w)
    (hlt : w < MAXLINELEN) (hspace : lastspace ≤ i)
    (htab : ∀ ch ∈ (text.take i).drop lastspace, ch ≠ 9) :
    Measured text (measureLoop MAXLINELEN 0 rest i w db lastspace lastwidth).1 := by
  induction rest generalizing i w db lastspace lastwidth with
  | nil =>
      have hend : text.length ≤ i := List.drop_eq_nil_iff.mp hrest
      rw [List.take_of_length_le hend] at hw
      exact Measured.whole (Nat.le_antisymm hi hend) (by rwa [hw])
  | cons ch rest ih =>
      obtain ⟨hlen, hrest', htake⟩ := read_next hrest
      have hwidth : measureWidth (text.take (i + 1)) = nextColumn w ch := by
        rw [htake, measureWidth_append, hw]
        rfl
      unfold measureLoop
      split
      · next hch => exact Measured.newline ch rest hch hrest (by rwa [hw])
      · split
        · next htabch =>
            have hcol : nextColumn w ch = (w + 8) / 8 * 8 := if_pos htabch
            rw [hcol] at hwidth
            have hempty : (text.take (i + 1)).drop (i + 1) = [] := by
              rw [List.drop_eq_nil_iff, List.length_take]
              omega
            dsimp only
            unfold MAXLINELEN at hlt ⊢
            rw [if_neg (by omega)]
            split
            · next hend =>
                refine Measured.cut (i + 1) hlen (hwidth.trans hend) (Nat.succ_pos i)
                  (Nat.le_refl _) ?_
                rw [hempty]
                simp
            · next hend =>
                refine ih (i + 1) _ _ _ _ hrest' hlen hwidth ?_ (Nat.le_refl _) ?_
                · unfold MAXLINELEN
                  omega
                · rw [hempty]
                  simp
        · next htabch =>
            have hcol : nextColumn w ch = w + 1 := if_neg htabch
            rw [hcol] at hwidth
            have hkept : ∀ n, n ≤ i → (∀ c ∈ (text.take i).drop n, c ≠ 9) →
                ∀ c ∈ (text.take (i + 1)).drop n, c ≠ 9 := by
              intro n hn htab c hc
              rw [htake, List.drop_append_of_le_length (by rw [List.length_take]; omega)] at hc
              cases List.mem_append.mp hc with
              | inl hc => exact htab c hc
              | inr hc =>
                  rw [List.mem_singleton.mp hc]
                  exact htabch
            have hempty : (text.take (i + 1)).drop (i + 1) = [] := by
              rw [List.drop_eq_nil_iff, List.length_take]
              omega
            dsimp only
            have hspace' : (if (db || ch == 32) = true then i + 1 else lastspace) ≤ i + 1 := by
              split <;> omega
            have htab' : ∀ c ∈ (text.take (i + 1)).drop
                (if (db || ch == 32) = true then i + 1 else lastspace), c ≠ 9 := by
              split
              · rw [hempty]
                simp
              · exact hkept lastspace hspace htab
            generalize (if (db || ch == 32) = true then i + 1 else lastspace) = lastspace'
              at hspace' htab' ⊢
            split
            · next hend =>
                have hfull : measureWidth (text.take (i + 1)) = MAXLINELEN := by omega
                split
                · refine Measured.cut (i + 1) hlen hfull ?_ (Nat.le_succ i)
                    (hkept i (Nat.le_refl i) ?_)
                  · by_contra hzero
                    have hi0 : i = 0 := by omega
                    subst hi0
                    rw [List.take_zero] at hw
                    unfold MAXLINELEN at hend
                    have hw0 : w = 0 := hw.symm
                    omega
                  · rw [List.drop_eq_nil_iff.mpr (by rw [List.length_take]; omega)]
                    simp
                · split
                  · next hcut =>
                      have hpos := hcut.resolve_right (by decide)
                      exact Measured.cut (i + 1) hlen hfull hpos.2 hspace' htab'
                  · refine Measured.cut (i + 1) hlen hfull (Nat.succ_pos i) (Nat.le_refl _) ?_
                    rw [hempty]
                    simp
            · next hend =>
                exact ih (i + 1) _ _ _ _ hrest' hlen hwidth (Nat.lt_of_not_le hend) hspace' htab'

theorem measureLine_measured (text : List UInt8) :
    Measured text (measureLine text MAXLINELEN 0).1 := by
  unfold measureLine
  split
  · next hempty =>
      have hnil : text = [] := hempty.resolve_right (by decide)
      subst hnil
      exact Measured.whole rfl (by decide)
  · exact measureLoop_measured text 0 0 false 0 0 rfl (Nat.zero_le _) rfl (by decide)
      (Nat.le_refl _) (by simp)

/-- **A measured line fits.** -/
theorem width_take_measureLine (text : List UInt8) :
    measureWidth (text.take (measureLine text MAXLINELEN 0).1) ≤ MAXLINELEN := by
  cases measureLine_measured text with
  | whole hlen hwidth =>
      rw [hlen, List.take_length]
      exact Nat.le_of_lt hwidth
  | newline ch rest hch hrest hwidth => exact Nat.le_of_lt hwidth
  | cut full hfull hwidth hpos hle htab =>
      have h := measureWidth_take_le (measureLine text MAXLINELEN 0).1 (text.take full)
      rwa [List.take_take, Nat.min_eq_left hle, hwidth] at h

/-- Something is taken, unless nothing is there. -/
theorem measureLine_pos {ch : UInt8} {rest : List UInt8} (h : isNewline ch = false) :
    0 < (measureLine (ch :: rest) MAXLINELEN 0).1 := by
  cases measureLine_measured (ch :: rest) with
  | whole hlen hwidth =>
      rw [hlen]
      exact Nat.succ_pos _
  | newline c tail hc htail hwidth =>
      refine Nat.pos_of_ne_zero fun hzero => ?_
      rw [hzero, List.drop_zero] at htail
      obtain ⟨rfl, -⟩ := List.cons.inj htail
      rw [h] at hc
      contradiction
  | cut full hfull hwidth hpos hle htab => exact hpos

/-- A byte typed where the line is full already. -/
theorem width_drop_insert_behind {l l' : List UInt8} {ch : UInt8} {len full : Nat}
    (hold : measureWidth (l ++ l') ≤ MAXLINELEN) (hfull : full ≤ l.length)
    (hwidth : measureWidth (l.take full) = MAXLINELEN) (hlen : full - len < MAXLINELEN) :
    columnFrom (full - len) ((l ++ ch :: l').drop full) ≤ MAXLINELEN := by
  have hsplit : l ++ l' = l.take full ++ (l.drop full ++ l') := by
    rw [← List.append_assoc, List.take_append_drop]
  rw [hsplit, measureWidth_append, hwidth] at hold
  have hempty : (l.drop full ++ l').length = 0 := by
    have hle := add_length_le_columnFrom MAXLINELEN (l.drop full ++ l')
    omega
  rw [List.length_eq_zero_iff, List.append_eq_nil_iff] at hempty
  rw [List.drop_append_of_le_length hfull, hempty.1, hempty.2]
  show nextColumn (full - len) ch ≤ MAXLINELEN
  unfold nextColumn MAXLINELEN at *
  split <;> omega

/-- A byte typed in what goes to the next line. -/
theorem width_drop_insert_inside {l l' : List UInt8} {ch : UInt8} {len n : Nat}
    (hold : measureWidth (l ++ l') ≤ MAXLINELEN) (hle : len ≤ l.length) (hpos : 0 < len)
    (htab : ∀ c ∈ (l ++ ch :: l'.take n).drop len, c ≠ 9) :
    measureWidth ((l ++ ch :: l').drop len) ≤ MAXLINELEN := by
  have hdrop : ∀ m : List UInt8, (l ++ m).drop len = l.drop len ++ m := fun m =>
    List.drop_append_of_le_length hle
  have hsplit : ∀ m : List UInt8, l ++ m = l.take len ++ (l.drop len ++ m) := by
    intro m
    rw [← List.append_assoc, List.take_append_drop]
  rw [hdrop] at htab ⊢
  have htab' : ∀ c ∈ l.drop len ++ l'.take n, c ≠ 9 := by
    intro c hc
    refine htab c ?_
    rw [List.mem_append] at hc ⊢
    exact hc.imp id (List.mem_cons_of_mem ch)
  have hback : l ++ l' = l.take len ++ (l.drop len ++ l'.take n) ++ l'.drop n := by
    rw [← hsplit, List.append_assoc, List.take_append_drop]
  rw [hback, measureWidth_append, measureWidth_append, columnFrom_noTab _ htab'] at hold
  have hrest : l.drop len ++ ch :: l' = (l.drop len ++ ch :: l'.take n) ++ l'.drop n := by
    rw [List.append_assoc, List.cons_append, List.take_append_drop]
  have hfront := length_le_measureWidth (l.take len)
  rw [List.length_take, Nat.min_eq_left hle] at hfront
  rw [List.length_append] at hold
  rw [hrest, measureWidth_append]
  unfold measureWidth at hold ⊢
  rw [columnFrom_noTab 0 htab, List.length_append, List.length_cons]
  refine Nat.le_trans (columnFrom_mono ?_ _) hold
  unfold measureWidth at hfront
  omega

/-- **What is left of a line fits**, after a byte was typed in it. -/
theorem width_drop_insert {l l' : List UInt8} {ch : UInt8}
    (hold : measureWidth (l ++ l') ≤ MAXLINELEN)
    (hline : ∀ c ∈ l ++ ch :: l', isNewline c = false) :
    measureWidth ((l ++ ch :: l').drop (measureLine (l ++ ch :: l') MAXLINELEN 0).1)
      ≤ MAXLINELEN := by
  generalize hlen : (measureLine (l ++ ch :: l') MAXLINELEN 0).1 = len
  have hcases := measureLine_measured (l ++ ch :: l')
  rw [hlen] at hcases
  cases hcases with
  | whole hall hwidth =>
      rw [hall, List.drop_length]
      exact Nat.zero_le _
  | newline c rest hc hrest hwidth =>
      have hmem : c ∈ (l ++ ch :: l').drop len := by
        rw [hrest]
        exact List.mem_cons_self
      rw [hline c (List.mem_of_mem_drop hmem)] at hc
      contradiction
  | cut full hfull hwidth hpos hle htab =>
      have hbytes := length_le_measureWidth ((l ++ ch :: l').take full)
      rw [hwidth, List.length_take, Nat.min_eq_left hfull] at hbytes
      rcases Nat.lt_or_ge l.length full with hin | hbehind
      · rcases Nat.lt_or_ge l.length len with hcut | hkept
        · -- the byte stays in the line
          obtain ⟨k, rfl⟩ := Nat.exists_eq_add_of_lt hcut
          have hdrop : (l ++ ch :: l').drop (l.length + k + 1) = l'.drop k := by
            rw [Nat.add_assoc, List.drop_length_add_append, List.drop_succ_cons]
          rw [hdrop]
          refine Nat.le_trans (measureWidth_drop_le k l') ?_
          exact Nat.le_trans (measureWidth_suffix_le l l') hold
        · obtain ⟨n, rfl⟩ := Nat.exists_eq_add_of_lt hin
          have htake : (l ++ ch :: l').take (l.length + n + 1) = l ++ ch :: l'.take n := by
            rw [Nat.add_assoc, List.take_length_add_append, List.take_succ_cons]
          rw [htake] at htab
          exact width_drop_insert_inside hold hkept hpos htab
      · rw [List.take_append_of_le_length hbehind] at hwidth
        have hsplit : (l ++ ch :: l').drop len =
            ((l ++ ch :: l').take full).drop len ++ (l ++ ch :: l').drop full := by
          have hparts := List.take_append_drop (full - len) ((l ++ ch :: l').drop len)
          rw [List.drop_drop, Nat.add_sub_cancel' hle] at hparts
          rw [List.drop_take, hparts]
        rw [hsplit, measureWidth_append]
        unfold measureWidth
        rw [columnFrom_noTab 0 htab, Nat.zero_add, List.length_drop, List.length_take,
          Nat.min_eq_left hfull]
        exact width_drop_insert_behind hold hbehind hwidth (by omega)

end measure

end Ytht
