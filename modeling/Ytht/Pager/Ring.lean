import Ytht.Pager.Lines

/-!
# Pager.Ring

`struct MemMoreLines` of `more.c`: the lines of a text as the pager moves through them.

The structure keeps the last hundred lines that were measured, in a ring, and starts again from the
front of the text to go back further.  `pager_refines` says that none of it shows: after any moves
the current line is the one that a cursor in the list of all lines is at.
-/

namespace Ytht.Pager

open Function (update)

/-- `struct MemMoreLines`; a `Line` is one place of `line`, `ty`, `len` and `s`. -/
structure MemMoreLines where
  ptr : List UInt8
  slot : Nat → Line
  start : Nat
  num : Nat
  currLine : Nat
  curr : Nat
  currty : LineCode
  currlen : Nat
  total : Nat

namespace MemMoreLines

/-- `curr_line` is `n`, and `curr`, `currlen` and `currty` are those of its slot. -/
def point (l : MemMoreLines) (n : Nat) : MemMoreLines :=
  { l with
    currLine := n
    curr := (l.slot (n % 100)).line
    currlen := (l.slot (n % 100)).len
    currty := (l.slot (n % 100)).ty }

/-- `line[u] = p0`, before the line is measured. -/
def place (l : MemMoreLines) (u p0 : Nat) : MemMoreLines :=
  { l with slot := update l.slot u { l.slot u with line := p0 } }

/-- The loop of `init_MemMoreLines`, `n` rounds of it; `none` for the crash of `measure_line`.  With
it comes whether the loop ended because nothing was left, `s == 0`. -/
def fill (columns : Nat) : Nat → Nat → LineCode → MemMoreLines → Option (MemMoreLines × Bool)
  | 0, p0, _, l => some (l, p0 = l.ptr.length)
  | n + 1, p0, oldty, l =>
      let u := (l.start + l.num) % 100
      let l := l.place u p0
      match measureLine columns (l.ptr.drop p0) oldty with
      | .crash => none
      | .ended => some (l, p0 = l.ptr.length)
      | .line m =>
          fill columns n (p0 + m.s) m.ty
            { l with slot := update l.slot u (.of p0 m), num := l.num + 1 }

/-- `init_MemMoreLines`, without `effectiveline`. -/
def init (columns : Nat) (l : MemMoreLines) (ptr : List UInt8) : Option MemMoreLines :=
  (fill columns 25 0 .normal { l with ptr := ptr, start := 0, num := 0, total := 0 }).map fun r =>
    { r.1.point 0 with total := if r.2 then r.1.num else r.1.total }

/-- The first line is given up when the ring is full. -/
def makeRoom (l : MemMoreLines) : MemMoreLines :=
  if l.num = 100 then { l with start := l.start + 1, num := l.num - 1 } else l

/-- `next_MemMoreLines`, and what it returns. -/
def next (columns : Nat) (l : MemMoreLines) : Option (MemMoreLines × Int) :=
  if l.start + l.num ≤ l.currLine + 1 then
    let last := l.slot ((l.start + l.num - 1) % 100)
    let l := l.makeRoom
    let p0 := last.line + last.s
    let n := (l.start + l.num) % 100
    let l := l.place n p0
    match measureLine columns (l.ptr.drop p0) last.ty with
    | .crash => none
    | .ended => some ({ l with total := l.start + l.num }, -1)
    | .line m =>
        let l := { l with slot := update l.slot n (.of p0 m), num := l.num + 1 }
        some (l.point (l.currLine + 1), l.currLine + 1)
  else some (l.point (l.currLine + 1), l.currLine + 1)

/-- `while (l->curr_line != n) if (next_MemMoreLines(l) < 0) return -1`, `fuel` rounds of it. -/
def forward (columns : Nat) (n : Nat) : Nat → MemMoreLines → Option (MemMoreLines × Int)
  | 0, _ => none
  | fuel + 1, l =>
      if l.currLine = n then some (l, n)
      else
        match l.next columns with
        | none => none
        | some (l, r) => if r < 0 then some (l, -1) else forward columns n fuel l

/-- `seek_MemMoreLines` for a line that is not negative. -/
def seekTo (columns : Nat) (l : MemMoreLines) (n : Nat) : Option (MemMoreLines × Int) :=
  let again :=
    if n < l.start then (l.init columns l.ptr).map fun l' => { l' with total := l.total } else some l
  again.bind fun l =>
    if n < l.start + l.num then some (l.point n, n)
    else forward columns n (n + 1 - l.currLine) l

/-- `seek_MemMoreLines`, and what it returns. -/
def seek (columns : Nat) (l : MemMoreLines) (n : Int) : Option (MemMoreLines × Int) :=
  if n < 0 then (l.seekTo columns 0).map fun r => (r.1, -1) else l.seekTo columns n.toNat

/-! ## The ring holds lines of the text -/

variable {columns : Nat} {text : List UInt8} {l : MemMoreLines}

/-- The current line is line `currLine` of the text. -/
def Shows (columns : Nat) (text : List UInt8) (l : MemMoreLines) : Prop :=
  ∃ x, lineAt columns text l.currLine = some x ∧ l.curr = x.line ∧ l.currlen = x.len ∧
    l.currty = x.ty

/-- What `total` can be, once it is known; where the text ends with the 25th line `init` does not
count the last line, which is for the links of the article. -/
def Totals (columns : Nat) (text : List UInt8) (total : Nat) : Prop :=
  total = 0 ∨ total = (lines columns text).length ∨
    total = 25 ∧ (lines columns text).length = 26

/-- What holds between two calls. -/
structure Cached (columns : Nat) (text : List UInt8) (l : MemMoreLines) : Prop where
  ptr : l.ptr = text
  holds : Window.Holds 100 (lineAt columns text) l.slot l.start l.num
  num_le : l.num ≤ 100
  start_le : l.start ≤ l.currLine
  lt : l.currLine < l.start + l.num
  shows : Shows columns text l
  total : Totals columns text l.total

theorem lineAt_eq_some_iff (hcols : 2 ≤ columns) {n : Nat} :
    (lineAt columns text n).isSome ↔ n < (lines columns text).length := by
  rw [← getElem?_lines hcols, Option.isSome_iff_exists]
  simp [List.getElem?_eq_some_iff]

/-- The list is as long as the first line that there is not. -/
theorem length_lines (hcols : 2 ≤ columns) {n : Nat} (hsome : n = 0 ∨ (lineAt columns text (n - 1)).isSome)
    (hnone : lineAt columns text n = none) : (lines columns text).length = n := by
  rw [lineAt_eq_some_iff hcols] at hsome
  have hle : ¬ n < (lines columns text).length := by
    rw [← lineAt_eq_some_iff hcols, hnone]
    simp
  omega

theorem Shows.point {n : Nat} (hn : lineAt columns text n = some (l.slot (n % 100))) :
    Shows columns text (l.point n) :=
  ⟨_, hn, rfl, rfl, rfl⟩

theorem place_slot_of_ne {u k : Nat} (h : k ≠ u) (p0 : Nat) : (l.place u p0).slot k = l.slot k :=
  Function.update_of_ne h _ _

/-- Behind the end of the text there is at most the line for the links. -/
theorem lineAt_succ_eq_none {n line : Nat} {oldty : LineCode}
    (hat : lineAt columns text n = measureAt columns text line oldty) (hline : text.drop line = []) :
    lineAt columns text (n + 1) = none := by
  have hnext : lineAt columns text (n + 1) = (lineAt columns text n).bind (nextLineOf columns text) :=
    rfl
  rw [hnext, hat]
  cases hx : measureAt columns text line oldty with
  | none => rfl
  | some x =>
      obtain ⟨rfl, hm⟩ := measureAt_eq_some hx
      rw [hline, measureLine, if_pos rfl] at hm
      split at hm
      · obtain ⟨hlen, hs, hty⟩ : 0 = x.len ∧ 0 = x.s ∧ .articleLink = x.ty := by
          simpa using hm
        rw [Option.bind_some, nextLineOf, ← hs, ← hty, Nat.add_zero, measureAt, hline]
        rfl
      · contradiction

theorem fill_spec (hcols : 2 ≤ columns) (hsafe : Safe columns text) {n p0 : Nat} {oldty : LineCode}
    (hptr : l.ptr = text) (hstart : l.start = 0)
    (hholds : Window.Holds 100 (lineAt columns text) l.slot 0 l.num) (hnum : l.num + n ≤ 25)
    (hat : lineAt columns text l.num = measureAt columns text p0 oldty) (hp0 : p0 ≤ text.length)
    (hok : measureLine columns (text.drop p0) oldty ≠ .crash) :
    ∃ slot num b, fill columns n p0 oldty l = some ({ l with slot := slot, num := num }, b) ∧
      Window.Holds 100 (lineAt columns text) slot 0 num ∧ num ≤ l.num + n ∧
      (num = l.num + n ∨ lineAt columns text num = none) ∧
      (b = true → lineAt columns text (num + 1) = none) := by
  induction n generalizing l p0 oldty with
  | zero =>
      refine ⟨l.slot, l.num, _, rfl, hholds, Nat.le_add_right _ _, .inl rfl, fun hb => ?_⟩
      refine lineAt_succ_eq_none hat (List.drop_eq_nil_iff.mpr ?_)
      rw [hptr] at hb
      exact le_of_eq (of_decide_eq_true hb).symm
  | succ n ih =>
      have hu : (l.start + l.num) % 100 = (0 + l.num) % 100 := by rw [hstart]
      have htext : (l.place ((0 + l.num) % 100) p0).ptr = text := hptr
      rw [fill, hu]
      cases hm : measureLine columns ((l.place ((0 + l.num) % 100) p0).ptr.drop p0) oldty with
      | crash => exact absurd (htext ▸ hm) hok
      | ended =>
          rw [htext] at hm
          have hnone : lineAt columns text l.num = none := by
            rw [hat, measureAt, hm]
          refine ⟨_, l.num, _, rfl, hholds.write (by omega) _, Nat.le_add_right _ _, .inr hnone,
            fun _ => ?_⟩
          exact Window.nth_eq_none _ hnone (Nat.le_succ _)
      | line m =>
          rw [htext] at hm
          have hx : lineAt columns text (0 + l.num) = some (.of p0 m) := by
            rw [Nat.zero_add, hat, measureAt, hm]
          have hle := (measures_measureLine hm).le hcols
          rw [List.length_drop] at hle
          have hpush := hholds.push (by omega) hx
          have hsucc : lineAt columns text (l.num + 1) =
              measureAt columns text (p0 + m.s) m.ty := by
            rw [Nat.zero_add] at hx
            exact congrArg (fun x => x.bind (nextLineOf columns text)) hx
          obtain ⟨slot, num, b, hfill, hholds', hnum', hend, hb⟩ :=
            ih (l := { l with slot := update l.slot ((0 + l.num) % 100) (.of p0 m), num := l.num + 1 })
              hptr hstart hpush (by dsimp only; omega) hsucc (by omega)
              (hsafe.next l.num _ (by rw [Nat.zero_add] at hx; exact hx))
          refine ⟨slot, num, b, ?_, hholds', by dsimp only at hnum'; omega, ?_, hb⟩
          · have hidem : update (l.place ((0 + l.num) % 100) p0).slot ((0 + l.num) % 100) (.of p0 m) =
                update l.slot ((0 + l.num) % 100) (.of p0 m) := Function.update_idem _ _ _
            dsimp only
            rw [hidem]
            exact hfill
          · refine hend.imp_left fun heq => ?_
            dsimp only at heq
            omega

theorem isSome_lineAt_zero (hsafe : Safe columns text) (htext : text ≠ []) :
    (lineAt columns text 0).isSome := by
  have hfirst : lineAt columns text 0 = measureAt columns text 0 .normal := rfl
  rw [hfirst, Option.isSome_iff_ne_none]
  intro hnone
  exact htext (measureAt_eq_none hnone hsafe.first).1

/-- From the front of the text; whatever the structure was before. -/
theorem init_spec (hcols : 2 ≤ columns) (hsafe : Safe columns text) (htext : text ≠ [])
    (l : MemMoreLines) :
    ∃ l', l.init columns text = some l' ∧ Cached columns text l' ∧ l'.currLine = 0 := by
  obtain ⟨slot, num, b, hfill, hholds, hle, hend, hb⟩ := fill_spec (n := 25) hcols hsafe
    (l := { l with ptr := text, start := 0, num := 0, total := 0 }) rfl rfl
    (Window.Holds.empty 0) (le_refl 25) rfl (Nat.zero_le _) hsafe.first
  dsimp only at hfill hend hle
  have hfirst := isSome_lineAt_zero hsafe htext
  have hpos : 0 < num := by
    obtain heq | hnone := hend
    · omega
    · refine Nat.pos_of_ne_zero fun hzero => ?_
      rw [hzero] at hnone
      simp [hnone] at hfirst
  refine ⟨_, by rw [init, hfill]; rfl, ⟨rfl, hholds, by dsimp only [point]; omega, le_refl 0, ?_, ?_, ?_⟩,
    rfl⟩
  · dsimp only [point]
    omega
  · exact Shows.point (hholds 0 (le_refl 0) (by omega))
  · dsimp only [point]
    cases b with
    | false => exact .inl rfl
    | true =>
        have hlast : (lineAt columns text (num - 1)).isSome := by
          rw [hholds (num - 1) (Nat.zero_le _) (by omega)]
          rfl
        cases hnum : lineAt columns text num with
        | none => exact .inr (.inl (length_lines hcols (.inr hlast) hnum).symm)
        | some x =>
            have hlen := length_lines hcols (.inr (by rw [Nat.add_sub_cancel, hnum]; rfl)) (hb rfl)
            have heq : num = 0 + 25 := hend.resolve_right (by simp [hnum])
            refine .inr (.inr ⟨?_, ?_⟩)
            · rw [if_pos rfl, heq]
            · rw [hlen, heq]

/-! ## A cursor in the list -/

/-- What `next_MemMoreLines` is for: the cursor moves to the next of `n` lines, if there is one. -/
def cursorNext (n c : Nat) : Nat × Int := if c + 1 < n then (c + 1, c + 1) else (c, -1)

/-- What `seek_MemMoreLines` is for: the cursor moves to line `i`, or as far as there are lines. -/
def cursorSeek (n : Nat) (i : Int) : Nat × Int :=
  if i < 0 then (0, -1) else if i < n then (i.toNat, i) else (n - 1, -1)

/-- Moving within the ring. -/
theorem Cached.point (hcols : 2 ≤ columns) (h : Cached columns text l) {n : Nat}
    (hstart : l.start ≤ n) (hlt : n < l.start + l.num) :
    Cached columns text (l.point n) ∧ n < (lines columns text).length := by
  have hn := h.holds n hstart hlt
  refine ⟨⟨h.ptr, h.holds, h.num_le, hstart, hlt, .point hn, h.total⟩, ?_⟩
  rw [← lineAt_eq_some_iff hcols, hn]
  rfl

theorem Cached.makeRoom (h : Cached columns text l) (hlast : l.start + l.num ≤ l.currLine + 1) :
    Cached columns text l.makeRoom ∧ l.makeRoom.slot = l.slot ∧ l.makeRoom.currLine = l.currLine ∧
      l.makeRoom.start + l.makeRoom.num = l.start + l.num ∧ l.makeRoom.num < 100 := by
  have hlt := h.lt
  have hle := h.num_le
  by_cases hfull : l.num = 100
  · have hroom : l.makeRoom = { l with start := l.start + 1, num := l.num - 1 } := if_pos hfull
    have hnum : l.num = l.num - 1 + 1 := by omega
    have hholds := h.holds
    rw [hnum] at hholds
    rw [hroom]
    refine ⟨⟨h.ptr, hholds.shift, ?_, ?_, ?_, h.shows, h.total⟩, rfl, rfl, ?_, ?_⟩ <;> dsimp only <;>
      omega
  · have hroom : l.makeRoom = l := if_neg hfull
    rw [hroom]
    exact ⟨h, rfl, rfl, rfl, by omega⟩

theorem next_spec (hcols : 2 ≤ columns) (hsafe : Safe columns text) (h : Cached columns text l) :
    ∃ l' r, l.next columns = some (l', r) ∧ Cached columns text l' ∧
      (l'.currLine, r) = cursorNext (lines columns text).length l.currLine := by
  have hlt := h.lt
  have hstart := h.start_le
  by_cases hlast : l.start + l.num ≤ l.currLine + 1
  · obtain ⟨hroom, hslot, hcurr, hend, hnum⟩ := h.makeRoom hlast
    have hprev := h.holds (l.start + l.num - 1) (by omega) (by omega)
    rw [next, if_pos hlast]
    generalize l.slot ((l.start + l.num - 1) % 100) = last at hprev
    generalize l.makeRoom = room at *
    have hnext : lineAt columns text (room.start + room.num) =
        measureAt columns text (last.line + last.s) last.ty := by
      have hsucc : room.start + room.num = l.start + l.num - 1 + 1 := by omega
      rw [hsucc]
      exact congrArg (fun x => x.bind (nextLineOf columns text)) hprev
    have htext : (room.place ((room.start + room.num) % 100) (last.line + last.s)).ptr = text :=
      hroom.ptr
    dsimp only
    cases hm : measureLine columns ((room.place ((room.start + room.num) % 100)
        (last.line + last.s)).ptr.drop (last.line + last.s)) last.ty with
    | crash =>
        rw [htext] at hm
        exact absurd hm (hsafe.next _ _ hprev)
    | ended =>
        rw [htext] at hm
        have hnone : lineAt columns text (room.start + room.num) = none := by
          rw [hnext, measureAt, hm]
        have hlen := length_lines hcols (.inr (by rw [hend, hprev]; rfl)) hnone
        refine ⟨_, _, rfl, ⟨hroom.ptr, hroom.holds.write hnum _, hroom.num_le, hroom.start_le,
          hroom.lt, hroom.shows, .inr (.inl hlen.symm)⟩, ?_⟩
        rw [cursorNext, if_neg (by omega), ← hcurr]
        rfl
    | line m =>
        rw [htext] at hm
        have hx : lineAt columns text (room.start + room.num) = some (.of (last.line + last.s) m) := by
          rw [hnext, measureAt, hm]
        have hidem : update (room.place ((room.start + room.num) % 100) (last.line + last.s)).slot
            ((room.start + room.num) % 100) (.of (last.line + last.s) m) =
            update room.slot ((room.start + room.num) % 100) (.of (last.line + last.s) m) :=
          Function.update_idem _ _ _
        dsimp only
        rw [hidem]
        have hpush : Cached columns text { room with
            slot := update room.slot ((room.start + room.num) % 100) (.of (last.line + last.s) m)
            num := room.num + 1 } :=
          ⟨hroom.ptr, hroom.holds.push hnum hx, hnum, hroom.start_le, Nat.lt_succ_of_lt hroom.lt,
            hroom.shows, hroom.total⟩
        obtain ⟨hpoint, hlen⟩ := hpush.point hcols (n := room.currLine + 1)
          (Nat.le_succ_of_le hroom.start_le) (Nat.succ_lt_succ hroom.lt)
        refine ⟨_, _, rfl, hpoint, ?_⟩
        rw [cursorNext, ← hcurr, if_pos hlen]
        rfl
  · rw [next, if_neg hlast]
    obtain ⟨hpoint, hlen⟩ := h.point hcols (n := l.currLine + 1) (by omega) (by omega)
    refine ⟨_, _, rfl, hpoint, ?_⟩
    rw [cursorNext, if_pos hlen]
    rfl

theorem forward_spec (hcols : 2 ≤ columns) (hsafe : Safe columns text)
    (h : Cached columns text l) {n fuel : Nat} (hle : l.currLine ≤ n) (hfuel : n < l.currLine + fuel) :
    ∃ l' r, forward columns n fuel l = some (l', r) ∧ Cached columns text l' ∧
      (l'.currLine, r) = cursorSeek (lines columns text).length n := by
  have hin : l.currLine < (lines columns text).length := (h.point hcols h.start_le h.lt).2
  induction fuel generalizing l with
  | zero => omega
  | succ fuel ih =>
      rw [forward]
      by_cases hdone : l.currLine = n
      · rw [if_pos hdone]
        refine ⟨_, _, rfl, h, ?_⟩
        rw [cursorSeek, if_neg (by omega), if_pos (by omega), hdone]
        rfl
      · obtain ⟨l', r, hnext, hcached, hcursor⟩ := next_spec hcols hsafe h
        rw [if_neg hdone, hnext]
        dsimp only
        rw [cursorNext] at hcursor
        split at hcursor
        · next hlt =>
            obtain ⟨hcurr, rfl⟩ := Prod.mk.inj hcursor
            rw [if_neg (by omega)]
            exact ih hcached (by omega) (by omega) (by omega)
        · next hend =>
            obtain ⟨hcurr, rfl⟩ := Prod.mk.inj hcursor
            rw [if_pos (by decide)]
            refine ⟨_, _, rfl, hcached, ?_⟩
            rw [cursorSeek, if_neg (by omega), if_neg (by omega), hcurr]
            congr 1
            omega

theorem seekTo_spec (hcols : 2 ≤ columns) (hsafe : Safe columns text) (htext : text ≠ [])
    (h : Cached columns text l) (n : Nat) :
    ∃ l' r, l.seekTo columns n = some (l', r) ∧ Cached columns text l' ∧
      (l'.currLine, r) = cursorSeek (lines columns text).length n := by
  -- from a ring that does not begin behind the line
  have hfrom : ∀ l : MemMoreLines, Cached columns text l → l.start ≤ n →
      ((l.currLine ≤ n) ∨ n < l.start + l.num) →
      ∃ l' r, (if n < l.start + l.num then some (l.point n, (n : Int))
          else forward columns n (n + 1 - l.currLine) l) = some (l', r) ∧
        Cached columns text l' ∧ (l'.currLine, r) = cursorSeek (lines columns text).length n := by
    intro l h hstart hor
    by_cases hlt : n < l.start + l.num
    · obtain ⟨hpoint, hlen⟩ := h.point hcols hstart hlt
      refine ⟨_, _, if_pos hlt, hpoint, ?_⟩
      rw [cursorSeek, if_neg (by omega), if_pos (by omega)]
      rfl
    · rw [if_neg hlt]
      exact forward_spec hcols hsafe h (by omega) (by omega)
  have hlt := h.lt
  rw [seekTo]
  by_cases hback : n < l.start
  · obtain ⟨l', hinit, hcached, hcurr⟩ := init_spec hcols hsafe htext l
    rw [if_pos hback, h.ptr, hinit]
    refine hfrom { l' with total := l.total } ?_ ?_ (.inl ?_)
    · exact ⟨hcached.ptr, hcached.holds, hcached.num_le, hcached.start_le, hcached.lt, hcached.shows,
        h.total⟩
    · have hstart := hcached.start_le
      dsimp only
      omega
    · dsimp only
      omega
  · rw [if_neg hback]
    exact hfrom l h (by omega) (by omega)

theorem seek_spec (hcols : 2 ≤ columns) (hsafe : Safe columns text) (htext : text ≠ [])
    (h : Cached columns text l) (i : Int) :
    ∃ l' r, l.seek columns i = some (l', r) ∧ Cached columns text l' ∧
      (l'.currLine, r) = cursorSeek (lines columns text).length i := by
  rw [seek]
  by_cases hneg : i < 0
  · obtain ⟨l', r, hseek, hcached, hcursor⟩ := seekTo_spec hcols hsafe htext h 0
    have hin : 0 < (lines columns text).length :=
      (lineAt_eq_some_iff hcols).mp (isSome_lineAt_zero hsafe htext)
    rw [if_pos hneg, hseek]
    refine ⟨l', -1, rfl, hcached, ?_⟩
    rw [cursorSeek, if_neg (by omega), if_pos (by omega)] at hcursor
    rw [cursorSeek, if_pos hneg, (Prod.mk.inj hcursor).1]
    rfl
  · obtain ⟨l', r, hseek, hcached, hcursor⟩ := seekTo_spec hcols hsafe htext h i.toNat
    rw [if_neg hneg]
    rw [Int.toNat_of_nonneg (by omega)] at hcursor
    exact ⟨l', r, hseek, hcached, hcursor⟩

/-! ## Any moves -/

/-- A call of the pager. -/
inductive Move
  | next
  | seek (n : Int)

/-- The call, and what it returns. -/
def Move.call (columns : Nat) (l : MemMoreLines) : Move → Option (MemMoreLines × Int)
  | .next => l.next columns
  | .seek n => l.seek columns n

/-- The call on a cursor in a list of `n` lines. -/
def Move.cursor (n c : Nat) : Move → Nat × Int
  | .next => cursorNext n c
  | .seek i => cursorSeek n i

/-- The calls one after another, and what they return. -/
def moves (columns : Nat) : List Move → MemMoreLines → Option (MemMoreLines × List Int)
  | [], l => some (l, [])
  | m :: ms, l => do
      let (l, r) ← m.call columns l
      let (l, rs) ← moves columns ms l
      return (l, r :: rs)

/-- The same calls on a cursor. -/
def cursorMoves (n : Nat) : List Move → Nat → Nat × List Int
  | [], c => (c, [])
  | m :: ms, c =>
      ((cursorMoves n ms (m.cursor n c).1).1, (m.cursor n c).2 :: (cursorMoves n ms (m.cursor n c).1).2)

theorem moves_spec (hcols : 2 ≤ columns) (hsafe : Safe columns text) (htext : text ≠ [])
    (ms : List Move) (h : Cached columns text l) :
    ∃ l' rs, moves columns ms l = some (l', rs) ∧ Cached columns text l' ∧
      (l'.currLine, rs) = cursorMoves (lines columns text).length ms l.currLine := by
  induction ms generalizing l with
  | nil => exact ⟨l, [], rfl, h, rfl⟩
  | cons m ms ih =>
      have hstep : ∃ l' r, m.call columns l = some (l', r) ∧ Cached columns text l' ∧
          (l'.currLine, r) = m.cursor (lines columns text).length l.currLine := by
        cases m with
        | next => exact next_spec hcols hsafe h
        | seek n => exact seek_spec hcols hsafe htext h n
      obtain ⟨l', r, hcall, hcached, hcursor⟩ := hstep
      obtain ⟨l'', rs, hmoves, hcached', hcursor'⟩ := ih hcached
      refine ⟨l'', r :: rs, ?_, hcached', ?_⟩
      · simp [moves, hcall, hmoves]
      · rw [cursorMoves, ← hcursor, ← hcursor']

/-- Whatever the pager does, from a structure that holds anything, it sees the list of the text's
lines: every call returns what it would for a cursor in that list, and `curr`, `currlen` and
`currty` are those of the line that the cursor is at. -/
theorem pager_refines (hcols : 2 ≤ columns) (hsafe : Safe columns text) (htext : text ≠ [])
    (l : MemMoreLines) (ms : List Move) :
    ∃ l' rs x, (l.init columns text).bind (moves columns ms) = some (l', rs) ∧
      (l'.currLine, rs) = cursorMoves (lines columns text).length ms 0 ∧
      (lines columns text)[l'.currLine]? = some x ∧
      (l'.curr, l'.currlen, l'.currty) = (x.line, x.len, x.ty) ∧
      Totals columns text l'.total := by
  obtain ⟨l₁, hinit, hcached, hcurr⟩ := init_spec hcols hsafe htext l
  obtain ⟨l', rs, hmoves, hcached', hcursor⟩ := moves_spec hcols hsafe htext ms hcached
  obtain ⟨x, hx, hline, hlen, hty⟩ := hcached'.shows
  refine ⟨l', rs, x, ?_, hcurr ▸ hcursor, ?_, by rw [hline, hlen, hty], hcached'.total⟩
  · rw [hinit, Option.bind_some, hmoves]
  · rw [getElem?_lines hcols, hx]

theorem pager_refines_two : ∃ l' rs x,
    (init 80 ⟨[], fun _ => ⟨0, .normal, 0, 0⟩, 0, 0, 0, 0, .normal, 0, 0⟩ [97, 10, 98]).bind
        (moves 80 [.next, .seek 7, .seek (-1)]) = some (l', rs) ∧
      (l'.currLine, rs) =
        cursorMoves (lines 80 [97, 10, 98]).length [.next, .seek 7, .seek (-1)] 0 ∧
      (lines 80 [97, 10, 98])[l'.currLine]? = some x ∧
      (l'.curr, l'.currlen, l'.currty) = (x.line, x.len, x.ty) ∧
      Totals 80 [97, 10, 98] l'.total :=
  pager_refines (by decide) (safe_of_no_begin (by decide)) (by decide) _ _

end MemMoreLines

end Ytht.Pager
