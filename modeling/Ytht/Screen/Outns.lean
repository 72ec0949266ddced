import Ytht.Screen.Picture

/-!
# Screen.Outns

`outns`, which draws a text with its escape sequences on the picture: the cursor, the colours, and
what else a sequence can ask for.
-/

namespace Ytht.Screen

open Vt (Mode Color Cell)

variable (s : Screen)

/-- `isalpha` -/
def isalpha (c : UInt8) : Bool := (65 ≤ c && c ≤ 90) || (97 ≤ c && c ≤ 122)

/-- `(char) i` -/
def toChar (i : Int) : Int := (i + 128) % 256 - 128

/-- The end of `\033[<`: the text at the first `>` outside quotes, or where the search stops; `room`
is what is left of the `n` characters. -/
def quoted : Bool → Bool → Nat → List UInt8 → List UInt8
  | _, _, 0, str => str
  | _, _, _, [] => []
  | quote, quoteQuote, room + 1, c :: str =>
      if c = 27 ∨ c = 62 ∧ ¬ quote ∧ ¬ quoteQuote then c :: str
      else
        quoted (if c = 39 ∧ ¬ quoteQuote then !quote else quote)
          (if c = 34 ∧ ¬ quote then !quoteQuote else quoteQuote) room str

/-- One number of `\033[...m`. -/
def setRendition (m : Int) : Screen :=
  if m = 0 then { s with curMode := s.defaultCurMode, curColor := s.defaultCurColor }
  else if m = 1 then { s with curMode := { s.curMode with bright := true } }
  else if m = 4 then { s with curMode := { s.curMode with underline := true } }
  else if m = 5 then { s with curMode := { s.curMode with blink := true } }
  else if m = 7 then { s with curMode := { s.curMode with reverse := true } }
  else if 30 ≤ m ∧ m ≤ 37 then { s with curColor := { s.curColor with fg := (m - 30).toNat } }
  else if 40 ≤ m ∧ m ≤ 47 then
    let m := if m = 40 then 48 else m
    { s with curColor := { s.curColor with bg := (m - 40).toNat } }
  else s

/-- The numbers of `\033[...m`, up to the first that is none. -/
def renditions : Nat → List UInt8 → Screen → Screen
  | 0, _, s => s
  | fuel + 1, str, s =>
      let digits := str.takeWhile isdigit
      let s' := if digits = [] then s else s.setRendition (atoi digits)
      match str.dropWhile isdigit with
      | [] => s'
      | 59 :: str => renditions fuel str s'
      | _ => s

/-- `\033[y;xH`, where the first `;` is at `str[j]`. -/
def gotoYX (body : List UInt8) (j : Nat) : Screen :=
  let y := toChar (atoi (body.take (j - 2)) - 1 + s.offsetln)
  let x := toChar (atoi (body.drop (j - 1)) - 1)
  if 0 ≤ y ∧ y < s.scrLns ∧ 0 ≤ x ∧ x < s.scrCols then
    { s with curCol := x.toNat, curLn := y.toNat }
  else s

/-- `\033[kA`, `B`, `C` and `D`. -/
def moveBy (k : Int) (fin : UInt8) : Screen :=
  if s.disableMove then s
  else
    let ln : Int :=
      if fin = 65 then (if k ≤ s.curLn then s.curLn - k else 0)
      else if fin = 66 then (if s.curLn < s.scrLns - k then s.curLn + k else s.scrLns - 1)
      else s.curLn
    let col : Int :=
      if fin = 67 then (if s.curCol < s.scrCols - k then s.curCol + k else s.scrCols)
      else if fin = 68 then (if k ≤ s.curCol then s.curCol - k else 0)
      else s.curCol
    let col := if col < 0 then 0 else col
    let col := if (s.scrCols : Int) ≤ col then (s.scrCols : Int) else col
    let ln := if ln < s.offsetln then (s.offsetln : Int) else ln
    let ln := if (s.scrLns : Int) ≤ ln then (s.scrLns : Int) - 1 else ln
    { s with curLn := ln.toNat, curCol := col.toNat }

/-- A tab. -/
def tab : Screen :=
  (List.range ((s.curCol / 8 + 1) * 8 - s.curCol)).foldl (fun s _ => s.putIn (s.ring s.curLn) 32) s

/-- A sequence `\033[`, `body` and the character `fin` that ends it, which is 0 for the end of the
text; `str` is the text behind.  `none` is the branch that writes a `*` instead. -/
def sequence (pending : Bool) (body : List UInt8) (fin : UInt8) : Option Screen :=
  let i := body.length + 2
  if fin = 72 then
    let j := body.idxOf 59 + 2
    if j < i ∧ (3 ≤ j ∧ j ≤ 4) ∧ 2 ≤ i - j ∧ i - j ≤ 4 then some (s.gotoYX body j)
    else if 27 + j ≠ 59 then some (if s.offsetln = 0 then s.clear else s)
    else none
  else if (65 ≤ fin ∧ fin ≤ 68) ∧ i ≤ 5 then
    some (s.moveBy (if body = [] then 1 else atoi body) fin)
  else if fin = 115 ∧ i = 2 then some { s with savey := s.curLn, savex := s.curCol }
  else if fin = 117 ∧ i = 2 then
    if s.savey ≠ -1 ∧ s.savex ≠ -1 ∧ ¬ s.disableMove then
      some { s with curLn := s.savey.toNat, curCol := s.savex.toNat }
    else none
  else if fin = 74 then some (if s.disableMove then s else s.clear)
  else if fin = 109 then
    let s := renditions (body.length + 1) body s
    some (if i = 2 then { s with curMode := s.defaultCurMode, curColor := s.defaultCurColor } else s)
  else if fin = 77 then
    some (if body.all isdigit then (s.refresh pending).output (27 :: 91 :: (body ++ [fin])) else s)
  else if isalpha fin then some s
  else none

/-- What follows `\033[`: the screen, and the text that is left. -/
def escape (pending : Bool) (room : Nat) (text : List UInt8) : Screen × List UInt8 :=
  let ln := s.ring s.curLn
  let quote := quoted false false (room - 2) text
  if text.head? = some 60 ∧ quote.head? = some 62 then (s, quote.tail)
  else
    let body := text.takeWhile fun c => !(isalpha c || c = 27)
    let behind := text.dropWhile fun c => !(isalpha c || c = 27)
    let fin := behind.headD 0
    match s.sequence pending body fin with
    | some s' => (s', behind.tail)
    | none =>
        -- `\033[u` has been passed over when nothing was saved, and one more character is
        if fin = 117 ∧ body = [] then (s.putIn ln 42, behind.tail.tail)
        else (s.putIn ln 42, 91 :: text)

/-- One round of the loop: the screen, and the text that is left. -/
def outnsStep (pending : Bool) (room : Nat) (c : UInt8) (str : List UInt8) :
    Screen × List UInt8 :=
  let ln := s.ring s.curLn
  if isprint2 c then
    (({ s with bigPicture := fun j => if j = ln then { s.bigPicture j with lchanged := true }
        else s.bigPicture j }).putIn ln c, str)
  else if c = 13 then (s, str)
  else if c = 27 then
    match str with
    | 91 :: text => s.escape pending room text
    | _ => (s, str)
  else if c = 10 then
    ({ s with curLn := if s.curLn < s.scrLns - 1 then s.curLn + 1 else s.curLn, curCol := 0 }, str)
  else if c = 9 then (s.tab, str)
  else (s.putIn ln 42, str)

/-- The loop of `outns`; every round takes at least one character. -/
def outnsLoop (pending : Bool) : Nat → Nat → List UInt8 → Screen → Screen
  | fuel + 1, room + 1, c :: str, s =>
      let next := s.outnsStep pending (room + 1) c str
      outnsLoop pending fuel (room + 1 - (str.length + 1 - next.2.length)) next.2 next.1
  | _, _, _, s => s

/-- `outns`; the text ends with its NUL, or after `n` characters. -/
def outns (pending : Bool) (str : List UInt8) (n : Nat) : Screen :=
  outnsLoop pending str.length n (str.takeWhile (· ≠ 0)) s

end Ytht.Screen
