import Ytht.Edit.Buffer
import Ytht.Msg.Msgbox
import Ytht.Ythtlib.Strlib

/-!
# Edit.Keys

The editor and its commands, one definition for each function of the source.  What
is shown on the screen (`changed`, `redrawall`) is left out.
-/

namespace Ytht

/-! ## The editor -/

/-- `enabledbchar` and `t_lines`. -/
structure EditConf where
  enabledbchar : Bool
  tLines : Nat

/-- `struct edit`, with the lines it leads to and `searchtext`. -/
structure Edit where
  heap : LineHeap
  firstline : Nat
  curline : Nat
  line : Int
  col : Int
  colcur : Nat
  linecur : Int
  position : Nat
  overwrite : Bool
  searchtext : List UInt8

/-- Memory in which no line was allocated. -/
def LineHeap.empty : LineHeap where
  prev _ := 0
  next _ := 0
  line _ := ⟨[], false⟩
  selected _ := 0
  live _ := false
  fresh := 1

/-- A line is split behind so many bytes: the new line gets its end. -/
def LineHeap.splitLine (h : LineHeap) (ln len : Nat) (br : Bool) : LineHeap × Nat :=
  let text := (h.line ln).text
  let (h', newln) := h.allocNextLine ln
  let h' := h'.setLine newln ⟨text.drop len, (h.line ln).br⟩
  let h' := h'.setLine ln ⟨text.take len, br⟩
  (h'.reflow h'.fresh newln, newln)

namespace Edit

def initEdit : Edit :=
  let (h, firstline) := LineHeap.empty.allocNextLine 0
  ⟨h, firstline, firstline, 0, 0, 0, 0, 0, false, []⟩

variable (c : EditConf) (e : Edit)

/-- `curline->text` -/
def text : List UInt8 := (e.heap.line e.curline).text

/-- `edit->line++; edit->linecur++; edit->curline = edit->curline->next` -/
def toNext : Edit :=
  { e with line := e.line + 1, linecur := e.linecur + 1, curline := e.heap.next e.curline }

/-- `edit->line--; edit->linecur--; edit->curline = edit->curline->prev` -/
def toPrev : Edit :=
  { e with line := e.line - 1, linecur := e.linecur - 1, curline := e.heap.prev e.curline }

/-- `edit->colcur = measureWidth(edit->curline->text, edit->col)` -/
def setColcur : Edit := { e with colcur := measureWidth (e.text.take e.col.toNat) }

/-- What follows a cursor that has come behind the last column: it goes to the next
line, which is made when there is none. -/
def pastEdge : Edit :=
  if e.colcur ≥ MAXLINELEN then
    let h :=
      if e.heap.next e.curline = 0 then
        let (h, newln) := e.heap.allocNextLine e.curline
        h.setNext e.curline newln
      else e.heap
    { ({ e with heap := h }).toNext with col := 0, colcur := 0 }
  else e

/-! ## Typing -/

/-- The part of `insertChar` for a line of which only `len` bytes stay. -/
def breakLine (len : Nat) : Edit :=
  let e := { e with heap := (e.heap.splitLine e.curline len false).1 }
  if e.col > (len : Int) ∨ e.colcur ≥ MAXLINELEN then ({ e.toNext with col := e.col - len }).setColcur
  else e

def insertChar (ch : UInt8) : Edit :=
  let col := e.col.toNat
  let text := e.text.take col ++ ch :: e.text.drop (if e.overwrite then col + 1 else col)
  let e := ({ e with heap := e.heap.setText e.curline text, col := e.col + 1 }).setColcur
  let (len, width) := measureLine text MAXLINELEN 0
  -- `width` is set when all of the line is measured
  let e := if len = text.length ∧ width.getD 0 < MAXLINELEN then e else e.breakLine len
  { e with position := e.colcur }

/-! ## Keys -/

inductive EditKey where
  | enter
  | left
  | right
  | up
  | down
  | pgup
  | pgdn
  | home
  | lineEnd
  | top
  | bottom
  | backspace
  | delete
  | deleteLine
  | deleteToEol
  | insert
  | select
  | other
  deriving DecidableEq

def keyEnter : Edit :=
  let (h, newln) := e.heap.splitLine e.curline e.col.toNat true
  { e with
    heap := h
    col := 0
    colcur := 0
    curline := newln
    line := e.line + 1
    linecur := e.linecur + 1 }

/-- `KEY_LEFT`, which comes back for an empty line that is not ended. -/
def keyLeft : Nat → Edit → Edit
  | 0, e => e
  | fuel + 1, e =>
      if e.col ≠ 0 then
        let col := e.col - 1
        let col := if indb c.enabledbchar e.text col.toNat then col - 1 else col
        ({ e with col }).setColcur
      else if e.heap.prev e.curline ≠ 0 then
        let e := e.toPrev
        let e := { e with col := e.text.length }
        if (e.heap.line e.curline).br = false then keyLeft fuel e else e.setColcur
      else e

/-- `KEY_RIGHT`, which comes back at the end of a line that is not ended. -/
def keyRight : Nat → Edit → Edit
  | 0, e => e
  | fuel + 1, e =>
      if e.col < e.text.length then
        let col := e.col + 1
        let col := if col < e.text.length ∧ indb c.enabledbchar e.text col.toNat then col + 1 else col
        ({ e with col }).setColcur.pastEdge
      else if e.heap.next e.curline ≠ 0 then
        let e := { e.toNext with col := 0, colcur := 0 }
        if (e.heap.line (e.heap.prev e.curline)).br = false then keyRight fuel e else e
      else e

/-- The line before is full, and the cursor is shown behind its end. -/
def behindFull : Prop :=
  e.col = 0 ∧ e.position = MAXLINELEN ∧ e.heap.prev e.curline ≠ 0 ∧
    measureWidth (e.heap.line (e.heap.prev e.curline)).text = MAXLINELEN

instance : Decidable e.behindFull := by
  unfold behindFull
  exact inferInstance

def keyUp : Edit × Nat :=
  let e := if e.behindFull then e.toPrev else e
  if e.heap.prev e.curline ≠ 0 then (e.toPrev, 1) else (e, 2)

def keyDown : Edit × Nat :=
  let e := if e.text ≠ [] ∧ e.behindFull then e.toPrev else e
  if e.heap.next e.curline ≠ 0 then (e.toNext, 1) else (e, 2)

/-- The loop of `KEY_PGUP`. -/
def pageUp : Nat → Edit → Edit
  | 0, e => e
  | i + 1, e => if e.heap.prev e.curline ≠ 0 then pageUp i e.toPrev else e

/-- The loop of `KEY_PGDN`, and that of `Ctrl('T')`. -/
def pageDown : Nat → Edit → Edit
  | 0, e => e
  | i + 1, e => if e.heap.next e.curline ≠ 0 then pageDown i e.toNext else e

def keyPgup : Edit × Nat :=
  if e.heap.prev e.curline = 0 then (e, 0) else (pageUp (c.tLines / 2) e, 1)

def keyPgdn : Edit × Nat :=
  if e.heap.next e.curline = 0 then (e, 0) else (pageDown (c.tLines / 2) e, 1)

def keyEnd : Edit × Nat :=
  let e := ({ e with col := e.text.length }).setColcur.pastEdge
  ({ e with position := MAXLINELEN }, 2)

def keyTop : Edit := { e with col := 0, colcur := 0, line := 0, linecur := 0, curline := e.firstline }

def keyBottom : Edit := pageDown e.heap.fresh e.keyTop

/-- The part of `KEY_DEL` that takes out a character. -/
def delChar : LineHeap :=
  let col := e.col.toNat
  let next := e.heap.next e.curline
  let ptr := (e.heap.line next).text
  if e.col < e.text.length then
    if e.col + 1 < e.text.length ∧ indb c.enabledbchar e.text (col + 1) then
      e.heap.setText e.curline (e.text.take col ++ e.text.drop (col + 2))
    else e.heap.setText e.curline (e.text.take col ++ e.text.drop (col + 1))
  else if (e.heap.line e.curline).br then e.heap.setBr e.curline false
  else if next ≠ 0 then
    if ptr ≠ [] then
      if indb c.enabledbchar ptr 1 ∧ ptr.length > 1 then e.heap.setText next (ptr.drop 2)
      else e.heap.setText next (ptr.drop 1)
    else e.heap.setBr next false
  else e.heap

/-- `KEY_DEL`. -/
def keyDel : Edit :=
  let h := e.delChar c
  { e with heap := h.reflow h.fresh e.curline }

/-- `Ctrl('Y')`. -/
def keyDeleteLine : Edit :=
  let e := { e with col := 0, colcur := 0 }
  let ln := e.curline
  let prev := e.heap.prev ln
  let next := e.heap.next ln
  if prev = 0 ∧ next = 0 then { e with heap := e.heap.setLine ln ⟨[], false⟩ }
  else
    let e :=
      if prev ≠ 0 then
        let h := e.heap.setNext prev next
        { e with heap := if (h.line ln).br then h.setBr prev true else h }
      else { e with firstline := next }
    let e :=
      if next ≠ 0 then { e with heap := e.heap.setPrev next prev, curline := next }
      else { e with curline := prev, line := e.line - 1, linecur := e.linecur - 1 }
    { e with heap := (e.heap.keepSelect ln).free ln }

/-- `Ctrl('K')`. -/
def keyDeleteToEol : Edit :=
  let h := e.heap.setText e.curline (e.text.take e.col.toNat)
  { e with heap := h.reflow h.fresh e.curline }

/-! ## Selected lines -/

end Edit

namespace LineHeap

/-- The first loop of `editSelect`: the first selected line, and whether `curline` is
before it. -/
def findLead : Nat → LineHeap → (curline ln : Nat) → (passed : Bool) → LineHeap × Nat × Bool
  | 0, h, _, ln, passed => (h, ln, passed)
  | fuel + 1, h, curline, ln, passed =>
      if ln = 0 ∨ h.selected ln = 1 then (h, ln, passed)
      else
        let passed := passed || ln == curline
        let h := if h.selected ln ≠ 0 ∧ passed = false then h.setSelected ln 0 else h
        findLead fuel h curline (h.next ln) passed

/-- `while (ln && ln->selected)`: they are selected no more. -/
def unselect : Nat → LineHeap → Nat → LineHeap
  | 0, h, _ => h
  | fuel + 1, h, ln =>
      if ln = 0 ∨ h.selected ln = 0 then h else unselect fuel (h.setSelected ln 0) (h.next ln)

/-- `while (!ln2->selected)`: they are selected, but not the first. -/
def selectOn : Nat → LineHeap → Nat → LineHeap
  | 0, h, _ => h
  | fuel + 1, h, ln =>
      if h.selected ln ≠ 0 then h else selectOn fuel (h.setSelected ln 2) (h.next ln)

/-- The lines up to `curline` are selected. -/
def selectTo : Nat → LineHeap → (curline ln : Nat) → LineHeap
  | 0, h, _, _ => h
  | fuel + 1, h, curline, ln =>
      let h := if h.selected ln = 0 then h.setSelected ln 2 else h
      if ln = curline then h else selectTo fuel h curline (h.next ln)

def editSelect (h : LineHeap) (firstline curline : Nat) : LineHeap :=
  let (h, ln, passed) := h.findLead h.fresh curline firstline false
  if ln = 0 then h.setSelected curline 1
  else if ln = curline then h.unselect h.fresh ln
  else if passed then
    let h := h.selectOn h.fresh curline
    h.unselect h.fresh (h.next ln)
  else
    let h := h.selectTo h.fresh curline (h.next ln)
    h.unselect h.fresh (h.next curline)

/-- The first selected line, and whether `curline` is before it. -/
def findSelected : Nat → LineHeap → (curline ln : Nat) → (passed : Bool) → Nat × Bool
  | 0, _, _, ln, passed => (ln, passed)
  | fuel + 1, h, curline, ln, passed =>
      if ln = 0 ∨ h.selected ln ≠ 0 then (ln, passed)
      else findSelected fuel h curline (h.next ln) (passed || ln == curline)

def clearSelect (h : LineHeap) (firstline curline : Nat) : LineHeap :=
  h.unselect h.fresh (h.findSelected h.fresh curline firstline false).1

/-- The selected lines from a line on are emptied. -/
def emptySelected : Nat → LineHeap → Nat → LineHeap
  | 0, h, _ => h
  | fuel + 1, h, ln =>
      if ln = 0 ∨ h.selected ln = 0 then h
      else emptySelected fuel ((h.setLine ln ⟨[], false⟩).setSelected ln 0) (h.next ln)

end LineHeap

namespace Edit

variable (c : EditConf) (e : Edit)

/-- `curline` goes back to a line, or on to it. -/
def goBack : Nat → Edit → Nat → Edit
  | 0, e, _ => e
  | fuel + 1, e, ln => if e.curline ≠ ln then goBack fuel e.toPrev ln else e

def goOn : Nat → Edit → Nat → Edit
  | 0, e, _ => e
  | fuel + 1, e, ln => if e.curline ≠ ln then goOn fuel e.toNext ln else e

def deleteSelect : Edit :=
  let fuel := e.heap.fresh
  let (ln, passed) := e.heap.findSelected fuel e.curline e.firstline false
  if ln = 0 then e
  else
    let e := if passed then goOn fuel e ln else goBack fuel e ln
    let h := e.heap.emptySelected fuel ln
    { e with col := 0, colcur := 0, heap := h.reflow h.fresh e.curline }

/-! ## All keys -/

/-- The end of `doEditKey`: where the cursor goes in a line it came to from above or
below (`updownkey` is 1), and where it is to go (it is 0). -/
def finishKey (e : Edit) (updownkey : Nat) : Edit :=
  if updownkey = 1 then
    if e.position = 0 then { e with col := 0, colcur := 0 }
    else
      let (col, colcur) := measureLine e.text e.position 2
      ({ e with col, colcur := colcur.getD e.colcur }).pastEdge
  else if updownkey = 0 then { e with position := e.colcur }
  else e

def doEditKey (k : EditKey) : Edit :=
  let (e, updownkey) :=
    match k with
    | .enter => (e.keyEnter, 0)
    | .left => (keyLeft c e.heap.fresh e, 0)
    | .right => (keyRight c e.heap.fresh e, 0)
    | .up => e.keyUp
    | .down => e.keyDown
    | .pgup => e.keyPgup c
    | .pgdn => e.keyPgdn c
    | .home => ({ e with col := 0, colcur := 0 }, 0)
    | .lineEnd => e.keyEnd
    | .top => (e.keyTop, 0)
    | .bottom => (e.keyBottom, 0)
    | .backspace =>
        if e.col = 0 ∧ e.heap.prev e.curline = 0 then (e, 2)
        else (((keyLeft c e.heap.fresh e).finishKey 0).keyDel c, 0)
    | .delete => (e.keyDel c, 0)
    | .deleteLine => (e.keyDeleteLine, 0)
    | .deleteToEol => (e.keyDeleteToEol, 0)
    | .insert => ({ e with overwrite := !e.overwrite }, 0)
    | .select => ({ e with heap := e.heap.editSelect e.firstline e.curline }, 0)
    | .other => (e, 2)
  e.finishKey updownkey

/-! ## Other commands -/

/-- The loop of `searchNextStr`, from a line on; `col` is where its text is read
from. -/
def searchLoop : Nat → Edit → (tmpline : Nat) → (line linecur : Int) → (col : Nat) → Edit
  | 0, e, _, _, _, _ => e
  | fuel + 1, e, tmpline, line, linecur, col =>
      if tmpline = 0 then e
      else
        let text := (e.heap.line tmpline).text
        match strstr e.searchtext (cString (text.drop col)) with
        | some pos =>
            let col := col + pos + e.searchtext.length
            ({ e with curline := tmpline, line, linecur, position := col, col }).setColcur
        | none => searchLoop fuel e (e.heap.next tmpline) (line + 1) (linecur + 1) 0

def searchNextStr : Edit :=
  if e.searchtext = [] then e
  else searchLoop e.heap.fresh e e.curline e.line e.linecur e.col.toNat

/-- `searchStr`, with the text that is typed. -/
def searchStr (tmp : List UInt8) : Edit :=
  if tmp = [] then e else ({ e with searchtext := tmp }).searchNextStr

/-- The loop of `gotoline`, `i` times more: the line and its number. -/
def gotoLoop : Nat → LineHeap → (tmpline lastline : Nat) → Int → Nat × Int
  | 0, _, tmpline, _, line => (tmpline, line)
  | i + 1, h, tmpline, lastline, line =>
      if tmpline = 0 then (lastline, line - 1)
      else gotoLoop i h (h.next tmpline) tmpline (line + 1)

/-- `gotoline`, with the number that is typed. -/
def gotoline (gline : Int) : Edit :=
  let (tmpline, line) := gotoLoop (gline - 1).toNat e.heap e.firstline 0 0
  { e with curline := tmpline, line, linecur := line, position := 0, col := 0, colcur := 0 }

/-- The part of `redraw` for the cursor. -/
def redraw : Edit :=
  let e := if e.linecur ≥ (c.tLines : Int) - 1 then { e with linecur := (c.tLines : Int) - 2 } else e
  if e.linecur < 0 then { e with linecur := 0 } else e

inductive EditCmd where
  | type (ch : UInt8)
  | key (k : EditKey)
  | clearSelect
  | deleteSelect
  | searchStr (tmp : List UInt8)
  | searchNextStr
  | gotoline (gline : Int)

/-- A command in `doEdit`. -/
def doCmd : EditCmd → Edit
  | .type ch => e.insertChar ch
  | .key k => e.doEditKey c k
  | .clearSelect => { e with heap := e.heap.clearSelect e.firstline e.curline }
  | .deleteSelect => e.deleteSelect
  | .searchStr tmp => e.searchStr tmp
  | .searchNextStr => e.searchNextStr
  | .gotoline gline => e.gotoline gline

end Edit

end Ytht
