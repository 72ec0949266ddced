import Mathlib.Logic.Function.Basic
import Mathlib.Tactic.SplitIfs
import Ytht.Lib.Runs

/-!
# Menu.Select

The list that a user goes through (`list_select`), one callback-to-callback step at a time.

Where the list stands is put right in four places.  `check_valid` is right, but whoever
calls it does not get the data again when it has turned the page; and `select_change`
turns the page only when there were several at the start.  `select_run` is about the
runs in which neither matters.
-/

namespace Ytht

open Runs

/-! ## The list -/

/-- What `SHOW_QUIT` to `SHOW_CONTINUE` stand for; a callback may return another number. -/
inductive ShowRet where
  | quit
  | dirchange
  | refresh
  | refreshselect
  | selchange
  | select
  | continue
  | other (n : Int)
  deriving DecidableEq

/-- The number, where it is used as a key. -/
def ShowRet.toKey : ShowRet → Int
  | .quit => 0
  | .dirchange => 1
  | .refresh => 2
  | .refreshselect => 3
  | .selchange => 4
  | .select => 5
  | .continue => 6
  | .other n => n

structure Point where
  x : Int
  y : Int

/-- `struct _select_def`, with the bits of `flag`, and the length of `prompt`.  `bell` is
`LF_FORCEREFRESHSEL` too, which is the same bit. -/
structure SelectDef where
  multipage : Bool
  hilightsel : Bool
  vscroll : Bool
  bell : Bool
  loop : Bool
  numsel : Bool
  inited : Bool
  itemCount : Int
  itemPerPage : Int
  itemPos : Int → Point
  pos : Int
  pagePos : Int
  prompt : Option Nat
  newPos : Int
  keyTable : List (Int × Int)
  tmpnum : Int

/-- Where `list_select` is. -/
inductive SelectPc where
  /-- Outside, with what the last call returned. -/
  | idle (ret : Option ShowRet)
  /-- At `do_select_internal(conf, key)`. -/
  | keyed (key : Int)
  /-- At `switch (ret)`. -/
  | switch (ret : ShowRet)
  /-- At `do_select_internal(conf, KEY_SELECT)`. -/
  | selecting
  deriving DecidableEq

/-- The list, with the page that `get_data` was last called for, whether rows of another page
have been drawn, and whether `item_pos` has been indexed outside its entries. -/
structure SelectList where
  conf : SelectDef
  got : Option Int
  stale : Bool
  outside : Bool
  pc : SelectPc

/-- What the callbacks do in `do_select_internal`; `none` for one that is not there. -/
structure KeyAnswers where
  preKey : Option (ShowRet × Int)
  selchange : Option ShowRet
  size : Option ShowRet
  select : Option ShowRet
  keyCommand : Option ShowRet
  quits : Bool
  newPos : Option Int

inductive SelectEvent where
  /-- `list_select(conf, key)` is called. -/
  | call (key : Int)
  /-- The list is initialized, and `get_data` finds so many items. -/
  | init (count : Nat) (quits : Bool) (newPos : Option Int)
  | key (a : KeyAnswers)
  /-- The `switch`. -/
  | turn (count : Nat) (selchange : Option ShowRet) (quits : Bool) (newPos : Option Int)

/-! ## Positions -/

namespace SelectDef

/-- `((pos-1)/item_per_page)*item_per_page+1` -/
def pageOf (c : SelectDef) (pos : Int) : Int := (pos - 1).tdiv c.itemPerPage * c.itemPerPage + 1

/-- The first correction of `check_valid`. -/
def clipPage (c : SelectDef) : SelectDef :=
  if c.pagePos > c.itemCount then
    { c with pagePos := c.itemCount.tdiv c.itemPerPage * c.itemPerPage + 1 }
  else c

/-- The second one. -/
def clipPos (c : SelectDef) : SelectDef :=
  { c with pos := if min c.pos c.itemCount ≤ 1 then 1 else min c.pos c.itemCount }

/-- The third one. -/
def turnPage (c : SelectDef) : SelectDef :=
  if c.pagePos ≤ 1 ∨ c.pagePos > c.pos ∨ c.pagePos + c.itemPerPage ≤ c.pos then
    { c with pagePos := c.pageOf c.pos }
  else c

/-- `check_valid`, with what it makes of the list.  It returns `SHOW_DIRCHANGE` when the page
has been turned, of which nobody takes notice. -/
def checkValid (c : SelectDef) : Bool × SelectDef :=
  if c.itemCount < 0 then (false, c)
  else if c.itemCount = 0 then (true, { c with pos := 0, pagePos := 0 })
  else (true, c.clipPage.clipPos.turnPage)

/-- The position that `select_change` goes to, after the ends have been joined. -/
def target (c : SelectDef) (newPos : Int) : Option Int :=
  if newPos ≤ 0 ∨ newPos > c.itemCount then
    if newPos = 0 ∧ c.loop = true then some c.itemCount
    else if newPos = c.itemCount + 1 ∧ c.loop = true then some 1
    else none
  else some newPos

/-- The position is on the page that is shown. -/
def Shows (c : SelectDef) (pos : Int) : Prop := c.pagePos ≤ pos ∧ pos < c.pagePos + c.itemPerPage

/-- The item on the same line that is next on the left. -/
def leftOf (c : SelectDef) : Option Int :=
  let here := c.itemPos (c.pos - c.pagePos)
  let step (best : Int × Option Int) (i : Nat) : Int × Option Int :=
    let p := c.itemPos i
    if p.y = here.y ∧ p.x < here.x ∧ p.x > best.1 then (p.x, some (i : Int)) else best
  ((List.range c.itemPerPage.toNat).foldl step (0, none)).2

/-- The item on the same line that is next on the right. -/
def rightOf (c : SelectDef) : Option Int :=
  let here := c.itemPos (c.pos - c.pagePos)
  let step (best : Int × Option Int) (i : Nat) : Int × Option Int :=
    let p := c.itemPos i
    if p.y = here.y ∧ p.x > here.x ∧ p.x < best.1 then (p.x, some (i : Int)) else best
  ((List.range c.itemPerPage.toNat).foldl step (1024, none)).2

end SelectDef

/-! ## Keys -/

/-- What a key leads to, with the new `tmpnum`. -/
inductive KeyAction where
  | ret (r : ShowRet) (tmpnum : Int)
  | refresh (tmpnum : Int)
  /-- `select_change(conf, newPos)` -/
  | change (newPos : Int) (tmpnum : Int)

/-- `key_table` -/
def translate (keyTable : List (Int × Int)) (key : Int) : Int :=
  match keyTable.find? fun p => p.1 = key with
  | some p => p.2
  | none => key

namespace SelectDef

/-- `KEY_LEFT` or `KEY_RIGHT` in a list with several items on a line. -/
def sideways (c : SelectDef) (first second : Option Int) (tmpnum : Int) : KeyAction :=
  match first.or (if c.loop then second else none) with
  | some i => .change (c.pagePos + i) tmpnum
  | none => .ret .continue tmpnum

/-- The keys of `do_select_internal`, after `key_table`. -/
def command (c : SelectDef) (key : Int) (a : KeyAnswers) (tmpnum : Int) : KeyAction :=
  let other := KeyAction.ret (a.keyCommand.getD .continue) tmpnum
  if key = 0x1009 then .ret .selchange tmpnum
  else if key = 0x1008 then .ret .dirchange tmpnum
  else if key = 0x1007 then .ret (a.size.getD .dirchange) tmpnum
  else if key = 0x1000 then .refresh tmpnum
  else if key = 0x0101 then .change (c.pos - 1) tmpnum
  else if key = 0x0102 then .change (c.pos + 1) tmpnum
  else if key = 10 ∨ key = 13 then .ret .select tmpnum
  else if key = 0x1003 then
    if c.itemCount < 1 ∨ c.pos > c.itemCount then .ret .continue tmpnum
    else .ret (a.select.getD .select) tmpnum
  else if key = 6 ∨ key = 0x0206 then
    if c.multipage then
      if c.pos + c.itemPerPage ≤ c.itemCount then .change (c.pos + c.itemPerPage) tmpnum
      else if c.pos = c.itemCount then .change 1 tmpnum
      else .change c.itemCount tmpnum
    else other
  else if key = 2 ∨ key = 0x0205 then
    if c.multipage then
      if c.pos - c.itemPerPage > 0 then .change (c.pos - c.itemPerPage) tmpnum
      else if c.pos = 1 then .change c.itemCount tmpnum
      else .change 1 tmpnum
    else other
  else if key = 0x0201 then .change 1 tmpnum
  else if key = 36 ∨ key = 0x0204 then .change c.itemCount tmpnum
  else if key = 0x0104 then
    if c.vscroll then .ret .quit tmpnum else c.sideways c.leftOf c.rightOf tmpnum
  else if key = 0x0103 then
    if c.vscroll then .ret .select tmpnum else c.sideways c.rightOf c.leftOf tmpnum
  else other

/-- `do_select_internal`, in a list that has been initialized. -/
def keyAction (c : SelectDef) (key : Int) (a : KeyAnswers) : KeyAction :=
  if key = 0x1004 then .ret .continue c.tmpnum
  else
    let pre := a.preKey.getD (.continue, key)
    if pre.1 ≠ .continue then .ret pre.1 (-1)
    else if c.numsel = true ∧ 48 ≤ pre.2 ∧ pre.2 ≤ 57 then
      let n := if c.tmpnum = -1 then 0 else c.tmpnum
      .ret .continue (if n < 9999999 then n * 10 + pre.2 - 48 else n)
    else if c.numsel = true ∧ (pre.2 = 13 ∨ pre.2 = 10) ∧ c.tmpnum ≠ -1 then
      .change (if c.tmpnum = 0 then c.itemCount else c.tmpnum) (-1)
    else c.command (translate c.keyTable pre.2) a (if c.numsel then -1 else c.tmpnum)

end SelectDef

/-! ## Steps -/

namespace SelectList

/-- `item_pos[idx]` -/
def touch (s : SelectList) (idx : Int) : SelectList :=
  if 0 ≤ idx ∧ idx < s.conf.itemPerPage then s else { s with outside := true }

/-- `show_item` -/
def showItem (s : SelectList) (item : Int) : SelectList :=
  if item < s.conf.pagePos ∨ item > s.conf.pagePos + s.conf.itemPerPage then s
  else s.touch (item - s.conf.pagePos)

/-- There are rows on the page. -/
def HasRows (c : SelectDef) : Prop := c.pagePos ≠ 0 ∧ 0 < c.itemPerPage ∧ c.pagePos ≤ c.itemCount

instance (c : SelectDef) : Decidable (HasRows c) := inferInstanceAs (Decidable (_ ∧ _ ∧ _))

/-- `refresh_select`.  The rows are within `item_pos`. -/
def refreshSelect (s : SelectList) (quits : Bool) : ShowRet × SelectList :=
  if HasRows s.conf then
    let s := { s with stale := s.stale || s.got != some s.conf.pagePos }
    if quits then (.quit, s) else (.continue, s.touch (s.conf.pos - s.conf.pagePos))
  else (.continue, s.touch (s.conf.pos - s.conf.pagePos))

/-- `prompt` is taken from the old row, and put before the new one. -/
def movePrompt (s : SelectList) (newPos : Int) : SelectList :=
  if s.conf.prompt.getD 0 = 0 then s
  else (s.touch (s.conf.pos - s.conf.pagePos)).touch (newPos - s.conf.pagePos)

/-- The old row and the new one are drawn again. -/
def redraw (s : SelectList) (oldPos newPos : Int) : SelectList :=
  if s.conf.hilightsel = true ∨ s.conf.bell = true then
    ({ s with conf.newPos := newPos }.showItem oldPos).showItem newPos
  else s

/-- `select_change`, where `selchange` is what `on_selchange` returns. -/
def selectChange (s : SelectList) (newPos : Int) (selchange : Option ShowRet) :
    ShowRet × SelectList :=
  if s.conf.itemCount = 0 then (.continue, s)
  else if selchange.getD .continue ≠ .continue then (selchange.getD .continue, s)
  else match s.conf.target newPos with
    | none => (.continue, s)
    | some newPos =>
        if s.conf.multipage = true ∧
            (newPos < s.conf.pagePos ∨ newPos ≥ s.conf.pagePos + s.conf.itemPerPage) then
          (.dirchange, { s with conf.pagePos := s.conf.pageOf newPos, conf.pos := newPos })
        else
          let oldPos := s.conf.pos
          let s := { s.movePrompt newPos with conf.pos := newPos }
          (.continue, (s.redraw oldPos newPos).touch (newPos - s.conf.pagePos))

/-- `get_data(conf, page_pos, item_per_page)` finds so many items. -/
def getData (s : SelectList) (count : Nat) : SelectList :=
  { s with conf.itemCount := count, got := some s.conf.pagePos }

/-- What callbacks have put in `new_pos`. -/
def setNewPos (s : SelectList) (newPos : Option Int) : SelectList :=
  { s with conf.newPos := newPos.getD s.conf.newPos }

/-- The loop of `list_select` goes on without a key. -/
def afterRet (ret : ShowRet) : SelectPc :=
  if ret = .continue then .idle (some .continue) else .switch ret

/-- The loop goes on with `key=ret`. -/
def afterKey (ret : ShowRet) : SelectPc :=
  if ret = .continue then .idle (some .continue) else .keyed ret.toKey

/-- The initialization in `do_select_internal`. -/
def setUp (s : SelectList) (count : Nat) (quits : Bool) : SelectList :=
  let s := if s.conf.numsel then { s with conf.tmpnum := -1 } else s
  let s := s.getData count
  match s.conf.checkValid with
  | (false, c) => { s with conf := c, pc := .switch .quit }
  | (true, c) =>
      let c := { c with
        inited := true
        multipage := c.multipage || decide (c.itemCount > c.itemPerPage) }
      match { s with conf := c }.refreshSelect quits with
      | (.quit, s) => { s with pc := .switch .quit }
      | (_, s) => s

/-- `do_select_internal`, in a list that has been initialized. -/
def doKey (s : SelectList) (key : Int) (a : KeyAnswers) : ShowRet × SelectList :=
  match s.conf.keyAction key a with
  | .ret r tmpnum => (r, { s with conf.tmpnum := tmpnum })
  | .refresh tmpnum => { s with conf.tmpnum := tmpnum }.refreshSelect a.quits
  | .change newPos tmpnum => { s with conf.tmpnum := tmpnum }.selectChange newPos a.selchange

/-- `case SHOW_DIRCHANGE` -/
def dirchange (s : SelectList) (count : Nat) (quits : Bool) : SelectList :=
  let s := { s with conf.pagePos := s.conf.pageOf s.conf.pos }.getData count
  match s.conf.checkValid with
  | (false, c) => { s with conf := c, pc := .idle (some .quit) }
  | (true, c) =>
      match { s with conf := c }.refreshSelect quits with
      | (ret, s) => { s with pc := afterKey ret }

/-- `case SHOW_REFRESHSELECT` -/
def refreshselect (s : SelectList) : SelectList :=
  { (s.showItem s.conf.pos).touch (s.conf.pos - s.conf.pagePos) with pc := .idle (some .continue) }

/-- The `switch` of `list_select`. -/
def turn (s : SelectList) (ret : ShowRet) (count : Nat) (selchange : Option ShowRet) (quits : Bool) :
    SelectList :=
  match ret with
  | .dirchange => s.dirchange count quits
  | .refresh =>
      match s.refreshSelect quits with
      | (ret, s) => { s with pc := afterKey ret }
  | .selchange =>
      match s.selectChange s.conf.newPos selchange with
      | (ret, s) =>
          if ret ≠ .select ∧ ret ≠ .quit then { s with pc := afterRet ret } else s.refreshselect
  | .refreshselect => s.refreshselect
  | .continue => { s with pc := .idle (some .continue) }
  | .select => { s with pc := .selecting }
  | .quit => { s with pc := .idle (some .quit) }
  | .other n => { s with pc := .keyed n }

def step (s : SelectList) : SelectEvent → Option SelectList
  | .call key =>
      match s.pc with
      | .idle _ => some { s with pc := .keyed key }
      | _ => none
  | .init count quits newPos =>
      match s.pc, s.conf.inited with
      | .keyed _, false | .selecting, false => some ((s.setUp count quits).setNewPos newPos)
      | _, _ => none
  | .key a =>
      match s.pc, s.conf.inited with
      | .keyed key, true =>
          match s.doKey key a with
          | (ret, s) => some ({ s with pc := .switch ret }.setNewPos a.newPos)
      | .selecting, true =>
          match s.doKey 0x1003 a with
          | (.select, s) => some ({ s with pc := .idle (some .select) }.setNewPos a.newPos)
          | (ret, s) => some ({ s with pc := afterRet ret }.setNewPos a.newPos)
      | _, _ => none
  | .turn count selchange quits newPos =>
      match s.pc with
      | .switch ret => some ((s.turn ret count selchange quits).setNewPos newPos)
      | _ => none

end SelectList

/-! ## Positions in the list -/

namespace SelectDef

variable {c : SelectDef}

/-- The position is in the list, and on the page. -/
structure InPage (c : SelectDef) : Prop where
  count : 0 ≤ c.itemCount
  empty : c.itemCount = 0 → c.pos = 0 ∧ c.pagePos = 0
  page : 0 < c.itemCount → 1 ≤ c.pagePos
  shows : 0 < c.itemCount → c.Shows c.pos
  pos : 0 < c.itemCount → c.pos ≤ c.itemCount

/-- With so many items the list stays on its page, to which the position belongs when it has
been brought into the list. -/
def StaysOn (c : SelectDef) (count : Nat) : Prop :=
  count ≠ 0 → c.pagePos = c.pageOf (max 1 (min c.pos count)) ∨
    1 < c.pagePos ∧ c.Shows (max 1 (min c.pos count))

/-- `select_change` looks at the page, or has no need to. -/
def MovesWithin (c : SelectDef) (newPos : Int) (selchange : Option ShowRet) : Prop :=
  c.multipage = true ∨ (c.itemCount ≠ 0 → selchange.getD .continue = .continue →
    ∀ p ∈ c.target newPos, c.Shows p)

instance (pos : Int) : Decidable (c.Shows pos) := inferInstanceAs (Decidable (_ ∧ _))

instance (count : Nat) : Decidable (c.StaysOn count) := inferInstanceAs (Decidable (_ → _ ∨ _ ∧ _))

instance (newPos : Int) (selchange : Option ShowRet) : Decidable (c.MovesWithin newPos selchange) :=
  inferInstanceAs (Decidable (_ ∨ (_ → _ → ∀ p ∈ c.target newPos, _)))

theorem pageOf_shows (hper : 1 ≤ c.itemPerPage) {pos : Int} (hpos : 1 ≤ pos) :
    1 ≤ c.pageOf pos ∧ c.pageOf pos ≤ pos ∧ pos < c.pageOf pos + c.itemPerPage := by
  have hdiv : (pos - 1).tdiv c.itemPerPage = (pos - 1) / c.itemPerPage :=
    Int.tdiv_eq_ediv_of_nonneg (by omega)
  have hle := Int.ediv_mul_le (pos - 1) (b := c.itemPerPage) (by omega)
  have hlt := Int.lt_ediv_add_one_mul_self (pos - 1) (b := c.itemPerPage) (by omega)
  have hnonneg : 0 ≤ (pos - 1) / c.itemPerPage * c.itemPerPage :=
    Int.mul_nonneg (Int.ediv_nonneg (by omega) (by omega)) (by omega)
  rw [Int.add_mul, Int.one_mul] at hlt
  unfold pageOf
  rw [hdiv]
  omega

/-- The position, brought into the list. -/
theorem clipPos_pos (c : SelectDef) : c.clipPos.pos = max 1 (min c.pos c.itemCount) := by
  unfold clipPos
  simp only
  split <;> omega

theorem turnPage_inPage (hper : 1 ≤ c.itemPerPage) (hpos : 1 ≤ c.pos) (hle : c.pos ≤ c.itemCount) :
    c.turnPage.InPage := by
  obtain ⟨hpage, hpageLe, hlt⟩ := c.pageOf_shows hper hpos
  unfold turnPage
  split_ifs with hturn
  · exact {
      count := by simp only; omega
      empty := by simp only; omega
      page := fun _ => hpage
      shows := fun _ => ⟨hpageLe, hlt⟩
      pos := fun _ => hle }
  · simp only [not_or, Int.not_le, Int.not_lt, gt_iff_lt] at hturn
    exact {
      count := by omega
      empty := by omega
      page := fun _ => by omega
      shows := fun _ => ⟨hturn.2.1, hturn.2.2⟩
      pos := fun _ => hle }

/-- What `check_valid` leaves as it is. -/
structure Same (c c' : SelectDef) : Prop where
  count : c'.itemCount = c.itemCount
  perPage : c'.itemPerPage = c.itemPerPage
  inited : c'.inited = c.inited

theorem checkValid_inPage (hper : 1 ≤ c.itemPerPage) (hcount : 0 ≤ c.itemCount) :
    ∃ c', c.checkValid = (true, c') ∧ c'.InPage ∧ Same c c' := by
  unfold checkValid
  rw [if_neg (Int.not_lt.mpr hcount)]
  split_ifs with hzero
  · refine ⟨_, rfl, ?_, ⟨rfl, rfl, rfl⟩⟩
    exact {
      count := hcount
      empty := fun _ => ⟨rfl, rfl⟩
      page := fun hpos => absurd hzero (Int.ne_of_gt hpos)
      shows := fun hpos => absurd hzero (Int.ne_of_gt hpos)
      pos := fun hpos => absurd hzero (Int.ne_of_gt hpos) }
  · have hclipCount : c.clipPage.clipPos.itemCount = c.itemCount := by
      unfold clipPos clipPage
      split <;> rfl
    have hclipPer : c.clipPage.clipPos.itemPerPage = c.itemPerPage := by
      unfold clipPos clipPage
      split <;> rfl
    have hclipInited : c.clipPage.clipPos.inited = c.inited := by
      unfold clipPos clipPage
      split <;> rfl
    have hpos := c.clipPage.clipPos_pos
    have hclip : c.clipPage.itemCount = c.itemCount := hclipCount
    refine ⟨_, rfl, turnPage_inPage (by omega) (by omega) (by omega), ?_⟩
    unfold turnPage
    split
    · exact ⟨hclipCount, hclipPer, hclipInited⟩
    · exact ⟨hclipCount, hclipPer, hclipInited⟩

/-- `check_valid` does not turn the page when the list stays on it. -/
theorem checkValid_stays (hper : 1 ≤ c.itemPerPage) {count : Nat} (hcount : c.itemCount = count)
    (hne : count ≠ 0) (hstays : c.StaysOn count) : c.checkValid.2.pagePos = c.pagePos := by
  have hshows : c.Shows (max 1 (min c.pos count)) := by
    obtain hpage | hshows := hstays hne
    · obtain ⟨-, hle, hlt⟩ := c.pageOf_shows hper (Int.le_max_left 1 (min c.pos count))
      exact ⟨by omega, by omega⟩
    · exact hshows.2
  have hclip : c.clipPage = c := by
    unfold clipPage
    rw [if_neg]
    have hle := hshows.1
    omega
  have hclipPos : c.clipPos.pos = max 1 (min c.pos count) := by rw [clipPos_pos, hcount]
  rw [checkValid, if_neg (by omega), if_neg (by omega), hclip, turnPage, hclipPos]
  split_ifs with hturn
  · obtain hpage | ⟨hlt, hle, hbelow⟩ := hstays hne
    · exact hpage.symm
    · have hturn' : c.pagePos ≤ 1 ∨ c.pagePos > max 1 (min c.pos count) ∨
          c.pagePos + c.itemPerPage ≤ max 1 (min c.pos count) := hturn
      omega
  · rfl

/-- A position that is gone to is in the list. -/
theorem target_mem {newPos p : Int} (h : c.target newPos = some p) (hcount : 0 < c.itemCount) :
    1 ≤ p ∧ p ≤ c.itemCount := by
  unfold target at h
  split_ifs at h <;> obtain rfl := Option.some.inj h <;> omega

end SelectDef

/-! ## What the steps keep -/

namespace SelectList

open SelectDef

/-- An initialized list in order. -/
structure Good (s : SelectList) : Prop where
  inited : s.conf.inited = true
  perPage : 1 ≤ s.conf.itemPerPage
  inPage : s.conf.InPage
  stale : s.stale = false
  outside : s.outside = false

/-- The data are those of the page. -/
def Fetched (s : SelectList) : Prop := 0 < s.conf.itemCount → s.got = some s.conf.pagePos

variable {s : SelectList}

theorem touch_inside {idx : Int} (h : 0 ≤ idx ∧ idx < s.conf.itemPerPage) : s.touch idx = s :=
  if_pos h

theorem touch_shows {pos : Int} (h : s.conf.Shows pos) : s.touch (pos - s.conf.pagePos) = s := by
  obtain ⟨hle, hlt⟩ := h
  exact touch_inside ⟨by omega, by omega⟩

theorem showItem_shows {item : Int} (h : s.conf.Shows item) : s.showItem item = s := by
  unfold showItem
  split
  · rfl
  · exact touch_shows h

/-- The position has a place in `item_pos`, also in an empty list. -/
theorem Good.shows (h : s.Good) : s.conf.Shows s.conf.pos := by
  have hper := h.perPage
  have hcount := h.inPage.count
  by_cases hzero : s.conf.itemCount = 0
  · obtain ⟨hpos, hpage⟩ := h.inPage.empty hzero
    exact ⟨by omega, by omega⟩
  · exact h.inPage.shows (by omega)

theorem Good.refreshSelect (h : s.Good) (hfetched : s.Fetched) (quits : Bool) :
    ∃ ret, s.refreshSelect quits = (ret, s) ∧ (ret = .continue ∨ ret = .quit) := by
  have htouch : s.touch (s.conf.pos - s.conf.pagePos) = s := touch_shows h.shows
  unfold SelectList.refreshSelect
  split
  · next hrows =>
    have hcount : 0 < s.conf.itemCount := by
      have hnonneg := h.inPage.count
      by_contra hle
      exact hrows.1 (h.inPage.empty (by omega)).2
    have hstale : (s.stale || s.got != some s.conf.pagePos) = s.stale := by
      rw [hfetched hcount, h.stale]
      simp
    simp only [hstale]
    split
    · exact ⟨.quit, rfl, .inr rfl⟩
    · exact ⟨.continue, by rw [htouch], .inl rfl⟩
  · exact ⟨.continue, by rw [htouch], .inl rfl⟩

/-- The rows are drawn again, and the position changes. -/
theorem Good.moved (h : s.Good) {p : Int} (hshows : s.conf.Shows p) (hpos : 1 ≤ p)
    (hle : p ≤ s.conf.itemCount) :
    (({ s with conf.pos := p }.redraw s.conf.pos p).touch (p - s.conf.pagePos)).Good ∧
      (s.Fetched → (ShowRet.continue : ShowRet) ≠ .dirchange →
        (({ s with conf.pos := p }.redraw s.conf.pos p).touch (p - s.conf.pagePos)).Fetched) := by
  have hgood : ∀ newPos, { s with conf.pos := p, conf.newPos := newPos }.Good := fun newPos => {
    inited := h.inited
    perPage := h.perPage
    inPage := {
      count := h.inPage.count
      empty := fun hempty => by
        have hzero : s.conf.itemCount = 0 := hempty
        omega
      page := h.inPage.page
      shows := fun _ => hshows
      pos := fun _ => hle }
    stale := h.stale
    outside := h.outside }
  have hredraw : ∃ newPos, { s with conf.pos := p }.redraw s.conf.pos p =
      { s with conf.pos := p, conf.newPos := newPos } := by
    unfold redraw
    split
    · refine ⟨p, ?_⟩
      have hold := showItem_shows (s := { s with conf.pos := p, conf.newPos := p }) h.shows
      have hnew := showItem_shows (s := { s with conf.pos := p, conf.newPos := p }) hshows
      rw [hold, hnew]
    · exact ⟨s.conf.newPos, rfl⟩
  obtain ⟨newPos, hredraw⟩ := hredraw
  have htouch := touch_shows (s := { s with conf.pos := p, conf.newPos := newPos }) hshows
  rw [hredraw, htouch]
  exact ⟨hgood newPos, fun hfetched _ => hfetched⟩

/-- `select_change` keeps the list in order; when it turns the page it tells so. -/
theorem Good.selectChange (h : s.Good) {newPos : Int} {selchange : Option ShowRet}
    (hwithin : s.conf.MovesWithin newPos selchange) :
    (s.selectChange newPos selchange).2.Good ∧
      (s.Fetched → (s.selectChange newPos selchange).1 ≠ .dirchange →
        (s.selectChange newPos selchange).2.Fetched) := by
  unfold SelectList.selectChange
  split_ifs with hzero hanswer
  · exact ⟨h, fun hfetched _ => hfetched⟩
  · exact ⟨h, fun hfetched _ => hfetched⟩
  · have hcount : 0 < s.conf.itemCount := by
      have hnonneg := h.inPage.count
      omega
    split
    · exact ⟨h, fun hfetched _ => hfetched⟩
    · next p htarget =>
      obtain ⟨hpos, hle⟩ := target_mem htarget hcount
      split_ifs with hpaged
      · obtain ⟨hpage, hpageLe, hlt⟩ := s.conf.pageOf_shows h.perPage hpos
        refine ⟨?_, fun _ hdir => absurd rfl hdir⟩
        exact {
          inited := h.inited
          perPage := h.perPage
          inPage := {
            count := h.inPage.count
            empty := fun hempty => absurd hempty hzero
            page := fun _ => hpage
            shows := fun _ => ⟨hpageLe, hlt⟩
            pos := fun _ => hle }
          stale := h.stale
          outside := h.outside }
      · have hshows : s.conf.Shows p := by
          obtain hmulti | hwithin := hwithin
          · have hnot := not_and.mp hpaged hmulti
            exact ⟨by omega, by omega⟩
          · exact hwithin hzero (not_not.mp hanswer) p htarget
        have hprompt : s.movePrompt p = s := by
          unfold movePrompt
          split
          · rfl
          · rw [touch_shows h.shows, touch_shows hshows]
        rw [hprompt]
        exact h.moved hshows hpos hle

theorem Good.of_conf (h : s.Good) {s' : SelectList} (hcount : s'.conf.itemCount = s.conf.itemCount)
    (hper : s'.conf.itemPerPage = s.conf.itemPerPage) (hinited : s'.conf.inited = s.conf.inited)
    (hpos : s'.conf.pos = s.conf.pos) (hpage : s'.conf.pagePos = s.conf.pagePos)
    (hstale : s'.stale = s.stale) (houtside : s'.outside = s.outside) : s'.Good where
  inited := hinited.trans h.inited
  perPage := hper ▸ h.perPage
  inPage := {
    count := hcount ▸ h.inPage.count
    empty := by
      rw [hcount, hpos, hpage]
      exact h.inPage.empty
    page := by
      rw [hcount, hpage]
      exact h.inPage.page
    shows := by
      rw [hcount, hpos, Shows, hpage, hper]
      exact h.inPage.shows
    pos := by
      rw [hcount, hpos]
      exact h.inPage.pos }
  stale := hstale.trans h.stale
  outside := houtside.trans h.outside

theorem Good.doKey (h : s.Good) (hfetched : s.Fetched) {key : Int} {a : KeyAnswers}
    (hwithin : ∀ newPos tmpnum, s.conf.keyAction key a = .change newPos tmpnum →
      s.conf.MovesWithin newPos a.selchange) :
    (s.doKey key a).2.Good ∧ ((s.doKey key a).1 ≠ .dirchange → (s.doKey key a).2.Fetched) := by
  have htmpnum : ∀ tmpnum, { s with conf.tmpnum := tmpnum }.Good := fun tmpnum =>
    h.of_conf rfl rfl rfl rfl rfl rfl rfl
  unfold SelectList.doKey
  cases haction : s.conf.keyAction key a with
  | ret r tmpnum => exact ⟨htmpnum tmpnum, fun _ => hfetched⟩
  | refresh tmpnum =>
      obtain ⟨ret, hrefresh, -⟩ := (htmpnum tmpnum).refreshSelect hfetched a.quits
      simp only [hrefresh]
      exact ⟨htmpnum tmpnum, fun _ => hfetched⟩
  | change newPos tmpnum =>
      obtain ⟨hgood, hkept⟩ := (htmpnum tmpnum).selectChange (hwithin newPos tmpnum haction)
      exact ⟨hgood, hkept hfetched⟩

/-- The data have been got, and the position is put right. -/
theorem settle (hper : 1 ≤ s.conf.itemPerPage) (hstale : s.stale = false)
    (houtside : s.outside = false) {count : Nat} (hstays : s.conf.StaysOn count) :
    ∃ c, (s.getData count).conf.checkValid = (true, c) ∧ c.inited = s.conf.inited ∧
      ∀ multipage, { s.getData count with conf := { c with inited := true, multipage } }.Good ∧
        { s.getData count with conf := { c with inited := true, multipage } }.Fetched := by
  obtain ⟨c, hcheck, hinPage, hsame⟩ :=
    checkValid_inPage (c := (s.getData count).conf) hper (Int.natCast_nonneg count)
  refine ⟨c, hcheck, hsame.inited, fun multipage => ⟨?_, ?_⟩⟩
  · exact {
      inited := rfl
      perPage := hsame.perPage ▸ hper
      inPage := ⟨hinPage.count, hinPage.empty, hinPage.page, hinPage.shows, hinPage.pos⟩
      stale := hstale
      outside := houtside }
  · intro hcount
    have hc : c.itemCount = count := hsame.count
    have hne : count ≠ 0 := by
      have hpos : 0 < c.itemCount := hcount
      omega
    have hpage := checkValid_stays (c := (s.getData count).conf) hper rfl hne hstays
    rw [hcheck] at hpage
    exact congrArg some hpage.symm

structure Inv (s : SelectList) : Prop where
  perPage : 1 ≤ s.conf.itemPerPage
  stale : s.stale = false
  outside : s.outside = false
  inPage : s.conf.inited = true → s.conf.InPage
  fetched : s.conf.inited = true → s.pc ≠ .switch .dirchange → s.Fetched
  started : s.conf.inited = true ∨ s.pc = .idle none ∨ ∃ key, s.pc = .keyed key

theorem Inv.good (h : s.Inv) (hinited : s.conf.inited = true) : s.Good :=
  ⟨hinited, h.perPage, h.inPage hinited, h.stale, h.outside⟩

theorem Good.inv (h : s.Good) (hfetched : s.pc ≠ .switch .dirchange → s.Fetched) : s.Inv where
  perPage := h.perPage
  stale := h.stale
  outside := h.outside
  inPage _ := h.inPage
  fetched _ := hfetched
  started := .inl h.inited

/-- The step ends, and `list_select` is elsewhere. -/
theorem Good.goto (h : s.Good) {pc : SelectPc} (hfetched : pc ≠ .switch .dirchange → s.Fetched)
    (newPos : Option Int) : ({ s with pc }.setNewPos newPos).Inv :=
  (h.of_conf rfl rfl rfl rfl rfl rfl rfl : ({ s with pc }.setNewPos newPos).Good).inv hfetched

theorem Inv.setUp (h : s.Inv) {count : Nat} {quits : Bool}
    (hstays : s.conf.StaysOn count) (newPos : Option Int) :
    ((s.setUp count quits).setNewPos newPos).Inv := by
  have htmpnum : ∃ tmpnum, (if s.conf.numsel then { s with conf.tmpnum := -1 } else s) =
      { s with conf.tmpnum := tmpnum } := by
    split
    · exact ⟨-1, rfl⟩
    · exact ⟨s.conf.tmpnum, rfl⟩
  obtain ⟨tmpnum, htmpnum⟩ := htmpnum
  obtain ⟨c, hcheck, -, hgood⟩ :=
    settle (s := { s with conf.tmpnum := tmpnum }) h.perPage h.stale h.outside hstays
  obtain ⟨hgood, hfetched⟩ := hgood (c.multipage || decide (c.itemCount > c.itemPerPage))
  obtain ⟨ret, hrefresh, hret⟩ := hgood.refreshSelect hfetched quits
  unfold SelectList.setUp
  simp only [htmpnum, hcheck, hrefresh]
  obtain rfl | rfl := hret
  · exact hgood.goto (fun _ => hfetched) newPos
  · exact hgood.goto (fun _ => hfetched) newPos

theorem Good.dirchange (h : s.Good) {count : Nat} {quits : Bool}
    (hstays : { s.conf with pagePos := s.conf.pageOf s.conf.pos }.StaysOn count)
    (newPos : Option Int) : ((s.dirchange count quits).setNewPos newPos).Inv := by
  obtain ⟨c, hcheck, hinited, hgood⟩ :=
    settle (s := { s with conf.pagePos := s.conf.pageOf s.conf.pos }) h.perPage h.stale h.outside
      hstays
  have hc : { c with inited := true, multipage := c.multipage } = c := by
    have htrue : true = c.inited := h.inited.symm.trans hinited.symm
    rw [htrue]
  obtain ⟨hgood, hfetched⟩ := hgood c.multipage
  rw [hc] at hgood hfetched
  obtain ⟨ret, hrefresh, hret⟩ := hgood.refreshSelect hfetched quits
  unfold SelectList.dirchange
  simp only [hcheck, hrefresh]
  exact hgood.goto (fun _ => hfetched) newPos

theorem Good.refreshselect (h : s.Good) (hfetched : s.Fetched) (newPos : Option Int) :
    (s.refreshselect.setNewPos newPos).Inv := by
  unfold SelectList.refreshselect
  rw [showItem_shows h.shows, touch_shows h.shows]
  exact h.goto (fun _ => hfetched) newPos

theorem afterRet_dirchange {ret : ShowRet} (h : afterRet ret ≠ .switch .dirchange) :
    ret ≠ .dirchange := by
  rintro rfl
  exact h rfl

/-- The steps with which the list stays right: it stays on the page for which the data are got,
and the position is moved within the page, unless the page is turned. -/
def StepOk (s : SelectList) : SelectEvent → Prop
  | .call _ => True
  | .init count _ _ => s.conf.StaysOn count
  | .key a =>
      match s.pc with
      | .keyed key =>
          match s.conf.keyAction key a with
          | .change newPos _ => s.conf.MovesWithin newPos a.selchange
          | _ => True
      | .selecting =>
          match s.conf.keyAction 0x1003 a with
          | .change newPos _ => s.conf.MovesWithin newPos a.selchange
          | _ => True
      | _ => True
  | .turn count selchange _ _ =>
      match s.pc with
      | .switch .dirchange => { s.conf with pagePos := s.conf.pageOf s.conf.pos }.StaysOn count
      | .switch .selchange => s.conf.MovesWithin s.conf.newPos selchange
      | _ => True

theorem Good.turn (h : s.Good) {ret : ShowRet} (hpc : s.pc = .switch ret)
    (hfetched : ret ≠ .dirchange → s.Fetched) {count : Nat} {selchange : Option ShowRet}
    {quits : Bool} {newPos : Option Int} (hok : s.StepOk (.turn count selchange quits newPos)) :
    ((s.turn ret count selchange quits).setNewPos newPos).Inv := by
  simp only [StepOk, hpc] at hok
  unfold SelectList.turn
  cases ret with
  | dirchange => exact h.dirchange hok newPos
  | refresh =>
      have hfetched := hfetched (by decide)
      obtain ⟨ret, hrefresh, -⟩ := h.refreshSelect hfetched quits
      simp only [hrefresh]
      exact h.goto (fun _ => hfetched) newPos
  | selchange =>
      obtain ⟨hgood, hkept⟩ := h.selectChange hok
      have hkept := hkept (hfetched (by decide))
      simp only
      split_ifs with hret
      · exact hgood.goto (fun hafter => hkept (afterRet_dirchange hafter)) newPos
      · apply hgood.refreshselect (hkept _)
        intro hdir
        simp [hdir] at hret
  | refreshselect => exact h.refreshselect (hfetched (by decide)) newPos
  | «continue» => exact h.goto (fun _ => hfetched (by decide)) newPos
  | select => exact h.goto (fun _ => hfetched (by decide)) newPos
  | quit => exact h.goto (fun _ => hfetched (by decide)) newPos
  | other n => exact h.goto (fun _ => hfetched (by simp)) newPos

/-- A step with which the list stays right. -/
theorem Inv.step {s' : SelectList} {e : SelectEvent} (h : s.Inv) (hok : s.StepOk e)
    (hstep : s.step e = some s') : s'.Inv := by
  cases e with
  | call key =>
      simp only [SelectList.step] at hstep
      split at hstep
      · next ret hpc =>
        obtain rfl := Option.some.inj hstep
        exact {
          perPage := h.perPage
          stale := h.stale
          outside := h.outside
          inPage := h.inPage
          fetched := fun hinited _ => h.fetched hinited (by simp [hpc])
          started := .inr (.inr ⟨key, rfl⟩) }
      · contradiction
  | init count quits newPos =>
      simp only [SelectList.step] at hstep
      split at hstep
      · obtain rfl := Option.some.inj hstep
        exact h.setUp hok newPos
      · obtain rfl := Option.some.inj hstep
        exact h.setUp hok newPos
      · contradiction
  | key a =>
      simp only [SelectList.step] at hstep
      split at hstep
      · next key hpc hinited =>
        obtain rfl := Option.some.inj hstep
        have hfetched : s.Fetched := h.fetched hinited (by simp [hpc])
        have hwithin : ∀ newPos tmpnum, s.conf.keyAction key a = .change newPos tmpnum →
            s.conf.MovesWithin newPos a.selchange := by
          intro newPos tmpnum haction
          simpa [StepOk, hpc, haction] using hok
        obtain ⟨hgood, hkept⟩ := (h.good hinited).doKey hfetched hwithin
        exact hgood.goto (fun hafter => hkept fun hdir => hafter (by rw [hdir])) a.newPos
      · next hpc hinited =>
        have hfetched : s.Fetched := h.fetched hinited (by simp [hpc])
        have hwithin : ∀ newPos tmpnum, s.conf.keyAction 0x1003 a = .change newPos tmpnum →
            s.conf.MovesWithin newPos a.selchange := by
          intro newPos tmpnum haction
          simpa [StepOk, hpc, haction] using hok
        obtain ⟨hgood, hkept⟩ := (h.good hinited).doKey hfetched hwithin
        split at hstep <;> obtain rfl := Option.some.inj hstep
        · next hkey =>
          rw [hkey] at hgood hkept
          exact hgood.goto (fun _ => hkept (by simp)) a.newPos
        · next hkey =>
          rw [hkey] at hgood hkept
          exact hgood.goto (fun hafter => hkept (afterRet_dirchange hafter)) a.newPos
      · contradiction
  | turn count selchange quits newPos =>
      simp only [SelectList.step] at hstep
      split at hstep
      · next ret hpc =>
        obtain rfl := Option.some.inj hstep
        have hinited : s.conf.inited = true := by
          obtain hinited | hidle | ⟨key, hkeyed⟩ := h.started
          · exact hinited
          · simp [hpc] at hidle
          · simp [hpc] at hkeyed
        apply (h.good hinited).turn hpc _ hok
        intro hne
        apply h.fetched hinited
        simpa [hpc] using hne
      · contradiction

instance (e : SelectEvent) : Decidable (s.StepOk e) := by
  cases e with
  | call key => exact inferInstanceAs (Decidable True)
  | init count quits newPos => exact inferInstanceAs (Decidable (s.conf.StaysOn count))
  | key a =>
      unfold StepOk
      simp only
      split <;> (try split) <;> exact inferInstance
  | turn count selchange quits newPos =>
      unfold StepOk
      simp only
      split <;> exact inferInstance

/-- A list that has not been shown. -/
structure Start (s : SelectList) : Prop where
  pc : s.pc = .idle none
  inited : s.conf.inited = false
  perPage : 1 ≤ s.conf.itemPerPage
  stale : s.stale = false
  outside : s.outside = false

theorem Start.inv (h : s.Start) : s.Inv where
  perPage := h.perPage
  stale := h.stale
  outside := h.outside
  inPage hinited := by simp [h.inited] at hinited
  fetched hinited := by simp [h.inited] at hinited
  started := .inr (.inl h.pc)

/-- The rows drawn are those of the page that the data were got for, `item_pos` is indexed
inside its entries, and when a call returns `SHOW_CONTINUE` the position is in the list and on
the page. -/
theorem select_run {s₀ : SelectList} {es : List SelectEvent} (hstart : s₀.Start)
    (hrun : Run (when StepOk step) s₀ es s) :
    s.stale = false ∧ s.outside = false ∧
      (s.pc = .idle (some .continue) → 0 < s.conf.itemCount →
        1 ≤ s.conf.pagePos ∧ s.conf.pagePos ≤ s.conf.pos ∧
        s.conf.pos < s.conf.pagePos + s.conf.itemPerPage ∧ s.conf.pos ≤ s.conf.itemCount) := by
  have hinv : s.Inv :=
    hrun.invariant_when Inv hstart.inv fun s e s' h hok hstep => h.step hok hstep
  refine ⟨hinv.stale, hinv.outside, fun hpc hcount => ?_⟩
  have hinited : s.conf.inited = true := by
    obtain hinited | hidle | ⟨key, hkeyed⟩ := hinv.started
    · exact hinited
    · simp [hpc] at hidle
    · simp [hpc] at hkeyed
  obtain ⟨hle, hlt⟩ := (hinv.inPage hinited).shows hcount
  exact ⟨(hinv.inPage hinited).page hcount, hle, hlt, (hinv.inPage hinited).pos hcount⟩

/-- A list of one column whose pages have two rows. -/
def twoRows : SelectList where
  conf := {
    multipage := false
    hilightsel := false
    vscroll := true
    bell := false
    loop := false
    numsel := false
    inited := false
    itemCount := 0
    itemPerPage := 2
    itemPos := fun i => ⟨0, i⟩
    pos := 1
    pagePos := 1
    prompt := none
    newPos := 0
    keyTable := []
    tmpnum := 0 }
  got := none
  stale := false
  outside := false
  pc := .idle none

/-- No callback but `get_data` is there. -/
def noCallbacks : KeyAnswers := ⟨none, none, none, none, none, false, none⟩

/-- Three items are there from the start, and the cursor goes to the last. -/
theorem select_run_threeItems :
    ∃ s, Run (when StepOk step) twoRows
        [.call 0x1004, .init 3 false none, .key noCallbacks, .turn 0 none false none,
          .call 0x0204, .key noCallbacks, .turn 3 none false none] s ∧
      s.pc = .idle (some .continue) ∧ s.conf.pos = 3 ∧ s.conf.pagePos = 3 ∧ s.stale = false := by
  have hexec : (exec (when StepOk step) twoRows
      [.call 0x1004, .init 3 false none, .key noCallbacks, .turn 0 none false none,
        .call 0x0204, .key noCallbacks, .turn 3 none false none]).any
        (fun s => decide (s.pc = .idle (some .continue) ∧ s.conf.pos = 3 ∧ s.conf.pagePos = 3)) =
        true := by
    decide +kernel
  obtain ⟨s, hs, hend⟩ := (Option.any_eq_true _ _).mp hexec
  obtain ⟨hpc, hpos, hpage⟩ := of_decide_eq_true hend
  have hstart : twoRows.Start := ⟨rfl, rfl, by decide, rfl, rfl⟩
  exact ⟨s, Run.of_exec hs, hpc, hpos, hpage, (select_run hstart (Run.of_exec hs)).1⟩

/-- The list grows to a second page after it has been shown, and the cursor leaves the first. -/
theorem grownList_leavesPage :
    ∃ s, twoRows.Start ∧
      Run step twoRows
        [.call 0x1004, .init 2 false none, .key noCallbacks, .turn 0 none false none,
          .call 0x1008, .key noCallbacks, .turn 3 none false none,
          .call 0x0204, .key noCallbacks, .turn 0 none false none] s ∧
      s.pc = .idle (some .continue) ∧ s.conf.itemCount = 3 ∧ s.outside = true ∧
      ¬ s.conf.pos < s.conf.pagePos + s.conf.itemPerPage := by
  have hexec : (exec step twoRows
      [.call 0x1004, .init 2 false none, .key noCallbacks, .turn 0 none false none,
        .call 0x1008, .key noCallbacks, .turn 3 none false none,
        .call 0x0204, .key noCallbacks, .turn 0 none false none]).any
        (fun s => decide (s.pc = .idle (some .continue) ∧ s.conf.itemCount = 3 ∧ s.outside = true ∧
          ¬ s.conf.pos < s.conf.pagePos + s.conf.itemPerPage)) = true := by
    decide +kernel
  obtain ⟨s, hs, hend⟩ := (Option.any_eq_true _ _).mp hexec
  exact ⟨s, ⟨rfl, rfl, by decide, rfl, rfl⟩, Run.of_exec hs, of_decide_eq_true hend⟩

/-- The list shrinks while its last page is shown: another page is drawn with the data of that. -/
theorem shrunkList_drawsOthers :
    ∃ s, Run step twoRows
        [.call 0x1004, .init 3 false none, .key noCallbacks, .turn 0 none false none,
          .call 0x0204, .key noCallbacks, .turn 3 none false none,
          .call 0x1008, .key noCallbacks, .turn 2 none false none] s ∧
      s.conf.pagePos = 1 ∧ s.got = some 3 ∧ s.stale = true := by
  have hexec : (exec step twoRows
      [.call 0x1004, .init 3 false none, .key noCallbacks, .turn 0 none false none,
        .call 0x0204, .key noCallbacks, .turn 3 none false none,
        .call 0x1008, .key noCallbacks, .turn 2 none false none]).any
        (fun s => decide (s.conf.pagePos = 1 ∧ s.got = some 3 ∧ s.stale = true)) = true := by
    decide +kernel
  obtain ⟨s, hs, hend⟩ := (Option.any_eq_true _ _).mp hexec
  exact ⟨s, Run.of_exec hs, of_decide_eq_true hend⟩

end SelectList

end Ytht
