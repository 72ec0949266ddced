import Mathlib.Algebra.Order.Ring.Nat
import Ytht.Ythtlib.Stdio
import Ytht.Ythtlib.Strop

/-!
# Ucache.Regform

The queue of registration forms, `getregforms`: the queue file is renamed, its first forms are
written to a new scan file and the others to a queue file of their own, and the renamed file is
removed.

When a step behind the renaming fails the renamed file stays, and every later call gives up
because of it (`getregforms_keeps_iff`).
-/

namespace Ytht

/-! ## Files -/

/-- The files of the queue, and the contents of the scan files, the last one first. -/
structure RegDir where
  newreg : Option (List UInt8)
  getreg : Option (List UInt8)
  scans : List (List UInt8)

/-- Which file operations of a call succeed, and how much of what is written to the two files the
disk takes: all of it, or so many bytes. -/
structure RegOps where
  lock : Bool
  rename : Bool
  fopenGetreg : Bool
  trycreate : Bool
  fopenScan : Bool
  fopenNewreg : Bool
  unlink : Bool
  scanRoom : Option Nat
  newregRoom : Option Nat

/-- What the disk takes of a text. -/
def diskTakes (room : Option Nat) (text : List UInt8) : List UInt8 :=
  match room with
  | none => text
  | some k => text.take k

/-- Forms are appended to the queue file. -/
def RegDir.enqueue (dir : RegDir) (text : List UInt8) : RegDir :=
  if text = [] then dir else { dir with newreg := some (dir.newreg.getD [] ++ text) }

/-- `rename(NEWREGFILE, GETREGFILE)` -/
def RegDir.renamed (dir : RegDir) (ok : Bool) : RegDir :=
  if ok ∧ dir.newreg.isSome then { dir with newreg := none, getreg := dir.newreg } else dir

/-- The loop that fills the scan file, over the strings that `fgets` reads: the count, what has
been written, and what has not been read. -/
def scanLoop (num : Nat) : List (List UInt8) → Nat → Nat →
    Nat × List (List UInt8) × List (List UInt8)
  | [], _, count => (count, [], [])
  | buf :: fpr, numline, count =>
    if buf.head? = some 45 then
      if numline = 0 then scanLoop num fpr numline count
      else if num ≤ count + 1 then (count + 1, [buf], fpr)
      else
        let r := scanLoop num fpr 0 (count + 1)
        (r.1, buf :: r.2.1, r.2.2)
    else
      let r := scanLoop num fpr (numline + 1) count
      (r.1, buf :: r.2.1, r.2.2)

/-- `fputs` of some strings -/
def fputsAll (bufs : List (List UInt8)) : List UInt8 := bufs.flatMap (cutAt 0)

/-- The bytes of `"----\n"`. -/
def dashes : List UInt8 := [45, 45, 45, 45, 10]

/-- `getregforms`, when some text is appended to the queue before it is opened again. -/
def getregforms (dir : RegDir) (num : Nat) (ops : RegOps) (appended : List UInt8) : Int × RegDir :=
  if !ops.lock then (-1, dir.enqueue appended)
  else if dir.getreg.isSome then (-1, dir.enqueue appended)
  else
    let dir := (dir.renamed ops.rename).enqueue appended
    match if ops.fopenGetreg then dir.getreg else none with
    | none => (-1, dir)
    | some text =>
      if !ops.trycreate then (-1, dir)
      else if !ops.fopenScan then (-1, { dir with scans := [] :: dir.scans })
      else
        let r := scanLoop num (fgetsLines 255 255 text) 0 0
        let dir := { dir with scans := diskTakes ops.scanRoom (fputsAll r.2.1) :: dir.scans }
        if !ops.fopenNewreg then (-1, dir)
        else
          (r.1, { dir with
            newreg := some (dir.newreg.getD [] ++ diskTakes ops.newregRoom (fputsAll r.2.2 ++ dashes))
            getreg := if ops.unlink then none else dir.getreg })

/-! ## Forms -/

/-- A line of dashes. -/
structure DashLine where
  count : Nat
  pos : 0 < count
  short : count < 255

def DashLine.line (d : DashLine) : List UInt8 := List.replicate d.count 45

/-- A form in the queue, with lines of dashes before it that close nothing. -/
structure RegForm where
  before : List DashLine
  lines : List (List UInt8)
  close : DashLine
  ne : lines ≠ []
  plain : ∀ l ∈ lines, l.head? ≠ some 45 ∧ 10 ∉ l ∧ 0 ∉ l ∧ l.length < 255

/-- The lines of a form. -/
def RegForm.form (f : RegForm) : List (List UInt8) := f.lines ++ [f.close.line]

/-- The lines of a form, and those before it. -/
def RegForm.all (f : RegForm) : List (List UInt8) := f.before.map DashLine.line ++ f.form

/-- A file with such lines. -/
def linesText (ls : List (List UInt8)) : List UInt8 := ls.flatMap (· ++ [10])

/-- The lines of a queue, which may end with lines of dashes that close nothing. -/
def queueLines (fs : List RegForm) (tail : List DashLine) : List (List UInt8) :=
  fs.flatMap RegForm.all ++ tail.map DashLine.line

def queueText (fs : List RegForm) (tail : List DashLine) : List UInt8 :=
  linesText (queueLines fs tail)

theorem four_dashes : 0 < 4 ∧ 4 < 255 := by decide

/-- The line that `getregforms` writes. -/
def fourDashes : DashLine := ⟨4, four_dashes.1, four_dashes.2⟩

/-! ## What is asked -/

/-- All operations succeed. -/
def RegOps.Working (ops : RegOps) : Prop :=
  ops.lock = true ∧ ops.rename = true ∧ ops.fopenGetreg = true ∧ ops.trycreate = true ∧
    ops.fopenScan = true ∧ ops.fopenNewreg = true ∧ ops.unlink = true ∧ ops.scanRoom = none ∧
    ops.newregRoom = none

/-- A call has delivered the first forms: a new scan file has them, and the queue the others,
behind what was appended. -/
def Delivers (dir : RegDir) (fs : List RegForm) (num : Nat) (appended : List UInt8)
    (r : Int × RegDir) : Prop :=
  r.1 = min num fs.length ∧ r.2.scans = linesText ((fs.take num).flatMap RegForm.form) :: dir.scans ∧
    ∃ tail, r.2.newreg = some (appended ++ queueText (fs.drop num) tail)

/-- Every form is still in the queue and in no scan file, and the next call whose operations
succeed delivers. -/
def StillQueued (dir dir' : RegDir) (fs : List RegForm) : Prop :=
  dir'.scans = dir.scans ∧ ∃ gs tail, dir'.newreg = some (queueText gs tail) ∧
    gs.map RegForm.form = fs.map RegForm.form ∧
    ∀ num ops app, 1 ≤ num → ops.Working → Delivers dir' gs num (queueText app [])
      (getregforms dir' num ops (queueText app []))

/-- What is promised of one call. -/
def KeepsForms (dir : RegDir) (fs : List RegForm) (num : Nat) (ops : RegOps) (app : List RegForm) :
    Prop :=
  let r := getregforms dir num ops (queueText app [])
  (0 ≤ r.1 → Delivers dir fs num (queueText app []) r) ∧
    (r.1 < 0 → r.1 = -1 ∧ StillQueued dir r.2 (fs ++ app))

/-- The lines of dashes behind the last form that a call leaves in the queue. -/
def tailLeft (fs : List RegForm) (tail : List DashLine) (num : Nat) : List DashLine :=
  (if num ≤ fs.length then tail else []) ++ [fourDashes]

/-- There is no file that an earlier call has left, and the call ends before the renaming, or all
files can be opened and the disk takes the forms. -/
def RegOps.Spares (ops : RegOps) (dir : RegDir) (fs : List RegForm) (tail : List DashLine)
    (num : Nat) : Prop :=
  dir.getreg = none ∧ (ops.lock = false ∨ ops.rename = false ∨
    ((ops.fopenGetreg = true ∧ ops.trycreate = true ∧ ops.fopenScan = true ∧
        ops.fopenNewreg = true) ∧
      diskTakes ops.scanRoom (linesText ((fs.take num).flatMap RegForm.form)) =
        linesText ((fs.take num).flatMap RegForm.form) ∧
      ∃ tail', diskTakes ops.newregRoom (queueText (fs.drop num) (tailLeft fs tail num)) =
        queueText (fs.drop num) tail'))

/-! ## The loop -/

/-- A line, as `fgets` reads it. -/
def asRead (l : List UInt8) : List UInt8 := l ++ [10]

theorem head_asRead_dash (d : DashLine) : (asRead d.line).head? = some 45 := by
  obtain ⟨k, hk⟩ := Nat.exists_eq_succ_of_ne_zero (Nat.pos_iff_ne_zero.mp d.pos)
  rw [asRead, DashLine.line, hk, List.replicate_succ]
  rfl

theorem head_asRead_plain {l : List UInt8} (h : l.head? ≠ some 45) :
    (asRead l).head? ≠ some 45 := by
  cases l with
  | nil => decide
  | cons ch l => exact h

/-- Lines of dashes before a form are skipped. -/
theorem scanLoop_before (num : Nat) (ds : List DashLine) (rest : List (List UInt8)) (count : Nat) :
    scanLoop num ((ds.map DashLine.line).map asRead ++ rest) 0 count =
      scanLoop num rest 0 count := by
  induction ds with
  | nil => rfl
  | cons d ds ih =>
    rw [List.map_cons, List.map_cons, List.cons_append, scanLoop, if_pos (head_asRead_dash d),
      if_pos rfl, ih]

/-- The lines of a form are copied. -/
theorem scanLoop_lines (num : Nat) {ls : List (List UInt8)} (h : ∀ l ∈ ls, l.head? ≠ some 45)
    (rest : List (List UInt8)) (numline count : Nat) :
    scanLoop num (ls.map asRead ++ rest) numline count =
      ((scanLoop num rest (numline + ls.length) count).1,
        ls.map asRead ++ (scanLoop num rest (numline + ls.length) count).2.1,
        (scanLoop num rest (numline + ls.length) count).2.2) := by
  induction ls generalizing numline with
  | nil => rfl
  | cons l ls ih =>
    have hplain := head_asRead_plain (h l List.mem_cons_self)
    rw [List.map_cons, List.cons_append, scanLoop, if_neg hplain,
      ih (fun l' hl' => h l' (List.mem_cons_of_mem _ hl')), List.length_cons]
    dsimp only
    rw [show numline + 1 + ls.length = numline + (ls.length + 1) by omega, List.cons_append]

/-- **A form** is copied, and the loop ends or goes on behind it. -/
theorem scanLoop_form (num : Nat) (f : RegForm) (rest : List (List UInt8)) (count : Nat) :
    scanLoop num (f.all.map asRead ++ rest) 0 count =
      if num ≤ count + 1 then (count + 1, f.form.map asRead, rest)
      else
        ((scanLoop num rest 0 (count + 1)).1,
          f.form.map asRead ++ (scanLoop num rest 0 (count + 1)).2.1,
          (scanLoop num rest 0 (count + 1)).2.2) := by
  have hlines : ¬ 0 + f.lines.length = 0 := by
    have hpos := List.length_pos_iff.mpr f.ne
    omega
  rw [RegForm.all, List.map_append, List.append_assoc, scanLoop_before, RegForm.form,
    List.map_append, List.append_assoc, scanLoop_lines num fun l hl => (f.plain l hl).1]
  rw [List.map_singleton, List.singleton_append, scanLoop, if_pos (head_asRead_dash f.close),
    if_neg hlines]
  split
  · rfl
  · dsimp only
    rw [List.append_assoc, List.singleton_append]

/-- **The loop** takes as many forms as are asked for, or all. -/
theorem scanLoop_forms (fs : List RegForm) (tail : List DashLine) {num : Nat} (hnum : 1 ≤ num)
    (count : Nat) :
    scanLoop (count + num) ((queueLines fs tail).map asRead) 0 count =
      (count + min num fs.length, ((fs.take num).flatMap RegForm.form).map asRead,
        (queueLines (fs.drop num) (if num ≤ fs.length then tail else [])).map asRead) := by
  induction fs generalizing num count with
  | nil =>
    have hskip := scanLoop_before (count + num) tail [] count
    rw [List.append_nil] at hskip
    rw [queueLines, List.flatMap_nil, List.nil_append, hskip, if_neg (by simp; omega)]
    simp [scanLoop, queueLines]
  | cons f fs ih =>
    rw [queueLines, List.flatMap_cons, List.append_assoc, List.map_append, scanLoop_form,
      ← queueLines]
    split_ifs with hlast hlen hlen
    · obtain rfl : num = 1 := by omega
      rw [List.length_cons, Nat.min_eq_left (by omega)]
      simp
    · simp only [List.length_cons] at hlen
      omega
    · obtain ⟨num, rfl⟩ : ∃ m, num = m + 1 := ⟨num - 1, by omega⟩
      have hgo := @ih num (by omega) (count + 1)
      rw [show count + 1 + num = count + (num + 1) by omega] at hgo
      rw [List.length_cons] at hlen
      rw [hgo, if_pos (by omega), List.length_cons]
      simp only [List.take_succ_cons, List.flatMap_cons, List.map_append, List.drop_succ_cons]
      rw [show count + 1 + min num fs.length = count + min (num + 1) (fs.length + 1) by omega]
    · obtain ⟨num, rfl⟩ : ∃ m, num = m + 1 := ⟨num - 1, by omega⟩
      have hgo := @ih num (by omega) (count + 1)
      rw [show count + 1 + num = count + (num + 1) by omega] at hgo
      rw [List.length_cons] at hlen
      rw [hgo, if_neg (by omega), List.length_cons]
      simp only [List.take_succ_cons, List.flatMap_cons, List.map_append, List.drop_succ_cons]
      rw [show count + 1 + min num fs.length = count + min (num + 1) (fs.length + 1) by omega]

/-- A line that `fgets` reads as a whole, and `fputs` writes as a whole. -/
def WholeLine (l : List UInt8) : Prop := 10 ∉ l ∧ 0 ∉ l ∧ l.length < 255

theorem DashLine.whole (d : DashLine) : WholeLine d.line := by
  have hne : ∀ ch : UInt8, ch ≠ 45 → ch ∉ d.line := fun ch hch hmem =>
    hch (List.eq_of_mem_replicate hmem)
  exact ⟨hne 10 (by decide), hne 0 (by decide), by rw [line, List.length_replicate]; exact d.short⟩

theorem RegForm.whole_form (f : RegForm) {l : List UInt8} (hl : l ∈ f.form) : WholeLine l := by
  rcases List.mem_append.mp hl with hl | hl
  · exact (f.plain l hl).2
  · rw [List.mem_singleton.mp hl]
    exact f.close.whole

theorem whole_queueLines {fs : List RegForm} {tail : List DashLine} {l : List UInt8}
    (hl : l ∈ queueLines fs tail) : WholeLine l := by
  rcases List.mem_append.mp hl with hl | hl
  · obtain ⟨f, -, hf⟩ := List.mem_flatMap.mp hl
    rcases List.mem_append.mp hf with hf | hf
    · obtain ⟨d, -, rfl⟩ := List.mem_map.mp hf
      exact d.whole
    · exact f.whole_form hf
  · obtain ⟨d, -, rfl⟩ := List.mem_map.mp hl
    exact d.whole

theorem fgets_linesText {ls : List (List UInt8)} (h : ∀ l ∈ ls, WholeLine l) :
    fgetsLines 255 255 (linesText ls) = ls.map asRead :=
  fgetsLines_content (fun l hl => (h l hl).2.2) fun l hl => (h l hl).1

theorem fputsAll_asRead {ls : List (List UInt8)} (h : ∀ l ∈ ls, WholeLine l) :
    fputsAll (ls.map asRead) = linesText ls := by
  rw [fputsAll, linesText, List.flatMap_map]
  refine List.flatMap_congr fun l hl => cutAt_of_notMem fun hmem => ?_
  rcases List.mem_append.mp hmem with hmem | hmem
  · exact (h l hl).2.1 hmem
  · exact absurd hmem (by decide)

theorem queueText_tail (fs : List RegForm) (tail : List DashLine) :
    queueText fs tail ++ dashes = queueText fs (tail ++ [fourDashes]) := by
  have hlast : linesText [fourDashes.line] = dashes := rfl
  rw [queueText, queueText, queueLines, queueLines, List.map_append, ← List.append_assoc,
    List.map_singleton, ← hlast]
  exact List.flatMap_append.symm

/-- The two texts that are written. -/
theorem scanLoop_queueText (fs : List RegForm) (tail : List DashLine) {num : Nat}
    (hnum : 1 ≤ num) :
    ∃ r, scanLoop num (fgetsLines 255 255 (queueText fs tail)) 0 0 = r ∧
      r.1 = min num fs.length ∧
      fputsAll r.2.1 = linesText ((fs.take num).flatMap RegForm.form) ∧
      fputsAll r.2.2 ++ dashes = queueText (fs.drop num) (tailLeft fs tail num) := by
  have hloop := scanLoop_forms fs tail hnum 0
  rw [Nat.zero_add, Nat.zero_add] at hloop
  rw [queueText, fgets_linesText fun l hl => whole_queueLines hl, hloop]
  refine ⟨_, rfl, rfl, fputsAll_asRead fun l hl => ?_, ?_⟩
  · obtain ⟨f, -, hf⟩ := List.mem_flatMap.mp hl
    exact f.whole_form hf
  · rw [fputsAll_asRead fun l hl => whole_queueLines hl, ← queueText, queueText_tail, tailLeft]

/-! ## One call -/

/-- Forms behind a queue. -/
theorem queueText_join (fs app : List RegForm) (tail : List DashLine) :
    ∃ gs tail', queueText fs tail ++ queueText app [] = queueText gs tail' ∧
      gs.map RegForm.form = (fs ++ app).map RegForm.form := by
  cases app with
  | nil => exact ⟨fs, tail, List.append_nil _, by rw [List.append_nil]⟩
  | cons a app =>
    refine ⟨fs ++ { a with before := tail ++ a.before } :: app, [], ?_, ?_⟩
    · rw [queueText, queueText, queueText, linesText, linesText, ← List.flatMap_append, linesText]
      simp [queueLines, RegForm.all, RegForm.form]
    · simp [RegForm.form]

/-- **A call whose files can all be opened.** -/
theorem getregforms_done {dir : RegDir} {fs : List RegForm} {tail : List DashLine}
    (hqueue : dir.newreg = some (queueText fs tail)) (hfree : dir.getreg = none) {num : Nat}
    (hnum : 1 ≤ num) {ops : RegOps} (hlock : ops.lock = true) (hrename : ops.rename = true)
    (hopen : ops.fopenGetreg = true ∧ ops.trycreate = true ∧ ops.fopenScan = true ∧
      ops.fopenNewreg = true) (appended : List UInt8) :
    (getregforms dir num ops appended).1 = min num fs.length ∧
    (getregforms dir num ops appended).2.scans =
      diskTakes ops.scanRoom (linesText ((fs.take num).flatMap RegForm.form)) :: dir.scans ∧
    (getregforms dir num ops appended).2.newreg = some (appended ++
      diskTakes ops.newregRoom (queueText (fs.drop num) (tailLeft fs tail num))) := by
  obtain ⟨hwork, hcreate, hscan, hnew⟩ := hopen
  obtain ⟨r, hr, hcount, hwritten, hrest⟩ := scanLoop_queueText fs tail hnum
  have hdir : ∃ q, ((dir.renamed ops.rename).enqueue appended) =
      { newreg := q, getreg := some (queueText fs tail), scans := dir.scans } ∧
      q.getD [] = appended := by
    rw [RegDir.renamed, hrename, hqueue, if_pos ⟨rfl, rfl⟩, RegDir.enqueue]
    split
    · next hempty => exact ⟨none, rfl, hempty.symm⟩
    · exact ⟨_, rfl, rfl⟩
  obtain ⟨q, hdir, hq⟩ := hdir
  have heq : getregforms dir num ops appended = ((r.1 : Int),
      { newreg := some (q.getD [] ++ diskTakes ops.newregRoom (fputsAll r.2.2 ++ dashes))
        getreg := if ops.unlink then none else some (queueText fs tail)
        scans := diskTakes ops.scanRoom (fputsAll r.2.1) :: dir.scans }) := by
    unfold getregforms
    simp only [hlock, hfree, hdir, hwork, hcreate, hscan, hnew, hr, Bool.not_true,
      Bool.false_eq_true, if_false, if_true, Option.isSome_none]
  rw [heq, hq, hwritten, hrest]
  exact ⟨by rw [← hcount], rfl, rfl⟩

theorem getregforms_delivers {dir : RegDir} {fs : List RegForm} {tail : List DashLine}
    (hqueue : dir.newreg = some (queueText fs tail)) (hfree : dir.getreg = none) {num : Nat}
    (hnum : 1 ≤ num) {ops : RegOps} (hworking : ops.Working) (appended : List UInt8) :
    Delivers dir fs num appended (getregforms dir num ops appended) := by
  obtain ⟨hlock, hrename, hwork, hcreate, hscan, hnew, -, hroom, hroom'⟩ := hworking
  obtain ⟨hcount, hscans, hnewreg⟩ := getregforms_done hqueue hfree hnum hlock hrename
    ⟨hwork, hcreate, hscan, hnew⟩ appended
  rw [hroom] at hscans
  rw [hroom'] at hnewreg
  exact ⟨hcount, hscans, _, hnewreg⟩

/-- A queue that has got some forms more, and no file in the way. -/
theorem stillQueued_enqueue {dir : RegDir} {fs : List RegForm} {tail : List DashLine}
    (hqueue : dir.newreg = some (queueText fs tail)) (hfree : dir.getreg = none)
    (app : List RegForm) : StillQueued dir (dir.enqueue (queueText app [])) (fs ++ app) := by
  obtain ⟨gs, tail', htext, hforms⟩ := queueText_join fs app tail
  obtain ⟨q, hdir, hq⟩ : ∃ q, dir.enqueue (queueText app []) = { dir with newreg := q } ∧
      q = some (queueText gs tail') := by
    unfold RegDir.enqueue
    split
    · next hempty =>
      rw [hempty, List.append_nil] at htext
      exact ⟨dir.newreg, rfl, by rw [hqueue, htext]⟩
    · exact ⟨_, rfl, by rw [hqueue, ← htext]; rfl⟩
  rw [hdir, hq]
  have hnewreg : RegDir.newreg ⟨some (queueText gs tail'), dir.getreg, dir.scans⟩ =
      some (queueText gs tail') := rfl
  exact ⟨rfl, gs, tail', rfl, hforms, fun num ops app' hnum hworking =>
    getregforms_delivers hnewreg hfree hnum hworking _⟩

/-- A file of an earlier call is in the way of every call. -/
theorem not_stillQueued {dir dir' : RegDir} {fs : List RegForm} (h : dir'.getreg ≠ none) :
    ¬ StillQueued dir dir' fs := by
  intro hstill
  obtain ⟨-, gs, tail, -, -, hnext⟩ := hstill
  have hcount := (hnext 1 ⟨true, true, true, true, true, true, true, none, none⟩ [] (Nat.le_refl 1)
    ⟨rfl, rfl, rfl, rfl, rfl, rfl, rfl, rfl, rfl⟩).1
  have hsome := Option.isSome_iff_ne_none.mpr h
  rw [getregforms, if_neg (by decide), if_pos hsome] at hcount
  dsimp only at hcount
  omega

/-- A call that ends before the renaming. -/
theorem keepsForms_early {dir : RegDir} {fs : List RegForm} {tail : List DashLine}
    (hqueue : dir.newreg = some (queueText fs tail)) (hfree : dir.getreg = none) {num : Nat}
    {ops : RegOps} {app : List RegForm}
    (hr : getregforms dir num ops (queueText app []) = (-1, dir.enqueue (queueText app []))) :
    KeepsForms dir fs num ops app := by
  unfold KeepsForms
  rw [hr]
  exact ⟨fun hpos => absurd hpos (show ¬ (0 : Int) ≤ -1 by decide),
    fun _ => ⟨rfl, stillQueued_enqueue hqueue hfree app⟩⟩

/-- A call that fails with the renamed file left. -/
theorem not_keepsForms {dir dir' : RegDir} {fs : List RegForm} {num : Nat} {ops : RegOps}
    {app : List RegForm} (hr : getregforms dir num ops (queueText app []) = (-1, dir'))
    (hleft : dir'.getreg ≠ none) : ¬ KeepsForms dir fs num ops app := by
  unfold KeepsForms
  rw [hr]
  exact fun h => not_stillQueued hleft (h.2 (show (-1 : Int) < 0 by decide)).2

theorem enqueue_getreg (dir : RegDir) (text : List UInt8) :
    (dir.enqueue text).getreg = dir.getreg := by
  unfold RegDir.enqueue
  split <;> rfl

/-- The three ways to end before the renaming. -/
theorem getregforms_early {dir : RegDir} {ops : RegOps} (num : Nat) (appended : List UInt8)
    (h : ops.lock = false ∨ dir.getreg ≠ none ∨ ops.rename = false) :
    getregforms dir num ops appended = (-1, dir.enqueue appended) := by
  unfold getregforms
  cases hlock : ops.lock with
  | false => rfl
  | true =>
    cases hgetreg : dir.getreg with
    | some text => rfl
    | none =>
      have hrename : ops.rename = false := by
        rcases h with h | h | h
        · rw [h] at hlock
          contradiction
        · exact absurd hgetreg h
        · exact h
      have hgone : ((dir.renamed ops.rename).enqueue appended) = dir.enqueue appended := by
        rw [RegDir.renamed, hrename, if_neg (by simp)]
      simp only [hgone, enqueue_getreg, hgetreg, ite_self, Bool.not_true, Bool.false_eq_true,
        Option.isSome_none]

/-- What fails behind the renaming leaves the renamed file. -/
theorem getregforms_late {dir : RegDir} {ops : RegOps} {text : List UInt8}
    (hqueue : dir.newreg = some text) (hfree : dir.getreg = none) (hlock : ops.lock = true)
    (hrename : ops.rename = true) (hopen : ¬ (ops.fopenGetreg = true ∧ ops.trycreate = true ∧
      ops.fopenScan = true ∧ ops.fopenNewreg = true)) (num : Nat) (appended : List UInt8) :
    ∃ dir', getregforms dir num ops appended = (-1, dir') ∧ dir'.getreg ≠ none := by
  have hleft : ((dir.renamed ops.rename).enqueue appended).getreg = some text := by
    rw [enqueue_getreg, RegDir.renamed, hrename, hqueue, if_pos ⟨rfl, rfl⟩]
  have hkept : some text ≠ none := Option.some_ne_none text
  unfold getregforms
  simp only [hlock, hfree, hleft, Bool.not_true, Bool.false_eq_true, if_false, Option.isSome_none]
  cases hwork : ops.fopenGetreg with
  | false => exact ⟨_, rfl, by rwa [hleft]⟩
  | true =>
    cases hcreate : ops.trycreate with
    | false => exact ⟨_, rfl, by rwa [hleft]⟩
    | true =>
      cases hscan : ops.fopenScan with
      | false => exact ⟨_, rfl, hkept⟩
      | true =>
        cases hnew : ops.fopenNewreg with
        | false => exact ⟨_, rfl, hkept⟩
        | true => exact absurd ⟨hwork, hcreate, hscan, hnew⟩ hopen

/-- **No form is lost and none is stuck** after a call, whatever operations of it fail, if and
only if there was no file in its way and it ends before the renaming, or all of its files can be
opened and the disk takes the forms. -/
theorem getregforms_keeps_iff {dir : RegDir} {fs : List RegForm} {tail : List DashLine}
    (hqueue : dir.newreg = some (queueText fs tail)) {num : Nat} (hnum : 1 ≤ num) (ops : RegOps)
    (app : List RegForm) :
    KeepsForms dir fs num ops app ↔ ops.Spares dir fs tail num := by
  unfold RegOps.Spares
  by_cases hfree : dir.getreg = none
  · by_cases hearly : ops.lock = false ∨ ops.rename = false
    · have hr := @getregforms_early dir ops num (queueText app [])
        (hearly.imp_right Or.inr)
      exact ⟨fun _ => ⟨hfree, hearly.imp_right Or.inl⟩, fun _ => keepsForms_early hqueue hfree hr⟩
    · rw [not_or, Bool.not_eq_false, Bool.not_eq_false] at hearly
      obtain ⟨hlock, hrename⟩ := hearly
      have hlate : ∀ {p : Prop}, (ops.lock = false ∨ ops.rename = false ∨ p) ↔ p := by
        simp [hlock, hrename]
      rw [hlate]
      by_cases hopen : ops.fopenGetreg = true ∧ ops.trycreate = true ∧ ops.fopenScan = true ∧
          ops.fopenNewreg = true
      · obtain ⟨hcount, hscans, hnewreg⟩ :=
          getregforms_done hqueue hfree hnum hlock hrename hopen (queueText app [])
        have hpos : 0 ≤ (getregforms dir num ops (queueText app [])).1 := by omega
        constructor
        · intro h
          obtain ⟨-, hscans', tail', hnewreg'⟩ := h.1 hpos
          rw [hscans] at hscans'
          rw [hnewreg, Option.some.injEq] at hnewreg'
          exact ⟨hfree, hopen, (List.cons.inj hscans').1, tail', List.append_cancel_left hnewreg'⟩
        · rintro ⟨-, -, hroom, tail', hroom'⟩
          rw [hroom] at hscans
          rw [hroom'] at hnewreg
          exact ⟨fun _ => ⟨hcount, hscans, tail', hnewreg⟩, fun hneg => by omega⟩
      · obtain ⟨dir', hr, hleft⟩ :=
          getregforms_late hqueue hfree hlock hrename hopen num (queueText app [])
        exact ⟨fun h => absurd h (not_keepsForms hr hleft), fun h => absurd h.2.1 hopen⟩
  · have hr := @getregforms_early dir ops num (queueText app []) (Or.inr (Or.inl hfree))
    have hleft : (dir.enqueue (queueText app [])).getreg ≠ none := by rwa [enqueue_getreg]
    exact ⟨fun h => absurd h (not_keepsForms hr hleft), fun h => absurd h.1 hfree⟩

theorem oneLine_plain (l : List UInt8) (hl : l ∈ [[97]]) :
    l.head? ≠ some 45 ∧ 10 ∉ l ∧ 0 ∉ l ∧ l.length < 255 := by
  rw [List.mem_singleton.mp hl]
  decide

/-- A form with the line `a`. -/
def oneLine : RegForm := ⟨[], [[97]], fourDashes, List.cons_ne_nil _ _, oneLine_plain⟩

/-- A queue with this form. -/
def oneLineDir : RegDir := ⟨some (queueText [oneLine] []), none, []⟩

/-- All operations succeed, and the form is delivered. -/
theorem getregforms_keeps_oneLine :
    KeepsForms oneLineDir [oneLine] 1 ⟨true, true, true, true, true, true, true, none, none⟩ [] :=
  (@getregforms_keeps_iff oneLineDir [oneLine] [] rfl 1 (Nat.le_refl 1) _ []).mpr
    ⟨rfl, Or.inr (Or.inr ⟨⟨rfl, rfl, rfl, rfl⟩, rfl, [fourDashes], rfl⟩)⟩

/-- The scan file cannot be created: the call returns -1, and so does the next one, in which
everything succeeds; the form is in neither the queue nor a scan file. -/
theorem getregforms_stuck :
    ¬ KeepsForms oneLineDir [oneLine] 1 ⟨true, true, true, false, true, true, true, none, none⟩ [] ∧
    ∃ dir', getregforms oneLineDir 1 ⟨true, true, true, false, true, true, true, none, none⟩ [] =
        (-1, dir') ∧ dir'.newreg = none ∧ dir'.scans = [] ∧
      getregforms dir' 1 ⟨true, true, true, true, true, true, true, none, none⟩ [] = (-1, dir') :=
  ⟨not_keepsForms rfl (Option.some_ne_none _), _, rfl, rfl, rfl, rfl⟩

end Ytht
