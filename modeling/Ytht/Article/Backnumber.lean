import Mathlib.Logic.Function.Basic
import Ytht.Article.Dir
import Ytht.Lib.Runs
import Ytht.Lib.Transfer

/-!
# Article.Backnumber

Moving the old articles of a board into a back number (`do_intobacknumber`) while
articles are posted (`append_dir_callback`), one system call at a time.

The run copies the records it keeps from `.DIR` to `.tmpfile`, and moves the files of
the others one by one.  Its lock is on `.tmpfile`, where no post looks for one, so a
post may be added to `.DIR` behind the last record that the run has read, or to a
`.DIR` that has already been renamed: it is lost (`backnumber_losesPost`).  When a call
fails after files have been moved the two indexes do not fit together either.
`backnumber_run` is about the runs in which neither happens.
-/

namespace Ytht

open Function Runs Transfer

/-! ## The board -/

/-- The names that `fh2fname` makes: `M.%d.A`, or `G.%d.A` in the digest. -/
structure ArticleName where
  digest : Bool
  filetime : Int
  deriving DecidableEq

/-- `fh2fname` -/
def fh2fname (fh : FileHeader) : ArticleName := ⟨fh.accessed &&& 0x800 ≠ 0, fh.filetime⟩

/-- The descriptors of the run, and how many records it has read from `fdr`. -/
structure BknFiles where
  fdr : Nat
  fdw : Nat
  pos : Nat
  deriving DecidableEq

/-- What the loop of `do_intobacknumber` does next. -/
inductive BknNext where
  | read
  /-- `file_isfile` for a record that is old enough -/
  | stat (fhdr : FileHeader)
  /-- `crossfs_rename` -/
  | move (fhdr : FileHeader)
  /-- `append_record` in the back number -/
  | append (fhdr : FileHeader)
  /-- `safewrite` -/
  | write (fhdr : FileHeader)
  /-- The loop is over, and `.DIR` is to be renamed to `.deleted`. -/
  | rename
  deriving DecidableEq

/-- How far `do_intobacknumber` has come. -/
inductive BknPc where
  | start
  /-- The back number is there. -/
  | ready
  | opened (fdr : Nat)
  /-- `.tmpfile` is open, and not locked yet. -/
  | created (fd : BknFiles)
  | loop (fd : BknFiles) (next : BknNext)
  /-- There is no `.DIR`, and `.tmpfile` is to be renamed to it. -/
  | renamed (fd : BknFiles)
  | swapped (fd : BknFiles)
  | done (ret : Int)
  deriving DecidableEq

/-- How far a call of `append_dir_callback` has come.  `C` is what may be in an article. -/
inductive PostPc (C : Type) where
  | idle
  | opened (fd : Nat)
  | locked (fd : Nat)
  /-- The article has its file. -/
  | created (fd : Nat) (record : FileHeader) (content : C)
  | leaving (fd : Nat)
  | done
  deriving DecidableEq

/-- The article that a post has made, and has not added to the index. -/
def PostPc.made {C : Type} : PostPc C → Option (FileHeader × C)
  | .created _ record content => some (record, content)
  | _ => none

/-- Who holds a lock. -/
inductive BknHolder (P : Type) where
  | run
  | post (p : P)
  deriving DecidableEq

/-- The files of a board and its back number, with everyone who works on them.  Index files
are known by number, so that one which is open stays what it is when its name goes.
`articles` are the records that were there at the start, or have been appended, whose file
exists. -/
structure BknBoard (C P : Type) where
  inode : Nat → List FileHeader
  next : Nat
  /-- `.DIR` -/
  dirName : Option Nat
  /-- `.tmpfile` -/
  tmpName : Option Nat
  lock : Nat → Option (BknHolder P)
  board : ArticleName → Option C
  back : ArticleName → Option C
  backDir : List FileHeader
  pc : BknPc
  post : P → PostPc C
  articles : List (FileHeader × C)

/-- How `crossfs_rename` ends.  Between file systems it copies what it can read, and does not
look whether the old file is gone. -/
inductive BknMove (C : Type) where
  | renamed
  | copied (content : C) (unlinked : Bool)
  | failed

/-- A system call of the run or of a post, with its outcome. -/
inductive BknEvent (C P : Type) where
  | run (ok : Bool)
  | move (how : BknMove C)
  | postOpen (p : P) (ok : Bool)
  | postLock (p : P)
  | postCreate (p : P) (record : FileHeader) (content : C)
  | postGiveUp (p : P)
  | postWrite (p : P) (ok : Bool)
  | postUnlock (p : P)

variable {C P : Type}

namespace BknBoard

/-- The records in `.DIR`. -/
def dir (s : BknBoard C P) : List FileHeader := s.dirName.elim [] s.inode

/-! ## The run -/

/-- `filet > 0 && filet < t` -/
def isOld (t : Int) (fhdr : FileHeader) : Bool := 0 < fhdr.filetime && fhdr.filetime < t

/-- The run ends. -/
def quit (s : BknBoard C P) (fd : BknFiles) (ret : Int) : BknBoard C P :=
  { s with lock := update s.lock fd.fdw none, pc := .done ret }

/-- The next call of `do_intobacknumber`, except in `crossfs_rename`. -/
def runStep (t : Int) (s : BknBoard C P) (ok : Bool) : Option (BknBoard C P) :=
  match s.pc with
  | .start => some { s with pc := if ok then .ready else .done (-1) }
  | .ready =>
      match s.dirName with
      | some fdr => some { s with pc := if ok then .opened fdr else .done (-2) }
      | none => some { s with pc := .done (-2) }
  | .opened fdr =>
      if ok = true ∧ s.tmpName = none then
        some { s with
          inode := update s.inode s.next []
          next := s.next + 1
          tmpName := some s.next
          pc := .created ⟨fdr, s.next, 0⟩ }
      else some { s with pc := .done (-3) }
  | .created fd =>
      if s.lock fd.fdw = none then
        some { s with lock := update s.lock fd.fdw (some .run), pc := .loop fd .read }
      else none
  | .loop fd .read =>
      match (s.inode fd.fdr)[fd.pos]? with
      | some fhdr =>
          if ok then
            let next := if isOld t fhdr then .stat fhdr else .write fhdr
            some { s with pc := .loop { fd with pos := fd.pos + 1 } next }
          else some { s with pc := .loop fd .rename }
      | none => some { s with pc := .loop fd .rename }
  | .loop fd (.stat fhdr) =>
      if ok = true ∧ (s.board (fh2fname fhdr)).isSome = true then
        some { s with pc := .loop fd (.move fhdr) }
      else some { s with pc := .loop fd .read }
  | .loop _ (.move _) => none
  | .loop fd (.append fhdr) =>
      some { s with
        backDir := if ok then s.backDir ++ [fhdr] else s.backDir
        pc := .loop fd .read }
  | .loop fd (.write fhdr) =>
      if ok then
        some { s with
          inode := update s.inode fd.fdw (s.inode fd.fdw ++ [fhdr])
          pc := .loop fd .read }
      else some ({ s with tmpName := none }.quit fd (-4))
  | .loop fd .rename =>
      if ok = true ∧ s.dirName.isSome = true then
        some { s with dirName := none, pc := .renamed fd }
      else some (s.quit fd (-6))
  | .renamed fd =>
      if ok = true ∧ s.tmpName.isSome = true then
        some { s with dirName := s.tmpName, tmpName := none, pc := .swapped fd }
      else some (s.quit fd (-7))
  | .swapped fd => some (s.quit fd 0)
  | .done _ => none

/-- `crossfs_rename(buf1, buf2)` -/
def moveStep (s : BknBoard C P) (how : BknMove C) : Option (BknBoard C P) :=
  match s.pc with
  | .loop fd (.move fhdr) =>
      match how with
      | .failed => some { s with pc := .loop fd (.write fhdr) }
      | .renamed =>
          if (s.board (fh2fname fhdr)).isSome = true then
            some { s with
              board := update s.board (fh2fname fhdr) none
              back := update s.back (fh2fname fhdr) (s.board (fh2fname fhdr))
              pc := .loop fd (.append fhdr) }
          else none
      | .copied content unlinked =>
          if (s.board (fh2fname fhdr)).isSome = true then
            some { s with
              board := if unlinked then update s.board (fh2fname fhdr) none else s.board
              back := update s.back (fh2fname fhdr) (some content)
              pc := .loop fd (.append fhdr) }
          else none
  | _ => none

/-! ## The posts -/

section events

variable [DecidableEq P]

/-- A post goes on. -/
def goto (s : BknBoard C P) (p : P) (pc : PostPc C) : BknBoard C P :=
  { s with post := update s.post p pc }

/-- `open(filename, O_WRONLY | O_CREAT | O_APPEND, 0660)` -/
def postOpen (s : BknBoard C P) (p : P) (ok : Bool) : Option (BknBoard C P) :=
  match s.post p with
  | .idle =>
      if ok then
        match s.dirName with
        | some fd => some (s.goto p (.opened fd))
        | none =>
            some ({ s with
              inode := update s.inode s.next []
              next := s.next + 1
              dirName := some s.next }.goto p (.opened s.next))
      else some (s.goto p .done)
  | _ => none

/-- `flock(fd, LOCK_EX)` -/
def postLock (s : BknBoard C P) (p : P) : Option (BknBoard C P) :=
  match s.post p with
  | .opened fd =>
      if s.lock fd = none then
        some ({ s with lock := update s.lock fd (some (.post p)) }.goto p (.locked fd))
      else none
  | _ => none

/-- `trycreatefile`, which takes a name that is not in use, and the callback. -/
def postCreate (s : BknBoard C P) (p : P) (record : FileHeader) (content : C) :
    Option (BknBoard C P) :=
  match s.post p with
  | .locked fd =>
      if (fh2fname record).digest = false ∧ s.board (fh2fname record) = none then
        some ({ s with board := update s.board (fh2fname record) (some content) }.goto p
          (.created fd record content))
      else none
  | _ => none

/-- `trycreatefile` finds no name, or the callback fails and the file is taken away again. -/
def postGiveUp (s : BknBoard C P) (p : P) : Option (BknBoard C P) :=
  match s.post p with
  | .locked fd => some (s.goto p (.leaving fd))
  | .created fd record _ =>
      some ({ s with board := update s.board (fh2fname record) none }.goto p (.leaving fd))
  | _ => none

/-- `write(fd, record, sizeof(struct fileheader))` -/
def postWrite (s : BknBoard C P) (p : P) (ok : Bool) : Option (BknBoard C P) :=
  match s.post p with
  | .created fd record content =>
      if ok then
        some ({ s with
          inode := update s.inode fd (s.inode fd ++ [record])
          articles := s.articles ++ [(record, content)] }.goto p (.leaving fd))
      else some (s.goto p (.leaving fd))
  | _ => none

/-- `flock(fd, LOCK_UN)` -/
def postUnlock (s : BknBoard C P) (p : P) : Option (BknBoard C P) :=
  match s.post p with
  | .leaving fd => some ({ s with lock := update s.lock fd none }.goto p .done)
  | _ => none

/-- One call of the run or of a post. -/
def step (t : Int) (s : BknBoard C P) : BknEvent C P → Option (BknBoard C P)
  | .run ok => s.runStep t ok
  | .move how => s.moveStep how
  | .postOpen p ok => s.postOpen p ok
  | .postLock p => s.postLock p
  | .postCreate p record content => s.postCreate p record content
  | .postGiveUp p => s.postGiveUp p
  | .postWrite p ok => s.postWrite p ok
  | .postUnlock p => s.postUnlock p

end events

/-! ## Where the records are -/

/-- The records as a transfer from `.DIR` to the back number. -/
def view (s : BknBoard C P) : View FileHeader ArticleName C P where
  pending :=
    match s.pc with
    | .loop fd (.stat fhdr) | .loop fd (.move fhdr) | .loop fd (.write fhdr) =>
        fhdr :: (s.inode fd.fdr).drop fd.pos
    | .loop fd _ => (s.inode fd.fdr).drop fd.pos
    | _ => s.dir
  kept :=
    match s.pc with
    | .loop fd _ | .renamed fd => s.inode fd.fdw
    | _ => []
  transit :=
    match s.pc with
    | .loop _ (.append fhdr) => [fhdr]
    | _ => []
  moved := s.backDir
  queue := s.dir
  source := s.board
  target := s.back
  things := s.articles
  held := fun p => (s.post p).made

/-- No record of `.DIR` is in the back number. -/
def NothingMoved (s : BknBoard C P) : Prop := ∀ fhdr ∈ s.dir, fhdr ∉ s.backDir

/-- The steps after which nothing is lost.  The run is not told wrongly that a file is not
there, has nothing moved yet when it must give up, has read all of `.DIR` when it renames
it, and finds nothing in a new one; a post takes a name that no record has, and writes to
the file that is `.DIR`. -/
def StepOk (s : BknBoard C P) : BknEvent C P → Prop
  | .run ok =>
      match s.pc with
      | .loop _ (.stat fhdr) => ok = true ∨ s.board (fh2fname fhdr) = none
      | .loop _ (.append _) => ok = true
      | .loop _ (.write _) => ok = true ∨ s.NothingMoved
      | .loop fd .rename =>
          if ok = true then fd.pos = (s.inode fd.fdr).length else s.NothingMoved
      | .renamed _ => ok = true ∧ s.dir = []
      | _ => True
  | .move (.copied content _) =>
      match s.pc with
      | .loop _ (.move fhdr) => s.board (fh2fname fhdr) = some content
      | _ => True
  | .postCreate _ record _ => ∀ fhdr ∈ s.view.listed, fh2fname fhdr ≠ fh2fname record
  | .postWrite p ok =>
      match s.post p with
      | .created fd _ _ => ok = false ∨ s.dirName = some fd
      | _ => True
  | _ => True

/-- A board in order, and nobody at work on it. -/
structure Start (s : BknBoard C P) : Prop where
  pc : s.pc = .start
  post : ∀ p, s.post p = .idle
  dirName : ∃ fd, s.dirName = some fd
  fresh : ∀ fd, s.dirName = some fd ∨ s.tmpName = some fd → fd < s.next
  names : (s.dir.map fh2fname).Nodup
  apart : ∀ fhdr ∈ s.dir, ∀ old ∈ s.backDir, fh2fname old ≠ fh2fname fhdr
  articles : ∀ fhdr content, (fhdr, content) ∈ s.articles ↔
    fhdr ∈ s.dir ∧ s.board (fh2fname fhdr) = some content

/-- A board whose articles all say the same. -/
def atRest (dir backDir : List FileHeader) (content : C) : BknBoard C P where
  inode := update (fun _ => []) 0 dir
  next := 1
  dirName := some 0
  tmpName := none
  lock _ := none
  board name := if name ∈ dir.map fh2fname then some content else none
  back name := if name ∈ backDir.map fh2fname then some content else none
  backDir := backDir
  pc := .start
  post _ := .idle
  articles := dir.map fun fhdr => (fhdr, content)

theorem atRest_start {dir backDir : List FileHeader} {content : C} (hnames : (dir.map fh2fname).Nodup)
    (hapart : ∀ fhdr ∈ dir, ∀ old ∈ backDir, fh2fname old ≠ fh2fname fhdr) :
    (atRest dir backDir content : BknBoard C P).Start where
  pc := rfl
  post _ := rfl
  dirName := ⟨0, rfl⟩
  fresh := by simp [atRest]
  names := by simpa [atRest, BknBoard.dir] using hnames
  apart := by simpa [atRest, BknBoard.dir] using hapart
  articles fhdr c := by
    simp only [atRest, BknBoard.dir, Option.elim_some, update_self, List.mem_map, Prod.mk.injEq]
    constructor
    · rintro ⟨fhdr, hmem, rfl, rfl⟩
      exact ⟨hmem, if_pos ⟨fhdr, hmem, rfl⟩⟩
    · rintro ⟨hmem, hboard⟩
      rw [if_pos ⟨fhdr, hmem, rfl⟩] at hboard
      exact ⟨fhdr, hmem, rfl, Option.some.inj hboard⟩

/-- A record of the given time. -/
def recordAt (filetime : Int) : FileHeader := { zeroHeader with filetime }

/-- `.DIR` is there, and every article is in one of the two indexes with its file beside. -/
def Safe (s : BknBoard C P) : Prop :=
  s.dirName.isSome = true ∧ ∀ a ∈ s.articles,
    (a.1 ∈ s.dir ∧ a.1 ∉ s.backDir ∧ s.board (fh2fname a.1) = some a.2) ∨
      (a.1 ∈ s.backDir ∧ a.1 ∉ s.dir ∧ s.back (fh2fname a.1) = some a.2)

/-- The index files fit to how far the run has come. -/
def Fits (s : BknBoard C P) : Prop :=
  match s.pc with
  | .opened fdr => s.dirName = some fdr
  | .created fd => s.dirName = some fd.fdr ∧ s.tmpName = some fd.fdw ∧ fd.fdw ≠ fd.fdr ∧
      fd.pos = 0 ∧ s.inode fd.fdw = []
  | .loop fd _ => s.dirName = some fd.fdr ∧ s.tmpName = some fd.fdw ∧ fd.fdw ≠ fd.fdr ∧
      fd.pos ≤ (s.inode fd.fdr).length
  | .renamed fd => s.tmpName = some fd.fdw ∧ s.dirName ≠ some fd.fdw
  | _ => s.dirName.isSome = true

/-- `.DIR` still has all records. -/
def BeforeRename (s : BknBoard C P) : Prop :=
  match s.pc with
  | .renamed _ | .swapped _ | .done _ => False
  | _ => True

structure Inv (s : BknBoard C P) : Prop where
  ok : s.view.Ok fh2fname
  fits : s.Fits
  queued : s.BeforeRename → s.view.Queued fh2fname
  fresh : ∀ fd, s.dirName = some fd ∨ s.tmpName = some fd → fd < s.next

theorem Start.inv {s : BknBoard C P} (h : s.Start) : s.Inv where
  ok := {
    names := by simpa [view, h.pc] using h.names
    apart := by simpa [view, h.pc] using h.apart
    home := by
      rintro ⟨fhdr, content⟩ ha
      obtain ⟨hmem, hboard⟩ := (h.articles fhdr content).mp ha
      exact .inl ⟨by simpa [view, h.pc] using hmem, hboard⟩
    held := by simp [view, h.post, PostPc.made]
    held_ne := by simp [view, h.post, PostPc.made] }
  fits := by
    obtain ⟨fd, hfd⟩ := h.dirName
    simp [Fits, h.pc, hfd]
  queued _ := {
    names := h.names
    things := fun a ha => ((h.articles a.1 a.2).mp ha).1
    unread := by simp [view, h.pc]
    origin := fun q hq => .inr fun r hr => h.apart r hr q hq }
  fresh := h.fresh

theorem Inv.safe {s : BknBoard C P} (h : s.Inv) {ret : Int} (hdone : s.pc = .done ret) :
    s.Safe := by
  have hfits := h.fits
  have happart := h.ok.apart
  have hhome := h.ok.home
  simp only [Fits, hdone] at hfits
  simp only [view, hdone, List.append_nil, List.nil_append] at happart hhome
  refine ⟨hfits, fun a ha => ?_⟩
  obtain ⟨hmem, hthing⟩ | ⟨hmem, hthing⟩ := hhome a ha
  · exact .inl ⟨hmem, fun hback => happart a.1 hmem a.1 hback rfl, hthing⟩
  · exact .inr ⟨hmem, fun hdir => happart a.1 hdir a.1 hmem rfl, hthing⟩

/-! ## Steps of the run -/

/-- A step that leaves every record where it is. -/
theorem Inv.of_view {s s' : BknBoard C P} (h : s.Inv) (hview : s'.view = s.view)
    (hfits : s'.Fits) (hbefore : s'.BeforeRename → s.BeforeRename)
    (hfresh : ∀ fd, s'.dirName = some fd ∨ s'.tmpName = some fd → fd < s'.next) : s'.Inv where
  ok := hview ▸ h.ok
  fits := hfits
  queued hb := hview ▸ h.queued (hbefore hb)
  fresh := hfresh

theorem Inv.goto_pc {s : BknBoard C P} (h : s.Inv) (pc : BknPc)
    (hview : { s with pc }.view = s.view) (hfits : { s with pc }.Fits)
    (hbefore : { s with pc }.BeforeRename → s.BeforeRename) : { s with pc }.Inv :=
  h.of_view hview hfits hbefore h.fresh

variable {s : BknBoard C P}

theorem Inv.open_tmpfile (h : s.Inv) {fdr : Nat} (hpc : s.pc = .opened fdr) :
    { s with
      inode := update s.inode s.next []
      next := s.next + 1
      tmpName := some s.next
      pc := .created ⟨fdr, s.next, 0⟩ }.Inv := by
  have hdir : s.dirName = some fdr := by simpa [Fits, hpc] using h.fits
  have hne : fdr ≠ s.next := Nat.ne_of_lt (h.fresh fdr (.inl hdir))
  apply h.of_view
  · simp [view, dir, hpc, hdir, hne]
  · simp [Fits, hdir, hne.symm]
  · simp [BeforeRename, hpc]
  · rintro fd (hfd | hfd)
    · exact Nat.lt_succ_of_lt (h.fresh fd (.inl hfd))
    · obtain rfl := Option.some.inj hfd
      exact Nat.lt_succ_self _

theorem Inv.lock_tmpfile (h : s.Inv) {fd : BknFiles} (hpc : s.pc = .created fd)
    (lock : Nat → Option (BknHolder P)) : { s with lock, pc := .loop fd .read }.Inv := by
  obtain ⟨hdir, htmp, hne, hpos, hempty⟩ : s.dirName = some fd.fdr ∧ s.tmpName = some fd.fdw ∧
      fd.fdw ≠ fd.fdr ∧ fd.pos = 0 ∧ s.inode fd.fdw = [] := by
    simpa [Fits, hpc] using h.fits
  apply h.of_view
  · simp [view, dir, hpc, hdir, hpos, hempty]
  · simp [Fits, hdir, htmp, hne, hpos]
  · simp [BeforeRename, hpc]
  · exact h.fresh

/-- In the loop the records are read from `.DIR`. -/
theorem Inv.in_loop (h : s.Inv) {fd : BknFiles} {next : BknNext} (hpc : s.pc = .loop fd next) :
    s.dirName = some fd.fdr ∧ s.tmpName = some fd.fdw ∧ fd.fdw ≠ fd.fdr ∧
      fd.pos ≤ (s.inode fd.fdr).length ∧ s.dir = s.inode fd.fdr := by
  have hfits := h.fits
  simp only [Fits, hpc] at hfits
  exact ⟨hfits.1, hfits.2.1, hfits.2.2.1, hfits.2.2.2, by rw [dir, hfits.1, Option.elim_some]⟩

theorem Inv.read_record (h : s.Inv) {fd : BknFiles} (hpc : s.pc = .loop fd .read)
    {fhdr : FileHeader} (hread : (s.inode fd.fdr)[fd.pos]? = some fhdr) (t : Int) :
    { s with
      pc := .loop { fd with pos := fd.pos + 1 } (if isOld t fhdr then .stat fhdr else .write fhdr) }.Inv := by
  obtain ⟨hdir, htmp, hne, -, -⟩ := h.in_loop hpc
  obtain ⟨hlt, hget⟩ := List.getElem?_eq_some_iff.mp hread
  have hdrop : (s.inode fd.fdr).drop fd.pos = fhdr :: (s.inode fd.fdr).drop (fd.pos + 1) := by
    rw [List.drop_eq_getElem_cons hlt, hget]
  apply h.goto_pc (.loop _ _)
  · split <;> simp [view, dir, hpc, hdrop]
  · exact ⟨hdir, htmp, hne, hlt⟩
  · simp [BeforeRename, hpc]

theorem Inv.next_call (h : s.Inv) {fd : BknFiles} {next next' : BknNext}
    (hpc : s.pc = .loop fd next) (hview : { s with pc := .loop fd next' }.view = s.view) :
    { s with pc := .loop fd next' }.Inv := by
  obtain ⟨hdir, htmp, hne, hpos, -⟩ := h.in_loop hpc
  exact h.goto_pc _ hview ⟨hdir, htmp, hne, hpos⟩ (by simp [BeforeRename, hpc])

/-- A record whose file is not there is left out. -/
theorem Inv.leave_out (h : s.Inv) {fd : BknFiles} {fhdr : FileHeader}
    (hpc : s.pc = .loop fd (.stat fhdr)) (hnone : s.board (fh2fname fhdr) = none) :
    { s with pc := .loop fd .read }.Inv := by
  obtain ⟨hdir, htmp, hne, hpos, -⟩ := h.in_loop hpc
  have hpending : s.view.pending = fhdr :: (s.inode fd.fdr).drop fd.pos := by simp [view, hpc]
  have hview : { s with pc := .loop fd .read }.view =
      { s.view with pending := (s.inode fd.fdr).drop fd.pos } := by
    simp [view, dir, hpc]
  exact {
    ok := hview ▸ h.ok.leave hpending hnone
    fits := ⟨hdir, htmp, hne, hpos⟩
    queued := fun _ => by
      rw [hview]
      refine (h.queued (by simp [BeforeRename, hpc])).mono rfl rfl ?_ fun _ => .inl
      intro r hr
      rw [hpending]
      simp only [List.cons_append, List.mem_cons]
      exact .inr hr
    fresh := h.fresh }

/-- The moved article gets into the other index. -/
theorem Inv.append_record (h : s.Inv) {fd : BknFiles} {fhdr : FileHeader}
    (hpc : s.pc = .loop fd (.append fhdr)) :
    { s with backDir := s.backDir ++ [fhdr], pc := .loop fd .read }.Inv := by
  obtain ⟨hdir, htmp, hne, hpos, -⟩ := h.in_loop hpc
  have htransit : s.view.transit = [fhdr] := by simp [view, hpc]
  have hview : { s with backDir := s.backDir ++ [fhdr], pc := .loop fd .read }.view =
      { s.view with transit := [], moved := s.view.moved ++ [fhdr] } := by
    simp [view, dir, hpc]
  exact {
    ok := hview ▸ h.ok.arrive htransit
    fits := ⟨hdir, htmp, hne, hpos⟩
    queued := fun _ => by
      rw [hview]
      refine (h.queued (by simp [BeforeRename, hpc])).mono rfl rfl ?_ ?_
      · intro r hr
        rw [List.append_nil] at hr
        exact List.mem_append_left _ hr
      · intro r hr
        rw [htransit]
        exact List.mem_append.mp hr
    fresh := h.fresh }

/-- The record is kept. -/
theorem Inv.write_record (h : s.Inv) {fd : BknFiles} {fhdr : FileHeader}
    (hpc : s.pc = .loop fd (.write fhdr)) :
    { s with
      inode := update s.inode fd.fdw (s.inode fd.fdw ++ [fhdr])
      pc := .loop fd .read }.Inv := by
  obtain ⟨hdir, htmp, hne, hpos, -⟩ := h.in_loop hpc
  have hpending : s.view.pending = fhdr :: (s.inode fd.fdr).drop fd.pos := by simp [view, hpc]
  have hview : { s with
      inode := update s.inode fd.fdw (s.inode fd.fdw ++ [fhdr])
      pc := .loop fd .read }.view = { s.view with
        pending := (s.inode fd.fdr).drop fd.pos
        kept := s.view.kept ++ [fhdr] } := by
    simp [view, dir, hpc, hdir, hne.symm]
  exact {
    ok := hview ▸ h.ok.keep hpending
    fits := by simpa [Fits, hdir, htmp, hne, hne.symm] using hpos
    queued := fun _ => by
      rw [hview]
      refine (h.queued (by simp [BeforeRename, hpc])).mono rfl rfl ?_ fun _ => .inl
      intro r hr
      rw [hpending]
      simp only [List.cons_append, List.mem_cons]
      exact .inr hr
    fresh := h.fresh }

/-- The run ends before it has moved anything. -/
theorem Inv.give_up (h : s.Inv) {fd : BknFiles} {next : BknNext} (hpc : s.pc = .loop fd next)
    (htransit : s.view.transit = []) (hnone : s.NothingMoved) {tmpName : Option Nat}
    (htmpName : ∀ fd, tmpName = some fd → s.tmpName = some fd) (ret : Int) :
    ({ s with tmpName := tmpName }.quit fd ret).Inv := by
  obtain ⟨hdir, htmp, hne, hpos, -⟩ := h.in_loop hpc
  have hview : ({ s with tmpName := tmpName }.quit fd ret).view =
      { s.view with pending := s.view.queue, kept := [] } := by
    simpa [view, dir, quit, hpc] using htransit
  exact {
    ok := hview ▸ h.ok.giveUp (h.queued (by simp [BeforeRename, hpc])) htransit hnone
    fits := by simp [Fits, quit, hdir]
    queued := fun hb => by simp [BeforeRename, quit] at hb
    fresh := fun fd hfd => h.fresh fd (hfd.imp_right (htmpName fd)) }

/-- All records have been read, and `.DIR` goes. -/
theorem Inv.rename_dir (h : s.Inv) {fd : BknFiles} (hpc : s.pc = .loop fd .rename)
    (hall : fd.pos = (s.inode fd.fdr).length) :
    { s with dirName := none, pc := .renamed fd }.Inv := by
  obtain ⟨hdir, htmp, hne, hpos, -⟩ := h.in_loop hpc
  have hview : { s with dirName := none, pc := .renamed fd }.view = { s.view with queue := [] } := by
    simp [view, dir, hpc, hall]
  exact {
    ok := hview ▸ h.ok.close
    fits := ⟨htmp, by simp⟩
    queued := fun hb => by simp [BeforeRename] at hb
    fresh := fun d hd => h.fresh d (.inr (hd.resolve_left (by simp))) }

/-- `.tmpfile` gets the name `.DIR`. -/
theorem Inv.rename_tmpfile (h : s.Inv) {fd : BknFiles} (hpc : s.pc = .renamed fd)
    (hempty : s.dir = []) :
    { s with dirName := s.tmpName, tmpName := none, pc := .swapped fd }.Inv := by
  obtain ⟨htmp, -⟩ : s.tmpName = some fd.fdw ∧ s.dirName ≠ some fd.fdw := by
    simpa [Fits, hpc] using h.fits
  have hpending : s.view.pending = [] := by simp [view, hpc, hempty]
  have hview : { s with dirName := s.tmpName, tmpName := none, pc := .swapped fd }.view =
      { s.view with pending := s.view.kept, kept := [], queue := s.view.kept } := by
    simp [view, dir, hpc, htmp]
  exact {
    ok := hview ▸ h.ok.swap hpending
    fits := by simp [Fits, htmp]
    queued := fun hb => by simp [BeforeRename] at hb
    fresh := fun d hd => h.fresh d (.inr (hd.resolve_right (by simp))) }

theorem Inv.finish (h : s.Inv) {fd : BknFiles} (hpc : s.pc = .swapped fd) (ret : Int) :
    (s.quit fd ret).Inv := by
  have hfits := h.fits
  simp only [Fits, hpc] at hfits
  apply h.of_view
  · simp [view, dir, quit, hpc]
  · exact hfits
  · simp [BeforeRename, quit]
  · exact h.fresh

/-- The article goes to the back number. -/
theorem Inv.move_article (h : s.Inv) {fd : BknFiles} {fhdr : FileHeader}
    (hpc : s.pc = .loop fd (.move fhdr)) {content : C}
    (hcontent : s.board (fh2fname fhdr) = some content) {board : ArticleName → Option C}
    (hboard : ∀ name, name ≠ fh2fname fhdr → board name = s.board name) :
    { s with
      board := board
      back := update s.back (fh2fname fhdr) (some content)
      pc := .loop fd (.append fhdr) }.Inv := by
  obtain ⟨hdir, htmp, hne, hpos, -⟩ := h.in_loop hpc
  have hpending : s.view.pending = fhdr :: (s.inode fd.fdr).drop fd.pos := by simp [view, hpc]
  have htransit : s.view.transit = [] := by simp [view, hpc]
  have hview : { s with
      board := board
      back := update s.back (fh2fname fhdr) (some content)
      pc := .loop fd (.append fhdr) }.view = { s.view with
        pending := (s.inode fd.fdr).drop fd.pos
        transit := [fhdr]
        source := board
        target := update s.view.target (fh2fname fhdr) (some content) } := by
    simp [view, dir, hpc]
  exact {
    ok := hview ▸ h.ok.move hpending htransit hcontent hboard
    fits := ⟨hdir, htmp, hne, hpos⟩
    queued := fun _ => by
      rw [hview]
      refine (h.queued (by simp [BeforeRename, hpc])).mono rfl rfl ?_ fun _ => .inl
      intro r hr
      rw [hpending, htransit]
      simp only [List.mem_append, List.mem_cons, List.not_mem_nil, or_false] at hr ⊢
      exact hr.symm
    fresh := h.fresh }

theorem Inv.loopStep {s' : BknBoard C P} {t : Int} {ok : Bool} (h : s.Inv)
    (hok : s.StepOk (.run ok)) {fd : BknFiles} {next : BknNext} (hpc : s.pc = .loop fd next)
    (hstep : s.runStep t ok = some s') : s'.Inv := by
  obtain ⟨hdir, -, -, -, hrecords⟩ := h.in_loop hpc
  cases next with
  | read =>
      simp only [BknBoard.runStep, hpc] at hstep
      have hend : { s with pc := .loop fd .rename }.Inv :=
        h.next_call hpc (by simp [view, dir, hpc])
      split at hstep
      · next fhdr hread =>
        cases ok
        · obtain rfl := Option.some.inj hstep
          exact hend
        · obtain rfl := Option.some.inj hstep
          exact h.read_record hpc hread t
      · obtain rfl := Option.some.inj hstep
        exact hend
  | stat fhdr =>
      simp only [StepOk, hpc] at hok
      simp only [BknBoard.runStep, hpc] at hstep
      split_ifs at hstep with hfile <;> obtain rfl := Option.some.inj hstep
      · exact h.next_call hpc (by simp [view, dir, hpc])
      · apply h.leave_out hpc
        obtain hok | hnone := hok
        · simpa [hok] using hfile
        · exact hnone
  | move fhdr => simp [BknBoard.runStep, hpc] at hstep
  | append fhdr =>
      simp only [StepOk, hpc] at hok
      simp only [BknBoard.runStep, hpc, hok, if_true, Option.some.injEq] at hstep
      exact hstep ▸ h.append_record hpc
  | write fhdr =>
      simp only [StepOk, hpc] at hok
      simp only [BknBoard.runStep, hpc] at hstep
      split_ifs at hstep with hwritten <;> obtain rfl := Option.some.inj hstep
      · exact h.write_record hpc
      · exact h.give_up hpc (by simp [view, hpc]) (hok.resolve_left hwritten) (by simp) (-4)
  | rename =>
      simp only [StepOk, hpc] at hok
      simp only [BknBoard.runStep, hpc, hdir] at hstep
      split_ifs at hstep hok with hrenamed hdone hdone <;> obtain rfl := Option.some.inj hstep
      · exact h.rename_dir hpc hok
      · simp_all
      · simp_all
      · exact h.give_up hpc (by simp [view, hpc]) hok (fun _ => id) (-6)

theorem Inv.runStep {s' : BknBoard C P} {t : Int} {ok : Bool} (h : s.Inv)
    (hok : s.StepOk (.run ok)) (hstep : s.runStep t ok = some s') : s'.Inv := by
  have hfits := h.fits
  cases hpc : s.pc with
  | start =>
      simp only [Fits, hpc] at hfits
      simp only [BknBoard.runStep, hpc] at hstep
      obtain rfl := Option.some.inj hstep
      cases ok
      · exact h.goto_pc (.done (-1)) (by simp [view, dir, hpc]) hfits (by simp [BeforeRename])
      · exact h.goto_pc .ready (by simp [view, dir, hpc]) hfits (by simp [BeforeRename, hpc])
  | ready =>
      simp only [Fits, hpc] at hfits
      simp only [BknBoard.runStep, hpc] at hstep
      split at hstep <;> obtain rfl := Option.some.inj hstep
      · next fdr hdir =>
        cases ok
        · exact h.goto_pc (.done (-2)) (by simp [view, dir, hpc]) hfits (by simp [BeforeRename])
        · exact h.goto_pc (.opened fdr) (by simp [view, dir, hpc]) hdir (by simp [BeforeRename, hpc])
      · exact h.goto_pc (.done (-2)) (by simp [view, dir, hpc]) hfits (by simp [BeforeRename])
  | opened fdr =>
      simp only [Fits, hpc] at hfits
      simp only [BknBoard.runStep, hpc] at hstep
      split_ifs at hstep <;> obtain rfl := Option.some.inj hstep
      · exact h.open_tmpfile hpc
      · exact h.goto_pc (.done (-3)) (by simp [view, dir, hpc]) (by simp [Fits, hfits])
          (by simp [BeforeRename])
  | created fd =>
      simp only [BknBoard.runStep, hpc] at hstep
      split_ifs at hstep
      obtain rfl := Option.some.inj hstep
      exact h.lock_tmpfile hpc _
  | loop fd next => exact h.loopStep hok hpc hstep
  | renamed fd =>
      simp only [Fits, hpc] at hfits
      simp only [StepOk, hpc] at hok
      simp only [BknBoard.runStep, hpc, hok.1, hfits.1, Option.isSome_some, and_self, if_true] at hstep
      obtain rfl := Option.some.inj hstep
      rw [← hfits.1]
      exact h.rename_tmpfile hpc hok.2
  | swapped fd =>
      simp only [BknBoard.runStep, hpc] at hstep
      obtain rfl := Option.some.inj hstep
      exact h.finish hpc 0
  | done ret => simp [BknBoard.runStep, hpc] at hstep

theorem Inv.moveStep {s' : BknBoard C P} {how : BknMove C} (h : s.Inv) (hok : s.StepOk (.move how))
    (hstep : s.moveStep how = some s') : s'.Inv := by
  unfold BknBoard.moveStep at hstep
  split at hstep
  · next fd fhdr hpc =>
    cases how with
    | failed =>
        obtain rfl := Option.some.inj hstep
        exact h.next_call hpc (by simp [view, dir, hpc])
    | renamed =>
        simp only at hstep
        split_ifs at hstep with hfile
        obtain rfl := Option.some.inj hstep
        obtain ⟨content, hcontent⟩ := Option.isSome_iff_exists.mp hfile
        rw [hcontent]
        exact h.move_article hpc hcontent fun name hne => update_of_ne hne _ _
    | copied content unlinked =>
        simp only [StepOk, hpc] at hok
        simp only [hok, Option.isSome_some, if_true] at hstep
        obtain rfl := Option.some.inj hstep
        apply h.move_article hpc hok
        intro name hne
        split
        · exact update_of_ne hne _ _
        · rfl
  · contradiction

/-! ## Steps of the posts -/

section posts

variable [DecidableEq P]

theorem view_goto (s : BknBoard C P) (p : P) (pc : PostPc C) :
    (s.goto p pc).view = { s.view with held := update s.view.held p pc.made } := by
  have hheld : (fun q => (update s.post p pc q).made) =
      update (fun q => (s.post q).made) p pc.made := by
    funext q
    by_cases hq : q = p
    · subst hq
      simp
    · simp [hq]
  simp only [view, BknBoard.goto, dir, hheld]

/-- A post that neither makes an article nor lets go of one. -/
theorem view_goto_same {s : BknBoard C P} {p : P} {pc : PostPc C} (h : (s.post p).made = pc.made) :
    (s.goto p pc).view = s.view := by
  have hheld : update s.view.held p pc.made = s.view.held := by
    rw [update_eq_self_iff]
    exact h.symm
  rw [view_goto, hheld]

/-- A step of a post leaves the run where it is. -/
theorem Inv.goto_post (h : s.Inv) {p : P} {pc : PostPc C} (hmade : (s.post p).made = pc.made)
    (lock : Nat → Option (BknHolder P)) : ({ s with lock }.goto p pc).Inv :=
  h.of_view (view_goto_same (s := { s with lock }) hmade) h.fits id h.fresh

/-- A post makes `.DIR` only where there is none, which is between the two renames. -/
theorem Inv.create_dir (h : s.Inv) {p : P} (hdir : s.dirName = none) (pc : PostPc C)
    (hmade : (s.post p).made = pc.made) :
    ({ s with
      inode := update s.inode s.next []
      next := s.next + 1
      dirName := some s.next }.goto p pc).Inv := by
  obtain ⟨fd, hpc⟩ : ∃ fd, s.pc = .renamed fd := by
    have hfits := h.fits
    unfold Fits at hfits
    split at hfits <;> simp_all
  have hfits := h.fits
  simp only [Fits, hpc] at hfits
  have hlt : fd.fdw < s.next := h.fresh fd.fdw (.inr hfits.1)
  have hne : fd.fdw ≠ s.next := Nat.ne_of_lt hlt
  apply h.of_view
  · rw [view_goto_same (by simpa [goto] using hmade)]
    simp [view, dir, hpc, hdir, hne]
  · simpa [Fits, goto, hpc, hfits.1] using hne.symm
  · simp [BeforeRename, goto, hpc]
  · rintro d (hd | hd)
    · obtain rfl := Option.some.inj hd
      exact Nat.lt_succ_self _
    · exact Nat.lt_succ_of_lt (h.fresh d (.inr hd))

theorem Inv.postOpen {s' : BknBoard C P} {p : P} {ok : Bool} (h : s.Inv)
    (hstep : s.postOpen p ok = some s') : s'.Inv := by
  unfold BknBoard.postOpen at hstep
  split at hstep
  · next hidle =>
    split_ifs at hstep
    · split at hstep <;> obtain rfl := Option.some.inj hstep
      · exact h.goto_post (by simp [hidle, PostPc.made]) _
      · next hdir => exact h.create_dir hdir _ (by simp [hidle, PostPc.made])
    · obtain rfl := Option.some.inj hstep
      exact h.goto_post (by simp [hidle, PostPc.made]) _
  · contradiction

theorem Inv.postLock {s' : BknBoard C P} {p : P} (h : s.Inv) (hstep : s.postLock p = some s') :
    s'.Inv := by
  unfold BknBoard.postLock at hstep
  split at hstep
  · next hopened =>
    split_ifs at hstep
    obtain rfl := Option.some.inj hstep
    exact h.goto_post (by simp [hopened, PostPc.made]) _
  · contradiction

theorem Inv.postUnlock {s' : BknBoard C P} {p : P} (h : s.Inv) (hstep : s.postUnlock p = some s') :
    s'.Inv := by
  unfold BknBoard.postUnlock at hstep
  split at hstep
  · next hleaving =>
    obtain rfl := Option.some.inj hstep
    exact h.goto_post (by simp [hleaving, PostPc.made]) _
  · contradiction

theorem Inv.postCreate {s' : BknBoard C P} {p : P} {record : FileHeader} {content : C} (h : s.Inv)
    (hok : s.StepOk (.postCreate p record content)) (hstep : s.postCreate p record content = some s') :
    s'.Inv := by
  unfold BknBoard.postCreate at hstep
  split at hstep
  · split_ifs at hstep with hfree
    obtain rfl := Option.some.inj hstep
    have hview : ∀ fd, ({ s with board := update s.board (fh2fname record) (some content) }.goto p
        (.created fd record content)).view = { s.view with
          source := update s.view.source (fh2fname record) (some content)
          held := update s.view.held p (some (record, content)) } :=
      fun fd => view_goto { s with board := update s.board (fh2fname record) (some content) } p
        (.created fd record content)
    exact {
      ok := hview _ ▸ h.ok.create (a := (record, content)) hfree.2 hok
      fits := h.fits
      queued := fun hb => hview _ ▸ (h.queued hb).mono rfl rfl (fun r => id) fun r => .inl
      fresh := h.fresh }
  · contradiction

/-- A post lets go of its article, with its file or not. -/
theorem Inv.forget_article (h : s.Inv) {p : P} {fd : Nat} {record : FileHeader} {content : C}
    (hpost : s.post p = .created fd record content) {board : ArticleName → Option C}
    (hboard : ∀ name, name ≠ fh2fname record → board name = s.board name) :
    ({ s with board }.goto p (.leaving fd)).Inv := by
  have hheld : s.view.held p = some (record, content) := by simp [view, hpost, PostPc.made]
  have hview : ({ s with board }.goto p (.leaving fd)).view =
      { s.view with source := board, held := update s.view.held p none } :=
    view_goto { s with board } p (.leaving fd)
  exact {
    ok := hview ▸ h.ok.forget hheld hboard
    fits := h.fits
    queued := fun hb => hview ▸ (h.queued hb).mono rfl rfl (fun r => id) fun r => .inl
    fresh := h.fresh }

theorem Inv.postGiveUp {s' : BknBoard C P} {p : P} (h : s.Inv) (hstep : s.postGiveUp p = some s') :
    s'.Inv := by
  unfold BknBoard.postGiveUp at hstep
  split at hstep
  · next hlocked =>
    obtain rfl := Option.some.inj hstep
    exact h.goto_post (by simp [hlocked, PostPc.made]) _
  · next hcreated =>
    obtain rfl := Option.some.inj hstep
    exact h.forget_article hcreated fun name hne => update_of_ne hne _ _
  · contradiction

/-- What is added to `.DIR` is not read yet, and is not in `.tmpfile`. -/
theorem Inv.view_added (h : s.Inv) {p : P} {fd : Nat} {record : FileHeader} {content : C}
    (hdir : s.dirName = some fd) :
    ({ s with
      inode := update s.inode fd (s.inode fd ++ [record])
      articles := s.articles ++ [(record, content)] }.goto p (.leaving fd)).view = { s.view with
        pending := s.view.pending ++ [record]
        queue := s.view.queue ++ [record]
        things := s.view.things ++ [(record, content)]
        held := update s.view.held p none } := by
  rw [view_goto]
  have hfits := h.fits
  cases hpc : s.pc with
  | loop d next =>
      simp only [Fits, hpc, hdir, Option.some.injEq] at hfits
      obtain ⟨rfl, -, hne, hpos⟩ := hfits
      cases next <;> simp [view, dir, hpc, hdir, hne, List.drop_append_of_le_length hpos, PostPc.made]
  | renamed d =>
      simp only [Fits, hpc, hdir, ne_eq, Option.some.injEq] at hfits
      simp [view, dir, hpc, hdir, Ne.symm hfits.2, PostPc.made]
  | _ => simp [view, dir, hpc, hdir, PostPc.made]

theorem Inv.add_record (h : s.Inv) {p : P} {fd : Nat} {record : FileHeader} {content : C}
    (hpost : s.post p = .created fd record content) (hdir : s.dirName = some fd) :
    ({ s with
      inode := update s.inode fd (s.inode fd ++ [record])
      articles := s.articles ++ [(record, content)] }.goto p (.leaving fd)).Inv := by
  have hheld : s.view.held p = some (record, content) := by simp [view, hpost, PostPc.made]
  have hfits := h.fits
  exact {
    ok := h.view_added hdir ▸ h.ok.add hheld
    fits := by
      cases hpc : s.pc with
      | created d =>
          simp only [Fits, hpc, hdir, Option.some.injEq] at hfits
          obtain ⟨rfl, htmp, hne, hpos, hempty⟩ := hfits
          simp [Fits, BknBoard.goto, hdir, htmp, hne, hpos, hempty]
      | loop d next =>
          simp only [Fits, hpc, hdir, Option.some.injEq] at hfits
          obtain ⟨rfl, htmp, hne, hpos⟩ := hfits
          simpa [Fits, BknBoard.goto, hpc, hdir, htmp, hne] using Nat.le_succ_of_le hpos
      | _ => simpa [Fits, BknBoard.goto, hpc] using hfits
    queued := fun hb => h.view_added hdir ▸ (h.queued hb).add h.ok hheld
    fresh := h.fresh }

theorem Inv.postWrite {s' : BknBoard C P} {p : P} {ok : Bool} (h : s.Inv)
    (hok : s.StepOk (.postWrite p ok)) (hstep : s.postWrite p ok = some s') : s'.Inv := by
  unfold BknBoard.postWrite at hstep
  split at hstep
  · next hcreated =>
    simp only [StepOk, hcreated] at hok
    split_ifs at hstep with hwritten <;> obtain rfl := Option.some.inj hstep
    · exact h.add_record hcreated (hok.resolve_left (by simp [hwritten]))
    · exact h.forget_article hcreated fun name _ => rfl
  · contradiction

/-- A step after which nothing is lost. -/
theorem Inv.step {s' : BknBoard C P} {t : Int} {e : BknEvent C P} (h : s.Inv) (hok : s.StepOk e)
    (hstep : s.step t e = some s') : s'.Inv := by
  cases e with
  | run ok => exact h.runStep hok hstep
  | move how => exact h.moveStep hok hstep
  | postOpen p ok => exact h.postOpen hstep
  | postLock p => exact h.postLock hstep
  | postCreate p record content => exact h.postCreate hok hstep
  | postGiveUp p => exact h.postGiveUp hstep
  | postWrite p ok => exact h.postWrite hok hstep
  | postUnlock p => exact h.postUnlock hstep

instance [DecidableEq C] (s : BknBoard C P) (e : BknEvent C P) : Decidable (s.StepOk e) := by
  cases e with
  | run ok =>
      simp only [StepOk, NothingMoved]
      split <;> exact inferInstance
  | move how =>
      cases how <;> simp only [StepOk]
      case copied => split <;> exact inferInstance
      all_goals exact inferInstance
  | postCreate p record content =>
      simp only [StepOk]
      exact inferInstance
  | postWrite p ok =>
      simp only [StepOk]
      split <;> exact inferInstance
  | _ =>
      simp only [StepOk]
      exact inferInstance

/-- A run that ends has lost no article, when nothing is lost by a step. -/
theorem backnumber_run [DecidableEq C] {t : Int} {s₀ s : BknBoard C P} {es : List (BknEvent C P)}
    (hstart : s₀.Start) (hrun : Run (when StepOk (step t)) s₀ es s) {ret : Int}
    (hdone : s.pc = .done ret) : s.Safe := by
  have hinv : s.Inv :=
    hrun.invariant_when Inv hstart.inv fun s e s' h hok hstep => h.step hok hstep
  exact hinv.safe hdone

/-- The first article is moved, a third one is posted, and two are kept. -/
theorem backnumber_run_onePost :
    ∃ s : BknBoard Nat Unit,
      Run (when StepOk (step 5)) (atRest [recordAt 3, recordAt 7] [recordAt 1] 0)
        [.run true, .run true, .run true, .run true, .run true, .run true, .move .renamed,
          .run true, .postOpen () true, .postLock (), .postCreate () (recordAt 9) 1,
          .postWrite () true, .run true, .postUnlock (), .run true, .run true, .run true,
          .run true, .run true, .run true, .run true] s ∧
      s.pc = .done 0 ∧ s.dir = [recordAt 7, recordAt 9] ∧ s.backDir = [recordAt 1, recordAt 3] ∧
      s.Safe := by
  have hexec : (exec (when StepOk (step 5))
      (atRest [recordAt 3, recordAt 7] [recordAt 1] 0 : BknBoard Nat Unit)
      [.run true, .run true, .run true, .run true, .run true, .run true, .move .renamed,
        .run true, .postOpen () true, .postLock (), .postCreate () (recordAt 9) 1,
        .postWrite () true, .run true, .postUnlock (), .run true, .run true, .run true,
        .run true, .run true, .run true, .run true]).any (fun s => decide (s.pc = .done 0 ∧
          s.dir = [recordAt 7, recordAt 9] ∧ s.backDir = [recordAt 1, recordAt 3])) = true := by
    decide +kernel
  obtain ⟨s, hs, hend⟩ := (Option.any_eq_true _ _).mp hexec
  obtain ⟨hdone, hdir, hback⟩ := of_decide_eq_true hend
  exact ⟨s, Run.of_exec hs, hdone, hdir, hback,
    backnumber_run (atRest_start (by decide) (by decide)) (Run.of_exec hs) hdone⟩

/-- A post has opened `.DIR`, and writes to it when it is `.deleted`. -/
theorem backnumber_losesPost :
    ∃ s : BknBoard Nat Unit, (atRest [recordAt 7] [recordAt 1] 0 : BknBoard Nat Unit).Start ∧
      Run (step 5) (atRest [recordAt 7] [recordAt 1] 0)
        [.run true, .run true, .run true, .run true, .run true, .run true, .postOpen () true,
          .postLock (), .run true, .run true, .postCreate () (recordAt 9) 1, .postWrite () true,
          .postUnlock (), .run true, .run true] s ∧
      s.pc = .done 0 ∧ (∀ p, s.post p = .done) ∧ (recordAt 9, 1) ∈ s.articles ∧
      s.board (fh2fname (recordAt 9)) = some 1 ∧ ¬ s.Safe := by
  have hexec : (exec (step 5) (atRest [recordAt 7] [recordAt 1] 0 : BknBoard Nat Unit)
      [.run true, .run true, .run true, .run true, .run true, .run true, .postOpen () true,
        .postLock (), .run true, .run true, .postCreate () (recordAt 9) 1, .postWrite () true,
        .postUnlock (), .run true, .run true]).any (fun s => decide (s.pc = .done 0 ∧
          s.post () = .done ∧ (recordAt 9, 1) ∈ s.articles ∧
          s.board (fh2fname (recordAt 9)) = some 1 ∧
          recordAt 9 ∉ s.dir ∧ recordAt 9 ∉ s.backDir)) = true := by
    decide +kernel
  obtain ⟨s, hs, hend⟩ := (Option.any_eq_true _ _).mp hexec
  obtain ⟨hdone, hpost, hmem, hfile, hdir, hback⟩ := of_decide_eq_true hend
  refine ⟨s, atRest_start (by decide) (by decide), Run.of_exec hs, hdone, fun _ => hpost, hmem,
    hfile, fun hsafe => ?_⟩
  obtain hin | hin := hsafe.2 _ hmem
  · exact hdir hin.1
  · exact hback hin.1

end posts

end BknBoard

end Ytht
