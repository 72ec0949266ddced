import Mathlib.Algebra.Ring.Int.Defs
import Mathlib.Algebra.BigOperators.Group.List.Basic
import Ytht.Article.Delete
import Ytht.Ythtlib.Stdio

/-!
# Pop3.Session

A POP3 session of `bbspop3d` after the login: the words of a command line, the
commands, and what QUIT does to the `.DIR` file of the mailbox.

The messages are the records that `Login_init` read into `fcache`; DELE sets
`FH_DIGEST` in that copy only.  The two commands of the time before the login
answer here as they do then.
-/

namespace Ytht

def fhMarked : Nat := 0x4
def fhDigest : Nat := 0x8
def fhIsdigest : Nat := 0x800

/-! ## Words -/

/-- `Isspace`. -/
def Isspace (ch : UInt8) : Bool := ch == 32 || ch == 9 || ch == 10 || ch == 13

/-- `nextword`: the word, and what `*str` points to afterwards. -/
def nextword (str : List UInt8) : List UInt8 × List UInt8 :=
  let p := str.dropWhile Isspace
  (p.takeWhile fun ch => !Isspace ch, (p.dropWhile fun ch => !Isspace ch).drop 1)

def tolower (ch : UInt8) : UInt8 := if 65 ≤ ch ∧ ch ≤ 90 then ch + 32 else ch

/-- `nextwordlower`. -/
def nextwordlower (str : List UInt8) : List UInt8 × List UInt8 :=
  ((nextword str).1.map tolower, (nextword str).2)

/-- A C string as text, one character a byte. -/
def text (s : List UInt8) : String := String.ofList (s.map fun ch => Char.ofNat ch.toNat)

/-! ## The session -/

/-- What the session keeps: the records read at login, their sizes as mails, and
the number of DELEs. -/
structure Session where
  fcache : List FileHeader
  postlen : List Int
  markdel : Nat

/-- What the files of the mails hold: the size that is announced, and the lines
that RETR and TOP send after the first one. -/
structure Contents where
  octets : FileHeader → Int
  retr : FileHeader → List String
  top : FileHeader → Int → List String

def Session.totalnum (s : Session) : Nat := s.fcache.length
def Session.totalbyte (s : Session) : Int := s.postlen.sum

/-- `Login_init`, for the records of `.DIR`. -/
def loginInit (c : Contents) (dir : List FileHeader) : Session := ⟨dir, dir.map c.octets, 0⟩

/-- A command's result, the lines it sends, and the session afterwards. -/
structure Answer where
  ret : Int
  outs : List String
  session : Session

namespace Session

variable (s : Session)

def reject (line : String) : Answer := ⟨-1, [line], s⟩

/-- `fcache[i].accessed & FH_DIGEST` -/
def isDeleted (i : Int) : Bool := (recAt s.fcache i).accessed &&& fhDigest != 0

/-- The test of a message number that LIST, UIDL, RETR, TOP and DELE make. -/
def checkNum (num : Int) (been : String) : Option String :=
  if num ≤ 0 ∨ s.totalnum < num then some s!"-ERR Message {num} does not exist."
  else if s.isDeleted (num - 1) then some s!"-ERR Message {num} has {been} deleted."
  else none

/-- A command that needs a message number: the missing word, the number that is
refused, or `body` for the number and what follows its word. -/
def withNum (name been : String) (msg : List UInt8) (body : Int → List UInt8 → Answer) : Answer :=
  match nextword msg with
  | ([], _) => s.reject s!"-ERR Too few arguments for the {name} command."
  | (cmd, msg) =>
      match s.checkNum (atoi cmd) been with
      | some err => s.reject err
      | none => body (atoi cmd) msg

/-- `postlen[i]` -/
def postlenAt (i : Int) : Int := s.postlen.getD i.toNat 0

/-- `fh2fname`. -/
def fh2fname (fh : FileHeader) : String :=
  if fh.accessed &&& fhIsdigest != 0 then s!"G.{fh.filetime}.A" else s!"M.{fh.filetime}.A"

/-- The lines LIST and UIDL send for the messages that are not deleted. -/
def listing (line : Int → String) : List String :=
  ((List.range s.totalnum).filter fun i => !s.isDeleted i).map fun i => line i

/-- `Retr`. -/
def retr (c : Contents) (msg : List UInt8) : Answer :=
  s.withNum "retr" "been" msg fun num _ =>
    ⟨0, s!"+OK {s.postlenAt (num - 1)} octets" :: c.retr (recAt s.fcache (num - 1)), s⟩

/-- `Stat`. -/
def stat : Answer := ⟨0, [s!"+OK {s.totalnum} {s.totalbyte}"], s⟩

/-- `x & ~FH_DIGEST` -/
def clearDigest (x : Nat) : Nat := x ^^^ (x &&& fhDigest)

/-- `Rset`. -/
def rset : Answer :=
  ⟨0, [s!"+OK Maildrop has {s.totalnum} messages ({s.totalbyte} octets)"],
    { s with
      fcache := s.fcache.map fun fh => { fh with accessed := clearDigest fh.accessed }
      markdel := 0 }⟩

/-- What LIST and UIDL share: all messages, or the one that is named. -/
def listOrOne (msg : List UInt8) (first : String) (line : Int → String) : Answer :=
  match nextword msg with
  | ([], _) => ⟨0, first :: s.listing line ++ ["."], s⟩
  | (cmd, _) =>
      match s.checkNum (atoi cmd) "been" with
      | some err => s.reject err
      | none => ⟨0, [s!"+OK {line (atoi cmd - 1)}"], s⟩

/-- `List`. -/
def list (msg : List UInt8) : Answer :=
  s.listOrOne msg s!"+OK {s.totalnum} messages ({s.totalbyte} octets)"
    fun i => s!"{i + 1} {s.postlenAt i}"

/-- `Uidl`. -/
def uidl (msg : List UInt8) : Answer :=
  s.listOrOne msg "+OK" fun i => s!"{i + 1} {fh2fname (recAt s.fcache i)}"

/-- `Top`. -/
def top (c : Contents) (msg : List UInt8) : Answer :=
  s.withNum "top" "been" msg fun num msg =>
    match nextword msg with
    | ([], _) => s.reject "-ERR Too few arguments for the top command."
    | (cmd, _) =>
        if atoi cmd < 0 then s.reject s!"-ERR Line {atoi cmd} does not exist."
        else ⟨0, s!"+OK {s.postlenAt (num - 1)} octets" ::
          c.top (recAt s.fcache (num - 1)) (atoi cmd), s⟩

/-- `Last`. -/
def last : Answer := ⟨0, [s!"+OK {s.totalnum} is the last message seen."], s⟩

/-- `Noop`. -/
def noop : Answer := ⟨0, ["+OK"], s⟩

/-- `Dele`; the number in its answer is the index. -/
def dele (msg : List UInt8) : Answer :=
  s.withNum "dele" "already been" msg fun num _ =>
    let fh := recAt s.fcache (num - 1)
    let fh := { fh with accessed := fh.accessed ||| fhDigest }
    ⟨0, [s!"+OK Message {num - 1} has been deleted.{String.ofList (Nat.toDigits 16 fh.accessed)}"],
      { s with fcache := s.fcache.set (num - 1).toNat fh, markdel := s.markdel + 1 }⟩

/-- `User` and `Pass` after the login. -/
def unknown (name : String) : Answer := s.reject s!"-ERR Unknown command: \"{name}\"."

end Session

/-! ## Command lines -/

inductive Command
  | retr | dele | user | pass | stat | list | uidl | quit | rset | last | noop | top
  deriving DecidableEq

/-- `cmdlists`. -/
def cmdlists : List (String × Command) :=
  [("retr", .retr), ("dele", .dele), ("user", .user), ("pass", .pass), ("stat", .stat),
    ("list", .list), ("uidl", .uidl), ("quit", .quit), ("rset", .rset), ("last", .last),
    ("noop", .noop), ("top", .top)]

/-- What the loop of `main` makes of a line that `fgets` read: the last
character goes, and a carriage return before it. -/
def chomp (inbuf : List UInt8) : List UInt8 :=
  if inbuf.dropLast.getLast? = some 13 then inbuf.dropLast.dropLast else inbuf.dropLast

/-- The command of a line and its arguments; `none` for a blank line. -/
def parseLine (inbuf : List UInt8) : Option (Option Command × List UInt8) :=
  match nextwordlower (chomp inbuf) with
  | ([], _) => none
  | (cmd, msg) => some (cmdlists.lookup (text cmd), msg)

/-- `(*cmdlists[i].fptr) ()`; QUIT, which does not return, is `step`'s. -/
def Session.run (s : Session) (c : Contents) (cmd : Command) (msg : List UInt8) : Answer :=
  match cmd with
  | .retr => s.retr c msg
  | .dele => s.dele msg
  | .user => s.unknown "user"
  | .pass => s.unknown "pass"
  | .stat => s.stat
  | .list => s.list msg
  | .uidl => s.uidl msg
  | .quit => ⟨0, [], s⟩
  | .rset => s.rset
  | .last => s.last
  | .noop => s.noop
  | .top => s.top c msg

/-! ## The mailbox and the session -/

/-- Where the process is: it reads commands, is at index `i` of `do_delete`, has
signed off, has ended without a QUIT, or was killed by a fault. -/
inductive Phase
  | serving
  | deleting (i : Nat)
  | signedOff
  | aborted
  | killed
  deriving DecidableEq

/-- The process and `.DIR`; `account` is what `update_mailsize_down` keeps of the
user. -/
structure Pop3 (σ : Type) where
  phase : Phase
  session : Session
  dir : List FileHeader
  account : σ

/-- What can happen: a line is read, mail arrives, the connection or the process
ends without a QUIT, `do_delete` goes on. -/
inductive Pop3Event
  | line (inbuf : List UInt8)
  | mail (fh : FileHeader)
  | abort
  | delete

/-- `!x` -/
def cNot (x : Nat) : Nat := if x = 0 then 1 else 0

/-- The zero records behind a file of `n` records in the last page of its
mapping. -/
def pageSlack (n : Nat) : Nat := (32 - n % 32) % 32

/-- `update_mailsize_down`, with `getuser`'s result and what it books. -/
def updateMailsizeDown {σ : Type} (uid : Int) (book : FileHeader → σ → σ) (fh : FileHeader)
    (account : σ) : Int × σ :=
  if uid ≤ 0 then (-1, account) else (0, book fh account)

section Step

variable {σ : Type} (c : Contents) (uid : Int) (book : FileHeader → σ → σ)

/-- One round of the loop of `do_delete`. -/
def doDelete (p : Pop3 σ) (i : Nat) : Pop3 σ :=
  let fh := recAt p.session.fcache i
  if cNot fh.accessed &&& fhDigest ≠ 0 ∨ fh.accessed &&& fhMarked ≠ 0 then
    { p with phase := .deleting (i + 1) }
  else
    match deleteDirCallback ⟨true, p.dir, pageSlack p.dir.length, false⟩ (i + 1) fh.filetime
        (some (updateMailsizeDown uid book)) p.account with
    | none => { p with phase := .killed }
    | some (_, dir, account) => { p with phase := .deleting (i + 1), dir, account }

/-- `Quit`, up to `do_delete`. -/
def quit (p : Pop3 σ) : Pop3 σ :=
  if p.session.markdel ≠ 0 then { p with phase := .deleting 0 } else { p with phase := .signedOff }

/-- The process and the mailbox, one event.  New mail is appended, and is newer
than what is there. -/
def pop3Step (p : Pop3 σ) : Pop3Event → Option (Pop3 σ)
  | .line inbuf =>
      if p.phase = .serving then
        match parseLine inbuf with
        | some (some .quit, _) => some (quit p)
        | some (some cmd, msg) => some { p with session := (p.session.run c cmd msg).session }
        | some (none, _) => some p
        | none => some p
      else none
  | .mail fh =>
      if p.dir.all fun old => old.filetime < fh.filetime then
        some { p with dir := p.dir ++ [fh] }
      else none
  | .abort => if p.phase = .serving then some { p with phase := .aborted } else none
  | .delete =>
      match p.phase with
      | .deleting i =>
          if i < p.session.totalnum then some (doDelete uid book p i)
          else some { p with phase := .signedOff }
      | _ => none

/-- The process after the login. -/
def loggedIn (dir : List FileHeader) (account : σ) : Pop3 σ :=
  ⟨.serving, loginInit c dir, dir, account⟩

end Step

end Ytht
