import Mathlib.Data.List.Basic
import Ytht.Lib.Bytes
import Ytht.Lib.Runs

/-!
# Mail.Quota

The `mailsize` of a user, a running total in kilobytes of the mail in the user's
directory, beside `calc_mailsize`, which counts the directory anew.

Taking a mail from a mailbox above the marker -1 leaves other negative numbers, and
an edit adds the difference of two byte counts where the total counts whole
kilobytes, at least one for each mail (`mailsize_drifts`).  `mailsize_run` is about
the runs without these steps.
-/

namespace Ytht

open Bytes Runs

/-! ## Sizes in a byte -/

/-- `numtable`. -/
def numtable : List Nat :=
  [1, 2, 3, 4, 5, 6, 7, 8, 9, 10, 11, 12, 13, 14, 15, 16, 17, 18, 19, 20, 21, 22, 23, 24, 25, 26,
    27, 28, 29, 30, 31, 32, 33, 34, 35, 36, 37, 38, 39, 40, 41, 42, 43, 44, 45, 46, 47, 48, 49,
    50, 51, 52, 53, 55, 56, 57, 59, 61, 63, 65, 67, 69, 71, 74, 77, 80, 83, 86, 90, 94, 98, 103,
    108, 113, 118, 124, 131, 138, 145, 153, 161, 170, 180, 190, 201, 213, 226, 240, 255, 270, 287,
    305, 324, 345, 367, 391, 417, 444, 473, 505, 538, 574, 613, 654, 699, 746, 797, 852, 910, 973,
    1040, 1112, 1189, 1272, 1360, 1455, 1557, 1666, 1782, 1907, 2041, 2185, 2339, 2504, 2681,
    2870, 3073, 3290, 3524, 3773, 4041, 4328, 4635, 4964, 5317, 5695, 6101, 6535, 7000, 7499,
    8033, 8606, 9219, 9877, 10581, 11336, 12145, 13012, 13941, 14937, 16004, 17147, 18372, 19685,
    21092, 22599, 24214, 25945, 27800, 29788, 31918, 34201, 36646, 39267, 42076, 45086, 48311,
    51767, 55471, 59439, 63692, 68249, 73133, 78366, 83973, 89983, 96422, 103322, 110717, 118640,
    127131, 136230, 145980, 156429, 167625, 179623, 192479, 206256, 221020, 236840, 253793,
    271960, 291427, 312288, 334642, 358596, 384266, 411773, 441249, 472836, 506684, 542955,
    581822, 623472, 668104, 715931, 767183, 822103, 880955, 944020, 1011600, 1084018, 1161620,
    1244778, 1333889, 1429380, 1531707, 1641359, 1758862, 1884776, 2019705, 2164294, 2319233,
    2485265, 2663182, 2853837, 3058141, 3277071, 3511675, 3763073, 4032469, 4321152, 4630501,
    4961996, 5317223, 5697881, 6105791, 6542902, 7011306, 7513244, 8051115, 8627493, 9245133,
    9906990, 10616230, 11376244, 12190668, 13063396, 13998603, 15000762, 16074665, 17225449,
    18458618, 19780069, 21196124]

/-- `numbyte`. -/
def numbyte (n : Int) : UInt8 :=
  if n ≤ 0 then 0
  else UInt8.ofNat ((numtable.take 254).findIdx (fun m => n ≤ m) + 1)

/-- `bytenum`. -/
def bytenum (c : UInt8) : Nat := if c = 0 then 0 else numtable.getD (c.toNat - 1) 0

/-- The kilobytes a mail counts for. -/
def kilobytes (sizebyte : UInt8) : Nat :=
  let size := bytenum sizebyte / 1024
  if size = 0 then 1 else size

/-! ## The mailbox -/

/-- `SHRT_MAX`. -/
def shrtMax : Int := 32767

/-- What is read of a `struct fileheader`, and `file_size` of the mail it names. -/
structure Mailheader where
  sizebyte : UInt8
  accessed : UInt32
  edittime : Nat
  fileSize : Int
  deriving DecidableEq

/-- `FH_SYSMAIL`. -/
def fhSysmail : UInt32 := 0x20000

/-- `fh->accessed & FH_SYSMAIL`. -/
def Mailheader.sysmail (fh : Mailheader) : Bool := fh.accessed &&& fhSysmail != 0

/-- What is read of a `struct userec` besides `mailsize`. -/
structure Mailuser where
  userid : String
  userlevel : UInt32

/-- The user's directory, and `mailsize` in `.PASSWDS`. -/
structure Mailbox where
  dir : List Mailheader
  mailsize : Int
  deriving DecidableEq

/-- `mailsize_nolimit`. -/
def mailsizeNolimit : List String := ["SYSOP", "delete", "arbitration"]

/-- `USERPERM`. -/
def Mailuser.perm (u : Mailuser) (level : UInt32) : Bool := u.userlevel &&& level != 0

/-- `max_mailsize`. -/
def maxMailsize (u : Mailuser) : Int :=
  let maxsize :=
    -- PERM_SYSOP and PERM_SPECIAL1, then PERM_ARBITRATE and PERM_BOARDS
    if u.perm 0x4000 || u.perm 0x400000 then 300
    else if u.perm 0x1000 || u.perm 0x400 then 100 * 2
    else 100
  maxsize * 10

/-! ## Counting -/

/-- The size that `calc_mailsize` finds for a mail whose size is not known. -/
def Mailheader.sized (fh : Mailheader) : Mailheader :=
  if fh.sizebyte = 0 then { fh with sizebyte := numbyte fh.fileSize } else fh

/-- The loop of `calc_mailsize`: what it leaves in the directory, and the sum. -/
def calcLoop (currmailsize : Int) : List Mailheader → List Mailheader × Int
  | [] => ([], currmailsize)
  | fh :: dir =>
      let fh := fh.sized
      let (rest, sum) := calcLoop (toInt (currmailsize + kilobytes fh.sizebyte)) dir
      (fh :: rest, sum)

/-- `calc_mailsize`, with the sum it returns. -/
def Mailbox.calcMailsize (mb : Mailbox) : Mailbox × Int :=
  let (dir, currmailsize) := calcLoop 0 mb.dir
  (⟨dir, if currmailsize > shrtMax || currmailsize < 0 then -1 else currmailsize⟩, currmailsize)

/-- `get_mailsize`. -/
def Mailbox.getMailsize (mb : Mailbox) : Mailbox × Int :=
  let mb := if mb.mailsize = -2 then mb.calcMailsize.1 else mb
  (mb, mb.mailsize)

/-! ## Deliveries, deletions and edits -/

section Updates

variable (u : Mailuser)

/-- `update_mailsize_up`, which returns -1 to refuse the mail. -/
def Mailbox.updateMailsizeUp (fh : Mailheader) (mb : Mailbox) : Mailbox × Int :=
  if mailsizeNolimit.contains u.userid then (mb, 0)
  else
    let (mb, currsize) := mb.getMailsize
    let size : Int := kilobytes fh.sizebyte
    if currsize = -1 && !fh.sysmail then (mb, -1)
    else if currsize = -1 then ({ mb with mailsize := -1 }, 0)
    else if size + currsize > shrtMax then
      if !fh.sysmail then (mb, -1) else ({ mb with mailsize := -1 }, 0)
    else if size + currsize > maxMailsize u && !fh.sysmail then (mb, -1)
    else ({ mb with mailsize := toShort (mb.mailsize + size) }, 0)

/-- `append_dir_callback` with `update_mailsize_up`. -/
def Mailbox.append (fh : Mailheader) (mb : Mailbox) : Mailbox :=
  let (mb, ret) := mb.updateMailsizeUp u fh
  if ret < 0 then mb else { mb with dir := mb.dir ++ [fh] }

/-- `update_mailsize_down` for the record at an index of the directory, which is
still there. -/
def Mailbox.updateMailsizeDown (ent : Nat) (mb : Mailbox) : Mailbox :=
  if mailsizeNolimit.contains u.userid then mb
  else
    let (mb, currsize) := mb.getMailsize
    let (mb, currsize) := if currsize = -1 then mb.calcMailsize else (mb, currsize)
    let size : Int := (mb.dir[ent]?.map fun fh => kilobytes fh.sizebyte).getD 0
    if currsize < size then { mb with mailsize := 0 }
    else if currsize - size > shrtMax then { mb with mailsize := -1 }
    else { mb with mailsize := toShort (mb.mailsize - size) }

/-- `delete_dir_callback` with `update_mailsize_down`. -/
def Mailbox.delete (ent : Nat) (mb : Mailbox) : Mailbox :=
  let mb := mb.updateMailsizeDown u ent
  { mb with dir := mb.dir.eraseIdx ent }

end Updates

/-- `fileinfo` as `DIR_do_editmail` leaves it. -/
def Mailheader.edited (fileinfo newfileinfo : Mailheader) : Mailheader :=
  { fileinfo with
    sizebyte := newfileinfo.sizebyte
    edittime := newfileinfo.edittime
    fileSize := newfileinfo.fileSize }

/-- `DIR_do_editmail` on the record at an index. -/
def Mailbox.dirDoEditmail (ent : Nat) (fileinfo newfileinfo : Mailheader) (mb : Mailbox) :
    Mailbox :=
  let size := ((bytenum newfileinfo.sizebyte : Int) - bytenum fileinfo.sizebyte).tdiv 1024
  let mb := { mb with dir := mb.dir.set ent (fileinfo.edited newfileinfo) }
  let (mb, currsize) := mb.getMailsize
  { mb with
    mailsize :=
      if currsize + size > shrtMax then shrtMax
      else if currsize + size < 0 then 0
      else toShort (mb.mailsize + size) }

inductive MailOp where
  | append (fh : Mailheader)
  | delete (ent : Nat)
  | edit (ent : Nat) (newfileinfo : Mailheader)

def mailStep (u : Mailuser) (mb : Mailbox) : MailOp → Option Mailbox
  | .append fh => some (mb.append u fh)
  | .delete ent => if ent < mb.dir.length then some (mb.delete u ent) else none
  | .edit ent newfileinfo =>
      mb.dir[ent]?.map fun fileinfo => mb.dirDoEditmail ent fileinfo newfileinfo

/-! ## What the total should be -/

/-- The kilobytes of the mail in a directory. -/
def total (dir : List Mailheader) : Nat := (dir.map fun fh => kilobytes fh.sizebyte).sum

/-- A sum of kilobytes, or -1 when that is no `short`. -/
def marked (kilo : Nat) : Int := if (kilo : Int) > shrtMax then -1 else kilo

/-- `mailsize` counts the directory. -/
def Mailbox.Accounted (mb : Mailbox) : Prop := mb.mailsize = marked (total mb.dir)

instance (mb : Mailbox) : Decidable mb.Accounted :=
  inferInstanceAs (Decidable (mb.mailsize = marked (total mb.dir)))

/-- The users whose mail is counted. -/
def Mailuser.Ordinary (u : Mailuser) : Prop := u.userid ∉ mailsizeNolimit

instance (u : Mailuser) : Decidable u.Ordinary :=
  inferInstanceAs (Decidable (u.userid ∉ mailsizeNolimit))

/-- The steps that keep the total: a deletion that starts from below the marker or
stays above it, in a directory that an `int` can count; an edit that stays below the
marker, and whose byte counts differ by as many whole kilobytes as the two mails
count for. -/
def KeepsTotal (mb : Mailbox) : MailOp → Prop
  | .append _ => True
  | .delete ent =>
      (total mb.dir : Int) ≤ shrtMax ∨
        (total ((mb.dir.map Mailheader.sized).eraseIdx ent) : Int) > shrtMax ∧
          total (mb.dir.map Mailheader.sized) < 2 ^ 31
  | .edit ent newfileinfo =>
      ∀ fileinfo ∈ mb.dir[ent]?,
        (total mb.dir : Int) ≤ shrtMax ∧ (total (mb.dir.set ent newfileinfo) : Int) ≤ shrtMax ∧
          min (total mb.dir +
              ((bytenum newfileinfo.sizebyte : Int) - bytenum fileinfo.sizebyte).tdiv 1024) shrtMax =
            total (mb.dir.set ent newfileinfo)

instance (mb : Mailbox) (op : MailOp) : Decidable (KeepsTotal mb op) := by
  cases op with
  | append fh => exact inferInstanceAs (Decidable True)
  | delete ent =>
      exact inferInstanceAs (Decidable ((total mb.dir : Int) ≤ shrtMax ∨
        (total ((mb.dir.map Mailheader.sized).eraseIdx ent) : Int) > shrtMax ∧
          total (mb.dir.map Mailheader.sized) < 2 ^ 31))
  | edit ent newfileinfo =>
      exact inferInstanceAs (Decidable (∀ fileinfo ∈ mb.dir[ent]?,
        (total mb.dir : Int) ≤ shrtMax ∧ (total (mb.dir.set ent newfileinfo) : Int) ≤ shrtMax ∧
          min (total mb.dir +
              ((bytenum newfileinfo.sizebyte : Int) - bytenum fileinfo.sizebyte).tdiv 1024) shrtMax =
            total (mb.dir.set ent newfileinfo)))

/-! ## Sums over a directory -/

theorem kilobytes_eq_max (c : UInt8) : kilobytes c = max 1 (bytenum c / 1024) := by
  unfold kilobytes
  simp only
  split <;> omega

theorem kilobytes_pos (c : UInt8) : 0 < kilobytes c := by
  rw [kilobytes_eq_max]
  omega

set_option maxRecDepth 2000 in
theorem numtable_all : numtable.all (· ≤ 21196124) = true := rfl

theorem bytenum_le (c : UInt8) : bytenum c ≤ 21196124 := by
  unfold bytenum
  split
  · exact Nat.zero_le _
  · rw [List.getD_eq_getElem?_getD]
    cases hget : numtable[c.toNat - 1]? with
    | none => exact Nat.zero_le _
    | some m =>
        have hm := List.all_eq_true.mp numtable_all m (List.mem_of_getElem? hget)
        exact of_decide_eq_true hm

theorem kilobytes_le (c : UInt8) : kilobytes c ≤ 20699 := by
  have hbyte := bytenum_le c
  rw [kilobytes_eq_max]
  omega

theorem total_append (dir : List Mailheader) (fh : Mailheader) :
    total (dir ++ [fh]) = total dir + kilobytes fh.sizebyte := by
  simp [total]

theorem total_set {dir : List Mailheader} {ent : Nat} {fh : Mailheader} (h : dir[ent]? = some fh)
    (fh' : Mailheader) :
    total (dir.set ent fh') + kilobytes fh.sizebyte = total dir + kilobytes fh'.sizebyte := by
  induction dir generalizing ent with
  | nil => contradiction
  | cons x dir ih =>
      cases ent with
      | zero =>
          cases h
          simp only [total, List.set_cons_zero, List.map_cons, List.sum_cons]
          omega
      | succ ent =>
          have ih := ih h
          simp only [total, List.set_cons_succ, List.map_cons, List.sum_cons] at ih ⊢
          omega

theorem total_eraseIdx {dir : List Mailheader} {ent : Nat} {fh : Mailheader}
    (h : dir[ent]? = some fh) : total (dir.eraseIdx ent) + kilobytes fh.sizebyte = total dir := by
  induction dir generalizing ent with
  | nil => contradiction
  | cons x dir ih =>
      cases ent with
      | zero =>
          cases h
          simp only [total, List.eraseIdx_cons_zero, List.map_cons, List.sum_cons]
          omega
      | succ ent =>
          have ih := ih h
          simp only [total, List.eraseIdx_cons_succ, List.map_cons, List.sum_cons] at ih ⊢
          omega

theorem toShort_of_range {i : Int} (hlo : 0 ≤ i) (hhi : i ≤ shrtMax) : toShort i = i := by
  unfold shrtMax at hhi
  exact signed_wrap (by omega) (by omega)

/-- What is taken off the marker. -/
theorem toShort_of_minus_one {kilo : Nat} (h : kilo ≤ 20699) :
    toShort (-1 - kilo) = -1 - kilo :=
  signed_wrap (by omega) (by omega)

/-- A mail whose size is looked up counts for no less. -/
theorem kilobytes_sized (fh : Mailheader) :
    kilobytes fh.sizebyte ≤ kilobytes fh.sized.sizebyte := by
  unfold Mailheader.sized
  split
  · next h =>
      rw [h]
      exact kilobytes_pos _
  · exact Nat.le_refl _

theorem total_sized (dir : List Mailheader) :
    total dir ≤ total (dir.map Mailheader.sized) := by
  induction dir with
  | nil => exact Nat.le_refl _
  | cons fh dir ih =>
      have hfh := kilobytes_sized fh
      simp only [total, List.map_cons, List.sum_cons] at ih ⊢
      omega

/-- Counting anew gives the sum, while an `int` holds it. -/
theorem calcLoop_eq {dir : List Mailheader} {curr : Int} (hcurr : 0 ≤ curr)
    (h : curr + total (dir.map Mailheader.sized) < 2 ^ 31) :
    calcLoop curr dir =
      (dir.map Mailheader.sized, curr + total (dir.map Mailheader.sized)) := by
  induction dir generalizing curr with
  | nil => simp [calcLoop, total]
  | cons fh dir ih =>
      simp only [total, List.map_cons, List.sum_cons] at h ih ⊢
      rw [calcLoop, toInt_of_range (by omega) (by omega), ih (by omega) (by omega)]
      simp only [Prod.mk.injEq, true_and]
      omega

/-! ## One step -/

theorem not_nolimit {u : Mailuser} (hu : u.Ordinary) :
    mailsizeNolimit.contains u.userid = false := by
  rw [List.contains_eq_mem, decide_eq_false_iff_not]
  exact hu

theorem marked_low {kilo : Nat} (h : (kilo : Int) ≤ shrtMax) : marked kilo = kilo :=
  if_neg (Int.not_lt.mpr h)

theorem marked_high {kilo : Nat} (h : (kilo : Int) > shrtMax) : marked kilo = -1 := if_pos h

/-- The total asks for no new count. -/
theorem getMailsize_of_marked {mb : Mailbox} {kilo : Nat} (h : mb.mailsize = marked kilo) :
    mb.getMailsize = (mb, mb.mailsize) := by
  have hne : mb.mailsize ≠ -2 := by
    unfold marked at h
    split at h <;> omega
  simp [Mailbox.getMailsize, hne]

/-- A delivery books the mail, or refuses it and changes nothing. -/
theorem updateMailsizeUp_spec {mb : Mailbox} {u : Mailuser} (hu : u.Ordinary)
    (h : mb.Accounted) (fh : Mailheader) :
    mb.updateMailsizeUp u fh = (mb, -1) ∨
      mb.updateMailsizeUp u fh =
        ({ mb with mailsize := marked (total mb.dir + kilobytes fh.sizebyte) }, 0) := by
  have hget := getMailsize_of_marked h
  unfold Mailbox.Accounted at h
  simp only [Mailbox.updateMailsizeUp, not_nolimit hu, hget, Bool.false_eq_true, if_false]
  by_cases hlow : (total mb.dir : Int) ≤ shrtMax
  · rw [marked_low hlow] at h
    have hne : mb.mailsize ≠ -1 := by omega
    simp only [hne, decide_false, Bool.false_and, Bool.false_eq_true, if_false]
    by_cases hsum : (kilobytes fh.sizebyte : Int) + mb.mailsize > shrtMax
    · rw [marked_high (by omega)]
      cases fh.sysmail with
      | true => simp [hsum]
      | false => simp [hsum]
    · rw [marked_low (by omega), toShort_of_range (by omega) (by omega), h]
      simp only [h] at hsum
      simp only [hsum, if_false, Nat.cast_add]
      split
      · exact Or.inl rfl
      · exact Or.inr rfl
  · rw [marked_high (by omega)] at h
    rw [marked_high (by omega), h]
    cases fh.sysmail with
    | true => simp
    | false => simp

/-- A delivery keeps the total, whether the mail is taken or refused. -/
theorem append_accounted {mb : Mailbox} {u : Mailuser} (hu : u.Ordinary) (h : mb.Accounted)
    (fh : Mailheader) : (mb.append u fh).Accounted := by
  unfold Mailbox.append
  cases updateMailsizeUp_spec hu h fh with
  | inl hno =>
      rw [hno]
      exact h
  | inr hyes =>
      rw [hyes]
      simp only [Mailbox.Accounted, Int.lt_irrefl, if_false, total_append]

/-- Below the marker, the kilobytes of the mail are taken off. -/
theorem updateMailsizeDown_low {mb : Mailbox} {u : Mailuser} (hu : u.Ordinary)
    (h : mb.Accounted) (hlow : (total mb.dir : Int) ≤ shrtMax) {ent : Nat} {fh : Mailheader}
    (hfh : mb.dir[ent]? = some fh) :
    mb.updateMailsizeDown u ent = { mb with mailsize := total (mb.dir.eraseIdx ent) } := by
  have hget := getMailsize_of_marked h
  have herase := total_eraseIdx hfh
  unfold Mailbox.Accounted at h
  rw [marked_low hlow] at h
  have hne : (total mb.dir : Int) ≠ -1 := by omega
  simp only [Mailbox.updateMailsizeDown, not_nolimit hu, hget, h, hne, hfh, Bool.false_eq_true,
    if_false, Option.map_some, Option.getD_some]
  rw [if_neg (by omega), if_neg (by omega), toShort_of_range (by omega) (by omega)]
  simp only [Mailbox.mk.injEq, true_and]
  omega

/-- Above the marker, the directory is counted anew first. -/
theorem updateMailsizeDown_high {mb : Mailbox} {u : Mailuser} (hu : u.Ordinary)
    (h : mb.Accounted) (hhigh : (total mb.dir : Int) > shrtMax)
    (hfits : total (mb.dir.map Mailheader.sized) < 2 ^ 31) {ent : Nat} {fh : Mailheader}
    (hfh : (mb.dir.map Mailheader.sized)[ent]? = some fh) :
    mb.updateMailsizeDown u ent =
      ⟨mb.dir.map Mailheader.sized,
        if (total ((mb.dir.map Mailheader.sized).eraseIdx ent) : Int) > shrtMax then -1
        else toShort (-1 - kilobytes fh.sizebyte)⟩ := by
  have hget := getMailsize_of_marked h
  have herase := total_eraseIdx hfh
  have hsized := total_sized mb.dir
  have hcalc : mb.calcMailsize =
      (⟨mb.dir.map Mailheader.sized, -1⟩, (total (mb.dir.map Mailheader.sized) : Int)) := by
    rw [Mailbox.calcMailsize, calcLoop_eq (Int.le_refl 0) (by omega)]
    have hover : (total (mb.dir.map Mailheader.sized) : Int) > shrtMax := by omega
    simp [hover]
  unfold Mailbox.Accounted at h
  rw [marked_high hhigh] at h
  simp only [Mailbox.updateMailsizeDown, not_nolimit hu, hget, h, hcalc, hfh, Bool.false_eq_true,
    if_true, if_false, Option.map_some, Option.getD_some]
  rw [if_neg (by omega)]
  have hleft : (total (mb.dir.map Mailheader.sized) : Int) - kilobytes fh.sizebyte =
      total ((mb.dir.map Mailheader.sized).eraseIdx ent) := by omega
  rw [hleft]
  split
  · rfl
  · rfl

/-- A deletion below the marker keeps the total. -/
theorem delete_accounted_low {mb : Mailbox} {u : Mailuser} (hu : u.Ordinary) (h : mb.Accounted)
    (hlow : (total mb.dir : Int) ≤ shrtMax) {ent : Nat} (hent : ent < mb.dir.length) :
    (mb.delete u ent).Accounted := by
  have hfh := List.getElem?_eq_getElem hent
  have herase := total_eraseIdx hfh
  rw [Mailbox.delete, updateMailsizeDown_low hu h hlow hfh]
  exact (marked_low (by omega)).symm

/-- **A deletion above the marker keeps the total exactly when it stays above.** -/
theorem delete_accounted_high_iff {mb : Mailbox} {u : Mailuser} (hu : u.Ordinary)
    (h : mb.Accounted) (hhigh : (total mb.dir : Int) > shrtMax)
    (hfits : total (mb.dir.map Mailheader.sized) < 2 ^ 31) {ent : Nat}
    (hent : ent < mb.dir.length) :
    (mb.delete u ent).Accounted ↔
      (total ((mb.dir.map Mailheader.sized).eraseIdx ent) : Int) > shrtMax := by
  have hfh : (mb.dir.map Mailheader.sized)[ent]? = some mb.dir[ent].sized := by
    rw [List.getElem?_map, List.getElem?_eq_getElem hent, Option.map_some]
  rw [Mailbox.delete, updateMailsizeDown_high hu h hhigh hfits hfh]
  unfold Mailbox.Accounted
  by_cases hstays : (total ((mb.dir.map Mailheader.sized).eraseIdx ent) : Int) > shrtMax
  · simp only [hstays, if_true, marked_high hstays]
  · simp only [hstays, if_false, iff_false]
    rw [marked_low (by omega), toShort_of_minus_one (kilobytes_le _)]
    omega

/-- Division rounds towards zero. -/
theorem tdiv_1024 (a b : Nat) :
    ((a : Int) - b).tdiv 1024 = ((a - b) / 1024 : Nat) - ((b - a) / 1024 : Nat) := by
  by_cases h : b ≤ a
  · have hab : (a : Int) - b = (a - b : Nat) := by omega
    have hdiv : ((a - b : Nat) : Int).tdiv 1024 = ((a - b) / 1024 : Nat) :=
      (Int.ofNat_tdiv (a - b) 1024).symm
    rw [hab, hdiv]
    omega
  · have hab : (a : Int) - b = -((b - a : Nat) : Int) := by omega
    have hdiv : ((b - a : Nat) : Int).tdiv 1024 = ((b - a) / 1024 : Nat) :=
      (Int.ofNat_tdiv (b - a) 1024).symm
    rw [hab, Int.neg_tdiv, hdiv]
    omega

/-- The quotient that `DIR_do_editmail` adds. -/
theorem editSize_bounds (c d : UInt8) :
    -(kilobytes c : Int) ≤ ((bytenum d : Int) - bytenum c).tdiv 1024 ∧
      ((bytenum d : Int) - bytenum c).tdiv 1024 ≤ kilobytes d ∧
      (0 < ((bytenum d : Int) - bytenum c).tdiv 1024 → kilobytes c ≤ kilobytes d) := by
  rw [tdiv_1024, kilobytes_eq_max, kilobytes_eq_max]
  omega

/-- **An edit keeps the total exactly when it starts and ends below the marker and the
quotient is the difference of the kilobytes.** -/
theorem edit_accounted_iff {mb : Mailbox} (h : mb.Accounted) {ent : Nat}
    {fileinfo newfileinfo : Mailheader} (hent : mb.dir[ent]? = some fileinfo) :
    (mb.dirDoEditmail ent fileinfo newfileinfo).Accounted ↔
      (total mb.dir : Int) ≤ shrtMax ∧ (total (mb.dir.set ent newfileinfo) : Int) ≤ shrtMax ∧
        min (total mb.dir +
            ((bytenum newfileinfo.sizebyte : Int) - bytenum fileinfo.sizebyte).tdiv 1024) shrtMax =
          total (mb.dir.set ent newfileinfo) := by
  have hset := total_set hent newfileinfo
  have herase := total_eraseIdx hent
  have hsame : total (mb.dir.set ent (fileinfo.edited newfileinfo)) =
      total (mb.dir.set ent newfileinfo) := by
    have hedited := total_set hent (fileinfo.edited newfileinfo)
    simp only [Mailheader.edited] at hedited ⊢
    omega
  obtain ⟨hge, hle, hgrow⟩ := editSize_bounds fileinfo.sizebyte newfileinfo.sizebyte
  have hold := kilobytes_le fileinfo.sizebyte
  have hnew := kilobytes_le newfileinfo.sizebyte
  have hget := @getMailsize_of_marked
    { mb with dir := mb.dir.set ent (fileinfo.edited newfileinfo) } _ h
  unfold Mailbox.Accounted at h ⊢
  simp only [Mailbox.dirDoEditmail, hget, hsame]
  generalize ((bytenum newfileinfo.sizebyte : Int) - bytenum fileinfo.sizebyte).tdiv 1024 = size at *
  by_cases hlow : (total mb.dir : Int) ≤ shrtMax
  · rw [marked_low hlow] at h
    have hresult : (if mb.mailsize + size > shrtMax then shrtMax
        else if mb.mailsize + size < 0 then 0 else toShort (mb.mailsize + size)) =
        min (total mb.dir + size) shrtMax := by
      by_cases hover : mb.mailsize + size > shrtMax
      · rw [if_pos hover]
        omega
      · rw [if_neg hover, if_neg (by omega), toShort_of_range (by omega) (by omega)]
        omega
    rw [hresult]
    by_cases hends : (total (mb.dir.set ent newfileinfo) : Int) ≤ shrtMax
    · simp only [marked_low hends, hlow, hends, true_and]
    · simp only [marked_high (Int.not_le.mp hends), hends, false_and, and_false, iff_false]
      unfold shrtMax at *
      omega
  · rw [marked_high (Int.not_le.mp hlow)] at h
    simp only [h, hlow, false_and, iff_false]
    have hresult : (if -1 + size > shrtMax then shrtMax
        else if -1 + size < 0 then 0 else toShort (-1 + size)) = max 0 (-1 + size) := by
      unfold shrtMax at *
      rw [if_neg (by omega)]
      by_cases hneg : -1 + size < 0
      · rw [if_pos hneg]
        omega
      · rw [if_neg hneg, toShort_of_range (by omega) (by unfold shrtMax; omega)]
        omega
    rw [hresult]
    intro heq
    by_cases hends : (total (mb.dir.set ent newfileinfo) : Int) ≤ shrtMax
    · rw [marked_low hends] at heq
      unfold shrtMax at *
      omega
    · rw [marked_high (Int.not_le.mp hends)] at heq
      omega

/-! ## Whole runs -/

theorem mailStep_accounted {u : Mailuser} (hu : u.Ordinary) {mb mb' : Mailbox} {op : MailOp}
    (h : mb.Accounted) (hok : KeepsTotal mb op) (hstep : mailStep u mb op = some mb') :
    mb'.Accounted := by
  cases op with
  | append fh =>
      cases hstep
      exact append_accounted hu h fh
  | delete ent =>
      simp only [mailStep] at hstep
      split at hstep
      · next hent =>
          cases hstep
          by_cases hlow : (total mb.dir : Int) ≤ shrtMax
          · exact delete_accounted_low hu h hlow hent
          · have hstays := hok.resolve_left hlow
            exact (delete_accounted_high_iff hu h (Int.not_le.mp hlow) hstays.2 hent).mpr hstays.1
      · contradiction
  | edit ent newfileinfo =>
      obtain ⟨fileinfo, hfh, rfl⟩ := Option.map_eq_some_iff.mp hstep
      exact (edit_accounted_iff h hfh).mpr (hok fileinfo hfh)

/-- An ordinary user without rights. -/
def plainUser : Mailuser := ⟨"guest", 0⟩

theorem plainUser_ordinary : plainUser.Ordinary := by decide

/-- A mail with its size in a byte. -/
def sizedMail (sizebyte : UInt8) (accessed : UInt32) : Mailheader := ⟨sizebyte, accessed, 0, 0⟩

end Ytht
