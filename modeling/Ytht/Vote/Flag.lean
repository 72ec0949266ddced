import Mathlib.Data.Fintype.Basic
import Mathlib.Data.Set.Card
import Ytht.Lib.Bytes
import Ytht.Lib.Keyed
import Ytht.Lib.Locks
import Ytht.Lib.Runs

/-!
# Vote.Flag

The flag file of one vote between processes: ballots handed in by the web page
(`bbsvote_main`) and at the terminal (`user_vote`), one system call at a time.
The file is a list of ballots, or absent.

Both ways look the voter up first and write later.  The page takes the lock only
to find the end of the file: the ballot stays in the buffer of the stream, and is
written by `fclose` after the unlock.  So two voters may write to the same place
(`fclose_overwrites`); `flag_run` is about the runs in which every write still
finds its place.
-/

namespace Ytht

open Bytes Keyed Locks Runs

/-! ## Ballots and submissions -/

/-- `struct ballot`, without the comments. -/
structure Ballot where
  uid : List UInt8
  voted : BitVec 32
  deriving DecidableEq

/-- `strcpy(uservote.uid, userid)` into a field that is zero or holds this id already; an
id of 12 characters leaves no NUL in it. -/
def uidField (userid : CStr 12) : List UInt8 := (userid.bytes ++ List.replicate 12 0).take 12

/-- `cmpvuid`, and the `memcmp` of the page: up to the NUL of the id, 12 bytes at most. -/
def cmpvuid (userid : CStr 12) (uv : Ballot) : Bool :=
  uv.uid.take (min (userid.bytes.length + 1) 12) =
    (userid.bytes ++ [0]).take (min (userid.bytes.length + 1) 12)

/-- What one process submits. -/
structure Submission where
  /-- by the page, not at the terminal -/
  web : Bool
  /-- the vote has the type `VOTE_ASKING` -/
  asking : Bool
  userid : CStr 12
  voted : BitVec 32
  deriving DecidableEq

def Submission.ballot (sub : Submission) : Ballot := ⟨uidField sub.userid, sub.voted⟩

/-- What a process has done, up to its last system call. -/
inductive VotePhase where
  | start
  /-- The page knows the number of ballots from `stat`. -/
  | counted (num : Nat)
  /-- Some ballots have been read; the page reads no more than `num`. -/
  | reading (num : Option Nat) (i : Nat)
  /-- The voter's ballot is at `pos`, counted from 1; 0 if there is none. -/
  | looked (pos : Nat)
  /-- `fopen(flagname, "r+")` has failed. -/
  | absent (pos : Nat)
  | opened (pos : Nat)
  | locked (pos : Nat)
  /-- The place is found and the ballot is in the buffer; then the file is unlocked. -/
  | ready (offset : Nat)
  | unlocked (offset : Nat)
  /-- The ballot is written, and the file still locked. -/
  | written
  | done
  /-- The page leaves the old ballot as it is. -/
  | quit
  deriving DecidableEq

/-- The lock that a process holds. -/
def VotePhase.lock : VotePhase → Option Mode
  | .locked _ | .ready _ | .written => some .exclusive
  | _ => none

/-- The ballot has been written. -/
def VotePhase.stored : VotePhase → Bool
  | .written | .done => true
  | _ => false

/-- The flag file and the processes. -/
structure FlagFile (n : Nat) where
  file : Option (List Ballot)
  phase : Fin n → VotePhase

namespace FlagFile

variable {n : Nat}

/-- The ballots in the file, none if it is absent. -/
def records (s : FlagFile n) : List Ballot := s.file.getD []

def goto (s : FlagFile n) (p : Fin n) (ph : VotePhase) : FlagFile n :=
  { s with phase := Function.update s.phase p ph }

def setFile (s : FlagFile n) (file : List Ballot) : FlagFile n := { s with file := some file }

@[simp] theorem phase_goto (s : FlagFile n) (p : Fin n) (ph : VotePhase) :
    (s.goto p ph).phase = Function.update s.phase p ph := rfl

@[simp] theorem records_goto (s : FlagFile n) (p : Fin n) (ph : VotePhase) :
    (s.goto p ph).records = s.records := rfl

@[simp] theorem phase_setFile (s : FlagFile n) (file : List Ballot) :
    (s.setFile file).phase = s.phase := rfl

@[simp] theorem records_setFile (s : FlagFile n) (file : List Ballot) :
    (s.setFile file).records = file := rfl

end FlagFile

/-! ## The system calls -/

/-- A ballot of zeros, where a write has skipped a part of the file. -/
def noBallot : Ballot := ⟨List.replicate 12 0, 0⟩

/-- The end of the look-up.  The page does not store the number that is there already. -/
def lookedUp (sub : Submission) (pos : Nat) (old : BitVec 32) : VotePhase :=
  if sub.web = true ∧ sub.asking = false ∧ sub.voted = old then .quit else .looked pos

/-- A `read` of up to `k` ballots behind the first `i`, and the comparisons with them. -/
def lookUp (sub : Submission) (file : List Ballot) (num : Option Nat) (i k : Nat) : VotePhase :=
  let chunk := (file.drop i).take (num.elim k fun num => min k (num - i))
  match chunk.findIdx? (cmpvuid sub.userid) with
  | some d => lookedUp sub (i + d + 1) ((chunk[d]?).elim 0 Ballot.voted)
  | none => if chunk = [] then lookedUp sub 0 0 else .reading num (i + chunk.length)

/-- The next system call of a process in `bbsvote_main`. -/
def bbsvoteStep {n : Nat} (sub : Submission) (s : FlagFile n) (p : Fin n) (k : Nat) :
    Option (FlagFile n) :=
  match s.phase p with
  | .start => some (s.goto p (.counted s.records.length))
  | .counted num =>
      match s.file with
      | none => some (s.goto p (lookedUp sub 0 0))
      | some _ => some (s.goto p (.reading (some num) 0))
  | .reading num i => if 0 < k then some (s.goto p (lookUp sub s.records num i k)) else none
  | .looked pos =>
      match s.file with
      | none => some (s.goto p (.absent pos))
      | some _ => some (s.goto p (.opened pos))
  -- `fopen(flagname, "w+")` empties the file if it is there by now
  | .absent pos => some ((s.goto p (.opened pos)).setFile [])
  | .opened pos =>
      if Free (fun q => (s.phase q).lock) p .exclusive then some (s.goto p (.locked pos)) else none
  | .locked pos => some (s.goto p (.ready (if 0 < pos then pos - 1 else s.records.length)))
  | .ready offset => some (s.goto p (.unlocked offset))
  -- `fclose`
  | .unlocked offset =>
      some ((s.goto p .done).setFile (writeAt noBallot s.records offset sub.ballot))
  | .written | .done | .quit => none

/-- The next system call of a process in `user_vote`, from its second `search_record` on.
The `fcntl` lock of `substitute_record` is not one that `flock` knows. -/
def userVoteStep {n : Nat} (sub : Submission) (s : FlagFile n) (p : Fin n) (k : Nat) :
    Option (FlagFile n) :=
  match s.phase p with
  | .start =>
      match s.file with
      | none => some (s.goto p (.looked 0))
      | some _ => some (s.goto p (.reading none 0))
  | .reading num i => if 0 < k then some (s.goto p (lookUp sub s.records num i k)) else none
  -- both `substitute_record` and `append_record` create the file
  | .looked pos => some ((s.goto p (.opened pos)).setFile s.records)
  | .opened pos =>
      if 0 < pos then
        some ((s.goto p .done).setFile (writeAt noBallot s.records (pos - 1) sub.ballot))
      else if Free (fun q => (s.phase q).lock) p .exclusive then some (s.goto p (.locked pos))
      else none
  | .locked _ =>
      some ((s.goto p .written).setFile
        (writeAt noBallot s.records s.records.length sub.ballot))
  | .written => some (s.goto p .done)
  | .counted _ | .absent _ | .ready _ | .unlocked _ | .done | .quit => none

/-- A system call of a process; a `read` gets up to `k` ballots. -/
def flagStep {n : Nat} (sub : Fin n → Submission) (s : FlagFile n) (e : Fin n × Nat) :
    Option (FlagFile n) :=
  if (sub e.1).web then bbsvoteStep (sub e.1) s e.1 e.2 else userVoteStep (sub e.1) s e.1 e.2

/-- Nobody has voted. -/
def emptyFlag (n : Nat) : FlagFile n := ⟨none, fun _ => .start⟩

/-! ## One ballot for each voter -/

section runs

variable {n : Nat} {sub : Fin n → Submission} {s s' : FlagFile n} {p : Fin n} {k : Nat}

/-- **One ballot per voter**: no user has two in the file, each who has submitted has
one, and it is one that this user submitted. -/
structure OneBallot (sub : Fin n → Submission) (s : FlagFile n) : Prop where
  nodup : (s.records.map Ballot.uid).Nodup
  voters : ∀ p, (s.phase p).stored = true → uidField (sub p).userid ∈ s.records.map Ballot.uid
  made : ∀ b ∈ s.records, ∃ p, (s.phase p).stored = true ∧ b = (sub p).ballot

/-- The write that is next finds its place: the file is still empty when it is created,
and a ballot goes over the voter's own, or to the end when the voter has none. -/
def FlagFile.Safe (sub : Fin n → Submission) (s : FlagFile n) (e : Fin n × Nat) : Prop :=
  match s.phase e.1, (sub e.1).web with
  | .absent _, true => s.records = []
  | .unlocked offset, true => Fits Ballot.uid s.records offset (sub e.1).ballot
  | .opened pos, false => 0 < pos → Fits Ballot.uid s.records (pos - 1) (sub e.1).ballot
  | .locked _, false => Fits Ballot.uid s.records s.records.length (sub e.1).ballot
  | _, _ => True

instance (sub : Fin n → Submission) (s : FlagFile n) (e : Fin n × Nat) :
    Decidable (s.Safe sub e) := by
  unfold FlagFile.Safe
  split <;> infer_instance

/-- What a process knows of the file. -/
def VotePhase.Knows (sub : Submission) (file : List Ballot) : VotePhase → Prop
  | .looked pos | .absent pos | .opened pos | .locked pos =>
      0 < pos → ∃ b, file[pos - 1]? = some b ∧ b.uid = uidField sub.userid
  | .ready offset | .unlocked offset => offset ≤ file.length
  | _ => True

/-- One ballot per voter, and what the processes know is right. -/
structure FlagFile.Inv (sub : Fin n → Submission) (s : FlagFile n) : Prop where
  oneBallot : OneBallot sub s
  knows : ∀ p, (s.phase p).Knows (sub p) s.records

/-- What is known stays right when the ballots keep their places. -/
theorem VotePhase.Knows.mono {sub : Submission} {file file' : List Ballot} {ph : VotePhase}
    (h : ph.Knows sub file) (hlen : file.length ≤ file'.length)
    (hplace : ∀ (j : Nat) (b : Ballot), file[j]? = some b →
      ∃ b', file'[j]? = some b' ∧ b'.uid = b.uid) : ph.Knows sub file' := by
  have hpos {pos : Nat} (h : 0 < pos → ∃ b, file[pos - 1]? = some b ∧ b.uid = uidField sub.userid)
      (h0 : 0 < pos) : ∃ b, file'[pos - 1]? = some b ∧ b.uid = uidField sub.userid := by
    obtain ⟨b, hb, huid⟩ := h h0
    obtain ⟨b', hb', huid'⟩ := hplace _ b hb
    exact ⟨b', hb', huid'.trans huid⟩
  cases ph with
  | looked pos => exact hpos h
  | absent pos => exact hpos h
  | opened pos => exact hpos h
  | locked pos => exact hpos h
  | ready offset => exact Nat.le_trans h hlen
  | unlocked offset => exact Nat.le_trans h hlen
  | _ => trivial

/-- An id is found only in its own field. -/
theorem uidField_of_cmpvuid {u v : CStr 12} {voted : BitVec 32}
    (h : cmpvuid u ⟨uidField v, voted⟩ = true) : uidField v = uidField u := by
  unfold cmpvuid at h
  rw [decide_eq_true_eq] at h
  have hu := u.le
  by_cases hlen : u.bytes.length < 12
  · -- the NUL behind `u` is the one behind `v`
    have hwhole : (u.bytes ++ [0]).take (u.bytes.length + 1) = u.bytes ++ [0] :=
      List.take_of_length_le (by simp)
    rw [uidField, Nat.min_eq_left (by omega), List.take_take, Nat.min_eq_left (by omega),
      hwhole] at h
    have hsplit := List.take_append_drop (u.bytes.length + 1) (v.bytes ++ List.replicate 12 0)
    rw [h, List.append_assoc, List.singleton_append, List.replicate_succ] at hsplit
    have hread := congrArg readStr hsplit
    rw [readStr_append u.nz, readStr_append v.nz, Option.some.injEq, Prod.mk.injEq] at hread
    rw [uidField, uidField, hread.1]
  · have hfull (rest : List UInt8) : (u.bytes ++ rest).take 12 = u.bytes.take 12 :=
      List.take_append_of_le_length (by omega)
    rw [Nat.min_eq_right (by omega), hfull, uidField, List.take_take, Nat.min_self] at h
    rw [uidField, h, uidField, hfull]

theorem lookedUp_knows {sub : Submission} {file : List Ballot} {pos : Nat} (old : BitVec 32)
    (h : 0 < pos → ∃ b, file[pos - 1]? = some b ∧ b.uid = uidField sub.userid) :
    (lookedUp sub pos old).Knows sub file ∧ (lookedUp sub pos old).stored = false := by
  unfold lookedUp
  split
  · exact ⟨trivial, rfl⟩
  · exact ⟨h, rfl⟩

/-- What a read finds is the voter's ballot. -/
theorem lookUp_knows (h : OneBallot sub s) (p : Fin n) (num : Option Nat) (i k : Nat) :
    (lookUp (sub p) s.records num i k).Knows (sub p) s.records ∧
      (lookUp (sub p) s.records num i k).stored = false := by
  unfold lookUp
  generalize (num.elim k fun num => min k (num - i)) = m
  dsimp only
  split
  · next d hd =>
    obtain ⟨hlt, hcmp, -⟩ := List.findIdx?_eq_some_iff_getElem.mp hd
    refine lookedUp_knows _ fun _ => ⟨((s.records.drop i).take m)[d], ?_, ?_⟩
    · rw [List.length_take, List.length_drop] at hlt
      rw [List.getElem_take, List.getElem_drop, show i + d + 1 - 1 = i + d by omega]
      exact List.getElem?_eq_getElem _
    · have hmem : ((s.records.drop i).take m)[d] ∈ s.records :=
        List.mem_of_mem_drop (List.mem_of_mem_take (List.getElem_mem hlt))
      obtain ⟨q, -, hq⟩ := h.made _ hmem
      rw [hq] at hcmp ⊢
      exact uidField_of_cmpvuid hcmp
  · split
    · exact lookedUp_knows _ (by simp)
    · exact ⟨trivial, rfl⟩

/-- What a system call does to the file: nothing, and the process knows more; or it
creates the file; or it writes a ballot. -/
inductive Effect (sub : Fin n → Submission) (s s' : FlagFile n) (p : Fin n) (k : Nat)
    (ph : VotePhase) : Prop
  | quiet (hfile : s'.records = s.records) (hstored : ph.stored = (s.phase p).stored)
      (hknows : ph.Knows (sub p) s.records) (hsafe : s.Safe sub (p, k))
  | create (hfile : s'.records = []) (hstored : ph.stored = (s.phase p).stored)
      (hknows : s.records = [] → ph.Knows (sub p) [])
      (hsafe : s.Safe sub (p, k) ↔ s.records = [])
  | write (i : Nat) (hi : i ≤ s.records.length)
      (hfile : s'.records = writeAt noBallot s.records i (sub p).ballot)
      (hstored : ph.stored = true) (hknows : ∀ file, ph.Knows (sub p) file)
      (hsafe : s.Safe sub (p, k) ↔ Fits Ballot.uid s.records i (sub p).ballot)

/-- What every step is shown to do. -/
def HasEffect (sub : Fin n → Submission) (s s' : FlagFile n) (p : Fin n) (k : Nat) : Prop :=
  ∃ ph, s'.phase = Function.update s.phase p ph ∧ Effect sub s s' p k ph

theorem effect_goto {ph₀ ph : VotePhase} (hph : s.phase p = ph₀) (hstored : ph.stored = ph₀.stored)
    (hknows : ph.Knows (sub p) s.records) (hsafe : s.Safe sub (p, k)) :
    HasEffect sub s (s.goto p ph) p k :=
  ⟨ph, rfl, .quiet rfl (by rw [hstored, hph]) hknows hsafe⟩

/-- A step that asks whether the file is there. -/
theorem effect_exists {ph₀ absent there : VotePhase} (hph : s.phase p = ph₀)
    (hstep : (match s.file with
      | none => some (s.goto p absent)
      | some _ => some (s.goto p there)) = some s')
    (hstored : absent.stored = ph₀.stored ∧ there.stored = ph₀.stored)
    (hknows : absent.Knows (sub p) s.records ∧ there.Knows (sub p) s.records)
    (hsafe : s.Safe sub (p, k)) : HasEffect sub s s' p k := by
  cases hfile : s.file with
  | none =>
      simp only [hfile, Option.some.injEq] at hstep
      exact hstep ▸ effect_goto hph hstored.1 hknows.1 hsafe
  | some file =>
      simp only [hfile, Option.some.injEq] at hstep
      exact hstep ▸ effect_goto hph hstored.2 hknows.2 hsafe

theorem effect_lookUp {ph₀ : VotePhase} (hph : s.phase p = ph₀) (h : OneBallot sub s)
    {num : Option Nat} {i : Nat}
    (hstep : (if 0 < k then some (s.goto p (lookUp (sub p) s.records num i k)) else none) = some s')
    (hnew : ph₀.stored = false) (hsafe : s.Safe sub (p, k)) : HasEffect sub s s' p k := by
  simp only [Option.ite_none_right_eq_some, Option.some.injEq] at hstep
  obtain ⟨-, rfl⟩ := hstep
  obtain ⟨hlook, hstored⟩ := lookUp_knows h p num i k
  exact effect_goto hph (hstored.trans hnew.symm) hlook hsafe

theorem bbsvoteStep_effect (h : s.Inv sub) (hweb : (sub p).web = true)
    (hstep : bbsvoteStep (sub p) s p k = some s') : HasEffect sub s s' p k := by
  have hknows := h.knows p
  unfold bbsvoteStep at hstep
  cases hph : s.phase p <;> rw [hph] at hstep hknows
  case start =>
    cases hstep
    exact effect_goto hph rfl trivial (by simp [FlagFile.Safe, hph])
  case counted num =>
    obtain ⟨hlook, hnew⟩ := @lookedUp_knows (sub p) s.records 0 0 (by simp)
    exact effect_exists hph hstep ⟨hnew, rfl⟩ ⟨hlook, trivial⟩ (by simp [FlagFile.Safe, hph])
  case reading num i =>
    exact effect_lookUp hph h.oneBallot hstep rfl (by simp [FlagFile.Safe, hph])
  case looked pos =>
    exact effect_exists hph hstep ⟨rfl, rfl⟩ ⟨hknows, hknows⟩ (by simp [FlagFile.Safe, hph])
  case absent pos =>
    cases hstep
    refine ⟨_, rfl, .create rfl (by rw [hph]; rfl) (fun hnil => ?_)
      (by simp [FlagFile.Safe, hph, hweb])⟩
    rwa [hnil] at hknows
  case opened pos =>
    simp only [Option.ite_none_right_eq_some, Option.some.injEq] at hstep
    obtain ⟨-, rfl⟩ := hstep
    exact effect_goto hph rfl hknows (by simp [FlagFile.Safe, hph, hweb])
  case locked pos =>
    cases hstep
    refine effect_goto hph rfl ?_ (by simp [FlagFile.Safe, hph, hweb])
    by_cases hpos : 0 < pos
    · obtain ⟨b, hb, -⟩ := hknows hpos
      rw [if_pos hpos]
      exact Nat.le_of_lt (List.getElem?_eq_some_iff.mp hb).1
    · rw [if_neg hpos]
      exact Nat.le_refl _
  case ready offset =>
    cases hstep
    exact effect_goto hph rfl hknows (by simp [FlagFile.Safe, hph])
  case unlocked offset =>
    cases hstep
    exact ⟨_, rfl, .write offset hknows rfl rfl (fun _ => trivial)
      (by simp [FlagFile.Safe, hph, hweb])⟩
  all_goals cases hstep

theorem userVoteStep_effect (h : s.Inv sub) (hweb : (sub p).web = false)
    (hstep : userVoteStep (sub p) s p k = some s') : HasEffect sub s s' p k := by
  have hknows := h.knows p
  unfold userVoteStep at hstep
  cases hph : s.phase p <;> rw [hph] at hstep hknows
  case start =>
    exact effect_exists hph hstep ⟨rfl, rfl⟩ ⟨by simp [VotePhase.Knows], trivial⟩
      (by simp [FlagFile.Safe, hph])
  case reading num i =>
    exact effect_lookUp hph h.oneBallot hstep rfl (by simp [FlagFile.Safe, hph])
  case looked pos =>
    cases hstep
    exact ⟨_, rfl, .quiet rfl (by rw [hph]; rfl) hknows (by simp [FlagFile.Safe, hph])⟩
  case opened pos =>
    dsimp only at hstep
    by_cases hpos : 0 < pos
    · rw [if_pos hpos] at hstep
      cases hstep
      obtain ⟨b, hb, -⟩ := hknows hpos
      exact ⟨_, rfl, .write (pos - 1) (Nat.le_of_lt (List.getElem?_eq_some_iff.mp hb).1) rfl rfl
        (fun _ => trivial) (by simp [FlagFile.Safe, hph, hweb, hpos])⟩
    · simp only [if_neg hpos, Option.ite_none_right_eq_some, Option.some.injEq] at hstep
      obtain ⟨-, rfl⟩ := hstep
      exact effect_goto hph rfl hknows (by simp [FlagFile.Safe, hph, hweb, hpos])
  case locked pos =>
    cases hstep
    exact ⟨_, rfl, .write _ (Nat.le_refl _) rfl rfl (fun _ => trivial)
      (by simp [FlagFile.Safe, hph, hweb])⟩
  case written =>
    cases hstep
    exact effect_goto hph rfl trivial (by simp [FlagFile.Safe, hph])
  all_goals cases hstep

theorem flagStep_effect (h : s.Inv sub) (hstep : flagStep sub s (p, k) = some s') :
    HasEffect sub s s' p k := by
  unfold flagStep at hstep
  cases hweb : (sub p).web with
  | true => exact bbsvoteStep_effect h hweb (by simpa [hweb] using hstep)
  | false => exact userVoteStep_effect h hweb (by simpa [hweb] using hstep)

/-! ## What a step preserves -/

theorem stored_update {ph : VotePhase} (hphase : s'.phase = Function.update s.phase p ph)
    (hstored : ph.stored = (s.phase p).stored) (q : Fin n) :
    (s'.phase q).stored = (s.phase q).stored := by
  rw [hphase]
  by_cases hq : q = p
  · rw [hq, Function.update_self, hstored]
  · rw [Function.update_of_ne hq]

/-- **A system call keeps one ballot per voter** exactly when it is safe. -/
theorem flagStep_oneBallot_iff (h : s.Inv sub) (hstep : flagStep sub s (p, k) = some s') :
    s.Safe sub (p, k) ↔ OneBallot sub s' := by
  obtain ⟨ph, hphase, heffect⟩ := flagStep_effect h hstep
  obtain ⟨hnd, hvoters, hmade⟩ := h.oneBallot
  cases heffect with
  | quiet hfile hstored hknows hsafe =>
      have hsame := stored_update hphase hstored
      refine iff_of_true hsafe ⟨by rwa [hfile], fun q hq => ?_, fun b hb => ?_⟩
      · rw [hfile]
        exact hvoters q (by rwa [← hsame])
      · rw [hfile] at hb
        obtain ⟨q, hq, hbq⟩ := hmade b hb
        exact ⟨q, by rwa [hsame], hbq⟩
  | create hfile hstored hknows hsafe =>
      have hsame := stored_update hphase hstored
      rw [hsafe]
      constructor
      · intro hnil
        rw [hnil] at hvoters
        exact ⟨by simp [hfile], fun q hq => by rw [hsame] at hq; exact absurd (hvoters q hq) (by simp),
          by simp [hfile]⟩
      · intro h'
        -- whoever wrote a ballot that was there has none now
        refine List.eq_nil_iff_forall_not_mem.mpr fun b hb => ?_
        obtain ⟨q, hq, -⟩ := hmade b hb
        have := h'.voters q (by rwa [hsame])
        rw [hfile] at this
        simp at this
  | write i hi hfile hstored hknows hsafe =>
      have hself : (s'.phase p).stored = true := by rw [hphase, Function.update_self, hstored]
      have hkeep (q : Fin n) (hq : (s.phase q).stored = true) : (s'.phase q).stored = true := by
        by_cases hqp : q = p
        · rwa [hqp]
        · rwa [hphase, Function.update_of_ne hqp]
      rw [hsafe, fits_iff noBallot hnd hi]
      constructor
      · rintro ⟨hnd', hkeys⟩
        have hfits := (fits_iff noBallot hnd hi).mpr ⟨hnd', hkeys⟩
        refine ⟨by rwa [hfile], fun q hq => ?_, fun b hb => ?_⟩
        · rw [hfile]
          by_cases hqp : q = p
          · rw [hqp]
            exact List.mem_map_of_mem mem_writeAt_self
          · rw [hphase, Function.update_of_ne hqp] at hq
            exact hkeys _ (hvoters q hq)
        · rw [hfile] at hb
          rcases hfits.mem_writeAt hb with rfl | hb
          · exact ⟨p, hself, rfl⟩
          · obtain ⟨q, hq, hbq⟩ := hmade b hb
            exact ⟨q, hkeep q hq, hbq⟩
      · intro h'
        refine ⟨by simpa [hfile] using h'.nodup, fun u hu => ?_⟩
        obtain ⟨b, hb, rfl⟩ := List.mem_map.mp hu
        obtain ⟨q, hq, rfl⟩ := hmade b hb
        have := h'.voters q (hkeep q hq)
        rwa [hfile] at this

theorem FlagFile.Inv.step (h : s.Inv sub) (hsafe : s.Safe sub (p, k))
    (hstep : flagStep sub s (p, k) = some s') : s'.Inv sub := by
  refine ⟨(flagStep_oneBallot_iff h hstep).mp hsafe, fun q => ?_⟩
  obtain ⟨ph, hphase, heffect⟩ := flagStep_effect h hstep
  have hother {file : List Ballot} (hp : ph.Knows (sub p) file)
      (hq : q ≠ p → (s.phase q).Knows (sub q) file) : (s'.phase q).Knows (sub q) file := by
    rw [hphase]
    by_cases hqp : q = p
    · rw [hqp, Function.update_self]
      exact hp
    · rw [Function.update_of_ne hqp]
      exact hq hqp
  cases heffect with
  | quiet hfile _ hknows _ =>
      rw [hfile]
      exact hother hknows fun _ => h.knows q
  | create hfile _ hknows hiff =>
      have hnil := hiff.mp hsafe
      rw [hfile]
      exact hother (hknows hnil) fun _ => hnil ▸ h.knows q
  | write i hi hfile _ hknows hiff =>
      have hfits := hiff.mp hsafe
      rw [hfile]
      exact hother (hknows _) fun _ => (h.knows q).mono hfits.length_le fun _ _ hb => hfits.getElem? hb

theorem inv_emptyFlag : (emptyFlag n).Inv sub := by
  refine ⟨⟨?_, ?_, ?_⟩, fun _ => trivial⟩
  · simp [emptyFlag, FlagFile.records]
  · simp [emptyFlag, VotePhase.stored]
  · simp [emptyFlag, FlagFile.records]

theorem uidField_injective : Function.Injective uidField := by
  intro u v h
  have hread (u : CStr 12) : (readStr (uidField u ++ [0])).map Prod.fst = some u.bytes := by
    have hu := u.le
    have hfield : uidField u ++ [0] = u.bytes ++ 0 :: List.replicate (12 - u.bytes.length) 0 := by
      rw [uidField, List.take_append, List.take_of_length_le hu, List.take_replicate,
        List.append_assoc, ← List.replicate_succ, ← List.replicate_succ']
      congr 2
      omega
    rw [hfield, readStr_append u.nz]
    rfl
  have hbytes : some u.bytes = some v.bytes := by rw [← hread u, h, hread v]
  cases u
  cases v
  simpa using hbytes

/-- The users who have submitted. -/
def FlagFile.voters (sub : Fin n → Submission) (s : FlagFile n) : Set (CStr 12) :=
  {u | ∃ p, (s.phase p).stored = true ∧ (sub p).userid = u}

/-- There are as many ballots as voters. -/
theorem OneBallot.length_eq (h : OneBallot sub s) : s.records.length = (s.voters sub).ncard := by
  have himage : uidField '' s.voters sub = ((s.records.map Ballot.uid).toFinset : Set (List UInt8)) := by
    ext k
    simp only [Set.mem_image, List.coe_toFinset, Set.mem_ofPred_eq]
    constructor
    · rintro ⟨u, ⟨p, hp, rfl⟩, rfl⟩
      exact h.voters p hp
    · intro hk
      obtain ⟨b, hb, rfl⟩ := List.mem_map.mp hk
      obtain ⟨p, hp, rfl⟩ := h.made b hb
      exact ⟨(sub p).userid, ⟨p, hp, rfl⟩, rfl⟩
  rw [← Set.ncard_image_of_injective _ uidField_injective, himage, Set.ncard_coe_finset,
    List.toFinset_card_of_nodup h.nodup, List.length_map]

/-- **One ballot per voter over every run** in which each write finds its place; and the
next call keeps it so exactly when it does. -/
theorem flag_run {es : List (Fin n × Nat)}
    (hrun : Run (when (FlagFile.Safe sub) (flagStep sub)) (emptyFlag n) es s) :
    OneBallot sub s ∧ s.records.length = (s.voters sub).ncard ∧
      ∀ e s', flagStep sub s e = some s' → (s.Safe sub e ↔ OneBallot sub s') := by
  have hinv : s.Inv sub := by
    refine hrun.invariant_when (FlagFile.Inv sub) inv_emptyFlag ?_
    intro s e s' hs hsafe hstep
    exact hs.step hsafe hstep
  exact ⟨hinv.oneBallot, hinv.oneBallot.length_eq, fun e s' => flagStep_oneBallot_iff hinv⟩

end runs

/-- Two voters, `a` and `b`: the first by the page, the second by the page or not. -/
def twoVoters (web : Bool) : Fin 2 → Submission
  | 0 => ⟨true, false, ⟨[97], by decide, by decide⟩, 1⟩
  | 1 => ⟨web, false, ⟨[98], by decide, by decide⟩, 2⟩

/-- One after the other, at the page and at the terminal. -/
theorem flag_run_twoVoters :
    ∃ s, Run (when (FlagFile.Safe (twoVoters false)) (flagStep (twoVoters false))) (emptyFlag 2)
        (List.replicate 8 (0, 1) ++ List.replicate 7 (1, 1)) s ∧
      s.records.length = 2 ∧ s.records.length = (s.voters (twoVoters false)).ncard := by
  have hexec : (exec (when (FlagFile.Safe (twoVoters false)) (flagStep (twoVoters false)))
      (emptyFlag 2) (List.replicate 8 (0, 1) ++ List.replicate 7 (1, 1))).any
        (fun s => s.records.length = 2) = true := by
    decide +kernel
  obtain ⟨s, hs, hlen⟩ := (Option.any_eq_true _ _).mp hexec
  exact ⟨s, Run.of_exec hs, of_decide_eq_true hlen, (flag_run (Run.of_exec hs)).2.1⟩

/-- The second voter unlocks before the first one's `fclose`: both write to the start of
the file, and the first ballot is lost. -/
theorem fclose_overwrites :
    ∃ s, Run (flagStep (twoVoters true)) (emptyFlag 2)
        (List.replicate 7 (0, 1) ++ List.replicate 7 (1, 1) ++ [(0, 1), (1, 1)]) s ∧
      s.phase = (fun _ => .done) ∧ s.records = [(twoVoters true 1).ballot] ∧
      ¬ OneBallot (twoVoters true) s := by
  have hexec : (exec (flagStep (twoVoters true)) (emptyFlag 2)
      (List.replicate 7 (0, 1) ++ List.replicate 7 (1, 1) ++ [(0, 1), (1, 1)])).any
        (fun s => s.phase = (fun _ => .done) ∧ s.records = [(twoVoters true 1).ballot]) = true := by
    decide +kernel
  obtain ⟨s, hs, hend⟩ := (Option.any_eq_true _ _).mp hexec
  obtain ⟨hdone, hfile⟩ := of_decide_eq_true hend
  refine ⟨s, Run.of_exec hs, hdone, hfile, fun h => ?_⟩
  have hlost := h.voters 0 (by rw [hdone]; rfl)
  rw [hfile] at hlost
  exact absurd hlost (by decide)

end Ytht
