import Mathlib.Data.Bool.AllAny
import Mathlib.Logic.Function.Iterate
import Mathlib.Tactic.Tauto
import Ytht.Attach.Append
import Ytht.Ythtlib.Stdio
import Ytht.Ythtlib.Strop

/-!
# Attach.Filter

The three readers of an article with attachments: `filter_attach`, when it is stored, and
`decode_attach` and `copyfile_attach`, when it is read or edited.  They differ in how much of
a line they read, in what they take for the first line of a uuencoded attachment, and in how
they go over an attachment.

All three ask `strncmp` for ten bytes.  In `decode_attach` and `copyfile_attach` the other
string has only nine, so that a line must end there; with the blank and the name of
`filter_attach` it does not (`attachments_agree_iff`).
-/

namespace Ytht

open Bytes

/-! ## Reading -/

/-- `fgets` with a buffer of `room + 1` bytes. -/
def fgetsBuf : Nat → List UInt8 → List UInt8
  | 0, _ => []
  | _, [] => []
  | room + 1, ch :: rest => if ch = 10 then [10] else ch :: fgetsBuf room rest

/-- `strncmp(buf, s, n) == 0` for a string of the source. -/
def strncmpEq (buf : List UInt8) (s : String) (n : Nat) : Bool :=
  (cutAt 0 buf).take n = (ascii s).take n

/-- `fseek` with `SEEK_CUR`; before the start of the file it fails. -/
def fseekCur (pos : Nat) (len : Int) : Nat := if pos + len < 0 then pos else (pos + len).toNat

/-- A line that ends a uuencoded attachment. -/
def isEnd (buf : List UInt8) : Bool :=
  cutAt 0 buf = ascii "end\n" || cutAt 0 buf = ascii "end\r\n"

/-- How far `fakedecode` reads, in the lines that are left. -/
def fakedecode : List (List UInt8) → Nat
  | [] => 0
  | buf :: bufs => buf.length + if isEnd buf then 0 else fakedecode bufs

/-- How far `uudecode` reads: to the line behind one that stands for no bytes. -/
def uudecode : List (List UInt8) → Nat
  | [] => 0
  | buf :: bufs =>
      buf.length + if (buf.headD 0 - 32) &&& 63 = 0 then (bufs.headD []).length else uudecode bufs

/-- What comes of the file for an attachment in `getattach`. -/
inductive Extract where
  /-- No file is tried, because of its path. -/
  | skip
  /-- It is written. -/
  | write
  /-- It could not be made. -/
  | fail
  /-- `uudecode` does not like the name. -/
  | refuse

/-- What a run of a reader meets besides the article, by the place of the line: what `ch` and
`len` are when `fread` does not fill them, and what comes of the file. -/
structure Surroundings where
  ch : Nat → UInt8
  len : Nat → List UInt8
  extract : Nat → Extract

/-- `checkbinaryattach` for the line at `p`, with `*len` as an `int` and the place behind it. -/
def checkbinaryattach (st : Surroundings) (file : List UInt8) (p : Nat) (buf : List UInt8)
    (pos : Nat) : Option (Int × Nat) :=
  let rest := file.drop pos
  if strncmpEq buf "beginbinaryattach " 18 = false then none
  else if rest.headD (st.ch p) ≠ 0 then none
  else
    let word := (rest.drop 1).take 4
    some (toInt (ntohl (word ++ (st.len p).drop word.length)),
      pos + (rest.take 1).length + word.length)

/-! ## The readers -/

/-- One of the three loops. -/
structure Reader where
  /-- `sizeof(buf)` -/
  size : Nat
  /-- What `strncmp` compares with. -/
  begin644 : String
  /-- Where a uuencoded attachment ends, from the place of its line and the place behind that. -/
  encoded : List UInt8 → Nat → Nat → Nat
  /-- Where a binary attachment of a length ends. -/
  binary : Nat → Nat → Int → Nat
  around : Surroundings

/-- `filter_attach` -/
def filterAttach (st : Surroundings) : Reader where
  size := 2048
  begin644 := "begin 644 "
  encoded file _ pos := pos + fakedecode (fgetsLines 255 255 (file.drop pos))
  binary _ pos len := fseekCur pos len
  around := st

/-- `decode_attach`.  A blank line behind an attachment, over which it goes, is no line of
another one. -/
def decodeAttach (st : Surroundings) : Reader where
  size := 500
  begin644 := "begin 644"
  encoded file p pos :=
    match st.extract p with
    | .write => pos + uudecode (fgetsLines 16383 16383 (file.drop pos))
    | .refuse => pos
    | _ => pos + fakedecode (fgetsLines 255 255 (file.drop pos))
  binary p pos len :=
    match st.extract p with
    | .skip => fseekCur pos len
    | .write => if 0 < len then pos + len.toNat else pos
    | _ => pos
  around := st

/-- `copyfile_attach`, where `fake` is set. -/
def copyfileAttach (st : Surroundings) : Reader where
  size := 500
  begin644 := "begin 644"
  encoded file _ pos := pos + fakedecode (fgetsLines 255 255 (file.drop pos))
  binary _ pos len := fseekCur pos len
  around := st

namespace Reader

variable (r : Reader) (file : List UInt8)

/-- The line that is read at `p`. -/
def buf (p : Nat) : List UInt8 := fgetsBuf (r.size - 1) (file.drop p)

/-- The line at `p` is taken for the first one of a uuencoded attachment. -/
def begins (p : Nat) : Bool := strncmpEq (r.buf file p) r.begin644 10

/-- Where the line behind another one is, when that does not begin a uuencoded attachment. -/
def plainNext (p : Nat) : Nat :=
  let pos := p + (r.buf file p).length
  match checkbinaryattach r.around file p (r.buf file p) pos with
  | none => pos
  | some (len, pos) => r.binary p pos len

/-- Where the loop reads next. -/
def next (p : Nat) : Nat :=
  if r.begins file p then r.encoded file p (p + (r.buf file p).length) else r.plainNext file p

/-- The loop comes to the line at `p`, and takes it for that of a uuencoded attachment. -/
def Taken (p : Nat) : Prop := (∃ k, (r.next file)^[k] 0 = p) ∧ r.begins file p = true

/-- A line of the article, outside its binary attachments. -/
def Line (p : Nat) : Prop := ∃ k, (r.plainNext file)^[k] 0 = p

end Reader

/-! ## Lines and readers -/

/-- Until one comes to a marked place, it does not matter what is done there. -/
theorem exists_iterate_iff {α : Type} {f g : α → α} {mark : α → Prop}
    (h : ∀ a, ¬ mark a → f a = g a) (a : α) :
    (∃ k, mark (f^[k] a)) ↔ ∃ k, mark (g^[k] a) := by
  have hsame : ∀ (f g : α → α), (∀ a, ¬ mark a → f a = g a) → (∀ k, ¬ mark (g^[k] a)) →
      ∀ k, f^[k] a = g^[k] a := by
    intro f g hfg hnone k
    induction k with
    | zero => rfl
    | succ k ih => rw [Function.iterate_succ_apply', ih, hfg _ (hnone k),
        ← Function.iterate_succ_apply' g]
  rw [← not_iff_not, not_exists, not_exists]
  constructor
  · intro hnone k
    rw [hsame g f (fun a ha => (h a ha).symm) hnone k]
    exact hnone k
  · intro hnone k
    rw [hsame f g h hnone k]
    exact hnone k

/-- A reader takes some line for an attachment when there is one that it would take. -/
theorem Reader.exists_taken (r : Reader) (file : List UInt8) :
    (∃ p, r.Taken file p) ↔ ∃ p, r.Line file p ∧ r.begins file p = true := by
  have hiff := @exists_iterate_iff _ (r.next file) (r.plainNext file)
    (fun p => r.begins file p = true) (fun p hp => by rw [next, if_neg hp]) 0
  constructor
  · rintro ⟨p, ⟨k, rfl⟩, hbegins⟩
    obtain ⟨k', hk'⟩ := hiff.mp ⟨k, hbegins⟩
    exact ⟨_, ⟨k', rfl⟩, hk'⟩
  · rintro ⟨p, ⟨k, rfl⟩, hbegins⟩
    obtain ⟨k', hk'⟩ := hiff.mpr ⟨k, hbegins⟩
    exact ⟨_, ⟨k', rfl⟩, hk'⟩

/-! ## The marks -/

theorem cutAt_fgetsBuf_cons (room : Nat) (ch : UInt8) (rest : List UInt8) :
    cutAt 0 (fgetsBuf (room + 1) (ch :: rest)) =
      if ch = 10 then [10] else if ch = 0 then [] else ch :: cutAt 0 (fgetsBuf room rest) := by
  rw [fgetsBuf]
  split
  · rfl
  · split
    · next h0 => rw [h0, cutAt, List.takeWhile_cons_of_neg (by decide)]
    · next h0 => rw [cutAt, List.takeWhile_cons_of_pos (by simpa using h0), cutAt]

/-- A string that fits in the buffer. -/
theorem prefix_fgetsBuf {w : List UInt8} (hw : ∀ c ∈ w, c ≠ 0 ∧ c ≠ 10) :
    ∀ {room : Nat} {rest : List UInt8}, w.length ≤ room →
      (w <+: cutAt 0 (fgetsBuf room rest) ↔ w <+: rest) := by
  induction w with
  | nil => exact fun _ => ⟨fun _ => List.nil_prefix, fun _ => List.nil_prefix⟩
  | cons c w ih =>
      intro room rest hle
      obtain ⟨h0, h10⟩ := hw c List.mem_cons_self
      cases room with
      | zero => exact absurd hle (Nat.not_succ_le_zero _)
      | succ room =>
          have hrest := @ih (fun c hc => hw c (List.mem_cons_of_mem _ hc)) room
          cases rest with
          | nil => rfl
          | cons ch rest =>
              rw [cutAt_fgetsBuf_cons, List.cons_prefix_cons]
              by_cases hch : c = ch
              · subst hch
                rw [if_neg h10, if_neg h0, List.cons_prefix_cons, hrest (Nat.le_of_succ_le_succ hle)]
              · refine iff_of_false (fun h => ?_) fun h => hch h.1
                split at h
                · exact h10 (List.cons_prefix_cons.mp h).1
                · split at h
                  · exact List.cons_ne_nil _ _ (List.prefix_nil.mp h)
                  · exact hch (List.cons_prefix_cons.mp h).1

/-- A string that is all of the line, or is followed by a NUL. -/
theorem cutAt_fgetsBuf_eq {w : List UInt8} (hw : ∀ c ∈ w, c ≠ 0 ∧ c ≠ 10) :
    ∀ {room : Nat} {rest : List UInt8}, w.length < room →
      (cutAt 0 (fgetsBuf room rest) = w ↔ rest = w ∨ w ++ [0] <+: rest) := by
  induction w with
  | nil =>
      intro room rest hlt
      obtain ⟨room, rfl⟩ := Nat.exists_eq_add_one_of_ne_zero (Nat.ne_of_gt hlt)
      cases rest with
      | nil => exact ⟨fun _ => .inl rfl, fun _ => rfl⟩
      | cons ch rest =>
          rw [cutAt_fgetsBuf_cons, List.nil_append, List.cons_prefix_cons]
          split
          · next h10 => simp [h10]
          · split
            · next h0 => simp [h0]
            · next h0 => simp [Ne.symm h0]
  | cons c w ih =>
      intro room rest hlt
      obtain ⟨h0, h10⟩ := hw c List.mem_cons_self
      obtain ⟨room, rfl⟩ := Nat.exists_eq_add_one_of_ne_zero (Nat.ne_of_gt (Nat.zero_lt_of_lt hlt))
      have hrest := @ih (fun c hc => hw c (List.mem_cons_of_mem _ hc)) room
      cases rest with
      | nil =>
          refine iff_of_false (fun h => ?_) (by simp)
          exact List.cons_ne_nil _ _ h.symm
      | cons ch rest =>
          rw [cutAt_fgetsBuf_cons, List.cons_append, List.cons_prefix_cons]
          by_cases hch : c = ch
          · subst hch
            rw [if_neg h10, if_neg h0, List.cons.injEq, hrest (Nat.lt_of_succ_lt_succ hlt),
              List.cons.injEq]
            simp only [true_and]
          · refine iff_of_false (fun h => ?_) ?_
            · split at h
              · exact h10 (List.cons.inj h).1.symm
              · split at h
                · exact List.cons_ne_nil _ _ h.symm
                · exact hch (List.cons.inj h).1.symm
            · rintro (h | h)
              · exact hch (List.cons.inj h).1.symm
              · exact hch h.1

/-- A place where the article has `begin 644 `. -/
def BeginsBlank (file : List UInt8) (p : Nat) : Prop := ascii "begin 644 " <+: file.drop p

/-- A place where `begin 644` is all there is, or a NUL follows. -/
def BeginsBare (file : List UInt8) (p : Nat) : Prop :=
  file.drop p = ascii "begin 644" ∨ ascii "begin 644" ++ [0] <+: file.drop p

theorem not_beginsBare {file : List UInt8} {p : Nat} (h : BeginsBlank file p) :
    ¬ BeginsBare file p := by
  unfold BeginsBlank at h
  rintro (hall | hnul)
  · rw [hall] at h
    exact absurd h.length_le (by decide)
  · exact absurd ((List.prefix_of_prefix_length_le h hnul (by decide)).eq_of_length (by decide))
      (by decide)

theorem begins_filterAttach (st : Surroundings) (file : List UInt8) (p : Nat) :
    (filterAttach st).begins file p = true ↔ BeginsBlank file p := by
  have hw : ∀ c ∈ ascii "begin 644 ", c ≠ 0 ∧ c ≠ 10 := List.all_iff_forall_prop.mp (by decide)
  have hlen : (ascii "begin 644 ").length = 10 := by decide
  have htake : (ascii "begin 644 ").take 10 = ascii "begin 644 " := by decide
  have hfits : (ascii "begin 644 ").length ≤ 2047 := hlen ▸ by decide
  rw [BeginsBlank, ← prefix_fgetsBuf hw hfits, List.prefix_iff_eq_take, hlen, Reader.begins,
    strncmpEq, decide_eq_true_iff]
  exact (Eq.congr_right htake).trans eq_comm

theorem begins_bare {r : Reader} (hsize : r.size = 500) (hbegin : r.begin644 = "begin 644")
    (file : List UInt8) (p : Nat) : r.begins file p = true ↔ BeginsBare file p := by
  have hw : ∀ c ∈ ascii "begin 644", c ≠ 0 ∧ c ≠ 10 := List.all_iff_forall_prop.mp (by decide)
  have hlen : (ascii "begin 644").length = 9 := by decide
  have htake : (ascii "begin 644").take 10 = ascii "begin 644" := by decide
  have hfits : (ascii "begin 644").length < 499 := hlen ▸ by decide
  rw [BeginsBare, ← cutAt_fgetsBuf_eq hw hfits, Reader.begins, Reader.buf, hsize, hbegin, strncmpEq,
    decide_eq_true_iff, htake]
  constructor
  · -- fewer than ten bytes are all of them
    intro h
    have hshort := congrArg List.length h
    rw [List.length_take, hlen] at hshort
    rw [← h, List.take_of_length_le]
    omega
  · intro h
    rw [h, htake]

theorem exists_taken_filter (st : Surroundings) (file : List UInt8) :
    (∃ p, (filterAttach st).Taken file p) ↔
      ∃ p, (filterAttach st).Line file p ∧ BeginsBlank file p := by
  simp only [Reader.exists_taken, begins_filterAttach]

theorem exists_taken_bare {r : Reader} (hsize : r.size = 500) (hbegin : r.begin644 = "begin 644")
    (file : List UInt8) : (∃ p, r.Taken file p) ↔ ∃ p, r.Line file p ∧ BeginsBare file p := by
  simp only [Reader.exists_taken, begins_bare hsize hbegin]

/-- What one of the two kinds of readers takes the other does not. -/
theorem agree_iff {r : Reader} (hsize : r.size = 500) (hbegin : r.begin644 = "begin 644")
    (st : Surroundings) (file : List UInt8) :
    (∀ p, (filterAttach st).Taken file p ↔ r.Taken file p) ↔
      (∀ p, (filterAttach st).Line file p → ¬ BeginsBlank file p) ∧
        ∀ p, r.Line file p → ¬ BeginsBare file p := by
  have hblank := exists_taken_filter st file
  have hbare := exists_taken_bare hsize hbegin file
  constructor
  · intro hagree
    have hnone : ∀ p, ¬ (filterAttach st).Taken file p := by
      intro p hp
      exact not_beginsBare ((begins_filterAttach st file p).mp hp.2)
        ((begins_bare hsize hbegin file p).mp ((hagree p).mp hp).2)
    refine ⟨fun p hline hbegins => ?_, fun p hline hbegins => ?_⟩
    · obtain ⟨q, hq⟩ := hblank.mpr ⟨p, hline, hbegins⟩
      exact hnone q hq
    · obtain ⟨q, hq⟩ := hbare.mpr ⟨p, hline, hbegins⟩
      exact hnone q ((hagree q).mpr hq)
  · rintro ⟨hno, hno'⟩ p
    refine iff_of_false (fun hp => ?_) fun hp => ?_
    · obtain ⟨q, hline, hbegins⟩ := hblank.mp ⟨p, hp⟩
      exact hno q hline hbegins
    · obtain ⟨q, hline, hbegins⟩ := hbare.mp ⟨p, hp⟩
      exact hno' q hline hbegins

/-- **Attachments are recognized alike** by the three readers exactly when no line outside the
binary attachments is one that a reader would take for the first line of another. -/
theorem attachments_agree_iff (file : List UInt8) (st st₁ st₂ : Surroundings) :
    ((∀ p, (filterAttach st).Taken file p ↔ (decodeAttach st₁).Taken file p) ∧
        ∀ p, (filterAttach st).Taken file p ↔ (copyfileAttach st₂).Taken file p) ↔
      (∀ p, (filterAttach st).Line file p → ¬ BeginsBlank file p) ∧
        (∀ p, (decodeAttach st₁).Line file p → ¬ BeginsBare file p) ∧
        ∀ p, (copyfileAttach st₂).Line file p → ¬ BeginsBare file p := by
  rw [agree_iff (r := decodeAttach st₁) rfl rfl, agree_iff (r := copyfileAttach st₂) rfl rfl]
  tauto

/-- An attachment with no bytes. -/
def uuArticle : List UInt8 := ascii "begin 644 a\n \nend\n"

/-- Fresh memory, and every file can be written. -/
def quiet : Surroundings := ⟨fun _ => 0, fun _ => [0, 0, 0, 0], fun _ => .write⟩

/-- It is found when the article is stored, and not when it is read. -/
theorem uuArticle_missed : (filterAttach quiet).Taken uuArticle 0 ∧
    ¬ (decodeAttach quiet).Taken uuArticle 0 ∧ ¬ (copyfileAttach quiet).Taken uuArticle 0 := by
  have hblank : BeginsBlank uuArticle 0 := by
    rw [BeginsBlank]
    decide
  refine ⟨⟨⟨0, rfl⟩, (begins_filterAttach quiet _ 0).mpr hblank⟩, fun h => ?_, fun h => ?_⟩
  · exact not_beginsBare hblank ((begins_bare rfl rfl _ 0).mp h.2)
  · exact not_beginsBare hblank ((begins_bare rfl rfl _ 0).mp h.2)

end Ytht
