import Ytht.Lib.Bytes

/-!
# Attach.Append

Binary attachments in an article: after the text a line that begins with
`beginbinaryattach`, a NUL, the length in network order, and the bytes.

`appendonebinaryattach` looks at the size of the article before and after, and cuts
off what it has written when that does not fit.  `appendCalls_layout` says where the
attachments are after any number of calls.
-/

namespace Ytht

open Bytes

/-! ## The layout -/

/-- A literal of the source. -/
def ascii (s : String) : List UInt8 := s.toList.map fun ch => UInt8.ofNat ch.toNat

/-- The four bytes of `htonl(n)` in memory. -/
def htonl (n : Nat) : List UInt8 := (leBytes 4 n).reverse

/-- `ntohl` of the word that the bytes begin with. -/
def ntohl (mem : List UInt8) : Nat := leNat (mem.take 4).reverse

@[simp] theorem length_htonl (n : Nat) : (htonl n).length = 4 := by
  rw [htonl, List.length_reverse, length_leBytes]

theorem ntohl_htonl {n : Nat} (h : n < 2 ^ 32) (rest : List UInt8) :
    ntohl (htonl n ++ rest) = n := by
  rw [ntohl, List.take_left' (length_htonl n), htonl, List.reverse_reverse, leNat_leBytes]
  exact Nat.mod_eq_of_lt h

/-- The line `"\nbeginbinaryattach %s\n"`. -/
def markerLine (attachname : List UInt8) : List UInt8 :=
  ascii "\nbeginbinaryattach " ++ attachname ++ ascii "\n"

@[simp] theorem length_markerLine (attachname : List UInt8) :
    (markerLine attachname).length = 20 + attachname.length := by
  simp only [markerLine, ascii, List.length_append, List.length_map, String.length_toList]
  change 19 + attachname.length + 1 = _
  omega

/-- What a successful call adds to the article. -/
def block (attachname mf : List UInt8) : List UInt8 :=
  markerLine attachname ++ 0 :: (htonl mf.length ++ mf)

@[simp] theorem length_block (attachname mf : List UInt8) :
    (block attachname mf).length = 25 + attachname.length + mf.length := by
  simp only [block, List.length_append, length_markerLine, List.length_cons, length_htonl]
  omega

/-! ## appendonebinaryattach -/

/-- `mmapfile`; the size of a file has 31 bits, and `stat` fails on a larger one. -/
def mmapfile (file : List UInt8) : Option (List UInt8) :=
  if file.length < 2 ^ 31 then some file else none

/-- One call: its arguments, and how many bytes the disk still takes. -/
structure AttachCall where
  attachname : List UInt8
  /-- `NAME_MAX` -/
  attachname_le : attachname.length ≤ 255
  /-- The content of `attachfname`, if that is a file. -/
  attachfile : Option (List UInt8)
  room : Nat

/-- `appendonebinaryattach`: what it returns, and the article after it. -/
def appendonebinaryattach (file : List UInt8) (call : AttachCall) : Int × List UInt8 :=
  match call.attachfile.bind mmapfile with
  | none => (-1, file)
  | some mf =>
      if 2 ^ 31 ≤ file.length then (-1, file)
      else
        let room := min call.room (2 ^ 31 - 1 - file.length)
        let written := file ++ (block call.attachname mf).take room
        let size := file.length + 5 + mf.length + (ascii "\nbeginbinaryattach \n").length +
          call.attachname.length
        if written.length ≠ size % 2 ^ 32 then (-1, written.take file.length)
        else (0, written)

/-- A call that fails leaves the article as it was, and one that succeeds adds the whole
block to it. -/
theorem appendonebinaryattach_cases (file : List UInt8) (call : AttachCall) :
    appendonebinaryattach file call = (-1, file) ∨
      ∃ mf, call.attachfile = some mf ∧ file.length + (block call.attachname mf).length < 2 ^ 31 ∧
        appendonebinaryattach file call = (0, file ++ block call.attachname mf) := by
  unfold appendonebinaryattach
  cases hatt : call.attachfile with
  | none => simp
  | some mf =>
      by_cases hmf : mf.length < 2 ^ 31
      · simp only [Option.bind_some, mmapfile, if_pos hmf]
        by_cases hfile : 2 ^ 31 ≤ file.length
        · rw [if_pos hfile]
          exact .inl rfl
        · have hname := call.attachname_le
          have hmark : (ascii "\nbeginbinaryattach \n").length = 20 := by decide
          rw [if_neg hfile, hmark]
          split_ifs with hsize
          · left
            rw [List.take_left' rfl]
          · -- the size is the expected one, so nothing of the block is missing
            simp only [ne_eq, not_not, List.length_append, List.length_take, length_block] at hsize
            have hwhole : (block call.attachname mf).length ≤
                min call.room (2 ^ 31 - 1 - file.length) := by
              rw [length_block]
              omega
            right
            refine ⟨mf, rfl, by omega, ?_⟩
            rw [List.take_of_length_le hwhole]
      · simp only [Option.bind_some, mmapfile, if_neg hmf, true_or]

/-! ## Any number of calls -/

/-- An attachment that has been appended, and the position of its length field. -/
structure Attachment where
  pos : Nat
  data : List UInt8
  deriving DecidableEq

/-- The attachment is in the file, and `rest` follows it. -/
def Attachment.Stored (a : Attachment) (file rest : List UInt8) : Prop :=
  ∃ text : List UInt8, text.length + 1 = a.pos ∧
    file = text ++ 0 :: (htonl a.data.length ++ (a.data ++ rest))

/-- The article and the attachments after one call more. -/
def appendCall (s : List UInt8 × List Attachment) (call : AttachCall) :
    List UInt8 × List Attachment :=
  let (ret, file) := appendonebinaryattach s.1 call
  if ret = 0 then
    (file, s.2 ++ [⟨s.1.length + (markerLine call.attachname).length + 1,
      call.attachfile.getD []⟩])
  else (file, s.2)

/-- The article and the attachments after some calls. -/
def appendCalls (article : List UInt8) (calls : List AttachCall) :
    List UInt8 × List Attachment :=
  calls.foldl appendCall (article, [])

/-- Every attachment is in the article, and only the last one ends with it. -/
def Layout (s : List UInt8 × List Attachment) : Prop :=
  ∀ k a, s.2[k]? = some a →
    s.1.length < 2 ^ 31 ∧ ∃ rest, a.Stored s.1 rest ∧ (rest = [] ↔ k + 1 = s.2.length)

theorem Layout.appendCall {s : List UInt8 × List Attachment} (h : Layout s) (call : AttachCall) :
    Layout (appendCall s call) := by
  obtain ⟨file, done⟩ := s
  rcases appendonebinaryattach_cases file call with hfail | ⟨mf, hmf, hlen, hok⟩
  · simpa [Ytht.appendCall, hfail] using h
  · simp only [Ytht.appendCall, hok, hmf, if_true, Option.getD_some]
    intro k a hk
    refine ⟨by simpa using hlen, ?_⟩
    by_cases hlast : k < done.length
    · -- an attachment of before: the new block follows it
      rw [List.getElem?_append_left hlast] at hk
      obtain ⟨-, rest, ⟨text, hpos, hfile⟩, -⟩ := h k a hk
      refine ⟨rest ++ block call.attachname mf, ⟨text, hpos, ?_⟩, ?_⟩
      · dsimp only at hfile ⊢
        rw [hfile]
        simp
      · have hne : block call.attachname mf ≠ [] := by
          intro hnil
          have hblock := length_block call.attachname mf
          rw [hnil, List.length_nil] at hblock
          omega
        simp [hne]
        omega
    · rw [List.getElem?_append_right (by omega), List.getElem?_singleton] at hk
      obtain ⟨hk, rfl⟩ : k - done.length = 0 ∧ _ = a := by
        split_ifs at hk with h0
        exact ⟨h0, Option.some.inj hk⟩
      refine ⟨[], ⟨file ++ markerLine call.attachname, by simp, by simp [block]⟩, ?_⟩
      simp
      omega

/-- After any number of calls the attachments are where they were put, the last one at
the end. -/
theorem appendCalls_layout (article : List UInt8) (calls : List AttachCall) :
    Layout (appendCalls article calls) := by
  suffices h : ∀ s, Layout s → Layout (calls.foldl appendCall s) from
    h _ (by simp [Layout])
  induction calls with
  | nil => exact fun s hs => hs
  | cons call calls ih => exact fun s hs => ih _ (hs.appendCall call)

end Ytht
