import Mathlib.Data.List.Basic
import Ytht.Lib.Base64
import Ytht.Lib.Feed

/-!
# Ythtlib.Base64

The streaming encoder of `base64.c`.  Up to two bytes wait in `tailbuf` between
the calls, and `outlen` counts the characters in the current line, which is
closed once it has 60.
-/

namespace Ytht

open Base64 Feed

/-! ## The encoder -/

/-- `Base64[]`. -/
def base64Table : List UInt8 :=
  "ABCDEFGHIJKLMNOPQRSTUVWXYZabcdefghijklmnopqrstuvwxyz0123456789+/".toList.map
    fun c => UInt8.ofNat c.toNat

/-- `Base64[output]`. -/
def base64Char (output : UInt8) : UInt8 := base64Table.getD output.toNat 0

/-- `Pad64`. -/
def pad64 : UInt8 := 61

/-- What a caller keeps between the calls: the first `*taillen` bytes of `tailbuf`,
and `*outlen`. -/
structure B64State where
  tailbuf : List UInt8
  outlen : Nat
  deriving DecidableEq

def B64State.taillen (st : B64State) : Nat := st.tailbuf.length

/-- `f_b64_ntop_init`. -/
def fB64NtopInit : B64State := ⟨[], 0⟩

/-- Four characters for three bytes, and the end of the line when it is full. -/
def putTriple (input0 input1 input2 : UInt8) (outlen : Nat) : List UInt8 × Nat :=
  let output :=
    [base64Char (input0 >>> 2), base64Char (((input0 &&& 0x03) <<< 4) + (input1 >>> 4)),
      base64Char (((input1 &&& 0x0f) <<< 2) + (input2 >>> 6)), base64Char (input2 &&& 0x3f)]
  if 60 ≤ outlen + 4 then (output ++ [13, 10], 0) else (output, outlen + 4)

/-- The `while` of `f_b64_ntop`, and the rest that goes to `tailbuf`. -/
def putTriples (outlen : Nat) : List UInt8 → List UInt8 × B64State
  | input0 :: input1 :: input2 :: src =>
      let (output, outlen) := putTriple input0 input1 input2 outlen
      let (rest, st) := putTriples outlen src
      (output ++ rest, st)
  | src => ([], ⟨src, outlen⟩)

/-- `f_b64_ntop`. -/
def fB64Ntop (st : B64State) (data : List UInt8) : List UInt8 × B64State :=
  if 0 < st.taillen then
    if data.length + st.taillen < 3 then
      ([], { st with tailbuf := st.tailbuf ++ data })
    else
      let input := st.tailbuf ++ data.take (3 - st.taillen)
      let src := data.drop (3 - st.taillen)
      let (output, outlen) :=
        putTriple (input.getD 0 0) (input.getD 1 0) (input.getD 2 0) st.outlen
      let (rest, st) := putTriples outlen src
      (output ++ rest, st)
  else putTriples st.outlen data

/-- `f_b64_ntop_fini`, which ends no line. -/
def fB64NtopFini (st : B64State) : List UInt8 :=
  if st.taillen ≠ 0 then
    let input0 := st.tailbuf.getD 0 0
    let input1 := st.tailbuf.getD 1 0
    let input2 := st.tailbuf.getD 2 0
    [base64Char (input0 >>> 2), base64Char (((input0 &&& 0x03) <<< 4) + (input1 >>> 4)),
      if st.taillen = 1 then pad64
      else base64Char (((input1 &&& 0x0f) <<< 2) + (input2 >>> 6)), pad64]
  else []

/-- A stream, cut into pieces, through the three functions. -/
def b64Stream (pieces : List (List UInt8)) : List UInt8 :=
  let (output, st) := through fB64Ntop fB64NtopInit pieces
  output ++ fB64NtopFini st

/-! ## Byte by byte -/

/-- The encoder on one byte. -/
def b64Step (st : B64State) (c : UInt8) : List UInt8 × B64State :=
  match st.tailbuf with
  | [a, b] =>
      let (output, outlen) := putTriple a b c st.outlen
      (output, ⟨[], outlen⟩)
  | tail => ([], { st with tailbuf := tail ++ [c] })

theorem taillen_b64Step (st : B64State) (c : UInt8) (h : st.taillen ≤ 2) :
    (b64Step st c).2.taillen ≤ 2 := by
  obtain ⟨tail, outlen⟩ := st
  unfold b64Step B64State.taillen at *
  split
  · simp
  · next hne =>
      have hlt : tail.length ≠ 2 := by
        intro h2
        obtain ⟨a, b, hab⟩ := List.length_eq_two.mp h2
        exact hne a b hab
      simp only at h hlt
      simp only [List.length_append, List.length_singleton]
      omega

/-- Three bytes, read with nothing waiting. -/
theorem through_triple (a b c : UInt8) (src : List UInt8) (outlen : Nat) :
    through b64Step ⟨[], outlen⟩ (a :: b :: c :: src) =
      ((putTriple a b c outlen).1 ++ (through b64Step ⟨[], (putTriple a b c outlen).2⟩ src).1,
        (through b64Step ⟨[], (putTriple a b c outlen).2⟩ src).2) := by
  simp [through_cons, b64Step]

/-- A byte that completes no triple waits. -/
theorem through_wait {tail : List UInt8} (outlen : Nat) {data : List UInt8}
    (h : tail.length + data.length < 3) :
    through b64Step ⟨tail, outlen⟩ data = ([], ⟨tail ++ data, outlen⟩) := by
  induction data generalizing tail with
  | nil => simp
  | cons c data ih =>
      have hstep : b64Step ⟨tail, outlen⟩ c = ([], ⟨tail ++ [c], outlen⟩) := by
        unfold b64Step
        split
        · next heq =>
            simp only at heq
            simp only [heq, List.length_cons, List.length_nil] at h
            omega
        · rfl
      have hlen : (tail ++ [c]).length + data.length < 3 := by simp at h ⊢; omega
      rw [through_cons, hstep, ih hlen]
      simp

theorem length_lt_three {src : List UInt8}
    (h : ∀ (a b c : UInt8) (rest : List UInt8), src = a :: b :: c :: rest → False) :
    src.length < 3 := by
  match src with
  | [] | [_] | [_, _] => simp
  | a :: b :: c :: src => exact absurd rfl (h a b c src)

/-- With nothing waiting, the loop reads as the machine does. -/
theorem putTriples_eq_through (outlen : Nat) (src : List UInt8) :
    putTriples outlen src = through b64Step ⟨[], outlen⟩ src := by
  fun_induction putTriples outlen src with
  | case1 outlen a b c src output outlen' houtput rest st hrest ih =>
      rw [through_triple, houtput, ← ih, hrest]
  | case2 outlen src hshort =>
      have hlen := length_lt_three hshort
      rw [through_wait outlen (by simpa using hlen), List.nil_append]

/-- The machine that waits with some bytes has just read them. -/
theorem through_tailbuf {tail : List UInt8} (h : tail.length < 3) (outlen : Nat)
    (data : List UInt8) :
    through b64Step ⟨tail, outlen⟩ data = through b64Step ⟨[], outlen⟩ (tail ++ data) := by
  have htail : through b64Step ⟨[], outlen⟩ tail = ([], ⟨tail, outlen⟩) := by
    rw [through_wait outlen (by simpa using h), List.nil_append]
  rw [through_append, htail, List.nil_append]

/-- A call reads its bytes as the machine does. -/
theorem fB64Ntop_eq_through (st : B64State) (data : List UInt8) (h : st.taillen ≤ 2) :
    fB64Ntop st data = through b64Step st data := by
  obtain ⟨tail, outlen⟩ := st
  unfold fB64Ntop B64State.taillen at *
  simp only at h ⊢
  by_cases hempty : tail = []
  · subst hempty
    exact putTriples_eq_through outlen data
  · have hpos : 0 < tail.length := List.length_pos_iff.mpr hempty
    simp only [hpos, if_true]
    by_cases hwait : data.length + tail.length < 3
    · rw [through_wait outlen (by omega)]
      simp only [hwait, if_true]
    · rw [through_tailbuf (by omega)]
      simp only [hwait, if_false]
      have hle : tail.length ≤ 3 := by omega
      have htake : (tail ++ data).take 3 = tail ++ data.take (3 - tail.length) := by
        rw [List.take_append, List.take_of_length_le hle]
      have hdrop : (tail ++ data).drop 3 = data.drop (3 - tail.length) := by
        rw [List.drop_append, List.drop_of_length_le hle, List.nil_append]
      rw [← htake, ← hdrop]
      match hall : tail ++ data with
      | a :: b :: c :: src =>
          rw [through_triple, ← putTriples_eq_through]
          rfl
      | [] | [_] | [_, _] =>
          have hlen := congrArg List.length hall
          simp only [List.length_append, List.length_cons, List.length_nil] at hlen
          omega

/-- **However the stream is cut, the encoder writes what it writes in one call.** -/
theorem b64Stream_flatten (pieces : List (List UInt8)) :
    b64Stream pieces = b64Stream [pieces.flatten] := by
  have hcut : ∀ ps, through fB64Ntop fB64NtopInit ps = through b64Step fB64NtopInit ps.flatten :=
    through_calls fB64Ntop_eq_through (fun st c => taillen_b64Step st c) (Nat.zero_le 2)
  unfold b64Stream
  rw [hcut, hcut, List.flatten_singleton]

/-! ## The text -/

theorem base64Char_eq (output : UInt8) : base64Char output = char output.toNat := rfl

theorem toNat_high6 (a : UInt8) : (a >>> 2).toNat = a.toNat / 4 := by
  simp [Nat.shiftRight_eq_div_pow]

theorem toNat_low2_high4 (a b : UInt8) :
    (((a &&& 0x03) <<< 4) + (b >>> 4)).toNat = a.toNat % 4 * 16 + b.toNat / 16 := by
  have hlow : a.toNat &&& 3 = a.toNat % 4 := Nat.and_two_pow_sub_one_eq_mod _ 2
  have hb := b.toNat_lt
  simp [Nat.shiftRight_eq_div_pow, Nat.shiftLeft_eq, hlow]
  omega

theorem toNat_low4_high2 (b c : UInt8) :
    (((b &&& 0x0f) <<< 2) + (c >>> 6)).toNat = b.toNat % 16 * 4 + c.toNat / 64 := by
  have hlow : b.toNat &&& 15 = b.toNat % 16 := Nat.and_two_pow_sub_one_eq_mod _ 4
  have hc := c.toNat_lt
  simp [Nat.shiftRight_eq_div_pow, Nat.shiftLeft_eq, hlow]
  omega

theorem toNat_low6 (c : UInt8) : (c &&& 0x3f).toNat = c.toNat % 64 := by
  have hlow : c.toNat &&& 63 = c.toNat % 64 := Nat.and_two_pow_sub_one_eq_mod _ 6
  simp [hlow]

/-- The four characters of three bytes, and the end of a full line. -/
theorem putTriple_eq (a b c : UInt8) (outlen : Nat) :
    putTriple a b c outlen =
      if 60 ≤ outlen + 4 then (encode [a, b, c] ++ [13, 10], 0)
      else (encode [a, b, c], outlen + 4) := by
  simp only [putTriple, base64Char_eq, toNat_high6, toNat_low2_high4, toNat_low4_high2, toNat_low6,
    encode]

/-- The last group is padded. -/
theorem fB64NtopFini_eq (st : B64State) (h : st.taillen ≤ 2) :
    fB64NtopFini st = encode st.tailbuf := by
  obtain ⟨tail, outlen⟩ := st
  match tail, h with
  | [], _ => rfl
  | [a], _ =>
      have hfini : fB64NtopFini ⟨[a], outlen⟩ = [base64Char (a >>> 2),
          base64Char (((a &&& 0x03) <<< 4) + ((0 : UInt8) >>> 4)), pad64, pad64] := rfl
      rw [hfini, base64Char_eq, base64Char_eq, toNat_high6, toNat_low2_high4]
      rfl
  | [a, b], _ =>
      have hfini : fB64NtopFini ⟨[a, b], outlen⟩ = [base64Char (a >>> 2),
          base64Char (((a &&& 0x03) <<< 4) + (b >>> 4)),
          base64Char (((b &&& 0x0f) <<< 2) + ((0 : UInt8) >>> 6)), pad64] := rfl
      rw [hfini, base64Char_eq, base64Char_eq, base64Char_eq, toNat_high6, toNat_low2_high4,
        toNat_low4_high2]
      rfl

/-- What a call writes for a whole stream, behind a line of `outlen` characters. -/
theorem putTriples_lines {outlen : Nat} (hfour : 4 ∣ outlen) (hopen : outlen < 60)
    {line : List UInt8} (hline : line.length = outlen) (hcr : 13 ∉ line) (src : List UInt8) :
    (lines (line ++ ((putTriples outlen src).1 ++ fB64NtopFini (putTriples outlen src).2))).flatten =
        line ++ encode src ∧
      ∀ l ∈ lines (line ++ ((putTriples outlen src).1 ++ fB64NtopFini (putTriples outlen src).2)),
        l.length ≤ 60 := by
  fun_induction putTriples outlen src generalizing line with
  | case1 outlen a b c src output outlen' houtput rest st hrest ih =>
      have hgroup : encode (a :: b :: c :: src) = encode [a, b, c] ++ encode src := by
        simp [encode]
      have hlen : (line ++ encode [a, b, c]).length = outlen + 4 := by simp [encode, hline]
      have hcr' : 13 ∉ line ++ encode [a, b, c] := by
        rw [List.mem_append, not_or]
        exact ⟨hcr, cr_notMem_encode [a, b, c]⟩
      rw [putTriple_eq] at houtput
      rw [hrest] at ih
      split at houtput
      · next hfull =>
          obtain ⟨rfl, rfl⟩ := Prod.mk.inj houtput
          obtain ⟨htext, hlines⟩ := @ih (by decide) (by decide) [] rfl (by simp)
          have hsplit : line ++ ((encode [a, b, c] ++ [13, 10] ++ rest) ++ fB64NtopFini st) =
              (line ++ encode [a, b, c]) ++ 13 :: 10 :: (rest ++ fB64NtopFini st) := by simp
          simp only [List.nil_append] at htext hlines
          rw [hsplit, lines_append_crlf hcr', List.flatten_cons, htext, hgroup]
          refine ⟨by simp, ?_⟩
          intro l hl
          cases List.mem_cons.mp hl with
          | inl heq =>
              subst heq
              omega
          | inr hmem => exact hlines l hmem
      · next hfull =>
          obtain ⟨rfl, rfl⟩ := Prod.mk.inj houtput
          obtain ⟨htext, hlines⟩ := ih (by omega) (by omega) hlen hcr'
          have hsplit : line ++ ((encode [a, b, c] ++ rest) ++ fB64NtopFini st) =
              (line ++ encode [a, b, c]) ++ (rest ++ fB64NtopFini st) := by simp
          rw [hsplit, htext, hgroup]
          exact ⟨by simp, hlines⟩
  | case2 outlen src hshort =>
      have hlen := length_lt_three hshort
      have hcr' : 13 ∉ line ++ encode src := by
        rw [List.mem_append, not_or]
        exact ⟨hcr, cr_notMem_encode src⟩
      rw [fB64NtopFini_eq ⟨src, outlen⟩ (Nat.le_of_lt_succ hlen), List.nil_append, lines_eq_single hcr']
      refine ⟨by simp, ?_⟩
      intro l hl
      rw [List.mem_singleton] at hl
      subst hl
      have hgroup := length_encode_le (Nat.le_of_lt hlen)
      rw [List.length_append]
      omega

/-- **However a stream is cut, the three functions write the same text as for the
whole stream; it decodes to the stream, and no line has more than 60 characters.** -/
theorem b64Stream_decodes (pieces : List (List UInt8)) :
    b64Stream pieces = b64Stream [pieces.flatten] ∧
      decode (lines (b64Stream pieces)).flatten = some pieces.flatten ∧
      ∀ l ∈ lines (b64Stream pieces), l.length ≤ 60 := by
  have hone : b64Stream [pieces.flatten] = (putTriples 0 pieces.flatten).1 ++
      fB64NtopFini (putTriples 0 pieces.flatten).2 := by
    simp [b64Stream, through_cons, fB64Ntop, B64State.taillen, fB64NtopInit]
  obtain ⟨htext, hlines⟩ := @putTriples_lines 0 (Nat.dvd_zero 4) (by decide) [] rfl
    (by simp) pieces.flatten
  rw [List.nil_append, List.nil_append] at htext
  rw [List.nil_append] at hlines
  rw [b64Stream_flatten pieces, hone, htext, decode_encode]
  exact ⟨rfl, rfl, hlines⟩

end Ytht
