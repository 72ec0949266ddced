import Mathlib.Tactic.IntervalCases
import Ytht.Attach.Filter

/-!
# Attach.Uucode

The text of a uuencoded attachment: `uuencode.c` and `uudecode.c`.  A line begins with a character
for the number of its bytes, at most 45, and has four characters for three bytes; a line for no
bytes is the last one, and `end` follows.

`uudecode_uuencode` says that the decoder has back what was encoded.  It does not find `end` when
the file was shorter than announced and its last line is full: the encoder tries to read once more
then, and writes two lines for no bytes.  `uudecode_fp` says that it reads as far as `Attach.Filter`
has it.
-/

namespace Ytht.Uucode

/-! ## uuencode -/

/-- `uu_std`: a backquote, and the characters from `!` to `_` -/
def uuStd : List UInt8 := 96 :: (List.range' 33 63).map UInt8.ofNat

/-- `ENC` -/
def enc (ch : UInt8) : UInt8 := uuStd.getD (ch &&& 63).toNat 0

/-- `((a << 4) & 060) | ((b >> 4) & 017)` -/
def second (a b : UInt8) : UInt8 := (a <<< (4 : UInt8) &&& 0x30) ||| (b >>> (4 : UInt8) &&& 0x0f)

/-- `((b << 2) & 074) | ((c >> 6) & 03)` -/
def third (b c : UInt8) : UInt8 := (b <<< (2 : UInt8) &&& 0x3c) ||| (c >>> (6 : UInt8) &&& 0x03)

/-- The loop on three bytes at a time, and what it leaves of the buffer. -/
def triples : List UInt8 → List UInt8 × List UInt8
  | p0 :: p1 :: p2 :: p =>
      let (out, left) := triples p
      (enc (p0 >>> 2) :: enc (second p0 p1) :: enc (third p1 p2) :: enc (p2 &&& 0x3f) :: out, left)
  | p => ([], p)

/-- The characters for the last byte, or the last two. -/
def tail : List UInt8 → List UInt8
  | [] => []
  | [c1] => [enc (c1 >>> 2), enc (second c1 0), enc 0, enc 0]
  | c1 :: c2 :: _ =>
      [enc (c1 >>> 2), enc (second c1 c2), enc (c2 <<< (2 : UInt8) &&& 0x3c), enc 0]

/-- `toread` -/
def toread (left : Nat) : Nat := if 45 < left then 45 else left

/-- `left`, when `n` bytes have been read. -/
def leftBehind (left n : Nat) : Nat := if n < toread left then 0 else left - n

/-- The lines for `left` bytes of a file, which may have less. -/
def encodeLoop : Nat → Nat → List UInt8 → List UInt8
  | 0, _, _ => []
  | fuel + 1, left, fr =>
      if left = 0 then []
      else
        let buf := fr.take (toread left)
        let (out, more) := triples buf
        enc (.ofNat buf.length) :: (out ++
          if more ≠ [] then tail more ++ [10]
          else 10 :: encodeLoop fuel (leftBehind left buf.length) (fr.drop (toread left)))

/-- `end`, with its newline -/
def endLine : List UInt8 := [101, 110, 100, 10]

/-- What `uuencode` writes behind the line with the name. -/
def uuencode (fr : List UInt8) (len : Nat) : List UInt8 :=
  encodeLoop len len fr ++ enc 0 :: 10 :: endLine

/-! ## uudecode -/

/-- `DEC` -/
def dec (ch : UInt8) : UInt8 := (ch - 32) &&& 63

/-- The line that `fgets` reads into `buf`, and the rest. -/
def fgets (fp : List UInt8) : Option (List UInt8 × List UInt8) :=
  if fp = [] then none
  else some (fgetsBuf 16383 fp, fp.drop (fgetsBuf 16383 fp).length)

/-- What has been written to the file, and `wbuf`. -/
structure Out where
  fw : List UInt8
  wbuf : List UInt8

/-- The bytes go to `wbuf`, which is written when there is place for two bytes only. -/
def Out.put (o : Out) (bytes : List UInt8) : Out :=
  if 16384 ≤ (o.wbuf ++ bytes).length then ⟨o.fw ++ (o.wbuf ++ bytes), []⟩
  else ⟨o.fw, o.wbuf ++ bytes⟩

/-- `DEC(p[k])` -/
def decAt (p : List UInt8) (k : Nat) : UInt8 := dec (p.getD k 0)

/-- The loop on a line: `n` bytes, from the characters at `p` on. -/
def decodeLine : Nat → List UInt8 → Out → Out
  | 0, _, o => o
  | 1, p, o => o.put [decAt p 0 <<< 2 ||| decAt p 1 >>> 4]
  | 2, p, o => o.put [decAt p 0 <<< 2 ||| decAt p 1 >>> 4, decAt p 1 <<< 4 ||| decAt p 2 >>> 2]
  | n + 3, p, o =>
      decodeLine n (p.drop 4) (o.put [decAt p 0 <<< 2 ||| decAt p 1 >>> 4,
        decAt p 1 <<< 4 ||| decAt p 2 >>> 2, decAt p 2 <<< 6 ||| decAt p 3])

/-- What `uudecode` returns, the file, and what it has not read. -/
structure Decoded where
  ret : Int
  file : List UInt8
  fp : List UInt8

/-- The loop of `uudecode`, and the line behind it.  `beyond` tells for every line what the buffer
holds behind it. -/
def decodeLoop (beyond : Nat → List UInt8) : Nat → List UInt8 → Out → Decoded
  | 0, fp, o => ⟨-3, o.fw, fp⟩
  | fuel + 1, fp, o =>
      match fgets fp with
      | none => ⟨-3, o.fw, fp⟩
      | some (buf, fp) =>
          let p := buf ++ 0 :: beyond fuel
          let n := (decAt p 0).toNat
          if n = 0 then
            match fgets fp with
            | none => ⟨-4, o.fw ++ o.wbuf, fp⟩
            | some (buf, fp) => ⟨if isEnd buf then 0 else -4, o.fw ++ o.wbuf, fp⟩
          else decodeLoop beyond fuel fp (decodeLine n (p.drop 1) o)

/-- `uudecode`, once it has made the file -/
def uudecode (beyond : Nat → List UInt8) (fp : List UInt8) : Decoded :=
  decodeLoop beyond (fp.length + 1) fp ⟨[], []⟩

/-! ## Characters -/

theorem std_spec : ∀ k < 64, uuStd.getD k 0 ≠ 10 ∧ dec (uuStd.getD k 0) = .ofNat k := by
  decide

theorem and_63_toNat (v : UInt8) : (v &&& 63).toNat = v.toNat % 64 := by
  rw [UInt8.toNat_and]
  exact Nat.and_two_pow_sub_one_eq_mod v.toNat 6

theorem enc_ne (v : UInt8) : enc v ≠ 10 := by
  have hlt : (v &&& 63).toNat < 64 := by rw [and_63_toNat]; omega
  exact (std_spec _ hlt).1

@[simp] theorem dec_enc (v : UInt8) : dec (enc v) = v &&& 63 := by
  have hlt : (v &&& 63).toNat < 64 := by rw [and_63_toNat]; omega
  rw [enc, (std_spec _ hlt).2, UInt8.ofNat_toNat]

section

variable (a b c : UInt8)

theorem first_byte : (a >>> (2 : UInt8) &&& 63) <<< 2 ||| (second a b &&& 63) >>> 4 = a := by
  apply UInt8.eq_of_toBitVec_eq
  apply BitVec.eq_of_getLsbD_eq
  intro i hi
  interval_cases i <;> simp [second]

theorem second_byte : (second a b &&& 63) <<< 4 ||| (third b c &&& 63) >>> 2 = b := by
  apply UInt8.eq_of_toBitVec_eq
  apply BitVec.eq_of_getLsbD_eq
  intro i hi
  interval_cases i <;> simp [second, third]

theorem third_byte : (third b c &&& 63) <<< 6 ||| ((c &&& 0x3f) &&& 63) = c := by
  apply UInt8.eq_of_toBitVec_eq
  apply BitVec.eq_of_getLsbD_eq
  intro i hi
  interval_cases i <;> simp [third]

theorem third_zero : third b 0 = b <<< (2 : UInt8) &&& 0x3c := by
  simp [third]

end

/-! ## Lines -/

/-- The characters for the bytes of a line. -/
def lineText (buf : List UInt8) : List UInt8 := (triples buf).1 ++ tail (triples buf).2

variable {buf : List UInt8} {o : Out}

/-- The loop takes three bytes at a time, and one or two may be left. -/
theorem triples_induct {motive : List UInt8 → Prop} (nil : motive []) (one : ∀ c1, motive [c1])
    (two : ∀ c1 c2, motive [c1, c2])
    (three : ∀ p0 p1 p2 p, motive p → motive (p0 :: p1 :: p2 :: p)) (buf : List UInt8) :
    motive buf := by
  induction buf using triples.induct with
  | case1 p0 p1 p2 p _ _ _ ih => exact three p0 p1 p2 p ih
  | case2 p h =>
      cases p with
      | nil => exact nil
      | cons c1 p =>
          cases p with
          | nil => exact one c1
          | cons c2 p =>
              cases p with
              | nil => exact two c1 c2
              | cons c3 p => exact absurd rfl (h c1 c2 c3 p)

theorem triples_left : (triples buf).2 = [] ↔ buf.length % 3 = 0 := by
  induction buf using triples_induct with
  | three p0 p1 p2 p ih =>
      simp only [triples, ih, List.length_cons]
      omega
  | nil | one _ | two _ _ => simp [triples]

theorem newline_notMem_lineText : 10 ∉ lineText buf := by
  have hne := fun v => (enc_ne v).symm
  induction buf using triples_induct with
  | three p0 p1 p2 p ih =>
      simp only [lineText, triples, List.cons_append, List.mem_cons, not_or]
      exact ⟨hne _, hne _, hne _, hne _, ih⟩
  | nil | one _ | two _ _ => simp [lineText, triples, tail, hne]

theorem length_lineText_le (buf : List UInt8) : (lineText buf).length ≤ 4 * buf.length := by
  induction buf using triples_induct with
  | three p0 p1 p2 p ih =>
      have htext : (lineText (p0 :: p1 :: p2 :: p)).length = (lineText p).length + 4 := rfl
      simp only [htext, List.length_cons]
      omega
  | nil | one _ | two _ _ => simp [lineText, triples, tail]

/-- All that has been decoded. -/
def Out.content (o : Out) : List UInt8 := o.fw ++ o.wbuf

@[simp] theorem content_put (bytes : List UInt8) : (o.put bytes).content = o.content ++ bytes := by
  unfold Out.put
  split <;> simp [Out.content]

/-- There is place for every write to `wbuf`, whose size is 16386. -/
theorem length_put_lt (bytes : List UInt8) : (o.put bytes).wbuf.length < 16384 := by
  unfold Out.put
  split <;> grind

/-- A line gives the bytes it was made of, whatever follows. -/
theorem decodeLine_lineText (rest : List UInt8) :
    (decodeLine buf.length (lineText buf ++ rest) o).content = o.content ++ buf := by
  induction buf using triples_induct generalizing o with
  | three p0 p1 p2 p ih =>
      have htext : lineText (p0 :: p1 :: p2 :: p) = enc (p0 >>> 2) :: enc (second p0 p1) ::
          enc (third p1 p2) :: enc (p2 &&& 0x3f) :: lineText p := rfl
      rw [htext]
      simp only [List.length_cons, decodeLine, List.cons_append, List.drop_succ_cons,
        List.drop_zero, ih, content_put, decAt, List.getD_cons_zero, List.getD_cons_succ, dec_enc,
        first_byte, second_byte, third_byte, List.append_assoc, List.nil_append]
  | nil => simp [decodeLine]
  | one c1 => simp [lineText, triples, tail, decodeLine, decAt, first_byte]
  | two c1 c2 =>
      simp [lineText, triples, tail, decodeLine, decAt, first_byte, ← third_zero, second_byte]

theorem fgetsBuf_line {l : List UInt8} (h : 10 ∉ l) (rest : List UInt8) {room : Nat}
    (hroom : l.length < room) : fgetsBuf room (l ++ 10 :: rest) = l ++ [10] := by
  induction l generalizing room with
  | nil =>
      obtain ⟨room, rfl⟩ := Nat.exists_eq_succ_of_ne_zero (by omega : room ≠ 0)
      simp [fgetsBuf]
  | cons c l ih =>
      obtain ⟨room, rfl⟩ := Nat.exists_eq_succ_of_ne_zero (by omega : room ≠ 0)
      simp only [List.mem_cons, not_or] at h
      rw [List.cons_append, fgetsBuf, if_neg (Ne.symm h.1),
        ih h.2 (by simp only [List.length_cons] at hroom; omega)]
      rfl

theorem fgets_line {l : List UInt8} (h : 10 ∉ l) (hlen : l.length < 16383) (rest : List UInt8) :
    fgets (l ++ 10 :: rest) = some (l ++ [10], rest) := by
  have hdrop : (l ++ 10 :: rest).drop (l ++ [10]).length = rest := by
    rw [show l ++ 10 :: rest = (l ++ [10]) ++ rest by simp, List.drop_left]
  rw [fgets, fgetsBuf_line h rest hlen, hdrop, if_neg (by simp)]

/-! ## The text -/

theorem dec_length {n : Nat} (h : n ≤ 45) : (dec (enc (.ofNat n))).toNat = n := by
  rw [dec_enc, and_63_toNat, UInt8.toNat_ofNat']
  omega

theorem toread_le (left : Nat) : toread left ≤ 45 ∧ toread left ≤ left := by
  unfold toread
  split <;> omega

/-- A line, and the lines behind it: none behind one that is not full. -/
theorem encodeLoop_succ {fuel left : Nat} (hleft : left ≠ 0) (fr : List UInt8) :
    encodeLoop (fuel + 1) left fr =
      enc (.ofNat (fr.take (toread left)).length) :: (lineText (fr.take (toread left)) ++
        10 :: encodeLoop fuel (leftBehind left (fr.take (toread left)).length)
          (fr.drop (toread left))) := by
  rw [encodeLoop, if_neg hleft]
  by_cases hmore : (triples (fr.take (toread left))).2 = []
  · simp [lineText, hmore, tail, -List.length_take]
  · have hmod := mt triples_left.mpr hmore
    have hnone : leftBehind left (fr.take (toread left)).length = 0 := by
      rw [List.length_take] at hmod ⊢
      unfold leftBehind
      unfold toread at hmod ⊢
      split_ifs at hmod ⊢ <;> omega
    have hend : encodeLoop fuel 0 (fr.drop (toread left)) = [] := by
      cases fuel <;> simp [encodeLoop]
    simp [lineText, hmore, hnone, hend, -List.length_take]

variable {beyond : Nat → List UInt8} {fuel : Nat}

/-- The last line, and `end`. -/
theorem decodeLoop_end (more : List UInt8) :
    decodeLoop beyond (fuel + 1) (enc 0 :: 10 :: (endLine ++ more)) o = ⟨0, o.content, more⟩ := by
  have hlast : fgets (enc 0 :: 10 :: (endLine ++ more)) = some ([enc 0, 10], endLine ++ more) :=
    fgets_line (l := [enc 0]) (by simpa using (enc_ne 0).symm) (by simp) _
  have hend : fgets (endLine ++ more) = some (endLine, more) :=
    fgets_line (l := [101, 110, 100]) (by decide) (by decide) more
  have hisEnd : isEnd endLine = true := by decide
  simp [decodeLoop, hlast, hend, decAt, hisEnd, Out.content]

/-- A line for no bytes that is not the last one. -/
theorem decodeLoop_blank (rest : List UInt8) :
    decodeLoop beyond (fuel + 1) (enc 0 :: 10 :: enc 0 :: 10 :: rest) o =
      ⟨-4, o.content, rest⟩ := by
  have hlast : ∀ rest, fgets (enc 0 :: 10 :: rest) = some ([enc 0, 10], rest) :=
    fgets_line (l := [enc 0]) (by simpa using (enc_ne 0).symm) (by simp)
  have hisEnd : isEnd [enc 0, 10] = false := by decide
  simp [decodeLoop, hlast, decAt, hisEnd, Out.content]

/-- A line. -/
theorem decodeLoop_line (beyond : Nat → List UInt8) (fuel : Nat) (o : Out) (hne : buf ≠ [])
    (hlen : buf.length ≤ 45) (rest : List UInt8) :
    ∃ o', o'.content = o.content ++ buf ∧
      decodeLoop beyond (fuel + 1) (enc (.ofNat buf.length) :: (lineText buf ++ 10 :: rest)) o =
        decodeLoop beyond fuel rest o' := by
  have htext := length_lineText_le buf
  have hpos := List.length_pos_iff.mpr hne
  have hline : fgets (enc (.ofNat buf.length) :: (lineText buf ++ 10 :: rest)) =
      some (enc (.ofNat buf.length) :: lineText buf ++ [10], rest) :=
    fgets_line (l := enc (.ofNat buf.length) :: lineText buf)
      (by simpa using ⟨(enc_ne _).symm, newline_notMem_lineText⟩)
      (by simp only [List.length_cons]; omega) rest
  refine ⟨decodeLine buf.length (lineText buf ++ ([10] ++ 0 :: beyond fuel)) o,
    decodeLine_lineText _, ?_⟩
  have hn : (decAt (enc (.ofNat buf.length) :: lineText buf ++ [10] ++ 0 :: beyond fuel) 0).toNat =
      buf.length := dec_length hlen
  rw [decodeLoop, hline]
  simp only [hn]
  rw [if_neg (by omega)]
  simp

/-- The announced length is not there, and the last line is full. -/
def EndsFull (fr : List UInt8) (left : Nat) : Prop := fr.length < left ∧ fr.length % 45 = 0

instance (fr : List UInt8) (left : Nat) : Decidable (EndsFull fr left) :=
  inferInstanceAs (Decidable (_ ∧ _))

section

variable {left : Nat} {fr : List UInt8}

theorem take_append_take :
    fr.take (toread left) ++
      (fr.drop (toread left)).take (leftBehind left (fr.take (toread left)).length) =
        fr.take left := by
  have hread := toread_le left
  rw [List.length_take]
  unfold leftBehind
  split
  · next hshort =>
      rw [List.take_zero, List.append_nil, List.take_of_length_le (by omega),
        List.take_of_length_le (by omega)]
  · next hlong =>
      rw [show min (toread left) fr.length = toread left by omega, ← List.take_add,
        show toread left + (left - toread left) = left by omega]

/-- Lines that are read whole do not matter. -/
theorem endsFull_drop (hne : fr ≠ []) :
    EndsFull (fr.drop (toread left)) (leftBehind left (fr.take (toread left)).length) ↔
      EndsFull fr left := by
  have hpos := List.length_pos_iff.mpr hne
  unfold EndsFull leftBehind toread
  rw [List.length_take, List.length_drop]
  split_ifs <;> omega

end

theorem decodeLoop_encodeLoop {k left : Nat} (hk : left ≤ k) (fr more : List UInt8)
    (hfuel : (encodeLoop k left fr).length < fuel) :
    decodeLoop beyond fuel (encodeLoop k left fr ++ enc 0 :: 10 :: (endLine ++ more)) o =
      ⟨if EndsFull fr left then -4 else 0, o.content ++ fr.take left,
        if EndsFull fr left then endLine ++ more else more⟩ := by
  induction k generalizing left fr fuel o with
  | zero =>
      obtain rfl : left = 0 := by omega
      obtain ⟨fuel, rfl⟩ := Nat.exists_eq_succ_of_ne_zero (by omega : fuel ≠ 0)
      have hfull : ¬ EndsFull fr 0 := fun h => by simpa using h.1
      simp [encodeLoop, decodeLoop_end, hfull]
  | succ k ih =>
      obtain ⟨fuel, rfl⟩ := Nat.exists_eq_succ_of_ne_zero (by omega : fuel ≠ 0)
      by_cases hleft : left = 0
      · subst hleft
        have hfull : ¬ EndsFull fr 0 := fun h => by simpa using h.1
        simp [encodeLoop, decodeLoop_end, hfull]
      · have hread := toread_le left
        rw [encodeLoop_succ hleft] at hfuel ⊢
        by_cases hnil : fr = []
        · subst hnil
          have hfull : EndsFull [] left := ⟨by simp; omega, by simp⟩
          have hpos : 0 < toread left := by unfold toread; split <;> omega
          have hnone : leftBehind left 0 = 0 := by simp [leftBehind, hpos]
          have hend : encodeLoop k 0 [] = [] := by cases k <;> simp [encodeLoop]
          simp [lineText, triples, tail, hnone, hend, decodeLoop_blank, hfull]
        · have htake : fr.take (toread left) ≠ [] := by
            rw [Ne, List.take_eq_nil_iff]
            unfold toread
            split <;> simp [hnil, hleft]
          have hlen : (fr.take (toread left)).length ≤ 45 := by
            rw [List.length_take]
            omega
          have hpos := List.length_pos_iff.mpr htake
          obtain ⟨o', ho', hline⟩ := decodeLoop_line beyond fuel o htake hlen
            (encodeLoop k (leftBehind left (fr.take (toread left)).length)
              (fr.drop (toread left)) ++ enc 0 :: 10 :: (endLine ++ more))
          have hless : leftBehind left (fr.take (toread left)).length ≤ k := by
            unfold leftBehind
            split <;> omega
          simp only [List.length_cons, List.length_append] at hfuel
          simp only [List.cons_append, List.append_assoc]
          rw [hline, ih hless _ (by omega), ho', List.append_assoc, take_append_take]
          simp only [endsFull_drop hnil]

/-- **What is encoded comes back**, as much of it as was announced, whatever follows in the article;
and the decoder has read all of the text, but for the case of two lines for no bytes. -/
theorem uudecode_uuencode (fr : List UInt8) (len : Nat) (more : List UInt8)
    (beyond : Nat → List UInt8) :
    uudecode beyond (uuencode fr len ++ more) =
      ⟨if EndsFull fr len then -4 else 0, fr.take len,
        if EndsFull fr len then endLine ++ more else more⟩ := by
  have htext : uuencode fr len ++ more =
      encodeLoop len len fr ++ enc 0 :: 10 :: (endLine ++ more) := by simp [uuencode]
  rw [uudecode, htext, decodeLoop_encodeLoop (le_refl len) fr more
      (by rw [List.length_append]; omega)]
  simp [Out.content]

example : (uudecode (fun _ => []) (uuencode [] 1)).ret = -4 := by decide

/-! ## How far it reads -/

theorem fgetsLines_eq {size room : Nat} {fp : List UInt8} (hne : fp ≠ []) (hroom : 0 < room) :
    fgetsLines size room fp =
      fgetsBuf room fp :: fgetsLines size size (fp.drop (fgetsBuf room fp).length) := by
  induction fp generalizing room with
  | nil => contradiction
  | cons ch file ih =>
      obtain ⟨room, rfl⟩ := Nat.exists_eq_succ_of_ne_zero hroom.ne'
      rw [fgetsLines, fgetsBuf]
      by_cases hch : ch = 10
      · simp [hch]
      · rw [if_neg hch]
        by_cases hroom : room = 0
        · simp [hroom, fgetsBuf]
        · rw [if_neg (by simp only [hch, false_or]; omega), Nat.succ_sub_one]
          by_cases hfile : file = []
          · subst hfile
            cases room <;> simp [fgetsLines, fgetsBuf]
          · rw [ih hfile (by omega)]
            simp

theorem decodeLoop_fp {fp : List UInt8} (hfuel : fp.length < fuel) :
    (decodeLoop beyond fuel fp o).fp =
      fp.drop (Ytht.uudecode (fgetsLines 16383 16383 fp)) := by
  induction fuel generalizing fp o with
  | zero => omega
  | succ fuel ih =>
      rw [decodeLoop]
      by_cases hnil : fp = []
      · simp [fgets, hnil]
      · obtain ⟨ch, file, rfl⟩ := List.exists_cons_of_ne_nil hnil
        have hread : fgets (ch :: file) = some (fgetsBuf 16383 (ch :: file),
            (ch :: file).drop (fgetsBuf 16383 (ch :: file)).length) := by
          rw [fgets, if_neg hnil]
        have hlines : fgetsLines 16383 16383 (ch :: file) = _ := fgetsLines_eq hnil (by omega)
        obtain ⟨l, hl⟩ : ∃ l, fgetsBuf 16383 (ch :: file) = ch :: l := by
          rw [fgetsBuf]
          split
          · next h10 => exact ⟨[], by rw [h10]⟩
          · exact ⟨_, rfl⟩
        have hn : ∀ rest, decAt (ch :: l ++ rest) 0 = (ch - 32) &&& 63 := fun rest => rfl
        rw [hl] at hread hlines
        rw [hread, hlines, Ytht.uudecode]
        simp only [hn, List.headD_cons]
        by_cases h0 : (ch - 32) &&& 63 = 0
        · have h0' : ((ch - 32) &&& 63).toNat = 0 := by rw [h0]; rfl
          rw [if_pos h0']
          simp only [h0, if_true]
          rw [← List.drop_drop]
          cases hrest : (ch :: file).drop (ch :: l).length with
          | nil => simp [fgets, fgetsLines]
          | cons ch' file' =>
              have hnil' : ch' :: file' ≠ [] := by simp
              rw [fgets, if_neg hnil', fgetsLines_eq hnil' (by omega)]
              rfl
        · have h0' : ¬((ch - 32) &&& 63).toNat = 0 := fun h => h0 (UInt8.toNat_inj.mp h)
          rw [if_neg h0']
          simp only [h0, if_false]
          rw [← List.drop_drop]
          refine ih ?_
          simp only [List.length_drop, List.length_cons] at hfuel ⊢
          omega

/-- The decoder leaves what the readers of an article take for the text behind the attachment. -/
theorem uudecode_fp (beyond : Nat → List UInt8) (fp : List UInt8) :
    (uudecode beyond fp).fp = fp.drop (Ytht.uudecode (fgetsLines 16383 16383 fp)) :=
  decodeLoop_fp (Nat.lt_succ_self _)

end Ytht.Uucode
