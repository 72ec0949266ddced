import Mathlib.Data.List.Basic
import Mathlib.Logic.Function.Basic
import Ytht.Lib.Feed
import Ytht.Lib.Gbk

/-!
# Ythtlib.Convcode

The terminal's code conversion of `newconvcode.c`, from GB to Big5 and back.

A lead byte at the end of a piece is held in `gb2big_savec` (`big2gb_savec`) and
put before the next piece.  A machine that looks at one byte at a time makes the
same output and holds the same byte, so the cuts do not show.
-/

namespace Ytht

open Feed Gbk

/-! ## One character -/

/-- `b2gtab` and `g2btab`: a row for each second byte from 0x40 on, a pair of
columns for each first byte. -/
abbrev Convtab := Nat → UInt8 → UInt8

/-- The two bytes that replace a character.  A second byte below 0x40 stays, behind
a question mark. -/
def convPair (tab : Convtab) (s0 s1 : UInt8) : UInt8 × UInt8 :=
  if 0x40 ≤ s1.toNat then
    let n := s0 <<< 1
    (tab (s1.toNat - 0x40) n, tab (s1.toNat - 0x40) (n + 1))
  else (63, s1)

/-- `b2g`. -/
def b2g (b2gtab : Convtab) (s0 s1 : UInt8) : UInt8 × UInt8 := convPair b2gtab s0 s1

/-- `g2b`. -/
def g2b (g2btab : Convtab) (s0 s1 : UInt8) : UInt8 × UInt8 := convPair g2btab s0 s1

/-! ## In place -/

/-- Convert a buffer, character by character.  The number is its last byte when
that is a lead byte with nothing behind it, and 0 otherwise. -/
def convInPlace (pair : UInt8 → UInt8 → UInt8 × UInt8) : List UInt8 → List UInt8 × UInt8
  | [] => ([], 0)
  | [c] => ([c], if highBit c then c else 0)
  | s0 :: s1 :: str =>
      if highBit s0 then
        let (t0, t1) := pair s0 s1
        let (out, c) := convInPlace pair str
        (t0 :: t1 :: out, c)
      else
        let (out, c) := convInPlace pair (s1 :: str)
        (s0 :: out, c)

/-- `sgb2big`. -/
def sgb2big (g2btab : Convtab) (str : List UInt8) : List UInt8 × UInt8 :=
  convInPlace (g2b g2btab) str

/-- `sbig2gb`. -/
def sbig2gb (b2gtab : Convtab) (str : List UInt8) : List UInt8 × UInt8 :=
  convInPlace (b2g b2gtab) str

/-! ## Piece by piece -/

/-- `gb2big_savec` and `big2gb_savec`: a held byte for each direction of the
terminal, 0 for none. -/
abbrev Savec := Fin 2 → UInt8

/-- `conv_init`. -/
def convInit : Savec := fun _ => 0

/-- Convert a piece behind the byte that is held, and hold back the lead byte at
its end. -/
def convPiece (sconv : List UInt8 → List UInt8 × UInt8) (inst : Fin 2) (savec : Savec)
    (s : List UInt8) : List UInt8 × Savec :=
  if s.length = 0 then (s, savec)
  else
    let s := if savec inst ≠ 0 then savec inst :: s else s
    let (out, c) := sconv s
    (if c ≠ 0 then out.dropLast else out, Function.update savec inst c)

/-- `gb2big`. -/
def gb2big (g2btab : Convtab) (inst : Fin 2) (savec : Savec) (s : List UInt8) :
    List UInt8 × Savec :=
  convPiece (sgb2big g2btab) inst savec s

/-- `big2gb`. -/
def big2gb (b2gtab : Convtab) (inst : Fin 2) (savec : Savec) (s : List UInt8) :
    List UInt8 × Savec :=
  convPiece (sbig2gb b2gtab) inst savec s

/-! ## Byte by byte -/

variable {pair : UInt8 → UInt8 → UInt8 × UInt8} {inst : Fin 2} {savec : Savec}

/-- What the conversion does when it sees one byte at a time. -/
def convStep (pair : UInt8 → UInt8 → UInt8 × UInt8) (inst : Fin 2) (savec : Savec) (c : UInt8) :
    List UInt8 × Savec :=
  if savec inst ≠ 0 then
    ([(pair (savec inst) c).1, (pair (savec inst) c).2], Function.update savec inst 0)
  else if highBit c then ([], Function.update savec inst c)
  else ([c], savec)

/-- The held byte is none, or a lead byte. -/
def Savec.Held (savec : Savec) (inst : Fin 2) : Prop := savec inst = 0 ∨ highBit (savec inst)

theorem convStep_held (c : UInt8) (h : savec.Held inst) :
    (convStep pair inst savec c).2.Held inst := by
  unfold convStep Savec.Held
  split
  · left
    simp only [Function.update_self]
  · split
    · right
      simpa only [Function.update_self]
    · exact h

/-- A lead byte, read with nothing held, is held. -/
theorem convStep_lead {c : UInt8} (hs : savec inst = 0) (hc : highBit c) :
    convStep pair inst savec c = ([], Function.update savec inst c) := by
  simp [convStep, hs, hc]

/-- Behind a held byte any byte makes a character. -/
theorem convStep_trail {c d : UInt8} (hs : savec inst = 0) (hc : highBit c) :
    convStep pair inst (Function.update savec inst c) d =
      ([(pair c d).1, (pair c d).2], savec) := by
  have hback : Function.update savec inst 0 = savec := by rw [← hs, Function.update_eq_self]
  simp [convStep, ne_zero_of_highBit hc, hback]

theorem convStep_single {c : UInt8} (hs : savec inst = 0) (hc : ¬ highBit c) :
    convStep pair inst savec c = ([c], savec) := by
  simp [convStep, hs, hc]

/-- The held byte as text. -/
def heldText (c : UInt8) : List UInt8 := if c = 0 then [] else [c]

/-- With nothing held, the machine and the in-place conversion write the same, but
for the byte that the machine ends up holding. -/
theorem through_convStep (hs : savec inst = 0) (str : List UInt8) :
    (convInPlace pair str).1 =
        (through (convStep pair inst) savec str).1 ++ heldText (convInPlace pair str).2 ∧
      (through (convStep pair inst) savec str).2 =
        Function.update savec inst (convInPlace pair str).2 := by
  have hback : Function.update savec inst 0 = savec := by rw [← hs, Function.update_eq_self]
  fun_induction convInPlace pair str with
  | case1 => exact ⟨rfl, hback.symm⟩
  | case2 c =>
      by_cases hc : highBit c
      · simp [through_cons, convStep_lead hs hc, hc, heldText, ne_zero_of_highBit hc]
      · simp [through_cons, convStep_single hs hc, hc, heldText, hback]
  | case3 s0 s1 str hlead t0 t1 hpair out c heq ih =>
      rw [heq] at ih
      rw [through_cons, convStep_lead hs hlead, through_cons, convStep_trail hs hlead, hpair]
      exact ⟨by simpa using ih.1, ih.2⟩
  | case4 s0 s1 str hlead out c heq ih =>
      rw [heq] at ih
      rw [through_cons, convStep_single hs hlead]
      exact ⟨by simpa using ih.1, ih.2⟩

/-- What the in-place conversion leaves in front of the byte to hold. -/
theorem through_convStep_eq (hs : savec inst = 0) (str : List UInt8) :
    through (convStep pair inst) savec str =
      (if (convInPlace pair str).2 ≠ 0 then (convInPlace pair str).1.dropLast
        else (convInPlace pair str).1,
        Function.update savec inst (convInPlace pair str).2) := by
  obtain ⟨htext, hheld⟩ := @through_convStep pair inst savec hs str
  rw [htext, ← hheld]
  by_cases hc : (convInPlace pair str).2 = 0
  · simp [hc, heldText]
  · simp [hc, heldText]

/-- The machine that holds a lead byte has just read it. -/
theorem through_held (hc : highBit (savec inst)) (str : List UInt8) :
    through (convStep pair inst) (Function.update savec inst 0) (savec inst :: str) =
      through (convStep pair inst) savec str := by
  rw [through_cons, convStep_lead (Function.update_self ..) hc, Function.update_idem,
    Function.update_eq_self]
  simp only [List.nil_append]

/-- A piece is converted as the machine converts its bytes. -/
theorem convPiece_eq_through (h : savec.Held inst) (s : List UInt8) :
    convPiece (convInPlace pair) inst savec s = through (convStep pair inst) savec s := by
  cases s with
  | nil => rfl
  | cons a s =>
      unfold convPiece
      cases h with
      | inl h0 =>
          rw [through_convStep_eq h0]
          simp [h0]
      | inr hlead =>
          rw [← through_held hlead, through_convStep_eq (Function.update_self ..)]
          simp [ne_zero_of_highBit hlead]

/-! ## Cutting the stream -/

/-- The stream ends between two characters. -/
def endsOutside : List UInt8 → Bool
  | [] => true
  | [c] => !highBit c
  | s0 :: s1 :: str => if highBit s0 then endsOutside str else endsOutside (s1 :: str)

/-- Only a stream that ends inside a character leaves a byte to hold. -/
theorem convInPlace_snd_of_endsOutside {str : List UInt8} (h : endsOutside str) :
    (convInPlace pair str).2 = 0 := by
  fun_induction convInPlace pair str with
  | case1 => rfl
  | case2 c =>
      have hc : highBit c = false := by simpa [endsOutside] using h
      simp only [hc, Bool.false_eq_true, if_false]
  | case3 s0 s1 str hlead t0 t1 _ out c heq ih =>
      rw [heq] at ih
      rw [endsOutside, if_pos hlead] at h
      exact ih h
  | case4 s0 s1 str hlead out c heq ih =>
      rw [heq] at ih
      rw [endsOutside, if_neg hlead] at h
      exact ih h

/-- The pieces come out as the stream converted at once, with the same byte held. -/
theorem through_convPiece (hs : savec inst = 0) (pieces : List (List UInt8)) :
    through (convPiece (convInPlace pair) inst) savec pieces =
      convPiece (convInPlace pair) inst savec pieces.flatten := by
  have hcall : ∀ t p, Savec.Held t inst →
      convPiece (convInPlace pair) inst t p = through (convStep pair inst) t p :=
    fun t p ht => convPiece_eq_through ht p
  have hkept : ∀ t c, Savec.Held t inst → Savec.Held (convStep pair inst t c).2 inst :=
    fun t c ht => convStep_held c ht
  rw [hcall _ _ (Or.inl hs)]
  exact through_calls hcall hkept (Or.inl hs) pieces

/-- A stream that ends outside a character is converted as in place. -/
theorem convPiece_fst_of_endsOutside (hs : savec inst = 0) {str : List UInt8}
    (h : endsOutside str) :
    (convPiece (convInPlace pair) inst savec str).1 = (convInPlace pair str).1 := by
  rw [convPiece_eq_through (Or.inl hs), through_convStep_eq hs, convInPlace_snd_of_endsOutside h]
  simp only [ne_eq, not_true_eq_false, if_false]

/-- **However a stream is cut, both directions write what they write for the whole
stream and hold the same byte in the end; and a stream that ends outside a
character comes out as from the in-place converter.** -/
theorem conv_pieces (g2btab b2gtab : Convtab) (inst : Fin 2) (savec : Savec)
    (hs : savec inst = 0) (pieces : List (List UInt8)) :
    (through (gb2big g2btab inst) savec pieces = gb2big g2btab inst savec pieces.flatten ∧
      (endsOutside pieces.flatten →
        (through (gb2big g2btab inst) savec pieces).1 = (sgb2big g2btab pieces.flatten).1)) ∧
    (through (big2gb b2gtab inst) savec pieces = big2gb b2gtab inst savec pieces.flatten ∧
      (endsOutside pieces.flatten →
        (through (big2gb b2gtab inst) savec pieces).1 = (sbig2gb b2gtab pieces.flatten).1)) := by
  have hgb : through (gb2big g2btab inst) savec pieces =
      gb2big g2btab inst savec pieces.flatten := through_convPiece hs pieces
  have hbig : through (big2gb b2gtab inst) savec pieces =
      big2gb b2gtab inst savec pieces.flatten := through_convPiece hs pieces
  rw [hgb, hbig]
  exact ⟨⟨rfl, convPiece_fst_of_endsOutside hs⟩, ⟨rfl, convPiece_fst_of_endsOutside hs⟩⟩

/-- A character cut in two between the calls. -/
theorem conv_pieces_cutCharacter :
    (through (gb2big (fun m n => UInt8.ofNat m + n) 0) convInit [[65, 0xB0], [0xA1]]).1 =
        (sgb2big (fun m n => UInt8.ofNat m + n) [65, 0xB0, 0xA1]).1 ∧
      (through (big2gb (fun m n => UInt8.ofNat m + n) 0) convInit [[65, 0xB0], [0xA1]]).1 =
        [65, 0xC1, 0xC2] := by
  obtain ⟨⟨-, hgb⟩, ⟨-, hbig⟩⟩ := conv_pieces (fun m n => UInt8.ofNat m + n)
    (fun m n => UInt8.ofNat m + n) 0 convInit rfl [[65, 0xB0], [0xA1]]
  refine ⟨hgb (by decide), (hbig (by decide)).trans (by decide)⟩

end Ytht
