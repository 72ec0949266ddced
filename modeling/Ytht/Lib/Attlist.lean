import Mathlib.Data.List.Basic

/-!
# Lib.Attlist

The attributes of a start tag as text.  `Attributes` reads them from the left: a
blank, a name, and perhaps `=` and a value, which is in quotes or has neither
blanks nor quotes in it.  `Cut` is what a reader takes that begins at the end: a
word without blanks, or what stands between two quotes with the word before it.

The two readings agree on a text put together from cut attributes exactly when
each of them has a proper value (`attributes_iff`): a quote that is left open by
one attribute is never closed by those behind it.
-/

namespace Attlist

/-- The two quotes. -/
def isQuote (c : UInt8) : Bool := c == 34 || c == 39

/-- The bytes that end a value without quotes. -/
def isSpace (c : UInt8) : Bool := c == 32 || c == 9 || c == 10 || c == 12 || c == 13

/-- A value. -/
inductive Value : List UInt8 → Prop
  | plain {v : List UInt8} (hne : v ≠ []) (hv : ∀ c ∈ v, isSpace c = false ∧ isQuote c = false) :
      Value v
  | quoted (q : UInt8) {body : List UInt8} (hq : isQuote q = true) (hbody : q ∉ body) :
      Value (q :: (body ++ [q]))

/-- Attributes whose names are among those of a list. -/
inductive Attributes (listed : List UInt8 → Prop) : List UInt8 → Prop
  | nil : Attributes listed []
  | bare {name rest : List UInt8} (hname : listed name) (hrest : Attributes listed rest) :
      Attributes listed (32 :: (name ++ rest))
  | valued {name v rest : List UInt8} (hname : listed name) (hv : Value v)
      (hrest : Attributes listed rest) : Attributes listed (32 :: (name ++ 61 :: (v ++ rest)))

/-- An attribute that is cut off at the end of a text, behind a blank. -/
inductive Cut : List UInt8 → Prop
  | word {t : List UInt8} (hblank : 32 ∉ t) (hlast : ∀ c, t.getLast? = some c → isQuote c = false) :
      Cut t
  | quoted {w body : List UInt8} (q : UInt8) (hw : 32 ∉ w) (hq : isQuote q = true)
      (hbody : q ∉ body) : Cut (w ++ q :: (body ++ [q]))

/-- The attribute that is left when a text has been cut to its beginning. -/
inductive FirstCut : List UInt8 → Prop
  | cut {t : List UInt8} (h : Cut t) : FirstCut t
  | unopened {t : List UInt8} (q : UInt8) (hq : isQuote q = true) (ht : q ∉ t) : FirstCut (t ++ [q])

/-! ## Lists -/

theorem suffix_concat {a b c : List UInt8} {q : UInt8} (h : b ++ [q] = a ++ c) (hc : c ≠ []) :
    ∃ m, c = m ++ [q] ∧ b = a ++ m := by
  obtain ⟨m, last, rfl⟩ := List.eq_nil_or_concat c |>.resolve_left hc
  rw [List.concat_eq_append, ← List.append_assoc] at h
  obtain ⟨hb, hlast⟩ := List.append_inj' h rfl
  exact ⟨m, by rw [List.concat_eq_append, hlast], hb⟩

/-- What has no mark in it ends before the first one. -/
theorem split_unique {P : UInt8 → Prop} {s s' X Y : List UInt8} (hs : ∀ c ∈ s, ¬ P c)
    (hs' : ∀ c ∈ s', ¬ P c) (hX : ∀ c rest, X = c :: rest → P c)
    (hY : ∀ c rest, Y = c :: rest → P c) (h : s ++ X = s' ++ Y) : s = s' ∧ X = Y := by
  rcases List.append_eq_append_iff.mp h with ⟨a, rfl, hXa⟩ | ⟨a, rfl, hYa⟩
  · cases a with
    | nil => exact ⟨by simp, by simpa using hXa⟩
    | cons c a => exact absurd (hX c _ hXa) (hs' c (by simp))
  · cases a with
    | nil => exact ⟨by simp, by simpa using hYa.symm⟩
    | cons c a => exact absurd (hY c _ hYa) (hs c (by simp))

/-- What has no `q` in it ends before the first one. -/
theorem split_clean {s rest b R : List UInt8} {q : UInt8} (hs : q ∉ s)
    (h : s ++ rest = b ++ q :: R) : ∃ a, b = s ++ a ∧ rest = a ++ q :: R := by
  rcases List.append_eq_append_iff.mp h with ⟨a, hb, hrest⟩ | ⟨c, hsc, hR⟩
  · exact ⟨a, hb, hrest⟩
  · cases c with
    | nil => exact ⟨[], by simpa using hsc.symm, by simpa using hR.symm⟩
    | cons x c =>
        obtain ⟨rfl, -⟩ := List.cons.inj hR
        simp [hsc] at hs

theorem FirstCut.blank_tail {t pre c : List UInt8} (h : FirstCut t) (ht : t = pre ++ 32 :: c) :
    ∃ b q, isQuote q = true ∧ q ∉ b ∧ 32 :: c = b ++ [q] := by
  cases h with
  | unopened q hq hnone =>
      obtain ⟨b, hc, rfl⟩ := suffix_concat ht (List.cons_ne_nil _ _)
      exact ⟨b, q, hq, fun hmem => hnone (List.mem_append_right _ hmem), hc⟩
  | cut h =>
      cases h with
      | word hblank hlast => simp [ht] at hblank
      | quoted q hw hq hbody =>
          obtain ⟨a, rfl, hrest⟩ := split_clean hw ht
          cases a with
          | nil =>
              obtain ⟨rfl, -⟩ := List.cons.inj hrest
              simp [isQuote] at hq
          | cons x a =>
              obtain ⟨-, hrest⟩ := List.cons.inj hrest
              obtain ⟨b, hc, rfl⟩ := suffix_concat hrest (List.cons_ne_nil _ _)
              exact ⟨b, q, hq, fun hmem => hbody (List.mem_append_right _ hmem), hc⟩

theorem Value.blank_tail {v pre c : List UInt8} (h : Value v) (hv : v = pre ++ 32 :: c) :
    ∃ b q, isQuote q = true ∧ q ∉ b ∧ 32 :: c = b ++ [q] := by
  cases h with
  | plain hne hplain =>
      have hblank := (hplain 32 (by simp [hv])).1
      simp [isSpace] at hblank
  | quoted q hq hbody =>
      cases pre with
      | nil =>
          obtain ⟨rfl, -⟩ := List.cons.inj hv
          simp [isQuote] at hq
      | cons x pre =>
          obtain ⟨b, hc, rfl⟩ := suffix_concat (List.cons.inj hv).2 (List.cons_ne_nil _ _)
          exact ⟨b, q, hq, fun hmem => hbody (List.mem_append_right _ hmem), hc⟩

/-- A value ends before an open quote that comes first in it, or one behind that closes it. -/
theorem Value.split {v rest a R : List UInt8} {q : UInt8} (hv : Value v) (hq : isQuote q = true)
    (ha : q ∉ a) (h : v ++ rest = a ++ q :: R) :
    (∃ m, q ∉ m ∧ rest = m ++ q :: R) ∨
      ∃ q' m, isQuote q' = true ∧ q' ∉ m ∧ R = m ++ q' :: rest := by
  cases hv with
  | plain hne hv =>
      have hqv : q ∉ v := fun hmem => by simp [(hv q hmem).2] at hq
      obtain ⟨m, rfl, hrest⟩ := split_clean hqv h
      exact .inl ⟨m, fun hmem => ha (List.mem_append_right _ hmem), hrest⟩
  | @quoted q' body hq' hbody =>
      rw [List.cons_append, List.append_assoc, List.singleton_append] at h
      cases a with
      | nil =>
          obtain ⟨rfl, hR⟩ := List.cons.inj h
          exact .inr ⟨q', body, hq', hbody, hR.symm⟩
      | cons z a =>
          obtain ⟨rfl, hbehind⟩ := List.cons.inj h
          rw [List.mem_cons, not_or] at ha
          rcases List.append_eq_append_iff.mp hbehind with ⟨m, rfl, hm⟩ | ⟨m, rfl, hm⟩
          · cases m with
            | nil => exact absurd (List.cons.inj hm).1.symm ha.1
            | cons w m =>
                exact .inl ⟨m, fun hmem => ha.2 (by simp [hmem]), (List.cons.inj hm).2⟩
          · cases m with
            | nil => exact absurd (List.cons.inj hm).1 ha.1
            | cons w m =>
                exact .inr ⟨q', m, hq', fun hmem => hbody (by simp [hmem]), (List.cons.inj hm).2⟩

/-! ## Quotes left open -/

/-- A quote that was open before the text is not closed in it, or what is behind it does not
read as attributes. -/
def NeverClosed (listed : List UInt8 → Prop) (text : List UInt8) : Prop :=
  ∀ q body rest, isQuote q = true → text = body ++ q :: rest → q ∉ body → ¬ Attributes listed rest

theorem neverClosed_nil (listed : List UInt8 → Prop) : NeverClosed listed [] := by
  simp [NeverClosed]

theorem Attributes.head {listed : List UInt8 → Prop} {text : List UInt8}
    (h : Attributes listed text) {c : UInt8} {rest : List UInt8} (hc : text = c :: rest) :
    c = 32 := by
  cases h with
  | nil => simp at hc
  | bare hname hrest => exact (List.cons.inj hc).1.symm
  | valued hname hv hrest => exact (List.cons.inj hc).1.symm

theorem Attributes.blank_or_equals {listed : List UInt8 → Prop} {text : List UInt8}
    (h : Attributes listed text) (c : UInt8) (rest : List UInt8) (hc : text = c :: rest) :
    c = 32 ∨ c = 61 := .inl (h.head hc)

section names

variable {listed : List UInt8 → Prop}
  (hclean : ∀ name, listed name → ∀ c ∈ name, c ≠ 32 ∧ c ≠ 61 ∧ isQuote c = false)

include hclean

/-- Attributes cannot be read over a quote that no other one follows. -/
theorem NeverClosed.behind {R : List UInt8} (hR : NeverClosed listed R) {q : UInt8}
    (hq : isQuote q = true) {text : List UInt8} (h : Attributes listed text) :
    ∀ {b}, q ∉ b → text ≠ b ++ q :: R := by
  have hname : ∀ name, listed name → q ∉ name := fun name hl hmem => by
    simp [(hclean name hl q hmem).2.2] at hq
  have hblank : 32 ≠ q := by
    rintro rfl
    simp [isQuote] at hq
  have hequals : 61 ≠ q := by
    rintro rfl
    simp [isQuote] at hq
  induction h with
  | nil => simp
  | bare hl hrest ih =>
      intro b hb htext
      cases b with
      | nil => exact hblank (List.cons.inj htext).1
      | cons x b =>
          obtain ⟨a, rfl, hbehind⟩ := split_clean (hname _ hl) (List.cons.inj htext).2
          exact ih (fun hmem => hb (by simp [hmem])) hbehind
  | valued hl hv hrest ih =>
      intro b hb htext
      cases b with
      | nil => exact hblank (List.cons.inj htext).1
      | cons x b =>
          obtain ⟨a, rfl, hbehind⟩ := split_clean (hname _ hl) (List.cons.inj htext).2
          cases a with
          | nil => exact hequals (List.cons.inj hbehind).1
          | cons y a =>
              have ha : q ∉ a := fun hmem => hb (by simp [hmem])
              rcases hv.split hq ha (List.cons.inj hbehind).2 with
                ⟨m, hm, hover⟩ | ⟨q', m, hq', hm, hover⟩
              · exact ih hm hover
              · exact hR q' m _ hq' hover hm hrest

/-- A cut attribute closes no quote that was open before it. -/
theorem NeverClosed.cons {R t : List UInt8} (hR : NeverClosed listed R) (ht : Cut t) :
    NeverClosed listed (32 :: (t ++ R)) := by
  intro q body rest hq htext hbody hrest
  cases body with
  | nil =>
      obtain ⟨rfl, -⟩ := List.cons.inj htext
      simp [isQuote] at hq
  | cons x body =>
      have hnone : q ∉ body := fun hmem => hbody (by simp [hmem])
      rcases List.append_eq_append_iff.mp (List.cons.inj htext).2 with ⟨m, rfl, hm⟩ | ⟨c, rfl, hc⟩
      · exact hR q m rest hq hm (fun hmem => hnone (by simp [hmem])) hrest
      · cases c with
        | nil => exact hR q [] rest hq hc.symm (by simp) hrest
        | cons y c =>
            obtain ⟨rfl, rfl⟩ := List.cons.inj hc
            cases c with
            | nil =>
                generalize hcut : body ++ [q] = t at ht
                cases ht with
                | word hblank hlast =>
                    have hend := hlast q (by simp [← hcut])
                    simp [hend] at hq
                | quoted q' hw hq' hq'body =>
                    rw [← List.cons_append, ← List.append_assoc] at hcut
                    obtain ⟨rfl, hlast⟩ := List.append_inj' hcut rfl
                    obtain ⟨rfl, -⟩ := List.cons.inj hlast
                    simp at hnone
            | cons z c =>
                obtain rfl := hrest.head rfl
                have hcut : body ++ q :: 32 :: c = (body ++ [q]) ++ 32 :: c := by simp
                obtain ⟨b, q', hq', hb, htail⟩ := (FirstCut.cut ht).blank_tail hcut
                have hread : 32 :: c ++ R = b ++ q' :: R := by
                  rw [htail, List.append_assoc, List.singleton_append]
                exact hR.behind hclean hq' hrest hb hread

/-- A name is what stands before a blank, an `=` or the end. -/
theorem name_unique {s s' X Y : List UInt8} (hs : listed s) (hs' : listed s')
    (hX : ∀ c rest, X = c :: rest → c = 32 ∨ c = 61) (hY : ∀ c rest, Y = c :: rest → c = 32 ∨ c = 61)
    (h : s ++ X = s' ++ Y) : s = s' ∧ X = Y :=
  split_unique (P := fun c => c = 32 ∨ c = 61)
    (fun c hc => not_or.mpr ⟨(hclean _ hs c hc).1, (hclean _ hs c hc).2.1⟩)
    (fun c hc => not_or.mpr ⟨(hclean _ hs' c hc).1, (hclean _ hs' c hc).2.1⟩) hX hY h

/-- An attribute without a value that stands first. -/
theorem Attributes.of_bare {s R : List UInt8} (hs : listed s)
    (hR : ∀ c rest, R = c :: rest → c = 32) (h : Attributes listed (32 :: (s ++ R))) :
    Attributes listed R := by
  have hends : ∀ c rest, R = c :: rest → c = 32 ∨ c = 61 := fun c rest hc => .inl (hR c rest hc)
  generalize htext : 32 :: (s ++ R) = text at h
  cases h with
  | nil => simp at htext
  | bare hl hrest =>
      obtain ⟨-, rfl⟩ := name_unique hclean hs hl hends hrest.blank_or_equals (List.cons.inj htext).2
      exact hrest
  | valued hl hv hrest =>
      obtain ⟨-, rfl⟩ := name_unique hclean hs hl hends
        (fun c rest hc => .inr (List.cons.inj hc).1.symm) (List.cons.inj htext).2
      exact absurd (hR 61 _ rfl) (by decide)

/-- An attribute with a value that stands first. -/
theorem Attributes.of_valued {s v R : List UInt8} (hs : listed s) (hcut : FirstCut (s ++ 61 :: v))
    (hR : ∀ c rest, R = c :: rest → c = 32) (hopen : NeverClosed listed R)
    (h : Attributes listed (32 :: (s ++ 61 :: (v ++ R)))) : Value v ∧ Attributes listed R := by
  have hends : ∀ c rest, 61 :: (v ++ R) = c :: rest → c = 32 ∨ c = 61 :=
    fun c rest hc => .inr (List.cons.inj hc).1.symm
  generalize htext : 32 :: (s ++ 61 :: (v ++ R)) = text at h
  cases h with
  | nil => simp at htext
  | bare hl hrest =>
      obtain ⟨-, rfl⟩ := name_unique hclean hs hl hends hrest.blank_or_equals (List.cons.inj htext).2
      exact absurd (hrest.head rfl) (by decide)
  | @valued s' v' rest hl hv hrest =>
      obtain ⟨-, hbehind⟩ := name_unique hclean hs hl hends
        (fun c rest hc => .inr (List.cons.inj hc).1.symm) (List.cons.inj htext).2
      rcases List.append_eq_append_iff.mp (List.cons.inj hbehind).2 with ⟨m, rfl, rfl⟩ | ⟨m, rfl, hm⟩
      · cases m with
        | nil => exact ⟨by simpa using hv, hrest⟩
        | cons c m =>
            obtain rfl := hR c _ rfl
            obtain ⟨b, q, hq, hb, htail⟩ := hv.blank_tail rfl
            have hread : 32 :: m ++ rest = b ++ q :: rest := by
              rw [htail, List.append_assoc, List.singleton_append]
            exact absurd hrest (hopen q b rest hq hread hb)
      · cases m with
        | nil => exact ⟨by simpa using hv, by simpa [hm] using hrest⟩
        | cons c m =>
            obtain rfl := hrest.head hm
            have hblank : s ++ 61 :: (v' ++ 32 :: m) = (s ++ 61 :: v') ++ 32 :: m := by simp
            obtain ⟨b, q, hq, hb, htail⟩ := hcut.blank_tail hblank
            exact absurd (hm.trans (by rw [htail, List.append_assoc, List.singleton_append]))
              (hopen.behind hclean hq hrest hb)

/-! ## Attributes put together -/

/-- The text of an attribute. -/
def attText (a : List UInt8 × Option (List UInt8)) : List UInt8 :=
  a.1 ++ match a.2 with
    | none => []
    | some v => 61 :: v

/-- The text of some attributes. -/
def printed (atts : List (List UInt8 × Option (List UInt8))) : List UInt8 :=
  atts.flatMap fun a => 32 :: attText a

omit hclean in
theorem printed_head (atts : List (List UInt8 × Option (List UInt8))) (c : UInt8)
    (rest : List UInt8) (h : printed atts = c :: rest) : c = 32 := by
  cases atts with
  | nil => simp [printed] at h
  | cons a atts => exact (List.cons.inj h).1.symm

theorem neverClosed_printed {atts : List (List UInt8 × Option (List UInt8))}
    (hcut : ∀ a ∈ atts, Cut (attText a)) : NeverClosed listed (printed atts) := by
  induction atts with
  | nil => exact neverClosed_nil listed
  | cons a atts ih =>
      rw [List.forall_mem_cons] at hcut
      exact (ih hcut.2).cons hclean hcut.1

/-- Cut attributes are read again from the left exactly when their values are values. -/
theorem attributes_iff {atts : List (List UInt8 × Option (List UInt8))}
    (hlisted : ∀ a ∈ atts, listed a.1) (hfirst : ∀ a ∈ atts, FirstCut (attText a))
    (hcut : ∀ a ∈ atts.tail, Cut (attText a)) :
    Attributes listed (printed atts) ↔ ∀ a ∈ atts, ∀ v, a.2 = some v → Value v := by
  induction atts with
  | nil => simp [printed, Attributes.nil]
  | cons a atts ih =>
      obtain ⟨name, val⟩ := a
      rw [List.forall_mem_cons] at hlisted hfirst
      have htail := ih hlisted.2 hfirst.2 fun a ha => hcut a (List.mem_of_mem_tail ha)
      have hopen := neverClosed_printed hclean hcut
      rw [List.forall_mem_cons, ← htail]
      cases val with
      | none =>
          have htext : printed ((name, none) :: atts) = 32 :: (name ++ printed atts) := by
            simp [printed, attText]
          rw [htext]
          exact ⟨fun h => ⟨by simp, h.of_bare hclean hlisted.1 (printed_head atts)⟩,
            fun h => .bare hlisted.1 h.2⟩
      | some v =>
          have htext : printed ((name, some v) :: atts) =
              32 :: (name ++ 61 :: (v ++ printed atts)) := by
            simp [printed, attText]
          rw [htext]
          constructor
          · intro h
            obtain ⟨hv, hrest⟩ :=
              h.of_valued hclean hlisted.1 hfirst.1 (printed_head atts) hopen
            exact ⟨by simpa using hv, hrest⟩
          · intro h
            exact .valued hlisted.1 (h.1 v rfl) h.2

end names

end Attlist
