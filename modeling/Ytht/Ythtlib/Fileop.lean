import Mathlib.Logic.Function.Basic
import Ytht.Ythtlib.Stdio
import Ytht.Ythtlib.Strlib
import Ytht.Ythtlib.Strop

/-!
# Ythtlib.Fileop

A file of settings, a line with a key, a blank and a value for each: `readstrvalue` and
`savestrvalue`.  A setting that is saved goes to the end, and what was behind its old line
moves up (`savestrvalue_fileText`), so that the file is the map of the last values
(`readstrvalue_saves`).
-/

namespace Ytht

open Function

namespace Settings

/-! ## The functions -/

/-- `readstrvalue`; `none` is -1. -/
def readstrvalue (file str : List UInt8) (size : Nat) : Option (List UInt8) :=
  (fgetsLines 511 511 file).findSome? fun buf =>
    let buf := cutAt 0 buf
    if 32 ∈ buf ∧ cutAt 32 buf = str then
      some (cutAt 10 (strsncpy (buf.drop (str.length + 1)) size))
    else none

/-- The loop of `savestrvalue`: `pos` is `ftell(fp)`. -/
def saveLoop (str : List UInt8) :
    Nat → Option Nat → List UInt8 → List (List UInt8) → Option Nat × List UInt8
  | _, place, tmp, [] => (place, tmp)
  | pos, place, tmp, raw :: rest =>
      let buf := cutAt 0 raw
      let pos := pos + raw.length
      if 32 ∉ buf then saveLoop str pos place tmp rest
      else if cutAt 32 buf = str then
        saveLoop str pos (place.or (some (pos - buf.length))) tmp rest
      else saveLoop str pos place (if place = none then tmp else tmp ++ buf) rest

/-- The file before the new line: `tmp` over what is behind `place`, or all of it. -/
def kept (file : List UInt8) : Option Nat × List UInt8 → List UInt8
  | (none, _) => file
  | (some place, tmp) => file.take place ++ tmp

/-- `savestrvalue`: the file after it. -/
def savestrvalue (file str value : List UInt8) : List UInt8 :=
  kept file (saveLoop str 0 none [] (fgetsLines 255 255 file)) ++
    str ++ 32 :: value.take 200 ++ [10]

/-! ## Settings -/

/-- A key and a value as they are saved. -/
structure Setting where
  key : List UInt8
  value : List UInt8
  key_le : key.length ≤ 50
  key_clean : ∀ c ∈ key, c ∉ [0, 10, 32]
  value_le : value.length ≤ 150
  value_clean : ∀ c ∈ value, c ∉ [0, 10]

def Setting.line (s : Setting) : List UInt8 := s.key ++ 32 :: s.value

def fileText (ss : List Setting) : List UInt8 := (ss.map Setting.line).flatMap (· ++ [10])

/-- A file after some calls of `savestrvalue`, none of which fails. -/
def saves (ss : List Setting) : List UInt8 :=
  ss.foldl (fun file s => savestrvalue file s.key s.value) []

/-- The values after some calls. -/
def lastValue (ss : List Setting) : List UInt8 → Option (List UInt8) :=
  ss.foldl (fun m s => update m s.key (some s.value)) fun _ => none

/-! ## One line -/

theorem Setting.no_break (s : Setting) {c : UInt8} (hc : c ∈ s.line) : c ≠ 0 ∧ c ≠ 10 := by
  rcases List.mem_append.mp hc with hc | hc
  · have := s.key_clean c hc
    simp only [List.mem_cons, not_or] at this
    exact ⟨this.1, this.2.1⟩
  · rcases List.mem_cons.mp hc with rfl | hc
    · decide
    · have := s.value_clean c hc
      simp only [List.mem_cons, not_or] at this
      exact ⟨this.1, this.2.1⟩

theorem Setting.length_line (s : Setting) : s.line.length ≤ 201 := by
  have := s.key_le
  have := s.value_le
  rw [line, List.length_append, List.length_cons]
  omega

theorem Setting.cutAt_zero (s : Setting) : cutAt 0 (s.line ++ [10]) = s.line ++ [10] := by
  refine cutAt_of_notMem fun h => ?_
  rcases List.mem_append.mp h with h | h
  · exact (s.no_break h).1 rfl
  · exact absurd h (by decide)

theorem Setting.cutAt_blank (s : Setting) : cutAt 32 (s.line ++ [10]) = s.key := by
  rw [line, List.append_assoc, List.cons_append]
  refine cutAt_append_cons (fun h => ?_) _
  exact s.key_clean 32 h (by decide)

theorem Setting.blank_mem (s : Setting) : 32 ∈ s.line ++ [10] := by
  rw [line]
  simp

theorem fgets_fileText {size : Nat} (hsize : 202 ≤ size) (ss : List Setting) :
    fgetsLines size size (fileText ss) = ss.map fun s => s.line ++ [10] := by
  have hshort : ∀ l ∈ ss.map Setting.line, l.length < size := by
    intro l hl
    obtain ⟨s, -, rfl⟩ := List.mem_map.mp hl
    exact (Nat.lt_succ_of_le s.length_line).trans_le hsize
  have hclean : ∀ l ∈ ss.map Setting.line, 10 ∉ l := by
    intro l hl h10
    obtain ⟨s, -, rfl⟩ := List.mem_map.mp hl
    exact (s.no_break h10).2 rfl
  rw [fileText, fgetsLines_content hshort hclean, List.map_map]
  rfl

theorem fileText_nil : fileText [] = [] := rfl

theorem fileText_cons (s : Setting) (ss : List Setting) :
    fileText (s :: ss) = (s.line ++ [10]) ++ fileText ss := by
  rw [fileText, List.map_cons, List.flatMap_cons]
  rfl

theorem fileText_append (ss ts : List Setting) :
    fileText (ss ++ ts) = fileText ss ++ fileText ts := by
  rw [fileText, List.map_append, List.flatMap_append]
  rfl

/-! ## Reading -/

/-- The value is cut to the size, or its newline is. -/
theorem cutAt_take {value : List UInt8} (h : 10 ∉ value) (n : Nat) :
    cutAt 10 ((value ++ [10]).take n) = value.take n := by
  rcases Nat.lt_or_ge value.length n with hn | hn
  · rw [List.take_of_length_le (by rw [List.length_append, List.length_singleton]; exact hn),
      List.take_of_length_le hn.le]
    exact cutAt_append_cons h []
  · rw [List.take_append_of_le_length hn]
    exact cutAt_of_notMem fun hmem => h (List.mem_of_mem_take hmem)

theorem Setting.strsncpy_value (s : Setting) (size : Nat) :
    cutAt 10 (strsncpy (s.value ++ [10]) size) = s.value.take (size - 1) := by
  have h10 : 10 ∉ s.value := fun h => s.value_clean 10 h (by decide)
  rw [strsncpy, List.takeWhile_eq_self_iff.mpr, cutAt_take h10]
  intro c hc
  rw [decide_eq_true_eq]
  rintro rfl
  rcases List.mem_append.mp (List.mem_of_mem_take hc) with hc | hc
  · exact s.value_clean 0 hc (by decide)
  · exact absurd hc (by decide)

theorem readstrvalue_fileText (ss : List Setting) (str : List UInt8) (size : Nat) :
    readstrvalue (fileText ss) str size =
      (ss.find? fun s => s.key = str).map fun s => s.value.take (size - 1) := by
  rw [readstrvalue, fgets_fileText (by decide)]
  induction ss with
  | nil => rfl
  | cons s ss ih =>
      rw [List.map_cons, List.findSome?_cons]
      simp only [s.cutAt_zero, s.cutAt_blank, s.blank_mem, true_and]
      by_cases hkey : s.key = str
      · have hdrop : (s.line ++ [10]).drop (str.length + 1) = s.value ++ [10] := by
          rw [← hkey, Setting.line, List.append_assoc, List.drop_append, List.cons_append]
          simp
        rw [if_pos hkey, List.find?_cons_of_pos (by simpa using hkey), hdrop, s.strsncpy_value]
        rfl
      · rw [if_neg hkey, List.find?_cons_of_neg (by simpa using hkey)]
        exact ih

/-! ## Saving -/

/-- Behind the old line, all lines but those of the key go to `tmp`. -/
theorem saveLoop_some (str : List UInt8) (place : Nat) (ss : List Setting) :
    ∀ (pos : Nat) (tmp : List UInt8),
      saveLoop str pos (some place) tmp (ss.map fun s => s.line ++ [10]) =
        (some place, tmp ++ fileText (ss.filter fun s => s.key ≠ str)) := by
  induction ss with
  | nil =>
      intro pos tmp
      rw [List.filter_nil, fileText_nil, List.append_nil]
      rfl
  | cons s ss ih =>
      intro pos tmp
      rw [List.map_cons, saveLoop]
      simp only [s.cutAt_zero, s.cutAt_blank, s.blank_mem, not_true_eq_false, if_false]
      by_cases hkey : s.key = str
      · rw [if_pos hkey, Option.some_or, ih, List.filter_cons_of_neg (by simpa using hkey)]
      · rw [if_neg hkey, if_neg (Option.some_ne_none _), ih,
          List.filter_cons_of_pos (by simpa using hkey), fileText_cons, List.append_assoc]

/-- The lines of `pre` have been read, and the key is not in them. -/
theorem kept_saveLoop (str : List UInt8) (ss : List Setting) :
    ∀ pre : List Setting, (∀ s ∈ pre, s.key ≠ str) →
      kept (fileText (pre ++ ss))
          (saveLoop str (fileText pre).length none [] (ss.map fun s => s.line ++ [10])) =
        fileText ((pre ++ ss).filter fun s => s.key ≠ str) := by
  induction ss with
  | nil =>
      intro pre hpre
      rw [List.append_nil, List.filter_eq_self.mpr (by simpa using hpre)]
      rfl
  | cons s ss ih =>
      intro pre hpre
      rw [List.map_cons, saveLoop]
      simp only [s.cutAt_zero, s.cutAt_blank, s.blank_mem, not_true_eq_false, if_false]
      by_cases hkey : s.key = str
      · -- what is before the line stays, the line goes
        have hpre' : pre.filter (fun s => s.key ≠ str) = pre :=
          List.filter_eq_self.mpr (by simpa using hpre)
        rw [if_pos hkey, Option.none_or, Nat.add_sub_cancel, saveLoop_some, kept, List.nil_append,
          fileText_append, List.take_left, List.filter_append, hpre',
          List.filter_cons_of_neg (by simpa using hkey), ← fileText_append]
      · have hlen : (fileText pre).length + (s.line ++ [10]).length =
            (fileText (pre ++ [s])).length := by
          rw [fileText_append, fileText_cons, fileText_nil, List.append_nil, ← List.length_append]
        have hstep := ih (pre ++ [s]) fun t ht => by
          rcases List.mem_append.mp ht with ht | ht
          · exact hpre t ht
          · rwa [List.mem_singleton.mp ht]
        rw [List.append_assoc, List.singleton_append] at hstep
        rwa [if_neg hkey, if_true, hlen]

theorem savestrvalue_fileText (ss : List Setting) (s : Setting) :
    savestrvalue (fileText ss) s.key s.value =
      fileText ((ss.filter fun t => t.key ≠ s.key) ++ [s]) := by
  have hvalue : s.value.take 200 = s.value :=
    List.take_of_length_le (s.value_le.trans (by decide))
  have hkept := kept_saveLoop s.key ss [] fun t ht => absurd ht List.not_mem_nil
  rw [List.nil_append] at hkept
  rw [savestrvalue, fgets_fileText (by decide), hvalue, fileText_append, ← hkept, fileText_cons,
    Setting.line]
  simp [fileText]

/-! ## A run of calls -/

/-- The file holds the last values. -/
def Holds (file : List UInt8) (m : List UInt8 → Option (List UInt8)) : Prop :=
  ∃ ss, file = fileText ss ∧
    ∀ key, (ss.find? fun s => s.key = key).map Setting.value = m key

theorem holds_nil : Holds [] fun _ => none := ⟨[], rfl, fun _ => rfl⟩

theorem holds_savestrvalue {file : List UInt8} {m : List UInt8 → Option (List UInt8)}
    (h : Holds file m) (s : Setting) :
    Holds (savestrvalue file s.key s.value) (update m s.key (some s.value)) := by
  obtain ⟨ss, rfl, hm⟩ := h
  refine ⟨_, savestrvalue_fileText ss s, fun key => ?_⟩
  rw [List.find?_append, List.find?_filter]
  by_cases hkey : key = s.key
  · subst hkey
    rw [update_self, List.find?_eq_none.mpr (by simp), Option.none_or,
      List.find?_cons_of_pos (by simp)]
    rfl
  · have hlast : [s].find? (fun t => t.key = key) = none := by
      rw [List.find?_cons_of_neg (by simpa using Ne.symm hkey), List.find?_nil]
    have hsame : (fun t : Setting => decide (decide (t.key ≠ s.key) = true ∧
        decide (t.key = key) = true)) = fun t => decide (t.key = key) := by
      funext t
      by_cases ht : t.key = key
      · simp [ht, hkey]
      · simp [ht]
    rw [update_of_ne hkey, hlast, Option.or_none, hsame, hm]

theorem holds_saves (ss : List Setting) : Holds (saves ss) (lastValue ss) := by
  rw [saves, lastValue]
  suffices ∀ (ss : List Setting) file m, Holds file m →
      Holds (ss.foldl (fun file s => savestrvalue file s.key s.value) file)
        (ss.foldl (fun m s => update m s.key (some s.value)) m) from
    this ss _ _ holds_nil
  intro ss
  induction ss with
  | nil => exact fun _ _ h => h
  | cons s ss ih => exact fun file m h => ih _ _ (holds_savestrvalue h s)

theorem readstrvalue_holds {file : List UInt8} {m : List UInt8 → Option (List UInt8)}
    (h : Holds file m) (key : List UInt8) (size : Nat) :
    readstrvalue file key size = (m key).map fun value => value.take (size - 1) := by
  obtain ⟨ss, rfl, hm⟩ := h
  rw [readstrvalue_fileText, ← hm, Option.map_map]
  rfl

/-- After any calls, a key has the last value that was saved for it, cut to the reader's size,
or none, and one more call leaves the value of every other key as it was. -/
theorem readstrvalue_saves (ss : List Setting) (key : List UInt8) (size : Nat) :
    readstrvalue (saves ss) key size =
        (lastValue ss key).map (fun value => value.take (size - 1)) ∧
      ∀ s : Setting, s.key ≠ key →
        readstrvalue (savestrvalue (saves ss) s.key s.value) key size =
          readstrvalue (saves ss) key size := by
  have hold := readstrvalue_holds (holds_saves ss) key size
  refine ⟨hold, fun s hkey => ?_⟩
  rw [readstrvalue_holds (holds_savestrvalue (holds_saves ss) s), hold,
    update_of_ne (Ne.symm hkey)]

end Settings

end Ytht
