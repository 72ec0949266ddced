import Ytht.Attach.Append
import Ytht.Lib.Matches
import Ytht.Ythtlib.Stdio
import Ytht.Ythtlib.Strlib

/-!
# Vote.Untrust

The lists of addresses that may not vote: `fileIP` looks for an address in a file, where no digit
may stand before it or behind it.

After an address that does not stand alone it goes on behind it, so that one which begins inside
is not seen, and whether a match ends with the file is asked of the length before the search.
-/

namespace Ytht

open Matches

/-! ## Reading a list -/

/-- What `fileIP` answers, or that it looks at a byte outside the file. -/
inductive Found
  | no
  | yes
  | outside
  deriving DecidableEq

/-- The loop of `fileIP` at a place, where `len` bytes are left; `none` when it does not end. -/
def fileIPLoop (mf ip : List UInt8) : Nat → Nat → Nat → Option Found
  | 0, _, _ => none
  | fuel + 1, ptr, len =>
    if len = 0 then some .no
    else
      match strstr ip ((mf.drop ptr).take len) with
      | none => some .no
      | some i =>
        let next := ptr + i + ip.length
        if ptr + i ≠ 0 ∧ mf[ptr + i - 1]?.any isdigit then
          fileIPLoop mf ip fuel next (mf.length - next)
        else if len ≤ ip.length then some .yes
        else
          match mf[next]? with
          | none => some .outside
          | some ch =>
            if isdigit ch then fileIPLoop mf ip fuel next (mf.length - next) else some .yes

/-- `fileIP`; what can be mapped has a length that is an `int`. -/
def fileIP (file : Option (List UInt8)) (ip : List UInt8) : Option Found :=
  match file.bind mmapfile with
  | none => some .no
  | some mf => fileIPLoop mf ip (mf.length + 1) 0 mf.length

/-- `invalid_voteIP`, of the four files. -/
def invalidVoteIP (ip : List UInt8) : List (Option (List UInt8)) → Option Int
  | [] => some 0
  | file :: files =>
    match fileIP file ip with
    | some .no => invalidVoteIP ip files
    | some .yes => some (-1)
    | _ => none

/-! ## What is asked -/

/-- The address stands alone at a place. -/
def StandsAlone (mf ip : List UInt8) (i : Nat) : Prop :=
  At ip mf i ∧ (i = 0 ∨ mf[i - 1]?.any isdigit = false) ∧ mf[i + ip.length]?.any isdigit = false

/-- The address is in the list. -/
def HasAddress (mf ip : List UInt8) : Prop := ∃ i, StandsAlone mf ip i

/-- A place that is met when the file is read from the left, and behind each match on. -/
def Met (mf ip : List UInt8) (i : Nat) : Prop := ∃ s, Window ip mf s ∧ FirstFrom ip mf s i

/-- `fileIP` answers what is asked, and looks at the file only. -/
def Answers (file ip : List UInt8) : Prop :=
  fileIP (some file) ip = some .yes ∧ HasAddress file ip ∨
    fileIP (some file) ip = some .no ∧ ¬ HasAddress file ip

/-- When the address is in the list, it also stands alone at a place that is met; the first
such place is not the end of the file, unless the search began there. -/
def MetRight (mf ip : List UInt8) : Prop :=
  (HasAddress mf ip → ∃ i, Met mf ip i ∧ StandsAlone mf ip i) ∧
    ∀ s i, Window ip mf s → FirstFrom ip mf s i → StandsAlone mf ip i →
      i + ip.length = mf.length → s < i → ∃ j < i, Met mf ip j ∧ StandsAlone mf ip j

/-! ## The search -/

theorem strstr_eq_some {ip hay : List UInt8} (hip : ip ≠ []) {k : Nat} (h : strstr ip hay = some k) :
    ip <+: hay.drop k ∧ ∀ j < k, ¬ ip <+: hay.drop j := by
  induction hay generalizing k with
  | nil =>
    rw [strstr, if_neg hip] at h
    contradiction
  | cons ch hay ih =>
    rw [strstr] at h
    split at h
    · next hbegins =>
      cases h
      exact ⟨List.isPrefixOf_iff_prefix.mp hbegins, fun j hj => absurd hj (Nat.not_lt_zero j)⟩
    · next hbegins =>
      obtain ⟨k, hk, rfl⟩ := Option.map_eq_some_iff.mp h
      obtain ⟨hat, hfirst⟩ := ih hk
      refine ⟨hat, fun j hj => ?_⟩
      cases j with
      | zero => exact fun hpre => hbegins (List.isPrefixOf_iff_prefix.mpr hpre)
      | succ j => exact hfirst j (by omega)

theorem strstr_eq_none {ip hay : List UInt8} (hip : ip ≠ []) (h : strstr ip hay = none) (j : Nat) :
    ¬ ip <+: hay.drop j := by
  induction hay generalizing j with
  | nil =>
    rw [List.drop_nil, List.prefix_nil]
    exact hip
  | cons ch hay ih =>
    rw [strstr] at h
    split at h
    · contradiction
    · next hbegins =>
      rw [Option.map_eq_none_iff] at h
      cases j with
      | zero => exact fun hpre => hbegins (List.isPrefixOf_iff_prefix.mpr hpre)
      | succ j => exact ih h j

/-- `memmem` finds the first place. -/
theorem firstFrom_of_strstr {mf ip : List UInt8} (hip : ip ≠ []) {s i : Nat}
    (h : strstr ip (mf.drop s) = some i) : FirstFrom ip mf s (s + i) := by
  obtain ⟨hat, hfirst⟩ := strstr_eq_some hip h
  refine ⟨Nat.le_add_right s i, ?_, fun j hj hlt hatj => ?_⟩
  · rwa [At, ← List.drop_drop]
  · obtain ⟨j, rfl⟩ := Nat.exists_eq_add_of_le hj
    rw [At, ← List.drop_drop] at hatj
    exact hfirst j (by omega) hatj

theorem not_at_of_strstr {mf ip : List UInt8} (hip : ip ≠ []) {s : Nat}
    (h : strstr ip (mf.drop s) = none) {i : Nat} (hi : s ≤ i) : ¬ At ip mf i := by
  obtain ⟨j, rfl⟩ := Nat.exists_eq_add_of_le hi
  rw [At, ← List.drop_drop]
  exact strstr_eq_none hip h j

theorem Met.of_window {mf ip : List UInt8} {s i : Nat} (hs : Window ip mf s)
    (hi : FirstFrom ip mf s i) : Met mf ip i :=
  ⟨s, hs, hi⟩

/-- No window before `s` has a match that stands alone. -/
def NoneBefore (mf ip : List UInt8) (s : Nat) : Prop :=
  ∀ t i, Window ip mf t → FirstFrom ip mf t i → t < s → ¬ StandsAlone mf ip i

theorem NoneBefore.next {mf ip : List UInt8} (hip : ip ≠ []) {s i : Nat} (h : NoneBefore mf ip s)
    (hs : Window ip mf s) (hi : FirstFrom ip mf s i) (hnot : ¬ StandsAlone mf ip i) :
    NoneBefore mf ip (i + ip.length) := by
  intro t j ht hj hlt
  rcases Nat.lt_trichotomy t s with hts | rfl | hst
  · exact h t j ht hj hts
  · rwa [hj.unique hi]
  · obtain ⟨i', hi', hle⟩ := hs.firstFrom_of_lt hip ht hst
    rw [hi'.unique hi] at hle
    omega

/-- What is met before the match from `s` does not stand alone either. -/
theorem NoneBefore.of_lt {mf ip : List UInt8} (hip : ip ≠ []) {s i : Nat} (h : NoneBefore mf ip s)
    (hs : Window ip mf s) (hi : FirstFrom ip mf s i) {j : Nat} (hj : Met mf ip j) (hlt : j < i) :
    ¬ StandsAlone mf ip j := by
  obtain ⟨t, ht, htj⟩ := hj
  rcases Nat.lt_trichotomy t s with hts | rfl | hst
  · exact h t j ht htj hts
  · exact absurd (htj.unique hi) (Nat.ne_of_lt hlt)
  · obtain ⟨i', hi', hle⟩ := hs.firstFrom_of_lt hip ht hst
    have heq := hi'.unique hi
    have hge := htj.1
    omega

/-- What the search from a window comes to: nothing that is met stands alone, or the first that
does is found; at the end of the file it is found only when the search began there. -/
def SearchOutcome (mf ip : List UInt8) (r : Option Found) : Prop :=
  (r = some .no ∧ ∀ i, Met mf ip i → ¬ StandsAlone mf ip i) ∨
    ∃ s i, Window ip mf s ∧ FirstFrom ip mf s i ∧ StandsAlone mf ip i ∧
      (∀ j, Met mf ip j → j < i → ¬ StandsAlone mf ip j) ∧
      (r = some .yes ∧ ¬ (i + ip.length = mf.length ∧ s < i) ∨
        r = some .outside ∧ i + ip.length = mf.length ∧ s < i)

/-- **The search.** -/
theorem fileIPLoop_spec {mf ip : List UInt8} (hip : ip ≠ []) {fuel s : Nat}
    (hs : Window ip mf s) (hle : s ≤ mf.length) (hbefore : NoneBefore mf ip s)
    (hfuel : mf.length - s < fuel) :
    SearchOutcome mf ip (fileIPLoop mf ip fuel s (mf.length - s)) := by
  induction fuel generalizing s with
  | zero => omega
  | succ fuel ih =>
    have hall : (mf.drop s).take (mf.length - s) = mf.drop s :=
      List.take_of_length_le (by rw [List.length_drop])
    have hpos := List.length_pos_iff.mpr hip
    have hnone : (∀ i, s ≤ i → ¬ At ip mf i) → ∀ i, Met mf ip i → ¬ StandsAlone mf ip i := by
      intro hnot i ⟨t, ht, hi⟩
      rcases Nat.lt_or_ge t s with hts | hst
      · exact hbefore t i ht hi hts
      · exact absurd hi.2.1 (hnot i (hst.trans hi.1))
    rw [fileIPLoop, hall]
    by_cases hlen : mf.length - s = 0
    · rw [if_pos hlen]
      refine Or.inl ⟨rfl, hnone fun i hi hat => ?_⟩
      have hend := hat.length_le hip
      omega
    · rw [if_neg hlen]
      cases hfind : strstr ip (mf.drop s) with
      | none => exact Or.inl ⟨rfl, hnone fun i hi => not_at_of_strstr hip hfind hi⟩
      | some k =>
        have hfirst := firstFrom_of_strstr hip hfind
        obtain ⟨i, hi⟩ : ∃ i, s + k = i := ⟨_, rfl⟩
        rw [hi] at hfirst
        have hend := hfirst.2.1.length_le hip
        have hsi := hfirst.1
        have hgo : ¬ StandsAlone mf ip i → SearchOutcome mf ip
            (fileIPLoop mf ip fuel (i + ip.length) (mf.length - (i + ip.length))) := fun hnot =>
          ih (hs.next hfirst) hend (hbefore.next hip hs hfirst hnot) (by omega)
        have hfound : ∀ {r}, StandsAlone mf ip i →
            (r = some .yes ∧ ¬ (i + ip.length = mf.length ∧ s < i) ∨
              r = some .outside ∧ i + ip.length = mf.length ∧ s < i) →
            SearchOutcome mf ip r := fun halone hr =>
          Or.inr ⟨s, i, hs, hfirst, halone,
            fun j hj hlt => hbefore.of_lt hip hs hfirst hj hlt, hr⟩
        dsimp only
        rw [hi]
        split_ifs with hdigit hshort
        · refine hgo fun halone => ?_
          rcases halone.2.1 with h0 | hclean
          · exact hdigit.1 h0
          · exact absurd hdigit.2 (by rw [hclean]; exact Bool.false_ne_true)
        · have halone : i = 0 ∨ mf[i - 1]?.any isdigit = false := by
            rwa [not_and_or, not_not, Bool.not_eq_true] at hdigit
          have hnext : mf[i + ip.length]? = none := List.getElem?_eq_none (by omega)
          exact hfound ⟨hfirst.2.1, halone, by rw [hnext]; rfl⟩ (Or.inl ⟨rfl, by omega⟩)
        · have halone : i = 0 ∨ mf[i - 1]?.any isdigit = false := by
            rwa [not_and_or, not_not, Bool.not_eq_true] at hdigit
          cases hnext : mf[i + ip.length]? with
          | none =>
            have hge := List.getElem?_eq_none_iff.mp hnext
            exact hfound ⟨hfirst.2.1, halone, by rw [hnext]; rfl⟩
              (Or.inr ⟨rfl, by omega, by omega⟩)
          | some ch =>
            have hlt := (List.getElem?_eq_some_iff.mp hnext).1
            dsimp only
            split_ifs with hch
            · refine hgo fun hstands => ?_
              rw [StandsAlone, hnext] at hstands
              exact absurd hch (by simpa using hstands.2.2)
            · exact hfound ⟨hfirst.2.1, halone, by simpa [hnext] using hch⟩
                (Or.inl ⟨rfl, by omega⟩)

theorem fileIP_mapped {file : List UInt8} (h : file.length < 2 ^ 31) (ip : List UInt8) :
    fileIP (some file) ip = fileIPLoop file ip (file.length + 1) 0 file.length := by
  rw [fileIP, Option.bind_some, mmapfile, if_pos h]

/-- A file that is too large is taken for none. -/
theorem fileIP_large {file : List UInt8} (h : 2 ^ 31 ≤ file.length) (ip : List UInt8) :
    fileIP (some file) ip = some .no := by
  rw [fileIP, Option.bind_some, mmapfile, if_neg (Nat.not_lt.mpr h)]

/-- A search with such an outcome answers what is asked if what is met is right. -/
theorem SearchOutcome.right_iff {mf ip : List UInt8} (hip : ip ≠ []) {r : Option Found}
    (h : SearchOutcome mf ip r) :
    (r = some .yes ∧ HasAddress mf ip ∨ r = some .no ∧ ¬ HasAddress mf ip) ↔ MetRight mf ip := by
  rcases h with ⟨rfl, hnone⟩ | ⟨s, i, hs, hi, halone, hbefore, hr⟩
  · constructor
    · intro h
      have hnot : ¬ HasAddress mf ip := h.elim (fun h => absurd h.1 (by decide)) And.right
      exact ⟨fun hlisted => absurd hlisted hnot, fun t j ht hj hstands =>
        absurd hstands (hnone j (.of_window ht hj))⟩
    · intro h
      refine Or.inr ⟨rfl, fun hlisted => ?_⟩
      obtain ⟨j, hj, hstands⟩ := h.1 hlisted
      exact hnone j hj hstands
  · have hlisted : HasAddress mf ip := ⟨i, halone⟩
    rcases hr with ⟨rfl, hplace⟩ | ⟨rfl, hend, hlt⟩
    · refine ⟨fun _ => ⟨fun _ => ⟨i, .of_window hs hi, halone⟩, fun t j ht hj hstands hend hlt => ?_⟩,
        fun _ => Or.inl ⟨rfl, hlisted⟩⟩
      rcases Nat.lt_trichotomy i j with hij | rfl | hji
      · exact ⟨i, hij, .of_window hs hi, halone⟩
      · rw [ht.unique hip hs hj hi] at hlt
        exact absurd ⟨hend, hlt⟩ hplace
      · have hle := halone.1.length_le hip
        omega
    · constructor
      · rintro (⟨h, -⟩ | ⟨h, -⟩)
        · contradiction
        · contradiction
      · intro h
        obtain ⟨j, hlt', hj, hstands⟩ := h.2 s i hs hi halone hend hlt
        exact absurd hstands (hbefore j hj hlt')

/-- **An address is looked for rightly**, and in the file only, if and only if the file can be
mapped and what is met is right, or it is too large and the address is not in it. -/
theorem fileIP_answers_iff {ip : List UInt8} (hip : ip ≠ []) (file : List UInt8) :
    Answers file ip ↔ file.length < 2 ^ 31 ∧ MetRight file ip ∨
      2 ^ 31 ≤ file.length ∧ ¬ HasAddress file ip := by
  unfold Answers
  rcases Nat.lt_or_ge file.length (2 ^ 31) with hlt | hge
  · have hspec : SearchOutcome file ip (fileIPLoop file ip (file.length + 1) 0 file.length) :=
      fileIPLoop_spec hip .start (Nat.zero_le _) (fun t _ _ _ ht => absurd ht (Nat.not_lt_zero t))
        (Nat.lt_succ_self _)
    rw [fileIP_mapped hlt, hspec.right_iff hip]
    exact ⟨fun h => Or.inl ⟨hlt, h⟩,
      fun h => h.elim And.right fun hlarge => absurd hlarge.1 (Nat.not_le.mpr hlt)⟩
  · rw [fileIP_large hge]
    constructor
    · intro h
      exact Or.inr ⟨hge, h.elim (fun h => absurd h.1 (by decide)) And.right⟩
    · intro h
      exact Or.inr ⟨rfl, h.elim (fun h => absurd h.1 (Nat.not_lt.mpr hge)) And.right⟩

/-- With four such files, a vote is refused just when the address is in one of them. -/
theorem invalidVoteIP_eq {ip : List UInt8} {files : List (List UInt8)}
    (h : ∀ file ∈ files, Answers file ip) :
    invalidVoteIP ip (files.map some) = some (-1) ∧ (∃ file ∈ files, HasAddress file ip) ∨
      invalidVoteIP ip (files.map some) = some 0 ∧ ∀ file ∈ files, ¬ HasAddress file ip := by
  induction files with
  | nil => exact Or.inr ⟨rfl, fun file hfile => absurd hfile List.not_mem_nil⟩
  | cons file files ih =>
    rw [List.map_cons, invalidVoteIP]
    rcases h file List.mem_cons_self with ⟨hyes, hlisted⟩ | ⟨hno, hnot⟩
    · rw [hyes]
      exact Or.inl ⟨rfl, file, List.mem_cons_self, hlisted⟩
    · rw [hno]
      rcases ih fun f hf => h f (List.mem_cons_of_mem _ hf) with ⟨heq, f, hf, hl⟩ | ⟨heq, hnone⟩
      · exact Or.inl ⟨heq, f, List.mem_cons_of_mem _ hf, hl⟩
      · refine Or.inr ⟨heq, fun f hf => ?_⟩
        rcases List.mem_cons.mp hf with rfl | hmem
        · exact hnot
        · exact hnone f hmem

/-- `1.1.1.1` -/
def oneAddress : List UInt8 := [49, 46, 49, 46, 49, 46, 49]

/-- A line with the address, and an answer that is right. -/
theorem fileIP_answers_line :
    Answers (oneAddress ++ [10]) oneAddress ∧ MetRight (oneAddress ++ [10]) oneAddress := by
  have hanswers : Answers (oneAddress ++ [10]) oneAddress :=
    Or.inl ⟨by decide, 0, by decide, Or.inl rfl, by decide⟩
  refine ⟨hanswers, ?_⟩
  rcases (fileIP_answers_iff (by decide) _).mp hanswers with h | h
  · exact h.2
  · exact absurd h.1 (by decide)

/-- In `11.1.1.1.1` the address that stands alone begins inside one that does not, and behind
`#1.1.1.1` a byte is read that is not there. -/
theorem fileIP_overlap :
    (HasAddress ([49, 49, 46] ++ oneAddress) oneAddress ∧
      fileIP (some ([49, 49, 46] ++ oneAddress)) oneAddress = some .no) ∧
    fileIP (some (35 :: oneAddress)) oneAddress = some .outside :=
  ⟨⟨⟨3, by decide, by decide, by decide⟩, by decide⟩, by decide⟩

end Ytht
