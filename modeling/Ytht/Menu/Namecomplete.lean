import Ytht.Lib.Bytes
import Ytht.Lib.Completion

/-!
# Menu.Namecomplete

A name is typed in and completed (`namecomplete`): the text, the place where the next character
goes, their count and the list of candidates are each changed on their own.

`namecomplete_right_iff` says that they stay in step as long as no character is typed behind a text
of `STRLEN - 1` bytes; then `count < STRLEN` lets it in, and `tagbuf` has no room for it.
-/

namespace Ytht

open Bytes Completion

def STRLEN : Nat := 80

/-- A name of the list. -/
abbrev Word := CStr (STRLEN - 1)

/-! ## The lists -/

/-- `chkstr`, for a `tag` in capitals; its `strcpy` is never reached. -/
def chkstr : List UInt8 → List UInt8 → Bool
  | [], _ => true
  | _ :: _, [] => false
  | tag :: tags, ch :: name => tag == toUpper ch && chkstr tags name

/-- `GetSubList`; `none` when the NUL is written behind `tagbuf`. -/
def getSubList (tag : List UInt8) (list : List Word) : Option (List Word) :=
  if tag.length < STRLEN then some (list.filter fun w => chkstr (tag.map toUpper) w.bytes)
  else none

/-- `while (strncasecmp(str, word, len) && len > 0) len--` -/
def commonLen (str word : List UInt8) : Nat → Nat
  | 0 => 0
  | len + 1 => if strncasecmp (len + 1) str word then len + 1 else commonLen str word len

/-- The loop of `MaxCommonStr`. -/
def maxCommonLoop (n : Nat) : List Word → List UInt8 → Nat → List UInt8 × Nat
  | [], str, len => (str, len)
  | w :: list, str, len =>
      if n < len then
        let len := commonLen str w.bytes len
        let str := str.take len
        let str := if w.bytes.length = len then w.bytes else str
        maxCommonLoop n list str len
      else (str, len)

/-- `MaxCommonStr` with the first word apart, and the string. -/
def maxCommonStr (w : Word) (list : List Word) (n : Nat) : List UInt8 × Nat :=
  maxCommonLoop n list w.bytes w.bytes.length

/-! ## namecomplete -/

/-- The variables of `namecomplete`: `data` up to its NUL, and `temp` as an offset in it.  Nothing
reads `data` before the first NUL is written. -/
structure NameInput where
  data : List UInt8
  temp : Nat
  count : Nat
  cwlist : List Word

/-- What a key comes to. -/
inductive NameTurn where
  | returns (data : List UInt8)
  | goesOn (s : NameInput)

def iscntrl (ch : Nat) : Prop := ch < 32 ∨ ch = 127

instance (ch : Nat) : Decidable (iscntrl ch) := inferInstanceAs (Decidable (_ ∨ _))

/-- An empty list gets the empty name. -/
def toplevOf (names : List Word) : List Word :=
  if names = [] then [⟨[], List.not_mem_nil, Nat.zero_le _⟩] else names

/-- Enter. -/
def nameEnter (s : NameInput) : List UInt8 :=
  let data := s.data.take s.temp
  match s.cwlist with
  | [w] => w.bytes
  | list => ((list.find? fun w => strcasecmp data w.bytes).map CStr.bytes).getD []

/-- A blank. -/
def nameBlank (s : NameInput) : Option NameInput :=
  if s.count < 2 then some s
  else
    match s.cwlist with
    | [] => none
    | [w] => some { s with data := w.bytes, temp := w.bytes.length, count := w.bytes.length }
    | w :: list =>
        let (str, len) := maxCommonStr w list s.data.length
        if s.data.length < len then
          (getSubList str s.cwlist).map fun node => ⟨str, str.length, str.length, node⟩
        else some s

/-- Backspace. -/
def nameBackspace (toplev : List Word) (s : NameInput) : Option NameInput :=
  if s.temp = 0 then some s
  else
    let temp := s.temp - 1
    let data := s.data.take temp
    (getSubList data toplev).map fun cwlist => ⟨data, temp, s.count - 1, cwlist⟩

/-- A character; it goes away again when no candidate is left. -/
def nameChar (s : NameInput) (ch : Nat) : Option NameInput :=
  let data := s.data.take s.temp ++ [UInt8.ofNat ch]
  (getSubList data s.cwlist).map fun node =>
    if node = [] then ⟨data.take s.temp, s.temp, s.count, s.cwlist⟩
    else ⟨data, s.temp + 1, s.count + 1, node⟩

/-- One turn of the loop, for a key that is not `EOF`. -/
def nameKey (toplev : List Word) (s : NameInput) (ch : Nat) : Option NameTurn :=
  if ch = 10 ∨ ch = 13 then some (.returns (nameEnter s))
  else if ch = 32 then (nameBlank s).map .goesOn
  else if ch = 127 ∨ ch = 8 then (nameBackspace toplev s).map .goesOn
  else if ch < 255 ∧ s.count < STRLEN ∧ ¬ iscntrl ch then (nameChar s ch).map .goesOn
  else some (.goesOn s)

/-- The loop of `namecomplete`. -/
def nameLoop (toplev : List Word) : List Nat → NameInput → Option NameTurn
  | [], s => some (.goesOn s)
  | ch :: keys, s =>
      (nameKey toplev s ch).bind fun
        | .returns data => some (.returns data)
        | .goesOn s' => nameLoop toplev keys s'

/-- The variables before the loop. -/
def nameStart (toplev : List Word) : Option NameInput :=
  (getSubList [] toplev).map fun cwlist => ⟨[], 0, 0, cwlist⟩

/-- `namecomplete` for the keys so far. -/
def namecomplete (names : List Word) (keys : List Nat) : Option NameTurn :=
  (nameStart (toplevOf names)).bind (nameLoop (toplevOf names) keys)

/-! ## What is promised -/

/-- The names that begin with a text, ignoring case. -/
def matching (names : List Word) (text : List UInt8) : List Word :=
  candidates toLower CStr.bytes names text

/-- The variables belong together. -/
structure NameInput.InStep (toplev : List Word) (s : NameInput) : Prop where
  temp : s.temp = s.data.length
  count : s.count = s.data.length
  cwlist : s.cwlist = matching toplev s.data
  begun : ∃ w ∈ toplev, Begins toLower s.data w.bytes ∧ s.data.length ≤ w.bytes.length

/-- The keys that are put into the text. -/
def IsTyped (ch : Nat) : Prop := 32 < ch ∧ ch < 255 ∧ ch ≠ 127

instance (ch : Nat) : Decidable (IsTyped ch) := inferInstanceAs (Decidable (_ ∧ _))

/-- What a key does that is not Enter. -/
structure KeyRight (toplev : List Word) (s : NameInput) (ch : Nat) (s' : NameInput) : Prop where
  blank : ch = 32 → 2 ≤ s.data.length → Begins toLower s.data s'.data ∧
    Longest toLower (s.cwlist.map CStr.bytes) s'.data ∧ s'.cwlist = s.cwlist
  backspace : ch = 127 ∨ ch = 8 → s'.data = s.data.dropLast
  typed : IsTyped ch → s'.data =
    if matching toplev (s.data ++ [UInt8.ofNat ch]) = [] then s.data
    else s.data ++ [UInt8.ofNat ch]
  other : ¬ (ch = 32 ∨ ch = 127 ∨ ch = 8 ∨ IsTyped ch) → s'.data = s.data

/-- What Enter returns. -/
structure EnterRight (toplev : List Word) (s : NameInput) (data : List UInt8) : Prop where
  only : ∀ w, s.cwlist = [w] → data = w.bytes
  several : s.cwlist.length ≠ 1 → data =
    ((toplev.find? fun w => strcasecmp s.data w.bytes).map CStr.bytes).getD []

/-- Everything is right while these keys are typed. -/
def RunRight (toplev : List Word) : List Nat → NameInput → Prop
  | [], s => s.InStep toplev
  | ch :: keys, s => s.InStep toplev ∧ ∃ turn, nameKey toplev s ch = some turn ∧
      (∀ data, turn = .returns data → EnterRight toplev s data) ∧
      ∀ s', turn = .goesOn s' → KeyRight toplev s ch s' ∧ RunRight toplev keys s'

/-- No character is typed behind a text of `STRLEN - 1` bytes. -/
def FitsRun (toplev : List Word) : List Nat → NameInput → Prop
  | [], _ => True
  | ch :: keys, s => ¬ (IsTyped ch ∧ s.data.length = STRLEN - 1) ∧
      ∀ s', nameKey toplev s ch = some (.goesOn s') → FitsRun toplev keys s'

/-! ## Lists in step -/

theorem toUpper_eq_iff (a b : UInt8) : toUpper a = toUpper b ↔ toLower a = toLower b := by
  unfold toUpper toLower isUpper isLower
  grind

theorem chkstr_iff (t w : List UInt8) :
    chkstr (t.map toUpper) w = true ↔ Begins toLower t w := by
  induction t generalizing w with
  | nil => exact iff_of_true rfl .nil
  | cons a t ih =>
      cases w with
      | nil => simp [chkstr, Begins]
      | cons b w =>
          rw [List.map_cons, chkstr, Bool.and_eq_true, beq_iff_eq, toUpper_eq_iff, ih]
          exact List.cons_prefix_cons.symm

/-- The sublist of a list of candidates. -/
theorem getSubList_matching {names : List Word} {t u : List UInt8} (h : Begins toLower t u)
    (hlen : u.length < STRLEN) : getSubList u (matching names t) = some (matching names u) := by
  rw [getSubList, if_pos hlen, matching, matching, ← candidates_filter h]
  congr 2
  funext w
  rw [Bool.eq_iff_iff, chkstr_iff, decide_eq_true_iff]

theorem matching_nil (names : List Word) : matching names [] = names := candidates_nil

theorem getSubList_toplev (names : List Word) {u : List UInt8} (hlen : u.length < STRLEN) :
    getSubList u names = some (matching names u) := by
  have hsub : getSubList u (matching names []) = some (matching names u) :=
    getSubList_matching .nil hlen
  rwa [matching_nil] at hsub

/-! ## MaxCommonStr -/

theorem strncasecmp_iff {len : Nat} {str word : List UInt8} (hlen : len ≤ str.length) :
    strncasecmp len str word = true ↔ Begins toLower (str.take len) word := by
  have htake : (str.take len).length = len := List.length_take_of_le hlen
  rw [strncasecmp, strcasecmp_iff]
  constructor
  · intro heq
    rw [begins_congr heq]
    exact .of_front (List.take_prefix _ _)
  · intro h
    have heq := h.map_eq_take
    rwa [htake] at heq

theorem commonLen_spec {str word : List UInt8} {len : Nat} (hlen : len ≤ str.length) :
    commonLen str word len ≤ len ∧ Begins toLower (str.take (commonLen str word len)) word ∧
      ∀ j, j ≤ len → Begins toLower (str.take j) word → j ≤ commonLen str word len := by
  induction len with
  | zero => exact ⟨Nat.le_refl 0, .nil, fun j hj _ => hj⟩
  | succ len ih =>
      rw [commonLen]
      split
      · next hsame => exact ⟨Nat.le_refl _, (strncasecmp_iff hlen).mp hsame, fun j hj _ => hj⟩
      · next hdiff =>
        obtain ⟨hle, hbegins, hmax⟩ := ih (by omega)
        refine ⟨by omega, hbegins, fun j hj hj' => ?_⟩
        rcases Nat.lt_or_eq_of_le hj with hlt | rfl
        · exact hmax j (by omega) hj'
        · exact absurd ((strncasecmp_iff hlen).mpr hj') hdiff

/-- The loop keeps a longest text that begins the words it has seen, and stops early when it is
down to the text `t` that is known to begin all of them. -/
theorem maxCommonLoop_spec {t : List UInt8} {all : List (List UInt8)}
    (hall : ∀ w ∈ all, Begins toLower t w) {list : List Word} {words : List (List UInt8)}
    (hwords : words ≠ []) (hsplit : words ++ list.map CStr.bytes = all) {str : List UInt8}
    (hstr : Longest toLower words str) :
    (maxCommonLoop t.length list str str.length).2 =
        (maxCommonLoop t.length list str str.length).1.length ∧
      t.length ≤ (maxCommonLoop t.length list str str.length).2 ∧
      (t.length < (maxCommonLoop t.length list str str.length).2 →
        Longest toLower all (maxCommonLoop t.length list str str.length).1) ∧
      ((maxCommonLoop t.length list str str.length).2 ≤ t.length → Longest toLower all t) := by
  have hsub : ∀ w ∈ words, w ∈ all := fun w hw => hsplit ▸ List.mem_append_left _ hw
  have hle : t.length ≤ str.length := hstr.max t fun w hw => hall w (hsub w hw)
  induction list generalizing words str with
  | nil =>
      rw [List.map_nil, List.append_nil] at hsplit
      subst hsplit
      exact ⟨rfl, hle, fun _ => hstr, fun hshort => hstr.of_length_le hsub hall hshort⟩
  | cons w list ih =>
      rw [maxCommonLoop]
      split
      · next hlt =>
        obtain ⟨hk, hbegins, hmax⟩ := @commonLen_spec str w.bytes _ (Nat.le_refl str.length)
        dsimp only
        generalize commonLen str w.bytes str.length = k at hk hbegins hmax ⊢
        have htake : (str.take k).length = k := List.length_take_of_le hk
        obtain ⟨next, hnext⟩ : ∃ next, (if w.bytes.length = k then w.bytes else str.take k) = next :=
          ⟨_, rfl⟩
        have hlen : next.length = k := by
          rw [← hnext]
          split
          · next heq => exact heq
          · exact htake
        have hmap : next.map toLower = (str.take k).map toLower := by
          rw [← hnext]
          split
          · next heq =>
            have hsame := hbegins.map_eq_take
            rw [htake, ← heq, List.take_length] at hsame
            rw [← heq, hsame]
          · rfl
        have hlong := hstr.concat hwords hk hbegins hmax hmap
        rw [hnext, ← hlen]
        refine ih (by simp) ?_ hlong ?_ ?_
        · rw [← hsplit, List.append_assoc]
          rfl
        · intro v hv
          rw [← hsplit, List.map_cons, List.append_cons]
          exact List.mem_append_left _ hv
        · refine hlong.max t fun v hv => hall v ?_
          rw [← hsplit, List.map_cons, List.append_cons]
          exact List.mem_append_left _ hv
      · next hge =>
        exact ⟨rfl, hle, fun hlt => absurd hlt hge,
          fun hshort => hstr.of_length_le hsub hall hshort⟩

/-- **`MaxCommonStr`** finds a longest common text, or else the text is one already. -/
theorem maxCommonStr_spec {t : List UInt8} {w : Word} {list : List Word}
    (hall : ∀ v ∈ (w :: list).map CStr.bytes, Begins toLower t v) :
    (maxCommonStr w list t.length).2 = (maxCommonStr w list t.length).1.length ∧
      (t.length < (maxCommonStr w list t.length).2 →
        Longest toLower ((w :: list).map CStr.bytes) (maxCommonStr w list t.length).1) ∧
      ((maxCommonStr w list t.length).2 ≤ t.length →
        Longest toLower ((w :: list).map CStr.bytes) t) := by
  obtain ⟨hlen, -, hlong, hshort⟩ := maxCommonLoop_spec hall
    (List.cons_ne_nil w.bytes []) rfl (Longest.singleton w.bytes)
  exact ⟨hlen, hlong, hshort⟩

/-! ## One key -/

namespace NameInput.InStep

variable {toplev : List Word} {s : NameInput} {ch : Nat}

theorem length_lt (h : s.InStep toplev) : s.data.length < STRLEN := by
  obtain ⟨w, -, -, hle⟩ := h.begun
  have hlt := w.le
  unfold STRLEN at hlt ⊢
  omega

theorem cwlist_ne_nil (h : s.InStep toplev) : s.cwlist ≠ [] := by
  obtain ⟨w, hw, hbegins, -⟩ := h.begun
  rw [h.cwlist]
  exact List.ne_nil_of_mem (mem_candidates.mpr ⟨hw, hbegins⟩)

theorem common (h : s.InStep toplev) : ∀ v ∈ s.cwlist.map CStr.bytes, Begins toLower s.data v := by
  intro v hv
  obtain ⟨w, hw, rfl⟩ := List.mem_map.mp hv
  rw [h.cwlist] at hw
  exact (mem_candidates.mp hw).2

/-- The variables for another text that begins a name. -/
theorem of_begins {text : List UInt8} {w : Word} (hw : w ∈ toplev)
    (hbegins : Begins toLower text w.bytes) :
    InStep toplev ⟨text, text.length, text.length, matching toplev text⟩ :=
  ⟨rfl, rfl, rfl, w, hw, hbegins, hbegins.length_le⟩

/-- A longest common text has the same candidates. -/
theorem longest (h : s.InStep toplev) {text : List UInt8} (hbegins : Begins toLower s.data text)
    (hlong : Longest toLower (s.cwlist.map CStr.bytes) text) :
    matching toplev text = s.cwlist ∧ ∃ w ∈ toplev, Begins toLower text w.bytes := by
  have hcommon : ∀ w ∈ s.cwlist, Begins toLower text w.bytes := fun w hw =>
    hlong.common _ (List.mem_map_of_mem hw)
  obtain ⟨w, hw⟩ := List.exists_mem_of_ne_nil _ h.cwlist_ne_nil
  have hword := hcommon w hw
  rw [h.cwlist] at hw hcommon ⊢
  exact ⟨candidates_eq hbegins hcommon, w, (mem_candidates.mp hw).1, hword⟩

theorem enterRight (h : s.InStep toplev) : EnterRight toplev s (nameEnter s) := by
  have htake : s.data.take s.temp = s.data := List.take_of_length_le (Nat.le_of_eq h.temp.symm)
  unfold nameEnter
  rw [htake]
  refine ⟨fun w hw => by rw [hw], fun hlen => ?_⟩
  have hfind : (s.cwlist.find? fun w => strcasecmp s.data w.bytes) =
      toplev.find? fun w => strcasecmp s.data w.bytes := by
    rw [h.cwlist, matching, candidates, List.find?_filter]
    congr 1
    funext w
    rw [Bool.eq_iff_iff, decide_eq_true_iff, decide_eq_true_iff]
    refine and_iff_right_of_imp fun hsame => ?_
    rw [begins_congr (strcasecmp_iff.mp hsame)]
    exact .refl w.bytes
  rw [← hfind]
  split
  · next w hw =>
    rw [hw] at hlen
    exact absurd rfl hlen
  · rfl

/-- **A blank** leaves a longest common text. -/
theorem nameBlank (h : s.InStep toplev) : ∃ s', nameBlank s = some s' ∧ s'.InStep toplev ∧
    s'.cwlist = s.cwlist ∧ (2 ≤ s.data.length → Begins toLower s.data s'.data ∧
      Longest toLower (s.cwlist.map CStr.bytes) s'.data) := by
  unfold Ytht.nameBlank
  rw [h.count]
  split
  · next hshort => exact ⟨s, rfl, h, rfl, fun hlong => absurd hshort (by omega)⟩
  · split
    · next hnil => exact absurd hnil h.cwlist_ne_nil
    · next w hw =>
      have hlong : Longest toLower (s.cwlist.map CStr.bytes) w.bytes := by
        rw [hw]
        exact .singleton w.bytes
      have hbegins := h.common w.bytes (by simp [hw])
      obtain ⟨hsame, v, hv, hv'⟩ := h.longest hbegins hlong
      refine ⟨_, rfl, ?_, rfl, fun _ => ⟨hbegins, hlong⟩⟩
      rw [← hsame]
      exact of_begins hv hv'
    · next w list hne hcons =>
      have hall := h.common
      rw [hcons] at hall
      obtain ⟨hlen, hlonger, hshort⟩ := maxCommonStr_spec hall
      rw [← hcons] at hlonger hshort
      generalize maxCommonStr w list s.data.length = r at hlen hlonger hshort ⊢
      obtain ⟨str, len⟩ := r
      dsimp only at hlen hlonger hshort ⊢
      split
      · next hlt =>
        have hlong := hlonger hlt
        obtain ⟨v, hv⟩ := List.exists_mem_of_ne_nil _ h.cwlist_ne_nil
        have hmem := List.mem_map_of_mem (f := CStr.bytes) hv
        have hbegins : Begins toLower s.data str :=
          (h.common _ hmem).of_length_le (hlong.common _ hmem) (by omega)
        obtain ⟨hsame, w', hw', hword⟩ := h.longest hbegins hlong
        have hin := of_begins hw' hword
        rw [h.cwlist, getSubList_matching hbegins hin.length_lt]
        exact ⟨_, rfl, hin, hsame.trans h.cwlist, fun _ => ⟨hbegins, h.cwlist ▸ hlong⟩⟩
      · next hge => exact ⟨s, rfl, h, rfl, fun _ => ⟨.refl s.data, hshort (by omega)⟩⟩

theorem nameBackspace (h : s.InStep toplev) : ∃ s', nameBackspace toplev s = some s' ∧
    s'.InStep toplev ∧ s'.data = s.data.dropLast := by
  unfold Ytht.nameBackspace
  rw [h.temp]
  split
  · next hzero =>
    refine ⟨s, rfl, h, ?_⟩
    rw [List.length_eq_zero_iff.mp hzero, List.dropLast_nil]
  · next hpos =>
    obtain ⟨w, hw, hbegins, -⟩ := h.begun
    have hdrop : s.data.take (s.data.length - 1) = s.data.dropLast := List.dropLast_eq_take.symm
    have hword : Begins toLower s.data.dropLast w.bytes :=
      (Begins.of_front (List.dropLast_prefix s.data)).trans hbegins
    have hin := of_begins hw hword
    dsimp only
    rw [hdrop, getSubList_toplev toplev hin.length_lt, h.count, ← List.length_dropLast]
    exact ⟨_, rfl, hin, rfl⟩

/-- **A character** that leaves candidates is put behind the text. -/
theorem nameChar (h : s.InStep toplev) (hroom : s.data.length ≠ STRLEN - 1) :
    ∃ s', nameChar s ch = some s' ∧ s'.InStep toplev ∧ s'.data =
      if matching toplev (s.data ++ [UInt8.ofNat ch]) = [] then s.data
      else s.data ++ [UInt8.ofNat ch] := by
  have hlt := h.length_lt
  have htake : s.data.take s.temp = s.data := List.take_of_length_le (Nat.le_of_eq h.temp.symm)
  have hbegins : Begins toLower s.data (s.data ++ [UInt8.ofNat ch]) :=
    .of_front (List.prefix_append _ _)
  have hlen : (s.data ++ [UInt8.ofNat ch]).length < STRLEN := by
    unfold STRLEN at *
    rw [List.length_append, List.length_singleton]
    omega
  unfold Ytht.nameChar
  dsimp only
  rw [htake, h.cwlist, getSubList_matching hbegins hlen]
  dsimp only [Option.map_some]
  refine ⟨_, rfl, ?_⟩
  split
  · next hnil =>
    rw [h.temp, List.take_left, ← h.temp, ← h.cwlist]
    exact ⟨h, rfl⟩
  · next hsome =>
    obtain ⟨w, hw⟩ := List.exists_mem_of_ne_nil _ hsome
    obtain ⟨hmem, hword⟩ := mem_candidates.mp hw
    refine ⟨?_, rfl⟩
    have hin := of_begins hmem hword
    rw [List.length_append, List.length_singleton] at hin
    rwa [h.temp, h.count]

/-- There is no room behind a text of `STRLEN - 1` bytes. -/
theorem nameKey_none (h : s.InStep toplev) (hch : IsTyped ch) (hfull : s.data.length = STRLEN - 1) :
    nameKey toplev s ch = none := by
  have htake : s.data.take s.temp = s.data := List.take_of_length_le (Nat.le_of_eq h.temp.symm)
  obtain ⟨hlo, hhi, hdel⟩ := hch
  have hcntrl : ¬ iscntrl ch := not_or.mpr ⟨by omega, hdel⟩
  have hcount : s.count < STRLEN := h.count ▸ h.length_lt
  unfold nameKey
  rw [if_neg (by omega), if_neg (by omega), if_neg (by omega), if_pos ⟨hhi, hcount, hcntrl⟩]
  unfold Ytht.nameChar
  dsimp only
  rw [htake, getSubList, if_neg]
  · rfl
  · rw [List.length_append, List.length_singleton, hfull]
    decide

/-- **One key** keeps the variables in step. -/
theorem nameKey (h : s.InStep toplev) (hfits : ¬ (IsTyped ch ∧ s.data.length = STRLEN - 1)) :
    ∃ turn, nameKey toplev s ch = some turn ∧
      (∀ data, turn = .returns data → EnterRight toplev s data) ∧
      ∀ s', turn = .goesOn s' → KeyRight toplev s ch s' ∧ s'.InStep toplev := by
  unfold Ytht.nameKey
  split
  · next henter =>
    refine ⟨_, rfl, fun data hdata => ?_, fun s' hs' => by contradiction⟩
    cases hdata
    exact h.enterRight
  · split
    · next hblank =>
      obtain ⟨s', hs', hin, hlist, hlong⟩ := h.nameBlank
      rw [hs']
      refine ⟨_, rfl, fun data hdata => by contradiction, fun t ht => ?_⟩
      cases ht
      refine ⟨⟨fun _ htwo => ?_, fun hother => by omega, fun htyped => ?_, fun hno => by omega⟩, hin⟩
      · obtain ⟨hbegins, hlong⟩ := hlong htwo
        exact ⟨hbegins, hlong, hlist⟩
      · exact absurd htyped.1 (by omega)
    · split
      · next hback =>
        obtain ⟨s', hs', hin, hdrop⟩ := h.nameBackspace
        rw [hs']
        refine ⟨_, rfl, fun data hdata => by contradiction, fun t ht => ?_⟩
        cases ht
        refine ⟨⟨fun hother => by omega, fun _ => hdrop, fun htyped => ?_, fun hno => by omega⟩, hin⟩
        obtain ⟨hlo, -, hdel⟩ := htyped
        omega
      · next hblank hback =>
        split
        · next hchar =>
          have htyped : IsTyped ch := by
            have hcntrl := not_or.mp hchar.2.2
            exact ⟨by omega, hchar.1, by omega⟩
          obtain ⟨s', hs', hin, htext⟩ :=
            @NameInput.InStep.nameChar _ _ ch h fun hfull => hfits ⟨htyped, hfull⟩
          rw [hs']
          refine ⟨_, rfl, fun data hdata => by contradiction, fun t ht => ?_⟩
          cases ht
          exact ⟨⟨fun hother => absurd hother hblank, fun hother => absurd hother hback,
            fun _ => htext, fun hno => absurd htyped fun ht => hno (by simp [ht])⟩, hin⟩
        · next hno =>
          refine ⟨_, rfl, fun data hdata => by contradiction, fun t ht => ?_⟩
          cases ht
          refine ⟨⟨fun hother => absurd hother hblank, fun hother => absurd hother hback,
            fun htyped => ?_, fun _ => rfl⟩, h⟩
          obtain ⟨hlo, hhi, hdel⟩ := htyped
          exact absurd ⟨hhi, h.count ▸ h.length_lt, not_or.mpr ⟨by omega, hdel⟩⟩ hno

end NameInput.InStep

/-! ## All keys -/

theorem runRight_iff {toplev : List Word} (keys : List Nat) {s : NameInput}
    (h : s.InStep toplev) : RunRight toplev keys s ↔ FitsRun toplev keys s := by
  induction keys generalizing s with
  | nil => exact iff_of_true h trivial
  | cons ch keys ih =>
      rw [RunRight, FitsRun]
      constructor
      · rintro ⟨-, turn, hturn, -, hnext⟩
        refine ⟨fun ⟨hch, hfull⟩ => ?_, fun s' hs' => ?_⟩
        · rw [h.nameKey_none hch hfull] at hturn
          contradiction
        · have hfits : ¬ (IsTyped ch ∧ s.data.length = STRLEN - 1) := fun ⟨hch, hfull⟩ => by
            rw [h.nameKey_none hch hfull] at hturn
            contradiction
          obtain ⟨turn', hturn', -, hin⟩ := h.nameKey hfits
          cases hturn.symm.trans hturn'
          cases hturn.symm.trans hs'
          exact (ih (hin s' rfl).2).mp (hnext s' rfl).2
      · rintro ⟨hfits, hnext⟩
        obtain ⟨turn, hturn, henter, hkey⟩ := h.nameKey hfits
        refine ⟨h, turn, hturn, henter, fun s' hs' => ?_⟩
        obtain ⟨hright, hin⟩ := hkey s' hs'
        exact ⟨hright, (ih hin).mpr (hnext s' (hs' ▸ hturn))⟩

theorem toplevOf_ne_nil (names : List Word) : toplevOf names ≠ [] := by
  unfold toplevOf
  split
  · exact List.cons_ne_nil _ _
  · next h => exact h

/-- At the start everything is a candidate. -/
theorem nameStart_eq {toplev : List Word} (hne : toplev ≠ []) :
    nameStart toplev = some ⟨[], 0, 0, toplev⟩ ∧ NameInput.InStep toplev ⟨[], 0, 0, toplev⟩ := by
  obtain ⟨w, hw⟩ := List.exists_mem_of_ne_nil _ hne
  have hin : NameInput.InStep toplev ⟨[], 0, 0, matching toplev []⟩ := .of_begins hw .nil
  rw [matching_nil] at hin
  rw [nameStart, getSubList_toplev toplev (by decide), matching_nil]
  exact ⟨rfl, hin⟩

/-- **Completion works** while no character is typed behind a text of `STRLEN - 1` bytes. -/
theorem namecomplete_right_iff (names : List Word) (keys : List Nat) :
    (∃ s, nameStart (toplevOf names) = some s ∧ RunRight (toplevOf names) keys s) ↔
      ∀ s, nameStart (toplevOf names) = some s → FitsRun (toplevOf names) keys s := by
  obtain ⟨hstart, hin⟩ := nameStart_eq (toplevOf_ne_nil names)
  rw [hstart]
  constructor
  · rintro ⟨s, hs, hright⟩ t ht
    cases hs
    cases ht
    exact (runRight_iff keys hin).mp hright
  · intro hfits
    exact ⟨_, rfl, (runRight_iff keys hin).mpr (hfits _ rfl)⟩

theorem RunRight.loop {toplev : List Word} {keys : List Nat} {s : NameInput}
    (h : RunRight toplev keys s) : nameLoop toplev keys s ≠ none := by
  induction keys generalizing s with
  | nil => exact Option.some_ne_none _
  | cons ch keys ih =>
      obtain ⟨-, turn, hturn, -, hnext⟩ := h
      rw [nameLoop, hturn, Option.bind_some]
      cases turn with
      | returns data => exact Option.some_ne_none _
      | goesOn s' => exact ih (hnext s' rfl).2

/-- `a` as long as a name can be. -/
def longWord : Word where
  bytes := List.replicate (STRLEN - 1) 97
  nz := fun h => absurd (List.eq_of_mem_replicate h) (by decide)
  le := Nat.le_of_eq List.length_replicate

/-- The 80th `a` is a character too many. -/
theorem namecomplete_overruns : ¬ ∃ s, nameStart (toplevOf [longWord]) = some s ∧
    RunRight (toplevOf [longWord]) (List.replicate STRLEN 97) s := by
  rintro ⟨s, hs, hright⟩
  have hnone : namecomplete [longWord] (List.replicate STRLEN 97) = none := by decide +kernel
  rw [namecomplete, hs, Option.bind_some] at hnone
  exact hright.loop hnone

end Ytht
