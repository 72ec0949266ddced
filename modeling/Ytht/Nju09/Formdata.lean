import Ytht.Attach.Conn
import Ytht.Ythtlib.Strlib
import Ytht.Ythtlib.Strop

/-!
# Nju09.Formdata

`http_parm_init`: the parameters of a request, from the body, the query string and the
cookies.

The parser of forms walks the buffer of the body with a pointer and a remaining length,
and closes strings in it as it goes.  A step sees the buffer from the pointer on; it is
`none` when it reads or writes behind the end, or searches more bytes than there are.
-/

namespace Ytht

open Bytes

/-! ## Parameters -/

/-- An entry of `parm_name`, `parm_val` and `parm_valfile`. -/
inductive Parm where
  | val (name value : List UInt8)
  | file (name filename content : List UInt8)
  deriving DecidableEq

/-- How a request may end: `http_fatal`, or behind the buffer of `strrtrim`. -/
inductive Stop where
  | fatal
  | overrun
  deriving DecidableEq

/-- `parm_add`, on a value that the caller has cut at its NUL. -/
def parmAdd (table : List Parm) (name value : List UInt8) : Except Stop (List Parm) :=
  if 255 ≤ table.length then .error .fatal else .ok (table ++ [.val (strsncpy name 78) value])

/-- `parm_addfile` -/
def parmAddfile (table : List Parm) (name filename content : List UInt8) :
    Except Stop (List Parm) :=
  if filename = [] then .ok table
  else if 255 ≤ table.length then .error .fatal
  else .ok (table ++ [.file (strsncpy name 78) filename content])

/-- `strtrim` -/
def strtrim (s : List UInt8) : Except Stop (List UInt8) :=
  match strrtrim s with
  | none => .error .overrun
  | some t => .ok (strltrim t)

/-! ## Decoding -/

/-- `__to16` -/
def to16 (c : UInt8) : Nat :=
  if 97 ≤ c ∧ c ≤ 102 then c.toNat - 87
  else if 65 ≤ c ∧ c ≤ 70 then c.toNat - 55
  else if 48 ≤ c ∧ c ≤ 57 then c.toNat - 48
  else 0

/-- The loop of `__unhcode`. -/
def unhcodeLoop : List UInt8 → List UInt8
  | [] => []
  | c :: s =>
    if c = 43 then 32 :: unhcodeLoop s
    else if c = 37 then
      match s with
      | a :: b :: rest => UInt8.ofNat (to16 a * 16 + to16 b) :: unhcodeLoop rest
      | _ => []
    else c :: unhcodeLoop s

theorem unhcodeLoop_plus (s : List UInt8) : unhcodeLoop (43 :: s) = 32 :: unhcodeLoop s := by
  rw [unhcodeLoop.eq_def]
  rfl

theorem unhcodeLoop_other {c : UInt8} (hplus : c ≠ 43) (hpercent : c ≠ 37) (s : List UInt8) :
    unhcodeLoop (c :: s) = c :: unhcodeLoop s := by
  rw [unhcodeLoop.eq_def]
  dsimp only
  rw [if_neg hplus, if_neg hpercent]

/-- What `__unhcode` makes of a string: `%00` ends it. -/
def unhcode (s : List UInt8) : List UInt8 := cutAt 0 (unhcodeLoop s)

/-! ## `parm_init_parsestring` -/

/-- The pieces between the bytes `delim`. -/
def pieces (delim : UInt8) : List UInt8 → List (List UInt8)
  | [] => [[]]
  | c :: buf => if c = delim then [] :: pieces delim buf else (pieces delim buf).modifyHead (c :: ·)

/-- What `strtok` finds, call after call. -/
def tokens (delim : UInt8) (buf : List UInt8) : List (List UInt8) :=
  (pieces delim buf).filter (· ≠ [])

/-- One token of `parm_init_parsestring`. -/
def parseToken (table : List Parm) (token : List UInt8) : Except Stop (List Parm) :=
  if 61 ∈ token then do
    let name := cutAt 61 token
    let trimmed ← strtrim name
    parmAdd table trimmed (unhcode (token.drop (name.length + 1)))
  else .ok table

/-- `parm_init_parsestring` -/
def parmInitParsestring (buf : List UInt8) (delim : UInt8) (table : List Parm) :
    Except Stop (List Parm) :=
  (tokens delim (cutAt 0 buf)).foldlM parseToken table

/-! ## The buffer of a form -/

/-- The bytes before the end of a line. -/
def lineLength : List UInt8 → Option Nat
  | [] => none
  | c :: mem => if c = 0 ∨ c = 13 ∨ c = 10 then some 0 else (lineLength mem).map (· + 1)

/-- `skipLine`, on a place in the buffer and the remaining length. -/
def skipLine (mem : List UInt8) (place : Nat × Int) : Option (Nat × Int) := do
  let n ← lineLength (mem.drop place.1)
  let c ← mem[place.1 + n]?
  let n := if c = 13 then n + 1 else n
  let c ← mem[place.1 + n]?
  let n := if c = 10 then n + 1 else n
  some (place.1 + n, place.2 - n)

/-- The loop over the mime lines. -/
def skipMime : Nat → List UInt8 → Nat × Int → Option (Nat × Int)
  | 0, _, _ => none
  | fuel + 1, mem, place => do
    let c ← mem[place.1]?
    if c = 0 ∨ c = 13 ∨ c = 10 then some place
    else
      let place ← skipLine mem place
      skipMime fuel mem place

/-- `*(mem + i) = 0` -/
def poke (mem : List UInt8) (i : Nat) : Option (List UInt8) :=
  if i < mem.length then some (mem.set i 0) else none

/-- `memmem` in the first `len` bytes. -/
def memmem (mem : List UInt8) (len : Int) (needle : List UInt8) : Option (Option Nat) :=
  if 0 ≤ len ∧ len ≤ mem.length then some (strstr needle (mem.take len.toNat)) else none

/-- `strncasecmp(mem, s, strlen(s)) == 0` -/
def hasPrefixCase : List UInt8 → List UInt8 → Option Bool
  | _, [] => some true
  | [], _ :: _ => none
  | c :: mem, d :: s => if toLower c ≠ toLower d then some false else hasPrefixCase mem s

/-- The content without the end of its last line. -/
def stripLine (content : List UInt8) : List UInt8 :=
  let content := if content.getLast? = some 10 then content.dropLast else content
  if content.getLast? = some 13 then content.dropLast else content

def contentstr : List UInt8 := ascii "Content-Disposition: form-data; name=\""

def filenamestr : List UInt8 := ascii "filename=\""

/-- What follows the last backslash. -/
def baseName (filename : List UInt8) : List UInt8 :=
  match strrchr filename 92 with
  | none => filename
  | some ptr => ptr.drop 1

/-- The name, and the file name if there is one, from the text after `name="`. -/
def parseDisposition (text : List UInt8) : Option (List UInt8 × Option (List UInt8)) :=
  if 34 ∈ text then
    let name := cutAt 34 text
    let rest := (text.drop (name.length + 1)).dropWhile (fun c => !isAlpha c)
    if strncasecmp filenamestr.length rest filenamestr then
      some (name, some (baseName (cutAt 34 (rest.drop filenamestr.length))))
    else some (name, none)
  else none

/-- What the parser finds between two boundaries. -/
structure Segment where
  name : List UInt8
  filename : Option (List UInt8)
  content : List UInt8

/-- The segment is stored. -/
def addSegment (table : List Parm) (seg : Segment) : Except Stop (List Parm) :=
  match seg.filename with
  | some filename => do
    let trimmed ← strtrim filename
    parmAddfile table seg.name trimmed seg.content
  | none => parmAdd table seg.name (unhcode (cutAt 0 seg.content))

/-- The first tests of the loop of `parm_init_parseformdata`, up to the place of the
`Content-Disposition` line. -/
def formHead (boundary mem : List UInt8) (len : Int) : Option (Option (Nat × Int)) := do
  let same ← strncmp boundary.length mem (boundary ++ [0])
  if same then
    let cdline ← skipLine mem (boundary.length, len - boundary.length)
    let c ← mem[cdline.1]?
    if c = 0 then some none
    else
      let last ← strncmp 2 (mem.drop cdline.1) ([45, 45] ++ [0])
      if last then some none
      else
        let found ← hasPrefixCase (mem.drop cdline.1) contentstr
        some (if found then some cdline else none)
  else some none

/-- The rest of a pass: the segment, and the buffer from the next boundary on. -/
def formTail (boundary mem : List UInt8) (cdline : Nat × Int) :
    Option (Option (Segment × List UInt8 × Int)) := do
  let buf ← skipLine mem cdline
  let mem ← poke mem (buf.1 - 1)
  let buf ← skipMime mem.length mem buf
  let buf ← skipLine mem buf
  let found ← memmem (mem.drop buf.1) buf.2 boundary
  match found with
  | none => some none
  | some ptr =>
    let content := stripLine ((mem.drop buf.1).take ptr)
    let mem ← poke mem (buf.1 + content.length)
    let text ← readStr (mem.drop (cdline.1 + contentstr.length))
    some ((parseDisposition text.1).map fun field =>
      (⟨field.1, field.2, content⟩, mem.drop (buf.1 + ptr), buf.2 - ptr))

/-- A pass of the loop of `parm_init_parseformdata`. -/
def formStep (boundary mem : List UInt8) (len : Int) :
    Option (Option (Segment × List UInt8 × Int)) := do
  match ← formHead boundary mem len with
  | none => some none
  | some cdline => formTail boundary mem cdline

/-- `parm_init_parseformdata` -/
def parseFormdata (boundary : List UInt8) : Nat → List UInt8 → Int → List Parm →
    Option (Except Stop (List Parm))
  | 0, _, _, _ => none
  | fuel + 1, mem, len, table => do
    match ← formStep boundary mem len with
    | none => some (.ok table)
    | some (seg, mem, len) =>
      match addSegment table seg with
      | .error stop => some (.error stop)
      | .ok table => parseFormdata boundary fuel mem len table

/-! ## `http_parm_init` -/

/-- What a request hands over.  The server has counted the bytes of the body. -/
structure HttpRequest where
  contentLength : Nat
  stdin : List UInt8
  contentType : List UInt8
  queryString : List UInt8
  cookie : List UInt8

def multipartstr : List UInt8 := ascii "multipart/form-data; boundary="

/-- The body is parsed, by its type. -/
def parseBody (req : HttpRequest) : Option (Except Stop (List Parm)) :=
  let buf := req.stdin.take req.contentLength
  if 5000000 < req.contentLength then some (.error .fatal)
  else if !strncasecmp 30 req.contentType multipartstr then
    some (parmInitParsestring buf 38 [])
  else
    let boundary := [45, 45] ++ strsncpy (req.contentType.drop 30) 1022
    parseFormdata boundary (buf.length + 1) (buf ++ [0]) buf.length []

/-- The query string and the cookies. -/
def parseEnv (req : HttpRequest) (table : List Parm) : Except Stop (List Parm) := do
  let table ← parmInitParsestring (strsncpy req.queryString 1024) 38 table
  parmInitParsestring (strsncpy req.cookie 1024) 59 table

/-- `http_parm_init` -/
def httpParmInit (req : HttpRequest) : Option (Except Stop (List Parm)) :=
  (parseBody req).map fun table => table.bind (parseEnv req)

/-! ## The end of the buffer -/

/-- The buffer ends with a NUL, the place is in it, and `len` is what remains before the
NUL. -/
structure Closed (mem : List UInt8) (place : Nat × Int) : Prop where
  last : mem.getLast? = some 0
  lt : place.1 < mem.length
  len : place.2 + place.1 + 1 = mem.length

/-- A byte that is not the NUL at the end has another one behind it. -/
theorem lt_of_ne_zero {mem : List UInt8} (h : mem.getLast? = some 0) {i : Nat} {c : UInt8}
    (hget : mem[i]? = some c) (hc : c ≠ 0) : i + 1 < mem.length := by
  obtain ⟨hi, -⟩ := List.getElem?_eq_some_iff.mp hget
  rw [List.getLast?_eq_getElem?] at h
  rcases Nat.lt_or_ge (i + 1) mem.length with hlt | hge
  · exact hlt
  · have hlast : i = mem.length - 1 := by omega
    rw [hlast, h] at hget
    exact absurd (Option.some.inj hget).symm hc

theorem getLast?_drop {mem : List UInt8} (h : mem.getLast? = some 0) {i : Nat}
    (hi : i < mem.length) : (mem.drop i).getLast? = some 0 := by
  rw [List.getLast?_drop, if_neg (by omega), h]

theorem zero_mem_drop {mem : List UInt8} (h : mem.getLast? = some 0) {i : Nat}
    (hi : i < mem.length) : 0 ∈ mem.drop i :=
  List.mem_of_getLast? (getLast?_drop h hi)

theorem lineLength_of_mem {l : List UInt8} (h : 0 ∈ l) :
    ∃ n, lineLength l = some n ∧ n < l.length := by
  induction l with
  | nil => simp at h
  | cons c l ih =>
    rw [lineLength]
    split
    · exact ⟨0, rfl, by simp⟩
    · rename_i hc
      rw [List.mem_cons] at h
      obtain rfl | hmem := h
      · simp at hc
      · obtain ⟨n, hn, hlt⟩ := ih hmem
        exact ⟨n + 1, by rw [hn]; rfl, by simpa using hlt⟩

/-- **`skipLine`** stays in the buffer, in step with `len`, and passes a byte of a line. -/
theorem skipLine_closed {mem : List UInt8} {place : Nat × Int} (h : Closed mem place) :
    ∃ next, skipLine mem place = some next ∧ Closed mem next ∧ place.1 ≤ next.1 ∧
      ∀ c, mem[place.1]? = some c → ¬(c = 0 ∨ c = 13 ∨ c = 10) → place.1 < next.1 := by
  obtain ⟨hlast, hlt, hlen⟩ := h
  obtain ⟨n, hn, hnlt⟩ := lineLength_of_mem (zero_mem_drop hlast hlt)
  rw [List.length_drop] at hnlt
  have hget (i : Nat) (hi : i < mem.length) : ∃ c, mem[i]? = some c :=
    ⟨mem[i], List.getElem?_eq_getElem hi⟩
  -- each of the two ends of a line is passed only where another byte follows
  have hpass (k : Nat) (hk : place.1 + k < mem.length) (e : UInt8) (he : e ≠ 0) :
      ∃ c k', mem[place.1 + k]? = some c ∧ (if c = e then k + 1 else k) = k' ∧
        place.1 + k' < mem.length ∧ k ≤ k' := by
    obtain ⟨c, hc⟩ := hget _ hk
    refine ⟨c, _, hc, rfl, ?_⟩
    split
    · rename_i heq
      have hmore := lt_of_ne_zero hlast hc (heq ▸ he)
      omega
    · omega
  obtain ⟨c, k, hc, hk, hklt, hkle⟩ := hpass n (by omega) 13 (by decide)
  obtain ⟨d, m, hd, hm, hmlt, hmle⟩ := hpass k hklt 10 (by decide)
  refine ⟨(place.1 + m, place.2 - m), ?_, ⟨hlast, hmlt, ?_⟩, Nat.le_add_right _ _, ?_⟩
  · rw [skipLine, hn]
    dsimp only [Option.bind_eq_bind, Option.bind_some]
    rw [hc]
    dsimp only [Option.bind_some]
    rw [hk, hd]
    dsimp only [Option.bind_some]
    rw [hm]
  · dsimp only
    omega
  · intro a ha hline
    have hpos : 0 < n := by
      rw [List.drop_eq_getElem_cons hlt, lineLength] at hn
      rw [List.getElem?_eq_getElem hlt, Option.some.injEq] at ha
      rw [ha, if_neg hline] at hn
      obtain ⟨m, -, rfl⟩ := Option.map_eq_some_iff.mp hn
      omega
    dsimp only
    omega

/-- **The mime lines** are passed. -/
theorem skipMime_closed {mem : List UInt8} {place : Nat × Int} (h : Closed mem place)
    {fuel : Nat} (hfuel : mem.length - place.1 ≤ fuel) :
    ∃ next, skipMime fuel mem place = some next ∧ Closed mem next ∧ place.1 ≤ next.1 := by
  induction fuel generalizing place with
  | zero =>
    have hlt := h.lt
    omega
  | succ fuel ih =>
    rw [skipMime, List.getElem?_eq_getElem h.lt]
    dsimp only [Option.bind_eq_bind, Option.bind_some]
    split
    · exact ⟨place, rfl, h, Nat.le_refl _⟩
    · rename_i hc
      obtain ⟨next, hnext, hclosed, hle, hpass⟩ := skipLine_closed h
      have hlt := hpass _ (List.getElem?_eq_getElem h.lt) hc
      obtain ⟨last, hlast, hclosed', hle'⟩ := ih hclosed (by omega)
      rw [hnext]
      exact ⟨last, hlast, hclosed', by omega⟩

theorem poke_closed {mem : List UInt8} {place : Nat × Int} (h : Closed mem place) {i : Nat}
    (hi : i < mem.length) : poke mem i = some (mem.set i 0) ∧ Closed (mem.set i 0) place := by
  rw [poke, if_pos hi]
  obtain ⟨hlast, hlt, hlen⟩ := h
  refine ⟨rfl, ?_, by rwa [List.length_set], by rwa [List.length_set]⟩
  rw [List.getLast?_eq_getElem?, List.length_set, List.getElem?_set]
  rw [List.getLast?_eq_getElem?] at hlast
  split
  · rfl
  · exact hlast

theorem strncmp_of_mem {n : Nat} {mem s : List UInt8} (hmem : 0 ∈ mem) (hs : 0 ∉ s) :
    ∃ b, strncmp n mem (s ++ [0]) = some b := by
  induction n generalizing mem s with
  | zero => exact ⟨true, by rw [strncmp]⟩
  | succ n ih =>
    cases mem with
    | nil => simp at hmem
    | cons c mem =>
      cases s with
      | nil =>
        rw [List.nil_append, strncmp]
        by_cases hc : c ≠ 0
        · exact ⟨false, by rw [if_pos hc]⟩
        · rw [not_not] at hc
          exact ⟨true, by rw [if_neg (not_not.mpr hc), if_pos hc]⟩
      | cons d s =>
        rw [List.mem_cons, not_or] at hs
        rw [List.cons_append, strncmp]
        by_cases hc : c ≠ d
        · exact ⟨false, by rw [if_pos hc]⟩
        · rw [not_not] at hc
          have hne : c ≠ 0 := hc ▸ Ne.symm hs.1
          rw [List.mem_cons] at hmem
          have hrest : 0 ∈ mem := hmem.resolve_left (Ne.symm hne)
          rw [if_neg (not_not.mpr hc), if_neg hne]
          exact ih hrest hs.2

/-- Where the strings are equal, the whole string is there. -/
theorem lt_of_strncmp {mem s : List UInt8} (hlast : mem.getLast? = some 0) (hs : 0 ∉ s)
    (h : strncmp s.length mem (s ++ [0]) = some true) : s.length < mem.length := by
  induction s generalizing mem with
  | nil =>
    rw [List.length_nil, List.length_pos_iff]
    rintro rfl
    simp at hlast
  | cons d s ih =>
    rw [List.mem_cons, not_or] at hs
    cases mem with
    | nil => simp at hlast
    | cons c mem =>
      rw [List.length_cons, List.cons_append, strncmp] at h
      split at h
      · cases h
      · rename_i hc
        rw [not_not] at hc
        have hne : c ≠ 0 := hc ▸ Ne.symm hs.1
        rw [if_neg hne] at h
        cases mem with
        | nil =>
          rw [List.getLast?_singleton, Option.some.injEq] at hlast
          exact absurd hlast hne
        | cons e mem =>
          rw [List.getLast?_cons_cons] at hlast
          have hlt := ih hlast hs.2 h
          rw [List.length_cons, List.length_cons (a := c)]
          omega

theorem hasPrefixCase_of_mem {mem s : List UInt8} (hmem : 0 ∈ mem) (hs : ∀ c ∈ s, toLower c ≠ 0) :
    ∃ b, hasPrefixCase mem s = some b := by
  induction s generalizing mem with
  | nil => exact ⟨true, by rw [hasPrefixCase]⟩
  | cons d s ih =>
    rw [List.forall_mem_cons] at hs
    cases mem with
    | nil => simp at hmem
    | cons c mem =>
      rw [hasPrefixCase]
      split
      · exact ⟨false, rfl⟩
      · rename_i hc
        rw [not_not] at hc
        have hne : 0 ≠ c := by
          rintro rfl
          exact hs.1 (hc ▸ rfl)
        rw [List.mem_cons] at hmem
        exact ih (hmem.resolve_left hne) hs.2

theorem readStr_of_mem {mem : List UInt8} (h : 0 ∈ mem) :
    ∃ text rest, readStr mem = some (text, rest) := by
  induction mem with
  | nil => simp at h
  | cons c mem ih =>
    rw [readStr]
    split
    · exact ⟨[], mem, rfl⟩
    · rename_i hc
      rw [List.mem_cons] at h
      obtain ⟨text, rest, hread⟩ := ih (h.resolve_left (Ne.symm hc))
      exact ⟨c :: text, rest, by rw [hread]; rfl⟩

/-! ## No byte outside the buffer -/

theorem formHead_closed {boundary mem : List UInt8} {len : Int} (hb : 0 ∉ boundary)
    (hlast : mem.getLast? = some 0) (hlen : len + 1 = mem.length) :
    ∃ head, formHead boundary mem len = some head ∧ ∀ cdline, head = some cdline →
      Closed mem cdline ∧ boundary.length ≤ cdline.1 ∧
        hasPrefixCase (mem.drop cdline.1) contentstr = some true := by
  have hpos : 0 < mem.length := by
    rw [List.length_pos_iff]
    rintro rfl
    simp at hlast
  obtain ⟨same, hsame⟩ := strncmp_of_mem (n := boundary.length) (List.mem_of_getLast? hlast) hb
  rw [formHead, hsame]
  dsimp only [Option.bind_eq_bind, Option.bind_some]
  cases same with
  | false => exact ⟨none, rfl, by simp⟩
  | true =>
    have hlt := lt_of_strncmp hlast hb hsame
    have hclosed : Closed mem (boundary.length, len - boundary.length) :=
      ⟨hlast, hlt, by dsimp only; omega⟩
    obtain ⟨cdline, hskip, hcdline, hle, -⟩ := skipLine_closed hclosed
    have hmem := zero_mem_drop hlast hcdline.lt
    obtain ⟨last, hlast2⟩ := strncmp_of_mem (n := 2) hmem (by decide : (0 : UInt8) ∉ [45, 45])
    obtain ⟨found, hfound⟩ := hasPrefixCase_of_mem hmem
      (by decide +kernel : ∀ c ∈ contentstr, toLower c ≠ 0)
    rw [if_pos rfl, hskip]
    dsimp only [Option.bind_some]
    rw [List.getElem?_eq_getElem hcdline.lt]
    dsimp only [Option.bind_some]
    split
    · exact ⟨none, rfl, by simp⟩
    · rw [hlast2]
      dsimp only [Option.bind_some]
      split
      · exact ⟨none, rfl, by simp⟩
      · rw [hfound]
        refine ⟨_, rfl, ?_⟩
        intro place hplace
        split at hplace
        · rename_i htrue
          obtain rfl := Option.some.inj hplace
          exact ⟨hcdline, hle, htrue ▸ hfound⟩
        · cases hplace

theorem lt_of_hasPrefixCase {mem s : List UInt8} (hlast : mem.getLast? = some 0)
    (hs : ∀ c ∈ s, toLower c ≠ 0) (h : hasPrefixCase mem s = some true) :
    s.length < mem.length := by
  induction s generalizing mem with
  | nil =>
    rw [List.length_nil, List.length_pos_iff]
    rintro rfl
    simp at hlast
  | cons d s ih =>
    rw [List.forall_mem_cons] at hs
    match mem with
    | [] => simp at hlast
    | [c] =>
      rw [List.getLast?_singleton, Option.some.injEq] at hlast
      rw [hasPrefixCase] at h
      split at h
      · cases h
      · rename_i hc
        rw [not_not] at hc
        rw [hlast] at hc
        exact absurd (hc.symm.trans (by decide)) hs.1
    | c :: e :: mem =>
      rw [List.getLast?_cons_cons] at hlast
      rw [hasPrefixCase] at h
      split at h
      · cases h
      · have hlt := ih hlast hs.2 h
        rw [List.length_cons, List.length_cons (a := c)]
        omega

/-- A buffer in which bytes have been set to 0. -/
structure Zeroed (mem mem' : List UInt8) : Prop where
  length : mem'.length = mem.length
  get : ∀ (i : Nat) (c : UInt8), mem'[i]? = some c → c ≠ 0 → mem[i]? = some c

theorem Zeroed.refl (mem : List UInt8) : Zeroed mem mem := ⟨rfl, fun _ _ h _ => h⟩

theorem Zeroed.set {mem mem' : List UInt8} (h : Zeroed mem mem') (i : Nat) :
    Zeroed mem (mem'.set i 0) := by
  refine ⟨List.length_set.trans h.length, ?_⟩
  intro j c hget hc
  rw [List.getElem?_set] at hget
  split at hget
  · split at hget
    · exact absurd (Option.some.inj hget).symm hc
    · cases hget
  · exact h.get j c hget hc

theorem Zeroed.drop {mem mem' : List UInt8} (h : Zeroed mem mem') (k : Nat) :
    Zeroed (mem.drop k) (mem'.drop k) := by
  refine ⟨by rw [List.length_drop, List.length_drop, h.length], ?_⟩
  intro i c hget hc
  rw [List.getElem?_drop] at hget ⊢
  exact h.get _ c hget hc

theorem Zeroed.trans {mem mem' mem'' : List UInt8} (h : Zeroed mem mem') (h' : Zeroed mem' mem'') :
    Zeroed mem mem'' :=
  ⟨h'.length.trans h.length, fun i c hget hc => h.get i c (h'.get i c hget hc) hc⟩

/-- A text without NUL was there before. -/
theorem Zeroed.isInfix {mem mem' text : List UInt8} (h : Zeroed mem mem') (hzero : 0 ∉ text)
    (htext : text <:+: mem') : text <:+: mem := by
  obtain ⟨a, b, rfl⟩ := htext
  have hlen := h.length
  rw [List.length_append, List.length_append] at hlen
  have hmid : (mem.drop a.length).take text.length = text := by
    apply List.ext_getElem?
    intro i
    rw [List.getElem?_take]
    split
    · rename_i hi
      have hget : (a ++ text ++ b)[a.length + i]? = some text[i] := by
        rw [List.append_assoc, List.getElem?_append_right (by omega), Nat.add_sub_cancel_left,
          List.getElem?_append_left hi, List.getElem?_eq_getElem hi]
      have hne : text[i] ≠ 0 := fun heq => hzero (heq ▸ List.getElem_mem hi)
      rw [List.getElem?_drop, h.get _ _ hget hne, List.getElem?_eq_getElem hi]
    · rename_i hi
      rw [List.getElem?_eq_none (by omega)]
  exact hmid ▸ (List.take_prefix _ _).isInfix.trans (List.drop_suffix _ _).isInfix

theorem length_stripLine_le (content : List UInt8) :
    (stripLine content).length ≤ content.length := by
  have hdrop (c : List UInt8) (e : UInt8) :
      (if c.getLast? = some e then c.dropLast else c).length ≤ c.length := by
    split
    · rw [List.length_dropLast]
      omega
    · exact Nat.le_refl _
  exact (hdrop _ 13).trans (hdrop content 10)

theorem baseName_inside (filename : List UInt8) : baseName filename <:+: filename := by
  rw [baseName, strrchr]
  split
  · exact List.infix_refl _
  · rename_i ptr hptr
    split at hptr
    · obtain rfl := Option.some.inj hptr
      have hsuffix : (filename.reverse.takeWhile (· != 92)).reverse <:+ filename :=
        List.reverse_prefix.mp (by simpa using List.takeWhile_prefix _)
      exact hsuffix.isInfix
    · cases hptr

/-- A file name is part of the text, and has no quote. -/
theorem filename_infix {text name filename : List UInt8}
    (h : parseDisposition text = some (name, some filename)) :
    filename <:+: text ∧ 34 ∉ filename := by
  rw [parseDisposition] at h
  split at h
  · dsimp only at h
    split at h
    · simp only [Option.some.injEq, Prod.mk.injEq] at h
      obtain ⟨-, rfl⟩ := h
      refine ⟨?_, fun hmem => notMem_cutAt 34 _ ((baseName_inside _).subset hmem)⟩
      have hrest := (List.dropWhile_suffix (fun c => !isAlpha c)).isInfix.trans
        (List.drop_suffix ((cutAt 34 text).length + 1) text).isInfix
      exact (baseName_inside _).trans ((List.takeWhile_prefix _).isInfix.trans
        ((List.drop_suffix _ _).isInfix.trans hrest))
    · simp at h
  · cases h

theorem readStr_prefix {mem text rest : List UInt8} (h : readStr mem = some (text, rest)) :
    text <+: mem ∧ 0 ∉ text := by
  induction mem generalizing text with
  | nil => simp [readStr] at h
  | cons c mem ih =>
    rw [readStr] at h
    split at h
    · simp only [Option.some.injEq, Prod.mk.injEq] at h
      obtain ⟨rfl, -⟩ := h
      exact ⟨List.nil_prefix, by simp⟩
    · rename_i hc
      obtain ⟨⟨text', rest'⟩, hread, heq⟩ := Option.map_eq_some_iff.mp h
      simp only [Prod.mk.injEq] at heq
      obtain ⟨rfl, rfl⟩ := heq
      obtain ⟨hbegins, hzero⟩ := ih hread
      refine ⟨List.cons_prefix_cons.mpr ⟨rfl, hbegins⟩, ?_⟩
      rw [List.mem_cons, not_or]
      exact ⟨Ne.symm hc, hzero⟩

/-- A file name that the parser finds in the buffer. -/
structure FileName (mem filename : List UInt8) : Prop where
  isInfix : filename <:+: mem
  zero : 0 ∉ filename
  quote : 34 ∉ filename

theorem formTail_closed {boundary mem : List UInt8} {cdline : Nat × Int}
    (hb : 0 < boundary.length) (hclosed : Closed mem cdline) (hle : boundary.length ≤ cdline.1)
    (hbegins : hasPrefixCase (mem.drop cdline.1) contentstr = some true) :
    ∃ next, formTail boundary mem cdline = some next ∧ ∀ seg mem' len',
      next = some (seg, mem', len') →
        mem'.getLast? = some 0 ∧ len' + 1 = mem'.length ∧ mem'.length < mem.length ∧
          (∃ k, Zeroed (mem.drop k) mem') ∧ ∀ f, seg.filename = some f → FileName mem f := by
  obtain ⟨buf, hskip, hbuf, hbufle, -⟩ := skipLine_closed hclosed
  obtain ⟨hpoke, hbuf⟩ := poke_closed hbuf (i := buf.1 - 1) (by have := hbuf.lt; omega)
  obtain ⟨buf', hmime, hbuf', hmimele⟩ := skipMime_closed hbuf (Nat.sub_le _ _)
  obtain ⟨start, hskip', hstart, hstartle, -⟩ := skipLine_closed hbuf'
  have hbeginsLt := lt_of_hasPrefixCase (getLast?_drop hclosed.last hclosed.lt)
    (by decide +kernel) hbegins
  rw [List.length_drop] at hbeginsLt
  obtain ⟨hlast, hstartLt, hstartLen⟩ := hstart
  have hlen : (mem.set (buf.1 - 1) 0).length = mem.length := List.length_set
  rw [formTail, hskip]
  dsimp only [Option.bind_eq_bind, Option.bind_some]
  rw [hpoke]
  dsimp only [Option.bind_some]
  rw [hmime]
  dsimp only [Option.bind_some]
  rw [hskip']
  dsimp only [Option.bind_some]
  rw [memmem, if_pos (by rw [List.length_drop]; omega)]
  dsimp only [Option.bind_some]
  cases hfound : strstr boundary (((mem.set (buf.1 - 1) 0).drop start.1).take start.2.toNat) with
  | none => exact ⟨none, rfl, by simp⟩
  | some ptr =>
    have hptr := length_le_of_strstr hfound
    rw [List.length_take, List.length_drop] at hptr
    have hcontent := length_stripLine_le (((mem.set (buf.1 - 1) 0).drop start.1).take ptr)
    rw [List.length_take, List.length_drop] at hcontent
    obtain ⟨hpoke', hend⟩ := poke_closed ⟨hlast, hstartLt, hstartLen⟩
      (i := start.1 + (stripLine (((mem.set (buf.1 - 1) 0).drop start.1).take ptr)).length)
      (by omega)
    obtain ⟨text, rest, htext⟩ := readStr_of_mem
      (zero_mem_drop hend.last (i := cdline.1 + contentstr.length)
        (by rw [List.length_set, List.length_set]; omega))
    dsimp only
    rw [hpoke']
    dsimp only [Option.bind_some]
    rw [htext]
    refine ⟨_, rfl, ?_⟩
    intro seg mem' len' hnext
    obtain ⟨⟨name, filename⟩, hfield, hseg⟩ := Option.map_eq_some_iff.mp hnext
    simp only [Prod.mk.injEq] at hseg
    obtain ⟨rfl, rfl, rfl⟩ := hseg
    have hzeroed := ((Zeroed.refl mem).set (buf.1 - 1)).set
      (start.1 + (stripLine (((mem.set (buf.1 - 1) 0).drop start.1).take ptr)).length)
    refine ⟨getLast?_drop hend.last (by rw [List.length_set]; omega), ?_, ?_,
      ⟨_, hzeroed.drop _⟩, ?_⟩
    · rw [List.length_drop, List.length_set]
      omega
    · rw [List.length_drop, List.length_set]
      omega
    · intro f hf
      dsimp only at hf hfield
      rw [hf] at hfield
      obtain ⟨hinside, hquote⟩ := filename_infix hfield
      obtain ⟨htextPrefix, hzero⟩ := readStr_prefix htext
      have hfzero : 0 ∉ f := fun hmem => hzero (hinside.subset hmem)
      have hmem := hinside.trans (htextPrefix.isInfix.trans (List.drop_suffix _ _).isInfix)
      exact ⟨hzeroed.isInfix hfzero hmem, hfzero, hquote⟩

/-- **A pass** reads and writes in the buffer, and leaves a shorter one. -/
theorem formStep_closed {boundary mem : List UInt8} {len : Int} (hb : 0 ∉ boundary)
    (hpos : 0 < boundary.length) (hlast : mem.getLast? = some 0) (hlen : len + 1 = mem.length) :
    ∃ next, formStep boundary mem len = some next ∧ ∀ seg mem' len',
      next = some (seg, mem', len') →
        mem'.getLast? = some 0 ∧ len' + 1 = mem'.length ∧ mem'.length < mem.length ∧
          (∃ k, Zeroed (mem.drop k) mem') ∧ ∀ f, seg.filename = some f → FileName mem f := by
  obtain ⟨head, hhead, hspec⟩ := formHead_closed hb hlast hlen
  rw [formStep, hhead]
  dsimp only [Option.bind_eq_bind, Option.bind_some]
  cases head with
  | none => exact ⟨none, rfl, by simp⟩
  | some cdline =>
    obtain ⟨hclosed, hle, hbegins⟩ := hspec cdline rfl
    exact formTail_closed hpos hclosed hle hbegins

/-! ## The table -/

/-- What the arrays of the table hold: short names without NUL. -/
def Parm.Stored : Parm → Prop
  | .val name _ => 0 ∉ name ∧ name.length ≤ 77
  | .file name filename _ =>
    (0 ∉ name ∧ name.length ≤ 77) ∧ 0 ∉ filename ∧ filename.length ≤ 1023

structure TableOk (table : List Parm) : Prop where
  length_le : table.length ≤ 255
  stored : ∀ parm ∈ table, parm.Stored

theorem TableOk.nil : TableOk [] := ⟨by simp, by simp⟩

theorem TableOk.concat {table : List Parm} (h : TableOk table) (hlt : table.length < 255)
    {parm : Parm} (hparm : parm.Stored) : TableOk (table ++ [parm]) := by
  refine ⟨by rw [List.length_append, List.length_singleton]; omega, ?_⟩
  rw [List.forall_mem_append]
  exact ⟨h.stored, by simpa using hparm⟩

theorem strsncpy_stored (name : List UInt8) :
    0 ∉ strsncpy name 78 ∧ (strsncpy name 78).length ≤ 77 := by
  rw [strsncpy]
  constructor
  · intro hmem
    have hne := List.mem_takeWhile_imp hmem
    simp at hne
  · have hle := (List.takeWhile_prefix (· ≠ 0) (l := name.take 77)).length_le
    exact hle.trans (List.length_take_le 77 name)

theorem parmAdd_ok {table table' : List Parm} {name value : List UInt8} (h : TableOk table)
    (hadd : parmAdd table name value = .ok table') : TableOk table' := by
  rw [parmAdd] at hadd
  split at hadd
  · cases hadd
  · cases hadd
    exact h.concat (by omega) (strsncpy_stored name)

/-- A string that `strtrim` returns is part of the one it is given. -/
theorem strtrim_ok {s t : List UInt8} (h : strtrim s = .ok t) : t ⊆ s ∧ t.length ≤ 1023 := by
  rw [strtrim] at h
  cases htrim : strrtrim s with
  | none => simp [htrim] at h
  | some r =>
    simp only [htrim, Except.ok.injEq] at h
    subst h
    rw [strrtrim] at htrim
    split at htrim
    · obtain rfl := Option.some.inj htrim
      have hright (l : List UInt8) : (trimRight l).Sublist l := by
        cases l with
        | nil => exact List.Sublist.refl _
        | cons c l => exact (List.rdropWhile_prefix _ _).sublist.cons_cons c
      have hsub := (List.dropWhile_sublist (l := trimRight (s.take 1023)) isBlank).trans
        (hright (s.take 1023))
      exact ⟨fun c hc => List.mem_of_mem_take (hsub.subset hc),
        hsub.length_le.trans (List.length_take_le _ _)⟩
    · cases htrim

theorem strtrim_overrun {s : List UInt8} (h : strtrim s = .error .overrun) : 1024 < s.length := by
  by_contra hle
  rw [strtrim, strrtrim, if_pos (by omega)] at h
  cases h

theorem addSegment_ok {table table' : List Parm} {seg : Segment} (h : TableOk table)
    (hname : ∀ f, seg.filename = some f → 0 ∉ f) (hadd : addSegment table seg = .ok table') :
    TableOk table' := by
  rw [addSegment] at hadd
  cases hf : seg.filename with
  | none =>
    rw [hf] at hadd
    exact parmAdd_ok h hadd
  | some f =>
    rw [hf] at hadd
    dsimp only at hadd
    cases htrim : strtrim f with
    | error stop => simp [htrim, bind, Except.bind] at hadd
    | ok t =>
      obtain ⟨hsub, hlen⟩ := strtrim_ok htrim
      simp only [htrim, bind, Except.bind, parmAddfile] at hadd
      split at hadd
      · cases hadd
        exact h
      · split at hadd
        · cases hadd
        · cases hadd
          exact h.concat (by omega)
            ⟨strsncpy_stored seg.name, fun hmem => hname f hf (hsub hmem), hlen⟩

theorem addSegment_overrun {table : List Parm} {seg : Segment}
    (h : addSegment table seg = .error .overrun) :
    ∃ f, seg.filename = some f ∧ 1024 < f.length := by
  rw [addSegment] at h
  cases hf : seg.filename with
  | none =>
    rw [hf] at h
    dsimp only at h
    rw [parmAdd] at h
    split at h <;> cases h
  | some f =>
    rw [hf] at h
    dsimp only at h
    cases htrim : strtrim f with
    | error stop =>
      simp only [htrim, bind, Except.bind, Except.error.injEq] at h
      exact ⟨f, rfl, strtrim_overrun (h ▸ htrim)⟩
    | ok t =>
      simp only [htrim, bind, Except.bind, parmAddfile] at h
      split at h
      · cases h
      · split at h <;> cases h

/-- **`parm_init_parseformdata`** ends on every buffer and reads nothing behind it; only a
file name of more than 1024 bytes takes it behind the buffer of `strrtrim`. -/
theorem parseFormdata_closed {boundary mem : List UInt8} {len : Int} {table : List Parm}
    (hb : 0 ∉ boundary) (hpos : 0 < boundary.length) (hlast : mem.getLast? = some 0)
    (hlen : len + 1 = mem.length) (htable : TableOk table) {fuel : Nat}
    (hfuel : mem.length ≤ fuel) :
    ∃ result, parseFormdata boundary fuel mem len table = some result ∧
      (∀ table', result = .ok table' → TableOk table') ∧
      (result = .error .overrun → ∃ f, FileName mem f ∧ 1024 < f.length) := by
  induction fuel generalizing mem len table with
  | zero =>
    have hnil : mem = [] := List.length_eq_zero_iff.mp (by omega)
    rw [hnil] at hlast
    cases hlast
  | succ fuel ih =>
    obtain ⟨next, hstep, hspec⟩ := formStep_closed hb hpos hlast hlen
    rw [parseFormdata, hstep]
    dsimp only [Option.bind_eq_bind, Option.bind_some]
    match next with
    | none =>
      refine ⟨_, rfl, ?_, by simp⟩
      rintro table' ⟨⟩
      exact htable
    | some (seg, mem', len') =>
      obtain ⟨hlast', hlen', hlt, ⟨k, hzeroed⟩, hnames⟩ := hspec seg mem' len' rfl
      dsimp only
      cases hadd : addSegment table seg with
      | error stop =>
        refine ⟨_, rfl, by simp, ?_⟩
        intro hstop
        rw [Except.error.injEq] at hstop
        obtain ⟨f, hf, hlong⟩ := addSegment_overrun (hstop ▸ hadd)
        exact ⟨f, hnames f hf, hlong⟩
      | ok table' =>
        have htable' := addSegment_ok htable (fun f hf => (hnames f hf).zero) hadd
        obtain ⟨result, hrun, hok, hover⟩ := ih hlast' hlen' htable' (by omega)
        refine ⟨result, hrun, hok, ?_⟩
        intro hstop
        obtain ⟨f, hf, hlong⟩ := hover hstop
        have hinside := (hzeroed.isInfix hf.zero hf.isInfix).trans (List.drop_suffix _ _).isInfix
        exact ⟨f, ⟨hinside, hf.zero, hf.quote⟩, hlong⟩

end Ytht
