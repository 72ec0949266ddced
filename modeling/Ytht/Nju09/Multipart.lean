import Ytht.Nju09.Formdata

/-!
# Nju09.Multipart

The standard encoding of a form, and what `http_parm_init` makes of it.

A value goes through `__unhcode`, as if the form had been sent in the other encoding, and
the tables hold 77 bytes of a name: `httpParmInit_form` says for which forms this changes
nothing.
-/

namespace Ytht

open Bytes

/-! ## Forms -/

/-- The bytes of a name or a file name. -/
structure FieldName (name : List UInt8) : Prop where
  quote : 34 ∉ name
  backslash : 92 ∉ name
  cr : 13 ∉ name
  lf : 10 ∉ name
  head : ∀ c, name.head? = some c → isBlank c = false
  last : ∀ c, name.getLast? = some c → isBlank c = false

/-- A line without the bytes that end it. -/
structure PlainLine (line : List UInt8) : Prop where
  zero : 0 ∉ line
  cr : 13 ∉ line
  lf : 10 ∉ line

/-- A part of a form: a file if it has a file name, else a value.  `lines` are its
`Content-Type` lines. -/
structure FormPart where
  name : List UInt8
  filename : Option (List UInt8)
  lines : List (List UInt8)
  content : List UInt8
  name_ok : FieldName name
  filename_ok : ∀ f, filename = some f → FieldName f ∧ f ≠ []
  lines_ok : ∀ line ∈ lines, PlainLine line ∧ line ≠ []
  content_ok : filename = none → 0 ∉ content

/-- The separator of the parts; `buf2` holds 1021 bytes of it, and the standard allows 70. -/
structure Boundary where
  bytes : List UInt8
  plain : PlainLine bytes
  length_le : bytes.length ≤ 1021

def crlf : List UInt8 := [13, 10]

/-- A boundary as it stands before a part. -/
def Boundary.delimiter (boundary : Boundary) : List UInt8 := [45, 45] ++ boundary.bytes

namespace FormPart

/-- The entry that should be stored. -/
def parm (part : FormPart) : Parm :=
  match part.filename with
  | none => .val part.name part.content
  | some f => .file part.name f part.content

/-- The text after `name="`. -/
def field (part : FormPart) : List UInt8 :=
  part.name ++ 34 :: match part.filename with
    | none => []
    | some f => ascii "; " ++ filenamestr ++ f ++ [34]

def encode (boundary : Boundary) (part : FormPart) : List UInt8 :=
  boundary.delimiter ++ crlf ++ contentstr ++ part.field ++ crlf ++
    part.lines.flatMap (fun line => line ++ crlf) ++ crlf ++ part.content ++ crlf

end FormPart

/-- The encoding of a form, with or without the end of the last line. -/
def encodeForm (boundary : Boundary) (parts : List FormPart) (ended : Bool) : List UInt8 :=
  parts.flatMap (FormPart.encode boundary) ++
    (boundary.delimiter ++ [45, 45] ++ if ended then crlf else [])

/-- A request that submits a form. -/
structure Submits (req : HttpRequest) (boundary : Boundary) (parts : List FormPart) : Prop where
  contentType : req.contentType = multipartstr ++ boundary.bytes
  body : ∃ ended, req.stdin.take req.contentLength = encodeForm boundary parts ended
  length_le : req.contentLength ≤ 5000000
  parts_le : parts.length ≤ 255
  free : ∀ part ∈ parts, ¬boundary.delimiter <:+: part.content

theorem Boundary.plain_delimiter (boundary : Boundary) : PlainLine boundary.delimiter := by
  obtain ⟨hzero, hcr, hlf⟩ := boundary.plain
  constructor <;> simp [delimiter, hzero, hcr, hlf]

/-! ## Lines -/

theorem getElem?_append_cons (before : List UInt8) (c : UInt8) (rest : List UInt8) :
    (before ++ c :: rest)[before.length]? = some c := by
  rw [List.getElem?_append_right (Nat.le_refl _), Nat.sub_self, List.getElem?_cons_zero]

theorem lineLength_line {line : List UInt8} (h : PlainLine line) {e : UInt8}
    (he : e = 0 ∨ e = 13 ∨ e = 10) (rest : List UInt8) :
    lineLength (line ++ e :: rest) = some line.length := by
  obtain ⟨hzero, hcr, hlf⟩ := h
  induction line with
  | nil => rw [List.nil_append, lineLength, if_pos he, List.length_nil]
  | cons c line ih =>
    rw [List.mem_cons, not_or] at hzero hcr hlf
    rw [List.cons_append, lineLength, if_neg, ih hzero.2 hcr.2 hlf.2]
    · rfl
    · rintro (heq | heq | heq)
      · exact hzero.1 heq.symm
      · exact hcr.1 heq.symm
      · exact hlf.1 heq.symm

/-- A whole line is skipped. -/
theorem skipLine_crlf {line : List UInt8} (h : PlainLine line) (before rest : List UInt8)
    (len : Int) : skipLine (before ++ (line ++ (crlf ++ rest))) (before.length, len) =
      some ((before ++ (line ++ crlf)).length, len - (line ++ crlf).length) := by
  have hcr : (before ++ (line ++ (crlf ++ rest)))[before.length + line.length]? = some 13 := by
    rw [List.getElem?_append_right (by omega), Nat.add_sub_cancel_left,
      List.getElem?_append_right (Nat.le_refl _), Nat.sub_self]
    rfl
  have hlf : (before ++ (line ++ (crlf ++ rest)))[before.length + (line.length + 1)]? =
      some 10 := by
    rw [List.getElem?_append_right (by omega), Nat.add_sub_cancel_left,
      List.getElem?_append_right (by omega), Nat.add_sub_cancel_left]
    rfl
  rw [skipLine, List.drop_left, crlf, List.cons_append, lineLength_line h (by simp)]
  dsimp only [Option.bind_eq_bind, Option.bind_some]
  rw [crlf, List.cons_append] at hcr hlf
  rw [hcr]
  dsimp only [Option.bind_some]
  rw [if_pos rfl, hlf]
  dsimp only [Option.bind_some]
  rw [if_pos rfl]
  simp only [List.length_append, List.length_cons, List.length_nil]

/-- The last line is skipped up to the NUL. -/
theorem skipLine_last {line : List UInt8} (h : PlainLine line) (before : List UInt8) (len : Int) :
    skipLine (before ++ (line ++ [0])) (before.length, len) =
      some ((before ++ line).length, len - line.length) := by
  have hzero : (before ++ (line ++ [0]))[before.length + line.length]? = some 0 := by
    rw [List.getElem?_append_right (by omega), Nat.add_sub_cancel_left,
      List.getElem?_append_right (Nat.le_refl _), Nat.sub_self]
    rfl
  rw [skipLine, List.drop_left, lineLength_line h (.inl rfl)]
  dsimp only [Option.bind_eq_bind, Option.bind_some]
  rw [hzero]
  dsimp only [Option.bind_some]
  rw [if_neg (by decide), hzero]
  dsimp only [Option.bind_some]
  rw [if_neg (by decide), List.length_append]

/-- The `Content-Type` lines are skipped. -/
theorem skipMime_lines {lines : List (List UInt8)} (h : ∀ line ∈ lines, PlainLine line ∧ line ≠ [])
    (before rest : List UInt8) (len : Int) {fuel : Nat} (hfuel : lines.length < fuel) :
    skipMime fuel (before ++ (lines.flatMap (fun line => line ++ crlf) ++ (crlf ++ rest)))
        (before.length, len) =
      some ((before ++ lines.flatMap (fun line => line ++ crlf)).length,
        len - (lines.flatMap (fun line => line ++ crlf)).length) := by
  induction lines generalizing before len fuel with
  | nil =>
    obtain ⟨fuel, rfl⟩ := Nat.exists_eq_add_of_lt hfuel
    rw [skipMime]
    simp [crlf]
  | cons line lines ih =>
    obtain ⟨fuel, rfl⟩ : ∃ k, fuel = k + 1 := ⟨fuel - 1, by omega⟩
    rw [List.forall_mem_cons] at h
    obtain ⟨⟨hline, hne⟩, hlines⟩ := h
    obtain ⟨c, line', rfl⟩ := List.exists_cons_of_ne_nil hne
    have hfirst : (before ++ ((c :: line') ++ (crlf ++
        (lines.flatMap (fun line => line ++ crlf) ++ (crlf ++ rest)))))[before.length]? =
          some c := by
      rw [List.getElem?_append_right (Nat.le_refl _), Nat.sub_self]
      rfl
    have hc : ¬(c = 0 ∨ c = 13 ∨ c = 10) := by
      rintro (heq | heq | heq)
      · exact hline.zero (heq ▸ List.mem_cons_self)
      · exact hline.cr (heq ▸ List.mem_cons_self)
      · exact hline.lf (heq ▸ List.mem_cons_self)
    have hlt : lines.length < fuel := by
      rw [List.length_cons] at hfuel
      omega
    have hrest := ih hlines (before ++ ((c :: line') ++ crlf))
      (len - ((c :: line') ++ crlf).length) hlt
    rw [List.flatMap_cons, List.append_assoc, List.append_assoc, skipMime, hfirst]
    dsimp only [Option.bind_eq_bind, Option.bind_some]
    rw [if_neg hc, skipLine_crlf hline]
    dsimp only [Option.bind_some]
    rw [List.append_assoc, List.append_assoc] at hrest
    rw [hrest]
    simp only [List.length_append, Nat.cast_add]
    congr 2
    · omega
    · omega

/-! ## Comparisons -/

theorem strncmp_self {s : List UInt8} (h : 0 ∉ s) (rest : List UInt8) :
    strncmp s.length (s ++ rest) (s ++ [0]) = some true := by
  induction s with
  | nil => rfl
  | cons c s ih =>
    rw [List.mem_cons, not_or] at h
    rw [List.length_cons, List.cons_append, List.cons_append, strncmp, if_neg (by simp),
      if_neg (Ne.symm h.1), ih h.2]

theorem hasPrefixCase_self (s rest : List UInt8) : hasPrefixCase (s ++ rest) s = some true := by
  induction s with
  | nil => simp [hasPrefixCase]
  | cons c s ih => rw [List.cons_append, hasPrefixCase, if_neg (by simp), ih]

/-- The first boundary behind a content is the one that ends it. -/
theorem strstr_content {delimiter content : List UInt8} (hplain : PlainLine delimiter)
    (hne : delimiter ≠ []) (hfree : ¬delimiter <:+: content) (rest : List UInt8) :
    strstr delimiter (content ++ (crlf ++ (delimiter ++ rest))) = some (content.length + 2) := by
  obtain ⟨-, hcr, hlf⟩ := hplain
  have hnot {e : UInt8} (he : e ∉ delimiter) (hay : List UInt8) :
      delimiter.isPrefixOf (e :: hay) = false := by
    obtain ⟨d, delimiter, rfl⟩ := List.exists_cons_of_ne_nil hne
    rw [List.mem_cons, not_or] at he
    rw [List.isPrefixOf_cons_cons, beq_eq_false_iff_ne.mpr (Ne.symm he.1), Bool.false_and]
  induction content with
  | nil =>
    obtain ⟨d, delimiter', heq⟩ := List.exists_cons_of_ne_nil hne
    have hfound : strstr delimiter (delimiter ++ rest) = some 0 := by
      rw [heq, List.cons_append, strstr, if_pos]
      rw [List.isPrefixOf_iff_prefix, ← List.cons_append]
      exact List.prefix_append _ _
    rw [List.nil_append, crlf, List.cons_append, List.cons_append, List.nil_append, strstr,
      hnot hcr, if_neg (by simp), strstr, hnot hlf, if_neg (by simp), hfound]
    rfl
  | cons c content ih =>
    have hbegins :
        ¬delimiter.isPrefixOf (c :: (content ++ (crlf ++ (delimiter ++ rest)))) = true := by
      rw [List.isPrefixOf_iff_prefix, ← List.cons_append]
      intro hbegins
      obtain hin | ⟨more, rfl⟩ :=
        List.prefix_or_prefix_of_prefix hbegins (List.prefix_append (c :: content) _)
      · exact hfree hin.isInfix
      · -- what sticks out begins with the end of the line
        rw [List.prefix_append_right_inj] at hbegins
        cases more with
        | nil =>
          rw [List.append_nil] at hfree
          exact hfree (List.infix_refl _)
        | cons e more =>
          rw [crlf, List.cons_append, List.cons_prefix_cons] at hbegins
          exact hcr (List.mem_append_right _ (hbegins.1 ▸ List.mem_cons_self))
    have hrest : ¬delimiter <:+: content :=
      fun hin => hfree (hin.trans (List.suffix_cons c content).isInfix)
    rw [List.cons_append, strstr, if_neg hbegins, ih hrest]
    rfl

theorem stripLine_crlf (content : List UInt8) : stripLine (content ++ crlf) = content := by
  rw [stripLine, crlf, List.append_cons, List.getLast?_concat, if_pos rfl, List.dropLast_concat,
    List.getLast?_concat, if_pos rfl, List.dropLast_concat]

/-! ## The header -/

theorem cutAt_field {name : List UInt8} (h : 34 ∉ name) (rest : List UInt8) :
    cutAt 34 (name ++ 34 :: rest) = name ∧
      (name ++ 34 :: rest).drop ((cutAt 34 (name ++ 34 :: rest)).length + 1) = rest := by
  have hcut := cutAt_append_cons h rest
  rw [hcut, List.append_cons]
  exact ⟨hcut ▸ rfl, List.drop_left' (by simp)⟩

/-- **The name and the file name** are found in the header of a part. -/
theorem parseDisposition_field (part : FormPart) :
    parseDisposition (part.field ++ [13]) = some (part.name, part.filename) := by
  rw [FormPart.field, List.append_assoc, List.cons_append]
  obtain ⟨hcut, hrest⟩ := cutAt_field part.name_ok.quote
    ((match part.filename with
      | none => []
      | some f => ascii "; " ++ filenamestr ++ f ++ [34]) ++ [13])
  rw [parseDisposition, if_pos (by simp)]
  dsimp only
  rw [hrest, hcut]
  cases hf : part.filename with
  | none => rfl
  | some f =>
    obtain ⟨hfile, -⟩ := part.filename_ok f hf
    have hskip : ((ascii "; " ++ filenamestr ++ f ++ [34]) ++ [13]).dropWhile
        (fun c => !isAlpha c) = filenamestr ++ (f ++ 34 :: [13]) := by
      rw [List.append_assoc, List.append_assoc, List.append_assoc]
      rfl
    have hsame : strncasecmp filenamestr.length (filenamestr ++ (f ++ 34 :: [13])) filenamestr =
        true := by
      rw [strncasecmp, List.take_left, List.take_length, strcasecmp]
      simp
    have hbase : baseName f = f := by
      rw [baseName, strrchr, if_neg hfile.backslash]
    dsimp only
    rw [hskip, hsame, if_pos rfl, List.drop_left, cutAt_append_cons hfile.quote, hbase]

/-! ## A part -/

theorem poke_append (before : List UInt8) (c : UInt8) (rest : List UInt8) :
    poke (before ++ c :: rest) before.length = some (before ++ 0 :: rest) := by
  rw [poke, if_pos (by simp), List.set_append_right _ _ (Nat.le_refl _), Nat.sub_self]
  rfl

/-- The first tests at a part. -/
theorem formHead_part (boundary : Boundary) (rest : List UInt8) (len : Int) :
    formHead boundary.delimiter (boundary.delimiter ++ (crlf ++ (contentstr ++ rest))) len =
      some (some ((boundary.delimiter ++ crlf).length, len - (boundary.delimiter ++ crlf).length)) := by
  have hskip := skipLine_crlf ⟨List.not_mem_nil, List.not_mem_nil, List.not_mem_nil⟩
    boundary.delimiter (contentstr ++ rest) (len - boundary.delimiter.length)
  rw [List.nil_append, List.nil_append] at hskip
  have hdrop : (boundary.delimiter ++ (crlf ++ (contentstr ++ rest))).drop
      (boundary.delimiter ++ crlf).length = contentstr ++ rest := by
    rw [← List.append_assoc, List.drop_left]
  have hget : (boundary.delimiter ++ (crlf ++ (contentstr ++ rest)))[
      (boundary.delimiter ++ crlf).length]? = some 67 := by
    rw [← List.append_assoc, List.getElem?_append_right (Nat.le_refl _), Nat.sub_self]
    rfl
  have hdash : strncmp 2 (contentstr ++ rest) ([45, 45] ++ [0]) = some false := rfl
  rw [formHead, strncmp_self boundary.plain_delimiter.zero]
  dsimp only [Option.bind_eq_bind, Option.bind_some]
  rw [if_pos rfl, hskip]
  dsimp only [Option.bind_some]
  rw [hget]
  dsimp only [Option.bind_some]
  rw [if_neg (by decide), hdrop, hdash]
  dsimp only [Option.bind_some]
  rw [if_neg (by decide), hasPrefixCase_self]
  dsimp only [Option.bind_some]
  rw [if_pos rfl, List.length_append, Nat.cast_add]
  congr 3
  omega

/-- The parser stops at the closing boundary. -/
theorem formHead_end (boundary : Boundary) (ended : Bool) (len : Int) :
    formHead boundary.delimiter
      (boundary.delimiter ++ (([45, 45] ++ if ended then crlf else []) ++ [0])) len =
        some none := by
  have hline : PlainLine ([45, 45] : List UInt8) := by constructor <;> decide
  have hskip : ∃ k l, skipLine
      (boundary.delimiter ++ (([45, 45] ++ if ended then crlf else []) ++ [0]))
      (boundary.delimiter.length, len - boundary.delimiter.length) = some (k, l) ∧
      (boundary.delimiter ++ (([45, 45] ++ if ended then crlf else []) ++ [0]))[k]? =
        some 0 := by
    cases ended with
    | true =>
      have hline' := skipLine_crlf hline boundary.delimiter [0] (len - boundary.delimiter.length)
      exact ⟨_, _, hline', getElem?_append_cons (boundary.delimiter ++ ([45, 45] ++ crlf)) 0 [] ▸
        by simp⟩
    | false =>
      have hline' := skipLine_last hline boundary.delimiter (len - boundary.delimiter.length)
      exact ⟨_, _, hline', getElem?_append_cons (boundary.delimiter ++ [45, 45]) 0 [] ▸ by simp⟩
  obtain ⟨k, l, hskip, hget⟩ := hskip
  rw [formHead, strncmp_self boundary.plain_delimiter.zero]
  dsimp only [Option.bind_eq_bind, Option.bind_some]
  rw [if_pos rfl, hskip]
  dsimp only [Option.bind_some]
  rw [hget]
  rfl

/-- The header of a part without NULs is one line. -/
theorem plainLine_header {part : FormPart} (hname : 0 ∉ part.name)
    (hfile : ∀ f, part.filename = some f → 0 ∉ f) : PlainLine (contentstr ++ part.field) := by
  have hfield (e : UInt8) (hn : e ∉ part.name) (hf : ∀ f, part.filename = some f → e ∉ f)
      (hconst : e ∉ contentstr ++ 34 :: (ascii "; " ++ filenamestr)) :
      e ∉ contentstr ++ part.field := by
    rw [List.mem_append, List.mem_cons, List.mem_append] at hconst
    rw [FormPart.field]
    cases hfilename : part.filename with
    | none => grind
    | some f =>
      have hnone := hf f hfilename
      grind
  constructor
  · exact hfield 0 hname hfile (by decide +kernel)
  · exact hfield 13 part.name_ok.cr (fun f hf => (part.filename_ok f hf).1.cr) (by decide +kernel)
  · exact hfield 10 part.name_ok.lf (fun f hf => (part.filename_ok f hf).1.lf) (by decide +kernel)

theorem length_le_flatMap (lines : List (List UInt8)) :
    lines.length ≤ (lines.flatMap fun line => line ++ crlf).length := by
  induction lines with
  | nil => simp
  | cons line lines ih =>
    rw [List.flatMap_cons, List.length_append, List.length_append, List.length_cons]
    have hcrlf : crlf.length = 2 := rfl
    omega

/-- A part behind its boundary line, with the text that follows. -/
def partText (part : FormPart) (rest : List UInt8) : List UInt8 :=
  contentstr ++ part.field ++ (crlf ++ (part.lines.flatMap (fun line => line ++ crlf) ++
    (crlf ++ (part.content ++ (crlf ++ rest)))))

/-- The line feed of the header becomes its NUL. -/
theorem poke_header (before header rest : List UInt8) :
    poke (before ++ (header ++ (crlf ++ rest))) ((before ++ (header ++ crlf)).length - 1) =
      some ((before ++ (header ++ [13, 0])) ++ rest) := by
  have hpoke := poke_append (before ++ (header ++ [13])) 10 rest
  have hplace : (before ++ (header ++ [13])).length =
      (before ++ (header ++ crlf)).length - 1 := by
    simp [crlf]
  rw [← hplace]
  simpa [crlf] using hpoke

/-- The lines behind the header are passed over. -/
theorem skipMime_part (part : FormPart) (first content : List UInt8) (len : Int) :
    let lines := part.lines.flatMap fun line => line ++ crlf
    let mem := first ++ (lines ++ (crlf ++ content))
    skipMime mem.length mem (first.length, len) =
      some ((first ++ lines).length, len - lines.length) := by
  intro lines mem
  have hcount : part.lines.length < mem.length := by
    have hle : part.lines.length ≤ lines.length := length_le_flatMap part.lines
    simp only [mem, List.length_append, crlf, List.length_cons]
    omega
  exact skipMime_lines part.lines_ok first content len hcount

/-- The boundary is found behind the content. -/
theorem memmem_content (boundary : Boundary) {content : List UInt8}
    (hfree : ¬boundary.delimiter <:+: content) (rest : List UInt8) :
    memmem (content ++ (crlf ++ (boundary.delimiter ++ (rest ++ [0]))))
      (content ++ (crlf ++ (boundary.delimiter ++ rest))).length boundary.delimiter =
        some (some (content.length + 2)) := by
  have hne : boundary.delimiter ≠ [] := by simp [Boundary.delimiter]
  have happend : content ++ (crlf ++ (boundary.delimiter ++ (rest ++ [0]))) =
      content ++ (crlf ++ (boundary.delimiter ++ rest)) ++ [0] := by
    simp only [List.append_assoc]
  have hle : (content ++ (crlf ++ (boundary.delimiter ++ rest))).length ≤
      (content ++ (crlf ++ (boundary.delimiter ++ (rest ++ [0])))).length := by
    rw [happend]
    exact (List.prefix_append _ _).length_le
  rw [memmem, if_pos ⟨Int.natCast_nonneg _, by exact_mod_cast hle⟩, Int.toNat_natCast, happend,
    List.take_left, strstr_content boundary.plain_delimiter hne hfree]

theorem stripLine_content (content tail : List UInt8) :
    stripLine ((content ++ (crlf ++ tail)).take (content.length + 2)) = content := by
  have hlength : content.length + 2 = (content ++ crlf).length := by
    rw [List.length_append]
    rfl
  rw [← List.append_assoc, hlength, List.take_left, stripLine_crlf]

/-- The byte behind the content becomes its NUL. -/
theorem poke_content (before content tail : List UInt8) :
    poke (before ++ (content ++ (crlf ++ tail))) (before.length + content.length) =
      some (before ++ content ++ 0 :: 10 :: tail) := by
  have hpoke := poke_append (before ++ content) 13 (10 :: tail)
  rw [List.length_append] at hpoke
  rw [← hpoke, List.append_assoc _ content]
  rfl

/-- The name and the file name are read up to the NUL of the header. -/
theorem readStr_header {part : FormPart} (hplain : PlainLine (contentstr ++ part.field))
    (before rest : List UInt8) :
    readStr ((before ++ (contentstr ++ part.field ++ [13, 0]) ++ rest).drop
      (before.length + contentstr.length)) = some (part.field ++ [13], rest) := by
  have hzero : 0 ∉ part.field ++ [13] := by
    intro hmem
    rw [List.mem_append] at hmem
    exact hplain.zero (List.mem_append_right _ (hmem.resolve_right (by decide)))
  have hsplit : before ++ (contentstr ++ part.field ++ [13, 0]) ++ rest =
      (before ++ contentstr) ++ ((part.field ++ [13]) ++ 0 :: rest) := by
    simp
  rw [hsplit, ← List.length_append, List.drop_left, readStr_append hzero]

/-- **A part** is found as it is. -/
theorem formTail_part (boundary : Boundary) {part : FormPart} (hname : 0 ∉ part.name)
    (hfile : ∀ f, part.filename = some f → 0 ∉ f) (hfree : ¬boundary.delimiter <:+: part.content)
    (before rest : List UInt8) :
    formTail boundary.delimiter (before ++ partText part (boundary.delimiter ++ (rest ++ [0])))
        (before.length, (partText part (boundary.delimiter ++ rest)).length) =
      some (some ((⟨part.name, part.filename, part.content⟩ : Segment),
        boundary.delimiter ++ (rest ++ [0]), ((boundary.delimiter ++ rest).length : Int))) := by
  have hplain := plainLine_header hname hfile
  have hsearch := memmem_content boundary hfree rest
  rw [partText, partText]
  generalize boundary.delimiter ++ (rest ++ [0]) = tail at hsearch ⊢
  have hmime (first : List UInt8) (len : Int) :=
    skipMime_part part first (part.content ++ (crlf ++ tail)) len
  dsimp only at hmime
  generalize part.lines.flatMap (fun line => line ++ crlf) = lines at hmime ⊢
  -- the header, the lines behind it, and the empty line
  have hplace : (before ++ (contentstr ++ part.field ++ crlf)).length =
      (before ++ (contentstr ++ part.field ++ [13, 0])).length := by
    simp [crlf]
  rw [formTail, skipLine_crlf hplain]
  dsimp only [Option.bind_eq_bind, Option.bind_some]
  rw [poke_header, hplace]
  dsimp only [Option.bind_some]
  rw [hmime]
  have hblank (first : List UInt8) (len : Int) := skipLine_crlf
    ⟨List.not_mem_nil, List.not_mem_nil, List.not_mem_nil⟩ first
    (part.content ++ (crlf ++ tail)) len
  simp only [List.nil_append] at hblank
  dsimp only [Option.bind_some]
  rw [← List.append_assoc (before ++ _), hblank]
  dsimp only [Option.bind_some]
  -- the content
  have hlen : ((contentstr ++ part.field ++ (crlf ++ (lines ++ (crlf ++ (part.content ++
      (crlf ++ (boundary.delimiter ++ rest))))))).length : Int) -
        (contentstr ++ part.field ++ crlf).length - lines.length - crlf.length =
          (part.content ++ (crlf ++ (boundary.delimiter ++ rest))).length := by
    simp only [List.length_append, Nat.cast_add]
    omega
  rw [← List.append_assoc _ crlf, List.drop_left, hlen, hsearch]
  dsimp only [Option.bind_some]
  rw [stripLine_content, poke_content]
  dsimp only [Option.bind_some]
  -- the name and the file name
  have hread := readStr_header hplain before
    (lines ++ crlf ++ part.content ++ 0 :: 10 :: tail)
  simp only [← List.append_assoc] at hread ⊢
  rw [hread]
  dsimp only [Option.bind_some]
  have hnext : ∀ first : List UInt8, (first ++ part.content ++ 0 :: 10 :: tail).drop
      (first.length + (part.content.length + 2)) = tail := by
    intro first
    have hsplit : first ++ part.content ++ 0 :: 10 :: tail =
        (first ++ part.content ++ [0, 10]) ++ tail := by
      simp
    rw [hsplit]
    exact List.drop_left' (by simp)
  rw [parseDisposition_field, hnext, Option.map_some]
  congr 4
  simp only [List.length_append, Nat.cast_add, crlf, List.length_cons, List.length_nil]
  omega

/-! ## A form -/

/-- The entry that is stored. -/
def FormPart.stored (part : FormPart) : Parm :=
  match part.filename with
  | none => .val (strsncpy part.name 78) (unhcode part.content)
  | some f => .file (strsncpy part.name 78) f part.content

/-- The names are strings, and `strrtrim` has room for a file name. -/
structure FormPart.Named (part : FormPart) : Prop where
  name : 0 ∉ part.name
  filename : ∀ f, part.filename = some f → 0 ∉ f ∧ f.length ≤ 1023

theorem strtrim_fieldName {f : List UInt8} (h : FieldName f) (hle : f.length ≤ 1023) :
    strtrim f = .ok f := by
  rw [strtrim, strrtrim_of_le hle, trimRight_of_last h.last]
  dsimp only
  rw [strltrim]
  cases f with
  | nil => rfl
  | cons c f => rw [List.dropWhile_cons_of_neg (by simp [h.head c rfl])]

theorem addSegment_part {part : FormPart} (h : part.Named) {table : List Parm}
    (hlt : table.length < 255) :
    addSegment table ⟨part.name, part.filename, part.content⟩ = .ok (table ++ [part.stored]) := by
  rw [addSegment, FormPart.stored]
  cases hf : part.filename with
  | none =>
    dsimp only
    rw [parmAdd, if_neg (by omega), cutAt_of_notMem (part.content_ok hf)]
  | some f =>
    obtain ⟨hfield, hne⟩ := part.filename_ok f hf
    dsimp only
    rw [strtrim_fieldName hfield (h.filename f hf).2]
    simp only [bind, Except.bind, parmAddfile]
    rw [if_neg hne, if_neg (by omega)]

theorem encodeForm_cons (boundary : Boundary) (part : FormPart) (parts : List FormPart)
    (ended : Bool) : encodeForm boundary (part :: parts) ended =
      boundary.delimiter ++ (crlf ++ partText part (encodeForm boundary parts ended)) := by
  simp [encodeForm, FormPart.encode, partText]

theorem encodeForm_delimiter (boundary : Boundary) (parts : List FormPart) (ended : Bool) :
    ∃ rest, encodeForm boundary parts ended = boundary.delimiter ++ rest := by
  cases parts with
  | nil => exact ⟨[45, 45] ++ if ended then crlf else [], by simp [encodeForm]⟩
  | cons part parts => exact ⟨_, encodeForm_cons boundary part parts ended⟩

/-- A pass at a part. -/
theorem formStep_part (boundary : Boundary) {part : FormPart} (h : part.Named)
    (hfree : ¬boundary.delimiter <:+: part.content) (parts : List FormPart) (ended : Bool) :
    formStep boundary.delimiter (encodeForm boundary (part :: parts) ended ++ [0])
        (encodeForm boundary (part :: parts) ended).length =
      some (some ((⟨part.name, part.filename, part.content⟩ : Segment),
        encodeForm boundary parts ended ++ [0],
        ((encodeForm boundary parts ended).length : Int))) := by
  obtain ⟨rest, hrest⟩ := encodeForm_delimiter boundary parts ended
  have htail := formTail_part boundary h.name (fun f hf => (h.filename f hf).1) hfree
    (boundary.delimiter ++ crlf) rest
  have hhead := formHead_part boundary (part.field ++ (crlf ++
    (part.lines.flatMap (fun line => line ++ crlf) ++ (crlf ++ (part.content ++ (crlf ++
      (boundary.delimiter ++ (rest ++ [0]))))))))
    (encodeForm boundary (part :: parts) ended).length
  have hmem : encodeForm boundary (part :: parts) ended ++ [0] =
      boundary.delimiter ++ (crlf ++ partText part (boundary.delimiter ++ (rest ++ [0]))) := by
    rw [encodeForm_cons, hrest, partText, partText]
    simp only [List.append_assoc]
  have hlen : ((encodeForm boundary (part :: parts) ended).length : Int) -
      (boundary.delimiter ++ crlf).length = (partText part (boundary.delimiter ++ rest)).length := by
    rw [encodeForm_cons, hrest]
    simp only [List.length_append, Nat.cast_add]
    omega
  rw [← List.append_assoc contentstr, ← partText, hlen] at hhead
  rw [formStep, hmem, hhead]
  dsimp only [Option.bind_eq_bind, Option.bind_some]
  rw [← List.append_assoc boundary.delimiter crlf, htail, hrest, List.append_assoc]

/-- **A form** is parsed part by part. -/
theorem parseFormdata_form (boundary : Boundary) {parts : List FormPart}
    (h : ∀ part ∈ parts, part.Named) (hfree : ∀ part ∈ parts, ¬boundary.delimiter <:+: part.content)
    (ended : Bool) {table : List Parm} (hle : table.length + parts.length ≤ 255) {fuel : Nat}
    (hfuel : parts.length < fuel) :
    parseFormdata boundary.delimiter fuel (encodeForm boundary parts ended ++ [0])
        (encodeForm boundary parts ended).length table =
      some (.ok (table ++ parts.map FormPart.stored)) := by
  induction parts generalizing table fuel with
  | nil =>
    obtain ⟨fuel, rfl⟩ : ∃ k, fuel = k + 1 := ⟨fuel - 1, by omega⟩
    have hend := formHead_end boundary ended (encodeForm boundary [] ended).length
    have hmem : encodeForm boundary [] ended ++ [0] =
        boundary.delimiter ++ (([45, 45] ++ if ended then crlf else []) ++ [0]) := by
      simp [encodeForm]
    rw [parseFormdata, formStep, hmem, hend]
    simp
  | cons part parts ih =>
    obtain ⟨fuel, rfl⟩ : ∃ k, fuel = k + 1 := ⟨fuel - 1, by omega⟩
    rw [List.forall_mem_cons] at h hfree
    rw [List.length_cons] at hle hfuel
    have hadded : (table ++ [part.stored]).length + parts.length ≤ 255 := by
      rw [List.length_append, List.length_singleton]
      omega
    have hrest := ih h.2 hfree.2 hadded (by omega : parts.length < fuel)
    rw [parseFormdata, formStep_part boundary h.1 hfree.1]
    dsimp only [Option.bind_eq_bind, Option.bind_some]
    rw [addSegment_part h.1 (by omega)]
    dsimp only
    rw [hrest, List.map_cons, List.append_assoc, List.singleton_append]

/-! ## The query string and the cookies -/

/-- The entry for a token that has room in `strrtrim`. -/
def tokenParm (token : List UInt8) : Option Parm :=
  if 61 ∈ token then
    let name := cutAt 61 token
    some (.val (strsncpy (strltrim (trimRight name)) 78)
      (unhcode (token.drop (name.length + 1))))
  else none

/-- The entries of the query string and of the cookies. -/
def envParms (req : HttpRequest) : List Parm :=
  (tokens 38 (cutAt 0 (strsncpy req.queryString 1024))).filterMap tokenParm ++
    (tokens 59 (cutAt 0 (strsncpy req.cookie 1024))).filterMap tokenParm

theorem length_pieces_le (delim : UInt8) (buf : List UInt8) :
    ∀ piece ∈ pieces delim buf, piece.length ≤ buf.length := by
  induction buf with
  | nil => simp [pieces]
  | cons c buf ih =>
    rw [pieces]
    split
    · rw [List.forall_mem_cons]
      exact ⟨by simp, fun piece hpiece => (ih piece hpiece).trans (by simp)⟩
    · cases hpieces : pieces delim buf with
      | nil => simp
      | cons piece rest =>
        rw [hpieces, List.forall_mem_cons] at ih
        rw [List.modifyHead_cons, List.forall_mem_cons]
        exact ⟨by simpa using ih.1, fun piece hpiece => (ih.2 piece hpiece).trans (by simp)⟩

theorem parseToken_short {token : List UInt8} (h : token.length ≤ 1023) (table : List Parm) :
    parseToken table token = match tokenParm token with
      | none => .ok table
      | some parm => if 255 ≤ table.length then .error .fatal else .ok (table ++ [parm]) := by
  rw [parseToken, tokenParm]
  by_cases heq : 61 ∈ token
  · have hname : (cutAt 61 token).length ≤ 1023 :=
      (List.takeWhile_prefix _).length_le.trans h
    have htrim : strtrim (cutAt 61 token) = .ok (strltrim (trimRight (cutAt 61 token))) := by
      rw [strtrim, strrtrim_of_le hname]
    rw [if_pos heq, if_pos heq]
    simp only [htrim, bind, Except.bind, parmAdd]
  · rw [if_neg heq, if_neg heq]

/-- Entries are added as long as there is room. -/
theorem foldlM_parseToken {toks : List (List UInt8)} (h : ∀ token ∈ toks, token.length ≤ 1023)
    {table : List Parm} (hle : table.length ≤ 255) :
    toks.foldlM parseToken table =
      if table.length + (toks.filterMap tokenParm).length ≤ 255
        then .ok (table ++ toks.filterMap tokenParm) else .error .fatal := by
  induction toks generalizing table with
  | nil => simp [hle, pure, Except.pure]
  | cons token toks ih =>
    rw [List.forall_mem_cons] at h
    rw [List.foldlM_cons, parseToken_short h.1, List.filterMap_cons]
    cases htoken : tokenParm token with
    | none =>
      dsimp only
      exact ih h.2 hle
    | some parm =>
      dsimp only
      by_cases hfull : 255 ≤ table.length
      · rw [if_pos hfull, if_neg (by rw [List.length_cons]; omega)]
        rfl
      · have hlen : (table ++ [parm]).length ≤ 255 := by
          rw [List.length_append, List.length_singleton]
          omega
        rw [if_neg hfull]
        have hrest := ih h.2 hlen
        rw [List.length_append, List.length_singleton, List.append_assoc,
          List.singleton_append] at hrest
        rw [List.length_cons, Nat.add_comm _ 1, ← Nat.add_assoc]
        exact hrest

theorem parmInitParsestring_short {buf : List UInt8} (h : buf.length ≤ 1023) (delim : UInt8)
    {table : List Parm} (hle : table.length ≤ 255) :
    parmInitParsestring buf delim table =
      if table.length + ((tokens delim (cutAt 0 buf)).filterMap tokenParm).length ≤ 255
        then .ok (table ++ (tokens delim (cutAt 0 buf)).filterMap tokenParm)
        else .error .fatal := by
  refine foldlM_parseToken (fun token htoken => ?_) hle
  have hpiece := length_pieces_le delim _ token (List.mem_of_mem_filter htoken)
  exact hpiece.trans ((List.takeWhile_prefix _).length_le.trans h)

/-- **The query string and the cookies** are added if there is room for all of them. -/
theorem parseEnv_eq (req : HttpRequest) {table : List Parm} (hle : table.length ≤ 255) :
    parseEnv req table =
      if table.length + (envParms req).length ≤ 255 then .ok (table ++ envParms req)
      else .error .fatal := by
  rw [parseEnv, envParms,
    parmInitParsestring_short (length_strsncpy_le req.queryString 1024) 38 hle]
  generalize (tokens 38 (cutAt 0 (strsncpy req.queryString 1024))).filterMap tokenParm = query
  by_cases hquery : table.length + query.length ≤ 255
  · have hlen : (table ++ query).length ≤ 255 := by rwa [List.length_append]
    rw [if_pos hquery]
    refine (parmInitParsestring_short (length_strsncpy_le req.cookie 1024) 59 hlen).trans ?_
    simp only [List.length_append, Nat.add_assoc, List.append_assoc]
  · rw [if_neg hquery, if_neg (by rw [List.length_append]; omega)]
    rfl

/-! ## Values that stay as they are -/

theorem length_unhcodeLoop_le (s : List UInt8) : (unhcodeLoop s).length ≤ s.length := by
  induction s using unhcodeLoop.induct with
  | case1 => simp [unhcodeLoop]
  | case2 s ih =>
    rw [unhcodeLoop_plus, List.length_cons, List.length_cons]
    omega
  | case3 a b rest _ ih =>
    rw [unhcodeLoop, if_neg (by decide), if_pos rfl]
    simp only [List.length_cons]
    omega
  | case4 s hnone _ =>
    rw [unhcodeLoop, if_neg (by decide), if_pos rfl]
    · simp
    · exact hnone
  | case5 c s hplus hpercent ih =>
    rw [unhcodeLoop_other hplus hpercent, List.length_cons, List.length_cons]
    omega

/-- An escape makes a string shorter. -/
theorem length_unhcodeLoop_percent (s : List UInt8) :
    (unhcodeLoop (37 :: s)).length < s.length + 1 := by
  match s with
  | [] => simp [unhcodeLoop]
  | [a] => simp [unhcodeLoop]
  | a :: b :: rest =>
    have hrest := length_unhcodeLoop_le rest
    rw [unhcodeLoop, if_neg (by decide), if_pos rfl]
    simp only [List.length_cons]
    omega

theorem unhcodeLoop_eq_self {s : List UInt8} : unhcodeLoop s = s ↔ 43 ∉ s ∧ 37 ∉ s := by
  induction s with
  | nil => simp [unhcodeLoop]
  | cons c s ih =>
    by_cases hplus : c = 43
    · rw [hplus, unhcodeLoop_plus]
      simp
    · by_cases hpercent : c = 37
      · have hlt := length_unhcodeLoop_percent s
        rw [hpercent]
        constructor
        · intro heq
          rw [heq, List.length_cons] at hlt
          omega
        · simp
      · rw [unhcodeLoop_other hplus hpercent, List.cons.injEq, ih]
        simp [Ne.symm hplus, Ne.symm hpercent]

/-- **`__unhcode`** leaves a value as it is only if it has no `+` and no `%`. -/
theorem unhcode_eq_self {s : List UInt8} (h : 0 ∉ s) : unhcode s = s ↔ 43 ∉ s ∧ 37 ∉ s := by
  rw [← unhcodeLoop_eq_self, unhcode]
  constructor
  · intro heq
    have hbegins : cutAt 0 (unhcodeLoop s) <+: unhcodeLoop s := List.takeWhile_prefix _
    rw [heq] at hbegins
    exact (hbegins.eq_of_length_le (length_unhcodeLoop_le s)).symm
  · intro heq
    rw [heq, cutAt_of_notMem h]

/-- A part that is stored as it was sent. -/
structure FormPart.Plain (part : FormPart) : Prop extends part.Named where
  name_le : part.name.length ≤ 77
  value : part.filename = none → 43 ∉ part.content ∧ 37 ∉ part.content

theorem FormPart.Plain.stored {part : FormPart} (h : part.Plain) : part.stored = part.parm := by
  rw [FormPart.stored, FormPart.parm, strsncpy_eq_self h.name h.name_le]
  cases hf : part.filename with
  | none => rw [(unhcode_eq_self (part.content_ok hf)).mpr (h.value hf)]
  | some f => rfl

/-- What the table can hold has short names. -/
theorem FormPart.named_of_stored {part : FormPart} (h : part.parm.Stored) :
    part.Named ∧ part.name.length ≤ 77 := by
  rw [FormPart.parm] at h
  cases hf : part.filename with
  | none =>
    rw [hf] at h
    exact ⟨⟨h.1, by simp [hf]⟩, h.2⟩
  | some f =>
    rw [hf] at h
    refine ⟨⟨h.1.1, ?_⟩, h.1.2⟩
    rintro g hg
    rw [hf, Option.some.injEq] at hg
    exact hg ▸ h.2

theorem FormPart.plain_of_stored {part : FormPart} (h : part.Named) (hle : part.name.length ≤ 77)
    (heq : part.stored = part.parm) : part.Plain := by
  refine ⟨h, hle, ?_⟩
  intro hf
  rw [FormPart.stored, FormPart.parm, hf] at heq
  simp only [Parm.val.injEq] at heq
  exact (unhcode_eq_self (part.content_ok hf)).mp heq.2

/-! ## The request -/

theorem parseBody_form {req : HttpRequest} {boundary : List UInt8}
    (htype : req.contentType = multipartstr ++ boundary) (hle : req.contentLength ≤ 5000000) :
    parseBody req = parseFormdata ([45, 45] ++ strsncpy boundary 1022)
      ((req.stdin.take req.contentLength).length + 1) (req.stdin.take req.contentLength ++ [0])
      (req.stdin.take req.contentLength).length [] := by
  have hbegins : strncasecmp 30 (multipartstr ++ boundary) multipartstr = true := by
    have hlen : (30 : Nat) = multipartstr.length := rfl
    rw [strncasecmp, hlen, List.take_left, List.take_length, strcasecmp]
    simp
  have hdrop : (multipartstr ++ boundary).drop 30 = boundary := List.drop_left' rfl
  rw [parseBody]
  dsimp only
  rw [if_neg (by omega), htype, hbegins, hdrop, if_neg (by simp)]

/-- **Any body** of a form is parsed to an end, within the buffer. -/
theorem parseBody_closed {req : HttpRequest} {boundary : List UInt8}
    (htype : req.contentType = multipartstr ++ boundary) :
    ∃ result, parseBody req = some result ∧ (∀ table, result = .ok table → TableOk table) ∧
      (result = .error .overrun →
        ∃ f, FileName (req.stdin.take req.contentLength ++ [0]) f ∧ 1024 < f.length) := by
  rcases Nat.lt_or_ge 5000000 req.contentLength with hgt | hle
  · refine ⟨.error .fatal, ?_, by simp, by simp⟩
    rw [parseBody]
    exact if_pos hgt
  · have hzero : 0 ∉ ([45, 45] : List UInt8) ++ strsncpy boundary 1022 := by
      rw [List.mem_append, not_or]
      refine ⟨by decide, fun hmem => ?_⟩
      have hne := List.mem_takeWhile_imp hmem
      simp at hne
    rw [parseBody_form htype hle]
    exact parseFormdata_closed hzero (by simp) List.getLast?_concat (by simp) .nil (by simp)

/-- The parameters are the parts, in order, and then those of the query string and of the
cookies. -/
def Yields (req : HttpRequest) (parts : List FormPart) : Prop :=
  httpParmInit req = some (.ok (parts.map FormPart.parm ++ envParms req))

section Form

variable {req : HttpRequest} {boundary : Boundary} {parts : List FormPart}

theorem length_le_encodeForm (boundary : Boundary) (parts : List FormPart) (ended : Bool) :
    parts.length ≤ (encodeForm boundary parts ended).length := by
  induction parts with
  | nil => simp
  | cons part parts ih =>
    rw [encodeForm_cons, partText]
    simp only [List.length_append, List.length_cons]
    have hcrlf : crlf.length = 2 := rfl
    omega

/-- **A form** whose names fit is stored part by part. -/
theorem httpParmInit_named (h : Submits req boundary parts) (hnamed : ∀ part ∈ parts, part.Named) :
    httpParmInit req =
      some (if parts.length + (envParms req).length ≤ 255
        then .ok (parts.map FormPart.stored ++ envParms req) else .error .fatal) := by
  obtain ⟨ended, hbody⟩ := h.body
  have hdelimiter : [45, 45] ++ strsncpy boundary.bytes 1022 = boundary.delimiter := by
    rw [strsncpy_eq_self boundary.plain.zero boundary.length_le, Boundary.delimiter]
  have hlt : parts.length < (encodeForm boundary parts ended).length + 1 :=
    Nat.lt_succ_of_le (length_le_encodeForm boundary parts ended)
  have hle : (([] : List Parm).length + parts.length) ≤ 255 := by simpa using h.parts_le
  have hstored : (parts.map FormPart.stored).length ≤ 255 := by simpa using h.parts_le
  rw [httpParmInit, parseBody_form h.contentType h.length_le, hbody, hdelimiter,
    parseFormdata_form boundary hnamed h.free ended hle hlt, Option.map_some, List.nil_append]
  simp only [Except.bind]
  rw [parseEnv_eq req hstored, List.length_map]

/-- The entries of a form that arrives have short names, and there is room for them. -/
theorem stored_of_yields (h : Submits req boundary parts) (hyields : Yields req parts) :
    ∀ part ∈ parts, part.parm.Stored := by
  obtain ⟨result, hparse, hok, -⟩ := parseBody_closed h.contentType
  rw [Yields, httpParmInit, hparse, Option.map_some, Option.some.injEq] at hyields
  cases result with
  | error stop => cases hyields
  | ok table =>
    have htable := hok table rfl
    simp only [Except.bind] at hyields
    rw [parseEnv_eq req htable.length_le] at hyields
    split at hyields
    · rw [Except.ok.injEq, List.append_cancel_right_eq] at hyields
      intro part hpart
      exact htable.stored _ (hyields ▸ List.mem_map_of_mem hpart)
    · cases hyields

end Form

/-- The value `a+b` under the name `t`. -/
def plusPart : FormPart where
  name := [116]
  filename := none
  lines := []
  content := [97, 43, 98]
  name_ok := by constructor <;> decide +kernel
  filename_ok := by simp
  lines_ok := by simp
  content_ok := by decide

/-- The boundary `b`. -/
def letterBoundary : Boundary where
  bytes := [98]
  plain := by constructor <;> decide
  length_le := by decide

/-- A form without query string and cookies. -/
def formRequest (parts : List FormPart) : HttpRequest where
  contentLength := (encodeForm letterBoundary parts true).length
  stdin := encodeForm letterBoundary parts true
  contentType := multipartstr ++ [98]
  queryString := []
  cookie := []

end Ytht
