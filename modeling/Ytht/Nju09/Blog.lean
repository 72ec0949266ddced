import Mathlib.Data.List.TakeWhile
import Ytht.Lib.Runs
import Ytht.Lib.Tally

/-!
# Nju09.Blog

The counters of a blog.  `blogPost` files an article under a subject and up to
five tags and counts it there, `blogUpdatePost` moves an article and its tags
over.  Both fail here (`none`) where the C code would change an entry outside
the tables.

The counters stay right as long as the numbers stay inside the tables, and that
is not always seen to (`blog_run`): a negative subject is not turned away by
`blogPost`, which tests `subject == 0` where only negative numbers are left to
test, and `blogUpdatePost` takes one off the counter of tag -1 when it fills a
slot that was free (`blogUpdatePost_outside`).

Titles, texts and the counts of comments are left out.
-/

namespace Ytht

open Tally Runs

abbrev maxtag : Nat := 5

/-- An `int` stored in a `short`. -/
def short (x : Int) : Int := Int.bmod x (2 ^ 16)

/-- `struct BlogHeader`; a slot without a tag is -1. -/
structure BlogHeader where
  fileTime : Int
  modifyTime : Int
  subject : Int
  tag : List Int
  length_tag : tag.length = maxtag
  deriving DecidableEq

/-- `struct Blog`: the `count` fields of the two tables, and the index file. -/
structure Blog where
  subject : List Int
  tag : List Int
  index : List BlogHeader
  deriving DecidableEq

namespace Blog

abbrev nSubject (blog : Blog) : Nat := blog.subject.length

abbrev nTag (blog : Blog) : Nat := blog.tag.length

end Blog

/-- The loop over the tags, from a slot on.  An update releases the tag a slot
had before. -/
def fillTags (release : Bool) (nTag : Nat) :
    List Int → List Int → List Int → Option (List Int × List Int)
  | slot :: slots, t :: tags, counts =>
      if t < 0 ∨ nTag ≤ t then some (slot :: slots, counts)
      else do
        let counts ← if release then bump counts slot (-1) else some counts
        let counts ← bump counts t 1
        let (slots, counts) ← fillTags release nTag slots tags counts
        some (short t :: slots, counts)
  | slots, _, counts => some (slots, counts)

/-- The tags a loop accepts: up to the first that is not in the table, and no more
than there are slots. -/
def givenTags (nTag n : Nat) (tags : List Int) : List Int :=
  (tags.takeWhile fun t : Int => 0 ≤ t ∧ t < nTag).take n

/-- The slots a loop overwrites, if it releases them. -/
def releasedTags (release : Bool) (slots given : List Int) : List Int :=
  if release then slots.take given.length else []

/-- **The loop over the tags** changes the counters by the tags it puts in and the
ones it takes out. -/
theorem fillTags_eq (release : Bool) (nTag : Nat) (slots tags counts : List Int) :
    fillTags release nTag slots tags counts =
      (bumpAll counts (swaps (releasedTags release slots (givenTags nTag slots.length tags))
        (givenTags nTag slots.length tags))).map fun counts =>
          ((givenTags nTag slots.length tags).map short ++
            slots.drop (givenTags nTag slots.length tags).length, counts) := by
  induction slots generalizing tags counts with
  | nil => cases tags <;> cases release <;> simp [fillTags, givenTags, releasedTags, swaps]
  | cons slot slots ih =>
      cases tags with
      | nil => cases release <;> simp [fillTags, givenTags, releasedTags, swaps]
      | cons t tags =>
          rw [fillTags]
          by_cases ht : t < 0 ∨ nTag ≤ t
          · have hno : ¬ (0 ≤ t ∧ t < nTag) := by omega
            rw [if_pos ht]
            cases release <;> simp [givenTags, releasedTags, swaps, hno]
          · have hyes : 0 ≤ t ∧ t < nTag := by omega
            have hgiven : givenTags nTag (slot :: slots).length (t :: tags) =
                t :: givenTags nTag slots.length tags := by
              simp [givenTags, hyes]
            have hmap (o : Option (List Int)) (given : List Int) :
                (o.map fun counts => (given.map short ++ slots.drop given.length, counts)).bind
                    (fun r => some (short t :: r.1, r.2)) =
                  o.map fun counts => ((t :: given).map short ++
                    (slot :: slots).drop (t :: given).length, counts) := by
              cases o <;> simp
            rw [if_neg ht, hgiven, ← hmap]
            cases release with
            | false =>
                simp only [releasedTags, swaps, List.map_cons, bumpAll_cons, Bool.false_eq_true,
                  if_false, Option.bind_eq_bind, Option.bind_some] at ih ⊢
                cases bump counts t 1 <;> simp [ih]
            | true =>
                simp only [releasedTags, swaps, List.take_succ_cons, List.length_cons, bumpAll_cons,
                  if_true, Option.bind_eq_bind] at ih ⊢
                cases bump counts slot (-1) with
                | none => rfl
                | some counts₁ =>
                    simp only [Option.bind_some]
                    cases bump counts₁ t 1 <;> simp [ih]

theorem length_givenTags_le (nTag n : Nat) (tags : List Int) :
    (givenTags nTag n tags).length ≤ n :=
  List.length_take_le _ _

theorem mem_givenTags {nTag n : Nat} {tags : List Int} {t : Int} (h : t ∈ givenTags nTag n tags) :
    0 ≤ t ∧ t < nTag := by
  have := List.mem_takeWhile_imp (List.mem_of_mem_take h)
  simpa using this

theorem length_fillTags {release : Bool} {nTag : Nat} {slots tags counts slots' counts' : List Int}
    (h : fillTags release nTag slots tags counts = some (slots', counts')) :
    slots'.length = slots.length := by
  rw [fillTags_eq, Option.map_eq_some_iff] at h
  obtain ⟨_, -, heq⟩ := h
  cases heq
  have := length_givenTags_le nTag slots.length tags
  simp
  omega

/-- The loop on the slots of a header. -/
def BlogHeader.fill (header : BlogHeader) (release : Bool) (nTag : Nat) (tags counts : List Int) :
    Option (BlogHeader × List Int) :=
  match h : fillTags release nTag header.tag tags counts with
  | none => none
  | some (slots, counts) =>
      some ({ header with tag := slots, length_tag := (length_fillTags h).trans header.length_tag },
        counts)

/-! ## blogPost and blogUpdatePost -/

/-- The end of `blogPost`: the new header is counted under its subject and tags and
written to the end of the index. -/
def Blog.file (blog : Blog) (header : BlogHeader) (subject : Int) (tags : List Int)
    (appended : Bool) : Option Blog := do
  let subjects ← bump blog.subject subject 1
  let (header, tag) ← header.fill false blog.nTag tags blog.tag
  -- the result of `append_record` is not looked at
  some { subject := subjects
         tag := tag
         index := if appended then blog.index ++ [header] else blog.index }

/-- `blogPost`.  `fileTime` is what `trycreatefile` returns, `copied` and `appended`
tell whether the text could be copied and the header written; `tags` are the
`nTag` numbers given, none when the pointer is NULL. -/
def blogPost (blog : Blog) (fileTime : Int) (copied appended : Bool) (subject : Int)
    (tags : List Int) : Option (Int × Blog) :=
  if fileTime < 0 then some (-1, blog)
  else if copied = false then some (-1, blog)
  else
    let subject := if blog.nSubject ≤ subject ∨ subject = 0 then 0 else subject
    let header : BlogHeader :=
      { fileTime := fileTime
        modifyTime := 0
        subject := short subject
        tag := List.replicate maxtag (-1)
        length_tag := List.length_replicate }
    (blog.file header subject tags appended).map fun blog => (fileTime, blog)

/-- `findBlogArticle`. -/
def findBlogArticle (blog : Blog) (fileTime : Int) : Option Nat :=
  blog.index.findIdx? fun header => header.fileTime = fileTime

/-- The subject an update gives to a header. -/
def BlogHeader.moveTo (header : BlogHeader) (subject : Int) (subjects : List Int) :
    Option (BlogHeader × List Int) :=
  if subject < subjects.length ∧ 0 ≤ subject then do
    let subjects ← bump subjects header.subject (-1)
    let header := { header with subject := short subject }
    let subjects ← bump subjects header.subject 1
    some (header, subjects)
  else some (header, subjects)

/-- The end of `blogUpdatePost`: the header is counted under its new subject and tags
and goes back to its place. -/
def Blog.refile (blog : Blog) (n : Nat) (header : BlogHeader) (subject : Int) (tags : List Int) :
    Option Blog := do
  let (header, subjects) ← header.moveTo subject blog.subject
  let (header, tag) ← header.fill true blog.nTag tags blog.tag
  some { subject := subjects, tag := tag, index := blog.index.set n header }

/-- `blogUpdatePost`; `copied` is false when there is a text and it could not be
copied. -/
def blogUpdatePost (blog : Blog) (now fileTime : Int) (copied : Bool) (subject : Int)
    (tags : List Int) : Option (Int × Blog) :=
  if fileTime < 0 then some (-1, blog)
  else
    match findBlogArticle blog fileTime with
    | none => some (-1, blog)
    | some n =>
        if copied = false then some (-1, blog)
        else do
          let header ← blog.index[n]?
          let blog ← blog.refile n { header with modifyTime := now } subject tags
          some (fileTime, blog)

/-! ## What keeps the counters right -/

namespace Blog

def subjects (blog : Blog) : List Int := blog.index.map BlogHeader.subject

def tags (blog : Blog) : List Int := blog.index.flatMap BlogHeader.tag

/-- The counters tell how many articles a subject has, and how many slots a tag. -/
structure Correct (blog : Blog) : Prop where
  subject : Agrees blog.subject blog.subjects
  tag : Agrees blog.tag blog.tags

instance (blog : Blog) : Decidable blog.Correct :=
  decidable_of_iff (Agrees blog.subject blog.subjects ∧ Agrees blog.tag blog.tags)
    ⟨fun h => ⟨h.1, h.2⟩, fun h => ⟨h.subject, h.tag⟩⟩

end Blog

/-- A call on a blog. -/
inductive BlogCall
  | post (fileTime : Int) (copied appended : Bool) (subject : Int) (tags : List Int)
  | update (now fileTime : Int) (copied : Bool) (subject : Int) (tags : List Int)

def blogStep (blog : Blog) : BlogCall → Option Blog
  | .post fileTime copied appended subject tags =>
      (blogPost blog fileTime copied appended subject tags).map Prod.snd
  | .update now fileTime copied subject tags =>
      (blogUpdatePost blog now fileTime copied subject tags).map Prod.snd

/-- A number that a header can hold. -/
def FitsShort (x : Int) : Prop := x < 2 ^ 15

instance (x : Int) : Decidable (FitsShort x) := inferInstanceAs (Decidable (_ < _))

/-- A post is counted where it is filed: its header is written, the subject is not
negative and there is a first subject for one that is too large. -/
def Blog.CountsPost (blog : Blog) (fileTime : Int) (copied appended : Bool) (subject : Int)
    (tags : List Int) : Prop :=
  0 ≤ fileTime → copied = true →
    appended = true ∧ 0 ≤ subject ∧ 0 < blog.nSubject ∧
      (subject < blog.nSubject → FitsShort subject) ∧
      ∀ t ∈ givenTags blog.nTag maxtag tags, FitsShort t

/-- An update is counted where it is filed: what it replaces is in the tables, so no
slot that gets a tag was free. -/
def Blog.CountsUpdate (blog : Blog) (fileTime : Int) (copied : Bool) (subject : Int)
    (tags : List Int) : Prop :=
  0 ≤ fileTime → copied = true → ∀ n ∈ findBlogArticle blog fileTime, ∀ header ∈ blog.index[n]?,
    (subject < blog.nSubject → 0 ≤ subject →
      (0 ≤ header.subject ∧ header.subject < blog.nSubject) ∧ 0 ≤ short subject) ∧
    (∀ t ∈ givenTags blog.nTag maxtag tags, FitsShort t) ∧
    ∀ t ∈ header.tag.take (givenTags blog.nTag maxtag tags).length, 0 ≤ t ∧ t < blog.nTag

def Blog.Counts (blog : Blog) : BlogCall → Prop
  | .post fileTime copied appended subject tags =>
      blog.CountsPost fileTime copied appended subject tags
  | .update _ fileTime copied subject tags => blog.CountsUpdate fileTime copied subject tags

instance (blog : Blog) (call : BlogCall) : Decidable (blog.Counts call) :=
  match call with
  | .post .. => inferInstanceAs (Decidable (_ → _))
  | .update .. => inferInstanceAs (Decidable (_ → _))

theorem short_lt (x : Int) : short x < 2 ^ 15 := by
  unfold short
  have := @Int.bmod_lt x (2 ^ 16) (by decide)
  omega

theorem short_of_fits {x : Int} (h0 : 0 ≤ x) (h : FitsShort x) : short x = x := by
  unfold FitsShort at h
  unfold short
  exact Int.bmod_eq_of_le (by omega) (by omega)

/-- Numbers of a table keep their counts in a header when they fit there. -/
theorem count_short_iff {ins : List Int} {n : Nat} (hins : ∀ t ∈ ins, 0 ≤ t ∧ t < n) :
    (∀ k : Nat, k < n → (ins.map short).count (k : Int) = ins.count (k : Int)) ↔
      ∀ t ∈ ins, FitsShort t := by
  constructor
  · intro h t ht
    obtain ⟨ht0, htn⟩ := hins t ht
    obtain ⟨k, rfl⟩ := Int.eq_ofNat_of_zero_le ht0
    have hpos : 0 < (ins.map short).count (k : Int) := by
      rw [h k (by omega)]
      exact List.count_pos_iff.mpr ht
    obtain ⟨u, -, hu⟩ := List.mem_map.mp (List.count_pos_iff.mp hpos)
    rw [FitsShort, ← hu]
    exact short_lt u
  · intro h k _
    rw [List.map_congr_left fun t ht => short_of_fits (hins t ht).1 (h t ht), List.map_id']

theorem BlogHeader.fill_isSome {header : BlogHeader} {release : Bool} {nTag : Nat}
    {tags counts : List Int} (hcounts : counts.length = nTag) :
    (header.fill release nTag tags counts).isSome ↔
      ∀ t ∈ releasedTags release header.tag (givenTags nTag maxtag tags), 0 ≤ t ∧ t < nTag := by
  have hfill : (header.fill release nTag tags counts).isSome =
      (fillTags release nTag header.tag tags counts).isSome := by
    unfold BlogHeader.fill
    split <;> simp [*]
  rw [hfill, fillTags_eq, header.length_tag, Option.isSome_map, bumpAll_isSome, hcounts,
    @forall_mem_swaps fun t => 0 ≤ t ∧ t < nTag]
  exact and_iff_left fun t ht => mem_givenTags ht

theorem BlogHeader.fill_eq_some {header header' : BlogHeader} {release : Bool} {nTag : Nat}
    {tags counts counts' : List Int}
    (h : header.fill release nTag tags counts = some (header', counts')) :
    header'.subject = header.subject ∧
      header'.tag = (givenTags nTag maxtag tags).map short ++
        header.tag.drop (givenTags nTag maxtag tags).length ∧
      bumpAll counts (swaps (releasedTags release header.tag (givenTags nTag maxtag tags))
        (givenTags nTag maxtag tags)) = some counts' := by
  unfold BlogHeader.fill at h
  split at h
  · contradiction
  · next slots counts₁ hfill =>
    cases h
    rw [fillTags_eq, header.length_tag, Option.map_eq_some_iff] at hfill
    obtain ⟨counts₂, hb, heq⟩ := hfill
    cases heq
    exact ⟨rfl, rfl, hb⟩

/-! ## One call -/

/-- The subject an article is filed under, said of the number that was given. -/
theorem filed_iff {n : Nat} {subject : Int} :
    (0 ≤ subject ∧ 0 < n ∧ (subject < n → FitsShort subject)) ↔
      (0 ≤ (if n ≤ subject ∨ subject = 0 then 0 else subject) ∧
        (if n ≤ subject ∨ subject = 0 then 0 else subject) < (n : Int)) ∧
        FitsShort (if n ≤ subject ∨ subject = 0 then 0 else subject) := by
  unfold FitsShort
  split <;> omega

/-- A free slot is not counted. -/
theorem count_free (n k : Nat) : (List.replicate n (-1 : Int)).count (k : Int) = 0 := by
  simp [List.count_replicate]

/-- An article whose header is not written leaves its subject counted too high. -/
theorem not_agrees_of_unfiled {counts counts' l : List Int} {i : Int} (h : Agrees counts l)
    (hb : bump counts i 1 = some counts') : ¬ Agrees counts' l := by
  have hi : 0 ≤ i ∧ i < counts.length := bump_isSome.mp (by rw [hb]; rfl)
  obtain ⟨hlen, hget⟩ := bump_eq_some hb
  obtain ⟨k, rfl⟩ := Int.eq_ofNat_of_zero_le hi.1
  intro hno
  have hold := h k (by omega)
  have hnew := hno k (by omega)
  have hup := hget k (by omega)
  rw [if_pos rfl] at hup
  omega

theorem Blog.Correct.file_iff {blog : Blog} (h : blog.Correct) {header : BlogHeader}
    {subject : Int} (tags : List Int) (appended : Bool) (hsubject : header.subject = short subject)
    (htag : header.tag = List.replicate maxtag (-1)) :
    (∃ blog', blog.file header subject tags appended = some blog' ∧ blog'.Correct) ↔
      appended = true ∧ ((0 ≤ subject ∧ subject < blog.nSubject) ∧ FitsShort subject) ∧
        ∀ t ∈ givenTags blog.nTag maxtag tags, FitsShort t := by
  unfold Blog.file
  cases hb : bump blog.subject subject 1 with
  | none =>
      have hout : ¬ (0 ≤ subject ∧ subject < blog.nSubject) := by
        rw [← bump_isSome (d := 1), hb]
        simp
      simp [hout]
  | some subjects =>
      have hin : 0 ≤ subject ∧ subject < blog.nSubject := bump_isSome.mp (by rw [hb]; rfl)
      have hfill : (header.fill false blog.nTag tags blog.tag).isSome :=
        (BlogHeader.fill_isSome rfl).mpr (by simp [releasedTags])
      obtain ⟨⟨header', counts⟩, hfill⟩ := Option.isSome_iff_exists.mp hfill
      obtain ⟨hsubject', htag', hcounts⟩ := BlogHeader.fill_eq_some hfill
      simp only [hfill, hin, Option.bind_eq_bind, Option.bind_some, Option.some.injEq,
        exists_eq_left', and_self, true_and]
      cases appended with
      | false =>
          simp only [Bool.false_eq_true, if_false, false_and, iff_false]
          exact fun hno => not_agrees_of_unfiled h.subject hb hno.subject
      | true =>
          have hb' : bumpAll blog.subject (swaps [] [subject]) = some subjects := by
            simp [swaps, hb]
          have hs : Agrees subjects ((blog.index ++ [header']).map BlogHeader.subject) ↔
              FitsShort subject := by
            rw [agrees_swaps_iff blog.subjects short h.subject hb' (by simp)
              (by simp [Blog.subjects, hsubject', hsubject, Nat.add_comm])]
            exact (count_short_iff (by simpa using hin)).trans List.forall_mem_singleton
          have ht : Agrees counts ((blog.index ++ [header']).flatMap BlogHeader.tag) ↔
              ∀ t ∈ givenTags blog.nTag maxtag tags, FitsShort t := by
            rw [agrees_swaps_iff blog.tags short h.tag hcounts (by simp [releasedTags])
              (by simp [Blog.tags, htag', htag, count_free, Nat.add_comm])]
            exact count_short_iff fun t => mem_givenTags
          simp only [if_true, true_and, ← hs, ← ht]
          exact ⟨fun hc => ⟨hc.subject, hc.tag⟩, fun hc => ⟨hc.1, hc.2⟩⟩

theorem blogPost_counts_iff {blog : Blog} (h : blog.Correct) (fileTime : Int)
    (copied appended : Bool) (subject : Int) (tags : List Int) :
    (∃ blog', blogStep blog (.post fileTime copied appended subject tags) = some blog' ∧
        blog'.Correct) ↔
      blog.CountsPost fileTime copied appended subject tags := by
  unfold blogStep blogPost Blog.CountsPost
  by_cases htime : fileTime < 0
  · simp [htime, h, show ¬ 0 ≤ fileTime by omega]
  cases copied with
  | false => simp [h]
  | true =>
      have h0 : 0 ≤ fileTime := by omega
      simp only [htime, h0, Bool.true_eq_false, if_false, true_implies, Option.map_map,
        Function.comp_def, Option.map_id']
      rw [h.file_iff tags appended rfl rfl, ← filed_iff]
      simp only [and_assoc]

/-- The slots of the index when one header is replaced. -/
theorem count_set {l : List BlogHeader} {n : Nat} {old : BlogHeader} (hold : l[n]? = some old)
    (new : BlogHeader) (f : BlogHeader → List Int) :
    ∃ rest : List Int, (∀ k, (l.flatMap f).count k = (f old).count k + rest.count k) ∧
      ∀ k, ((l.set n new).flatMap f).count k = (f new).count k + rest.count k := by
  obtain ⟨hn, rfl⟩ := List.getElem?_eq_some_iff.mp hold
  refine ⟨(l.take n ++ l.drop (n + 1)).flatMap f, fun k => ?_, fun k => ?_⟩
  · conv_lhs => rw [← List.take_append_drop n l, List.drop_eq_getElem_cons hn]
    simp only [List.flatMap_append, List.flatMap_cons, List.count_append]
    omega
  · rw [List.set_eq_take_append_cons_drop, if_pos hn]
    simp only [List.flatMap_append, List.flatMap_cons, List.count_append]
    omega

theorem short_le {x : Int} (h : 0 ≤ x) : short x ≤ x := by
  unfold short
  rw [Int.bmod_def]
  split <;> omega

theorem BlogHeader.moveTo_isSome {header : BlogHeader} {subject : Int} {subjects : List Int} :
    (header.moveTo subject subjects).isSome ↔
      (subject < subjects.length → 0 ≤ subject →
        (0 ≤ header.subject ∧ header.subject < subjects.length) ∧ 0 ≤ short subject) := by
  unfold BlogHeader.moveTo
  by_cases hin : subject < subjects.length ∧ 0 ≤ subject
  · have hle := short_le hin.2
    rw [if_pos hin]
    simp only [hin.1, hin.2, true_implies, ← bump_isSome (d := -1), Option.bind_eq_bind]
    cases hb : bump subjects header.subject (-1) with
    | none => simp
    | some counts =>
        obtain ⟨hlen, -⟩ := bump_eq_some hb
        have hsome := @bump_isSome counts (short subject) 1
        simp only [Option.bind_some, Option.isSome_some, true_and]
        cases hb' : bump counts (short subject) 1 with
        | none =>
            rw [hb'] at hsome
            simp only [Option.isSome_none, Bool.false_eq_true, false_iff] at hsome
            simp only [Option.bind_none, Option.isSome_none, Bool.false_eq_true, false_iff]
            omega
        | some counts' =>
            rw [hb'] at hsome
            simp only [Option.isSome_some, true_iff] at hsome
            simp [hsome.1]
  · rw [if_neg hin]
    simpa using fun h1 h2 => absurd ⟨h1, h2⟩ hin

theorem BlogHeader.moveTo_tag {header header' : BlogHeader} {subject : Int}
    {subjects subjects' : List Int}
    (h : header.moveTo subject subjects = some (header', subjects')) : header'.tag = header.tag := by
  unfold BlogHeader.moveTo at h
  split at h
  · simp only [Option.bind_eq_bind, Option.bind_eq_some_iff, Option.some.injEq, Prod.mk.injEq] at h
    obtain ⟨_, -, _, -, rfl, -⟩ := h
    rfl
  · cases h
    rfl

/-- An article counted under its old subject is counted under the new one. -/
theorem BlogHeader.moveTo_agrees {header header' : BlogHeader} {subject : Int}
    {subjects subjects' l l' rest : List Int}
    (h : header.moveTo subject subjects = some (header', subjects')) (hl : Agrees subjects l)
    (hold : ∀ k : Int, l.count k = [header.subject].count k + rest.count k)
    (hnew : ∀ k : Int, l'.count k = [header'.subject].count k + rest.count k) :
    Agrees subjects' l' := by
  unfold BlogHeader.moveTo at h
  split at h
  · simp only [Option.bind_eq_bind, Option.bind_eq_some_iff, Option.some.injEq, Prod.mk.injEq] at h
    obtain ⟨counts, hb, counts', hb', rfl, rfl⟩ := h
    have hswap : bumpAll subjects (swaps [header.subject] [short subject]) = some counts' := by
      simp [swaps, hb, hb']
    rw [agrees_swaps_iff rest id hl hswap (fun k => hold k) (fun k => by rw [hnew]; rfl)]
    simp
  · simp only [Option.some.injEq, Prod.mk.injEq] at h
    obtain ⟨rfl, rfl⟩ := h
    intro k hk
    rw [hl k hk, hold, hnew]

theorem Blog.Correct.refile_iff {blog : Blog} (h : blog.Correct) {n : Nat}
    {old header : BlogHeader} (subject : Int) (tags : List Int) (hold : blog.index[n]? = some old)
    (hsubject : header.subject = old.subject) (htag : header.tag = old.tag) :
    (∃ blog', blog.refile n header subject tags = some blog' ∧ blog'.Correct) ↔
      (subject < blog.nSubject → 0 ≤ subject →
        (0 ≤ old.subject ∧ old.subject < blog.nSubject) ∧ 0 ≤ short subject) ∧
      (∀ t ∈ givenTags blog.nTag maxtag tags, FitsShort t) ∧
      ∀ t ∈ old.tag.take (givenTags blog.nTag maxtag tags).length, 0 ≤ t ∧ t < blog.nTag := by
  unfold Blog.refile
  have hmove := @BlogHeader.moveTo_isSome header subject blog.subject
  rw [hsubject] at hmove
  rw [← hmove]
  cases hm : header.moveTo subject blog.subject with
  | none => simp
  | some moved =>
      obtain ⟨header', subjects⟩ := moved
      have hfilled := @BlogHeader.fill_isSome header' true blog.nTag tags blog.tag rfl
      have htag' : header'.tag = old.tag := (BlogHeader.moveTo_tag hm).trans htag
      rw [releasedTags, if_pos rfl, htag'] at hfilled
      rw [← hfilled]
      simp only [Option.bind_eq_bind, Option.bind_some, Option.isSome_some, true_and]
      cases hf : header'.fill true blog.nTag tags blog.tag with
      | none => simp
      | some filled =>
          obtain ⟨header'', counts⟩ := filled
          obtain ⟨hs'', ht'', hcounts⟩ := BlogHeader.fill_eq_some hf
          rw [releasedTags, if_pos rfl, htag'] at hcounts
          rw [htag'] at ht''
          have hs : Agrees subjects ((blog.index.set n header'').map BlogHeader.subject) := by
            obtain ⟨rest, hl, hl'⟩ := count_set hold header'' fun header => [header.subject]
            rw [← List.map_eq_flatMap] at hl hl'
            exact BlogHeader.moveTo_agrees hm h.subject (by rw [hsubject]; exact hl)
              (by rw [← hs'']; exact hl')
          have ht : Agrees counts ((blog.index.set n header'').flatMap BlogHeader.tag) ↔
              ∀ t ∈ givenTags blog.nTag maxtag tags, FitsShort t := by
            obtain ⟨rest, hl, hl'⟩ := count_set hold header'' BlogHeader.tag
            rw [agrees_swaps_iff (old.tag.drop (givenTags blog.nTag maxtag tags).length ++ rest) short
              h.tag hcounts]
            · exact count_short_iff fun t => mem_givenTags
            · intro k
              rw [Blog.tags, hl, List.count_append, ← Nat.add_assoc, Nat.add_right_cancel_iff,
                ← List.count_append, List.take_append_drop]
            · intro k
              rw [hl', ht'', List.count_append, List.count_append, Nat.add_assoc]
          simp only [Option.bind_some, Option.isSome_some, and_true, Option.some.injEq,
            exists_eq_left', ← ht]
          exact ⟨fun hc => hc.tag, fun hc => ⟨hs, hc⟩⟩

theorem blogUpdatePost_counts_iff {blog : Blog} (h : blog.Correct) (now fileTime : Int)
    (copied : Bool) (subject : Int) (tags : List Int) :
    (∃ blog', blogStep blog (.update now fileTime copied subject tags) = some blog' ∧
        blog'.Correct) ↔
      blog.CountsUpdate fileTime copied subject tags := by
  unfold blogStep blogUpdatePost Blog.CountsUpdate
  by_cases htime : fileTime < 0
  · simp [htime, h, show ¬ 0 ≤ fileTime by omega]
  cases hfind : findBlogArticle blog fileTime with
  | none => simp [htime, h, hfind]
  | some n =>
      cases copied with
      | false => simp [htime, h, hfind]
      | true =>
          obtain ⟨hn, -⟩ := List.findIdx?_eq_some_iff_getElem.mp hfind
          have hold : blog.index[n]? = some (blog.index[n]) := List.getElem?_eq_getElem hn
          let header : BlogHeader := { blog.index[n] with modifyTime := now }
          have hiff := @Blog.Correct.refile_iff blog h n _ header subject tags hold rfl rfl
          have hmap (o : Option Blog) :
              (o.bind fun blog => some (fileTime, blog)).map Prod.snd = o := by
            cases o <;> rfl
          simp only [htime, hfind, hold, show 0 ≤ fileTime by omega, if_false, Bool.true_eq_false,
            true_implies, Option.bind_eq_bind, Option.bind_some, Option.mem_def, Option.some.injEq,
            forall_eq', hmap]
          exact hiff

/-! ## Any calls -/

/-- **The counters stay right** and nothing outside the tables is touched exactly as
long as each call meets its condition. -/
theorem blog_run {blog₀ blog : Blog} {calls : List BlogCall} (h : blog₀.Correct)
    (hrun : Run (when Blog.Counts blogStep) blog₀ calls blog) :
    blog.Correct ∧
      ∀ call, blog.Counts call ↔ ∃ blog', blogStep blog call = some blog' ∧ blog'.Correct := by
  have hone (blog : Blog) (h : blog.Correct) (call : BlogCall) :
      blog.Counts call ↔ ∃ blog', blogStep blog call = some blog' ∧ blog'.Correct := by
    cases call with
    | post => exact (blogPost_counts_iff h ..).symm
    | update => exact (blogUpdatePost_counts_iff h ..).symm
  have hcorrect : blog.Correct := by
    refine hrun.invariant_when Blog.Correct h ?_
    intro blog call blog' hc hcounts hstep
    obtain ⟨blog'', hstep', hc'⟩ := (hone blog hc call).mp hcounts
    rw [hstep', Option.some.injEq] at hstep
    rwa [← hstep]
  exact ⟨hcorrect, hone blog hcorrect⟩

/-- The blog `createBlog` makes, with two tags. -/
def newBlog : Blog := ⟨[0], [0, 0], []⟩

/-- An article with a tag is posted, and given another. -/
theorem blog_run_newBlog :
    ∃ blog : Blog, blog.tag = [0, 1] ∧ blog.Correct ∧
      ∀ call, blog.Counts call ↔ ∃ blog', blogStep blog call = some blog' ∧ blog'.Correct := by
  have hexec : (exec (when Blog.Counts blogStep) newBlog
      [.post 1 true true 0 [0], .update 2 1 true 0 [1]]).any (fun blog => blog.tag = [0, 1]) = true := by
    decide +kernel
  obtain ⟨blog, hblog, htag⟩ := (Option.any_eq_true _ _).mp hexec
  exact ⟨blog, of_decide_eq_true htag, blog_run (by decide) (Run.of_exec hblog)⟩

/-- A negative subject is filed outside the table; and so is the first tag of an
article that had none. -/
theorem blogUpdatePost_outside :
    newBlog.Correct ∧ blogStep newBlog (.post 1 true true (-2) []) = none ∧
      ∃ blog, blogStep newBlog (.post 1 true true 0 []) = some blog ∧ blog.Correct ∧
        blogStep blog (.update 2 1 true 0 [0]) = none := by
  refine ⟨by decide, by decide +kernel, ?_⟩
  have hpost : (blogStep newBlog (.post 1 true true 0 [])).any (fun blog =>
      blog.Correct ∧ blogStep blog (.update 2 1 true 0 [0]) = none) = true := by
    decide +kernel
  obtain ⟨blog, hblog, hout⟩ := (Option.any_eq_true _ _).mp hpost
  exact ⟨blog, hblog, of_decide_eq_true hout⟩

end Ytht
