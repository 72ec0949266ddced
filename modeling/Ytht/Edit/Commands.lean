import Ytht.Edit.Article

/-!
# Edit.Commands

Every command of the editor leaves the cursor in the document, but `gotoline` when it
is asked for the line behind the last one: `cursor_run` is this for the commands of a
session, from any document.
-/

namespace Ytht

open Function Runs

namespace Edit

variable {c : EditConf} {e : Edit} {ids l₁ l₂ : List Nat}

/-! ## Deleting a line -/

/-- The lines that are left by `Ctrl('Y')` of more than one. -/
theorem Place.keyDeleteLine_doc (hp : e.Place l₁ l₂)
    (hmore : ¬(e.heap.prev e.curline = 0 ∧ e.heap.next e.curline = 0)) :
    e.keyDeleteLine.heap.Doc (l₁ ++ l₂) := by
  obtain ⟨hprev, hnext, hlive, hfresh⟩ : e.keyDeleteLine.heap.prev =
        (if e.heap.next e.curline ≠ 0 then
          update e.heap.prev (e.heap.next e.curline) (e.heap.prev e.curline) else e.heap.prev) ∧
      e.keyDeleteLine.heap.next = (if e.heap.prev e.curline ≠ 0 then
        update e.heap.next (e.heap.prev e.curline) (e.heap.next e.curline) else e.heap.next) ∧
      e.keyDeleteLine.heap.live = update e.heap.live e.curline false ∧
      e.keyDeleteLine.heap.fresh = e.heap.fresh := by
    unfold keyDeleteLine
    dsimp only
    rw [if_neg hmore]
    split_ifs <;> simp [LineHeap.free, LineHeap.setNext, LineHeap.setPrev, LineHeap.setBr,
      LineHeap.setLine]
  obtain ⟨hself, hself', hapart⟩ := hp.doc.notMem
  obtain ⟨hnext₁, -, hnext₂⟩ := hp.doc.next_notMem
  have hnextEq := hp.doc.next_eq
  have hprevEq := hp.doc.prev_eq
  refine hp.doc.dropLine ?_ ?_ ?_ ?_ ?_ hfresh
  · intro x hx
    have hne : x ≠ e.heap.next e.curline := by
      rintro rfl
      cases List.mem_append.mp hx with
      | inl hx => exact hnext₁ hx
      | inr hx => exact hnext₂ hx
    rw [hprev]
    split
    · rw [update_of_ne hne]
    · rfl
  · intro x hx
    rw [hnext]
    split
    · next hlink =>
        obtain ⟨b, l₃, rfl, hb⟩ := hp.doc.exists_prev hlink
        have hne : x ≠ b := by
          rintro rfl
          have hnodup := (List.nodup_cons.mp hp.doc.nodup).2
          rw [List.dropLast_concat] at hx
          cases List.mem_append.mp hx with
          | inl hx =>
              have hfront := (List.nodup_append.mp hnodup).1
              rw [List.nodup_append] at hfront
              exact hfront.2.2 x hx x (by simp) rfl
          | inr hx => exact hapart x (by simp) hx
        rw [hb, update_of_ne hne]
    · rfl
  · intro x hx
    have hlast : l₁.getLastD 0 = x := by
      rw [List.getLastD_eq_getLast?, hx]
      rfl
    have hx0 : x ≠ 0 := hp.doc.ne_zero (List.mem_append_left _ (List.mem_of_getLast? hx))
    rw [hnext, hprevEq, hlast, if_pos hx0, update_self, hnextEq]
  · intro x hx
    have hhead : l₂.headD 0 = x := by
      rw [List.headD_eq_head?_getD, hx]
      rfl
    have hx0 : x ≠ 0 := by
      refine hp.doc.ne_zero (List.mem_append_right _ (List.mem_cons_of_mem _ ?_))
      exact List.mem_of_head? hx
    rw [hprev, hnextEq, hhead, if_pos hx0, update_self, hprevEq]
  · intro x hx
    rw [hlive, update_of_ne]
    rintro rfl
    cases List.mem_append.mp hx with
    | inl hx => exact hself hx
    | inr hx => exact hself' hx

/-- **`Ctrl('Y')`** goes to the line behind, or to the one before when there is none. -/
theorem On.keyDeleteLine (h : e.On ids) : e.keyDeleteLine.Ok := by
  obtain ⟨l₁, l₂, rfl, hp⟩ := h
  by_cases hmore : e.heap.prev e.curline = 0 ∧ e.heap.next e.curline = 0
  · have hkey : e.keyDeleteLine = { e with
        col := 0, colcur := 0, heap := e.heap.setLine e.curline ⟨[], false⟩ } := by
      unfold Edit.keyDeleteLine
      exact if_pos hmore
    rw [hkey]
    have hdoc : (e.heap.setLine e.curline ⟨[], false⟩).Doc (l₁ ++ e.curline :: l₂) :=
      hp.doc.congr rfl rfl rfl rfl
    exact ⟨⟨_, (hp.withHeap hdoc).on.congr rfl rfl rfl rfl rfl⟩, inLine_zero rfl⟩
  · have hdoc := hp.keyDeleteLine_doc hmore
    obtain ⟨hcol, hfirst, hcur, hline, hlinecur⟩ : e.keyDeleteLine.col = 0 ∧
        e.keyDeleteLine.firstline =
          (if e.heap.prev e.curline ≠ 0 then e.firstline else e.heap.next e.curline) ∧
        e.keyDeleteLine.curline =
          (if e.heap.next e.curline ≠ 0 then e.heap.next e.curline else e.heap.prev e.curline) ∧
        e.keyDeleteLine.line = (if e.heap.next e.curline ≠ 0 then e.line else e.line - 1) ∧
        e.keyDeleteLine.linecur =
          (if e.heap.next e.curline ≠ 0 then e.linecur else e.linecur - 1) := by
      unfold Edit.keyDeleteLine
      dsimp only
      rw [if_neg hmore]
      split_ifs <;> simp
    refine ⟨⟨l₁ ++ l₂, ?_⟩, inLine_zero hcol⟩
    have hle := hp.linecur
    cases l₂ with
    | nil =>
        have hnext : e.heap.next e.curline = 0 := hp.doc.next_eq
        have hprev : e.heap.prev e.curline ≠ 0 := fun hprev => hmore ⟨hprev, hnext⟩
        rw [if_neg (not_not.mpr hnext)] at hcur hline hlinecur
        rw [if_pos hprev, hp.first] at hfirst
        obtain ⟨b, l₃, rfl, hb⟩ := hp.doc.exists_prev hprev
        rw [hb] at hcur
        rw [List.append_nil] at hdoc ⊢
        refine ⟨l₃, [], by rw [hcur], by rwa [hcur], ?_, ?_, by omega⟩
        · rw [hfirst, hcur, Dll.headD_append_cons]
        · rw [hline, hp.line, List.length_append, List.length_singleton]
          omega
    | cons n l₃ =>
        have hnext : e.heap.next e.curline = n := hp.doc.next_cons
        have hn0 : n ≠ 0 := hp.doc.ne_zero (by simp)
        rw [hnext, if_pos hn0] at hcur hline hlinecur
        refine ⟨l₁, l₃, by rw [hcur], by rwa [hcur], ?_, by rw [hline, hp.line], by omega⟩
        rw [hfirst, hcur, hp.first, hnext]
        cases l₁ using List.reverseRecOn with
        | nil =>
            have hprev : e.heap.prev e.curline = 0 := hp.doc.prev_eq
            rw [if_neg (not_not.mpr hprev)]
            rfl
        | append_singleton l₄ b =>
            have hprev : e.heap.prev e.curline ≠ 0 := by
              rw [hp.doc.prev_concat]
              exact hp.doc.ne_zero (by simp)
            rw [if_pos hprev, Dll.headD_append_cons, Dll.headD_append_cons]

end Edit

/-! ## Marks -/

namespace LineHeap

variable {h h' h'' : LineHeap} {ids : List Nat}

/-- The lines are linked as they were. -/
structure SameLinks (h h' : LineHeap) : Prop where
  prev : h'.prev = h.prev
  next : h'.next = h.next
  live : h'.live = h.live
  fresh : h'.fresh = h.fresh

theorem SameLinks.doc (hs : SameLinks h h') (hd : h.Doc ids) : h'.Doc ids :=
  hd.congr hs.prev hs.next hs.live hs.fresh

theorem SameLinks.trans (hs : SameLinks h h') (hs' : SameLinks h' h'') : SameLinks h h'' :=
  ⟨hs'.prev.trans hs.prev, hs'.next.trans hs.next, hs'.live.trans hs.live,
    hs'.fresh.trans hs.fresh⟩

/-- Only the marks of lines are others. -/
def Remarked (h h' : LineHeap) : Prop := SameLinks h h' ∧ h'.line = h.line

theorem Remarked.refl (h : LineHeap) : Remarked h h := ⟨⟨rfl, rfl, rfl, rfl⟩, rfl⟩

theorem Remarked.trans (hr : Remarked h h') (hr' : Remarked h' h'') : Remarked h h'' :=
  ⟨hr.1.trans hr'.1, hr'.2.trans hr.2⟩

theorem remarked_setSelected (h : LineHeap) (p v : Nat) : Remarked h (h.setSelected p v) :=
  ⟨⟨rfl, rfl, rfl, rfl⟩, rfl⟩

theorem remarked_findLead (fuel : Nat) (h : LineHeap) (curline ln : Nat) (passed : Bool) :
    Remarked h (findLead fuel h curline ln passed).1 := by
  induction fuel generalizing h ln passed with
  | zero => exact Remarked.refl h
  | succ fuel ih =>
      rw [findLead]
      dsimp only
      split_ifs
      · exact Remarked.refl h
      · exact (remarked_setSelected h ln 0).trans (ih _ _ _)
      · exact ih h _ _

theorem remarked_unselect (fuel : Nat) (h : LineHeap) (ln : Nat) :
    Remarked h (unselect fuel h ln) := by
  induction fuel generalizing h ln with
  | zero => exact Remarked.refl h
  | succ fuel ih =>
      rw [unselect]
      split_ifs
      · exact Remarked.refl h
      · exact (remarked_setSelected h ln 0).trans (ih _ _)

theorem remarked_selectOn (fuel : Nat) (h : LineHeap) (ln : Nat) :
    Remarked h (selectOn fuel h ln) := by
  induction fuel generalizing h ln with
  | zero => exact Remarked.refl h
  | succ fuel ih =>
      rw [selectOn]
      split_ifs
      · exact Remarked.refl h
      · exact (remarked_setSelected h ln 2).trans (ih _ _)

theorem remarked_selectTo (fuel : Nat) (h : LineHeap) (curline ln : Nat) :
    Remarked h (selectTo fuel h curline ln) := by
  induction fuel generalizing h ln with
  | zero => exact Remarked.refl h
  | succ fuel ih =>
      rw [selectTo]
      have hmark : Remarked h (if h.selected ln = 0 then h.setSelected ln 2 else h) := by
        split_ifs
        · exact remarked_setSelected h ln 2
        · exact Remarked.refl h
      generalize (if h.selected ln = 0 then h.setSelected ln 2 else h) = h₁ at hmark ⊢
      split_ifs
      · exact hmark
      · exact hmark.trans (ih _ _)

theorem remarked_editSelect (h : LineHeap) (firstline curline : Nat) :
    Remarked h (h.editSelect firstline curline) := by
  unfold editSelect
  dsimp only
  have hlead := remarked_findLead h.fresh h curline firstline false
  generalize findLead h.fresh h curline firstline false = r at hlead ⊢
  split_ifs
  · exact hlead.trans (remarked_setSelected _ _ _)
  · exact hlead.trans (remarked_unselect _ _ _)
  · exact hlead.trans ((remarked_selectOn _ _ _).trans (remarked_unselect _ _ _))
  · exact hlead.trans ((remarked_selectTo _ _ _ _).trans (remarked_unselect _ _ _))

theorem sameLinks_emptySelected (fuel : Nat) (h : LineHeap) (ln : Nat) :
    SameLinks h (emptySelected fuel h ln) := by
  induction fuel generalizing h ln with
  | zero => exact ⟨rfl, rfl, rfl, rfl⟩
  | succ fuel ih =>
      rw [emptySelected]
      split_ifs
      · exact ⟨rfl, rfl, rfl, rfl⟩
      · have hfirst : SameLinks h ((h.setLine ln ⟨[], false⟩).setSelected ln 0) :=
          ⟨rfl, rfl, rfl, rfl⟩
        exact hfirst.trans (ih _ _)

end LineHeap

namespace Edit

variable {c : EditConf} {e : Edit} {ids l₁ l₂ : List Nat}

/-- Marks do not move the cursor. -/
theorem Ok.remarked {h : LineHeap} (hok : e.Ok) (hr : LineHeap.Remarked e.heap h) :
    ({ e with heap := h }).Ok := by
  obtain ⟨⟨ids, l₁, l₂, rfl, hp⟩, hin⟩ := hok
  refine ⟨⟨_, (hp.withHeap (hr.1.doc hp.doc)).on⟩, ?_⟩
  unfold InLine Edit.text at hin ⊢
  dsimp only
  rw [hr.2]
  exact hin

/-! ## Deleting what is selected -/

/-- The first selected line, from a place on: it is behind the cursor when the loop
came past it. -/
theorem findSelected_spec (fuel : Nat) (hd : e.heap.Doc (l₁ ++ l₂)) :
    ∃ l₃ l₄, l₁ ++ l₂ = l₃ ++ l₄ ∧
      (LineHeap.findSelected fuel e.heap e.curline (l₂.headD 0)
        (decide (e.curline ∈ l₁))) = (l₄.headD 0, decide (e.curline ∈ l₃)) := by
  induction fuel generalizing l₁ l₂ with
  | zero => exact ⟨l₁, l₂, rfl, rfl⟩
  | succ fuel ih =>
      rw [LineHeap.findSelected]
      split_ifs with hstop
      · exact ⟨l₁, l₂, rfl, rfl⟩
      · rw [not_or] at hstop
        cases l₂ with
        | nil => exact absurd rfl hstop.1
        | cons a l₂ =>
            rw [List.headD_cons, hd.next_eq]
            rw [List.append_cons] at hd ⊢
            have hpassed : (decide (e.curline ∈ l₁) || a == e.curline) =
                decide (e.curline ∈ l₁ ++ [a]) := by
              rw [Bool.eq_iff_iff, Bool.or_eq_true, decide_eq_true_iff, decide_eq_true_iff,
                beq_iff_eq, List.mem_append, List.mem_singleton]
              exact or_congr Iff.rfl eq_comm
            rw [hpassed]
            exact ih hd

/-- `curline` goes on to a line behind. -/
theorem On.goOn (fuel : Nat) {ln : Nat} (hp : e.Place l₁ l₂) (hln : ln ∈ e.curline :: l₂) :
    (goOn fuel e ln).On (l₁ ++ e.curline :: l₂) := by
  induction fuel generalizing e l₁ l₂ with
  | zero => exact hp.on
  | succ fuel ih =>
      rw [Edit.goOn]
      split_ifs with hgo
      · cases l₂ with
        | nil => exact absurd (List.mem_singleton.mp hln).symm hgo
        | cons b l₃ =>
            obtain ⟨hcur, hp'⟩ := hp.toNext
            have hmem := (List.mem_cons.mp hln).resolve_left (Ne.symm hgo)
            rw [← hcur] at hmem
            have hon := ih hp' hmem
            rwa [hcur, ← List.append_cons] at hon
      · exact hp.on

/-- `curline` goes back to a line before. -/
theorem On.goBack (fuel : Nat) {ln : Nat} (hp : e.Place l₁ l₂) (hln : ln ∈ l₁ ++ [e.curline]) :
    (goBack fuel e ln).On (l₁ ++ e.curline :: l₂) := by
  induction fuel generalizing e l₁ l₂ with
  | zero => exact hp.on
  | succ fuel ih =>
      rw [Edit.goBack]
      split_ifs with hgo
      · cases l₁ using List.reverseRecOn with
        | nil => exact absurd (List.mem_singleton.mp hln).symm hgo
        | append_singleton l₃ b =>
            obtain ⟨hcur, hp'⟩ := hp.toPrev
            have hmem := (List.mem_append.mp hln).resolve_right fun hmem =>
              hgo (List.mem_singleton.mp hmem).symm
            rw [← hcur] at hmem
            have hon := ih hp' hmem
            rwa [hcur, List.append_cons] at hon
      · exact hp.on

theorem On.shows (h : e.On ids) : ∃ before cur after, e.Shows True before cur after := by
  obtain ⟨l₁, l₂, rfl, hp⟩ := h
  exact ⟨_, _, _, l₁, l₂, hp, Or.inl trivial, rfl, rfl, rfl⟩

theorem On.emptySelected (hon : e.On ids) (fuel ln : Nat) :
    let h := e.heap.emptySelected fuel ln
    ({ e with col := 0, colcur := 0, heap := h.reflow h.fresh e.curline }).Ok := by
  intro h
  have hlinks : LineHeap.SameLinks e.heap h := LineHeap.sameLinks_emptySelected fuel e.heap ln
  obtain ⟨l₁, l₂, rfl, hp⟩ := hon
  obtain ⟨before, cur, after, hshows⟩ := (hp.withHeap (hlinks.doc hp.doc)).on.shows
  obtain ⟨cur', rest, -, hshows'⟩ := hshows.reflow
  obtain ⟨ids', hon'⟩ := hshows'.on
  exact ⟨⟨ids', hon'.congr rfl rfl rfl rfl rfl⟩, inLine_zero rfl⟩

/-- **The selected lines are deleted.** -/
theorem Ok.deleteSelect (hok : e.Ok) : e.deleteSelect.Ok := by
  obtain ⟨⟨ids, hon⟩, hin⟩ := hok
  obtain ⟨l₃, l₄, hids, hfound⟩ := @findSelected_spec e [] ids e.heap.fresh hon.doc
  rw [List.nil_append] at hids
  have hfirst : decide (e.curline ∈ ([] : List Nat)) = false := rfl
  rw [hon.headD_eq, hfirst] at hfound
  unfold Edit.deleteSelect
  dsimp only
  rw [hfound]
  dsimp only
  by_cases hnone : l₄.headD 0 = 0
  · rw [if_pos hnone]
    exact ⟨⟨ids, hon⟩, hin⟩
  · rw [if_neg hnone]
    obtain ⟨l₁, l₂, rfl, hp⟩ := hon
    obtain ⟨hself, -, -⟩ := hp.doc.notMem
    cases l₄ with
    | nil => exact absurd rfl hnone
    | cons ln l₅ =>
        rw [List.headD_cons]
        by_cases hpassed : e.curline ∈ l₃
        · rw [if_pos (decide_eq_true hpassed)]
          refine On.emptySelected (On.goOn _ hp ?_) _ _
          rcases List.append_eq_append_iff.mp hids with ⟨m, -, hback⟩ | ⟨m, rfl, -⟩
          · rw [hback]
            simp
          · exact absurd (List.mem_append_left m hpassed) hself
        · rw [if_neg (fun heq => hpassed (of_decide_eq_true heq))]
          refine On.emptySelected (On.goBack _ hp ?_) _ _
          rcases List.append_eq_append_iff.mp hids with ⟨m, rfl, hback⟩ | ⟨m, rfl, hback⟩
          · cases m with
            | nil => simp [(List.cons.inj hback).1]
            | cons a m => exact absurd (by simp [(List.cons.inj hback).1]) hpassed
          · cases m with
            | nil => simp [(List.cons.inj hback).1]
            | cons a m => simp [(List.cons.inj hback).1]

/-! ## Searching -/

theorem length_cString_le (mem : List UInt8) : (cString mem).length ≤ mem.length :=
  (List.takeWhile_sublist _).length_le

/-- The loop of `searchNextStr`, at a line of the document. -/
theorem searchLoop_ok (fuel : Nat) {linecur : Int} {col : Nat} (hok : e.Ok)
    (hd : e.heap.Doc (l₁ ++ l₂)) (hfirst : e.firstline = (l₁ ++ l₂).headD 0)
    (hlinecur : linecur ≤ l₁.length)
    (hcol : ∀ ln ∈ l₂.head?, col ≤ (e.heap.line ln).text.length) :
    (searchLoop fuel e (l₂.headD 0) l₁.length linecur col).Ok := by
  induction fuel generalizing l₁ l₂ linecur col with
  | zero => exact hok
  | succ fuel ih =>
      rw [searchLoop]
      cases l₂ with
      | nil =>
          rw [List.headD_nil, if_pos rfl]
          exact hok
      | cons ln l₂ =>
          have hln0 : ln ≠ 0 := hd.ne_zero (by simp)
          rw [List.headD_cons, if_neg hln0]
          dsimp only
          split
          · next pos hfound =>
              have hle := length_le_of_strstr hfound
              have hcut := length_cString_le ((e.heap.line ln).text.drop col)
              have hstart := hcol ln rfl
              rw [List.length_drop] at hcut
              refine ⟨⟨_, l₁, l₂, rfl, hd, ?_, rfl, hlinecur⟩, Int.natCast_nonneg _, ?_⟩
              · rw [hfirst, Dll.headD_append_cons]
                rfl
              · show ((col + pos + e.searchtext.length : Nat) : Int) ≤ (e.heap.line ln).text.length
                omega
          · have hnext : e.heap.next ln = l₂.headD 0 := hd.next_eq
            rw [List.append_cons] at hd hfirst
            have hlen : ((l₁ ++ [ln]).length : Int) = l₁.length + 1 := by simp
            rw [hnext, ← hlen]
            exact ih hd hfirst (by omega) fun _ _ => Nat.zero_le _

/-- **Searching** goes to a place in the document, if anywhere. -/
theorem Ok.searchNextStr (hok : e.Ok) : e.searchNextStr.Ok := by
  unfold Edit.searchNextStr
  split
  · exact hok
  · obtain ⟨⟨ids, l₁, l₂, rfl, hp⟩, hzero, hend⟩ := id hok
    have hfirst : e.firstline = (l₁ ++ e.curline :: l₂).headD 0 := by
      rw [hp.first, Dll.headD_append_cons]
    have hlinecur : e.linecur ≤ l₁.length := by
      rw [← hp.line]
      exact hp.linecur
    have hcol : ∀ ln ∈ (e.curline :: l₂).head?, e.col.toNat ≤ (e.heap.line ln).text.length := by
      rintro ln hln
      cases hln
      show e.col.toNat ≤ e.text.length
      omega
    have hsearch := searchLoop_ok e.heap.fresh hok hp.doc hfirst hlinecur hcol
    rwa [List.headD_cons, ← hp.line] at hsearch

theorem Ok.searchStr (hok : e.Ok) (tmp : List UInt8) : (e.searchStr tmp).Ok := by
  unfold Edit.searchStr
  split
  · exact hok
  · obtain ⟨⟨ids, hon⟩, hin⟩ := hok
    have hok' : ({ e with searchtext := tmp }).Ok := ⟨⟨ids, hon.congr rfl rfl rfl rfl rfl⟩, hin⟩
    exact hok'.searchNextStr

/-! ## Going to a line -/

/-- The loop of `gotoline`: the line that many lines on, or the last one when there
are not even so many; behind the last one is no line. -/
theorem gotoLoop_eq {h : LineHeap} (i : Nat) (lastline : Nat) (hd : h.Doc (l₁ ++ l₂))
    (hlast : l₁.getLastD 0 = lastline) :
    gotoLoop i h (l₂.headD 0) lastline l₁.length =
      if i ≤ l₂.length then ((l₂.drop i).headD 0, (l₁.length + i : Int))
      else ((l₁ ++ l₂).getLastD 0, (l₁ ++ l₂).length - 1) := by
  induction i generalizing l₁ l₂ lastline with
  | zero =>
      rw [gotoLoop, if_pos (Nat.zero_le _)]
      simp
  | succ i ih =>
      rw [gotoLoop]
      cases l₂ with
      | nil =>
          have hover : ¬i + 1 ≤ ([] : List Nat).length := Nat.not_succ_le_zero i
          rw [List.headD_nil, if_pos rfl, if_neg hover, List.append_nil, hlast]
      | cons a l₂ =>
          have ha0 : a ≠ 0 := hd.ne_zero (by simp)
          have hlen : ((l₁ ++ [a]).length : Int) = l₁.length + 1 := by simp
          rw [List.headD_cons, if_neg ha0, hd.next_eq, ← hlen]
          rw [List.append_cons] at hd
          rw [ih a hd List.getLastD_concat, hlen, ← List.append_cons]
          simp only [List.length_cons, Nat.add_le_add_iff_right, List.drop_succ_cons]
          split
          · rw [Prod.mk.injEq]
            exact ⟨rfl, by omega⟩
          · rfl

/-- **`gotoline`** finds a line, unless it is to go right behind the last one. -/
theorem On.gotoline {gline : Int} (hon : e.On ids) (hgline : gline ≠ ids.length + 1) :
    (e.gotoline gline).Ok := by
  have hloop := @gotoLoop_eq [] ids _ (gline - 1).toNat 0 hon.doc rfl
  have hlen := List.length_pos_of_mem hon.mem
  rw [hon.headD_eq] at hloop
  have hplace : ∀ (l₁ l₂ : List Nat) (a : Nat), ids = l₁ ++ a :: l₂ →
      gotoLoop (gline - 1).toNat e.heap e.firstline 0 0 = (a, (l₁.length : Int)) → (e.gotoline gline).Ok := by
    rintro l₁ l₂ a hids hfound
    have hfirst := hon.headD_eq
    rw [hids, Dll.headD_append_cons] at hfirst
    unfold Edit.gotoline
    rw [hfound]
    refine ⟨⟨ids, l₁, l₂, hids, ?_, hfirst.symm, rfl, Int.le_refl _⟩, inLine_zero rfl⟩
    rw [← hids]
    exact hon.doc
  rcases Nat.lt_or_ge (gline - 1).toNat ids.length with hin | hout
  · refine hplace (ids.take (gline - 1).toNat) (ids.drop ((gline - 1).toNat + 1))
      (ids[(gline - 1).toNat]) ?_ ?_
    · rw [← List.drop_eq_getElem_cons hin, List.take_append_drop]
    · rw [if_pos (Nat.le_of_lt hin), List.drop_eq_getElem_cons hin] at hloop
      rw [List.length_take, Nat.min_eq_left (Nat.le_of_lt hin)]
      exact hloop.trans (congrArg (Prod.mk _) (Int.zero_add _))
  · have hbehind : ¬(gline - 1).toNat ≤ ids.length := by omega
    rw [if_neg hbehind] at hloop
    cases ids using List.reverseRecOn with
    | nil => contradiction
    | append_singleton l₁ a =>
        refine hplace l₁ [] a rfl (hloop.trans ?_)
        rw [List.nil_append, List.getLastD_concat, List.length_append]
        simp

/-- There is no line behind the last one: `curline` is `NULL` then. -/
theorem On.gotoline_behind (hon : e.On ids) : (e.gotoline (ids.length + 1)).curline = 0 := by
  have hloop := @gotoLoop_eq [] ids _ ids.length 0 hon.doc rfl
  rw [hon.headD_eq, if_pos (Nat.le_refl _), List.drop_length] at hloop
  unfold Edit.gotoline
  have hcount : ((ids.length : Int) + 1 - 1).toNat = ids.length := by omega
  rw [hcount, List.headD_nil] at *
  exact congrArg Prod.fst hloop

/-! ## Keys -/

theorem Goes.ok {e' : Edit} (h : e.Goes ids e') : e'.Ok := by
  obtain ⟨ids', hon, hin, -⟩ := h
  exact ⟨⟨ids', hon⟩, hin⟩

/-- **Typing** leaves the cursor in the document. -/
theorem Ok.insertChar (hok : e.Ok) (ch : UInt8) : (e.insertChar ch).Ok := by
  obtain ⟨⟨ids, hon⟩, hin⟩ := hok
  obtain ⟨before, cur, after, hshows⟩ := hon.shows
  have hcol := hshows.col_le hin
  refine (hshows.insertChar hin ch).ok hcol.1 ?_
  rw [List.length_append, List.length_take, List.length_cons]
  omega

/-- `col` is in a line that was filled again. -/
theorem Ok.keyDel (hok : e.Ok) : (e.keyDel c).Ok := by
  obtain ⟨⟨ids, hon⟩, hin⟩ := hok
  obtain ⟨before, cur, after, hshows⟩ := hon.shows
  obtain ⟨cur', rest, -, hend, hshows'⟩ := hshows.keyDel (c := c) hin
  exact ⟨hshows'.on, hshows'.inLine hin.1 hend⟩

theorem Ok.keyDeleteToEol (hok : e.Ok) : e.keyDeleteToEol.Ok := by
  obtain ⟨⟨ids, hon⟩, hin⟩ := hok
  obtain ⟨before, cur, after, hshows⟩ := hon.shows
  obtain ⟨hzero, hend⟩ := hshows.col_le hin
  obtain ⟨cur', rest, hrewrap, hshows'⟩ := hshows.keyDeleteToEol
  have hle := length_le_of_rewrap hrewrap
  rw [List.length_take] at hle
  refine ⟨hshows'.on, hshows'.inLine hzero ?_⟩
  show e.col ≤ cur'.text.length
  omega

theorem Ok.keyEnter (hok : e.Ok) : e.keyEnter.Ok := by
  obtain ⟨⟨ids, hon⟩, -⟩ := hok
  obtain ⟨before, cur, after, hshows⟩ := hon.shows
  obtain ⟨cur', rest, -, hshows'⟩ := hshows.keyEnter
  exact ⟨hshows'.on, inLine_zero rfl⟩

theorem Ok.finishKey (hok : e.Ok) (updownkey : Nat) : (e.finishKey updownkey).Ok := by
  obtain ⟨⟨ids, hon⟩, hin⟩ := hok
  exact (hon.finishKey fun _ => hin).ok

/-- **Every key** leaves the cursor in the document. -/
theorem Ok.doEditKey (hok : e.Ok) (k : EditKey) : (e.doEditKey c k).Ok := by
  obtain ⟨⟨ids, hon⟩, hin⟩ := id hok
  have hzero : ({ e with col := 0, colcur := 0 }).Ok :=
    ⟨⟨ids, hon.congr rfl rfl rfl rfl rfl⟩, inLine_zero rfl⟩
  obtain ⟨hleft, hleftIn, -⟩ := hon.keyLeft (c := c) e.heap.fresh hin
  have hleftOk : (keyLeft c e.heap.fresh e).Ok := ⟨⟨ids, hleft⟩, hleftIn⟩
  obtain ⟨hbottom, hbottomIn, -⟩ := hon.keyBottom
  have hinsert : ({ e with overwrite := !e.overwrite }).Ok :=
    ⟨⟨ids, hon.congr rfl rfl rfl rfl rfl⟩, hin⟩
  unfold Edit.doEditKey
  cases k with
  | enter => exact hok.keyEnter.finishKey 0
  | left => exact hleftOk.finishKey 0
  | right => exact (hon.keyRight e.heap.fresh hin).ok.finishKey 0
  | up => exact (hon.keyUp hin).finishKey.ok
  | down => exact (hon.keyDown hin).finishKey.ok
  | pgup => exact (hon.keyPgup hin).finishKey.ok
  | pgdn => exact (hon.keyPgdn hin).finishKey.ok
  | home => exact hzero.finishKey 0
  | lineEnd => exact hon.keyEnd.ok.finishKey _
  | top => exact Ok.finishKey ⟨⟨ids, hon.keyTop⟩, inLine_zero rfl⟩ 0
  | bottom => exact Ok.finishKey ⟨⟨ids, hbottom⟩, hbottomIn⟩ 0
  | backspace =>
      dsimp only
      split
      · exact hok.finishKey 2
      · exact (hleftOk.finishKey 0).keyDel.finishKey 0
  | delete => exact hok.keyDel.finishKey 0
  | deleteLine => exact hon.keyDeleteLine.finishKey 0
  | deleteToEol => exact hok.keyDeleteToEol.finishKey 0
  | insert => exact hinsert.finishKey 0
  | select => exact (hok.remarked (LineHeap.remarked_editSelect _ _ _)).finishKey 0
  | other => exact hok.finishKey 2

/-! ## Sessions -/

/-- The lines of the document. -/
def document (e : Edit) : List Nat := e.heap.walk e.heap.fresh e.firstline

theorem On.document_eq (hon : e.On ids) : e.document = ids := by
  have hwalk := @LineHeap.Doc.walk_eq _ [] ids _ hon.doc hon.doc.length_lt
  rwa [hon.headD_eq] at hwalk

/-- The cursor is in the document, in a line of it that the screen can show. -/
structure CursorIn (c : EditConf) (e : Edit) : Prop where
  curline : e.curline ∈ e.document
  live : ∀ p ∈ e.document, e.heap.live p = true
  col : 0 ≤ e.col ∧ e.col ≤ e.text.length
  line : 0 ≤ e.line ∧ e.document[e.line.toNat]? = some e.curline
  linecur : 0 ≤ (e.redraw c).linecur ∧ (e.redraw c).linecur ≤ e.line
  above : ∀ k : Nat, (k : Int) ≤ (e.redraw c).linecur → e.heap.prev^[k] e.curline ∈ e.document

/-- What `redraw` makes of `linecur`. -/
theorem redraw_linecur (hle : e.linecur ≤ e.line) (hline : 0 ≤ e.line) :
    0 ≤ (e.redraw c).linecur ∧ (e.redraw c).linecur ≤ e.line := by
  unfold redraw
  dsimp only
  have hcut : (if e.linecur ≥ (c.tLines : Int) - 1 then
      { e with linecur := (c.tLines : Int) - 2 } else e).linecur ≤ e.line := by
    split_ifs
    · show (c.tLines : Int) - 2 ≤ e.line
      omega
    · exact hle
  have hkept : (if e.linecur ≥ (c.tLines : Int) - 1 then
      { e with linecur := (c.tLines : Int) - 2 } else e).line = e.line := by
    split_ifs <;> rfl
  generalize (if e.linecur ≥ (c.tLines : Int) - 1 then
    { e with linecur := (c.tLines : Int) - 2 } else e) = e₁ at hcut hkept ⊢
  split_ifs
  · exact ⟨Int.le_refl 0, hline⟩
  · exact ⟨by omega, hcut⟩

/-- `redraw` changes nothing else. -/
theorem redraw_eq (c : EditConf) (e : Edit) : ∃ n, e.redraw c = { e with linecur := n } := by
  unfold redraw
  dsimp only
  split_ifs <;> exact ⟨_, rfl⟩

theorem On.redraw (hon : e.On ids) : (e.redraw c).On ids := by
  obtain ⟨l₁, l₂, hids, hp⟩ := hon
  have hline : 0 ≤ e.line := by
    rw [hp.line]
    exact Int.natCast_nonneg _
  obtain ⟨-, hle⟩ := redraw_linecur (c := c) hp.linecur hline
  obtain ⟨n, hn⟩ := redraw_eq c e
  rw [hn] at hle ⊢
  exact ⟨l₁, l₂, hids, hp.doc, hp.first, hp.line, hle⟩

/-- The lines above the cursor are those before it. -/
theorem prev_iterate {h : LineHeap} {a : Nat} (hd : h.Doc (l₁ ++ a :: l₂)) {k : Nat}
    (hk : k ≤ l₁.length) : h.prev^[k] a ∈ l₁ ++ a :: l₂ := by
  induction k generalizing l₁ a l₂ with
  | zero => simp
  | succ k ih =>
      rw [iterate_succ_apply]
      cases l₁ using List.reverseRecOn with
      | nil => exact absurd hk (Nat.not_succ_le_zero k)
      | append_singleton l₃ b =>
          rw [hd.prev_concat]
          rw [List.length_append, List.length_singleton] at hk
          rw [← List.append_cons] at hd ⊢
          exact ih hd (by omega)

theorem Ok.cursorIn (hok : e.Ok) : CursorIn c e := by
  obtain ⟨⟨ids, hon⟩, hin⟩ := hok
  have hids := hon.document_eq
  obtain ⟨l₁, l₂, rfl, hp⟩ := id hon
  have hline : 0 ≤ e.line := by
    rw [hp.line]
    exact Int.natCast_nonneg _
  have hlinecur := redraw_linecur (c := c) hp.linecur hline
  refine ⟨?_, ?_, hin, ⟨hline, ?_⟩, hlinecur, ?_⟩
  · rw [hids]
    exact hon.mem
  · rw [hids]
    exact hon.doc.live
  · rw [hids, hp.line, Int.toNat_natCast, List.getElem?_append_right (Nat.le_refl _), Nat.sub_self]
    rfl
  · intro k hk
    rw [hids]
    refine prev_iterate hp.doc ?_
    have hle := hp.line
    omega

/-- A command in `doEdit`, which draws the screen first. -/
def step (c : EditConf) (e : Edit) (cmd : EditCmd) : Option Edit := some ((e.redraw c).doCmd c cmd)

/-- `gotoline` is not asked for the line behind the last one. -/
def gotoInside (e : Edit) : EditCmd → Prop
  | .gotoline gline => gline ≠ e.document.length + 1
  | _ => True

instance (e : Edit) (cmd : EditCmd) : Decidable (e.gotoInside cmd) := by
  cases cmd <;> unfold gotoInside <;> exact inferInstance

theorem Ok.step {e' : Edit} {cmd : EditCmd} (hok : e.Ok) (hgoto : e.gotoInside cmd)
    (hstep : Edit.step c e cmd = some e') : e'.Ok := by
  obtain ⟨⟨ids, hon⟩, hin⟩ := hok
  have hon' := hon.redraw (c := c)
  have hin' : (e.redraw c).InLine := by
    obtain ⟨n, hn⟩ := redraw_eq c e
    rw [hn]
    exact hin
  have hok' : (e.redraw c).Ok := ⟨⟨ids, hon'⟩, hin'⟩
  cases hstep
  cases cmd with
  | type ch => exact hok'.insertChar ch
  | key k => exact hok'.doEditKey k
  | clearSelect =>
      exact hok'.remarked (LineHeap.remarked_unselect _ _ _)
  | deleteSelect => exact hok'.deleteSelect
  | searchStr tmp => exact hok'.searchStr tmp
  | searchNextStr => exact hok'.searchNextStr
  | gotoline gline =>
      have hne : gline ≠ e.document.length + 1 := hgoto
      rw [hon.document_eq] at hne
      exact hon'.gotoline hne

/-- The cursor begins in the first line of the file. -/
theorem openEdit_spec (o : OriginConf) (file : List UInt8) :
    ∃ ids, (openEdit o file).1.On ids ∧ (openEdit o file).1.InLine ∧
      (openEdit o file).1.overwrite = false ∧
      (∀ p ∈ ids, (openEdit o file).1.heap.selected p = 0) ∧
      let q := readLoop o file.length Page.empty file
      (openEdit o file).1.heap.lines ids = q.lines ++ [⟨q.text, false⟩] := by
  obtain ⟨p, hopen, l, hd, hfirst, hlines, hline, hselected, -⟩ := openEdit_eq o file
  rw [hopen]
  refine ⟨l ++ [p.ln], ?_, inLine_zero rfl, rfl, hselected, ?_⟩
  · obtain ⟨first, rest, hids⟩ := List.exists_cons_of_ne_nil
      (List.append_ne_nil_of_right_ne_nil l (List.cons_ne_nil p.ln []))
    rw [hids] at hd hfirst ⊢
    have hcur : first = initEdit.curline := hfirst
    subst hcur
    exact ⟨[], rest, rfl, hd, rfl, rfl, Int.le_refl 0⟩
  · show p.heap.lines (l ++ [p.ln]) = _
    rw [LineHeap.lines_append, hlines, LineHeap.lines_cons, hline]
    rfl

/-- **The cursor stays in the document**, from any file on, when `gotoline` is never
asked for the line behind the last one. -/
theorem cursor_run {o : OriginConf} {file : List UInt8} {cmds : List EditCmd}
    (hrun : Run (when gotoInside (step c)) (openEdit o file).1 cmds e) : CursorIn c e := by
  obtain ⟨ids, hon, hin, -⟩ := openEdit_spec o file
  refine Ok.cursorIn (hrun.invariant_when Ok ⟨⟨ids, hon⟩, hin⟩ ?_)
  intro e cmd e' hok hgoto hstep
  exact hok.step hgoto hstep

/-- Two lines are typed, and marked; the cursor goes to the second, which is deleted. -/
theorem cursor_run_twoLines :
    ∃ e, Run (when gotoInside (step ⟨true, 24⟩)) (openEdit ythtEditing []).1
        [.type 65, .key .enter, .type 66, .key .select, .key .up, .key .select, .gotoline 2,
          .deleteSelect, .searchStr [65]] e ∧
      e.line = 0 ∧ CursorIn ⟨true, 24⟩ e := by
  have hexec : (exec (when gotoInside (step ⟨true, 24⟩)) (openEdit ythtEditing []).1
      [.type 65, .key .enter, .type 66, .key .select, .key .up, .key .select, .gotoline 2,
        .deleteSelect, .searchStr [65]]).any (fun e => decide (e.line = 0)) = true := by
    decide +kernel
  obtain ⟨e, he, hline⟩ := (Option.any_eq_true _ _).mp hexec
  exact ⟨e, Run.of_exec he, of_decide_eq_true hline, cursor_run (Run.of_exec he)⟩

/-- The document has one line, and the cursor goes to line 2. -/
theorem gotoline_losesCursor :
    ∃ e, Run (step ⟨true, 24⟩) (openEdit ythtEditing []).1 [.gotoline 2] e ∧ e.curline = 0 ∧
      ¬CursorIn ⟨true, 24⟩ e := by
  have hexec : (exec (step ⟨true, 24⟩) (openEdit ythtEditing []).1 [.gotoline 2]).any
      (fun e => decide (e.curline = 0 ∧ 0 ∉ e.document)) = true := by
    decide +kernel
  obtain ⟨e, he, hlost⟩ := (Option.any_eq_true _ _).mp hexec
  obtain ⟨hcur, hnone⟩ := of_decide_eq_true hlost
  refine ⟨e, Run.of_exec he, hcur, fun hin => hnone ?_⟩
  rw [← hcur]
  exact hin.curline

end Edit

end Ytht
