import Mathlib.Data.List.Basic
import Mathlib.Data.List.Nodup

/-!
# Lib.Dll

Doubly linked lists: cells with a link to the cell before and one to the cell
behind.

`Linked prev next p l q` says that the cells of `l` are linked in this order, that
the first leads back to `p` and that the last leads on to `q`.  The rules at the end
give the list after a cell is linked in, and after some are left out.
-/

namespace Dll

variable {A : Type} {prev next prev' next' : A → A} {p q a n : A} {l l₁ l₂ m : List A}

/-- The cells of the list are linked both ways. -/
def Linked (prev next : A → A) : A → List A → A → Prop
  | _, [], _ => True
  | p, a :: l, q => prev a = p ∧ next a = l.headD q ∧ Linked prev next a l q

@[simp] theorem headD_append_cons (l : List A) (a d : A) (l' : List A) :
    (l ++ a :: l').headD d = l.headD a := by
  cases l <;> rfl

namespace Linked

theorem append :
    Linked prev next p (l₁ ++ l₂) q ↔
      Linked prev next p l₁ (l₂.headD q) ∧ Linked prev next (l₁.getLastD p) l₂ q := by
  induction l₁ generalizing p with
  | nil => simp [Linked]
  | cons a l₁ ih =>
      have hhead : (l₁ ++ l₂).headD q = l₁.headD (l₂.headD q) := by cases l₁ <;> rfl
      rw [List.cons_append, Linked, Linked, ih, hhead, List.getLastD_cons]
      simp only [and_assoc]

/-- The link to the cell behind. -/
theorem next_eq (h : Linked prev next p (l₁ ++ a :: l₂) q) : next a = l₂.headD q :=
  (append.mp h).2.2.1

/-- The link to the cell before. -/
theorem prev_eq (h : Linked prev next p (l₁ ++ a :: l₂) q) : prev a = l₁.getLastD p :=
  (append.mp h).2.1

/-- Only the links of the cells matter. -/
theorem congr (h : Linked prev next p l q) (hprev : ∀ x ∈ l, prev' x = prev x)
    (hnext : ∀ x ∈ l, next' x = next x) : Linked prev' next' p l q := by
  induction l generalizing p with
  | nil => trivial
  | cons a l ih =>
      obtain ⟨hp, hn, hrest⟩ := h
      refine ⟨?_, ?_, ih hrest ?_ ?_⟩
      · rw [hprev a List.mem_cons_self, hp]
      · rw [hnext a List.mem_cons_self, hn]
      · exact fun x hx => hprev x (List.mem_cons_of_mem a hx)
      · exact fun x hx => hnext x (List.mem_cons_of_mem a hx)

/-- The first cell gets another link back. -/
theorem relinkFirst {p' : A} (h : Linked prev next p l q)
    (hprev : ∀ x ∈ l.tail, prev' x = prev x) (hfirst : ∀ x ∈ l.head?, prev' x = p')
    (hnext : ∀ x ∈ l, next' x = next x) : Linked prev' next' p' l q := by
  cases l with
  | nil => trivial
  | cons a l =>
      obtain ⟨-, hn, hrest⟩ := h
      refine ⟨hfirst a rfl, ?_, hrest.congr hprev ?_⟩
      · rw [hnext a List.mem_cons_self, hn]
      · exact fun x hx => hnext x (List.mem_cons_of_mem a hx)

/-- The last cell gets another link on. -/
theorem relinkLast {q' : A} (h : Linked prev next p l q) (hprev : ∀ x ∈ l, prev' x = prev x)
    (hnext : ∀ x ∈ l.dropLast, next' x = next x) (hlast : ∀ x ∈ l.getLast?, next' x = q') :
    Linked prev' next' p l q' := by
  induction l generalizing p with
  | nil => trivial
  | cons a l ih =>
      obtain ⟨hp, hn, hrest⟩ := h
      have hp' : prev' a = p := by rw [hprev a List.mem_cons_self, hp]
      cases l with
      | nil => exact ⟨hp', hlast a rfl, trivial⟩
      | cons b l =>
          refine ⟨hp', ?_, ih hrest ?_ ?_ ?_⟩
          · rw [hnext a (by simp), hn]
            rfl
          · exact fun x hx => hprev x (List.mem_cons_of_mem a hx)
          · exact fun x hx => hnext x (by simp [hx])
          · exact fun x hx => hlast x (by rwa [List.getLast?_cons_cons])

/-- **A cell is linked in** behind another. -/
theorem insert (h : Linked prev next p (l₁ ++ a :: l₂) q)
    (hprev : ∀ x ∈ l₁ ++ a :: l₂.tail, prev' x = prev x) (hnext : ∀ x ∈ l₁ ++ l₂, next' x = next x)
    (ha : next' a = n) (hpn : prev' n = a) (hnn : next' n = l₂.headD q)
    (hb : ∀ x ∈ l₂.head?, prev' x = n) : Linked prev' next' p (l₁ ++ a :: n :: l₂) q := by
  obtain ⟨hfront, hpa, -, hback⟩ := append.mp h
  refine append.mpr ⟨hfront.congr ?_ ?_, ?_, ha, hpn, hnn, hback.relinkFirst ?_ hb ?_⟩
  · exact fun x hx => hprev x (List.mem_append_left _ hx)
  · exact fun x hx => hnext x (List.mem_append_left _ hx)
  · rw [hprev a (by simp), hpa]
  · exact fun x hx => hprev x (by simp [hx])
  · exact fun x hx => hnext x (List.mem_append_right _ hx)

/-- **Cells are left out.** -/
theorem remove (h : Linked prev next p (l₁ ++ m ++ l₂) q)
    (hprev : ∀ x ∈ l₁ ++ l₂.tail, prev' x = prev x)
    (hnext : ∀ x ∈ l₁.dropLast ++ l₂, next' x = next x)
    (hlast : ∀ x ∈ l₁.getLast?, next' x = l₂.headD q)
    (hfirst : ∀ x ∈ l₂.head?, prev' x = l₁.getLastD p) : Linked prev' next' p (l₁ ++ l₂) q := by
  obtain ⟨hfront, hback⟩ := append.mp h
  refine append.mpr ⟨(append.mp hfront).1.relinkLast ?_ ?_ hlast, hback.relinkFirst ?_ hfirst ?_⟩
  · exact fun x hx => hprev x (List.mem_append_left _ hx)
  · exact fun x hx => hnext x (List.mem_append_left _ hx)
  · exact fun x hx => hprev x (List.mem_append_right _ hx)
  · exact fun x hx => hnext x (List.mem_append_right _ hx)

end Linked

end Dll
