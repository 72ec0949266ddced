import Mathlib.Data.List.Basic

/-!
# Lib.Frames

Streams of frames, and a reader that keeps what has not made a frame yet.

A `Framing` says what a buffer begins with; more bytes never change what has been
found.  `deal` gives the frames of a buffer to a handler until it is done with them,
or the reader is gone.  `deal_append` is why the cuts of a stream leave no trace, and
`deal_log` why the handler's log is the list of frames of the stream.
-/

namespace Frames

variable {α β S : Type}

/-! ## Framings -/

/-- What a buffer begins with: no whole frame, no frame at all, or a frame. -/
inductive Cut (α : Type)
  | wait
  | bad
  | frame (f rest : List α)

structure Framing (α : Type) where
  next : List α → Cut α
  next_nil : next [] = .wait
  shorter : ∀ {buf f rest}, next buf = .frame f rest → rest.length < buf.length
  bad_append : ∀ {buf} more, next buf = .bad → next (buf ++ more) = .bad
  frame_append : ∀ {buf f rest} more, next buf = .frame f rest →
    next (buf ++ more) = .frame f (rest ++ more)

variable (F : Framing α)

/-- The frames of a buffer, up to what is no frame. -/
def frames (buf : List α) : List (List α) :=
  match _h : F.next buf with
  | .wait => []
  | .bad => []
  | .frame f rest => f :: frames rest
termination_by buf.length
decreasing_by exact F.shorter _h

theorem frames_of_wait {buf : List α} (h : F.next buf = .wait) : frames F buf = [] := by
  unfold frames
  split <;> simp_all

theorem frames_of_frame {buf f rest : List α} (h : F.next buf = .frame f rest) :
    frames F buf = f :: frames F rest := by
  rw [frames]
  split <;> simp_all

/-! ## Readers -/

/-- A handler of frames; `gone` are the states in which there is no reader any more. -/
structure Handler (S α : Type) where
  handle : S → List α → S
  gone : S → Bool
  /-- What is done about a buffer that begins with no frame. -/
  reject : S → S
  gone_reject : ∀ s, gone (reject s) = true

/-- Why a reader stops. -/
inductive Status
  | waits
  | rejected
  | gone
  deriving DecidableEq

/-- What a reader has come to: its state, and what is left of the buffer. -/
structure Outcome (S α : Type) where
  state : S
  rest : List α
  status : Status

variable (H : Handler S α)

/-- The frames of a buffer are given to the handler. -/
def deal (s : S) (buf : List α) : Outcome S α :=
  match _h : F.next buf with
  | .wait => ⟨s, buf, .waits⟩
  | .bad => ⟨H.reject s, buf, .rejected⟩
  | .frame f rest =>
      if H.gone (H.handle s f) = true then ⟨H.handle s f, rest, .gone⟩
      else deal (H.handle s f) rest
termination_by buf.length
decreasing_by exact F.shorter _h

variable {F H} {s : S} {buf f rest : List α}

theorem deal_of_wait (h : F.next buf = .wait) : deal F H s buf = ⟨s, buf, .waits⟩ := by
  unfold deal
  split <;> simp_all

theorem deal_of_bad (h : F.next buf = .bad) : deal F H s buf = ⟨H.reject s, buf, .rejected⟩ := by
  unfold deal
  split <;> simp_all

theorem deal_of_gone (h : F.next buf = .frame f rest) (hgone : H.gone (H.handle s f) = true) :
    deal F H s buf = ⟨H.handle s f, rest, .gone⟩ := by
  unfold deal
  split <;> simp_all

theorem deal_of_frame (h : F.next buf = .frame f rest) (hstay : ¬ H.gone (H.handle s f) = true) :
    deal F H s buf = deal F H (H.handle s f) rest := by
  rw [deal]
  split <;> simp_all

/-- **A reader that waits goes on with what comes, and one that has stopped has stopped.** -/
theorem deal_append (more : List α) :
    deal F H s (buf ++ more) =
      if (deal F H s buf).status = .waits then
        deal F H (deal F H s buf).state ((deal F H s buf).rest ++ more)
      else { deal F H s buf with rest := (deal F H s buf).rest ++ more } := by
  fun_induction deal F H s buf with
  | case1 s buf hnext => simp
  | case2 s buf hnext => simp [deal_of_bad (F.bad_append more hnext)]
  | case3 s buf f rest hnext hgone => simp [deal_of_gone (F.frame_append more hnext) hgone]
  | case4 s buf f rest hnext hstay ih => rw [deal_of_frame (F.frame_append more hnext) hstay, ih]

/-- A reader that has stopped is gone, and one that waits is not. -/
theorem deal_gone (hs : H.gone s = false) :
    H.gone (deal F H s buf).state = true ↔ (deal F H s buf).status ≠ .waits := by
  fun_induction deal F H s buf with
  | case1 s buf hnext => simp [hs]
  | case2 s buf hnext => simp [H.gone_reject]
  | case3 s buf f rest hnext hgone => simp [hgone]
  | case4 s buf f rest hnext hstay ih => exact ih (by simpa using hstay)

/-- What a reader waits for is a frame. -/
theorem deal_next (h : (deal F H s buf).status = .waits) :
    F.next (deal F H s buf).rest = .wait := by
  fun_induction deal F H s buf with
  | case1 s buf hnext => exact hnext
  | case2 s buf hnext => cases h
  | case3 s buf f rest hnext hgone => cases h
  | case4 s buf f rest hnext hstay ih => exact ih h

/-- **A handler that writes down what it is given writes down the frames of the stream.** -/
theorem deal_log (log : S → List β) (view : List α → β)
    (hhandle : ∀ s f, log (H.handle s f) = log s ++ [view f])
    (hreject : ∀ s, log (H.reject s) = log s) (more : List α) :
    log (deal F H s buf).state ++ (frames F ((deal F H s buf).rest ++ more)).map view =
      log s ++ (frames F (buf ++ more)).map view := by
  fun_induction deal F H s buf with
  | case1 s buf hnext => rfl
  | case2 s buf hnext => rw [hreject]
  | case3 s buf f rest hnext hgone =>
      rw [hhandle, frames_of_frame F (F.frame_append more hnext), List.map_cons, List.append_assoc,
        List.singleton_append]
  | case4 s buf f rest hnext hstay ih =>
      rw [ih, hhandle, frames_of_frame F (F.frame_append more hnext), List.map_cons,
        List.append_assoc, List.singleton_append]

end Frames
