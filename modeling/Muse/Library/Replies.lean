import Mathlib.Data.List.Forall2

/-!
# Systems that reply

A system takes requests one after another and gives a reply to each. One system refines another one
when related states give the same reply to a request and stay related; then they reply the same to
all requests.
-/

namespace Muse.Library

variable {σ τ α β : Type}

/-- The replies to the requests, and the state behind them. -/
def replies (step : σ → α → β × σ) : σ → List α → List β × σ
  | s, [] => ([], s)
  | s, a :: as =>
      ((step s a).1 :: (replies step (step s a).2 as).1, (replies step (step s a).2 as).2)

/-- Each request is allowed in the state that it finds. -/
def Allowed (step : σ → α → β × σ) (ok : σ → α → Prop) : σ → List α → Prop
  | _, [] => True
  | s, a :: as => ok s a ∧ Allowed step ok (step s a).2 as

variable {step : σ → α → β × σ} {step' : τ → α → β × τ} {s : σ} {t : τ}
  {as : List α}

theorem Allowed.of_forall {ok : α → Prop} (h : ∀ a ∈ as, ok a) :
    Allowed step (fun _ a => ok a) s as := by
  induction as generalizing s with
  | nil => trivial
  | cons a as ih =>
      exact ⟨h a List.mem_cons_self, ih fun b hb => h b (List.mem_cons_of_mem a hb)⟩

/-- The rule for a refinement. The second system says which requests are allowed. -/
theorem replies_refine (ok : τ → α → Prop) (R : σ → τ → Prop)
    (hstep : ∀ s t a, R s t → ok t a → (step s a).1 = (step' t a).1 ∧ R (step s a).2 (step' t a).2)
    (hs : R s t) (h : Allowed step' ok t as) :
    (replies step s as).1 = (replies step' t as).1 ∧
      R (replies step s as).2 (replies step' t as).2 := by
  induction as generalizing s t with
  | nil => exact ⟨rfl, hs⟩
  | cons a as ih =>
      obtain ⟨hok, hrest⟩ := h
      obtain ⟨hreply, hnext⟩ := hstep s t a hs hok
      obtain ⟨hreplies, hend⟩ := ih hnext hrest
      refine ⟨?_, hend⟩
      rw [replies, replies, hreply, hreplies]

/-- The rule for an invariant, with what it says of each reply. -/
theorem replies_invariant (ok : α → Prop) (Inv : σ → Prop) (Post : α → β → Prop)
    (hstep : ∀ s a, Inv s → ok a → Post a (step s a).1 ∧ Inv (step s a).2) (hs : Inv s)
    (h : ∀ a ∈ as, ok a) :
    List.Forall₂ Post as (replies step s as).1 ∧ Inv (replies step s as).2 := by
  induction as generalizing s with
  | nil => exact ⟨.nil, hs⟩
  | cons a as ih =>
      obtain ⟨hreply, hnext⟩ := hstep s a hs (h a List.mem_cons_self)
      obtain ⟨hreplies, hend⟩ := ih hnext fun b hb => h b (List.mem_cons_of_mem a hb)
      exact ⟨.cons hreply hreplies, hend⟩

end Muse.Library
