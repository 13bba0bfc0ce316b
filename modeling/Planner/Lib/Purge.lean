import Planner.Lib.Trace

/-! Runs as an observer sees them. Where the others do nothing that he can tell, and
what he gets goes by what he can tell, his view of a run is that of his own commands alone. -/

namespace Purge

variable {σ κ ο : Type} (step : σ → κ → σ) (gives : σ → κ → ο) (own : κ → Bool)

/-- What his own commands give along a run. -/
def given : σ → List κ → List ο
  | _, [] => []
  | s, c :: cmds => if own c then gives s c :: given (step s c) cmds else given (step s c) cmds

/-- The observer cannot tell `s` from `t` where `same s t`. -/
structure Unwinding (same : σ → σ → Prop) : Prop where
  unseen : ∀ {s t c}, own c = false → same s t → same (step s c) t
  gives_eq : ∀ {s t c}, own c = true → same s t → gives s c = gives t c
  seen : ∀ {s t c}, own c = true → same s t → same (step s c) (step t c)

theorem Unwinding.purged {step : σ → κ → σ} {gives : σ → κ → ο} {own : κ → Bool} {same : σ → σ → Prop}
    (h : Unwinding step gives own same) {s t : σ} (hst : same s t) (cmds : List κ) :
    same (Trace.after step s cmds) (Trace.after step t (cmds.filter own)) ∧
      given step gives own s cmds = given step gives own t (cmds.filter own) := by
  induction cmds generalizing s t with
  | nil => exact ⟨hst, rfl⟩
  | cons c cmds ih =>
    by_cases hown : own c = true
    · obtain ⟨hsame, hgiven⟩ := ih (h.seen hown hst)
      rw [List.filter_cons_of_pos hown]
      refine ⟨hsame, ?_⟩
      simp only [given, if_pos hown, hgiven, h.gives_eq hown hst]
    · obtain ⟨hsame, hgiven⟩ := ih (h.unseen (Bool.eq_false_iff.mpr hown) hst)
      rw [List.filter_cons_of_neg hown]
      refine ⟨hsame, ?_⟩
      rw [given, if_neg hown]
      exact hgiven

end Purge
