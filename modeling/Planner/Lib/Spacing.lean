import Mathlib.Order.Basic
import Mathlib.Data.List.Infix

/-! Events thinned out on the fly: one is taken iff it is far enough from the last one
taken. No other way of keeping them apart takes more of them. -/

namespace Spacing

variable {τ ι : Type} (far : τ → τ → Prop) [DecidableRel far] (time : ι → τ)

/-- The events taken, when the last one before was at `last`. -/
def pick : Option τ → List ι → List ι
  | _, [] => []
  | none, x :: xs => x :: pick (some (time x)) xs
  | some t, x :: xs => if far t (time x) then x :: pick (some (time x)) xs else pick (some t) xs

/-- Every event is far from those before it. -/
def Spaced (xs : List ι) : Prop := xs.Pairwise fun x y => far (time x) (time y)

variable {far time}

theorem pick_sublist (last : Option τ) (xs : List ι) : (pick far time last xs).Sublist xs := by
  induction xs generalizing last with
  | nil => exact List.Sublist.refl []
  | cons x xs ih =>
    cases last with
    | none => exact (ih _).cons_cons x
    | some t =>
      rw [pick]
      split
      · exact (ih _).cons_cons x
      · exact (ih _).cons x

variable [Preorder τ]

/-- What lies further apart is the farther. -/
def Widens (far : τ → τ → Prop) : Prop := ∀ a a' b b' : τ, a' ≤ a → b ≤ b' → far a b → far a' b'

def InOrder (time : ι → τ) (xs : List ι) : Prop := xs.Pairwise fun x y => time x ≤ time y

theorem pick_far (hfar : Widens far) {t : τ} {xs : List ι} (hxs : InOrder time xs) (ht : ∀ x ∈ xs, t ≤ time x) :
    ∀ y ∈ pick far time (some t) xs, far t (time y) := by
  induction xs generalizing t with
  | nil =>
    intro y hy
    cases hy
  | cons x xs ih =>
    obtain ⟨hx, hrest⟩ := List.pairwise_cons.mp hxs
    intro y hy
    rw [pick] at hy
    split at hy
    · rename_i htx
      rcases List.mem_cons.mp hy with rfl | hy
      · exact htx
      · exact hfar _ _ _ _ (ht x List.mem_cons_self) le_rfl (ih hrest hx y hy)
    · exact ih hrest (fun z hz => ht z (List.mem_cons_of_mem x hz)) y hy

theorem pick_spaced (hfar : Widens far) {xs : List ι} (hxs : InOrder time xs) (last : Option τ) :
    Spaced far time (pick far time last xs) := by
  induction xs generalizing last with
  | nil => exact List.Pairwise.nil
  | cons x xs ih =>
    obtain ⟨hx, hrest⟩ := List.pairwise_cons.mp hxs
    have htaken : Spaced far time (x :: pick far time (some (time x)) xs) :=
      List.pairwise_cons.mpr ⟨pick_far hfar hrest hx, ih hrest _⟩
    cases last with
    | none => exact htaken
    | some t =>
      rw [pick]
      split
      · exact htaken
      · exact ih hrest _

/-- The pick stays ahead of any choice that has to keep away from a later event. -/
theorem length_le_pick (hfar : Widens far) {xs ys : List ι} (hxs : InOrder time xs) {t t' : τ} (ht : t ≤ t')
    (hsub : ys.Sublist xs) (hys : Spaced far time ys) (haway : ∀ y ∈ ys, far t' (time y)) :
    ys.length ≤ (pick far time (some t) xs).length := by
  induction xs generalizing ys t t' with
  | nil => simp [List.sublist_nil.mp hsub]
  | cons x xs ih =>
    obtain ⟨hx, hrest⟩ := List.pairwise_cons.mp hxs
    rw [pick]
    cases hsub with
    | cons_cons _ hsub =>
      rename_i zs
      obtain ⟨hxz, hzs⟩ := List.pairwise_cons.mp hys
      have htx : far t (time x) := hfar _ _ _ _ ht le_rfl (haway x List.mem_cons_self)
      rw [if_pos htx, List.length_cons, List.length_cons]
      exact Nat.succ_le_succ (ih hrest le_rfl hsub hzs hxz)
    | cons _ hsub =>
      split
      · -- an event is taken that the choice leaves out: its first one comes no earlier
        cases ys with
        | nil => exact Nat.zero_le _
        | cons y ys =>
          obtain ⟨hyz, hzs⟩ := List.pairwise_cons.mp hys
          have hxy := hx y (hsub.subset List.mem_cons_self)
          have hlater := ih hrest hxy ((List.sublist_cons_self y ys).trans hsub) hzs hyz
          rw [List.length_cons, List.length_cons]
          exact Nat.succ_le_succ hlater
      · exact ih hrest ht hsub hys haway

/-- No choice of events that are far from each other has more of them. -/
theorem pick_longest (hfar : Widens far) {xs ys : List ι} (hxs : InOrder time xs) (hsub : ys.Sublist xs)
    (hys : Spaced far time ys) : ys.length ≤ (pick far time none xs).length := by
  cases xs with
  | nil => simp [List.sublist_nil.mp hsub]
  | cons x xs =>
    obtain ⟨hx, hrest⟩ := List.pairwise_cons.mp hxs
    rw [pick, List.length_cons]
    cases ys with
    | nil => exact Nat.zero_le _
    | cons y ys =>
      obtain ⟨hyz, hzs⟩ := List.pairwise_cons.mp hys
      rw [List.length_cons]
      cases hsub with
      | cons_cons _ hsub => exact Nat.succ_le_succ (length_le_pick hfar hrest le_rfl hsub hzs hyz)
      | cons _ hsub =>
        have hxy := hx y (hsub.subset List.mem_cons_self)
        exact Nat.succ_le_succ
          (length_le_pick hfar hrest hxy ((List.sublist_cons_self y ys).trans hsub) hzs hyz)

end Spacing
