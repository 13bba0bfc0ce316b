import Mathlib.Data.List.Basic
import Mathlib.Logic.Function.Basic
import Mathlib.Order.Lattice

/-! A forward pass over an order of nodes: each node gets a value computed from
the values before it. Where a node looks only at what comes before it, the pass
solves the equations of its visits. -/

namespace ForwardPass

variable {α β : Type}

section Run

variable [DecidableEq α]

def run (visit : α → (α → β) → β) : List α → (α → β) → α → β
  | [], m => m
  | t :: rest, m => run visit rest (Function.update m t (visit t m))

/-- A visit looks at nodes that come before it only. -/
def Local (visit : α → (α → β) → β) (order : List α) : Prop :=
  ∀ pre t post, order = pre ++ t :: post → ∀ m m' : α → β, (∀ u ∈ pre, m u = m' u) → visit t m = visit t m'

variable {visit : α → (α → β) → β} {order : List α}

theorem run_of_not_mem {t : α} (h : t ∉ order) (m : α → β) : run visit order m t = m t := by
  induction order generalizing m with
  | nil => rfl
  | cons u rest ih =>
    rw [run, ih fun hm => h (List.mem_cons_of_mem _ hm)]
    have hne : t ≠ u := by
      rintro rfl
      exact h List.mem_cons_self
    exact Function.update_of_ne hne _ _

theorem run_append (pre post : List α) (m : α → β) :
    run visit (pre ++ post) m = run visit post (run visit pre m) := by
  induction pre generalizing m with
  | nil => rfl
  | cons t pre ih => exact ih _

theorem run_eq (hnodup : order.Nodup) (hlocal : Local visit order) (m : α → β) {t : α} (ht : t ∈ order) :
    run visit order m t = visit t (run visit order m) := by
  obtain ⟨pre, post, rfl⟩ := List.append_of_mem ht
  obtain ⟨hpre, hpost, hdisj⟩ := List.nodup_append.mp hnodup
  have hbefore : ∀ u ∈ pre, run visit (pre ++ t :: post) m u = run visit pre m u := fun u hu => by
    rw [run_append, run_of_not_mem fun hm => hdisj u hu u hm rfl]
  rw [hlocal pre t post rfl _ _ hbefore, run_append, run,
    run_of_not_mem (List.nodup_cons.mp hpost).1, Function.update_self]

end Run

theorem induction {order : List α} {P : α → Prop}
    (step : ∀ pre t post, order = pre ++ t :: post → (∀ u ∈ pre, P u) → P t) : ∀ t ∈ order, P t := by
  have key : ∀ rest pre, order = pre ++ rest → (∀ u ∈ pre, P u) → ∀ t ∈ order, P t := by
    intro rest
    induction rest with
    | nil =>
      intro pre he hpre
      rw [he, List.append_nil]
      exact hpre
    | cons t rest ih =>
      intro pre he hpre
      refine ih (pre ++ [t]) (by simpa using he) fun u hu => ?_
      rcases List.mem_append.mp hu with hu | hu
      · exact hpre u hu
      · exact List.mem_singleton.mp hu ▸ step pre t rest he hpre
  exact key order [] rfl nofun

/-- The largest value of `f` on a list of nodes. -/
def peak (f : α → Nat) (ts : List α) : Nat := (ts.map f).foldr max 0

@[simp] theorem peak_nil (f : α → Nat) : peak f [] = 0 := rfl

@[simp] theorem peak_cons (f : α → Nat) (t : α) (ts : List α) : peak f (t :: ts) = max (f t) (peak f ts) := rfl

theorem le_peak {f : α → Nat} {t : α} {ts : List α} (h : t ∈ ts) : f t ≤ peak f ts := by
  induction ts with
  | nil => cases h
  | cons u ts ih =>
    rcases List.mem_cons.mp h with rfl | h
    · exact le_max_left _ _
    · exact (ih h).trans (le_max_right _ _)

theorem peak_mem (f : α → Nat) {ts : List α} (h : ts ≠ []) : ∃ t ∈ ts, f t = peak f ts := by
  induction ts with
  | nil => exact absurd rfl h
  | cons t ts ih =>
    rcases Nat.le_total (peak f ts) (f t) with hle | hle
    · exact ⟨t, List.mem_cons_self, (max_eq_left hle).symm⟩
    · cases ts with
      | nil => exact ⟨t, List.mem_cons_self, (max_eq_left (Nat.zero_le _)).symm⟩
      | cons u ts =>
        obtain ⟨v, hv, he⟩ := ih (List.cons_ne_nil u ts)
        exact ⟨v, List.mem_cons_of_mem _ hv, he.trans (max_eq_right hle).symm⟩

theorem peak_pos {f : α → Nat} {ts : List α} (hne : ts ≠ []) (h : ∀ t ∈ ts, 0 < f t) : 0 < peak f ts := by
  obtain ⟨t, ht⟩ := List.exists_mem_of_ne_nil ts hne
  exact (h t ht).trans_le (le_peak ht)

theorem peak_congr {f g : α → Nat} {ts : List α} (h : ∀ t ∈ ts, f t = g t) : peak f ts = peak g ts := by
  rw [peak, List.map_congr_left h]
  rfl

end ForwardPass
