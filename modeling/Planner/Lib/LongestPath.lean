import Mathlib.Algebra.GroupWithZero.Nat
import Mathlib.Data.List.Chain
import Mathlib.Order.Bounds.Basic
import Planner.Lib.ForwardPass

/-! Longest paths by a forward pass. `cost u v` is what a step from `u` to its
successor `v` adds, `last v` what a path that ends in `v` adds at its end. -/

namespace LongestPath

open ForwardPass

variable {α : Type}

/-- What a path adds up to. -/
def weight (cost : α → α → Nat) (last : α → Nat) : List α → Nat
  | [] => 0
  | [t] => last t
  | u :: t :: rest => cost u t + weight cost last (t :: rest)

theorem weight_concat (cost : α → α → Nat) (last : α → Nat) (path : List α) (u t : α) :
    weight cost last (path ++ [u, t]) = weight cost (fun _ => 0) (path ++ [u]) + cost u t + last t := by
  induction path with
  | nil => simp [weight]
  | cons v path ih =>
    cases path with
    | nil => simp [weight, Nat.add_assoc]
    | cons w path =>
      simp only [List.cons_append, weight] at ih ⊢
      rw [ih, Nat.add_assoc, Nat.add_assoc, Nat.add_assoc]

theorem weight_end (cost : α → α → Nat) (last : α → Nat) (path : List α) (t : α) :
    weight cost last (path ++ [t]) = weight cost (fun _ => 0) (path ++ [t]) + last t := by
  rcases List.eq_nil_or_concat path with rfl | ⟨path, u, rfl⟩
  · simp [weight]
  · rw [List.concat_eq_append, List.append_assoc]
    have hlast := weight_concat cost last path u t
    have hzero := weight_concat cost (fun _ => 0) path u t
    exact hlast.trans (congrArg (· + last t) hzero.symm)

/-- What a path adds up to if every node costs what it costs at the end. -/
theorem weight_eq_sum (f : α → Nat) (path : List α) : weight (fun u _ => f u) f path = (path.map f).sum := by
  induction path with
  | nil => rfl
  | cons u path ih =>
    cases path with
    | nil => simp [weight]
    | cons t path =>
      rw [weight, ih]
      rfl

variable [DecidableEq α] (preds : α → List α) (cost : α → α → Nat)

def visit (t : α) (start : α → Nat) : Nat := peak (fun u => start u + cost u t) (preds t)

/-- The longest way to each node. -/
def starts (order : List α) : α → Nat := run (visit preds cost) order fun _ => 0

/-- Every node after its predecessors. -/
structure Ordered (preds : α → List α) (order : List α) : Prop where
  nodup : order.Nodup
  before : ∀ pre t post, order = pre ++ t :: post → ∀ u ∈ preds t, u ∈ pre

variable {preds cost} {order : List α}

theorem starts_eq (h : Ordered preds order) {t : α} (ht : t ∈ order) :
    starts preds cost order t =
      peak (fun u => starts preds cost order u + cost u t) (preds t) := by
  refine run_eq h.nodup (fun pre t post he m m' hm => ?_) _ ht
  exact peak_congr fun u hu => by rw [hm u (h.before pre t post he u hu)]

theorem step_le (h : Ordered preds order) {u t : α} (ht : t ∈ order) (hu : u ∈ preds t) :
    starts preds cost order u + cost u t ≤ starts preds cost order t := by
  rw [starts_eq h ht]
  exact le_peak (f := fun u => starts preds cost order u + cost u t) hu

/-- No path through the order is longer than the pass says. -/
theorem weight_le (h : Ordered preds order) (last : α → Nat) {path : List α}
    (hpath : path.IsChain fun u t => u ∈ preds t) (hmem : ∀ t ∈ path, t ∈ order) :
    weight cost last path ≤ peak (fun t => starts preds cost order t + last t) order := by
  have key : ∀ (t : α) (rest : List α), (t :: rest).IsChain (fun u t => u ∈ preds t) →
      (∀ u ∈ t :: rest, u ∈ order) → starts preds cost order t + weight cost last (t :: rest) ≤
        peak (fun t => starts preds cost order t + last t) order := by
    intro t rest
    induction rest generalizing t with
    | nil =>
      intro _ hm
      exact le_peak (f := fun t => starts preds cost order t + last t) (hm t List.mem_cons_self)
    | cons v rest ih =>
      intro hc hm
      obtain ⟨hv, hc⟩ := List.isChain_cons_cons.mp hc
      have hrest := ih v hc fun u hu => hm u (List.mem_cons_of_mem _ hu)
      have hstep : starts preds cost order t + cost t v ≤ starts preds cost order v := step_le h (hm v (by simp)) hv
      rw [weight]
      omega
  cases path with
  | nil => exact Nat.zero_le _
  | cons t rest => exact (Nat.le_add_left _ _).trans (key t rest hpath hmem)

theorem exists_path (h : Ordered preds order) : ∀ t ∈ order, ∃ path,
    (path ++ [t]).IsChain (fun u t => u ∈ preds t) ∧ (∀ u ∈ path, u ∈ order) ∧
      weight cost (fun _ => 0) (path ++ [t]) = starts preds cost order t := by
  refine induction fun pre t post he ih => ?_
  have ht : t ∈ order := by simp [he]
  by_cases hne : preds t = []
  · refine ⟨[], List.isChain_singleton t, nofun, ?_⟩
    rw [starts_eq h ht, hne]
    rfl
  · obtain ⟨u, hu, hpeak⟩ := peak_mem (fun u => starts preds cost order u + cost u t) hne
    have hpre := h.before pre t post he u hu
    obtain ⟨path, hc, hm, hw⟩ := ih u hpre
    refine ⟨path ++ [u], ?_, fun v hv => ?_, ?_⟩
    · rw [List.append_assoc]
      exact List.isChain_append_cons_cons.mpr ⟨hc, hu, List.isChain_singleton t⟩
    · rcases List.mem_append.mp hv with hv | hv
      · exact hm v hv
      · obtain rfl := List.mem_singleton.mp hv
        simp [he, hpre]
    · rw [List.append_assoc]
      refine (weight_concat cost (fun _ => 0) path u t).trans ?_
      rw [hw, starts_eq h ht, ← hpeak, Nat.add_zero]

/-- The pass finds the greatest weight that a path through the order has. -/
theorem isGreatest_weight (h : Ordered preds order) (last : α → Nat) :
    IsGreatest {n | ∃ path : List α, path.IsChain (fun u t => u ∈ preds t) ∧ (∀ t ∈ path, t ∈ order) ∧
      weight cost last path = n} (peak (fun t => starts preds cost order t + last t) order) := by
  constructor
  · by_cases hne : order = []
    · exact ⟨[], List.isChain_nil, nofun, by rw [hne]; rfl⟩
    · obtain ⟨t, ht, hpeak⟩ := peak_mem (fun t => starts preds cost order t + last t) hne
      obtain ⟨path, hc, hm, hw⟩ := @exists_path α _ preds cost order h t ht
      refine ⟨path ++ [t], hc, fun u hu => ?_, by rw [weight_end, hw, hpeak]⟩
      rcases List.mem_append.mp hu with hu | hu
      · exact hm u hu
      · exact List.mem_singleton.mp hu ▸ ht
  · rintro n ⟨path, hc, hm, rfl⟩
    exact weight_le h last hc hm

/-- The pass is no longer than another one iff every path is matched by one of the other. -/
theorem peak_le_peak_iff (h : Ordered preds order) {cost' : α → α → Nat} {last last' : α → Nat} :
    peak (fun t => starts preds cost order t + last t) order ≤
        peak (fun t => starts preds cost' order t + last' t) order ↔
      ∀ path : List α, path.IsChain (fun u t => u ∈ preds t) → (∀ t ∈ path, t ∈ order) →
        ∃ path' : List α, path'.IsChain (fun u t => u ∈ preds t) ∧ (∀ t ∈ path', t ∈ order) ∧
          weight cost last path ≤ weight cost' last' path' := by
  constructor
  · intro hle path hc hm
    obtain ⟨path', hc', hm', hw'⟩ := (@isGreatest_weight α _ preds cost' order h last').1
    exact ⟨path', hc', hm', (weight_le h last hc hm).trans (hw' ▸ hle)⟩
  · intro hall
    obtain ⟨path, hc, hm, hw⟩ := (@isGreatest_weight α _ preds cost order h last).1
    obtain ⟨path', hc', hm', hle⟩ := hall path hc hm
    exact hw ▸ hle.trans (weight_le h last' hc' hm')

end LongestPath
