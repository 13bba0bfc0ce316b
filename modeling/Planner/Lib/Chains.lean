import Mathlib.Algebra.GroupWithZero.Nat
import Mathlib.Data.List.Chain
import Mathlib.Data.List.Nodup
import Mathlib.Logic.Relation
import Mathlib.Order.Bounds.Basic
import Mathlib.Order.Lattice.Nat

/-! Chains and what they add up to. Where no chain has a node twice, the greatest
total is a function of what one node weighs: flat at first, then one for one. -/

namespace Chains

variable {α : Type}

def totals (chains : List α → Prop) (f : α → Nat) : Set Nat := {n | ∃ c, chains c ∧ (c.map f).sum = n}

/-- What the chains that leave `t` out add up to. -/
def around (chains : List α → Prop) (f : α → Nat) (t : α) : Set Nat := {n | ∃ c, chains c ∧ t ∉ c ∧ (c.map f).sum = n}

/-- What the others of a chain through `t` add up to. -/
def besides (chains : List α → Prop) (f : α → Nat) (t : α) : Set Nat :=
  {n | ∃ pre post, chains (pre ++ t :: post) ∧ ((pre ++ post).map f).sum = n}

theorem nodup_of_acyclic {r : α → α → Prop} (hacyclic : ∀ v, ¬ Relation.TransGen r v v) {c : List α}
    (h : c.IsChain r) : c.Nodup := by
  have hpairs : c.Pairwise (Relation.TransGen r) :=
    List.isChain_iff_pairwise.mp (h.imp fun _ _ hr => Relation.TransGen.single hr)
  refine hpairs.imp fun {a b} hab he => ?_
  subst he
  exact hacyclic a hab

/-- No greater chain on the one side than on the other. -/
theorem greatest_le {β : Type} {chains : List α → Prop} {chains' : List β → Prop} {f : α → Nat} {f' : β → Nat} {m n : Nat}
    (hm : IsGreatest (totals chains f) m) (hn : IsGreatest (totals chains' f') n)
    (h : ∀ c, chains c → ∃ c', chains' c' ∧ (c.map f).sum ≤ (c'.map f').sum) : m ≤ n := by
  obtain ⟨c, hc, rfl⟩ := hm.1
  obtain ⟨c', hc', hle⟩ := h c hc
  exact hle.trans (hn.2 ⟨c', hc', rfl⟩)

section One

variable {chains : List α → Prop} {f f' : α → Nat} {t : α} {L N R : Nat}

theorem exists_greatest {S : Set Nat} {n : Nat} (hn : n ∈ S) (hbound : BddAbove S) : ∃ m, IsGreatest S m :=
  ⟨sSup S, Nat.sSup_mem ⟨n, hn⟩ hbound, fun _ hm => le_csSup hbound hm⟩

theorem exists_around (hL : IsGreatest (totals chains f) L) (hnil : chains []) : ∃ N, IsGreatest (around chains f t) N := by
  have hempty : 0 ∈ around chains f t := ⟨[], hnil, List.not_mem_nil, rfl⟩
  refine exists_greatest hempty ⟨L, ?_⟩
  rintro n ⟨c, hc, -, rfl⟩
  exact hL.2 ⟨c, hc, rfl⟩

theorem exists_besides (hL : IsGreatest (totals chains f) L) (hone : chains [t]) : ∃ R, IsGreatest (besides chains f t) R := by
  have hempty : 0 ∈ besides chains f t := ⟨[], [], hone, rfl⟩
  refine exists_greatest hempty ⟨L, ?_⟩
  rintro n ⟨pre, post, hc, rfl⟩
  have hle := hL.2 ⟨_, hc, rfl⟩
  simp only [List.map_append, List.map_cons, List.sum_append, List.sum_cons] at hle ⊢
  omega

/-- A chain through `t` with another weight of `t`. -/
theorem sum_through {pre post : List α} (hnodup : (pre ++ t :: post).Nodup)
    (hothers : ∀ u ∈ pre ++ t :: post, u ≠ t → f' u = f u) :
    ((pre ++ t :: post).map f').sum = ((pre ++ post).map f).sum + f' t := by
  have hapart := List.nodup_middle.mp hnodup
  have hnot : t ∉ pre ++ post := (List.nodup_cons.mp hapart).1
  have hsame : (pre ++ post).map f' = (pre ++ post).map f := by
    refine List.map_congr_left fun u hu => hothers u ?_ fun he => hnot (he ▸ hu)
    rcases List.mem_append.mp hu with hu | hu
    · exact List.mem_append_left _ hu
    · exact List.mem_append_right _ (List.mem_cons_of_mem _ hu)
  rw [← hsame]
  simp only [List.map_append, List.map_cons, List.sum_append, List.sum_cons]
  omega

/-- The greatest total, for every weight of `t`. -/
theorem isGreatest_reweighted (hnodup : ∀ c, chains c → c.Nodup) (hN : IsGreatest (around chains f t) N)
    (hR : IsGreatest (besides chains f t) R) (hothers : ∀ c, chains c → ∀ u ∈ c, u ≠ t → f' u = f u) :
    IsGreatest (totals chains f') (max N (R + f' t)) := by
  constructor
  · rcases le_total N (R + f' t) with hle | hle
    · obtain ⟨pre, post, hc, rfl⟩ := hR.1
      rw [max_eq_right hle]
      exact ⟨_, hc, sum_through (hnodup _ hc) (hothers _ hc)⟩
    · obtain ⟨c, hc, ht, rfl⟩ := hN.1
      rw [max_eq_left hle]
      refine ⟨c, hc, congrArg List.sum (List.map_congr_left fun u hu => ?_)⟩
      exact hothers c hc u hu fun he => ht (he ▸ hu)
  · rintro n ⟨c, hc, rfl⟩
    by_cases ht : t ∈ c
    · obtain ⟨pre, post, rfl⟩ := List.append_of_mem ht
      have hle := hR.2 ⟨pre, post, hc, rfl⟩
      rw [sum_through (hnodup _ hc) (hothers _ hc)]
      omega
    · have hsame : c.map f' = c.map f := List.map_congr_left fun u hu => hothers c hc u hu fun he => ht (he ▸ hu)
      have hle := hN.2 ⟨c, hc, ht, rfl⟩
      rw [hsame]
      omega

end One

end Chains
