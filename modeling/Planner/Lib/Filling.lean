import Mathlib.Algebra.Order.BigOperators.Group.List
import Mathlib.Tactic.Linarith

/-! Greedy filling. A demand is met from the bins in turn, from each as much as
it holds; no other way of sharing it out meets more. -/

namespace Filling

variable {β : Type}

/-- What is taken from each bin, and the demand that is left. -/
def fill (capacity : β → Int) : List β → Int → List (β × Int) × Int
  | [], demand => ([], demand)
  | b :: bins, demand =>
    if 0 < demand ∧ 0 < capacity b then
      let (taken, rest) := fill capacity bins (demand - min (capacity b) demand)
      ((b, min (capacity b) demand) :: taken, rest)
    else fill capacity bins demand

/-- All that the bins hold. -/
def room (capacity : β → Int) (bins : List β) : Int := (bins.map fun b => max 0 (capacity b)).sum

variable {capacity : β → Int} {bins : List β} {demand : Int}

@[simp] theorem room_nil : room capacity [] = 0 := rfl

@[simp] theorem room_cons (b : β) (bins : List β) :
    room capacity (b :: bins) = max 0 (capacity b) + room capacity bins := rfl

@[simp] theorem room_append (capacity : β → Int) (bins later : List β) :
    room capacity (bins ++ later) = room capacity bins + room capacity later := by
  simp only [room, List.map_append, List.sum_append]

theorem room_nonneg (capacity : β → Int) (bins : List β) : 0 ≤ room capacity bins := by
  induction bins with
  | nil => exact le_rfl
  | cons b bins ih =>
    rw [room_cons]
    omega

theorem fill_of_nonpos (bins : List β) (h : demand ≤ 0) : fill capacity bins demand = ([], demand) := by
  induction bins with
  | nil => rfl
  | cons b bins ih =>
    have hno : ¬ (0 < demand ∧ 0 < capacity b) := by omega
    simp only [fill, if_neg hno, ih]

theorem fill_rest (capacity : β → Int) (bins : List β) (h : 0 ≤ demand) :
    (fill capacity bins demand).2 = max 0 (demand - room capacity bins) := by
  induction bins generalizing demand with
  | nil =>
    simp only [fill, room_nil]
    omega
  | cons b bins ih =>
    have hnonneg := room_nonneg capacity bins
    simp only [fill, room_cons]
    split
    · rw [ih (by omega)]
      omega
    · rename_i hno
      rw [ih h]
      omega

/-- What is taken and what is left make up the demand. -/
theorem sum_fill (capacity : β → Int) (bins : List β) (demand : Int) :
    ((fill capacity bins demand).1.map Prod.snd).sum + (fill capacity bins demand).2 = demand := by
  induction bins generalizing demand with
  | nil => simp [fill]
  | cons b bins ih =>
    simp only [fill]
    split
    · have hh := ih (demand - min (capacity b) demand)
      simp only [List.map_cons, List.sum_cons]
      omega
    · exact ih demand

theorem mem_fill {e : β × Int} (h : e ∈ (fill capacity bins demand).1) : 0 < e.2 ∧ e.2 ≤ capacity e.1 := by
  induction bins generalizing demand with
  | nil => simp [fill] at h
  | cons b bins ih =>
    simp only [fill] at h
    split at h
    · rcases List.mem_cons.mp h with rfl | h
      · exact ⟨by simp only; omega, min_le_left _ _⟩
      · exact ih h
    · exact ih h

/-- What the first bins leave is met from the later ones. -/
theorem fill_append (bins later : List β) (demand : Int) : (fill capacity (bins ++ later) demand).1 =
    (fill capacity bins demand).1 ++ (fill capacity later (fill capacity bins demand).2).1 := by
  induction bins generalizing demand with
  | nil => rfl
  | cons b bins ih =>
    rw [List.cons_append]
    simp only [fill]
    split
    · simp only [ih, List.cons_append]
    · exact ih demand

theorem fill_sublist (bins : List β) (demand : Int) :
    ((fill capacity bins demand).1.map Prod.fst).Sublist bins := by
  induction bins generalizing demand with
  | nil => exact List.Sublist.refl _
  | cons b bins ih =>
    simp only [fill]
    split
    · exact (ih _).cons_cons b
    · exact (ih demand).cons b

/-- A bin is used when it holds something and the bins before it do not hold the demand. -/
theorem exists_mem_fill_iff {b : β} :
    b ∈ (fill capacity bins demand).1.map Prod.fst ↔
      ∃ pre post, bins = pre ++ b :: post ∧ 0 < capacity b ∧ room capacity pre < demand := by
  induction bins generalizing demand with
  | nil => simp [fill]
  | cons c bins ih =>
    constructor
    · intro h
      simp only [fill] at h
      split at h
      · rename_i hc
        rcases List.mem_cons.mp h with rfl | h
        · exact ⟨[], bins, rfl, hc.2, hc.1⟩
        · obtain ⟨pre, post, rfl, hb, hroom⟩ := ih.mp h
          have hnonneg := room_nonneg capacity pre
          refine ⟨c :: pre, post, rfl, hb, ?_⟩
          rw [room_cons]
          omega
      · rename_i hc
        obtain ⟨pre, post, rfl, hb, hroom⟩ := ih.mp h
        have hnonneg := room_nonneg capacity pre
        refine ⟨c :: pre, post, rfl, hb, ?_⟩
        rw [room_cons]
        omega
    · rintro ⟨pre, post, he, hb, hroom⟩
      have hpos : 0 < demand := (room_nonneg capacity pre).trans_lt hroom
      simp only [fill]
      cases pre with
      | nil =>
        obtain ⟨rfl, rfl⟩ := List.cons.inj he
        rw [if_pos ⟨hpos, hb⟩]
        exact List.mem_cons_self
      | cons d pre =>
        obtain ⟨rfl, rfl⟩ := List.cons.inj he
        rw [room_cons] at hroom
        split
        · exact List.mem_cons_of_mem _ (ih.mpr ⟨pre, post, rfl, hb, by omega⟩)
        · exact ih.mpr ⟨pre, post, rfl, hb, by omega⟩

theorem fill_full (h : 0 < (fill capacity bins demand).2) {e : β × Int}
    (he : e ∈ (fill capacity bins demand).1) : e.2 = capacity e.1 := by
  induction bins generalizing demand with
  | nil => simp [fill] at he
  | cons b bins ih =>
    simp only [fill] at h he
    split at he
    · rename_i hb
      rw [if_pos hb] at h
      rcases List.mem_cons.mp he with rfl | he
      · refine min_eq_left (not_lt.mp fun hlt => ?_)
        rw [min_eq_right hlt.le, sub_self, fill_of_nonpos bins le_rfl] at h
        exact lt_irrefl _ h
      · exact ih h he
    · rename_i hb
      rw [if_neg hb] at h
      exact ih h he

section Shares

variable [DecidableEq β]

/-- However it is shared out, the bins take no more than they hold. -/
theorem sum_le_room {taken : List (β × Int)} (hbins : ∀ e ∈ taken, e.1 ∈ bins)
    (hcap : ∀ e ∈ taken, ((taken.filter fun f => f.1 = e.1).map Prod.snd).sum ≤ capacity e.1) :
    (taken.map Prod.snd).sum ≤ room capacity bins := by
  induction bins generalizing taken with
  | nil =>
    have hnil : taken = [] := List.eq_nil_iff_forall_not_mem.mpr fun e he => by simpa using hbins e he
    simp [hnil]
  | cons b bins ih =>
    let mine := taken.filter fun f => f.1 = b
    let others := taken.filter fun f => ¬ f.1 = b
    have hsplit : (taken.map Prod.snd).sum = (mine.map Prod.snd).sum + (others.map Prod.snd).sum := by
      have hperm := List.filter_append_perm (fun f : β × Int => f.1 = b) taken
      rw [← List.sum_append, ← List.map_append]
      refine ((hperm.map Prod.snd).sum_eq).symm.trans ?_
      simp only [mine, others, decide_not]
    have hmine : (mine.map Prod.snd).sum ≤ max 0 (capacity b) := by
      rcases List.eq_nil_or_concat mine with hnil | ⟨_, e, he⟩
      · simp [hnil]
      · have hmem : e ∈ mine := by simp [he]
        obtain ⟨het, heb⟩ := List.mem_filter.mp hmem
        have hbin : e.1 = b := of_decide_eq_true heb
        have hh := hcap e het
        rw [hbin] at hh
        exact hh.trans (le_max_right _ _)
    have hothers : (others.map Prod.snd).sum ≤ room capacity bins := by
      apply ih
      · intro e he
        obtain ⟨het, heb⟩ := List.mem_filter.mp he
        exact (List.mem_cons.mp (hbins e het)).resolve_left (of_decide_eq_true heb)
      · intro e he
        obtain ⟨het, heb⟩ := List.mem_filter.mp he
        have hne : ¬ e.1 = b := of_decide_eq_true heb
        have hsame : others.filter (fun f => f.1 = e.1) = taken.filter fun f => f.1 = e.1 := by
          rw [List.filter_filter]
          refine List.filter_congr fun f _ => ?_
          by_cases hf : f.1 = e.1
          · simp [hf, hne]
          · simp [hf]
        rw [hsame]
        exact hcap e het
    rw [hsplit, room_cons]
    omega

end Shares

end Filling
