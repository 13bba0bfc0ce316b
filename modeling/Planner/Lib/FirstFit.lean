import Mathlib.Logic.Function.Basic
import Mathlib.Order.Defs.LinearOrder
import Mathlib.Data.Int.Order.Basic

/-! First fit packing. Items go one after the other into the first of their bins
that has room; an item that finds none is dumped on one of its bins. -/

namespace FirstFit

variable {β : Type}

structure Item (β : Type) where
  size : Int
  bins : List β
  dumpBin : β
  dumpBin_mem : dumpBin ∈ bins

/-- The first bin with room. -/
def Item.fit (item : Item β) (capacity load : β → Int) : Option β :=
  item.bins.find? fun b => load b + item.size ≤ capacity b

variable [DecidableEq β]

def Item.put (item : Item β) (load : β → Int) (b : β) : β → Int :=
  Function.update load b (load b + item.size)

/-- The load once every item found room. -/
def pack (capacity : β → Int) : List (Item β) → (β → Int) → Option (β → Int)
  | [], load => some load
  | item :: items, load => (item.fit capacity load).bind fun b => pack capacity items (item.put load b)

def Packs (capacity : β → Int) (items : List (Item β)) (load : β → Int) : Prop :=
  (pack capacity items load).isSome

instance (capacity : β → Int) (items : List (Item β)) (load : β → Int) :
    Decidable (Packs capacity items load) := inferInstanceAs (Decidable (_ = true))

/-- The load when items without room are dumped. -/
def fill (capacity : β → Int) : List (Item β) → (β → Int) → β → Int
  | [], load => load
  | item :: items, load =>
    fill capacity items (item.put load ((item.fit capacity load).getD item.dumpBin))

variable {capacity load : β → Int} {items : List (Item β)}

theorem fill_append (items later : List (Item β)) (load : β → Int) :
    fill capacity (items ++ later) load = fill capacity later (fill capacity items load) := by
  induction items generalizing load with
  | nil => rfl
  | cons item items ih => exact ih _

theorem fill_snoc (items : List (Item β)) (item : Item β) (load : β → Int) :
    fill capacity (items ++ [item]) load = item.put (fill capacity items load)
      ((item.fit capacity (fill capacity items load)).getD item.dumpBin) := fill_append items [item] load

theorem Item.le_put {item : Item β} (hsize : 0 ≤ item.size) (load : β → Int) (b c : β) :
    load c ≤ item.put load b c := by
  by_cases h : c = b
  · subst h
    rw [put, Function.update_self]
    omega
  · rw [put, Function.update_of_ne h]

theorem Item.put_le {item : Item β} {b : β} (hfit : item.fit capacity load = some b)
    (hload : ∀ c, load c ≤ capacity c) (c : β) : item.put load b c ≤ capacity c := by
  by_cases h : c = b
  · subst h
    rw [put, Function.update_self]
    have hroom := List.find?_some (p := fun b => load b + item.size ≤ capacity b) hfit
    exact of_decide_eq_true hroom
  · rw [put, Function.update_of_ne h]
    exact hload c

/-- Items without room overfill a bin, whichever bin they are dumped on. -/
theorem Item.lt_put {item : Item β} (hfit : item.fit capacity load = none) {b : β} (hb : b ∈ item.bins) :
    capacity b < item.put load b b := by
  rw [put, Function.update_self]
  exact not_le.mp (by simpa using List.find?_eq_none.mp hfit b hb)

theorem le_fill (hsize : ∀ item ∈ items, 0 ≤ item.size) (load : β → Int) (b : β) :
    load b ≤ fill capacity items load b := by
  induction items generalizing load with
  | nil => exact le_rfl
  | cons item items ih =>
    exact le_trans (Item.le_put (hsize item List.mem_cons_self) load _ b)
      (ih (fun i hi => hsize i (List.mem_cons_of_mem _ hi)) _)

theorem Packs.fill_le (h : Packs capacity items load) (hload : ∀ b, load b ≤ capacity b) (b : β) :
    fill capacity items load b ≤ capacity b := by
  induction items generalizing load with
  | nil => exact hload b
  | cons item items ih =>
    cases hfit : item.fit capacity load with
    | none => simp [Packs, pack, hfit] at h
    | some c =>
      simp only [Packs, pack, hfit, Option.bind_some] at h
      simp only [fill, hfit, Option.getD_some]
      exact ih h (Item.put_le hfit hload)

/-- Sizes that are not negative pack iff dumping overfills no bin. -/
theorem packs_iff (hsize : ∀ item ∈ items, 0 ≤ item.size) (hload : ∀ b, load b ≤ capacity b) :
    Packs capacity items load ↔ ∀ b, fill capacity items load b ≤ capacity b := by
  refine ⟨fun h => h.fill_le hload, fun h => ?_⟩
  induction items generalizing load with
  | nil => rfl
  | cons item items ih =>
    have hrest : ∀ i ∈ items, 0 ≤ i.size := fun i hi => hsize i (List.mem_cons_of_mem _ hi)
    cases hfit : item.fit capacity load with
    | none =>
      simp only [fill, hfit, Option.getD_none] at h
      have hover := Item.lt_put hfit item.dumpBin_mem
      exact absurd (lt_of_lt_of_le hover (le_fill hrest _ _)) (not_lt.mpr (h item.dumpBin))
    | some c =>
      simp only [fill, hfit, Option.getD_some] at h
      simp only [Packs, pack, hfit, Option.bind_some]
      exact ih hrest (Item.put_le hfit hload) h

theorem Packs.size_le (h : Packs capacity items load) (hsize : ∀ item ∈ items, 0 ≤ item.size)
    (hload : ∀ b, 0 ≤ load b) {item : Item β} (hitem : item ∈ items) :
    ∃ b ∈ item.bins, item.size ≤ capacity b := by
  induction items generalizing load with
  | nil => cases hitem
  | cons first items ih =>
    cases hfit : first.fit capacity load with
    | none => simp [Packs, pack, hfit] at h
    | some c =>
      simp only [Packs, pack, hfit, Option.bind_some] at h
      rcases List.mem_cons.mp hitem with rfl | hitem
      · have hroom := List.find?_some (p := fun b => load b + item.size ≤ capacity b) hfit
        have hle := of_decide_eq_true hroom
        have hc := hload c
        exact ⟨c, List.mem_of_find?_eq_some hfit, by omega⟩
      · exact ih h (fun i hi => hsize i (List.mem_cons_of_mem _ hi))
          (fun b => le_trans (hload b) (Item.le_put (hsize first List.mem_cons_self) load c b)) hitem

end FirstFit
