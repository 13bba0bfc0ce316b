import Planner.ActTables
import Planner.Bookings

/-! Dates of the committed payloads. A date edit rewrites start and end and never
looks at the days that were reserved. -/

namespace Planner

/-- The reserved days lie between the dates. -/
def Assignment.WellFormed (a : Assignment) : Prop :=
  a.startDate ≤ a.endDate ∧ ∀ al ∈ a.allocations, a.startDate ≤ al.day ∧ al.day ≤ a.endDate

def Store.PayloadsWellFormed (s : Store) : Prop :=
  ∀ payload ∈ s.committedPayloads, ∀ a ∈ payload.assignments, a.WellFormed

/-- The load of the next plan lies inside the dates of its tasks. -/
def Store.LoadWithinDates (s : Store) : Prop :=
  ∀ al ∈ s.committedLoad, ∃ payload ∈ s.committedPayloads, ∃ a ∈ payload.assignments,
    al ∈ a.allocations ∧ a.startDate ≤ al.day ∧ al.day ≤ a.endDate

/-- A date edit of a committed task encloses the days reserved for it, each
date being the given one or else the one the task has. -/
def Act.Encloses (s : Store) (act : Act) : Prop :=
  ∀ payload ∈ s.committedPayloads, ∀ a ∈ payload.assignments,
    act.start? a.taskId s ≠ none ∨ act.end? a.taskId s ≠ none →
    (act.start? a.taskId s).getD a.startDate ≤ (act.end? a.taskId s).getD a.endDate ∧
      ∀ al ∈ a.allocations, (act.start? a.taskId s).getD a.startDate ≤ al.day ∧
        al.day ≤ (act.end? a.taskId s).getD a.endDate

namespace Store

variable {s : Store}

theorem PayloadsWellFormed.loadWithinDates (h : s.PayloadsWellFormed) : s.LoadWithinDates := by
  intro al hal
  obtain ⟨payload, hp, hal⟩ := List.mem_flatMap.mp hal
  obtain ⟨a, ha, hal⟩ := List.mem_flatMap.mp hal
  exact ⟨payload, hp, a, ha, hal, (h payload hp a ha).2 al hal⟩

end Store

theorem Proposed.wellFormed {solver : GreedySolver} {intent : AddProjectIntent}
    {actor : Option PersonRecord} {people : List Person} {template : ProjectTemplate} {today : Date}
    {existing : List DayAllocation} {overrides : List DayOverride} {s s' : Store}
    {result : AddProjectResult}
    (h : Proposed solver intent actor people template today existing overrides s result s')
    {a : Assignment} (ha : a ∈ result.plan.assignments) : a.WellFormed := by
  obtain ⟨t, -, earliest, free, allowed, person, p, -, -, rfl⟩ := h.placed ha
  exact ⟨p.start_le, p.within⟩

theorem Assignment.wellFormed_edited {a : Assignment} {person : Option UUID}
    {start end_ : Option Date} : (a.edited person start end_).WellFormed ↔
      start.getD a.startDate ≤ end_.getD a.endDate ∧
        ∀ al ∈ a.allocations, start.getD a.startDate ≤ al.day ∧ al.day ≤ end_.getD a.endDate := by
  simp [WellFormed, edited]

/-- What the proposals of a run guarantee, whatever happens to the committed plans. -/
structure SoundProposals (s : Store) : Prop where
  wf : s.WF
  proposed : ∀ v pv, s.planVersions.get? v = some pv → pv.status = .proposed →
    ∀ a ∈ pv.payload.assignments, a.WellFormed

theorem SoundProposals.perform {s : Store} (h : SoundProposals s) (act : Act) :
    SoundProposals (act.perform s) := by
  refine ⟨act.perform_wf h.wf, fun v pv hv hp a ha => ?_⟩
  cases hold : s.planVersions.get? v with
  | none =>
    obtain ⟨_, _, _, _, _, _, _, _, _, hprop, -, -, hpay⟩ := act.perform_new_version hold hv
    rw [hpay] at ha
    exact hprop.wellFormed ha
  | some old =>
    rw [act.perform_version h.wf hold] at hv
    obtain rfl := Option.some.inj hv
    -- no version turns back into a proposal
    have hp' : old.status = .proposed := by
      dsimp only at hp
      split at hp
      · cases hp
      · exact hp
    simp only [hp', reduceCtorEq, if_false] at ha
    exact h.proposed v old hold hp' a ha

/-- One request keeps the committed payloads well formed iff it encloses. -/
theorem perform_payloadsWellFormed_iff {s : Store} (h : SoundProposals s) (hw : s.PayloadsWellFormed)
    (act : Act) : (act.perform s).PayloadsWellFormed ↔ act.Encloses s := by
  constructor
  · intro hnext payload hp a ha _
    have hp' := (act.mem_perform_committedPayloads h.wf).mpr (Or.inl ⟨payload, hp, rfl⟩)
    exact Assignment.wellFormed_edited.mp (hnext _ hp' _ (List.mem_map_of_mem ha))
  · intro hencl payload hp b hb
    rcases (act.mem_perform_committedPayloads h.wf).mp hp with
      ⟨old, hold, rfl⟩ | ⟨v, pv, hv, hst, -, rfl⟩
    · obtain ⟨a, ha, rfl⟩ := List.mem_map.mp hb
      refine Assignment.wellFormed_edited.mpr ?_
      by_cases hd : act.start? a.taskId s ≠ none ∨ act.end? a.taskId s ≠ none
      · exact hencl old hold a ha hd
      · obtain ⟨hstart, hend⟩ := not_or.mp hd
        rw [not_not.mp hstart, not_not.mp hend]
        exact hw old hold a ha
    · exact h.proposed v pv hv hst b hb

/-- All along a run the committed payloads are well formed iff every date edit
of it encloses the days reserved for its task. -/
theorem payloads_wellFormed_iff (s₀ : Store) (hs : s₀.WF) (hempty : s₀.planVersions = .empty)
    (acts : List Act) :
    ((∀ pre, pre <+: acts → (s₀.after pre).PayloadsWellFormed ∧ (s₀.after pre).LoadWithinDates) ↔
      ∀ pre act, pre ++ [act] <+: acts → act.Encloses (s₀.after pre)) := by
  have hrun : (∀ pre, pre <+: acts → (s₀.after pre).PayloadsWellFormed) ↔
      ∀ pre act, pre ++ [act] <+: acts → act.Encloses (s₀.after pre) := by
    refine Trace.always_iff (I := fun pre => SoundProposals (s₀.after pre)) ?_ ?_ ?_ ?_
    · refine ⟨hs, fun v pv hv => ?_⟩
      rw [Store.after, Trace.after_nil, hempty] at hv
      cases hv
    · intro payload hp
      rw [Store.after, Trace.after_nil, Store.committedPayloads, hempty] at hp
      cases hp
    · intro pre act h
      rw [Store.after_snoc]
      exact h.perform act
    · intro pre act h hw
      rw [Store.after_snoc]
      exact perform_payloadsWellFormed_iff h hw act
  rw [← hrun]
  exact ⟨fun h pre hpre => (h pre hpre).1,
    fun h pre hpre => ⟨h pre hpre, Store.PayloadsWellFormed.loadWithinDates (h pre hpre)⟩⟩

/-- One day of work is proposed for Monday and confirmed, and its start moved past its end. -/
def moveStart : List Act :=
  [.addProject .onWeekdays { title := "Ролик", templateCode := "lite" } none anna shooting 1 [] [] none,
    .confirm none 6 none, .editTask true 5 (.value 10) .blank none]

theorem payloads_wellFormed_iff_moveStart :
    ((∀ pre, pre <+: moveStart → (shootingStore.after pre).PayloadsWellFormed ∧
      (shootingStore.after pre).LoadWithinDates) ↔
      ∀ pre act, pre ++ [act] <+: moveStart → act.Encloses (shootingStore.after pre)) :=
  payloads_wellFormed_iff shootingStore (by constructor <;> decide) rfl moveStart

theorem moveStart_not_wellFormed :
    ¬ ∀ pre, pre <+: moveStart → (shootingStore.after pre).PayloadsWellFormed := by
  intro h
  have hpayload : (shootingStore.after moveStart).committedPayloads =
      [⟨[⟨5, 1, 10, 1, [⟨1, 1, 8⟩]⟩], [], some 1⟩] := rfl
  have hw := h moveStart List.prefix_rfl _ (hpayload ▸ List.mem_cons_self) _ List.mem_cons_self
  exact absurd hw.1 (by decide)

end Planner
