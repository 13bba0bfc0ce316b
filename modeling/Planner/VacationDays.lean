import Mathlib.Order.Interval.Finset.Nat
import Planner.OperationRuns

/-! A vacation is an override on every day of its period and on no other: the
loop over the days leaves the days before it and after it as they were. -/

namespace Planner

open Program

namespace Store

/-- The days `day, day + 1, …` that the loop has entered, and all others. -/
theorem get?_daysOff_self (personId : UUID) (capacityH : Int) (n : Nat) (day d : Date) (s : Store) :
    (daysOff personId capacityH n day s).dayOverrides.get? (personId, d) =
      if day ≤ d ∧ d < day + n then some ⟨capacityH, some "vacation"⟩ else s.dayOverrides.get? (personId, d) := by
  induction n generalizing day s with
  | zero => rw [daysOff, if_neg (by lia)]
  | succ n ih =>
    rw [daysOff, ih]
    by_cases hday : d = day
    · -- entered first, and not again by the days that follow
      subst hday
      rw [if_neg (by lia), if_pos (by lia), putOverride, OrdDict.get?_insert_self]
    · have hother : (personId, d) ≠ (personId, day) := fun he => hday (Prod.mk.inj he).2
      rw [putOverride, OrdDict.get?_insert_of_ne _ _ hother]
      by_cases hlater : day + 1 ≤ d ∧ d < day + 1 + n
      · rw [if_pos hlater, if_pos (by lia)]
      · rw [if_neg hlater, if_neg (by lia)]

/-- From `s` to `s'` the person got the override on exactly the days of the period. -/
structure Covers (s : Store) (intent : VacationIntent) (personId : UUID) (actorId : Option UUID) (s' : Store) :
    Prop where
  inside : ∀ d, intent.dayFrom ≤ d → d ≤ intent.dayTo →
    s'.dayOverrides.get? (personId, d) = some ⟨intent.capacityH, some "vacation"⟩
  outside : ∀ d, ¬ (intent.dayFrom ≤ d ∧ d ≤ intent.dayTo) →
    s'.dayOverrides.get? (personId, d) = s.dayOverrides.get? (personId, d)
  others : ∀ q, q ≠ personId → ∀ d, s'.dayOverrides.get? (q, d) = s.dayOverrides.get? (q, d)
  rest : s' = { s with dayOverrides := s'.dayOverrides, audit := s.audit ++ [vacationAudit intent personId actorId] }

end Store

/-- A vacation that one of the checks turns down. -/
def Refused (s : Store) (intent : VacationIntent) (isAdmin : Bool) : Prop :=
  isAdmin = false ∨ intent.dayTo < intent.dayFrom ∨ maxVacationDays < intent.dayTo - intent.dayFrom + 1 ∨
    ¬ (minCapacityH ≤ intent.capacityH ∧ intent.capacityH ≤ maxCapacityH) ∨
    s.personByName intent.personName = none

section

variable {s s' : Store} {intent : VacationIntent} {actorId : Option UUID} {isAdmin : Bool} {count : Nat}

theorem validVacation_ok_iff : validVacation intent = .ok () ↔
    intent.dayFrom ≤ intent.dayTo ∧ intent.dayTo - intent.dayFrom + 1 ≤ maxVacationDays ∧
      minCapacityH ≤ intent.capacityH ∧ intent.capacityH ≤ maxCapacityH := by
  unfold validVacation
  dsimp only
  split
  · rename_i hreversed
    exact iff_of_false (fun h => nomatch h) fun h => absurd h.1 (not_le.mpr hreversed)
  · rename_i hordered
    split
    · rename_i hlong
      exact iff_of_false (fun h => nomatch h) fun h => absurd h.2.1 (not_le.mpr hlong)
    · rename_i hshort
      split
      · rename_i hcapacity
        exact iff_of_false (fun h => nomatch h) fun h => hcapacity h.2.2
      · rename_i hcapacity
        exact iff_of_true rfl ⟨not_lt.mp hordered, not_lt.mp hshort, not_not.mp hcapacity⟩

theorem covers_daysOff (hordered : intent.dayFrom ≤ intent.dayTo) (personId : UUID) :
    s.Covers intent personId actorId
      ((Store.daysOff personId intent.capacityH (intent.dayTo - intent.dayFrom + 1) intent.dayFrom s).putAudit
        (Store.vacationAudit intent personId actorId)) where
  inside d hfrom hto := by
    rw [Store.putAudit, Store.get?_daysOff_self, if_pos (by lia)]
  outside d hout := by
    rw [Store.putAudit, Store.get?_daysOff_self, if_neg (by lia)]
  others q hne d := Store.get?_daysOff hne _ _ _ _ _
  rest := by
    rw [Store.daysOff_eq]
    rfl

/-- What the checks and the calls have answered when the vacation is entered. -/
theorem setVacation_ok (h : (setVacation intent actorId isAdmin).run s = (.ok count, s')) :
    ∃ person, s.personByName intent.personName = some person ∧ validVacation intent = .ok () ∧
      count = intent.dayTo - intent.dayFrom + 1 ∧
      s' = (Store.daysOff person.id intent.capacityH (intent.dayTo - intent.dayFrom + 1) intent.dayFrom s).putAudit
        (Store.vacationAudit intent person.id actorId) := by
  unfold setVacation at h
  split at h
  · cases h
  obtain ⟨_, hvalid, h⟩ := run_bind_ofExcept_ok h
  have hread : (Repo.getPersonByName intent.personName).run s = (.ok (s.personByName intent.personName), s) :=
    run_read _ _
  rw [run_bind_of_ok hread] at h
  cases hperson : s.personByName intent.personName with
  | none =>
    rw [hperson] at h
    cases h
  | some person =>
    rw [hperson] at h
    dsimp only at h
    rw [run_bind_of_ok (upsertDays_run (Store.personByName_mem hperson) _ _ _)] at h
    obtain ⟨u₃, s₃, haudit, h⟩ := run_bind_eq_ok h
    obtain ⟨hcount, rfl⟩ := Prod.mk.inj h
    simp only [Repo.addAudit, run_call] at haudit
    split at haudit
    · obtain ⟨-, rfl⟩ := Prod.mk.inj haudit
      exact ⟨person, rfl, hvalid, (Except.ok.inj hcount).symm, rfl⟩
    · cases haudit

theorem setVacation_refused (h : Refused s intent isAdmin) :
    ∃ e, (setVacation intent actorId isAdmin).run s = (.error e, s) := by
  unfold setVacation
  split
  · exact ⟨_, rfl⟩
  · rename_i hadmin
    rw [run_bind, run_ofExcept]
    cases hvalid : validVacation intent with
    | error e => exact ⟨e, rfl⟩
    | ok u =>
      obtain ⟨hordered, hshort, hcapacity⟩ := validVacation_ok_iff.mp hvalid
      have hperson : s.personByName intent.personName = none := by
        rcases h with h | h | h | h | h
        · rw [h] at hadmin
          exact absurd rfl hadmin
        · exact absurd hordered (not_le.mpr h)
        · exact absurd hshort (not_le.mpr h)
        · exact absurd hcapacity h
        · exact h
      simp only [run_bind, Repo.getPersonByName, run_read, hperson]
      exact ⟨_, rfl⟩

end

end Planner
