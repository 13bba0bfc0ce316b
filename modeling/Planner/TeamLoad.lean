import Mathlib.Algebra.BigOperators.Group.List.Basic
import Planner.Capability
import Planner.Proposal

/-! The load that suggestions and the team's overview show. Both add up the hours
of every committed plan, those of days gone by included. -/

namespace Planner

/-- The roles and skills of the people, and who is an outsider. -/
structure RoleTables where
  external : List UUID := []
  personRoles : List (UUID × UUID) := []
  roleSkills : List (UUID × UUID) := []
  skills : OrdDict UUID String := .empty

/-- An active person and the union of the skills that the roles grant. -/
structure CapabilityRecord where
  personId : UUID
  name : String
  skills : List String
  isExternal : Bool
  deriving DecidableEq, Repr

def RoleTables.skillsOf (t : RoleTables) (personId : UUID) : List String :=
  let roles := (t.personRoles.filter fun r => r.1 = personId).map Prod.snd
  let skillIds := (t.roleSkills.filter fun r => r.1 ∈ roles).map Prod.snd
  (skillIds.filterMap t.skills.get?).dedup

/-- Hours of one person in a list of allocations. -/
def personHours (allocs : List DayAllocation) (personId : UUID) : Int :=
  ((allocs.filter fun a => a.personId = personId).map DayAllocation.hours).sum

namespace Store

variable (s : Store)

def personCapabilities (t : RoleTables) : List CapabilityRecord :=
  (s.peopleByName.filter fun e => e.2.isActive).map fun e => ⟨e.1, e.2.name, t.skillsOf e.1, e.1 ∈ t.external⟩

/-- `_committed_load` and `_committed_hours`. -/
def committedHours : OrdDict UUID Int :=
  s.committedLoad.foldl (fun used a => used.insert a.personId (used.getD a.personId 0 + a.hours)) .empty

/-- `SuggestAssigneesUseCase.execute`. -/
def assigneeSuggestions (U : CharTables) (t : RoleTables) (requiredSkills : List String) (includeExternal : Bool := false)
    (limit : Option Int := some 5) (restrictTo : Option (List UUID) := none) : List AssigneeSuggestion :=
  let load := s.committedHours
  let candidates := (s.personCapabilities t).map fun c =>
    (⟨c.personId, c.name, c.skills, c.isExternal, load.getD c.personId 0⟩ : Candidate)
  suggestAssignees U requiredSkills candidates includeExternal limit restrictTo

/-- `_LOAD_DAYS`. -/
def loadDays : Int := 14

/-- `ToolBox._get_team_load`. -/
def teamLoad (U : CharTables) (personName : Option String) : String :=
  let people := s.solverPeople
  if people = [] then "В команде нет активных людей."
  else
    let wanted := U.casefold (stripChars (personName.getD "").toList)
    let named := people.filter fun p => U.casefold p.name.toList = wanted
    let shown := if wanted ≠ [] ∧ named ≠ [] then named else people
    let used := s.committedHours
    let lines := shown.map fun p =>
      "• " ++ p.name ++ ": " ++ toString (hoursToWorkingDays (used.getD p.id 0) p.capacityH) ++ " / " ++
        toString (hoursToWorkingDays (p.capacityH * loadDays) p.capacityH) ++ " дн."
    String.intercalate "\n" ("Загрузка команды (занято / ёмкость, рабочие дни):" :: lines)

/-- Committed hours of a person on days before `today`. -/
def pastHours (today : Date) (personId : UUID) : Int :=
  personHours (s.committedLoad.filter fun a => a.day < today) personId

end Store

/-- The same people, and the same hours committed for today and later. -/
structure DifferInPast (today : Date) (s s' : Store) : Prop where
  people : s'.people = s.people
  current : (s'.committedLoad.filter fun a => today ≤ a.day).Perm (s.committedLoad.filter fun a => today ≤ a.day)

/-- Whatever is asked, the ranking and the overview are the same. -/
structure SameLoadShown (U : CharTables) (t : RoleTables) (s s' : Store) : Prop where
  ranking : ∀ required includeExternal limit restrictTo,
    s'.assigneeSuggestions U t required includeExternal limit restrictTo =
      s.assigneeSuggestions U t required includeExternal limit restrictTo
  overview : ∀ name, s'.teamLoad U name = s.teamLoad U name

section Hours

variable {s s' : Store} {today : Date}

theorem personHours_cons (a : DayAllocation) (allocs : List DayAllocation) (pid : UUID) :
    personHours (a :: allocs) pid = (if a.personId = pid then a.hours else 0) + personHours allocs pid := by
  by_cases h : a.personId = pid <;> simp [personHours, h]

theorem personHours_perm {allocs allocs' : List DayAllocation} (h : allocs.Perm allocs') (pid : UUID) :
    personHours allocs pid = personHours allocs' pid := ((h.filter _).map _).sum_eq

theorem getD_committedHours (s : Store) (pid : UUID) : s.committedHours.getD pid 0 = personHours s.committedLoad pid := by
  have key : ∀ (allocs : List DayAllocation) (used : OrdDict UUID Int),
      (allocs.foldl (fun used a => used.insert a.personId (used.getD a.personId 0 + a.hours)) used).getD pid 0 =
        used.getD pid 0 + personHours allocs pid := by
    intro allocs
    induction allocs with
    | nil => simp [personHours]
    | cons a allocs ih =>
      intro used
      rw [List.foldl_cons, ih, personHours_cons, OrdDict.getD, OrdDict.get?_insert]
      by_cases h : pid = a.personId
      · subst h
        simp only [if_true, Option.getD_some]
        omega
      · rw [if_neg h, if_neg (Ne.symm h), zero_add]
        rfl
  rw [Store.committedHours, key]
  simp [OrdDict.getD]

/-- The hours before today, and the hours from today on. -/
theorem personHours_split (allocs : List DayAllocation) (today : Date) (pid : UUID) : personHours allocs pid =
    personHours (allocs.filter fun a => a.day < today) pid + personHours (allocs.filter fun a => today ≤ a.day) pid := by
  induction allocs with
  | nil => rfl
  | cons a allocs ih =>
    rw [personHours_cons, ih]
    by_cases h : a.day < today
    · have h' : ¬ today ≤ a.day := not_le.mpr h
      rw [List.filter_cons_of_pos (by simpa using h), List.filter_cons_of_neg (by simpa using h'), personHours_cons]
      omega
    · have h' : today ≤ a.day := not_lt.mp h
      rw [List.filter_cons_of_neg (by simpa using h), List.filter_cons_of_pos (by simpa using h'), personHours_cons]
      omega

theorem committedHours_eq_iff (h : DifferInPast today s s') (pid : UUID) :
    s'.committedHours.getD pid 0 = s.committedHours.getD pid 0 ↔ s'.pastHours today pid = s.pastHours today pid := by
  have hcurrent := personHours_perm h.current pid
  rw [getD_committedHours, getD_committedHours, personHours_split s'.committedLoad today,
    personHours_split s.committedLoad today, hcurrent, Store.pastHours, Store.pastHours]
  omega

end Hours

section Shown

variable {U : CharTables} {t : RoleTables} {s s' : Store}

theorem peopleByName_congr (h : s'.people = s.people) : s'.peopleByName = s.peopleByName := by
  rw [Store.peopleByName, Store.peopleByName, h]

theorem mem_personCapabilities {p : Person} (hp : p ∈ s.solverPeople) :
    ∃ c ∈ s.personCapabilities t, c.personId = p.id := by
  obtain ⟨e, he, rfl⟩ := List.mem_map.mp hp
  exact ⟨_, List.mem_map_of_mem he, rfl⟩

theorem solverPeople_of_capability {c : CapabilityRecord} (hc : c ∈ s.personCapabilities t) :
    ∃ p ∈ s.solverPeople, p.id = c.personId := by
  obtain ⟨e, he, rfl⟩ := List.mem_map.mp hc
  exact ⟨_, List.mem_map_of_mem he, rfl⟩

/-- Everybody's load can be read off a ranking of everybody. -/
theorem load_of_ranking
    (h : s'.assigneeSuggestions U t [] true none none = s.assigneeSuggestions U t [] true none none) {p : Person}
    (hp : p ∈ s.solverPeople) : s'.committedHours.getD p.id 0 = s.committedHours.getD p.id 0 := by
  obtain ⟨c, hc, hid⟩ := mem_personCapabilities (t := t) hp
  have hmem : ∀ (u : Store) a, a ∈ u.assigneeSuggestions U t [] true none none ↔ ∃ c ∈ u.personCapabilities t,
      suggestionFor U (labelByKey U []) ⟨c.personId, c.name, c.skills, c.isExternal,
        u.committedHours.getD c.personId 0⟩ = a := by
    intro u a
    simp [Store.assigneeSuggestions, suggestAssignees, eligible]
  obtain ⟨c', hc', he⟩ := (hmem s' _).mp (h ▸ (hmem s _).mpr ⟨c, hc, rfl⟩)
  have hperson : c'.personId = c.personId := congrArg AssigneeSuggestion.personId he
  have hload : s'.committedHours.getD c'.personId 0 = s.committedHours.getD c.personId 0 :=
    congrArg AssigneeSuggestion.loadHours he
  rwa [hperson, hid] at hload

theorem sameLoadShown_of_hours (hpeople : s'.people = s.people)
    (h : ∀ p ∈ s.solverPeople, s'.committedHours.getD p.id 0 = s.committedHours.getD p.id 0) :
    SameLoadShown U t s s' := by
  have hsolver : s'.solverPeople = s.solverPeople := by
    rw [Store.solverPeople, Store.solverPeople, peopleByName_congr hpeople]
  have hcaps : s'.personCapabilities t = s.personCapabilities t := by
    rw [Store.personCapabilities, Store.personCapabilities, peopleByName_congr hpeople]
  constructor
  · intro required includeExternal limit restrictTo
    have hcandidates : ∀ c ∈ s.personCapabilities t,
        (⟨c.personId, c.name, c.skills, c.isExternal, s'.committedHours.getD c.personId 0⟩ : Candidate) =
          ⟨c.personId, c.name, c.skills, c.isExternal, s.committedHours.getD c.personId 0⟩ := by
      intro c hc
      obtain ⟨p, hp, hid⟩ := solverPeople_of_capability hc
      rw [← hid, h p hp]
    rw [Store.assigneeSuggestions, Store.assigneeSuggestions, hcaps, List.map_congr_left hcandidates]
  · intro name
    unfold Store.teamLoad
    rw [hsolver]
    dsimp only
    split
    · rfl
    · refine congrArg (fun lines => String.intercalate "\n" (_ :: lines)) (List.map_congr_left fun p hp => ?_)
      have hin : p ∈ s.solverPeople := by
        split at hp
        · exact List.mem_of_mem_filter hp
        · exact hp
      rw [h p hin]

end Shown

/-- What is shown is the same if and only if nobody who is active has other hours
on days gone by. -/
theorem past_load_shown_iff (U : CharTables) (t : RoleTables) (today : Date) (s s' : Store)
    (h : DifferInPast today s s') :
    SameLoadShown U t s s' ↔ ∀ p ∈ s.solverPeople, s'.pastHours today p.id = s.pastHours today p.id := by
  constructor
  · exact fun hshown p hp => (committedHours_eq_iff h p.id).mp (load_of_ranking (hshown.ranking _ _ _ _) hp)
  · exact fun hpast => sameLoadShown_of_hours h.people fun p hp => (committedHours_eq_iff h p.id).mpr (hpast p hp)

/-- Anna has worked on `days`, eight hours each. -/
def annaWorked (days : List Date) : Store where
  people := .ofList [(1, { name := "Анна" }), (2, { name := "Борис" })]
  planVersions := .ofList [(5, { projectId := 3, status := .committed, createdBy := none, payload :=
    { assignments := [⟨4, 1, Date.ofYmd 2026 5 25, Date.ofYmd 2026 6 1, days.map fun d => ⟨1, d, 8⟩⟩]
      risks := [], endDate := none } })]

theorem annaWorked_differ : DifferInPast (Date.ofYmd 2026 6 1) (annaWorked [Date.ofYmd 2026 6 1])
    (annaWorked [Date.ofYmd 2026 5 29, Date.ofYmd 2026 6 1]) := by
  refine ⟨rfl, ?_⟩
  have hsame : (annaWorked [Date.ofYmd 2026 5 29, Date.ofYmd 2026 6 1]).committedLoad.filter
      (fun a => Date.ofYmd 2026 6 1 ≤ a.day) = (annaWorked [Date.ofYmd 2026 6 1]).committedLoad.filter
        fun a => Date.ofYmd 2026 6 1 ≤ a.day := by decide +kernel
  rw [hsame]

theorem past_load_shown_iff_anna : SameLoadShown .plain {} (annaWorked [Date.ofYmd 2026 6 1])
      (annaWorked [Date.ofYmd 2026 5 29, Date.ofYmd 2026 6 1]) ↔
    ∀ p ∈ (annaWorked [Date.ofYmd 2026 6 1]).solverPeople,
      (annaWorked [Date.ofYmd 2026 5 29, Date.ofYmd 2026 6 1]).pastHours (Date.ofYmd 2026 6 1) p.id =
        (annaWorked [Date.ofYmd 2026 6 1]).pastHours (Date.ofYmd 2026 6 1) p.id :=
  past_load_shown_iff .plain {} (Date.ofYmd 2026 6 1) _ _ annaWorked_differ

/-- Last Friday counts as a second day of the window, and puts Anna last. -/
theorem past_day_counted : DifferInPast (Date.ofYmd 2026 6 1) (annaWorked []) (annaWorked [Date.ofYmd 2026 5 29]) ∧
    ((annaWorked []).assigneeSuggestions .plain {} []).map AssigneeSuggestion.name = ["Анна", "Борис"] ∧
    ((annaWorked [Date.ofYmd 2026 5 29]).assigneeSuggestions .plain {} []).map AssigneeSuggestion.name =
      ["Борис", "Анна"] ∧
    (annaWorked [Date.ofYmd 2026 5 29]).teamLoad .plain none ≠ (annaWorked []).teamLoad .plain none := by
  refine ⟨⟨rfl, ?_⟩, by decide +kernel, by decide +kernel, by decide +kernel⟩
  have hsame : (annaWorked [Date.ofYmd 2026 5 29]).committedLoad.filter (fun a => Date.ofYmd 2026 6 1 ≤ a.day) =
      (annaWorked []).committedLoad.filter fun a => Date.ofYmd 2026 6 1 ≤ a.day := by decide +kernel
  rw [hsame]

end Planner
