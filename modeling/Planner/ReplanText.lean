import Mathlib.Data.String.Basic
import Planner.CleanReplan
import Planner.OverloadFlags
import Planner.VacationDays

/-! The text of a replan: one line for every overloaded day of a person, with the
projects the person works on that day, or that all is clear. -/

namespace Planner

/-- `strftime("%d.%m.%Y")` -/
def Date.dmy (d : Date) : String :=
  let (year, month, day) := d.toYmd
  Date.pad 2 day ++ "." ++ Date.pad 2 month ++ "." ++ Date.pad 4 year

namespace ReplanText

def whoOf (personNames : OrdDict UUID String) (r : RiskFlag) : String :=
  (r.personId.bind personNames.get?).getD "—"

/-- Comparison of the sort keys: name, then date; `1` is `date.min`. -/
def NotAfter (personNames : OrdDict UUID String) (r r' : RiskFlag) : Prop :=
  whoOf personNames r < whoOf personNames r' ∨
    whoOf personNames r = whoOf personNames r' ∧ r.day.getD 1 ≤ r'.day.getD 1

instance (personNames : OrdDict UUID String) (r r' : RiskFlag) : Decidable (NotAfter personNames r r') :=
  inferInstanceAs (Decidable (_ ∨ _))

/-- A set of titles, sorted. -/
def projectsOn (assignments : List Assignment) (taskProject : OrdDict UUID String) (r : RiskFlag) : List String :=
  (assignments.flatMap fun a =>
    (a.allocations.filter fun al => decide (some al.personId = r.personId ∧ some al.day = r.day)).map
      fun _ => taskProject.getD a.taskId "проект").dedup.insertionSort (· ≤ ·)

def overloadLine (personNames : OrdDict UUID String) (assignments : List Assignment)
    (taskProject : OrdDict UUID String) (r : RiskFlag) : String :=
  let when := match r.day with
    | some d => d.dmy
    | none => "—"
  let projects := projectsOn assignments taskProject r
  let proj := if projects = [] then "—" else ", ".intercalate projects
  "• " ++ whoOf personNames r ++ " — " ++ when ++ ", проекты: " ++ proj

def allClear : String :=
  "🔄 Пересчитал план по текущим данным.\n✅ Всё помещается — перегрузок нет.\n\nЭто предпросмотр, план не менялся."

def heading : List String :=
  ["🔄 Пересчитал план по текущим данным.", "",
    "⚠️ Перегрузки — в эти дни у человека больше работы, чем влезает в день:"]

def closing : List String :=
  ["", "Это предпросмотр — план НЕ изменён. Чтобы применить новое расписание, внеси правки через /task."]

/-- `_format_summary` -/
def formatSummary (overloads : List RiskFlag) (personNames : OrdDict UUID String) (assignments : List Assignment)
    (taskProject : OrdDict UUID String) : String :=
  if overloads = [] then allClear
  else "\n".intercalate (heading ++ (overloads.insertionSort (NotAfter personNames)).map
    (overloadLine personNames assignments taskProject) ++ closing)

end ReplanText

/-- The title of the project of every task, where the join has one. -/
def Store.taskProjectMap (s : Store) : OrdDict UUID String :=
  OrdDict.ofList (s.tasks.entries.filterMap fun e => (s.projects.get? e.2.projectId).map fun p => (e.1, p.title))

def Repo.getTaskProjectMap : UseCase (OrdDict UUID String) := .read Store.taskProjectMap

/-- `build_replan_summary`, up to the text it answers. -/
def buildReplanText (solver : GreedySolver) (today : Date) : UseCase String := do
  match ← reconstructRequest today with
  | none => pure "Нечего пересчитывать — нет зафиксированных планов."
  | some request =>
    match solver.plan request with
    | .error e => .raise (.solver e)
    | .ok result =>
      let personNames := OrdDict.ofList (request.people.map fun p => (p.id, p.name))
      let taskProject ← Repo.getTaskProjectMap
      pure (ReplanText.formatSummary result.overloads personNames result.assignments taskProject)

/-- The line of a day, nothing left out. -/
def ReplanText.dayLine (who : String) (day : Date) (projects : List String) : String :=
  "• " ++ who ++ " — " ++ day.dmy ++ ", проекты: " ++ ", ".intercalate projects

/-- A line for each of the days, or that all is clear. -/
def ReplanText.summaryText (days : List (UUID × Date)) (name : UUID → String) (projects : UUID × Date → List String) :
    String :=
  if days = [] then allClear
  else "\n".intercalate (heading ++ days.map (fun b => dayLine (name b.1) b.2 (projects b)) ++ closing)

/-- On the day, hours of a task of the project are the person's. -/
def Store.WorksOn (s : Store) (plan : PlanResult) (b : UUID × Date) (title : String) : Prop :=
  ∃ a ∈ plan.assignments, (∃ al ∈ a.allocations, al.personId = b.1 ∧ al.day = b.2) ∧
    ∃ row project, s.tasks.get? a.taskId = some row ∧ s.projects.get? row.projectId = some project ∧
      project.title = title

/-- What the lines of a summary say of the plan. -/
structure Store.Summarizes (s : Store) (cal : WorkingCalendar) (plan : PlanResult) (days : List (UUID × Date))
    (name : UUID → String) (projects : UUID × Date → List String) : Prop where
  nodup : days.Nodup
  overloaded : ∀ b, b ∈ days ↔ s.ceiling cal b < hoursOn (plan.assignments.flatMap Assignment.allocations) b.1 b.2
  sorted : days.Pairwise fun b c => name b.1 < name c.1 ∨ name b.1 = name c.1 ∧ b.2 ≤ c.2
  named : ∀ b ∈ days, ∃ row, s.people.get? b.1 = some row ∧ row.name = name b.1
  busy : ∀ b ∈ days, projects b ≠ []
  projects_sorted : ∀ b ∈ days, (projects b).Pairwise (· < ·)
  projects_iff : ∀ b ∈ days, ∀ title, title ∈ projects b ↔ s.WorksOn plan b title

section Capacities

/-- Nobody has less than no hours on a day. -/
structure Store.Capable (s : Store) : Prop where
  people : ∀ p ∈ s.people.values, 0 ≤ p.capacityH
  overrides : ∀ o ∈ s.dayOverrides.values, 0 ≤ o.capacityH

variable {s : Store}

theorem Store.Capable.of_eq {s' : Store} (h : s.Capable) (hpeople : s'.people = s.people)
    (hoverrides : s'.dayOverrides = s.dayOverrides) : s'.Capable :=
  ⟨hpeople ▸ h.people, hoverrides ▸ h.overrides⟩

theorem upsertDays_capable (personId : UUID) {capacityH : Int} (hcap : 0 ≤ capacityH) (n : Nat) (day : Date) :
    (upsertDays personId capacityH n day).Keeps Store.Capable := by
  induction n generalizing day with
  | zero => exact Program.Keeps.pure _
  | succ n ih =>
    have hone : (Repo.upsertDayOverride personId day capacityH (some "vacation")).Keeps Store.Capable := by
      refine Program.Keeps.guarded fun s _ h => ⟨h.people, fun o ho => ?_⟩
      rcases OrdDict.mem_values_insert ho with rfl | ho
      · exact hcap
      · exact h.overrides o ho
    exact hone.bind fun _ => ih (day + 1)

theorem setVacation_capable (intent : VacationIntent) (actorId : Option UUID) (isAdmin : Bool) :
    (setVacation intent actorId isAdmin).Keeps Store.Capable := by
  unfold setVacation
  split
  · exact Program.Keeps.raise _
  · refine Program.Keeps.ofExcept_bind fun _ hvalid => (Program.Keeps.read _).bind fun found => ?_
    cases found with
    | none => exact Program.Keeps.raise _
    | some person =>
      have hcap : 0 ≤ intent.capacityH := (validVacation_ok_iff.mp hvalid).2.2.1
      have haudit : ∀ action entityType entityId payload,
          (Repo.addAudit actorId action entityType entityId payload).Keeps Store.Capable :=
        fun _ _ _ _ => Program.Keeps.guarded fun _ _ h => h.of_eq rfl rfl
      refine (upsertDays_capable person.id hcap _ _).bind fun _ => ?_
      exact (haudit _ _ _ _).bind fun _ => Program.Keeps.pure _

theorem Act.perform_dayOverrides (act : Act)
    (hother : ∀ intent actorId isAdmin, act ≠ .setVacation intent actorId isAdmin) :
    (act.perform s).dayOverrides = s.dayOverrides := by
  have h := act.effect s
  generalize act.perform s = s' at h
  cases h with
  | idle => rfl
  | abandoned h =>
    obtain ⟨n, rfl | ⟨row, -, -, rfl⟩⟩ := h
    · rfl
    · rfl
  | proposed h => exact h.dayOverrides
  | confirmed _ h => exact h.dayOverrides
  | marked => rfl
  | vacated => exact absurd rfl (hother _ _ _)
  | reassigned => exact Store.dayOverrides_editInPlan _ _
  | rescheduled => exact Store.dayOverrides_editInPlan _ _

theorem Store.Capable.perform (h : s.Capable) (act : Act) : (act.perform s).Capable := by
  by_cases hvacation : ∃ intent actorId isAdmin, act = .setVacation intent actorId isAdmin
  · obtain ⟨intent, actorId, isAdmin, rfl⟩ := hvacation
    exact (setVacation_capable intent actorId isAdmin).run h
  · refine h.of_eq (Act.perform_people act) (act.perform_dayOverrides fun intent actorId isAdmin he => ?_)
    exact hvacation ⟨intent, actorId, isAdmin, he⟩

theorem Store.Capable.after (h : s.Capable) (acts : List Act) : (s.after acts).Capable :=
  Trace.after_keeps _ (fun _ act h => h.perform act) h acts

end Capacities

namespace ReplanText

section Order

variable (personNames : OrdDict UUID String)

instance : Std.Total (NotAfter personNames) := by
  refine ⟨fun a b => ?_⟩
  unfold NotAfter
  rcases lt_trichotomy (whoOf personNames a) (whoOf personNames b) with h | h | h
  · exact Or.inl (Or.inl h)
  · rcases le_total (a.day.getD 1) (b.day.getD 1) with hd | hd
    · exact Or.inl (Or.inr ⟨h, hd⟩)
    · exact Or.inr (Or.inr ⟨h.symm, hd⟩)
  · exact Or.inr (Or.inl h)

instance : IsTrans RiskFlag (NotAfter personNames) := by
  refine ⟨fun a b c hab hbc => ?_⟩
  unfold NotAfter at hab hbc ⊢
  rcases hab with hab | ⟨hab, hd⟩
  · rcases hbc with hbc | ⟨hbc, -⟩
    · exact Or.inl (hab.trans hbc)
    · exact Or.inl (hbc ▸ hab)
  · rcases hbc with hbc | ⟨hbc, hd'⟩
    · exact Or.inl (hab ▸ hbc)
    · exact Or.inr ⟨hab.trans hbc, hd.trans hd'⟩

end Order

section Projects

variable {assignments : List Assignment} {taskProject : OrdDict UUID String} {r : RiskFlag} {p : UUID} {d : Date}

theorem mem_projectsOn (hlists : r.ListsOverload p d) (title : String) :
    title ∈ projectsOn assignments taskProject r ↔ ∃ a ∈ assignments,
      (∃ al ∈ a.allocations, al.personId = p ∧ al.day = d) ∧ taskProject.getD a.taskId "проект" = title := by
  simp only [projectsOn, List.mem_insertionSort, List.mem_dedup, List.mem_flatMap, List.mem_map, List.mem_filter,
    decide_eq_true_eq, hlists.2.1, hlists.2.2, Option.some.injEq]
  constructor
  · rintro ⟨a, ha, al, ⟨hal, hon⟩, htitle⟩
    exact ⟨a, ha, ⟨al, hal, hon⟩, htitle⟩
  · rintro ⟨a, ha, ⟨al, hal, hon⟩, htitle⟩
    exact ⟨a, ha, al, ⟨hal, hon⟩, htitle⟩

theorem projectsOn_sorted (r : RiskFlag) : (projectsOn assignments taskProject r).Pairwise (· < ·) := by
  have hsorted := List.pairwise_insertionSort (· ≤ · : String → String → Prop) (assignments.flatMap fun a =>
    (a.allocations.filter fun al => decide (some al.personId = r.personId ∧ some al.day = r.day)).map
      fun _ => taskProject.getD a.taskId "проект").dedup
  have hnodup : (projectsOn assignments taskProject r).Nodup :=
    (List.perm_insertionSort _ _).nodup_iff.mpr (List.nodup_dedup _)
  exact (hsorted.and hnodup).imp fun h => lt_of_le_of_ne h.1 h.2

end Projects

section Lines

variable {personNames taskProject : OrdDict UUID String} {assignments : List Assignment} {overloads : List RiskFlag}
  {r : RiskFlag}

/-- The person and the day of a flag that has both. -/
def flagDay (r : RiskFlag) : UUID × Date := (r.personId.getD 0, r.day.getD 1)

/-- The days of the lines, in their order. -/
def lineDays (personNames : OrdDict UUID String) (overloads : List RiskFlag) : List (UUID × Date) :=
  (overloads.insertionSort (NotAfter personNames)).map flagDay

def nameOf (personNames : OrdDict UUID String) (p : UUID) : String := (personNames.get? p).getD "—"

def dayProjects (assignments : List Assignment) (taskProject : OrdDict UUID String) (b : UUID × Date) : List String :=
  projectsOn assignments taskProject ⟨.overload, "", none, some b.1, some b.2⟩

theorem flagDay_eq {p : UUID} {d : Date} (hr : r.ListsOverload p d) : flagDay r = (p, d) := by
  simp only [flagDay, hr.2.1, hr.2.2, Option.getD_some]

theorem mem_dayProjects {b : UUID × Date} (title : String) : title ∈ dayProjects assignments taskProject b ↔
    ∃ a ∈ assignments, (∃ al ∈ a.allocations, al.personId = b.1 ∧ al.day = b.2) ∧
      taskProject.getD a.taskId "проект" = title := by
  have hlists : RiskFlag.ListsOverload ⟨.overload, "", none, some b.1, some b.2⟩ b.1 b.2 := ⟨rfl, rfl, rfl⟩
  exact mem_projectsOn hlists title

theorem mem_flagDays (hlists : ∀ r ∈ overloads, ∃ p d, r.ListsOverload p d) {b : UUID × Date} :
    b ∈ overloads.map flagDay ↔ ∃ r ∈ overloads, r.ListsOverload b.1 b.2 := by
  rw [List.mem_map]
  constructor
  · rintro ⟨r, hr, rfl⟩
    obtain ⟨p, d, hpd⟩ := hlists r hr
    rw [flagDay_eq hpd]
    exact ⟨r, hr, hpd⟩
  · rintro ⟨r, hr, hpd⟩
    exact ⟨r, hr, flagDay_eq hpd⟩

theorem nodup_flagDays (hlists : ∀ r ∈ overloads, ∃ p d, r.ListsOverload p d)
    (hnodup : (overloads.map fun r => (r.personId, r.day)).Nodup) : (overloads.map flagDay).Nodup := by
  have hkeys : (overloads.map fun r => (r.personId, r.day)) =
      (overloads.map flagDay).map fun b => (some b.1, some b.2) := by
    rw [List.map_map]
    refine List.map_congr_left fun r hr => ?_
    obtain ⟨p, d, hpd⟩ := hlists r hr
    rw [Function.comp_apply, flagDay_eq hpd, hpd.2.1, hpd.2.2]
  rw [hkeys] at hnodup
  exact hnodup.of_map

theorem lineDays_perm (personNames : OrdDict UUID String) (overloads : List RiskFlag) :
    (lineDays personNames overloads).Perm (overloads.map flagDay) :=
  (List.perm_insertionSort _ _).map _

theorem mem_lineDays (hlists : ∀ r ∈ overloads, ∃ p d, r.ListsOverload p d) {b : UUID × Date} :
    b ∈ lineDays personNames overloads ↔ ∃ r ∈ overloads, r.ListsOverload b.1 b.2 := by
  rw [(lineDays_perm personNames overloads).mem_iff]
  exact mem_flagDays hlists

theorem lineDays_sorted (hlists : ∀ r ∈ overloads, ∃ p d, r.ListsOverload p d) :
    (lineDays personNames overloads).Pairwise fun b c =>
      nameOf personNames b.1 < nameOf personNames c.1 ∨ nameOf personNames b.1 = nameOf personNames c.1 ∧ b.2 ≤ c.2 := by
  rw [lineDays, List.pairwise_map]
  refine (List.pairwise_insertionSort (NotAfter personNames) overloads).imp_of_mem fun {r r'} hr hr' h => ?_
  obtain ⟨p, d, hpd⟩ := hlists r ((List.mem_insertionSort _).mp hr)
  obtain ⟨p', d', hpd'⟩ := hlists r' ((List.mem_insertionSort _).mp hr')
  rw [flagDay_eq hpd, flagDay_eq hpd']
  simpa only [NotAfter, whoOf, nameOf, hpd.2.1, hpd.2.2, hpd'.2.1, hpd'.2.2, Option.bind_some, Option.getD_some] using h

theorem overloadLine_eq {p : UUID} {d : Date} (hr : r.ListsOverload p d)
    (hbusy : dayProjects assignments taskProject (p, d) ≠ []) :
    overloadLine personNames assignments taskProject r =
      dayLine (nameOf personNames p) d (dayProjects assignments taskProject (p, d)) := by
  have hsame : projectsOn assignments taskProject r = dayProjects assignments taskProject (p, d) := by
    simp only [dayProjects, projectsOn, hr.2.1, hr.2.2]
  have hwho : whoOf personNames r = nameOf personNames p := by
    rw [whoOf, hr.2.1]
    rfl
  simp only [overloadLine, dayLine, hwho, hsame, if_neg hbusy, hr.2.2]

/-- Where every flag has its day and every day its projects, no dash is shown. -/
theorem formatSummary_eq (hlists : ∀ r ∈ overloads, ∃ p d, r.ListsOverload p d)
    (hbusy : ∀ b ∈ lineDays personNames overloads, dayProjects assignments taskProject b ≠ []) :
    formatSummary overloads personNames assignments taskProject =
      summaryText (lineDays personNames overloads) (nameOf personNames) (dayProjects assignments taskProject) := by
  have hnil : lineDays personNames overloads = [] ↔ overloads = [] := by
    rw [lineDays, List.map_eq_nil_iff]
    exact ⟨fun h => List.perm_nil.mp (h ▸ (List.perm_insertionSort _ _).symm),
      fun h => List.perm_nil.mp (h ▸ List.perm_insertionSort _ _)⟩
  have hlines : (overloads.insertionSort (NotAfter personNames)).map (overloadLine personNames assignments taskProject) =
      (lineDays personNames overloads).map fun b =>
        dayLine (nameOf personNames b.1) b.2 (dayProjects assignments taskProject b) := by
    rw [lineDays, List.map_map]
    refine List.map_congr_left fun r hr => ?_
    have hne := hbusy (flagDay r) (List.mem_map_of_mem hr)
    obtain ⟨p, d, hpd⟩ := hlists r ((List.mem_insertionSort _).mp hr)
    rw [flagDay_eq hpd] at hne
    rw [Function.comp_apply, flagDay_eq hpd]
    exact overloadLine_eq hpd hne
  rw [formatSummary, summaryText, ← hlines]
  by_cases hclear : overloads = []
  · rw [if_pos hclear, if_pos (hnil.mpr hclear)]
  · rw [if_neg hclear, if_neg (mt hnil.mp hclear)]

end Lines

end ReplanText

section Names

variable {s : Store}

/-- Every task has a project, and its title is found. -/
theorem Store.taskProjectMap_getD (hs : s.WF) {tid : UUID} (htid : tid ∈ s.tasks.keys) (title : String) :
    s.taskProjectMap.getD tid "проект" = title ↔ ∃ row project, s.tasks.get? tid = some row ∧
      s.projects.get? row.projectId = some project ∧ project.title = title := by
  obtain ⟨row, hrow⟩ := Option.isSome_iff_exists.mp (OrdDict.mem_keys.mp htid)
  obtain ⟨project, hproject⟩ := Option.isSome_iff_exists.mp
    (OrdDict.mem_keys.mp (hs.task_project row (OrdDict.mem_values.mpr ⟨tid, hrow⟩)))
  have hpair : (tid, project.title) ∈ s.tasks.entries.filterMap fun e =>
      (s.projects.get? e.2.projectId).map fun p => (e.1, p.title) := by
    refine List.mem_filterMap.mpr ⟨(tid, row), OrdDict.get?_eq_some_iff.mp hrow, ?_⟩
    simp only [hproject, Option.map_some]
  have hget : s.taskProjectMap.getD tid "проект" = project.title := by
    obtain ⟨v, hv⟩ := Option.isSome_iff_exists.mp
      (OrdDict.mem_keys.mp (OrdDict.mem_keys_ofList.mpr (List.mem_map_of_mem hpair)))
    obtain ⟨e, he, hjoin⟩ := List.mem_filterMap.mp (OrdDict.mem_of_get?_ofList hv)
    obtain ⟨q, hq, hboth⟩ := Option.map_eq_some_iff.mp hjoin
    obtain ⟨rfl, rfl⟩ := Prod.mk.inj hboth
    have hsame : s.tasks.get? e.1 = some e.2 := OrdDict.get?_eq_some_iff.mpr he
    obtain rfl := Option.some.inj (hrow.symm.trans hsame)
    obtain rfl := Option.some.inj (hproject.symm.trans hq)
    rw [OrdDict.getD, Store.taskProjectMap, hv, Option.getD_some]
  rw [hget]
  constructor
  · exact fun h => ⟨row, project, hrow, hproject, h⟩
  · rintro ⟨row', project', hrow', hproject', htitle⟩
    obtain rfl := Option.some.inj (hrow.symm.trans hrow')
    obtain rfl := Option.some.inj (hproject.symm.trans hproject')
    exact htitle

/-- A pool member's name is that of the row. -/
theorem Store.solverPeople_name {p : UUID} (hp : p ∈ s.solverPeople.map Person.id) : ∃ row,
    s.people.get? p = some row ∧ (OrdDict.ofList (s.solverPeople.map fun q => (q.id, q.name))).get? p = some row.name := by
  have hkey : p ∈ (OrdDict.ofList (s.solverPeople.map fun q => (q.id, q.name))).keys := by
    rw [OrdDict.mem_keys_ofList, List.map_map]
    exact hp
  obtain ⟨name, hname⟩ := Option.isSome_iff_exists.mp (OrdDict.mem_keys.mp hkey)
  obtain ⟨q, hq, hboth⟩ := List.mem_map.mp (OrdDict.mem_of_get?_ofList hname)
  obtain ⟨rfl, rfl⟩ := Prod.mk.inj hboth
  obtain ⟨e, he, rfl⟩ := List.mem_map.mp hq
  have hentry : e ∈ s.people.entries := (List.mem_insertionSort _).mp (List.mem_of_mem_filter he)
  exact ⟨e.2, OrdDict.get?_eq_some_iff.mpr hentry, hname⟩

end Names

section Plan

variable {s : Store} {solver : GreedySolver} {today : Date} {req : PlanRequest} {plan : PlanResult} {a : Assignment}

theorem replanned_person (hs : s.Grown) (hreq : s.replanRequest today = some req) (hplan : solver.plan req = .ok plan)
    (ha : a ∈ plan.assignments) {al : DayAllocation} (hal : al ∈ a.allocations) :
    al.personId ∈ s.solverPeople.map Person.id := by
  have hplain := hs.replan_plain hreq
  obtain ⟨t, ht, _, _, person, p, -, hplaced, rfl⟩ := placed_of_plan hplain.unpinned hplan ha
  rw [hplaced.plain (hplain.plain t ht)] at hal
  obtain rfl := List.mem_singleton.mp hal
  have hmem := List.mem_map_of_mem (f := Person.id) (allowedPeople_subset hplaced.person_mem)
  obtain ⟨-, rfl⟩ := Store.replanRequest_some hreq
  exact hmem

theorem replanned_taskId (hs : s.Grown) (hreq : s.replanRequest today = some req) (hplan : solver.plan req = .ok plan)
    (ha : a ∈ plan.assignments) : a.taskId ∈ s.tasks.keys := by
  have hmem := (plan_taskIds hplan).2 a ha
  obtain ⟨-, rfl⟩ := Store.replanRequest_some hreq
  rw [List.map_map] at hmem
  obtain ⟨b, hb, hid⟩ := List.mem_map.mp hmem
  have hplanned := hs.wf.planned_task b (s.committedAssignments_sublist.subset (List.mem_of_mem_filter hb))
  exact hid ▸ hplanned

theorem Store.Capable.solverPeople (hcapable : s.Capable) : ∀ q ∈ s.solverPeople, 0 ≤ q.capacityH := by
  intro q hq
  obtain ⟨e, he, rfl⟩ := List.mem_map.mp hq
  have hentry : e ∈ s.people.entries := (List.mem_insertionSort _).mp (List.mem_of_mem_filter he)
  exact hcapable.people e.2 (List.mem_map_of_mem hentry)

theorem Store.Capable.ceiling_nonneg (hcapable : s.Capable) (cal : WorkingCalendar) (b : UUID × Date) :
    0 ≤ s.ceiling cal b := by
  refine capacityOn_nonneg hcapable.solverPeople (fun o ho => ?_) b.1 b.2
  obtain ⟨e, he, rfl⟩ := List.mem_map.mp ho
  exact hcapable.overrides e.2 (List.mem_map_of_mem he)

/-- Where a day is overloaded there are hours on it. -/
theorem exists_allocation {allocs : List DayAllocation} {p : UUID} {d : Date} {c : Int} (hc : 0 ≤ c)
    (h : c < hoursOn allocs p d) : ∃ al ∈ allocs, al.personId = p ∧ al.day = d := by
  by_contra hnone
  have hzero : hoursOn allocs p d = 0 := hoursOn_eq_zero fun al hal hon => hnone ⟨al, hal, hon⟩
  omega

/-- Where a day is overloaded somebody's task has hours. -/
theorem exists_booked {b : UUID × Date} {c : Int} (hc : 0 ≤ c)
    (h : c < hoursOn (plan.assignments.flatMap Assignment.allocations) b.1 b.2) :
    ∃ a ∈ plan.assignments, ∃ al ∈ a.allocations, al.personId = b.1 ∧ al.day = b.2 := by
  obtain ⟨al, hal, hon⟩ := exists_allocation hc h
  obtain ⟨a, ha, hal⟩ := List.mem_flatMap.mp hal
  exact ⟨a, ha, al, hal, hon⟩

/-- The flags of a plan come from an index of all its hours: one for every overloaded day. -/
theorem plan_overloads (hids : ((req.tasks.filter fun t => t.pinned?.isSome).map Task.id).Nodup)
    (hceiling : ∀ p d, 0 ≤ capacityOn req.people solver.calendar req.dayOverrides p d)
    (hplan : solver.plan req = .ok plan) : ∃ idx : CapacityIndex, plan.overloads = overloadFlags idx ∧
      idx.baseCapacity = capacityOn req.people solver.calendar req.dayOverrides ∧
      (∀ p d, idx.usedOn p d = hoursOn (req.existingAllocations ++ plan.assignments.flatMap Assignment.allocations) p d) ∧
      ∀ p d, (∃ r ∈ overloadFlags idx, r.ListsOverload p d) ↔ capacityOn req.people solver.calendar req.dayOverrides p d <
        hoursOn (req.existingAllocations ++ plan.assignments.flatMap Assignment.allocations) p d := by
  obtain ⟨order, st, rfl, hbase, hused, hkeyed⟩ := plan_usedOn hids hplan
  refine ⟨st.idx, overloads_planResult, hbase, hused, fun p d => ?_⟩
  rw [exists_overloadFlag, hbase, hused]
  refine and_iff_right_of_imp fun hover => ?_
  obtain ⟨al, hal, rfl, rfl⟩ := exists_allocation (hceiling p d) hover
  exact hkeyed al hal

/-- The flags of a replan: one for every overloaded day, and only for these. -/
theorem replan_overloads (hs : s.Grown) (hceiling : ∀ b, 0 ≤ s.ceiling solver.calendar b)
    (hreq : s.replanRequest today = some req) (hplan : solver.plan req = .ok plan) :
    (plan.overloads.map fun r => (r.personId, r.day)).Nodup ∧
      (∀ r ∈ plan.overloads, ∃ p d, r.ListsOverload p d) ∧
      ∀ b : UUID × Date, (∃ r ∈ plan.overloads, r.ListsOverload b.1 b.2) ↔
        s.ceiling solver.calendar b < hoursOn (plan.assignments.flatMap Assignment.allocations) b.1 b.2 := by
  have hids := nodup_pinned_ids (hs.replan_plain hreq).ids
  obtain ⟨-, rfl⟩ := Store.replanRequest_some hreq
  obtain ⟨idx, hflags, -, -, hexact⟩ := plan_overloads hids (fun p d => hceiling (p, d)) hplan
  rw [hflags]
  exact ⟨nodup_overloadFlags idx, fun r hr => listsOverload_of_mem hr, fun b => hexact b.1 b.2⟩

end Plan

open ReplanText

/-- The summary after any run of requests: every overloaded day of a person has one
line, by name and then by date, with the name of the person and all projects whose tasks
the plan puts there; there is always one, and neither a name nor a project is missing. -/
theorem replan_text (solver : GreedySolver) (today : Date) (s₀ : Store) (hs : s₀.WF)
    (hempty : s₀.planVersions = .empty) (hcapable : s₀.Capable) (acts : List Act) (plan : PlanResult)
    (hplan : (buildReplanSummary solver today).run (s₀.after acts) = (.ok (some plan), s₀.after acts)) :
    ∃ days name projects,
      (buildReplanText solver today).run (s₀.after acts) = (.ok (summaryText days name projects), s₀.after acts) ∧
      (s₀.after acts).Summarizes solver.calendar plan days name projects := by
  have hgrown := Store.grown_after hs hempty acts
  have hceiling := (hcapable.after acts).ceiling_nonneg solver.calendar
  generalize s₀.after acts = s at *
  obtain ⟨req, hreq, hrun⟩ := buildReplanSummary_planned hplan
  obtain ⟨hnodup, hlists, hexact⟩ := replan_overloads hgrown hceiling hreq hrun
  have hpeople : req.people = s.solverPeople := by
    obtain ⟨-, rfl⟩ := Store.replanRequest_some hreq
    rfl
  let names := OrdDict.ofList (s.solverPeople.map fun q => (q.id, q.name))
  have hdays : ∀ b, b ∈ lineDays names plan.overloads ↔ s.ceiling solver.calendar b <
      hoursOn (plan.assignments.flatMap Assignment.allocations) b.1 b.2 :=
    fun b => (mem_lineDays hlists).trans (hexact b)
  have hprojects : ∀ (b : UUID × Date) title, title ∈ dayProjects plan.assignments s.taskProjectMap b ↔
      s.WorksOn plan b title := by
    intro b title
    rw [mem_dayProjects]
    refine exists_congr fun a => and_congr_right fun ha => and_congr_right fun _ => ?_
    exact Store.taskProjectMap_getD hgrown.wf (replanned_taskId hgrown hreq hrun ha) title
  have hbusy : ∀ b ∈ lineDays names plan.overloads, dayProjects plan.assignments s.taskProjectMap b ≠ [] := by
    intro b hb
    obtain ⟨a, ha, hal⟩ := exists_booked (hceiling b) ((hdays b).mp hb)
    exact List.ne_nil_of_mem ((mem_dayProjects _).mpr ⟨a, ha, hal, rfl⟩)
  have hnamed : ∀ b ∈ lineDays names plan.overloads, ∃ row, s.people.get? b.1 = some row ∧ row.name = nameOf names b.1 := by
    intro b hb
    obtain ⟨a, ha, al, hal, hperson, -⟩ := exists_booked (hceiling b) ((hdays b).mp hb)
    obtain ⟨row, hrow, hname⟩ := Store.solverPeople_name (replanned_person hgrown hreq hrun ha hal)
    rw [hperson] at hrow hname
    refine ⟨row, hrow, ?_⟩
    rw [nameOf, hname, Option.getD_some]
  refine ⟨lineDays names plan.overloads, nameOf names, dayProjects plan.assignments s.taskProjectMap, ?_, ?_⟩
  · rw [← formatSummary_eq hlists hbusy, buildReplanText, Program.run_bind, reconstructRequest_run, hreq]
    simp only [hrun, Repo.getTaskProjectMap, Program.run_bind, Program.run_read, Program.run_pure, hpeople]
    rfl
  · exact ⟨(lineDays_perm names _).nodup_iff.mpr (nodup_flagDays hlists hnodup), hdays, lineDays_sorted hlists, hnamed, hbusy,
      fun b _ => projectsOn_sorted _, fun b _ title => hprojects b title⟩

/-- A shooting of two days is committed, and replanned on one. -/
theorem replan_text_long : ∃ plan days name projects,
    (buildReplanText .onWeekdays 1).run (longStore.after (reassignLong.take 2)) =
      (.ok (summaryText days name projects), longStore.after (reassignLong.take 2)) ∧
    (longStore.after (reassignLong.take 2)).Summarizes GreedySolver.onWeekdays.calendar plan days name projects := by
  have hwf : longStore.WF := by constructor <;> decide
  obtain ⟨req, hreq⟩ : ∃ req, (longStore.after (reassignLong.take 2)).replanRequest 1 = some req := ⟨_, rfl⟩
  obtain ⟨plan, hplan⟩ := plain_plan_ok .onWeekdays ((Store.grown_after hwf rfl (reassignLong.take 2)).replan_plain hreq)
  obtain ⟨days, name, projects, hrun, hsummary⟩ := replan_text .onWeekdays 1 longStore hwf rfl
    (by constructor <;> decide) (reassignLong.take 2) plan (buildReplanSummary_of_plan hreq hplan)
  exact ⟨plan, days, name, projects, hrun, hsummary⟩

end Planner
