import Planner.AssignmentHours
import Planner.Patterns
import Planner.ReplanRequest

/-! The hours of the team as `/load` draws them. They are those of the plans that a run
has confirmed, each counted once, with every task under whoever had it last. -/

namespace Planner

/-- What the heatmap is rendered from. -/
structure LoadImage where
  labels : List String
  days : List Date
  matrix : List (List Int)
  capacity : Int
  deriving DecidableEq, Repr

namespace LoadSummary

def defaultDays : Nat := 14

def addUsed (index : OrdDict Date Nat) (used : OrdDict (UUID × Nat) Int) (a : DayAllocation) : OrdDict (UUID × Nat) Int :=
  match index.get? a.day with
  | some i => used.insert (a.personId, i) (used.getD (a.personId, i) 0 + a.hours)
  | none => used

/-- `LoadSummaryUseCase.execute`, up to the rendering. -/
def execute (people : List Person) (allocations : List DayAllocation) (start : Date) (days : Nat) : LoadImage :=
  let dayList := (List.range days).map fun i => start + i
  let index := OrdDict.ofList dayList.zipIdx
  let used := allocations.foldl (addUsed index) .empty
  { labels := people.map Person.name
    days := dayList
    matrix := people.map fun p => (List.range days).map fun j => used.getD (p.id, j) 0
    capacity := (people.head?.map Person.capacityH).getD 8 }

end LoadSummary

/-- The people of the picture: those of the name, or the team if there are none. -/
def shownPeople (U : CharTables) (people : List Person) (personName : Option String) : List Person :=
  match personName with
  | none => people
  | some name =>
    if name = "" then people
    else
      let matched := people.filter fun p => U.casefold p.name.toList = U.casefold name.toList
      if matched = [] then people else matched

def buildLoadImage (U : CharTables) (start : Date) (days : Nat) (personName : Option String) : UseCase (Option LoadImage) := do
  let people ← Repo.getSolverPeople
  if people = [] then pure none
  else
    let payloads ← Repo.listCommittedPlans
    pure (some (LoadSummary.execute (shownPeople U people personName) (payloads.flatMap deserializeAllocations) start days))

/-- A row for every person with the hours of the days from the start. -/
structure LoadImage.Shows (image : LoadImage) (people : List Person) (start : Date) (n : Nat)
    (load : List DayAllocation) : Prop where
  labels : image.labels = people.map Person.name
  days : image.days = (List.range n).map fun j => start + j
  cells : image.matrix = people.map fun p => (List.range n).map fun j => hoursOn load p.id (start + j)

namespace Act

/-- The assignment after a request that is about its task. -/
def edits (act : Act) (s : Store) (a : Assignment) : Assignment :=
  a.edited (act.assignee? a.taskId s) (act.start? a.taskId s) (act.end? a.taskId s)

/-- The assignments a request puts into the committed plans. -/
def commits (act : Act) (s : Store) : List Assignment :=
  s.planVersions.entries.flatMap fun e =>
    if e.2.status = .proposed ∧ act.confirms e.1 = true then e.2.payload.assignments else []

end Act

namespace Store

/-- The assignment after all requests that are about its task. -/
def editedBy (s : Store) (acts : List Act) (a : Assignment) : Assignment :=
  a.edited (s.lastAssignee a.taskId acts) (s.lastStart a.taskId acts) (s.lastEnd a.taskId acts)

/-- The ledger of a run: what each confirmation has put into the committed plans,
as the requests after it have left it. -/
def ledger (s : Store) : List Act → List Assignment
  | [] => []
  | act :: later => (act.commits s).map ((act.perform s).editedBy later) ++ (act.perform s).ledger later

end Store

section Image

variable {index : OrdDict Date Nat} {p : UUID}

theorem getD_foldl_addUsed {day : Date} {j : Nat} (hindex : ∀ d, index.get? d = some j ↔ d = day)
    (as : List DayAllocation) (used : OrdDict (UUID × Nat) Int) :
    (as.foldl (LoadSummary.addUsed index) used).getD (p, j) 0 = used.getD (p, j) 0 + hoursOn as p day := by
  induction as generalizing used with
  | nil => simp
  | cons a as ih =>
    have hone : (LoadSummary.addUsed index used a).getD (p, j) 0 = used.getD (p, j) 0 +
        if a.personId = p ∧ a.day = day then a.hours else 0 := by
      unfold LoadSummary.addUsed
      cases hday : index.get? a.day with
      | none =>
        have hne : a.day ≠ day := fun he => by
          rw [(hindex a.day).mpr he] at hday
          cases hday
        simp [hne]
      | some i =>
        dsimp only
        rw [OrdDict.getD, OrdDict.get?_insert]
        by_cases hi : i = j
        · subst hi
          have hsame : a.day = day := (hindex a.day).mp hday
          by_cases hp : p = a.personId
          · subst hp
            simp [hsame, OrdDict.getD]
          · have hp' : a.personId ≠ p := fun he => hp he.symm
            simp [hp, hp', OrdDict.getD]
        · have hne : a.day ≠ day := fun he => by
            rw [(hindex a.day).mpr he] at hday
            exact hi (Option.some.inj hday).symm
          have hi' : j ≠ i := fun he => hi he.symm
          simp [hne, hi', OrdDict.getD]
    rw [List.foldl_cons, ih, hone, hoursOn_cons]
    omega

theorem execute_shows (people : List Person) (load : List DayAllocation) (start : Date) (days : Nat) :
    (LoadSummary.execute people load start days).Shows people start days load := by
  refine ⟨rfl, rfl, List.map_congr_left fun p _ => List.map_congr_left fun j hj => ?_⟩
  have hnodup : ((List.range days).map fun i => start + i).Nodup :=
    List.nodup_range.map fun _ _ he => Nat.add_left_cancel he
  have hindex : ∀ d, (OrdDict.ofList ((List.range days).map fun i => start + i).zipIdx).get? d = some j ↔ d = start + j := by
    intro d
    have hday : ((List.range days).map fun i => start + i)[j]? = some (start + j) := by
      rw [List.getElem?_map, List.getElem?_range (List.mem_range.mp hj), Option.map_some]
    constructor
    · intro hget
      have hmem := List.mem_zipIdx_iff_getElem?.mp (OrdDict.mem_of_get?_ofList hget)
      exact Option.some.inj (hmem.symm.trans hday)
    · rintro rfl
      apply OrdDict.get?_ofList_of_mem
      · rwa [List.zipIdx_map_fst]
      · exact List.mem_zipIdx_iff_getElem?.mpr hday
  exact (getD_foldl_addUsed hindex load .empty).trans (Int.zero_add _)

end Image

section Ledger

variable {s : Store}

/-- What an entry adds to the committed assignments. -/
def committedOf (e : UUID × PlanVersionRow) : List Assignment :=
  if e.2.status = .committed then e.2.payload.assignments else []

theorem Store.committedAssignments_eq (s : Store) :
    s.committedAssignments = s.planVersions.entries.flatMap committedOf := by
  rw [committedAssignments, committedPayloads, OrdDict.values, List.flatMap_map, List.filter_map, List.flatMap_map]
  induction s.planVersions.entries with
  | nil => rfl
  | cons e l ih =>
    by_cases hc : e.2.status = .committed
    · simp [committedOf, hc, ← ih]
    · simp [committedOf, hc, ← ih]

theorem Act.perform_keys (act : Act) (hs : s.WF) :
    ∃ new, (act.perform s).planVersions.keys = s.planVersions.keys ++ new := by
  have h := act.effect s
  generalize act.perform s = s' at h
  have hsame : ∀ {t : Store}, t.planVersions.keys = s.planVersions.keys → ∃ new,
      t.planVersions.keys = s.planVersions.keys ++ new := fun he => ⟨[], by rw [he, List.append_nil]⟩
  cases h with
  | idle => exact hsame rfl
  | abandoned h => exact hsame (by rw [h.planVersions])
  | @proposed _ _ _ _ _ _ _ _ _ result _ h =>
    refine ⟨[result.planVersionId], ?_⟩
    rw [h.planVersions, OrdDict.keys_insert_of_not_mem (h.version_new hs)]
  | confirmed _ h => exact hsame (by rw [h.planVersions, OrdDict.keys_modify])
  | marked => exact hsame rfl
  | vacated h =>
    obtain ⟨⟨overrides, audit, rfl⟩, -⟩ := h
    exact hsame rfl
  | reassigned => exact hsame (Store.keys_editInPlan _ _)
  | rescheduled => exact hsame (Store.keys_editInPlan _ _)

/-- The versions after a request: the old ones in their order, and no other is committed. -/
theorem Act.perform_entries (act : Act) (hs : s.WF) : ∃ new,
    (act.perform s).planVersions.entries = s.planVersions.entries.map (fun e => (e.1, { e.2 with
      status := if e.2.status = .proposed ∧ act.confirms e.1 = true then .committed else e.2.status
      payload := if e.2.status = .committed then e.2.payload.edited s act else e.2.payload })) ++ new ∧
    ∀ e ∈ new, committedOf e = [] := by
  obtain ⟨newKeys, hkeys⟩ := act.perform_keys hs
  obtain ⟨old, new, hsplit, hold, hnew⟩ := List.map_eq_append_iff.mp hkeys
  have hget : ∀ e ∈ old ++ new, (act.perform s).planVersions.get? e.1 = some e.2 :=
    fun e he => OrdDict.get?_eq_some_iff.mpr (hsplit ▸ he)
  refine ⟨new, ?_, fun e he => ?_⟩
  · rw [hsplit, List.append_left_inj]
    -- both lists hold the same keys, and what the tables hold under them
    have hinjective : Function.Injective fun e : UUID × PlanVersionRow => (e.1, some e.2) := by
      rintro ⟨v, pv⟩ ⟨w, pw⟩ heq
      obtain ⟨rfl, hpv⟩ := Prod.mk.inj heq
      exact congrArg (Prod.mk v) (Option.some.inj hpv)
    apply List.map_injective_iff.mpr hinjective
    have hleft : old.map (fun e => (e.1, some e.2)) =
        (old.map Prod.fst).map fun v => (v, (act.perform s).planVersions.get? v) := by
      rw [List.map_map]
      exact List.map_congr_left fun e he => by rw [Function.comp_apply, hget e (List.mem_append_left _ he)]
    rw [hleft, hold, OrdDict.keys, List.map_map, List.map_map]
    refine List.map_congr_left fun e he => ?_
    rw [Function.comp_apply, Function.comp_apply, act.perform_version hs (OrdDict.get?_eq_some_iff.mpr he)]
  · have hnone : s.planVersions.get? e.1 = none := by
      have hnodup : (act.perform s).planVersions.keys.Nodup := (act.perform s).planVersions.nodup_keys
      rw [hkeys, List.nodup_append] at hnodup
      have hmem : e.1 ∈ newKeys := hnew ▸ List.mem_map_of_mem he
      exact OrdDict.get?_eq_none_iff.mpr fun hk => hnodup.2.2 _ hk _ hmem rfl
    obtain ⟨_, _, _, _, _, _, _, _, _, -, -, hst, -⟩ :=
      act.perform_new_version hnone (hget e (List.mem_append_right _ he))
    rw [committedOf, if_neg (by simp [hst])]

/-- One request: the committed assignments it is about are edited, and those it confirms added. -/
theorem Act.perform_committedAssignments (act : Act) (hs : s.WF) :
    (act.perform s).committedAssignments.Perm (s.committedAssignments.map (act.edits s) ++ act.commits s) := by
  obtain ⟨new, hentries, hnew⟩ := act.perform_entries hs
  have hnone : new.flatMap committedOf = [] := List.flatMap_eq_nil_iff.mpr hnew
  rw [Store.committedAssignments_eq, hentries, List.flatMap_append, hnone, List.append_nil, List.flatMap_map,
    Store.committedAssignments_eq, List.map_flatMap]
  refine List.Perm.trans (List.Perm.of_eq ?_) (List.flatMap_append_perm _ _ _).symm
  refine List.flatMap_congr fun e _ => ?_
  by_cases hc : e.2.status = .committed
  · simp [committedOf, hc, Payload.edited, Act.edits]
  · by_cases hp : e.2.status = .proposed ∧ act.confirms e.1 = true
    · simp [committedOf, hp]
    · simp [committedOf, hc, hp]

theorem Store.editedBy_cons (act : Act) (later : List Act) (a : Assignment) :
    (act.perform s).editedBy later (act.edits s a) = s.editedBy (act :: later) a := by
  rw [Act.edits, Store.editedBy, Assignment.edited_edited]
  rfl

/-- A run: what was committed at its start, edited since, and its ledger. -/
theorem Store.WF.committed_after (hs : s.WF) (acts : List Act) :
    (s.after acts).committedAssignments.Perm (s.committedAssignments.map (s.editedBy acts) ++ s.ledger acts) := by
  induction acts generalizing s with
  | nil =>
    have hnone : s.editedBy [] = id := by
      funext a
      exact Assignment.edited_none a
    rw [hnone, List.map_id, Store.ledger, List.append_nil]
    exact .refl _
  | cons act later ih =>
    have hstep := (act.perform_committedAssignments hs).map ((act.perform s).editedBy later)
    have hedits : (act.perform s).editedBy later ∘ act.edits s = s.editedBy (act :: later) :=
      funext fun a => Store.editedBy_cons act later a
    rw [List.map_append, List.map_map, hedits] at hstep
    have hrest := (ih (act.perform_wf hs)).trans (hstep.append_right _)
    rw [List.append_assoc] at hrest
    exact hrest

end Ledger

/-- What `/load` draws after a run: for every active person the hours of each day that the
plans confirmed so far put there, every plan counted once and every task with the person
it was handed to last since; the next proposal is solved against the same hours. -/
theorem load_image_ledger (U : CharTables) (s₀ : Store) (hs : s₀.WF) (acts : List Act) (start : Date) (days : Nat)
    (personName : Option String) :
    let s := s₀.after acts
    let booked := (s₀.committedAssignments.map (s₀.editedBy acts) ++ s₀.ledger acts).flatMap Assignment.allocations
    (s.solverPeople = [] → (buildLoadImage U start days personName).run s = (.ok none, s)) ∧
      (s.solverPeople ≠ [] → ∃ image, (buildLoadImage U start days personName).run s = (.ok (some image), s) ∧
        image.Shows (shownPeople U s.solverPeople personName) start days booked) ∧
      s.committedLoad.Perm booked := by
  intro s booked
  have hload : s.committedLoad.Perm booked := by
    have hflat : s.committedLoad = s.committedAssignments.flatMap Assignment.allocations := by
      rw [Store.committedLoad, Store.committedAssignments, List.flatMap_assoc]
      rfl
    exact hflat ▸ (hs.committed_after acts).flatMap_right _
  have hrun : (buildLoadImage U start days personName).run s = (.ok (if s.solverPeople = [] then none else
      some (LoadSummary.execute (shownPeople U s.solverPeople personName) s.committedLoad start days)), s) := by
    simp only [buildLoadImage, Repo.getSolverPeople, Repo.listCommittedPlans, Program.run_bind, Program.run_read]
    split
    · rfl
    · rfl
  refine ⟨fun hnobody => by rw [hrun, if_pos hnobody], fun hteam => ⟨_, by rw [hrun, if_neg hteam], ?_⟩, hload⟩
  obtain ⟨hlabels, hdays, hcells⟩ :=
    execute_shows (shownPeople U s.solverPeople personName) s.committedLoad start days
  refine ⟨hlabels, hdays, hcells.trans ?_⟩
  exact List.map_congr_left fun p _ => List.map_congr_left fun j _ => hoursOn_perm hload _ _

/-- Two days of work that are confirmed and handed over. -/
theorem load_image_ledger_long :
    let s := longStore.after reassignLong
    let booked := (longStore.committedAssignments.map (longStore.editedBy reassignLong) ++
      longStore.ledger reassignLong).flatMap Assignment.allocations
    s.committedLoad.Perm booked ∧ ∃ image, (buildLoadImage .plain 1 14 none).run s = (.ok (some image), s) ∧
      image.Shows (shownPeople .plain s.solverPeople none) 1 14 booked := by
  intro s booked
  obtain ⟨-, hteam, hload⟩ := load_image_ledger .plain longStore (by constructor <;> decide) reassignLong 1 14 none
  exact ⟨hload, hteam (by decide)⟩

end Planner
