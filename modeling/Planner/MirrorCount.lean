import Planner.ConfirmFaults

/-! What a confirmation says about the mirror. The number of cards is read off the
payload after the repository has been read, so a read that fails leaves no cards
to count as failed. -/

namespace Planner

/-- The payload column of a version: how many assignments it lists, and the plan that
`deserialize_plan` makes of it or what it raises. -/
structure PayloadColumn where
  assignments : Nat
  decoded : Except PlannerError Payload
  length_decoded : ∀ p, decoded = .ok p → p.assignments.length = assignments

def PayloadColumn.ofPayload (p : Payload) : PayloadColumn where
  assignments := p.assignments.length
  decoded := .ok p
  length_decoded _ h := by rw [Except.ok.inj h]

/-- What `push_task` answers or raises. -/
abbrev PushAnswer := Except PlannerError (Option String)

def PushAnswer.isUrl : PushAnswer → Bool
  | .ok (some _) => true
  | _ => false

/-- The answers, card by card, until one is raised. -/
def pushAnswers (sink : TaskSink) : Nat → List SinkTask → List PushAnswer
  | _, [] => []
  | n, card :: cards =>
    match sink.pushTask n card with
    | .error e => [.error e]
    | .ok url => .ok url :: pushAnswers sink (n + 1) cards

/-- `boardCards`, when the payload has yet to be decoded. -/
def columnCards (column : PayloadColumn) (projectId : UUID) : UseCase (List SinkTask) := do
  let project ← Repo.getProject projectId
  let names ← Repo.getTaskNameMap
  let people ← Repo.listPeople
  let people := OrdDict.ofList (people.map fun p => (p.id, p.name))
  let plan ← .ofExcept column.decoded
  pure (plan.assignments.map fun a =>
    { title := names.getD a.taskId "Задача"
      assignees := (people.get? a.personId).toList
      project := some ((project.map ProjectRecord.title).getD "Проект")
      deadline := some a.endDate })

/-- `_mirror_tasks` with a real sink, and what the sink has answered. -/
def mirrorColumn (column : PayloadColumn) (sink : TaskSink) (projectId : UUID) :
    UseCase ((Nat × Nat) × List PushAnswer) := do
  match ← (columnCards column projectId).attempt with
  | .ok cards =>
    let answers := pushAnswers sink 0 cards
    pure ((cards.length - answers.countP PushAnswer.isUrl, cards.length), answers)
  | .error _ => pure ((0, 0), [])

/-- `ConfirmPlanUseCase.execute` with a real sink, and what the sink has answered. -/
def confirmColumn (column : PlanVersionRecord → PayloadColumn) (sink : TaskSink) (planVersionId : UUID)
    (actor : Option PersonRecord) : UseCase (ConfirmResult × List PushAnswer) := do
  match ← Repo.getPlanVersion planVersionId with
  | none => .raise (.planNotFound planVersionId)
  | some pv =>
    if ← Repo.transitionPlanStatus planVersionId .proposed .committed then
      Repo.addAudit (actor.map PersonRecord.id) "confirm_plan" "plan_version" (some planVersionId) none
      Repo.setProjectStatus pv.projectId .committed
      let ((failed, total), answers) ← mirrorColumn (column pv) sink pv.projectId
      pure (⟨{ pv with status := .committed }, total, failed⟩, answers)
    else
      let current ← Repo.getPlanVersion planVersionId
      .raise (.planNotProposed (current.map PlanVersionRecord.status))

/-- All assignments are counted, and those without a URL as failed. -/
structure HonestCount (column : PayloadColumn) (result : ConfirmResult) (answers : List PushAnswer) : Prop where
  total : result.mirrorTotal = column.assignments
  failed : result.mirrorFailed + answers.countP PushAnswer.isUrl = column.assignments

open Program

section Push

variable {sink : TaskSink}

theorem countP_pushAnswers (n : Nat) (cards : List SinkTask) :
    (pushAnswers sink n cards).countP PushAnswer.isUrl = pushTasks sink n cards := by
  induction cards generalizing n with
  | nil => rfl
  | cons card cards ih =>
    rw [pushAnswers, pushTasks]
    cases sink.pushTask n card with
    | error e => rfl
    | ok url =>
      cases url with
      | none => exact ih (n + 1)
      | some url =>
        dsimp only
        rw [List.countP_cons_of_pos rfl, ih (n + 1)]

theorem pushTasks_le (n : Nat) (cards : List SinkTask) : pushTasks sink n cards ≤ cards.length := by
  induction cards generalizing n with
  | nil => exact Nat.le_refl 0
  | cons card cards ih =>
    rw [pushTasks, List.length_cons]
    have hrest := ih (n + 1)
    split <;> omega

end Push

section Payload

variable {sink : TaskSink} {v : UUID} {actor : Option PersonRecord}

theorem mirrorColumn_payload (hreal : sink.isNoop = false) (pv : PlanVersionRecord) :
    mirrorTasks (some sink) pv = mirrorColumn (.ofPayload pv.payload) sink pv.projectId >>= fun x => Pure.pure x.1 := by
  have hcards : columnCards (.ofPayload pv.payload) pv.projectId = boardCards pv := rfl
  rw [mirrorColumn, hcards, Program.bind_assoc, mirrorTasks, hreal, if_neg Bool.false_ne_true]
  refine congrArg _ (funext fun r => ?_)
  cases r with
  | error e => rfl
  | ok cards =>
    dsimp only
    rw [countP_pushAnswers]
    rfl

/-- Over a payload that decodes it is the confirmation of the model. -/
theorem confirmColumn_payload (hreal : sink.isNoop = false) : confirmPlan (some sink) v actor =
    confirmColumn (fun pv => .ofPayload pv.payload) sink v actor >>= fun x => Pure.pure x.1 := by
  rw [confirmPlan, confirmColumn, Program.bind_assoc]
  refine congrArg _ (funext fun found => ?_)
  cases found with
  | none => rfl
  | some pv =>
    dsimp only
    rw [Program.bind_assoc]
    refine congrArg _ (funext fun moved => ?_)
    cases moved with
    | false =>
      simp only [Bool.false_eq_true, if_false, Program.bind_assoc]
      rfl
    | true =>
      simp only [if_true, Program.bind_assoc, mirrorColumn_payload hreal]
      rfl

end Payload

section Runs

variable {fail : Nat → Option PlannerError} {sink : TaskSink} {column : PayloadColumn} {projectId : UUID} {s : Store}

/-- The cards are there if no read has failed and the payload can be read. -/
theorem columnCards_runFaulty (n : Nat) : ∃ r m, (columnCards column projectId).runFaulty fail n s = (r, m, s) ∧
    ((∃ cards, r = .ok cards ∧ cards.length = column.assignments) ∧
        (fail n = none ∧ fail (n + 1) = none ∧ fail (n + 2) = none ∧ ∃ p, column.decoded = .ok p) ∨
      (∃ e, r = .error e) ∧
        ¬ (fail n = none ∧ fail (n + 1) = none ∧ fail (n + 2) = none ∧ ∃ p, column.decoded = .ok p)) := by
  simp only [columnCards, runFaulty_bind, Repo.getProject, Repo.getTaskNameMap, Repo.listPeople, Program.read,
    runFaulty_call, runFaulty_ofExcept]
  cases h₀ : fail n with
  | some e => exact ⟨_, _, rfl, Or.inr ⟨⟨e, rfl⟩, fun h => by cases h.1⟩⟩
  | none =>
    dsimp only
    cases h₁ : fail (n + 1) with
    | some e => exact ⟨_, _, rfl, Or.inr ⟨⟨e, rfl⟩, fun h => by cases h.2.1⟩⟩
    | none =>
      dsimp only
      cases h₂ : fail (n + 1 + 1) with
      | some e => exact ⟨_, _, rfl, Or.inr ⟨⟨e, rfl⟩, fun h => by cases h.2.2.1⟩⟩
      | none =>
        dsimp only
        cases hdecoded : column.decoded with
        | error e =>
          refine ⟨_, _, rfl, Or.inr ⟨⟨e, rfl⟩, ?_⟩⟩
          rintro ⟨-, -, -, p, hp⟩
          cases hp
        | ok p =>
          refine ⟨_, _, rfl, Or.inl ⟨⟨_, rfl, ?_⟩, rfl, rfl, rfl, p, rfl⟩⟩
          rw [List.length_map]
          exact column.length_decoded p hdecoded

theorem mirrorColumn_runFaulty (n : Nat) : ∃ failed total answers m,
    (mirrorColumn column sink projectId).runFaulty fail n s = (.ok ((failed, total), answers), m, s) ∧
      (total = column.assignments ∧ failed + answers.countP PushAnswer.isUrl = column.assignments ↔
        column.assignments = 0 ∨
          fail n = none ∧ fail (n + 1) = none ∧ fail (n + 2) = none ∧ ∃ p, column.decoded = .ok p) := by
  obtain ⟨r, m, hrun, hcases⟩ := @columnCards_runFaulty fail column projectId s n
  simp only [mirrorColumn, runFaulty_bind, runFaulty_attempt, hrun]
  rcases hcases with ⟨⟨cards, rfl, hlen⟩, hquiet⟩ | ⟨⟨e, rfl⟩, hnoisy⟩
  · refine ⟨_, _, _, m, rfl, iff_of_true ⟨hlen, ?_⟩ (Or.inr hquiet)⟩
    have hle := @pushTasks_le sink 0 cards
    rw [countP_pushAnswers, ← hlen]
    omega
  · refine ⟨0, 0, [], m, rfl, ?_⟩
    constructor
    · exact fun h => Or.inl h.1.symm
    · rintro (hzero | hquiet)
      · exact ⟨hzero.symm, hzero.symm⟩
      · exact absurd hquiet hnoisy

end Runs

/-- A confirmation counts honestly exactly if the three reads of the mirror answer and
the payload decodes, or there is nothing to count. The first four operations commit
the version; from then on any of them may fail, and the sink may do what it likes. -/
theorem mirror_count_iff (column : PlanVersionRecord → PayloadColumn) (sink : TaskSink) (v : UUID)
    (actor : Option PersonRecord) (s : Store) (row : PlanVersionRow) (hv : s.planVersions.get? v = some row)
    (hproposed : row.status = .proposed) (hknown : s.knows (actor.map PersonRecord.id))
    (fail : Nat → Option PlannerError) (hcommit : ∀ k < 4, fail k = none) :
    ∃ result answers n s', (confirmColumn column sink v actor).runFaulty fail 0 s = (.ok (result, answers), n, s') ∧
      (HonestCount (column ⟨v, row.projectId, row.status, row.payload⟩) result answers ↔
        (column ⟨v, row.projectId, row.status, row.payload⟩).assignments = 0 ∨
          fail 4 = none ∧ fail 5 = none ∧ fail 6 = none ∧
            ∃ p, (column ⟨v, row.projectId, row.status, row.payload⟩).decoded = .ok p) := by
  obtain ⟨failed, total, answers, m, hmirror, hiff⟩ := @mirrorColumn_runFaulty fail sink
    (column ⟨v, row.projectId, row.status, row.payload⟩) row.projectId
    (s.confirmed v (actor.map PersonRecord.id) row.projectId) 4
  refine ⟨⟨⟨v, row.projectId, .committed, row.payload⟩, total, failed⟩, answers, m,
    s.confirmed v (actor.map PersonRecord.id) row.projectId, ?_, ?_⟩
  · have hread : (Repo.getPlanVersion v).runFaulty fail 0 s =
        (.ok (some ⟨v, row.projectId, row.status, row.payload⟩), 1, s) :=
      runFaulty_call_of_none (hcommit 0 (by decide)) (getPlanVersion_run hv)
    have hmove : (Repo.transitionPlanStatus v .proposed .committed).runFaulty fail 1 s = (.ok true, 2, s.moved v) :=
      runFaulty_call_of_none (hcommit 1 (by decide)) (transition_run hv hproposed)
    have haudit : (Repo.addAudit (actor.map PersonRecord.id) "confirm_plan" "plan_version" (some v) none).runFaulty
        fail 2 (s.moved v) = (.ok (), 3, s.movedAudited v (actor.map PersonRecord.id)) :=
      runFaulty_call_of_none (hcommit 2 (by decide)) (confirmAudit_run hknown)
    have hproject : (Repo.setProjectStatus row.projectId .committed).runFaulty fail 3
        (s.movedAudited v (actor.map PersonRecord.id)) =
          (.ok (), 4, s.confirmed v (actor.map PersonRecord.id) row.projectId) :=
      runFaulty_call_of_none (hcommit 3 (by decide)) (confirmProject_run _ _ _ _)
    rw [confirmColumn, runFaulty_bind_of_ok hread]
    refine (runFaulty_bind_of_ok hmove).trans ?_
    rw [if_pos rfl, runFaulty_bind_of_ok haudit, runFaulty_bind_of_ok hproject, runFaulty_bind_of_ok hmirror]
    rfl
  · rw [← hiff]
    exact ⟨fun h => ⟨h.total, h.failed⟩, fun h => ⟨h.1, h.2⟩⟩

section Shooting

/-- A board that takes every card. -/
def openBoard : TaskSink where
  pushTask _ _ := .ok (some "url")

/-- The database is gone once the plan is committed. -/
def goneAfterCommit (k : Nat) : Option PlannerError := if k = 4 then some .unavailable else none

def shootingRow : PlanVersionRow := (proposedShooting.planVersions.get? 6).getD ⟨0, .superseded, ⟨[], [], none⟩, none⟩

def columnOf (pv : PlanVersionRecord) : PayloadColumn := .ofPayload pv.payload

theorem mirror_count_iff_shooting : ∃ result answers n s',
    (confirmColumn columnOf openBoard 6 none).runFaulty goneAfterCommit 0 proposedShooting = (.ok (result, answers), n, s') ∧
      (HonestCount (columnOf ⟨6, shootingRow.projectId, shootingRow.status, shootingRow.payload⟩) result answers ↔
        (columnOf ⟨6, shootingRow.projectId, shootingRow.status, shootingRow.payload⟩).assignments = 0 ∨
          goneAfterCommit 4 = none ∧ goneAfterCommit 5 = none ∧ goneAfterCommit 6 = none ∧
            ∃ p, (columnOf ⟨6, shootingRow.projectId, shootingRow.status, shootingRow.payload⟩).decoded = .ok p) :=
  mirror_count_iff columnOf openBoard 6 none proposedShooting shootingRow rfl rfl (by decide) goneAfterCommit (by decide)

/-- The plan has a task, none is on the board, and the answer says that none is missing. -/
theorem lost_cards_not_counted : ∃ result n s',
    (confirmColumn columnOf openBoard 6 none).runFaulty goneAfterCommit 0 proposedShooting = (.ok (result, []), n, s') ∧
      shootingRow.payload.assignments.length = 1 ∧ result.mirrorTotal = 0 ∧ result.mirrorFailed = 0 ∧
      ¬ HonestCount (columnOf ⟨6, shootingRow.projectId, shootingRow.status, shootingRow.payload⟩) result [] := by
  have hcards : shootingRow.payload.assignments.length = 1 := rfl
  refine ⟨_, _, _, rfl, hcards, rfl, rfl, fun h => ?_⟩
  have htotal : 0 = shootingRow.payload.assignments.length := h.total
  rw [hcards] at htotal
  cases htotal

end Shooting

end Planner
