import Planner.AddProjectFaults
import Planner.AgentTurn

/-! What a tool call leaves in the tables and in the tool box, whatever fails. -/

namespace Planner

open Program

theorem Store.mem_botTasks {s : Store} {t : UUID} :
    t ∈ s.botTasks ↔ ∃ row, s.tasks.get? t = some row ∧ row.source = .botFormed := by
  simp only [Store.botTasks, List.mem_map, List.mem_filter, decide_eq_true_eq]
  constructor
  · rintro ⟨e, ⟨he, hsource⟩, rfl⟩
    exact ⟨e.2, OrdDict.get?_eq_some_iff.mpr he, hsource⟩
  · rintro ⟨row, hrow, hsource⟩
    exact ⟨(t, row), ⟨OrdDict.get?_eq_some_iff.mp hrow, hsource⟩, rfl⟩

theorem botTasks_setStatus {s : Store} {taskId t : UUID} {status : TaskStatus}
    (h : t ∈ (s.modifyTask taskId ({ · with status := status })).botTasks) : t ∈ s.botTasks := by
  obtain ⟨row, hrow, hsource⟩ := Store.mem_botTasks.mp h
  rw [Store.modifyTask, OrdDict.get?_modify] at hrow
  split at hrow
  · rename_i hid
    subst hid
    obtain ⟨old, hold, rfl⟩ := Option.map_eq_some_iff.mp hrow
    exact Store.mem_botTasks.mpr ⟨old, hold, hsource⟩
  · exact Store.mem_botTasks.mpr ⟨row, hrow, hsource⟩

theorem versions_indifferent (V : List UUID) : Indifferent fun s => ∀ v ∈ s.planVersions.keys, v ∈ V where
  drawn _ h := h
  putAudit _ h := h
  putProject _ _ h := h
  putAssignment _ _ _ h := h
  setAssignee _ _ _ h := h
  putOverride _ _ _ h := h
  setStatus _ _ h := h
  editPayload v f h := by
    rw [Store.modifyVersion, OrdDict.keys_modify]
    exact h

theorem botTasks_indifferent (B : List UUID) : Indifferent fun s => ∀ t ∈ s.botTasks, t ∈ B where
  drawn _ h := h
  putAudit _ h := h
  putProject _ _ h := h
  putAssignment _ _ _ h := h
  setAssignee _ _ _ h := h
  putOverride _ _ _ h := h
  setStatus _ _ h t ht := h t (botTasks_setStatus ht)
  editPayload _ _ h := h

theorem Indifferent.and {I J : Store → Prop} (hI : Indifferent I) (hJ : Indifferent J) :
    Indifferent fun s => I s ∧ J s where
  drawn n h := ⟨hI.drawn n h.1, hJ.drawn n h.2⟩
  putAudit row h := ⟨hI.putAudit row h.1, hJ.putAudit row h.2⟩
  putProject row hnew h := ⟨hI.putProject row hnew h.1, hJ.putProject row hnew h.2⟩
  putAssignment t p hours h := ⟨hI.putAssignment t p hours h.1, hJ.putAssignment t p hours h.2⟩
  setAssignee t p hours h := ⟨hI.setAssignee t p hours h.1, hJ.setAssignee t p hours h.2⟩
  putOverride p day row h := ⟨hI.putOverride p day row h.1, hJ.putOverride p day row h.2⟩
  setStatus t status h := ⟨hI.setStatus t status h.1, hJ.setStatus t status h.2⟩
  editPayload v f h := ⟨hI.editPayload v f h.1, hJ.editPayload v f h.2⟩

theorem NothingNew.refl (s : Store) : NothingNew s s := ⟨fun _ h => h, fun _ h => h⟩

theorem NothingNew.indifferent (s : Store) : Indifferent (NothingNew s) :=
  (versions_indifferent s.planVersions.keys).and (botTasks_indifferent s.botTasks)

section Ends

variable {fault : PlannerError → Prop} {s s' : Store}

theorem nothingNew_of_keeps {α : Type} {p : UseCase α} {r : Except PlannerError α} (hp : p.Keeps (NothingNew s))
    (h : p.Ends fault s r s') : NothingNew s s' := hp.ends (.refl s) h

theorem versions_drawn (s : Store) (n : Nat) : NothingNew s (s.drawn n) := ⟨fun _ h => h, fun _ h => h⟩

theorem source_of_instantiate {template : ProjectTemplate} {pid : UUID} {ids : List UUID} {tasks : List Task}
    {deps : List Dependency} (h : instantiate template pid ids = .ok (tasks, deps)) :
    ∀ t ∈ tasks, t.source = .template := by
  obtain ⟨-, rfl, -⟩ := instantiate_ok h
  intro t ht
  obtain ⟨spec, -, rfl⟩ := List.mem_map.mp ht
  rfl

/-- The tasks of a template are not captured ones. -/
theorem botTasks_putTasks {pid t : UUID} {tasks : List Task} {assignments : List Assignment}
    (hsource : ∀ t ∈ tasks, t.source = .template) (h : t ∈ (s.putTasks pid tasks assignments).botTasks) :
    t ∈ s.botTasks := by
  obtain ⟨row, hrow, hbot⟩ := Store.mem_botTasks.mp h
  rcases OrdDict.mem_of_get?_insertAll hrow with hmem | hold
  · obtain ⟨task, htask, he⟩ := List.mem_map.mp hmem
    obtain ⟨-, rfl⟩ := Prod.mk.inj he
    have htemplate : task.source = .botFormed := hbot
    rw [hsource task htask] at htemplate
    cases htemplate
  · exact Store.mem_botTasks.mpr ⟨row, hold, hbot⟩

theorem recorded_new (s : Store) (title : String) (actorId : Option UUID) (pid : UUID) (row : ProjectRow)
    {tasks : List Task} (plan : PlanResult) (hsource : ∀ t ∈ tasks, t.source = .template) :
    (∀ v ∈ (s.recorded title actorId pid row tasks plan).planVersions.keys, v ∈ s.planVersions.keys ∨ v = s.nextId) ∧
      ∀ t ∈ (s.recorded title actorId pid row tasks plan).botTasks, t ∈ s.botTasks :=
  ⟨fun _ hv => (OrdDict.mem_keys_insert.mp hv).symm, fun _ ht => botTasks_putTasks (s := s.putProject pid row) hsource ht⟩

/-- A proposal is the only new version; what the chat answers without one has
written nothing. -/
theorem buildAddProjectReply_ends {solver : GreedySolver} {intent : AddProjectIntent} {actor : Option PersonRecord}
    {today : Date} {sink : Option ProjectSink} (hfault : ∀ message, ¬ fault (.invalidProject message))
    {reply : Except String AddProjectResult}
    (h : (buildAddProjectReply solver intent actor today sink).Ends fault s (.ok reply) s') :
    (∃ text, reply = .error text ∧ NothingNew s s') ∨
      ∃ result, reply = .ok result ∧
        (∀ v ∈ s'.planVersions.keys, v ∈ s.planVersions.keys ∨ v = result.planVersionId) ∧
        ∀ t ∈ s'.botTasks, t ∈ s.botTasks := by
  obtain ⟨found, -, k₁⟩ := Ends.of_bind_read_ok h
  cases found with
  | none =>
    obtain ⟨hr, rfl⟩ := Ends.of_pure k₁
    exact Or.inl ⟨_, Except.ok.inj hr, .refl s'⟩
  | some template =>
    obtain ⟨people, -, k₂⟩ := Ends.of_bind_read_ok k₁
    by_cases hpeople : people.isEmpty = true
    · simp only [hpeople, if_true] at k₂
      obtain ⟨hr, rfl⟩ := Ends.of_pure k₂
      exact Or.inl ⟨_, Except.ok.inj hr, .refl s'⟩
    · simp only [hpeople, Bool.false_eq_true, if_false] at k₂
      obtain ⟨payloads, -, k₃⟩ := Ends.of_bind_read_ok k₂
      obtain ⟨caught, s₄, h₄, k₄⟩ := Ends.of_bind_ok k₃
      obtain ⟨r, hadd, hr⟩ := Ends.of_attempt h₄
      obtain rfl := Except.ok.inj hr
      rcases addProject_ends hadd with ⟨n, rfl, e, rfl⟩ | ⟨title, row, tasks, deps, plan, -, hinst, -,
        ⟨n, -, -, e, hwhy, rfl⟩ | ⟨rfl, result, rfl, hid⟩⟩
      · -- nothing has been written yet
        have hdrawn := versions_drawn s n
        cases e <;> first
          | (obtain ⟨hr, rfl⟩ := Ends.of_pure k₄
             exact Or.inl ⟨_, Except.ok.inj hr, hdrawn⟩)
          | (obtain ⟨hr, -⟩ := Ends.of_raise k₄
             cases hr)
      · -- no declined project has been written
        cases e with
        | invalidProject message => exact absurd (hwhy.resolve_left nofun) (hfault message)
        | _ =>
          obtain ⟨hr, -⟩ := Ends.of_raise k₄
          cases hr
      · obtain ⟨hr, rfl⟩ := Ends.of_pure k₄
        have hnew := recorded_new (s.drawn (1 + template.tasks.length)) title (actor.map PersonRecord.id) s.nextId
          row plan (source_of_instantiate hinst)
        exact Or.inr ⟨result, Except.ok.inj hr, hid ▸ hnew⟩

theorem botTasks_putTask {id t : UUID} {row : TaskRow} (h : t ∈ (s.putTask id row).botTasks) :
    t = id ∨ t ∈ s.botTasks := by
  obtain ⟨found, hfound, hsource⟩ := Store.mem_botTasks.mp h
  by_cases ht : t = id
  · exact Or.inl ht
  · rw [Store.putTask, OrdDict.get?_insert_of_ne _ _ ht] at hfound
    exact Or.inr (Store.mem_botTasks.mpr ⟨found, hfound, hsource⟩)

theorem createTask_ends {projectId : UUID} {title : String} {duration : Int} {deadline : Option Date}
    {timeStart : Option TimeOfDay} {skills : List String} {task : TaskRecord}
    (h : (Repo.createTask projectId title duration deadline timeStart skills).Ends fault s (.ok task) s') :
    ∀ t ∈ s'.botTasks, t ∈ task.id :: s.botTasks := by
  obtain ⟨taskId, s₁, h₁, hadd⟩ := Ends.of_bind_ok h
  obtain ⟨-, rfl⟩ := Ends.of_call_ok h₁
  obtain ⟨rfl, rfl⟩ := Ends.of_guarded_ok hadd
  exact fun t ht => List.mem_cons.mpr (botTasks_putTask (s := s.drawn 1) ht)

/-- The task of the answer is the only new one, and there is none if it is a duplicate. -/
theorem captureTask_ends {U : CharTables} {sink : Option TaskSink} {intent : CaptureTaskIntent}
    {actor : Option PersonRecord} {result : CaptureResult}
    (h : (captureTask U sink intent actor).Ends fault s (.ok result) s') :
    (∀ v ∈ s'.planVersions.keys, v ∈ s.planVersions.keys) ∧
      ∀ t ∈ s'.botTasks, t ∈ s.botTasks ∨ result.isDuplicate = false ∧ t = result.taskId := by
  have hversions := versions_indifferent s.planVersions.keys
  refine ⟨(hversions.captureTask (fun _ _ h => h) U sink intent actor).ends (fun _ h => h) h, ?_⟩
  have hbots := botTasks_indifferent s.botTasks
  obtain ⟨project, s₁, h₁, k₁⟩ := Ends.of_bind_ok h
  have hold := (hbots.resolveProject U _ actor).ends (fun _ h => h) h₁
  obtain ⟨tasks, -, k₂⟩ := Ends.of_bind_read_ok k₁
  split at k₂
  · obtain ⟨-, rfl⟩ := Ends.of_pure k₂
    exact fun t ht => Or.inl (hold t ht)
  · obtain ⟨task, s₃, h₃, k₃⟩ := Ends.of_bind_ok k₂
    have hput := botTasks_indifferent (task.id :: s.botTasks)
    have hcreated : ∀ t ∈ s₃.botTasks, t ∈ task.id :: s.botTasks := fun t ht =>
      List.cons_subset_cons task.id hold (createTask_ends h₃ t ht)
    obtain ⟨names, s₅, h₅, k₅⟩ := Ends.of_bind_ok k₃
    have hassigned := (hput.assignNames _ _ _).ends hcreated h₅
    obtain ⟨_, s₆, h₆, k₆⟩ := Ends.of_bind_ok k₅
    have haudited := hput.addAudit.ends hassigned h₆
    obtain ⟨rfl, rfl⟩ := Ends.of_pure_ok k₆
    intro t ht
    rcases List.mem_cons.mp (haudited t ht) with rfl | ht
    · exact Or.inr ⟨rfl, rfl⟩
    · exact Or.inl ht

end Ends

theorem Indifferent.mergeAssignees {I : Store → Prop} (hI : Indifferent I) (taskId : UUID) (duration : Int)
    (names assigned : List String) : (mergeAssignees taskId duration names assigned).Keeps I := by
  induction names generalizing assigned with
  | nil => exact Keeps.pure _
  | cons name rest ih =>
    refine (Keeps.read _).attempt.bind fun found => ?_
    split
    · exact Keeps.pure _
    · exact ih assigned
    · split
      · exact ih assigned
      · refine hI.assignTask.attempt.bind fun r => ?_
        split
        · exact Keeps.pure _
        · exact ih _

/-- What a call may do to the tool box `box`, and to the tables along with it. -/
inductive CallEffect (name : String) (box : ToolBox) (s s' : Store) : ToolOutcome → Prop
  | none (said : Except PlannerError String) (h : NothingNew s s') : CallEffect name box s s' ⟨box, said, none⟩
  | asked (pending : PendingCapture) (text : String) (h : NothingNew s s') :
      CallEffect name box s s' ⟨{ box with pendingCapture := some pending }, .ok text, none⟩
  | merged {key : List Char} {entry : CaptureEntry} (hentry : box.capturesByKey.get? key = some entry)
      (assigned : List String) (r : Except PlannerError Unit) (h : NothingNew s s') :
      CallEffect name box s s' (box.merge key entry assigned r)
  | captured (key : List Char) {result : CaptureResult} (hdup : result.isDuplicate = false)
      (hversions : ∀ v ∈ s'.planVersions.keys, v ∈ s.planVersions.keys)
      (htasks : ∀ t ∈ s'.botTasks, t ∈ s.botTasks ∨ t = result.taskId) :
      CallEffect name box s s' (box.capture key result)
  | proposed (v : UUID) (urls : List String) (text : String) (hname : name = "plan_project")
      (hversions : ∀ w ∈ s'.planVersions.keys, w ∈ s.planVersions.keys ∨ w = v)
      (htasks : ∀ t ∈ s'.botTasks, t ∈ s.botTasks) :
      CallEffect name box s s' ⟨{ box with
        lastProposedPvId := some v, capturedNotionUrls := box.capturedNotionUrls ++ urls }, .ok text, none⟩
  | declined (text : String) (hname : name = "plan_project") (h : NothingNew s s') :
      CallEffect name box s s' ⟨{ box with lastProposedPvId := none }, .ok text, none⟩

section Tools

variable {ctx : ToolContext} {args : Args} {box : ToolBox} {s s' : Store} {name : String} {outcome : ToolOutcome}
  {fault : PlannerError → Prop}

theorem captureTool_ends (h : (captureTool ctx args box).Ends fault s (.ok outcome) s') :
    CallEffect name box s s' outcome := by
  obtain ⟨assignees, -, k₁⟩ := Ends.of_bind_ofExcept_ok h
  obtain ⟨project, -, k₂⟩ := Ends.of_bind_ofExcept_ok k₁
  obtain ⟨deadline, -, k₃⟩ := Ends.of_bind_ofExcept_ok k₂
  split at k₃
  · -- a key field is missing
    obtain ⟨pending, -, k₄⟩ := Ends.of_bind_ofExcept_ok k₃
    obtain ⟨rfl, rfl⟩ := Ends.of_pure_ok k₄
    exact .asked pending _ (.refl s')
  · obtain ⟨title, -, k₄⟩ := Ends.of_bind_ofExcept_ok k₃
    simp only at k₄
    cases hentry : box.capturesByKey.get? (titleKey ctx.tables title.shown) with
    | some entry =>
      simp only [hentry] at k₄
      obtain ⟨⟨assigned, r⟩, s₅, h₅, k₅⟩ := Ends.of_bind_ok k₄
      obtain ⟨rfl, rfl⟩ := Ends.of_pure_ok k₅
      exact .merged hentry assigned r (nothingNew_of_keeps ((NothingNew.indifferent _).mergeAssignees _ _ _ _) h₅)
    | none =>
      simp only [hentry] at k₄
      obtain ⟨intent, -, k₅⟩ := Ends.of_bind_ofExcept_ok k₄
      obtain ⟨result, s₆, h₆, k₆⟩ := Ends.of_bind_ok k₅
      obtain ⟨rfl, rfl⟩ := Ends.of_pure_ok k₆
      obtain ⟨hversions, htasks⟩ := captureTask_ends h₆
      cases hdup : result.isDuplicate with
      | false =>
        refine .captured _ hdup hversions fun t ht => ?_
        rcases htasks t ht with hold | ⟨-, hnew⟩
        · exact Or.inl hold
        · exact Or.inr hnew
      | true =>
        rw [ToolBox.capture, if_pos hdup]
        refine .none _ ⟨hversions, fun t ht => ?_⟩
        exact (htasks t ht).resolve_right fun hnew => by simp [hdup] at hnew

theorem planTool_ends (hname : name = "plan_project") (hfault : ∀ message, ¬ fault (.invalidProject message))
    (h : (planTool ctx args box).Ends fault s (.ok outcome) s') : CallEffect name box s s' outcome := by
  obtain ⟨intent, -, k₁⟩ := Ends.of_bind_ofExcept_ok h
  obtain ⟨reply, s₂, h₂, k₂⟩ := Ends.of_bind_ok k₁
  rcases buildAddProjectReply_ends hfault h₂ with ⟨text, rfl, hnothing⟩ | ⟨result, rfl, hversions, htasks⟩
  · obtain ⟨rfl, rfl⟩ := Ends.of_pure_ok k₂
    exact .declined text hname hnothing
  · obtain ⟨rfl, rfl⟩ := Ends.of_pure_ok k₂
    exact .proposed result.planVersionId _ _ hname hversions htasks

/-- A tool that answers a text in the end, and leaves the tool box alone. -/
theorem say_ends {α : Type} {p : UseCase α} {say : α → String} (hp : p.Keeps (NothingNew s))
    (h : (p >>= fun a => Pure.pure (⟨box, .ok (say a), none⟩ : ToolOutcome)).Ends fault s (.ok outcome) s') :
    CallEffect name box s s' outcome := by
  obtain ⟨a, s₁, h₁, k₁⟩ := Ends.of_bind_ok h
  obtain ⟨rfl, rfl⟩ := Ends.of_pure_ok k₁
  exact .none _ (nothingNew_of_keeps hp h₁)

theorem vacationTool_ends (h : (vacationTool ctx args box).Ends fault s (.ok outcome) s') :
    CallEffect name box s s' outcome := by
  obtain ⟨intent, -, k₁⟩ := Ends.of_bind_ofExcept_ok h
  obtain ⟨caught, s₂, h₂, k₂⟩ := Ends.of_bind_ok k₁
  have hnothing := nothingNew_of_keeps ((NothingNew.indifferent _).setVacation intent _ true).attempt h₂
  split at k₂
  · obtain ⟨rfl, rfl⟩ := Ends.of_pure_ok k₂
    exact .none _ hnothing
  · obtain ⟨rfl, rfl⟩ := Ends.of_pure_ok k₂
    exact .none _ hnothing
  · obtain ⟨hr, -⟩ := Ends.of_raise k₂
    cases hr

theorem buildReplanSummary_keeps (I : Store → Prop) (solver : GreedySolver) (today : Date) :
    (buildReplanSummary solver today).Keeps I := by
  have hrequest : (reconstructRequest today).Keeps I := by
    refine (Keeps.read _).bind fun people => ?_
    split
    · exact Keeps.pure _
    · refine (Keeps.read _).bind fun payloads => (Keeps.read _).bind fun nameMap => ?_
      dsimp only
      split
      · exact Keeps.pure _
      · exact (Keeps.read _).bind fun deps => (Keeps.read _).bind fun overrides => Keeps.pure _
  refine hrequest.bind fun request => ?_
  split
  · exact Keeps.pure _
  · split
    · exact Keeps.pure _
    · exact Keeps.raise _

theorem assignTool_ends (h : (assignTool ctx args box).Ends fault s (.ok outcome) s') :
    CallEffect name box s s' outcome := by
  obtain ⟨taskRef, -, k₁⟩ := Ends.of_bind_ofExcept_ok h
  obtain ⟨person, -, k₂⟩ := Ends.of_bind_ofExcept_ok k₁
  exact say_ends ((NothingNew.indifferent _).buildAssignReply _ _ _ _) k₂

theorem markTool_ends (h : (markTool ctx args box).Ends fault s (.ok outcome) s') :
    CallEffect name box s s' outcome := by
  obtain ⟨tasks, -, k₁⟩ := Ends.of_bind_read_ok h
  split at k₁
  · obtain ⟨rfl, rfl⟩ := Ends.of_pure_ok k₁
    exact .none _ (.refl _)
  · exact say_ends ((NothingNew.indifferent _).markTaskDone _ _ _ _) k₁
  · obtain ⟨rfl, rfl⟩ := Ends.of_pure_ok k₁
    exact .none _ (.refl _)

theorem readTool_ends {tool : Tool} (h : (readTool ctx args box tool).Ends fault s (.ok outcome) s') :
    CallEffect name box s s' outcome := by
  obtain ⟨text, -, k₁⟩ := Ends.of_bind_read_ok h
  exact say_ends (Keeps.ofExcept _) k₁

theorem Tool.name_of_planProject (h : Tool.ofName name = some .planProject) : name = "plan_project" := by
  unfold Tool.ofName at h
  split at h
  all_goals first | rfl | cases h

theorem executor_ends {tool : Tool} (hname : Tool.ofName name = some tool)
    (hfault : ∀ message, ¬ fault (.invalidProject message))
    (h : (tool.executor ctx args box).Ends fault s (.ok outcome) s') : CallEffect name box s s' outcome := by
  cases tool with
  | captureTask => exact captureTool_ends h
  | planProject => exact planTool_ends (Tool.name_of_planProject hname) hfault h
  | setVacation => exact vacationTool_ends h
  | replan => exact say_ends (buildReplanSummary_keeps _ _ _) h
  | assignTask => exact assignTool_ends h
  | markTaskDone => exact markTool_ends h
  | getTeamLoad => exact readTool_ends h
  | findAssignees => exact readTool_ends h
  | listPeople => exact readTool_ends h
  | listProjects => exact readTool_ends h

/-- Every call answers; one that raises leaves the tool box as it was. -/
theorem execute_ends {r : Except PlannerError ToolOutcome} (hfault : ∀ message, ¬ fault (.invalidProject message))
    (h : (box.execute ctx args name).Ends fault s r s') :
    ∃ outcome, r = .ok outcome ∧ (CallEffect name box s s' outcome ∨ ∃ e, outcome = ⟨box, .error e, none⟩) := by
  unfold ToolBox.execute at h
  split at h
  · obtain ⟨rfl, rfl⟩ := Ends.of_pure h
    exact ⟨_, rfl, Or.inl (.none _ (.refl s'))⟩
  · rename_i tool hname
    split at h
    · obtain ⟨rfl, rfl⟩ := Ends.of_pure h
      exact ⟨_, rfl, Or.inl (.none _ (.refl s'))⟩
    · rcases Ends.of_bind h with ⟨caught, s₁, h₁, k₁⟩ | ⟨e, h₁, -⟩
      swap
      · obtain ⟨_, -, hx⟩ := Ends.of_attempt h₁
        cases hx
      obtain ⟨r', hr', hcaught⟩ := Ends.of_attempt h₁
      obtain rfl := Except.ok.inj hcaught
      cases caught with
      | ok outcome =>
        obtain ⟨rfl, rfl⟩ := Ends.of_pure k₁
        exact ⟨outcome, rfl, Or.inl (executor_ends hname hfault hr')⟩
      | error e =>
        obtain ⟨rfl, rfl⟩ := Ends.of_pure k₁
        exact ⟨_, rfl, Or.inr ⟨e, rfl⟩⟩

/-- A call that has written nothing new when it raises has one of the effects. -/
theorem effect_of_quiet (h : CallEffect name box s s' outcome ∨ ∃ e, outcome = ⟨box, .error e, none⟩)
    (hquiet : ∀ e, outcome.said = .error e → NothingNew s s') : CallEffect name box s s' outcome := by
  rcases h with h | ⟨e, rfl⟩
  · exact h
  · exact .none _ (hquiet e rfl)

end Tools

end Planner
