import Planner.Lifecycle

/-! Confirmations, proposals and the edit loop follow the life of plan versions,
whatever the others do and wherever the database fails. -/

namespace Planner

open Program

/-- The exceptions a handler answers for. -/
def PlannerError.Decided : PlannerError → Prop
  | .planNotFound _ => True
  | .planNotProposed _ => True
  | _ => False

/-- Nothing is owed, and no id is forgotten. -/
def Stage.Returned (k k' : Stage) : Prop := k'.Ready ∧ k.bound ≤ k'.bound

section Confirm

variable {k : Stage} {sink : Option TaskSink} {actor : Option PersonRecord}

theorem lawful_boardCards {pv : PlanVersionRecord} {E : Stage → PlannerError → Prop}
    (hE : E k .unavailable) : Lawful (fun k' _ => k = k') E k (boardCards pv) := by
  unfold boardCards
  refine lawful_bind_read hE fun project => ?_
  refine lawful_bind_read hE fun names => ?_
  exact lawful_bind_read hE fun people => Follows.pure rfl

theorem lawful_mirrorTasks {pv : PlanVersionRecord} {E : Stage → PlannerError → Prop} :
    Lawful (fun k' _ => k = k') E k (mirrorTasks sink pv) := by
  cases sink with
  | none => exact Follows.pure rfl
  | some sink =>
    simp only [mirrorTasks]
    split
    · exact Follows.pure rfl
    · have hcards : Lawful (fun k' _ => k = k') E k (boardCards pv).attempt :=
        Follows.attempt (lawful_boardCards rfl)
      refine Follows.bind hcards ?_
      rintro _ (_ | _) rfl <;> exact Follows.pure rfl

theorem lawful_confirmPlan {v : UUID} (hk : k.Ready) (hv : v < k.bound) :
    Lawful (fun k' _ => k.Returned k') (fun k' e => e.Decided → k.Returned k') k
      (confirmPlan sink v actor) := by
  unfold confirmPlan
  refine Follows.bind (lawful_getPlanVersion hk hv fun h => h.elim) ?_
  rintro _ (_ | pv) rfl
  · exact Follows.raise fun _ => ⟨trivial, le_rfl⟩
  · refine Follows.bind (lawful_transition (by decide) fun h => h.elim) ?_
    rintro k' moved (⟨rfl, p, hp, rfl⟩ | ⟨rfl, rfl⟩)
    · obtain rfl := Option.some.inj hp
      have hlog : Lawful (fun k' _ => k' = ⟨k.bound, .decided v pv.projectId .committed true⟩)
          (fun k' e => e.Decided → k.Returned k') ⟨k.bound, .decided v pv.projectId .committed false⟩
          (Repo.addAudit (actor.map PersonRecord.id) "confirm_plan" "plan_version" (some v) none) := by
        exact lawful_checked (fun h => h.elim) (fun h => h.elim) fun s _ _ => ⟨_, .log rfl rfl, rfl⟩
      refine Follows.bind hlog ?_
      rintro _ - rfl
      refine Follows.bind (lawful_setProjectStatus .committed fun h => h.elim) ?_
      rintro _ - rfl
      refine Follows.bind lawful_mirrorTasks ?_
      rintro _ ⟨failed, total⟩ rfl
      exact Follows.pure ⟨trivial, le_rfl⟩
    · exact lawful_bind_read (fun h => h.elim) fun current => Follows.raise fun _ => ⟨trivial, le_rfl⟩

theorem lawful_confirmAnswer {v : UUID} {already : String} (hk : k.Ready) (hv : v < k.bound) :
    Lawful (fun k' _ => k.Returned k') (fun _ _ => True) k
      (confirmAnswer already (confirmPlan sink v actor)) := by
  unfold confirmAnswer
  refine Follows.bind (Follows.attempt (Q := fun k' r => match r with
    | .ok _ => k.Returned k'
    | .error e => e.Decided → k.Returned k') (lawful_confirmPlan hk hv)) ?_
  intro k' r h
  cases r with
  | ok result => exact Follows.pure h
  | error e =>
    cases e with
    | planNotFound v => exact Follows.pure (h trivial)
    | planNotProposed st => exact Follows.pure (h trivial)
    | _ => exact Follows.raise trivial

theorem lawful_retirePlan {v : UUID} (hk : k.Ready) (hv : v < k.bound) :
    Lawful (fun k' _ => k'.Ready) (fun _ _ => True) k (retirePlan v) := by
  unfold retirePlan
  refine Follows.bind (lawful_getPlanVersion hk hv trivial) ?_
  rintro _ pv rfl
  refine Follows.bind (lawful_transition (by decide) trivial) ?_
  rintro k' moved (⟨rfl, p, hp, rfl⟩ | ⟨rfl, rfl⟩)
  · obtain ⟨pv, rfl, rfl⟩ := Option.map_eq_some_iff.mp hp
    refine (lawful_setProjectStatus .superseded trivial).mono ?_ fun _ _ => id
    rintro _ - rfl
    trivial
  · cases pv <;> exact Follows.pure trivial

end Confirm

section Propose

variable {k : Stage} {solver : GreedySolver} {intent : AddProjectIntent}
  {actor : Option PersonRecord} {people : List Person} {template : ProjectTemplate} {today : Date}
  {existing : List DayAllocation} {overrides : List DayOverride} {sink : Option ProjectSink}

/-- The ids drawn for the project and its tasks become those of one version. -/
theorem lawful_recordProject {b : Nat} {p : UUID} {title : String} {actorId : Option UUID}
    {tasks : List Task} {plan : PlanResult} {ids : List UUID}
    (hnodup : (plan.assignments.map Assignment.taskId).Nodup)
    (htasks : plan.assignments.map Assignment.taskId ⊆ ids) :
    Lawful (fun k' r => k'.work = .free [] [] ∧ b ≤ k'.bound ∧ r.2.id < k'.bound)
      (fun _ e => e = .integrity ∨ e = .unavailable) ⟨b, .free [p] ids⟩
      (recordProject title intent actorId p tasks plan) := by
  have hcreate : Lawful (fun k' (project : ProjectRecord) => k' = ⟨b, .free [p] ids⟩ ∧ project.id = p)
      (fun _ e => e = .integrity ∨ e = .unavailable) ⟨b, .free [p] ids⟩
      (Repo.createProject title intent.templateCode intent.deadline intent.briefReturnDate actorId
        p) := by
    exact lawful_checked (Or.inr rfl) (Or.inl rfl) fun s _ hc => ⟨_, .create hc.2 rfl, rfl, rfl⟩
  have hsave : Lawful (fun k' _ => k' = ⟨b, .free [p] ids⟩)
      (fun _ e => e = .integrity ∨ e = .unavailable) ⟨b, .free [p] ids⟩
      (Repo.saveProjectTasks p tasks plan.assignments) := by
    exact lawful_checked (Or.inr rfl) (Or.inl rfl) fun s _ _ =>
      ⟨_, .rest ⟨rfl, le_rfl, rfl, fun _ => rfl, fun _ => rfl⟩, rfl⟩
  have hversion : Lawful (fun k' (pv : PlanVersionRecord) => k'.work = .free [] [] ∧ b ≤ k'.bound ∧
        pv.id < k'.bound) (fun _ e => e = .integrity ∨ e = .unavailable) ⟨b, .free [p] ids⟩
      (Repo.savePlanVersion p .proposed (serializePlan plan) actorId) := by
    exact lawful_checked (Or.inr rfl) (Or.inl rfl) fun s hs hc =>
      ⟨_, .record rfl hc.1 rfl hnodup htasks, rfl, hs.1.trans (Nat.le_succ _), Nat.lt_succ_self _⟩
  unfold recordProject
  refine Follows.bind hcreate ?_
  rintro _ project ⟨rfl, rfl⟩
  refine Follows.bind hsave ?_
  rintro _ - rfl
  refine Follows.bind hversion ?_
  rintro k' pv ⟨hw, hb, hid⟩
  have haudit : Lawful (fun k'' _ => k' = k'') (fun _ e => e = .integrity ∨ e = .unavailable) k'
      (Repo.addAudit actorId "add_project" "project" (some project.id) (some [("title", .text title)])) := by
    refine lawful_checked (Or.inr rfl) (Or.inl rfl) fun s _ _ => ⟨_, .rest (Quiet.putAudit ?_), rfl⟩
    exact fun h => absurd h (by decide : "add_project" ≠ "confirm_plan")
  refine Follows.bind haudit ?_
  rintro _ - rfl
  exact Follows.pure ⟨hw, hb, hid⟩

theorem lawful_mirrorProject {card : SinkProject} {p : UUID} {E : Stage → PlannerError → Prop} :
    Lawful (fun k' _ => k = k') E k (mirrorProject sink card p) := by
  cases sink with
  | none => exact Follows.pure rfl
  | some sink =>
    refine Follows.bind (Follows.attempt (Q := fun k' _ => k = k') ?_) ?_
    · refine lawful_bind_ofExcept (fun _ _ => rfl) ?_
      rintro (_ | page) -
      · exact Follows.pure rfl
      · dsimp only
        split
        · exact Follows.pure rfl
        · refine Follows.bind (lawful_call (Q := fun k' _ => _ = k') rfl fun s _ =>
            ⟨_, .rest (Quiet.modifyProject fun _ => rfl), fun _ _ => rfl, nofun⟩) ?_
          rintro _ - rfl
          exact Follows.pure rfl
    · rintro _ (_ | _) rfl <;> exact Follows.pure rfl

theorem lawful_addProject (hk : k.Ready) :
    Lawful (fun k' result => k.Returned k' ∧ result.planVersionId < k'.bound)
      (fun k' e => (∃ m, e = .invalidProject m) → k.Returned k') k
      (addProject solver intent actor people template today existing overrides sink) := by
  unfold addProject
  refine lawful_bind_ofExcept (fun _ _ _ => ⟨hk, le_rfl⟩) fun title _ => ?_
  have hdraw : Lawful (fun k' p => k' = ⟨k.bound, .free [p] []⟩)
      (fun k' e => (∃ m, e = PlannerError.invalidProject m) → k.Returned k') k uuid4 := by
    refine lawful_call (fun ⟨_, h⟩ => by cases h) fun s _ => ⟨_, .draw hk, fun p h => ?_, nofun⟩
    obtain rfl := Except.ok.inj h
    rfl
  refine Follows.bind hdraw ?_
  rintro _ p rfl
  have hinst : Lawful (fun k' r => ∃ ids : List UUID, ids.length = template.tasks.length ∧
        k' = ⟨k.bound, .free [p] ids⟩ ∧ instantiate template p ids = .ok r)
      (fun k' e => (∃ m, e = PlannerError.invalidProject m) → k.Returned k')
      ⟨k.bound, .free [p] []⟩ (instantiateTemplate template p) := by
    refine Follows.bind (Q := fun k' ids => ids.length = template.tasks.length ∧
      k' = ⟨k.bound, .free [p] ids⟩) ?_ ?_
    · refine lawful_call (fun ⟨_, h⟩ => by cases h) fun s _ =>
        ⟨_, .drawTasks, fun ids h => ?_, nofun⟩
      obtain rfl := Except.ok.inj h
      exact ⟨List.length_range', rfl⟩
    · rintro _ ids ⟨hlen, rfl⟩
      exact lawful_ofExcept (fun r hr => ⟨ids, hlen, rfl, hr⟩) fun _ _ _ => ⟨trivial, le_rfl⟩
  refine Follows.bind hinst ?_
  rintro _ ⟨tasks, deps⟩ ⟨ids, hlen, rfl, hinst⟩
  refine lawful_bind_ofExcept (fun _ _ _ => ⟨trivial, le_rfl⟩) fun plan hsolve => ?_
  have hplan := solveProject_ok hsolve
  refine lawful_bind_ofExcept (fun _ _ _ => ⟨trivial, le_rfl⟩) fun earliestEnd _ => ?_
  have hids : plan.assignments.map Assignment.taskId ⊆ ids := by
    intro t ht
    obtain ⟨a, ha, rfl⟩ := List.mem_map.mp ht
    obtain ⟨u, hu, hua⟩ := List.mem_map.mp ((plan_taskIds hplan).2 a ha)
    exact hua ▸ instantiate_ids hinst hlen u hu
  refine Follows.bind ((lawful_recordProject (plan_taskIds hplan).1 hids).mono (fun _ _ => id) ?_) ?_
  · rintro k' e (rfl | rfl) ⟨_, h⟩ <;> cases h
  · rintro k' ⟨project, pv⟩ ⟨hw, hb, hid⟩
    refine Follows.bind lawful_mirrorProject ?_
    rintro _ page rfl
    refine Follows.pure ⟨⟨?_, hb⟩, hid⟩
    unfold Stage.Ready
    rw [hw]
    trivial

theorem lawful_buildAddProjectReply (hk : k.Ready) :
    Lawful (fun k' r => k.Returned k' ∧ ∀ result, r = .ok result → result.planVersionId < k'.bound)
      (fun _ _ => True) k (buildAddProjectReply solver intent actor today sink) := by
  unfold buildAddProjectReply
  refine lawful_bind_read trivial ?_
  rintro (_ | template)
  · exact Follows.pure ⟨⟨hk, le_rfl⟩, fun _ h => by cases h⟩
  refine lawful_bind_read trivial fun people => ?_
  dsimp only
  split
  · exact Follows.pure ⟨⟨hk, le_rfl⟩, fun _ h => by cases h⟩
  refine lawful_bind_read trivial fun payloads => ?_
  have hadd : Lawful (fun k' r => match r with
      | .ok result => k.Returned k' ∧ result.planVersionId < k'.bound
      | .error e => (∃ m, e = .invalidProject m) → k.Returned k') (fun _ _ => True) k
      (addProject solver intent actor people template today
        (payloads.flatMap deserializeAllocations) [] sink).attempt :=
    Follows.attempt (lawful_addProject hk)
  refine Follows.bind hadd ?_
  intro k' r h
  cases r with
  | ok result =>
    refine Follows.pure ⟨h.1, fun result' hr => ?_⟩
    obtain rfl := Except.ok.inj hr
    exact h.2
  | error e =>
    cases e with
    | invalidProject m => exact Follows.pure ⟨h ⟨m, rfl⟩, fun _ h => by cases h⟩
    | _ => exact Follows.raise trivial

end Propose

section Chat

variable {k : Stage} {chat : Chat}

theorem Stage.Returned.trans {k k' k'' : Stage} (h : k.Returned k') (h' : k'.Returned k'') :
    k.Returned k'' := ⟨h'.1, h.2.trans h'.2⟩

theorem lawful_confirmLatest {target : Option UUID} (hk : k.Ready) (ht : ∀ v ∈ target, v < k.bound) :
    Lawful (fun k' _ => k.Returned k') (fun _ _ => True) k
      (confirmLatest chat.taskSink target chat.actor) := by
  unfold confirmLatest
  split
  · exact Follows.pure ⟨hk, le_rfl⟩
  · exact Follows.pure ⟨hk, le_rfl⟩
  · exact lawful_confirmAnswer hk (ht _ rfl)

/-- Whatever is named, stashed or proposed on the way has been issued. -/
theorem lawful_dispatchIntents (intents : List ChatIntent) {lastPvId lastPv pending : Option UUID}
    (hk : k.Ready) (hintents : ∀ v, .confirm (some v) ∈ intents → v < k.bound)
    (hold : ∀ v ∈ lastPvId, v < k.bound) (hpending : ∀ v ∈ pending, v < k.bound) :
    Lawful (fun k' _ => k.Returned k') (fun _ _ => True) k
      (dispatchIntents chat lastPvId intents lastPv pending) := by
  induction intents generalizing k lastPv pending with
  | nil => exact Follows.pure ⟨hk, le_rfl⟩
  | cons intent rest ih =>
    have hrest : ∀ v, .confirm (some v) ∈ rest → v < k.bound := fun v hv =>
      hintents v (List.mem_cons_of_mem _ hv)
    have hgo : ∀ {k'} {last' pending' : Option UUID}, k.Returned k' → (∀ v ∈ pending', v < k'.bound) →
        Lawful (fun k'' _ => k.Returned k'') (fun _ _ => True) k'
          (dispatchIntents chat lastPvId rest last' pending') := fun hk' hp =>
      (ih hk'.1 (fun v hv => (hrest v hv).trans_le hk'.2) (fun v hv => (hold v hv).trans_le hk'.2) hp).mono
        (fun _ _ h => hk'.trans h) fun _ _ => id
    have hskip : k.Returned k := ⟨hk, le_rfl⟩
    cases intent with
    | confirm pvId =>
      simp only [dispatchIntents]
      split
      · have htarget : ∀ v ∈ pvId.or (lastPvId.or pending), v < k.bound := by
          intro v hv
          rcases Option.or_eq_some_iff.mp hv with rfl | ⟨-, hv⟩
          · exact hintents v List.mem_cons_self
          · rcases Option.or_eq_some_iff.mp hv with hv | ⟨-, hv⟩
            · exact hold v hv
            · exact hpending v hv
        refine Follows.bind (lawful_confirmLatest hk htarget) ?_
        rintro k' ⟨text, committed⟩ hk'
        refine hgo hk' fun v hv => ?_
        split at hv
        · cases hv
        · exact (hpending v hv).trans_le hk'.2
      · exact hgo hskip hpending
    | addProject intent =>
      simp only [dispatchIntents]
      split
      · refine Follows.bind (lawful_buildAddProjectReply hk) ?_
        rintro k' (message | result) ⟨hk', hid⟩
        · exact hgo hk' fun v hv => (hpending v hv).trans_le hk'.2
        · refine hgo hk' fun v hv => ?_
          obtain rfl := Option.some.inj hv
          exact hid result rfl
      · exact hgo hskip hpending

theorem lawful_handleEditText {intents : List ChatIntent} {oldPvId : Option UUID} (hk : k.Ready)
    (hintents : ∀ v, .confirm (some v) ∈ intents → v < k.bound) (hold : ∀ v ∈ oldPvId, v < k.bound) :
    Lawful (fun k' _ => k'.Ready) (fun _ _ => True) k (handleEditText chat intents oldPvId) := by
  refine Follows.bind (lawful_dispatchIntents intents hk hintents hold hold) ?_
  intro k' newPvId hk'
  split
  · split
    · exact Follows.pure hk'.1
    · exact lawful_retirePlan hk'.1 ((hold _ rfl).trans_le hk'.2)
  · exact Follows.pure hk'.1

theorem lawful_handleMessage {intents : List ChatIntent} {pending : Option UUID} (hk : k.Ready)
    (hintents : ∀ v, .confirm (some v) ∈ intents → v < k.bound) (hpending : ∀ v ∈ pending, v < k.bound) :
    Lawful (fun k' _ => k'.Ready) (fun _ _ => True) k (handleMessage chat intents pending) :=
  Follows.bind (lawful_dispatchIntents intents hk hintents (fun _ h => nomatch h) hpending)
    fun _ _ hk' => Follows.pure hk'.1

end Chat

end Planner
