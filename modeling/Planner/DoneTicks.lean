import Planner.TaskMetas

/-! The tick of a finished task on the card of its project. The project is looked up by
its title, which others may have too. -/

namespace Planner

/-- A call of the service that ticks a task on a card. -/
structure CardTick where
  page : String
  taskName : String
  deriving DecidableEq, Repr

/-- The service that ticks a task on a card. -/
structure TickSink where
  markTaskDone : String → String → Except PlannerError Bool

/-- The page of the card, if there is one. -/
def ProjectRow.card (row : ProjectRow) : Option String := row.notionPageId.filter (· ≠ "")

def ProjectRecord.card (record : ProjectRecord) : Option String := record.notionPageId.filter (· ≠ "")

namespace MarkTaskDone

variable (U : CharTables) (sink : Option TickSink)

/-- What is called; whatever is raised is logged and dropped. -/
def tickNotion (taskId : UUID) : UseCase (List CardTick) :=
  match sink with
  | none => pure []
  | some sink => do
    let r ← Program.attempt do
      let metas ← Repo.listTaskMetas
      match metas.find? fun m => m.taskId = taskId with
      | none => pure []
      | some task =>
        match (← Repo.getProjectByTitle U task.projectTitle).bind ProjectRecord.card with
        | none => pure []
        | some page => do
          let _ ← (Program.ofExcept (sink.markTaskDone page task.taskName)).attempt
          pure [⟨page, task.taskName⟩]
    match r with
    | .ok ticks => pure ticks
    | .error _ => pure []

/-- `MarkTaskDoneUseCase.execute`, with what it calls. -/
def execute (taskId : UUID) (actorId : Option UUID) (isAdmin : Bool) (status : String := "done") :
    UseCase (List CardTick) := do
  markTaskDone taskId actorId isAdmin status
  if status = "done" then tickNotion U sink taskId else pure []

end MarkTaskDone

namespace Store

variable (U : CharTables) (s : Store)

/-- The first project with the title. -/
def namesake (title : String) : Option ProjectRow := (s.projectByTitle U title).map Prod.snd

/-- The task on the card of its own project. -/
def ownTicks (taskId : UUID) : List CardTick :=
  match s.tasks.get? taskId with
  | none => []
  | some row => (((s.projects.get? row.projectId).bind ProjectRow.card).map fun page => ⟨page, row.name⟩).toList

/-- The tick goes to the card of the owner, and nowhere else. -/
def TicksOwner (sink : TickSink) (taskId : UUID) (actorId : Option UUID) : Prop :=
  ((MarkTaskDone.execute U (some sink) taskId actorId true "done").run s).1 = .ok (s.ownTicks taskId)

end Store

open Program

section Ticks

variable {U : CharTables} {s : Store} {t : UUID} {row : TaskRow} {owner : ProjectRow}

theorem getProjectByTitle_card (U : CharTables) (title : String) (s : Store) :
    ∃ found, (Repo.getProjectByTitle U title).run s = (.ok found, s) ∧
      found.bind ProjectRecord.card = (s.namesake U title).bind ProjectRow.card := by
  refine ⟨_, run_read _ _, ?_⟩
  rw [Store.namesake, Store.projectByTitle]
  cases s.projects.entries.find? fun e => U.lower e.2.title.toList = U.lower title.toList <;> rfl

/-- Nobody but the first project with the owner's title gets a tick. -/
theorem tickNotion_run (sink : TickSink) (ht : s.tasks.get? t = some row)
    (hp : s.projects.get? row.projectId = some owner) :
    (MarkTaskDone.tickNotion U (some sink) t).run s =
      (.ok ((((s.namesake U owner.title).bind ProjectRow.card).map fun page => ⟨page, row.name⟩).toList), s) := by
  obtain ⟨assignee, hfind⟩ := Store.find_taskMetas ht hp
  obtain ⟨found, hlookup, hcard⟩ := getProjectByTitle_card U owner.title s
  have hmetas : Repo.listTaskMetas.run s = (.ok s.taskMetas, s) := run_read _ _
  have hname : (row.toMeta t owner assignee).projectTitle = owner.title := rfl
  simp only [MarkTaskDone.tickNotion, run_bind, run_attempt, hmetas, hfind, hname, hlookup, hcard]
  cases (s.namesake U owner.title).bind ProjectRow.card with
  | none => rfl
  | some page =>
    have hcall : ∀ r : Except PlannerError Bool, ((Program.ofExcept r).attempt >>= fun _ =>
        (Pure.pure [⟨page, row.name⟩] : UseCase (List CardTick))).run s = (.ok [⟨page, row.name⟩], s) :=
      fun r => by cases r <;> rfl
    have hcalled := hcall (sink.markTaskDone page row.name)
    dsimp only
    rw [show (row.toMeta t owner assignee).taskName = row.name from rfl, hcalled]
    rfl

theorem ownTicks_eq (ht : s.tasks.get? t = some row) (hp : s.projects.get? row.projectId = some owner) :
    s.ownTicks t = (owner.card.map fun page => ⟨page, row.name⟩).toList := by
  rw [Store.ownTicks, ht]
  dsimp only
  rw [hp, Option.bind_some]

theorem ticks_inj (name : String) {a b : Option String} :
    (a.map fun page => CardTick.mk page name).toList = (b.map fun page => CardTick.mk page name).toList ↔ a = b := by
  cases a <;> cases b <;> simp

theorem execute_ticks (sink : TickSink) {actorId : Option UUID} (hknown : s.knows actorId)
    (ht : s.tasks.get? t = some row) (hp : s.projects.get? row.projectId = some owner) :
    ((MarkTaskDone.execute U (some sink) t actorId true "done").run s).1 =
      .ok ((((s.namesake U owner.title).bind ProjectRow.card).map fun page => ⟨page, row.name⟩).toList) := by
  -- neither the mark nor its entry in the audit log touches names and projects
  have hrow : ((s.modifyTask t ({ · with status := .done })).putAudit (Store.markAudit t actorId)).tasks.get? t =
      some { row with status := .done } := by
    change (s.tasks.modify t _).get? t = _
    rw [OrdDict.get?_modify_self, ht]
    rfl
  have htick := @tickNotion_run U _ t _ owner sink hrow hp
  rw [MarkTaskDone.execute, run_bind_of_ok (markTaskDone_run hknown t), if_pos rfl, htick]
  rfl

end Ticks

/-- A tick goes to the owner iff the first project with his title, be it another, has the same card. -/
theorem done_tick_iff (U : CharTables) (s : Store) (sink : TickSink) (t : UUID) (row : TaskRow) (owner : ProjectRow)
    (actorId : Option UUID) (ht : s.tasks.get? t = some row) (hp : s.projects.get? row.projectId = some owner)
    (hknown : s.knows actorId) :
    s.TicksOwner U sink t actorId ↔ (s.namesake U owner.title).bind ProjectRow.card = owner.card := by
  rw [Store.TicksOwner, execute_ticks sink hknown ht hp, ownTicks_eq ht hp, Except.ok.injEq]
  exact ticks_inj row.name

section Editing

def clip (status : ProjectStatus) (page : String) : ProjectRow where
  title := "Ролик"
  templateId := none
  deadline := none
  briefReturnDate := none
  status := status
  notionPageId := some page
  createdBy := none

def clipCutting : TaskRow where
  projectId := 3
  name := "Монтаж"
  durationHours := 8

def clipTeam : Store where
  people := OrdDict.empty.insert 1 { name := "Анна" }
  projects := OrdDict.empty.insert 3 (clip .planning "card-2")
  tasks := OrdDict.empty.insert 4 clipCutting
  nextId := 5

/-- The proposal was edited: the project it replaced is cancelled and has the same title. -/
def editedClip : Store :=
  { clipTeam with projects := (OrdDict.empty.insert 2 (clip .cancelled "card-1")).insert 3 (clip .planning "card-2") }

/-- The service is down. -/
def deafSink : TickSink := ⟨fun _ _ => .error .unavailable⟩

theorem done_tick_iff_clip : clipTeam.TicksOwner .plain deafSink 4 (some 1) ↔
    (clipTeam.namesake .plain "Ролик").bind ProjectRow.card = some "card-2" :=
  done_tick_iff .plain clipTeam deafSink 4 clipCutting (clip .planning "card-2") (some 1) rfl rfl (by decide)

/-- The tick of the live task goes to the card of the cancelled project. -/
theorem tick_goes_astray :
    ¬ ∀ (s : Store) (sink : TickSink) (t : UUID) (row : TaskRow) (owner : ProjectRow) (actorId : Option UUID),
      s.tasks.get? t = some row → s.projects.get? row.projectId = some owner → s.knows actorId →
        s.TicksOwner .plain sink t actorId := by
  intro h
  have howner := h editedClip deafSink 4 clipCutting (clip .planning "card-2") (some 1) rfl rfl (by decide)
  have hastray : ((MarkTaskDone.execute .plain (some deafSink) 4 (some 1) true "done").run editedClip).1 =
      .ok [⟨"card-1", "Монтаж"⟩] := by decide +kernel
  have hticks := Except.ok.inj (hastray.symm.trans howner)
  exact absurd hticks (by decide +kernel)

end Editing

end Planner
