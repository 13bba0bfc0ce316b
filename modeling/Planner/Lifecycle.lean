import Planner.ConfirmPlan
import Planner.Lib.Interleaving
import Planner.PlacementLoop
import Planner.ProposalTables

/-! The life of plan versions as a discipline for the threads that touch it:
what a thread has drawn, seen or decided, and how each operation may move it. -/

namespace Planner

open Program

def Store.confirmAudits (s : Store) (v : UUID) : Nat :=
  s.audit.countP fun a => a.action = "confirm_plan" ∧ a.entityId = some v

/-- The status a project takes from its plan version. -/
def PlanStatus.project : PlanStatus → ProjectStatus
  | .proposed => .planning
  | .committed => .committed
  | .superseded => .cancelled

/-- `free` holds the project and task ids drawn for a proposal, `saw` what was
read about a version, `decided` a transition the project does not show yet;
`logged` says that no audit entry is owed any more. -/
inductive Work
  | free (projects tasks : List UUID)
  | saw (version : UUID) (project : Option UUID)
  | decided (version project : UUID) (status : PlanStatus) (logged : Bool)
  deriving DecidableEq, Repr

/-- Ids below `bound` have been drawn. -/
structure Stage where
  bound : Nat
  work : Work
  deriving DecidableEq, Repr

namespace Stage

def projects (k : Stage) : List UUID :=
  match k.work with
  | .free ps _ => ps
  | _ => []

def tasks (k : Stage) : List UUID :=
  match k.work with
  | .free _ ts => ts
  | _ => []

/-- Nothing is owed. -/
def Ready (k : Stage) : Prop :=
  match k.work with
  | .decided .. => False
  | _ => True

def Owes (k : Stage) (v : UUID) : Prop :=
  match k.work with
  | .decided w _ _ _ => w = v
  | _ => False

/-- A commit whose audit entry is still to come. -/
def owesAudit (v : UUID) (k : Stage) : Bool :=
  match k.work with
  | .decided w _ .committed false => w = v
  | _ => false

end Stage

/-- The tables as far as the life of versions goes do not change. -/
structure Quiet (s s' : Store) : Prop where
  versions : s'.planVersions = s.planVersions
  nextId : s.nextId ≤ s'.nextId
  projects : s'.projects.keys = s.projects.keys
  status : ∀ p, (s'.projects.get? p).map ProjectRow.status = (s.projects.get? p).map ProjectRow.status
  audits : ∀ v, s'.confirmAudits v = s.confirmAudits v

theorem Quiet.refl (s : Store) : Quiet s s := ⟨rfl, le_rfl, rfl, fun _ => rfl, fun _ => rfl⟩

inductive LifecycleMove : Stage → Store → Stage → Store → Prop
  | rest {k : Stage} {s s' : Store} (h : Quiet s s') : LifecycleMove k s k s'
  | draw {k : Stage} {s : Store} (h : k.Ready) :
      LifecycleMove k s ⟨k.bound, .free [s.nextId] []⟩ (s.drawn 1)
  | drawTasks {b n : Nat} {p : UUID} {s : Store} :
      LifecycleMove ⟨b, .free [p] []⟩ s ⟨b, .free [p] (List.range' s.nextId n)⟩ (s.drawn n)
  | create {b : Nat} {p : UUID} {ts : List UUID} {s : Store} {row : ProjectRow}
      (hnew : p ∉ s.projects.keys) (hrow : row.status = .planning) :
      LifecycleMove ⟨b, .free [p] ts⟩ s ⟨b, .free [p] ts⟩ (s.putProject p row)
  | record {b : Nat} {p : UUID} {ts : List UUID} {s : Store} {pv : PlanVersionRow}
      (hp : pv.projectId = p) (hproject : p ∈ s.projects.keys) (hstatus : pv.status = .proposed)
      (hnodup : (pv.payload.assignments.map Assignment.taskId).Nodup)
      (htasks : pv.payload.assignments.map Assignment.taskId ⊆ ts) :
      LifecycleMove ⟨b, .free [p] ts⟩ s ⟨s.nextId + 1, .free [] []⟩ (s.putVersion pv)
  | look {k : Stage} {s : Store} {v : UUID} (h : k.Ready) (hv : v < k.bound) :
      LifecycleMove k s ⟨k.bound, .saw v ((s.planVersions.get? v).map PlanVersionRow.projectId)⟩ s
  | decide {b : Nat} {v p : UUID} {st : PlanStatus} {s : Store} {pv : PlanVersionRow}
      (hv : s.planVersions.get? v = some pv) (hproposed : pv.status = .proposed)
      (hst : st ≠ .proposed) :
      LifecycleMove ⟨b, .saw v (some p)⟩ s ⟨b, .decided v p st (st = .superseded)⟩
        (s.modifyVersion v ({ · with status := st }))
  | log {b : Nat} {v p : UUID} {s : Store} {row : AuditRow}
      (haction : row.action = "confirm_plan") (hentity : row.entityId = some v) :
      LifecycleMove ⟨b, .decided v p .committed false⟩ s ⟨b, .decided v p .committed true⟩
        (s.putAudit row)
  | reflect {b : Nat} {v p : UUID} {st : PlanStatus} {s : Store} :
      LifecycleMove ⟨b, .decided v p st true⟩ s ⟨b, .free [] []⟩
        (s.modifyProject p ({ · with status := st.project }))

/-- What a thread at a stage relies on. -/
def Stage.Knows (s : Store) (k : Stage) : Prop :=
  k.bound ≤ s.nextId ∧
    match k.work with
    | .free _ _ => True
    | .saw v p => v < s.nextId ∧ (s.planVersions.get? v).map PlanVersionRow.projectId = p
    | .decided v p st _ => v < s.nextId ∧ st ≠ .proposed ∧
        ∃ pv, s.planVersions.get? v = some pv ∧ pv.projectId = p ∧ pv.status = st

def lifecycle : Discipline Store Stage := ⟨Stage.Knows, LifecycleMove⟩

/-- A use-case that follows the life of plan versions from stage `k`, with the
database failing at any time. -/
abbrev Lawful {α : Type} (Q : Stage → α → Prop) (E : Stage → PlannerError → Prop) (k : Stage)
    (p : UseCase α) : Prop :=
  p.Follows lifecycle (· = .unavailable) Q E k

section Operations

variable {α : Type} {k : Stage} {E : Stage → PlannerError → Prop}

theorem lawful_call {Q : Stage → α → Prop} {op : Store → Except PlannerError α × Store}
    (hE : E k .unavailable)
    (hop : ∀ s, k.Knows s → ∃ k', LifecycleMove k s k' (op s).2 ∧
      (∀ b, (op s).1 = .ok b → Q k' b) ∧ ∀ e, (op s).1 = .error e → E k' e) :
    Lawful Q E k (.call op) :=
  Follows.call hop fun s _ _ he => ⟨k, .rest (Quiet.refl s), he ▸ hE⟩

theorem lawful_checked {Q : Stage → α → Prop} {c : Store → Prop} [DecidablePred c] {b : Store → α}
    {f : Store → Store} (hE : E k .unavailable) (hI : E k .integrity)
    (hop : ∀ s, k.Knows s → c s → ∃ k', LifecycleMove k s k' (f s) ∧ Q k' (b s)) :
    Lawful Q E k (.call fun s => if c s then (.ok (b s), f s) else (.error .integrity, s)) := by
  refine lawful_call hE fun s hs => ?_
  by_cases hc : c s
  · obtain ⟨k', hm, hq⟩ := hop s hs hc
    simp only [if_pos hc]
    refine ⟨k', hm, fun a ha => ?_, nofun⟩
    obtain rfl := Except.ok.inj ha
    exact hq
  · simp only [if_neg hc]
    refine ⟨k, .rest (Quiet.refl s), nofun, fun e he => ?_⟩
    obtain rfl := Except.error.inj he
    exact hI

theorem lawful_read {Q : Stage → α → Prop} {f : Store → α} (hQ : ∀ a, Q k a)
    (hE : E k .unavailable) : Lawful Q E k (.read f) :=
  lawful_call hE fun s _ => ⟨k, .rest (Quiet.refl s), fun b _ => hQ b, nofun⟩

theorem lawful_bind_read {β : Type} {Q : Stage → β → Prop} {f : Store → α} {g : α → UseCase β}
    (hE : E k .unavailable) (hg : ∀ a, Lawful Q E k (g a)) : Lawful Q E k (.read f >>= g) :=
  Follows.bind (lawful_read (Q := fun k' _ => k = k') (fun _ => rfl) hE) fun _ a hk => hk ▸ hg a

theorem lawful_ofExcept {Q : Stage → α → Prop} {r : Except PlannerError α} (hQ : ∀ a, r = .ok a → Q k a)
    (hE : ∀ e, r = .error e → E k e) : Lawful Q E k (.ofExcept r) := by
  cases r with
  | ok a => exact Follows.pure (hQ a rfl)
  | error e => exact Follows.raise (hE e rfl)

theorem lawful_bind_ofExcept {β : Type} {Q : Stage → β → Prop} {r : Except PlannerError α}
    {g : α → UseCase β} (hE : ∀ e, r = .error e → E k e)
    (hg : ∀ a, r = .ok a → Lawful Q E k (g a)) : Lawful Q E k (.ofExcept r >>= g) :=
  Follows.bind (lawful_ofExcept (Q := fun k' a => k = k' ∧ r = .ok a) (fun _ h => ⟨rfl, h⟩) hE)
    fun _ a h => h.1 ▸ hg a h.2

theorem Quiet.putAudit {s : Store} {row : AuditRow} (h : row.action ≠ "confirm_plan") :
    Quiet s (s.putAudit row) := by
  refine ⟨rfl, le_rfl, rfl, fun _ => rfl, fun v => ?_⟩
  simp [Store.confirmAudits, Store.putAudit, h]

theorem Quiet.modifyProject {s : Store} {p : UUID} {f : ProjectRow → ProjectRow}
    (h : ∀ row, (f row).status = row.status) : Quiet s (s.modifyProject p f) := by
  refine ⟨rfl, le_rfl, OrdDict.keys_modify _ _ _, fun q => ?_, fun _ => rfl⟩
  simp only [Store.modifyProject, OrdDict.get?_modify]
  split
  · rename_i hq
    subst hq
    cases s.projects.get? q <;> simp [h]
  · rfl

theorem lawful_getPlanVersion {v : UUID} (hk : k.Ready) (hv : v < k.bound) (hE : E k .unavailable) :
    Lawful (fun k' pv => k' = ⟨k.bound, .saw v (pv.map PlanVersionRecord.projectId)⟩) E k
      (Repo.getPlanVersion v) := by
  refine lawful_call hE fun s _ => ⟨_, .look hk hv, fun pv h => ?_, nofun⟩
  obtain rfl := Except.ok.inj h
  simp only [Option.map_map, Function.comp_def]

theorem lawful_transition {b : Nat} {v : UUID} {project : Option UUID} {st : PlanStatus}
    (hst : st ≠ .proposed) (hE : E ⟨b, .saw v project⟩ .unavailable) :
    Lawful (fun k' moved =>
        (moved = true ∧ ∃ p, project = some p ∧ k' = ⟨b, .decided v p st (st = .superseded)⟩) ∨
          moved = false ∧ k' = ⟨b, .saw v project⟩) E ⟨b, .saw v project⟩
      (Repo.transitionPlanStatus v .proposed st) := by
  refine lawful_call hE fun s hs => ?_
  obtain ⟨-, -, hproject⟩ := hs
  by_cases hc : ((s.planVersions.get? v).any fun pv => pv.status = .proposed) = true
  · obtain ⟨pv, hv, hpv⟩ := (Option.any_eq_true _ _).mp hc
    have hpv := of_decide_eq_true hpv
    rw [hv] at hproject
    simp only [hc, if_true]
    refine ⟨_, ?_, fun b hb => Or.inl ⟨(Except.ok.inj hb).symm, pv.projectId, hproject.symm, rfl⟩,
      fun _ h => by cases h⟩
    rw [← hproject]
    exact .decide hv hpv hst
  · simp only [hc]
    exact ⟨_, .rest (Quiet.refl s), fun b hb => Or.inr ⟨(Except.ok.inj hb).symm, rfl⟩,
      fun _ h => by cases h⟩

theorem lawful_setProjectStatus {b : Nat} {v p : UUID} (st : PlanStatus)
    (hE : E ⟨b, .decided v p st true⟩ .unavailable) :
    Lawful (fun k' _ => k' = ⟨b, .free [] []⟩) E ⟨b, .decided v p st true⟩
      (Repo.setProjectStatus p st.project) :=
  lawful_call hE fun _ _ => ⟨_, .reflect, fun _ _ => rfl, nofun⟩

end Operations

/-- Versions stay, and keep their decision. -/
structure Store.Later (s s' : Store) : Prop where
  nextId : s.nextId ≤ s'.nextId
  project : ∀ v < s.nextId, (s'.planVersions.get? v).map PlanVersionRow.projectId =
    (s.planVersions.get? v).map PlanVersionRow.projectId
  decided : ∀ v < s.nextId, ∀ pv, s.planVersions.get? v = some pv → pv.status ≠ .proposed →
    (s'.planVersions.get? v).map PlanVersionRow.status = some pv.status

theorem Store.Later.refl (s : Store) : s.Later s :=
  ⟨le_rfl, fun _ _ => rfl, fun _ _ _ h _ => by rw [h]; rfl⟩

theorem Store.Later.of_eq {s s' : Store} (h : s.nextId ≤ s'.nextId)
    (hv : s'.planVersions = s.planVersions) : s.Later s' :=
  ⟨h, fun _ _ => by rw [hv], fun _ _ _ hg _ => by rw [hv, hg]; rfl⟩

theorem Store.Later.trans {s t u : Store} (h : s.Later t) (h' : t.Later u) : s.Later u := by
  refine ⟨h.nextId.trans h'.nextId, fun v hv => ?_, fun v hv pv hg hpv => ?_⟩
  · exact (h'.project v (hv.trans_le h.nextId)).trans (h.project v hv)
  · obtain ⟨pv', hg', hst⟩ := Option.map_eq_some_iff.mp (h.decided v hv pv hg hpv)
    rw [← hst]
    exact h'.decided v (hv.trans_le h.nextId) pv' hg' (hst ▸ hpv)

theorem LifecycleMove.later {k k' : Stage} {s s' : Store} (h : LifecycleMove k s k' s') :
    s.Later s' := by
  cases h with
  | rest h => exact .of_eq h.nextId h.versions
  | draw => exact .of_eq (Nat.le_add_right _ _) rfl
  | drawTasks => exact .of_eq (Nat.le_add_right _ _) rfl
  | create => exact .of_eq le_rfl rfl
  | look => exact .refl s
  | log => exact .of_eq le_rfl rfl
  | reflect => exact .of_eq le_rfl rfl
  | record =>
    have hget : ∀ v < s.nextId, ∀ row, (s.planVersions.insert s.nextId row).get? v =
        s.planVersions.get? v := fun v hv row => OrdDict.get?_insert_of_ne _ row (Nat.ne_of_lt hv)
    exact ⟨Nat.le_succ _, fun v hv => by simp only [Store.putVersion, hget v hv],
      fun v hv pv hg _ => by simp only [Store.putVersion, hget v hv, hg, Option.map_some]⟩
  | @decide b v p st _ pv hv hproposed hst =>
    refine ⟨le_rfl, fun w _ => ?_, fun w _ pw hg hpw => ?_⟩
    · simp only [Store.modifyVersion, OrdDict.get?_modify]
      split
      · rename_i hw
        simp only [hw, Option.map_map, Function.comp_def]
      · rfl
    · have hne : w ≠ v := by
        rintro rfl
        exact hpw (Option.some.inj (hg.symm.trans hv) ▸ hproposed)
      simp only [Store.modifyVersion, OrdDict.get?_modify_of_ne _ _ hne, hg, Option.map_some]

/-- What a stage relies on stays true while others move. -/
theorem Stage.Knows.later {k : Stage} {s s' : Store} (h : k.Knows s) (hs : s.Later s') :
    k.Knows s' := by
  obtain ⟨hb, hw⟩ := h
  refine ⟨hb.trans hs.nextId, ?_⟩
  cases hk : k.work with
  | free => trivial
  | saw v p =>
    rw [hk] at hw
    exact ⟨hw.1.trans_le hs.nextId, (hs.project v hw.1).trans hw.2⟩
  | decided v p st logged =>
    rw [hk] at hw
    obtain ⟨hv, hst, pv, hg, rfl, rfl⟩ := hw
    have hproject := hs.project v hv
    have hstatus := hs.decided v hv pv hg hst
    rw [hg] at hproject
    obtain ⟨pv', hg', hp'⟩ := Option.map_eq_some_iff.mp hproject
    rw [hg'] at hstatus
    exact ⟨hv.trans_le hs.nextId, hst, pv', hg', hp', Option.some.inj hstatus⟩

theorem LifecycleMove.knows {k k' : Stage} {s s' : Store} (h : LifecycleMove k s k' s')
    (hk : k.Knows s) : k'.Knows s' := by
  cases h with
  | rest h => exact hk.later (.of_eq h.nextId h.versions)
  | draw => exact ⟨hk.1.trans (Nat.le_add_right _ _), trivial⟩
  | drawTasks => exact ⟨hk.1.trans (Nat.le_add_right _ _), trivial⟩
  | create => exact ⟨hk.1, trivial⟩
  | record => exact ⟨le_rfl, trivial⟩
  | look _ hv => exact ⟨hk.1, hv.trans_le hk.1, rfl⟩
  | log => exact hk
  | reflect => exact ⟨hk.1, trivial⟩
  | @decide b v p st _ pv hv hproposed hst =>
    obtain ⟨hb, hlt, hp⟩ := hk
    refine ⟨hb, hlt, hst, { pv with status := st }, ?_, ?_, rfl⟩
    · simp only [Store.modifyVersion, OrdDict.get?_modify_self, hv, Option.map_some]
    · rw [hv] at hp
      exact Option.some.inj hp

end Planner
