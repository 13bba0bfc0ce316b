import Mathlib.Data.List.Permutation
import Planner.CommittedVersion
import Planner.Lib.Interleaving

/-! Two edits of one committed plan at a time. Each reads the whole payload and
later writes the whole payload back, with no lock in between. -/

namespace Planner

open Program

/-- The calls that edit one task of a committed plan. -/
inductive PlanEdit
  | reassign (taskId newPersonId : UUID)
  | schedule (taskId : UUID) (start end_ : Option Date)
  deriving DecidableEq, Repr

namespace PlanEdit

def taskId : PlanEdit → UUID
  | .reassign taskId _ => taskId
  | .schedule taskId _ _ => taskId

def edit : PlanEdit → Assignment → Assignment
  | .reassign _ newPersonId => fun a =>
    { a with
      personId := newPersonId
      allocations := a.allocations.map ({ · with personId := newPersonId }) }
  | .schedule _ start end_ => fun a =>
    { a with startDate := start.getD a.startDate, endDate := end_.getD a.endDate }

def call : PlanEdit → UseCase Bool
  | .reassign taskId newPersonId => Repo.reassignInPlan taskId newPersonId
  | .schedule taskId start end_ => Repo.updateScheduleInPlan taskId start end_

theorem taskId_edit (e : PlanEdit) (a : Assignment) : (e.edit a).taskId = a.taskId := by
  cases e <;> rfl

theorem call_eq (e : PlanEdit) : e.call = Repo.editInPlan e.taskId e.edit := by
  cases e <;> rfl

end PlanEdit

/-- The payload that holds the task, as the session loads it. -/
def Store.loadPlan (s : Store) (taskId : UUID) : Option (UUID × Payload) :=
  (s.committedVersionOf taskId).bind fun v => (s.planVersions.get? v).map fun pv => (v, pv.payload)

/-- The session writes a column only if its value has changed. -/
def Store.flushPayload (s : Store) (v : UUID) (loaded edited : Payload) : Store :=
  if edited = loaded then s else s.modifyVersion v ({ · with payload := edited })

def PlanEdit.writeBack (e : PlanEdit) (v : UUID) (loaded : Payload) : UseCase Bool :=
  .call fun s => (.ok true, s.flushPayload v loaded (loaded.editTask e.taskId e.edit))

/-- A call as the database sees it: a select, and the update at the commit. -/
def PlanEdit.transaction (e : PlanEdit) : UseCase Bool := do
  match ← Program.read (Store.loadPlan · e.taskId) with
  | none => Pure.pure false
  | some (v, loaded) => e.writeBack v loaded

namespace Store

variable {s : Store} {v : UUID} {pv : PlanVersionRow} {taskId : UUID}

theorem loadPlan_eq (h : s.committedVersionOf taskId = some v) (hv : s.planVersions.get? v = some pv) :
    s.loadPlan taskId = some (v, pv.payload) := by
  rw [loadPlan, h, Option.bind_some, hv, Option.map_some]

theorem get?_flushPayload (hv : s.planVersions.get? v = some pv) (loaded edited : Payload) :
    ((s.flushPayload v loaded edited).planVersions.get? v).map PlanVersionRow.payload =
      some (if edited = loaded then pv.payload else edited) := by
  unfold flushPayload
  split
  · rw [hv, Option.map_some]
  · rw [modifyVersion, OrdDict.get?_modify_self, hv, Option.map_some, Option.map_some]

theorem committedVersionOf_modify (hv : s.planVersions.get? v = some pv) {edited : Payload}
    (h : edited.mentions taskId = pv.payload.mentions taskId) :
    (s.modifyVersion v ({ · with payload := edited })).committedVersionOf taskId = s.committedVersionOf taskId := by
  obtain ⟨pre, post, he, hmodify⟩ := OrdDict.modify_split hv
  simp only [committedVersionOf, modifyVersion, hmodify, he, List.find?_append, List.find?_cons, h]
  cases pre.find? fun e => decide (e.2.status = .committed ∧ e.2.payload.mentions taskId = true) with
  | some e => rfl
  | none =>
    cases decide (pv.status = .committed ∧ pv.payload.mentions taskId = true) <;> rfl

theorem loadPlan_flushPayload (h : s.committedVersionOf taskId = some v) (hv : s.planVersions.get? v = some pv)
    {edited : Payload} (hm : edited.mentions taskId = pv.payload.mentions taskId) :
    (s.flushPayload v pv.payload edited).loadPlan taskId = some (v, edited) := by
  unfold flushPayload
  split
  · rename_i heq
    rw [loadPlan_eq h hv, heq]
  · have hv' : (s.modifyVersion v ({ · with payload := edited })).planVersions.get? v =
        some { pv with payload := edited } := by
      rw [modifyVersion, OrdDict.get?_modify_self, hv, Option.map_some]
    exact loadPlan_eq ((committedVersionOf_modify hv hm).trans h) hv'

end Store

/-- Left alone, a transaction is the call. -/
theorem PlanEdit.transaction_run (e : PlanEdit) (s : Store) : e.transaction.run s = e.call.run s := by
  rw [e.call_eq]
  simp only [PlanEdit.transaction, Repo.editInPlan, run_bind, run_read, run_call]
  cases h : s.committedVersionOf e.taskId with
  | none =>
    rw [Store.loadPlan, h]
    rfl
  | some v =>
    obtain ⟨pv, hv, -, -⟩ := Store.WF.committedVersionOf_spec h
    rw [Store.loadPlan_eq h hv]
    simp only [PlanEdit.writeBack, run_call, Store.flushPayload]
    split
    · rename_i heq
      have hself : s.planVersions.modify v (fun pv => { pv with payload := pv.payload.editTask e.taskId e.edit }) =
          s.planVersions := OrdDict.modify_eq_self hv (by rw [heq])
      rw [Store.modifyVersion, hself]
    · have hcongr : s.planVersions.modify v ({ · with payload := pv.payload.editTask e.taskId e.edit }) =
          s.planVersions.modify v (fun pv => { pv with payload := pv.payload.editTask e.taskId e.edit }) :=
        OrdDict.modify_congr hv rfl
      rw [Store.modifyVersion, Store.modifyVersion, hcongr]

namespace Payload

/-- The edit's effect on the assignments of its task. -/
def Carries (q p : Payload) (e : PlanEdit) : Prop :=
  q.assignments.filter (·.taskId = e.taskId) = (p.assignments.filter (·.taskId = e.taskId)).map e.edit

variable {p : Payload} {e : PlanEdit} {taskId : UUID} {f : Assignment → Assignment}

theorem filter_editTask (hf : ∀ a, (f a).taskId = a.taskId) (u : UUID) :
    (p.editTask taskId f).assignments.filter (·.taskId = u) =
      (p.assignments.filter (·.taskId = u)).map fun a => if a.taskId = taskId then f a else a := by
  simp only [editTask, List.filter_map]
  refine congrArg _ (List.filter_congr fun a _ => ?_)
  simp only [Function.comp_apply]
  split
  · rw [hf]
  · rfl

theorem filter_editTask_of_ne (hf : ∀ a, (f a).taskId = a.taskId) {u : UUID} (h : u ≠ taskId) :
    (p.editTask taskId f).assignments.filter (·.taskId = u) = p.assignments.filter (·.taskId = u) := by
  rw [filter_editTask hf]
  refine (List.map_congr_left fun a ha => ?_).trans (List.map_id _)
  have hu : a.taskId = u := by simpa using (List.mem_filter.mp ha).2
  exact if_neg fun he => h (hu.symm.trans he)

theorem mentions_editTask (hf : ∀ a, (f a).taskId = a.taskId) (u : UUID) :
    (p.editTask taskId f).mentions u = p.mentions u := by
  have hiff : (p.editTask taskId f).mentions u = true ↔ p.mentions u = true := by
    rw [mentions_iff, mentions_iff, ← List.mem_map, ← List.mem_map, map_taskId_editTask hf]
  exact Bool.eq_iff_iff.mpr hiff

theorem carries_edit (p : Payload) (e : PlanEdit) : (p.editTask e.taskId e.edit).Carries p e := by
  rw [Carries, filter_editTask e.taskId_edit]
  refine List.map_congr_left fun a ha => if_pos ?_
  simpa using (List.mem_filter.mp ha).2

/-- The plan as it was carries an edit that changes nothing. -/
theorem carries_self_iff : p.Carries p e ↔ p.editTask e.taskId e.edit = p := by
  constructor
  · intro h
    have hid : ∀ a ∈ p.assignments, (if a.taskId = e.taskId then e.edit a else a) = a := by
      intro a ha
      split
      · rename_i he
        have hm : a ∈ p.assignments.filter (·.taskId = e.taskId) := List.mem_filter.mpr ⟨ha, by simpa using he⟩
        exact List.map_inj_left.mp (h.symm.trans (List.map_id _).symm) a hm
      · rfl
    simp only [editTask, List.map_congr_left hid, List.map_id']
  · intro h
    have hcarries := carries_edit p e
    rwa [h] at hcarries

end Payload

def PlanEdit.thread (e : PlanEdit) : UseCase Unit := e.transaction >>= fun _ => Pure.pure ()

/-- A thread that has loaded the payload. -/
def PlanEdit.writing (e : PlanEdit) (v : UUID) (loaded : Payload) : UseCase Unit :=
  e.writeBack v loaded >>= fun _ => Pure.pure ()

/-- Two calls at once. -/
def editing (e₁ e₂ : PlanEdit) (s : Store) : Config Store PlannerError := ⟨s, [e₁.thread, e₂.thread]⟩

section Turns

variable {c : Config Store PlannerError} {i j : Nat} {e e' : PlanEdit} {v : UUID} {pv : PlanVersionRow}

theorem turn_read {loaded : Payload} (hi : c.threads[i]? = some e.thread)
    (h : c.state.loadPlan e.taskId = some (v, loaded)) :
    c.turn i = ⟨c.state, c.threads.set i (e.writing v loaded)⟩ := by
  have hnext : (match c.state.loadPlan e.taskId with
      | none => Pure.pure false
      | some (v, loaded) => e.writeBack v loaded : UseCase Bool) = e.writeBack v loaded := by
    rw [h]
  refine (Config.turn_atomic hi).trans ?_
  exact congrArg (fun p : UseCase Bool => (⟨c.state, c.threads.set i (p >>= fun _ => Pure.pure ())⟩ :
    Config Store PlannerError)) hnext

theorem turn_write {loaded : Payload} (hi : c.threads[i]? = some (e.writing v loaded)) :
    c.turn i = ⟨c.state.flushPayload v loaded (loaded.editTask e.taskId e.edit),
      c.threads.set i (Pure.pure ())⟩ :=
  Config.turn_atomic hi

/-- The second writer has not seen what the first one wrote. -/
theorem play_writes (hij : i ≠ j) (hi : c.threads[i]? = some (e.writing v pv.payload))
    (hj : c.threads[j]? = some (e'.writing v pv.payload)) (hv : c.state.planVersions.get? v = some pv) :
    ((c.play [i, j]).state.planVersions.get? v).map PlanVersionRow.payload =
      some (if pv.payload.editTask e'.taskId e'.edit = pv.payload then pv.payload.editTask e.taskId e.edit
        else pv.payload.editTask e'.taskId e'.edit) := by
  have hj' : (c.threads.set i (Pure.pure ()))[j]? = some (e'.writing v pv.payload) := by
    rw [List.getElem?_set_ne hij, hj]
  rw [Config.play_cons, turn_write hi, Config.play_cons, turn_write hj', Config.play_nil]
  have hfirst := Store.get?_flushPayload hv pv.payload (pv.payload.editTask e.taskId e.edit)
  obtain ⟨pv', hv', hpayload⟩ := Option.map_eq_some_iff.mp hfirst
  rw [Store.get?_flushPayload hv', hpayload]
  split
  · split
    · rename_i h
      rw [h]
    · rfl
  · rfl

/-- Both load the same payload before either writes. -/
theorem play_reads (hij : i ≠ j) (hi : c.threads[i]? = some e.thread) (hj : c.threads[j]? = some e'.thread)
    {loaded : Payload} (h : c.state.loadPlan e.taskId = some (v, loaded))
    (h' : c.state.loadPlan e'.taskId = some (v, loaded)) :
    c.play [i, j] = ⟨c.state, (c.threads.set i (e.writing v loaded)).set j (e'.writing v loaded)⟩ := by
  have hj' : (c.threads.set i (e.writing v loaded))[j]? = some e'.thread := by
    rw [List.getElem?_set_ne hij, hj]
  rw [Config.play_cons, turn_read hi h, Config.play_cons, Config.play_nil]
  exact turn_read (c := ⟨c.state, c.threads.set i (e.writing v loaded)⟩) hj' h'

/-- Whoever reads first, the one that writes first is overwritten. -/
theorem play_stale (hij : i ≠ j) (hi : c.threads[i]? = some e.thread) (hj : c.threads[j]? = some e'.thread)
    (hv : c.state.planVersions.get? v = some pv) (h : c.state.loadPlan e.taskId = some (v, pv.payload))
    (h' : c.state.loadPlan e'.taskId = some (v, pv.payload)) {order : List Nat}
    (horder : order = [i, j, i, j] ∨ order = [j, i, i, j]) :
    ((c.play order).state.planVersions.get? v).map PlanVersionRow.payload =
      some (if pv.payload.editTask e'.taskId e'.edit = pv.payload then pv.payload.editTask e.taskId e.edit
        else pv.payload.editTask e'.taskId e'.edit) := by
  have hreads : c.play order = Config.play ⟨c.state,
      (c.threads.set i (e.writing v pv.payload)).set j (e'.writing v pv.payload)⟩ [i, j] := by
    rcases horder with rfl | rfl
    · exact congrArg (Config.play · [i, j]) (play_reads hij hi hj h h')
    · refine congrArg (Config.play · [i, j]) ((play_reads hij.symm hj hi h' h).trans ?_)
      rw [List.set_comm _ _ hij.symm]
  obtain ⟨hilt, -⟩ := List.getElem?_eq_some_iff.mp hi
  obtain ⟨hjlt, -⟩ := List.getElem?_eq_some_iff.mp hj
  rw [hreads]
  refine play_writes hij ?_ ?_ hv
  · rw [List.getElem?_set_ne hij.symm, List.getElem?_set_self hilt]
  · exact List.getElem?_set_self (by simpa using hjlt)

theorem play_serial (hij : i ≠ j) (hi : c.threads[i]? = some e.thread) (hj : c.threads[j]? = some e'.thread)
    (h : c.state.committedVersionOf e.taskId = some v) (h' : c.state.committedVersionOf e'.taskId = some v)
    (hv : c.state.planVersions.get? v = some pv) :
    ((c.play [i, i, j, j]).state.planVersions.get? v).map PlanVersionRow.payload =
      some ((pv.payload.editTask e.taskId e.edit).editTask e'.taskId e'.edit) := by
  obtain ⟨hilt, -⟩ := List.getElem?_eq_some_iff.mp hi
  have hmentions := @Payload.mentions_editTask pv.payload e.taskId e.edit e.taskId_edit e'.taskId
  have hfirst := Store.get?_flushPayload hv pv.payload (pv.payload.editTask e.taskId e.edit)
  obtain ⟨pv', hv', hpayload⟩ := Option.map_eq_some_iff.mp hfirst
  let wrote : Config Store PlannerError := ⟨c.state.flushPayload v pv.payload (pv.payload.editTask e.taskId e.edit),
    (c.threads.set i (e.writing v pv.payload)).set i (Pure.pure ())⟩
  have hwrote : (c.turn i).turn i = wrote := by
    rw [turn_read hi (Store.loadPlan_eq h hv)]
    exact turn_write (c := ⟨c.state, c.threads.set i (e.writing v pv.payload)⟩) (List.getElem?_set_self hilt)
  have hj' : wrote.threads[j]? = some e'.thread := by
    rw [List.getElem?_set_ne hij, List.getElem?_set_ne hij, hj]
  obtain ⟨hjlt, -⟩ := List.getElem?_eq_some_iff.mp hj'
  have hload := Store.loadPlan_flushPayload h' hv hmentions
  have hread : wrote.turn j = ⟨wrote.state, wrote.threads.set j (e'.writing v (pv.payload.editTask e.taskId e.edit))⟩ :=
    turn_read hj' hload
  rw [Config.play_cons, Config.play_cons, hwrote, Config.play_cons, hread, Config.play_cons, Config.play_nil]
  rw [turn_write (c := ⟨wrote.state, wrote.threads.set j (e'.writing v (pv.payload.editTask e.taskId e.edit))⟩)
    (List.getElem?_set_self hjlt)]
  rw [Store.get?_flushPayload hv']
  split
  · rename_i heq
    rw [heq, hpayload]
    split
    · rename_i hsame
      rw [hsame]
    · rfl
  · rfl

end Turns

theorem turns_cases {order : List Nat} (h : order.Perm [0, 0, 1, 1]) :
    (order = [0, 0, 1, 1] ∨ order = [1, 1, 0, 0]) ∨ (order = [0, 1, 0, 1] ∨ order = [1, 0, 0, 1]) ∨
      order = [1, 0, 1, 0] ∨ order = [0, 1, 1, 0] := by
  have hall : ∀ o ∈ ([0, 0, 1, 1] : List Nat).permutations',
      (o = [0, 0, 1, 1] ∨ o = [1, 1, 0, 0]) ∨ (o = [0, 1, 0, 1] ∨ o = [1, 0, 0, 1]) ∨
        o = [1, 0, 1, 0] ∨ o = [0, 1, 1, 0] := by decide
  exact hall order (List.mem_permutations'.mpr h)

/-- After the turns, the plan carries what both calls wanted. -/
def KeepsBoth (e₁ e₂ : PlanEdit) (s : Store) (v : UUID) (p : Payload) (order : List Nat) : Prop :=
  ∃ q, (((editing e₁ e₂ s).play order).state.planVersions.get? v).map PlanVersionRow.payload = some q ∧
    q.Carries p e₁ ∧ q.Carries p e₂

theorem keepsBoth_iff {e₁ e₂ : PlanEdit} {s : Store} {v : UUID} {p q : Payload} {order : List Nat}
    (h : (((editing e₁ e₂ s).play order).state.planVersions.get? v).map PlanVersionRow.payload = some q) :
    KeepsBoth e₁ e₂ s v p order ↔ q.Carries p e₁ ∧ q.Carries p e₂ := by
  constructor
  · rintro ⟨q', hq', hboth⟩
    obtain rfl := Option.some.inj (h.symm.trans hq')
    exact hboth
  · intro hboth
    exact ⟨q, h, hboth⟩

theorem carries_serial {p : Payload} {e e' : PlanEdit} (hne : e.taskId ≠ e'.taskId) :
    ((p.editTask e.taskId e.edit).editTask e'.taskId e'.edit).Carries p e ∧
      ((p.editTask e.taskId e.edit).editTask e'.taskId e'.edit).Carries p e' := by
  have hfirst := p.carries_edit e
  have hsecond := (p.editTask e.taskId e.edit).carries_edit e'
  simp only [Payload.Carries] at hfirst hsecond ⊢
  constructor
  · rw [Payload.filter_editTask_of_ne e'.taskId_edit hne, hfirst]
  · rw [hsecond, Payload.filter_editTask_of_ne e.taskId_edit hne.symm]

theorem carries_stale {p : Payload} {e e' : PlanEdit} (hne : e.taskId ≠ e'.taskId) :
    ((if p.editTask e'.taskId e'.edit = p then p.editTask e.taskId e.edit
        else p.editTask e'.taskId e'.edit).Carries p e ∧
      (if p.editTask e'.taskId e'.edit = p then p.editTask e.taskId e.edit
        else p.editTask e'.taskId e'.edit).Carries p e') ↔
      p.editTask e.taskId e.edit = p ∨ p.editTask e'.taskId e'.edit = p := by
  split
  · rename_i hsame
    refine iff_of_true ⟨p.carries_edit e, ?_⟩ (Or.inr hsame)
    have hself := Payload.carries_self_iff.mpr hsame
    exact (Payload.filter_editTask_of_ne e.taskId_edit hne.symm).trans hself
  · rename_i hchanges
    have hfirst : (p.editTask e'.taskId e'.edit).Carries p e ↔ p.Carries p e := by
      rw [Payload.Carries, Payload.filter_editTask_of_ne e'.taskId_edit hne, Payload.Carries]
    rw [hfirst, Payload.carries_self_iff]
    constructor
    · rintro ⟨hsame, -⟩
      exact Or.inl hsame
    · rintro (hsame | hsame)
      · exact ⟨hsame, p.carries_edit e'⟩
      · exact absurd hsame hchanges

/-- No edit is lost iff one call is over before the other begins, or one of them
changes nothing. -/
theorem keepsBoth_iff_serial (e₁ e₂ : PlanEdit) (hne : e₁.taskId ≠ e₂.taskId) (s : Store) (v : UUID)
    (pv : PlanVersionRow) (h₁ : s.committedVersionOf e₁.taskId = some v)
    (h₂ : s.committedVersionOf e₂.taskId = some v) (hv : s.planVersions.get? v = some pv) (order : List Nat)
    (horder : order.Perm [0, 0, 1, 1]) :
    KeepsBoth e₁ e₂ s v pv.payload order ↔
      (order = [0, 0, 1, 1] ∨ order = [1, 1, 0, 0]) ∨
        pv.payload.editTask e₁.taskId e₁.edit = pv.payload ∨ pv.payload.editTask e₂.taskId e₂.edit = pv.payload := by
  have hload₁ := Store.loadPlan_eq h₁ hv
  have hload₂ := Store.loadPlan_eq h₂ hv
  have h01 : (0 : Nat) ≠ 1 := by decide
  rcases turns_cases horder with hserial | hstale | hstale
  · refine iff_of_true ?_ (Or.inl hserial)
    rcases hserial with rfl | rfl
    · exact ⟨_, @play_serial (editing e₁ e₂ s) 0 1 e₁ e₂ v pv h01 rfl rfl h₁ h₂ hv, carries_serial hne⟩
    · exact ⟨_, @play_serial (editing e₁ e₂ s) 1 0 e₂ e₁ v pv h01.symm rfl rfl h₂ h₁ hv,
        (carries_serial hne.symm).symm⟩
  · have hnot : ¬ (order = [0, 0, 1, 1] ∨ order = [1, 1, 0, 0]) := by
      rcases hstale with rfl | rfl <;> decide
    rw [keepsBoth_iff (@play_stale (editing e₁ e₂ s) 0 1 e₁ e₂ v pv h01 rfl rfl hv hload₁ hload₂ order hstale),
      carries_stale hne]
    exact (or_iff_right hnot).symm
  · have hnot : ¬ (order = [0, 0, 1, 1] ∨ order = [1, 1, 0, 0]) := by
      rcases hstale with rfl | rfl <;> decide
    rw [keepsBoth_iff (@play_stale (editing e₁ e₂ s) 1 0 e₂ e₁ v pv h01.symm rfl rfl hv hload₂ hload₁ order hstale),
      and_comm, carries_stale hne.symm, or_comm]
    exact (or_iff_right hnot).symm

/-- Two days of work for Anna in one committed plan, and Boris. -/
def twoTasks : Payload := ⟨[⟨4, 1, 1, 1, [⟨1, 1, 8⟩]⟩, ⟨5, 1, 2, 2, [⟨1, 2, 8⟩]⟩], [], some 2⟩

def twoTaskStore : Store where
  people := (OrdDict.empty.insert 1 { name := "Анна" }).insert 2 { name := "Борис" }
  projects := OrdDict.empty.insert 3
    { title := "Ролик", templateId := none, deadline := none, briefReturnDate := none, status := .committed
      createdBy := none }
  tasks := (OrdDict.empty.insert 4
    { projectId := 3, name := "Съёмка", durationHours := 8, startDate := some 1, endDate := some 1 }).insert 5
    { projectId := 3, name := "Монтаж", durationHours := 8, startDate := some 2, endDate := some 2 }
  assignments := (OrdDict.empty.insert (4, 1) 8).insert (5, 1) 8
  planVersions := OrdDict.empty.insert 6
    { projectId := 3, status := .committed, payload := twoTasks, createdBy := none }
  nextId := 7

theorem keepsBoth_iff_serial_twoTasks :
    KeepsBoth (.reassign 4 2) (.reassign 5 2) twoTaskStore 6 twoTasks [0, 0, 1, 1] ↔
      (([0, 0, 1, 1] : List Nat) = [0, 0, 1, 1] ∨ ([0, 0, 1, 1] : List Nat) = [1, 1, 0, 0]) ∨
        twoTasks.editTask 4 (PlanEdit.reassign 4 2).edit = twoTasks ∨
        twoTasks.editTask 5 (PlanEdit.reassign 5 2).edit = twoTasks :=
  keepsBoth_iff_serial (.reassign 4 2) (.reassign 5 2) (by decide) twoTaskStore 6
    ⟨3, .committed, twoTasks, none⟩ rfl rfl rfl [0, 0, 1, 1] (List.Perm.refl _)

/-- Both read, then both write: the first task is still Anna's. -/
theorem overlapping_edit_lost : twoTaskStore.WF ∧ ([0, 1, 0, 1] : List Nat).Perm [0, 0, 1, 1] ∧
    Config.Reaches (fun _ _ => False) (fun _ => False) (editing (.reassign 4 2) (.reassign 5 2) twoTaskStore)
      ((editing (.reassign 4 2) (.reassign 5 2) twoTaskStore).play [0, 1, 0, 1]) ∧
    ¬ KeepsBoth (.reassign 4 2) (.reassign 5 2) twoTaskStore 6 twoTasks [0, 1, 0, 1] := by
  refine ⟨by constructor <;> decide, by decide, Config.reaches_play _ _, ?_⟩
  rintro ⟨q, hq, hfirst, -⟩
  have hlost : (((editing (.reassign 4 2) (.reassign 5 2) twoTaskStore).play [0, 1, 0, 1]).state.planVersions.get?
      6).map PlanVersionRow.payload = some (twoTasks.editTask 5 (PlanEdit.reassign 5 2).edit) := rfl
  obtain rfl := Option.some.inj (hlost.symm.trans hq)
  exact absurd hfirst (by unfold Payload.Carries; decide)

end Planner
