import Planner.EditLoop
import Planner.Standing

/-! Runs of the edit loop. While it is armed, the pending proposal is the only
one of its chain that is still open, as long as no message makes two. -/

namespace Planner

open Program

section Dispatch

variable {U : CharTables} {chat : Chat} {s s' : Store}

theorem aside_then {α β : Type} {p : UseCase α} (hp : p.Keeps (Aside s)) {x : β} {r : Except PlannerError β}
    (h : (p >>= fun _ => Pure.pure x).run s = (r, s')) : Aside s s' ∧ (r = .ok x ∨ ∃ e, r = .error e) := by
  have haside := (hp.bind fun _ => Keeps.pure x).run (Aside.refl s)
  rw [h] at haside
  refine ⟨haside, ?_⟩
  rw [run_bind] at h
  split at h
  · rw [run_pure] at h
    exact Or.inl (Prod.mk.inj h).1.symm
  · exact Or.inr ⟨_, (Prod.mk.inj h).1.symm⟩

theorem confirmLatest_run (hids : s.VersionIds) {sink : Option TaskSink} {actor : Option PersonRecord}
    (hknown : s.knows (actor.map PersonRecord.id)) (target : Option UUID) :
    (∃ text, (confirmLatest sink target actor).run s = (.ok (text, false), s)) ∨
      ∃ w p text s', target = some w ∧ s.standing w = some (p, .proposed) ∧ Decided w p .committed s s' ∧
        (confirmLatest sink target actor).run s = (.ok (text, true), s') := by
  cases target with
  | none => exact Or.inl ⟨_, rfl⟩
  | some w =>
    cases actor with
    | none => exact Or.inl ⟨_, rfl⟩
    | some actor =>
      rcases confirmAnswer_run sink w hids hknown "План не найден или уже зафиксирован." with
        ⟨-, hrun⟩ | ⟨p, text, s', hw, hd, hrun⟩
      · exact Or.inl ⟨_, hrun⟩
      · exact Or.inr ⟨w, p, text, s', rfl, hw, hd, hrun⟩

/-- An intent happens aside, commits the version it names, or adds a proposal. -/
theorem dispatchIntent_cases {lastPvId : Option UUID} {fsm : ChatState} {intent : Intent}
    {r : Except PlannerError (ChatState × Option UUID)} (hids : s.VersionIds)
    (hknown : s.knows (chat.actor.map PersonRecord.id))
    (h : (dispatchIntent U chat lastPvId fsm intent).run s = (r, s')) :
    (Aside s s' ∧ (r = .ok (fsm, none) ∨ ∃ e, r = .error e)) ∨
      (∃ pvId w p, intent = .confirm pvId ∧ pvId.or (lastPvId.or fsm.pendingPvId) = some w ∧
        s.standing w = some (p, .proposed) ∧ Decided w p .committed s s' ∧ r = .ok (.cleared, none)) ∨
      ∃ w p, Added w p s s' ∧ r = .ok ({ fsm with pendingPvId := some w }, some w) := by
  have hnothing : (Pure.pure (fsm, none) : UseCase (ChatState × Option UUID)).run s = (r, s') →
      (Aside s s' ∧ (r = .ok (fsm, none) ∨ ∃ e, r = .error e)) := by
    intro h
    obtain ⟨hr, rfl⟩ := Prod.mk.inj h
    exact ⟨.refl s, Or.inl hr.symm⟩
  unfold dispatchIntent at h
  split at h
  swap
  · exact Or.inl (hnothing h)
  split at h
  · -- a confirmation
    rename_i pvId _
    rcases @confirmLatest_run s hids chat.taskSink chat.actor hknown (pvId.or (lastPvId.or fsm.pendingPvId)) with
      ⟨text, hrun⟩ | ⟨w, p, text, s₁, htarget, hw, hd, hrun⟩
    · rw [run_bind_of_ok hrun] at h
      exact Or.inl (hnothing h)
    · rw [run_bind_of_ok hrun] at h
      obtain ⟨hr, rfl⟩ := Prod.mk.inj h
      exact Or.inr (Or.inl ⟨pvId, w, p, rfl, htarget, hw, hd, hr.symm⟩)
  · exact Or.inl (aside_then (captureTask_aside U _ _ _) h)
  · exact Or.inl (aside_then ((Aside.indifferent s).buildAssignReply U _ _ _) h)
  · -- a proposal
    rename_i intent actor _ _
    rw [run_bind] at h
    rcases buildAddProjectReply_cases (Prod.mk.eta (p := (buildAddProjectReply chat.solver intent (some actor)
      chat.today chat.projectSink).run s)).symm with ⟨hnone, habandoned⟩ | ⟨result, template, hr, -, -, hproposed⟩
    · have haside := habandoned.aside
      split at h
      · rename_i reply s₁ hrun
        rw [hrun] at hnone haside
        cases reply with
        | ok result => exact absurd rfl (hnone result)
        | error message =>
          obtain ⟨hr, rfl⟩ := Prod.mk.inj h
          exact Or.inl ⟨haside, Or.inl hr.symm⟩
      · rename_i e s₁ hrun
        rw [hrun] at haside
        obtain ⟨hr, rfl⟩ := Prod.mk.inj h
        exact Or.inl ⟨haside, Or.inr ⟨e, hr.symm⟩⟩
    · rw [show (buildAddProjectReply chat.solver intent (some actor) chat.today chat.projectSink).run s =
        (.ok (.ok result), _) from Prod.ext hr rfl] at h
      obtain ⟨hr', hs⟩ := Prod.mk.inj h
      exact Or.inr (Or.inr ⟨result.planVersionId, result.project.id, hs ▸ hproposed.added hids, hr'.symm⟩)
  · exact Or.inl (hnothing h)

end Dispatch

def Store.IsCommitted (s : Store) (v : UUID) : Prop := ∃ p, s.standing v = some (p, .committed)

/-- Superseded, with its project cancelled. -/
def Store.IsRetired (s : Store) (v : UUID) : Prop :=
  ∃ p, s.standing v = some (p, .superseded) ∧ s.projectStatus p = some .cancelled

def Store.Settled (s : Store) (v : UUID) : Prop := s.IsCommitted v ∨ s.IsRetired v

theorem Store.Settled.not_proposed {s : Store} {v : UUID} (h : s.Settled v) : ¬ s.IsProposed v := by
  intro hv
  obtain ⟨p, hp⟩ := Store.isProposed_iff.mp hv
  rcases h with ⟨q, hq⟩ | ⟨q, hq, -⟩ <;> exact absurd (hp.symm.trans hq) nofun

namespace Store.Settled

variable {s s' : Store} {w : UUID}

theorem aside (h : s.Settled w) (hids : s.VersionIds) (ha : Aside s s') : s'.Settled w := by
  rcases h with ⟨p, hw⟩ | ⟨p, hw, hp⟩
  · exact Or.inl ⟨p, (ha.standing w).trans hw⟩
  · exact Or.inr ⟨p, (ha.standing w).trans hw, ((ha.projects p (hids.project w p _ hw)).2).trans hp⟩

theorem added (h : s.Settled w) (hids : s.VersionIds) {v q : UUID} (ha : Added v q s s') : s'.Settled w := by
  rcases h with ⟨p, hw⟩ | ⟨p, hw, hp⟩
  · have hne : w ≠ v := fun he => ha.new (he ▸ Store.mem_versions_of_standing hw)
    exact Or.inl ⟨p, (ha.standing_of_ne w hne).trans hw⟩
  · have hne : w ≠ v := fun he => ha.new (he ▸ Store.mem_versions_of_standing hw)
    exact Or.inr ⟨p, (ha.standing_of_ne w hne).trans hw, ((ha.projects p (hids.project w p _ hw)).2).trans hp⟩

theorem decided (h : s.Settled w) (hids : s.VersionIds) {v q : UUID} {st st₀ : PlanStatus}
    (hv : s.standing v = some (q, st₀)) (hd : Decided v q st s s') (hne : w ≠ v) : s'.Settled w := by
  rcases h with ⟨p, hw⟩ | ⟨p, hw, hp⟩
  · exact Or.inl ⟨p, (hd.standing_of_ne w hne).trans hw⟩
  · -- its project is another one
    have hpq : p ≠ q := fun he => hne (hids.distinct w v q _ _ (he ▸ hw) hv)
    exact Or.inr ⟨p, (hd.standing_of_ne w hne).trans hw, (hd.status_of_ne p hpq).trans hp⟩

end Store.Settled

/-- The middle of a message about the proposal `v`: what the intents so far have
done to the tables `s₀` and the state `fsm₀` it began with. -/
structure Midway (s₀ : Store) (fsm₀ : ChatState) (v : UUID) (proposals : List UUID) (s : Store) (fsm : ChatState)
    (lastPv : Option UUID) : Prop where
  ids : s.VersionIds
  people : s.people = s₀.people
  mem : ∀ w ∈ proposals, w ∈ s₀.planVersions.keys
  settled : ∀ w ∈ proposals, w ≠ v → s.Settled w
  current : (s.IsProposed v ∧ (lastPv = none → fsm = fsm₀ ∧ ∀ w, s.standing w = s₀.standing w)) ∨
    s.IsCommitted v ∧ (lastPv = none → fsm = .cleared)
  unmade : lastPv = none → s.planVersions.keys = s₀.planVersions.keys
  made : ∀ w, lastPv = some w →
    s.planVersions.keys = s₀.planVersions.keys ++ [w] ∧ w ∉ s₀.planVersions.keys ∧ s.IsProposed w

namespace Midway

variable {s₀ s s' : Store} {fsm₀ fsm : ChatState} {v : UUID} {proposals : List UUID} {lastPv : Option UUID}

theorem aside (h : Midway s₀ fsm₀ v proposals s fsm lastPv) (ha : Aside s s') :
    Midway s₀ fsm₀ v proposals s' fsm lastPv := by
  refine ⟨h.ids.aside ha, ha.people.trans h.people, h.mem, fun w hw hne => (h.settled w hw hne).aside h.ids ha, ?_,
    fun hl => ha.versions.trans (h.unmade hl), fun w hw => ?_⟩
  · rcases h.current with ⟨hv, hlast⟩ | ⟨⟨p, hv⟩, hlast⟩
    · refine Or.inl ⟨?_, fun hl => ⟨(hlast hl).1, fun w => (ha.standing w).trans ((hlast hl).2 w)⟩⟩
      rw [Store.isProposed_iff] at hv ⊢
      obtain ⟨p, hp⟩ := hv
      exact ⟨p, (ha.standing v).trans hp⟩
    · exact Or.inr ⟨⟨p, (ha.standing v).trans hv⟩, hlast⟩
  · obtain ⟨hkeys, hnew, hw⟩ := h.made w hw
    refine ⟨ha.versions.trans hkeys, hnew, ?_⟩
    rw [Store.isProposed_iff] at hw ⊢
    obtain ⟨p, hp⟩ := hw
    exact ⟨p, (ha.standing w).trans hp⟩

theorem committed (h : Midway s₀ fsm₀ v proposals s fsm lastPv) (hv₀ : v ∈ s₀.planVersions.keys) {p : UUID}
    (hv : s.standing v = some (p, .proposed)) (hd : Decided v p .committed s s') :
    Midway s₀ fsm₀ v proposals s' .cleared lastPv := by
  refine ⟨h.ids.decided hv hd, hd.people.trans h.people, h.mem,
    fun w hw hne => (h.settled w hw hne).decided h.ids hv hd hne, Or.inr ⟨⟨p, hd.standing⟩, fun _ => rfl⟩,
    fun hl => hd.versions.trans (h.unmade hl), fun w hw => ?_⟩
  obtain ⟨hkeys, hnew, hproposed⟩ := h.made w hw
  refine ⟨hd.versions.trans hkeys, hnew, ?_⟩
  have hne : w ≠ v := fun he => hnew (he ▸ hv₀)
  rw [Store.isProposed_iff] at hproposed ⊢
  obtain ⟨q, hq⟩ := hproposed
  exact ⟨q, (hd.standing_of_ne w hne).trans hq⟩

theorem added (h : Midway s₀ fsm₀ v proposals s fsm none) (hv₀ : v ∈ s₀.planVersions.keys) {w p : UUID}
    (ha : Added w p s s') (fsm' : ChatState) : Midway s₀ fsm₀ v proposals s' fsm' (some w) := by
  have hkeys := h.unmade rfl
  have hnew : w ∉ s₀.planVersions.keys := hkeys ▸ ha.new
  have hne : v ≠ w := fun he => hnew (he ▸ hv₀)
  refine ⟨h.ids.added ha, ha.people.trans h.people, h.mem, fun u hu hne => (h.settled u hu hne).added h.ids ha, ?_,
    nofun, fun u hu => ?_⟩
  · rcases h.current with ⟨hv, -⟩ | ⟨⟨q, hv⟩, -⟩
    · refine Or.inl ⟨?_, nofun⟩
      rw [Store.isProposed_iff] at hv ⊢
      obtain ⟨q, hq⟩ := hv
      exact ⟨q, (ha.standing_of_ne v hne).trans hq⟩
    · exact Or.inr ⟨⟨q, (ha.standing_of_ne v hne).trans hv⟩, nofun⟩
  · obtain rfl := Option.some.inj hu
    exact ⟨by rw [ha.versions, hkeys], hnew, Store.isProposed_iff.mpr ⟨p, ha.standing⟩⟩

end Midway

/-- Once an intent has led to a proposal, no other one does, and none raises; and
no confirmation names an open version other than the one being edited. -/
def Orderly (U : CharTables) (chat : Chat) (oldPvId : Option UUID) : Bool → List Intent → ChatState → Store → Prop
  | _, [], _, _ => True
  | made, intent :: rest, fsm, s =>
    (∀ w, intent = .confirm (some w) → some w = oldPvId ∨ ¬ s.IsProposed w) ∧
    match (dispatchIntent U chat oldPvId fsm intent).run s with
    | (.error _, _) => made = false
    | (.ok (fsm', none), s') => Orderly U chat oldPvId made rest fsm' s'
    | (.ok (fsm', some _), s') => made = false ∧ Orderly U chat oldPvId true rest fsm' s'

section Messages

variable {U : CharTables} {chat : Chat} {s₀ s : Store} {fsm₀ fsm : ChatState} {v : UUID} {proposals : List UUID}
  {lastPv : Option UUID}

theorem dispatchAll_midway (intents : List Intent) (hknown : s₀.knows (chat.actor.map PersonRecord.id))
    (hv₀ : v ∈ s₀.planVersions.keys) (h : Midway s₀ fsm₀ v proposals s fsm lastPv)
    (horderly : Orderly U chat (some v) lastPv.isSome intents fsm s) :
    ∃ fsm' r s', (dispatchAll U chat (some v) intents fsm lastPv).run s = (.ok (fsm', r), s') ∧
      ((∃ lastPv', r = .ok lastPv' ∧ Midway s₀ fsm₀ v proposals s' fsm' lastPv') ∨
        ∃ e, r = .error e ∧ Midway s₀ fsm₀ v proposals s' fsm' none) := by
  induction intents generalizing s fsm lastPv with
  | nil => exact ⟨fsm, _, s, rfl, Or.inl ⟨lastPv, rfl, h⟩⟩
  | cons intent rest ih =>
    have hknown' : s.knows (chat.actor.map PersonRecord.id) := by
      intro p hp
      rw [h.people]
      exact hknown p hp
    obtain ⟨hnames, hstep⟩ := horderly
    rcases hr : (dispatchIntent U chat (some v) fsm intent).run s with ⟨r, s₁⟩
    rw [hr] at hstep
    simp only [dispatchAll, run_bind, run_attempt, hr]
    rcases dispatchIntent_cases h.ids hknown' hr with
      ⟨haside, rfl | ⟨e, rfl⟩⟩ | ⟨pvId, w, p, rfl, htarget, hw, hd, rfl⟩ | ⟨w, p, ha, rfl⟩
    · exact ih (h.aside haside) hstep
    · have hnone : lastPv = none := by simpa using hstep
      subst hnone
      exact ⟨fsm, _, s₁, rfl, Or.inr ⟨e, rfl, h.aside haside⟩⟩
    · have hwv : w = v := by
        cases pvId with
        | none =>
          simp only [Option.none_or, Option.some_or, Option.some.injEq] at htarget
          exact htarget.symm
        | some u =>
          simp only [Option.some_or, Option.some.injEq] at htarget
          subst htarget
          rcases hnames u rfl with hu | hu
          · exact Option.some.inj hu
          · exact absurd (Store.isProposed_iff.mpr ⟨p, hw⟩) hu
      subst hwv
      exact ih (h.committed hv₀ hw hd) hstep
    · obtain ⟨hmade, hrest⟩ := hstep
      have hnone : lastPv = none := by simpa using hmade
      subst hnone
      exact ih (h.added hv₀ ha _) hrest

end Messages

end Planner
