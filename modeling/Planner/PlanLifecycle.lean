import Planner.LifecycleStatus
import Planner.LifecycleThreads

/-! The life of plan versions over all interleavings of confirmations, proposals
and edit loops: one decision per version, shown by its project. -/

namespace Planner

open Program

structure LifecycleInv (s : Store) (m : Multiset Stage) : Prop where
  knows : ∀ k ∈ m, k.Knows s
  ids : DistinctIds s m
  shown : Shown s m
  logged : Logged s m

theorem LifecycleInv.move {s s' : Store} {m : Multiset Stage} {k k' : Stage}
    (h : LifecycleInv s (k ::ₘ m)) (hm : LifecycleMove k s k' s') : LifecycleInv s' (k' ::ₘ m) := by
  have hk := h.knows k (Multiset.mem_cons_self k m)
  refine ⟨fun o ho => ?_, h.ids.move hm, h.shown.move h.ids hk hm, h.logged.move h.ids hm⟩
  rcases Multiset.mem_cons.mp ho with rfl | ho
  · exact hm.knows hk
  · exact (h.knows o (Multiset.mem_cons_of_mem ho)).later hm.later

theorem LifecycleInv.start {s : Store} {m : Multiset Stage} (h : LifecycleInv s m) :
    LifecycleInv s (⟨s.nextId, .free [] []⟩ ::ₘ m) := by
  constructor
  · intro o ho
    rcases Multiset.mem_cons.mp ho with rfl | ho
    · exact ⟨le_rfl, trivial⟩
    · exact h.knows o ho
  · refine { h.ids with owned_lt := fun o ho => ?_, projects_nodup := ?_, tasks_nodup := ?_ }
    · rcases Multiset.mem_cons.mp ho with rfl | ho
      · exact ⟨nofun, nofun⟩
      · exact h.ids.owned_lt o ho
    · rw [Multiset.cons_bind]
      exact (Multiset.zero_add _).symm ▸ h.ids.projects_nodup
    · rw [Multiset.cons_bind]
      exact (Multiset.zero_add _).symm ▸ h.ids.tasks_nodup
  · refine ⟨fun v pv hv => ?_, h.shown.planning⟩
    obtain ⟨row, hrow, hst⟩ := h.shown.status v pv hv
    exact ⟨row, hrow, hst.imp_right fun ⟨o, ho, hov⟩ => ⟨o, Multiset.mem_cons_of_mem ho, hov⟩⟩
  · intro v
    rw [Multiset.countP_cons]
    exact h.logged v

def quietly {α : Type} (p : UseCase α) : UseCase Unit := do
  let _ ← p
  return ()

/-- What a chat may start. The ids of versions come from the bot's buttons and
proposals: they have been issued. -/
inductive ChatLaunch (s : Store) : UseCase Unit → Prop
  | button (isAdmin : Bool) (sink : Option TaskSink) {pvId : UUID} (actor : Option PersonRecord)
      (h : pvId < s.nextId) : ChatLaunch s (quietly (handleConfirm isAdmin sink pvId actor))
  | typed (sink : Option TaskSink) {pending : UUID} (actor : Option PersonRecord)
      (h : pending < s.nextId) : ChatLaunch s (quietly (confirmPending sink pending actor))
  | edit (chat : Chat) {intents : List ChatIntent} {oldPvId : Option UUID}
      (hintents : ∀ v, .confirm (some v) ∈ intents → v < s.nextId) (hold : ∀ v ∈ oldPvId, v < s.nextId) :
      ChatLaunch s (handleEditText chat intents oldPvId)
  | message (chat : Chat) {intents : List ChatIntent} {pending : Option UUID}
      (hintents : ∀ v, .confirm (some v) ∈ intents → v < s.nextId) (hpending : ∀ v ∈ pending, v < s.nextId) :
      ChatLaunch s (handleMessage chat intents pending)

theorem lawful_quietly {α : Type} {k : Stage} {p : UseCase α}
    (h : Lawful (fun k' _ => k.Returned k') (fun _ _ => True) k p) :
    Lawful (fun k' _ => k'.Ready) (fun _ _ => True) k (quietly p) :=
  Follows.bind h fun _ _ hk => Follows.pure hk.1

theorem lifecycle_preserves :
    Config.Preserves lifecycle ChatLaunch (· = .unavailable) Stage.Ready LifecycleInv where
  knows s k m h := h.knows k (Multiset.mem_cons_self k m)
  move s k m k' s' h hm := h.move hm
  start s m p h hp := by
    refine ⟨⟨s.nextId, .free [] []⟩, ?_, h.start⟩
    have hready : Stage.Ready ⟨s.nextId, .free [] []⟩ := trivial
    cases hp with
    | button isAdmin sink actor hv =>
      refine lawful_quietly ?_
      cases isAdmin with
      | true => exact lawful_confirmAnswer hready hv
      | false => exact Follows.pure ⟨hready, le_rfl⟩
    | typed sink actor hv => exact lawful_quietly (lawful_confirmAnswer hready hv)
    | edit chat hintents hold => exact lawful_handleEditText hready hintents hold
    | message chat hintents hpending => exact lawful_handleMessage hready hintents hpending

/-- Every project shows what was decided on its version. -/
def Store.ShowsVersions (s : Store) : Prop :=
  ∀ p row, s.projects.get? p = some row →
    (row.status = .committed ↔ ∃ v pv, s.planVersions.get? v = some pv ∧ pv.projectId = p ∧
      pv.status = .committed) ∧
    (row.status = .cancelled ↔ ∃ v pv, s.planVersions.get? v = some pv ∧ pv.projectId = p ∧
      pv.status = .superseded)

theorem LifecycleInv.of_wf {s : Store} (hwf : s.WF) (hshows : s.ShowsVersions)
    (hlogged : ∀ v, s.confirmAudits v ≤ (s.isCommitted v).toNat) : LifecycleInv s 0 := by
  have hpl : ∀ t ∈ s.plannedTasks, t < s.nextId := by
    intro t ht
    obtain ⟨a, ha, rfl⟩ := List.mem_map.mp ht
    exact hwf.task_lt _ (hwf.planned_task a ha)
  have hvp : ∀ p ∈ s.versionProjects, p ∈ s.projects.keys := by
    intro p hp
    obtain ⟨pv, hpv, rfl⟩ := List.mem_map.mp hp
    exact hwf.version_project pv hpv
  have hids : DistinctIds s 0 := ⟨hwf.project_lt, hwf.version_lt, hvp, hpl, by simp,
    by simpa [Store.versionProjects] using hwf.one_version,
    by simpa [Store.plannedTasks] using hwf.planned_once⟩
  refine ⟨by simp, hids, ⟨fun v pv hv => ?_, fun p row hrow hne => ?_⟩, by simpa [Logged] using hlogged⟩
  · obtain ⟨row, hrow⟩ := Option.isSome_iff_exists.mp (OrdDict.mem_keys.mp
      (hwf.version_project pv (OrdDict.mem_values.mpr ⟨v, hv⟩)))
    refine ⟨row, hrow, Or.inl ?_⟩
    obtain ⟨hcommitted, hcancelled⟩ := hshows pv.projectId row hrow
    have honly : ∀ w pw, s.planVersions.get? w = some pw → pw.projectId = pv.projectId →
        pw.status = pv.status := by
      intro w pw hw hp
      obtain rfl := hids.version_inj hw hv hp
      rw [Option.some.inj (hw.symm.trans hv)]
    cases hst : pv.status with
    | committed => exact hcommitted.mpr ⟨v, pv, hv, rfl, hst⟩
    | superseded => exact hcancelled.mpr ⟨v, pv, hv, rfl, hst⟩
    | proposed =>
      cases hr : row.status with
      | planning => rfl
      | committed =>
        obtain ⟨w, pw, hw, hp, hpw⟩ := hcommitted.mp hr
        exact absurd (hpw.symm.trans ((honly w pw hw hp).trans hst)) (by decide)
      | cancelled =>
        obtain ⟨w, pw, hw, hp, hpw⟩ := hcancelled.mp hr
        exact absurd (hpw.symm.trans ((honly w pw hw hp).trans hst)) (by decide)
  · obtain ⟨hcommitted, hcancelled⟩ := hshows p row hrow
    refine mem_versionProjects.mpr ?_
    cases hr : row.status with
    | planning => exact absurd hr hne
    | committed =>
      obtain ⟨v, pv, hv, hp, -⟩ := hcommitted.mp hr
      exact ⟨v, pv, hv, hp⟩
    | cancelled =>
      obtain ⟨v, pv, hv, hp, -⟩ := hcancelled.mp hr
      exact ⟨v, pv, hv, hp⟩

theorem LifecycleInv.shows {s : Store} {m : Multiset Stage} (h : LifecycleInv s m)
    (hready : ∀ k ∈ m, k.Ready) : s.ShowsVersions := by
  have hstatus : ∀ v pv row, s.planVersions.get? v = some pv →
      s.projects.get? pv.projectId = some row → row.status = pv.status.project := by
    intro v pv row hv hrow
    obtain ⟨row', hrow', hst⟩ := h.shown.status v pv hv
    obtain rfl := Option.some.inj (hrow.symm.trans hrow')
    exact hst.resolve_right fun ⟨k, hk, hkv⟩ => (hready k hk).not_owes v hkv
  have hdecided : ∀ p row st, s.projects.get? p = some row → row.status = PlanStatus.project st →
      st ≠ .proposed → ∃ v pv, s.planVersions.get? v = some pv ∧ pv.projectId = p ∧ pv.status = st := by
    intro p row st hrow hr hst
    have hne : row.status ≠ .planning := by
      rw [hr]
      cases st <;> first | exact absurd rfl hst | decide
    obtain ⟨v, pv, hv, rfl⟩ := mem_versionProjects.mp (h.shown.planning p row hrow hne)
    have hh := (hstatus v pv row hv hrow).symm.trans hr
    refine ⟨v, pv, hv, rfl, ?_⟩
    revert hh
    cases pv.status <;> cases st <;> decide
  intro p row hrow
  refine ⟨⟨fun hr => hdecided p row .committed hrow hr (by decide), ?_⟩,
    fun hr => hdecided p row .superseded hrow hr (by decide), ?_⟩
  · rintro ⟨v, pv, hv, rfl, hst⟩
    rw [hstatus v pv row hv hrow, hst]
    rfl
  · rintro ⟨v, pv, hv, rfl, hst⟩
    rw [hstatus v pv row hv hrow, hst]
    rfl

/-- A version is decided at most once and logged at most once, each project has
one version whose load counts once, and after operations that all returned the
projects show what was decided. -/
structure DecidedOnce (c : Config Store PlannerError) : Prop where
  decided_final : ∀ c', Config.Reaches ChatLaunch (· = .unavailable) c c' →
    ∀ v pv, c.state.planVersions.get? v = some pv → pv.status ≠ .proposed →
      (c'.state.planVersions.get? v).map PlanVersionRow.status = some pv.status
  logged_once : ∀ v, c.state.confirmAudits v ≤ 1
  shows : (∀ p ∈ c.threads, p = .pure ()) → c.state.ShowsVersions
  one_version : ∀ v w pv pw, c.state.planVersions.get? v = some pv →
    c.state.planVersions.get? w = some pw → pv.projectId = pw.projectId → v = w
  counted_once : ((c.state.committedPayloads.flatMap Payload.assignments).map Assignment.taskId).Nodup

/-- In every interleaving of confirmations, proposals and edit loops, and with
the database failing at any time. -/
theorem plan_lifecycle (s₀ : Store) (hwf : s₀.WF) (hshows : s₀.ShowsVersions)
    (hlogged : ∀ v, s₀.confirmAudits v ≤ (s₀.isCommitted v).toNat) (c : Config Store PlannerError)
    (hrun : Config.Reaches ChatLaunch (· = .unavailable) ⟨s₀, []⟩ c) : DecidedOnce c := by
  have hstart : Config.Disciplined lifecycle (· = .unavailable) Stage.Ready LifecycleInv
      (⟨s₀, []⟩ : Config Store PlannerError) :=
    ⟨[], List.Forall₂.nil, LifecycleInv.of_wf hwf hshows hlogged⟩
  have hc := lifecycle_preserves.reaches hstart hrun
  obtain ⟨ks, -, hinv⟩ := id hc
  constructor
  · intro c' hrun' v pv hv hpv
    have hlater := lifecycle_preserves.evolves Store.Later.refl (fun _ _ _ => Store.Later.trans)
      (fun _ _ _ _ _ _ hm => LifecycleMove.later hm) hc hrun'
    have hk : v ∈ c.state.planVersions.keys :=
      OrdDict.mem_keys.mpr (Option.isSome_iff_exists.mpr ⟨pv, hv⟩)
    exact hlater.decided v (hinv.ids.version_lt v hk) pv hv hpv
  · intro v
    have hl := hinv.logged v
    have hb := Bool.toNat_le (c.state.isCommitted v)
    omega
  · intro hdone
    obtain ⟨m, hready, hm⟩ := hc.settled hdone
    exact hm.shows hready
  · exact fun v w pv pw hv hw hp => hinv.ids.version_inj hv hw hp
  · have hn := (Multiset.nodup_add.mp hinv.ids.tasks_nodup).1
    rw [Multiset.coe_nodup] at hn
    refine hn.sublist (List.Sublist.map _ ?_)
    simp only [Store.committedPayloads, Store.planAssignments, List.flatMap_map]
    exact List.filter_sublist.flatMap _

/-- One proposed plan, with one day of work for Anna. -/
def proposedStore : Store where
  people := OrdDict.empty.insert 1 { name := "Анна" }
  projects := OrdDict.empty.insert 2
    { title := "Ролик", templateId := none, deadline := none, briefReturnDate := none, createdBy := none }
  tasks := OrdDict.empty.insert 3 { projectId := 2, name := "Съёмка", durationHours := 8 }
  assignments := OrdDict.empty.insert (3, 1) 8
  planVersions := OrdDict.empty.insert 4
    ⟨2, .proposed, ⟨[⟨3, 1, 1, 1, [⟨1, 1, 8⟩]⟩], [], some 1⟩, none⟩
  nextId := 5

theorem plan_lifecycle_confirm : ∃ c : Config Store PlannerError,
    Config.Reaches ChatLaunch (· = .unavailable) ⟨proposedStore, []⟩ c ∧
    c.state.isCommitted 4 = true ∧ DecidedOnce c := by
  have hstart : Config.Step ChatLaunch (· = .unavailable) ⟨proposedStore, []⟩
      ⟨proposedStore, [] ++ [quietly (handleConfirm true none 4 none)]⟩ :=
    .start (.button true none none (by decide))
  have hrun := Relation.ReflTransGen.head hstart
    (Config.reaches_alone (quietly (handleConfirm true none 4 none)) proposedStore [])
  have hshows : proposedStore.ShowsVersions := by
    intro p row hrow
    obtain ⟨rfl, rfl⟩ := Prod.mk.inj (List.mem_singleton.mp (OrdDict.get?_eq_some_iff.mp hrow))
    have honly : ∀ v pv, proposedStore.planVersions.get? v = some pv → pv.status = .proposed := by
      intro v pv hv
      rw [(Prod.mk.inj (List.mem_singleton.mp (OrdDict.get?_eq_some_iff.mp hv))).2]
    refine ⟨⟨nofun, ?_⟩, ⟨nofun, ?_⟩⟩
    · rintro ⟨v, pv, hv, -, hst⟩
      exact absurd ((honly v pv hv).symm.trans hst) (by decide)
    · rintro ⟨v, pv, hv, -, hst⟩
      exact absurd ((honly v pv hv).symm.trans hst) (by decide)
  refine ⟨_, hrun, by decide, plan_lifecycle proposedStore (by constructor <;> decide) hshows
    (fun v => Nat.zero_le _) _ hrun⟩

end Planner
