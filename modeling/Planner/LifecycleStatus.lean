import Mathlib.Data.Multiset.Count
import Planner.LifecycleIds

/-! What a project shows of its version, and how often a commit is logged. -/

namespace Planner

/-- A project shows what was decided on its version, or a thread owes it that. -/
structure Shown (s : Store) (m : Multiset Stage) : Prop where
  status : ∀ v pv, s.planVersions.get? v = some pv →
    ∃ row, s.projects.get? pv.projectId = some row ∧
      (row.status = pv.status.project ∨ ∃ k ∈ m, k.Owes v)
  planning : ∀ p row, s.projects.get? p = some row → row.status ≠ .planning → p ∈ s.versionProjects

def Store.isCommitted (s : Store) (v : UUID) : Bool :=
  (s.planVersions.get? v).any fun pv => pv.status = .committed

/-- A commit is logged once, now or later. -/
def Logged (s : Store) (m : Multiset Stage) : Prop :=
  ∀ v, s.confirmAudits v + m.countP (fun k => k.owesAudit v) ≤ (s.isCommitted v).toNat

section Status

variable {s s' : Store} {m : Multiset Stage} {k k' : Stage}

theorem Shown.keep (h : Shown s (k ::ₘ m)) (hv : s'.planVersions = s.planVersions)
    (howes : ∀ v, k.Owes v → k'.Owes v)
    (hstatus : ∀ p row, s.projects.get? p = some row →
      ∃ row', s'.projects.get? p = some row' ∧ row'.status = row.status)
    (hnew : ∀ p row', s'.projects.get? p = some row' → row'.status ≠ .planning →
      ∃ row, s.projects.get? p = some row ∧ row'.status = row.status) : Shown s' (k' ::ₘ m) := by
  have hvp : s'.versionProjects = s.versionProjects := by simp only [Store.versionProjects, hv]
  constructor
  · intro v pv hg
    obtain ⟨row, hrow, hst⟩ := h.status v pv (hv ▸ hg)
    obtain ⟨row', hrow', he⟩ := hstatus _ _ hrow
    refine ⟨row', hrow', hst.imp (fun h => he.trans h) ?_⟩
    rintro ⟨o, ho, hov⟩
    rcases Multiset.mem_cons.mp ho with rfl | ho
    · exact ⟨k', Multiset.mem_cons_self _ _, howes v hov⟩
    · exact ⟨o, Multiset.mem_cons_of_mem ho, hov⟩
  · intro p row' hrow' hne
    obtain ⟨row, hrow, he⟩ := hnew p row' hrow' hne
    exact hvp ▸ h.planning p row hrow (he ▸ hne)

theorem Stage.Ready.not_owes (h : k.Ready) (v : UUID) : ¬ k.Owes v := by
  unfold Stage.Owes
  unfold Stage.Ready at h
  split at h
  · exact h.elim
  · exact id

theorem owed_of_not_owes {v : UUID} (hk : ¬ k.Owes v) :
    (∃ o ∈ k ::ₘ m, o.Owes v) → ∃ o ∈ k' ::ₘ m, o.Owes v := by
  rintro ⟨o, ho, hov⟩
  rcases Multiset.mem_cons.mp ho with rfl | ho
  · exact absurd hov hk
  · exact ⟨o, Multiset.mem_cons_of_mem ho, hov⟩

/-- A project without a version is in planning, as a new proposal says. -/
theorem Shown.record (h : Shown s (k ::ₘ m)) {pv : PlanVersionRow} (hnew : s.nextId ∉ s.planVersions.keys)
    (hproject : pv.projectId ∈ s.projects.keys) (hfree : pv.projectId ∉ s.versionProjects)
    (hstatus : pv.status = .proposed) (hk : ∀ v, ¬ k.Owes v) : Shown (s.putVersion pv) (k' ::ₘ m) := by
  constructor
  · intro w pw hg
    by_cases hw : w = s.nextId
    · subst hw
      rw [Store.putVersion, OrdDict.get?_insert_self] at hg
      obtain rfl := Option.some.inj hg
      obtain ⟨row, hrow⟩ := Option.isSome_iff_exists.mp (OrdDict.mem_keys.mp hproject)
      refine ⟨row, hrow, Or.inl ?_⟩
      rw [hstatus]
      exact Classical.by_contradiction fun hne => hfree (h.planning _ row hrow hne)
    · rw [Store.putVersion, OrdDict.get?_insert_of_ne _ _ hw] at hg
      obtain ⟨row, hrow, hst⟩ := h.status w pw hg
      exact ⟨row, hrow, hst.imp_right (owed_of_not_owes (hk w))⟩
  · intro q row hrow hne
    obtain ⟨v, pw, hv, hpw⟩ := mem_versionProjects.mp (h.planning q row hrow hne)
    have hvn : v ≠ s.nextId := by
      rintro rfl
      exact hnew (OrdDict.mem_keys.mpr (Option.isSome_iff_exists.mpr ⟨pw, hv⟩))
    exact mem_versionProjects.mpr ⟨v, pw, (OrdDict.get?_insert_of_ne _ _ hvn).trans hv, hpw⟩

/-- The project is behind its version as long as the thread has not caught up. -/
theorem Shown.decide (h : Shown s (k ::ₘ m)) {v : UUID} {pv : PlanVersionRow} (hv : s.planVersions.get? v = some pv)
    (st : PlanStatus) (howes : k'.Owes v) (hk : ∀ w, ¬ k.Owes w) :
    Shown (s.modifyVersion v ({ · with status := st })) (k' ::ₘ m) := by
  constructor
  · intro w pw hg
    by_cases hw : w = v
    · subst hw
      rw [Store.modifyVersion, OrdDict.get?_modify_self, hv] at hg
      obtain rfl := Option.some.inj hg
      obtain ⟨row, hrow, -⟩ := h.status w pv hv
      exact ⟨row, hrow, Or.inr ⟨k', Multiset.mem_cons_self _ _, howes⟩⟩
    · rw [Store.modifyVersion, OrdDict.get?_modify_of_ne _ _ hw] at hg
      obtain ⟨row, hrow, hst⟩ := h.status w pw hg
      exact ⟨row, hrow, hst.imp_right (owed_of_not_owes (hk w))⟩
  · intro q row hrow hne
    rw [versionProjects_modify]
    exact h.planning q row hrow hne

/-- The thread that has decided pays what it owes. -/
theorem Shown.reflect (h : Shown s (k ::ₘ m)) (hids : DistinctIds s (k ::ₘ m)) {v : UUID} {pv : PlanVersionRow}
    (hv : s.planVersions.get? v = some pv) (hk : ∀ w, w ≠ v → ¬ k.Owes w) :
    Shown (s.modifyProject pv.projectId ({ · with status := pv.status.project })) (k' ::ₘ m) := by
  constructor
  · intro w pw hg
    by_cases hw : w = v
    · subst hw
      obtain rfl := Option.some.inj (hv.symm.trans hg)
      obtain ⟨row, hrow, -⟩ := h.status w pv hv
      refine ⟨{ row with status := pv.status.project }, ?_, Or.inl rfl⟩
      simp only [Store.modifyProject, OrdDict.get?_modify_self, hrow, Option.map_some]
    · have hpw : pw.projectId ≠ pv.projectId := fun he => hw (hids.version_inj hg hv he)
      obtain ⟨row, hrow, hst⟩ := h.status w pw hg
      exact ⟨row, (OrdDict.get?_modify_of_ne _ _ hpw).trans hrow, hst.imp_right (owed_of_not_owes (hk w hw))⟩
  · intro q row hrow hne
    by_cases hq : q = pv.projectId
    · subst hq
      exact mem_versionProjects.mpr ⟨v, pv, hv, rfl⟩
    · rw [Store.modifyProject, OrdDict.get?_modify_of_ne _ _ hq] at hrow
      exact h.planning q row hrow hne

theorem Shown.move (h : Shown s (k ::ₘ m)) (hids : DistinctIds s (k ::ₘ m)) (hk : k.Knows s)
    (hm : LifecycleMove k s k' s') : Shown s' (k' ::ₘ m) := by
  have hsame : ∀ p row, s.projects.get? p = some row →
      ∃ row', s.projects.get? p = some row' ∧ row'.status = row.status := fun _ row hr => ⟨row, hr, rfl⟩
  have hback : ∀ p row', s.projects.get? p = some row' → row'.status ≠ .planning →
      ∃ row, s.projects.get? p = some row ∧ row'.status = row.status := fun _ row hr _ => ⟨row, hr, rfl⟩
  cases hm with
  | rest hq =>
    refine h.keep hq.versions (fun _ => id) (fun p row hr => ?_) fun p row' hr _ => ?_
    · have hst := hq.status p
      rw [hr] at hst
      exact Option.map_eq_some_iff.mp hst
    · have hst := hq.status p
      rw [hr] at hst
      obtain ⟨row, hrow, he⟩ := Option.map_eq_some_iff.mp hst.symm
      exact ⟨row, hrow, he.symm⟩
  | draw hr => exact h.keep rfl (fun v hv => (hr.not_owes v hv).elim) hsame hback
  | drawTasks => exact h.keep rfl (fun _ => id) hsame hback
  | look hr => exact h.keep rfl (fun v hv => (hr.not_owes v hv).elim) hsame hback
  | log => exact h.keep rfl (fun _ => id) hsame hback
  | @create b p ts _ row hnew hrow =>
    refine h.keep rfl (fun _ => id) (fun q r hr => ?_) fun q r hr hne => ?_
    · have hqp : q ≠ p := by
        rintro rfl
        exact hnew (OrdDict.mem_keys.mpr (Option.isSome_iff_exists.mpr ⟨r, hr⟩))
      exact ⟨r, by simp only [Store.putProject, OrdDict.get?_insert_of_ne _ _ hqp, hr], rfl⟩
    · by_cases hqp : q = p
      · subst hqp
        rw [Store.putProject, OrdDict.get?_insert_self] at hr
        obtain rfl := Option.some.inj hr
        exact absurd hrow hne
      · rw [Store.putProject, OrdDict.get?_insert_of_ne _ _ hqp] at hr
        exact ⟨r, hr, rfl⟩
  | @record b p ts _ pv hp hproject hstatus hnodup htasks =>
    subst hp
    exact h.record (fun hk => Nat.lt_irrefl _ (hids.version_lt _ hk)) hproject
      (hids.apart.1.2 pv.projectId (List.mem_singleton.mpr rfl)).1 hstatus fun _ => id
  | decide hv => exact h.decide hv _ rfl fun _ => id
  | reflect =>
    obtain ⟨-, -, -, pv, hv, rfl, rfl⟩ := hk
    exact h.reflect hids hv fun w hw how => hw how.symm

theorem isCommitted_putVersion {pv : PlanVersionRow} (hnew : s.nextId ∉ s.planVersions.keys)
    (hpv : pv.status = .proposed) (w : UUID) : (s.putVersion pv).isCommitted w = s.isCommitted w := by
  by_cases hw : w = s.nextId
  · subst hw
    simp [Store.isCommitted, Store.putVersion, OrdDict.get?_eq_none_iff.mpr hnew, hpv]
  · simp only [Store.isCommitted, Store.putVersion, OrdDict.get?_insert_of_ne _ _ hw]

/-- Who has nothing in hand owes nothing. -/
theorem Stage.Ready.owesAudit {k : Stage} (hr : k.Ready) (v : UUID) : k.owesAudit v = false := by
  unfold Stage.owesAudit
  unfold Stage.Ready at hr
  split at hr
  · exact hr.elim
  · rename_i hk
    split
    · rename_i hw
      exact (hk _ _ _ _ hw).elim
    · rfl

theorem owesAudit_of_ne {b : Nat} {v w p : UUID} {st : PlanStatus} {logged : Bool} (hwv : w ≠ v) :
    Stage.owesAudit w ⟨b, .decided v p st logged⟩ = false := by
  unfold Stage.owesAudit
  split
  · rename_i hk
    simp only [Work.decided.injEq] at hk
    simp [← hk.1, hwv.symm]
  · rfl

theorem Logged.move (h : Logged s (k ::ₘ m)) (hids : DistinctIds s (k ::ₘ m))
    (hm : LifecycleMove k s k' s') : Logged s' (k' ::ₘ m) := by
  intro w
  have hw := h w
  rw [Multiset.countP_cons] at hw ⊢
  cases hm with
  | rest hq =>
    have hc : s'.isCommitted w = s.isCommitted w := by simp only [Store.isCommitted, hq.versions]
    rw [hq.audits, hc]
    exact hw
  | draw hr =>
    rw [hr.owesAudit w] at hw
    exact hw
  | drawTasks => exact hw
  | create => exact hw
  | look hr =>
    rw [hr.owesAudit w] at hw
    exact hw
  | record hp hproject hstatus hnodup htasks =>
    rw [isCommitted_putVersion (fun hk => Nat.lt_irrefl _ (hids.version_lt _ hk)) hstatus]
    exact hw
  | @decide b v p st _ pv hv hproposed hst =>
    change s.confirmAudits w + _ ≤ _
    by_cases hwv : w = v
    · subst hwv
      have hbefore : s.isCommitted w = false := by simp [Store.isCommitted, hv, hproposed]
      have hafter : (s.modifyVersion w ({ · with status := st })).isCommitted w =
          decide (st = .committed) := by
        simp [Store.isCommitted, Store.modifyVersion, hv]
      rw [hbefore] at hw
      rw [hafter]
      cases st with
      | proposed => exact absurd rfl hst
      | committed => simp [Stage.owesAudit] at hw ⊢; omega
      | superseded => simp [Stage.owesAudit] at hw ⊢; omega
    · have hsame : (s.modifyVersion v ({ · with status := st })).isCommitted w = s.isCommitted w := by
        simp only [Store.isCommitted, Store.modifyVersion, OrdDict.get?_modify_of_ne _ _ hwv]
      rw [hsame, owesAudit_of_ne hwv]
      exact hw
  | @log b v p _ row haction hentity =>
    have haudit : (s.putAudit row).confirmAudits w = s.confirmAudits w + if v = w then 1 else 0 := by
      simp [Store.confirmAudits, Store.putAudit, List.countP_append, haction, hentity]
    rw [haudit]
    change _ ≤ (s.isCommitted w).toNat
    simp only [Stage.owesAudit, decide_eq_true_eq] at hw ⊢
    simp only [Bool.false_eq_true, if_false]
    omega
  | reflect =>
    change s.confirmAudits w + (_ + 0) ≤ (s.isCommitted w).toNat
    omega

end Status

end Planner
