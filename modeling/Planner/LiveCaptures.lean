import Planner.CaptureRace
import Planner.RequestEffects

/-! Captures and cancelled projects. A capture takes the first project with the title it
names, whatever has become of it; an edit leaves two with one title behind. -/

namespace Planner

open Program

namespace Store

variable (U : CharTables) (s : Store)

/-- The same tables, with the projects in another order. -/
def Reordered (s s' : Store) : Prop :=
  ∃ projects : OrdDict UUID ProjectRow, projects.entries.Perm s.projects.entries ∧ s' = { s with projects := projects }

/-- A project of that title, in any case of letters, that is not cancelled. -/
def HasLive (title : String) : Prop :=
  ∃ p l, s.label p = some l ∧ U.lower l.title.toList = U.lower title.toList ∧ l.status ≠ .cancelled

/-- In whatever order the projects are returned, a capture that names a title with a
live project ends with a task in a live project of that title. -/
def CapturesLive : Prop :=
  ∀ s', s.Reordered s' → ∀ (sink : Option TaskSink) (intent : CaptureTaskIntent) (actor : Option PersonRecord),
    s.knows (actor.map PersonRecord.id) → s.HasLive U (captureTarget intent.projectName) →
      ∃ result s'' row l, (captureTask U sink intent actor).run s' = (.ok result, s'') ∧
        s''.tasks.get? result.taskId = some row ∧ s''.label row.projectId = some l ∧
        U.lower l.title.toList = U.lower (captureTarget intent.projectName).toList ∧ l.status ≠ .cancelled

end Store

/-- Some capture can ask for the title. -/
def Askable (U : CharTables) (title : String) : Prop :=
  ∃ intent : CaptureTaskIntent, U.lower (captureTarget intent.projectName).toList = U.lower title.toList

/-- A title that a capture can ask for is one of cancelled projects or of live ones. -/
def Store.Unmixed (U : CharTables) (s : Store) : Prop :=
  ∀ p q l l', s.label p = some l → s.label q = some l' → U.lower l.title.toList = U.lower l'.title.toList →
    Askable U l.title → l.status = .cancelled → l'.status = .cancelled

/-- The request brings no live project under the title of a cancelled one: a proposal
that goes through has a title that no cancelled project has, and what is retired
shares its title with no live project. -/
def Request.SetsApart (U : CharTables) (s : Store) : Request → Prop
  | .propose solver intent _ today _ => s.Plans solver today intent → Askable U (strip intent.title) →
      ∀ p l, s.label p = some l → l.status = .cancelled → U.lower l.title.toList ≠ U.lower (strip intent.title).toList
  | .retire old new => ∀ v ∈ old, v ≠ new → ∀ p l, s.standing v = some (p, .proposed) → s.label p = some l →
      Askable U l.title → ∀ q l', q ≠ p → s.label q = some l' → U.lower l'.title.toList = U.lower l.title.toList →
        l'.status = .cancelled
  | _ => True

section Captures

variable {U : CharTables} {s s' : Store}

theorem Store.Reordered.label (h : s.Reordered s') (p : UUID) : s'.label p = s.label p := by
  obtain ⟨projects, hperm, rfl⟩ := h
  rw [Store.label, Store.label]
  congr 1
  cases hp : s.projects.get? p with
  | none =>
    rw [OrdDict.get?_eq_none_iff] at hp ⊢
    exact fun hk => hp ((hperm.map Prod.fst).mem_iff.mp hk)
  | some row => exact OrdDict.get?_eq_some_iff.mpr (hperm.mem_iff.mpr (OrdDict.get?_eq_some_iff.mp hp))

theorem Store.Reordered.taskKeys (h : s.Reordered s') (hs : s.TaskKeys) : s'.TaskKeys := by
  obtain ⟨projects, hperm, rfl⟩ := h
  have hkeys : ∀ p, p ∈ projects.keys ↔ p ∈ s.projects.keys := fun p => (hperm.map Prod.fst).mem_iff
  exact ⟨fun p hp => hs.project_lt p ((hkeys p).mp hp), hs.task_lt,
    fun row hrow => (hkeys _).mpr (hs.task_project row hrow), hs.assignment_task⟩

theorem Store.Reordered.knows {actorId : Option UUID} (h : s.Reordered s') (hknown : s.knows actorId) : s'.knows actorId := by
  obtain ⟨projects, -, rfl⟩ := h
  exact hknown

/-- Wherever the task ends up, it is in the project that was looked up or made. -/
theorem capture_home (hs : s.TaskKeys) {actor : Option PersonRecord} (hknown : s.knows (actor.map PersonRecord.id))
    (sink : Option TaskSink) (intent : CaptureTaskIntent) : ∃ result s'' row,
      (captureTask U sink intent actor).run s = (.ok result, s'') ∧ s''.tasks.get? result.taskId = some row ∧
        row.projectId = (s.homeOf U intent.projectName).1 ∧
        s''.projects = (s.housed U intent.projectName (actor.map PersonRecord.id)).projects := by
  rw [captureTask_run hs hknown]
  split
  · rename_i task hdup
    have hmem := List.mem_of_find?_eq_some hdup
    have hhoused := hs.housed_of_mem hmem
    obtain ⟨row, hrow, hp, -⟩ := Store.mem_projectTasks.mp hmem
    rw [hhoused] at hrow ⊢
    exact ⟨_, _, row, rfl, hrow, hp, rfl⟩
  · exact ⟨_, _, _, rfl, OrdDict.get?_insert_self _ _ _, rfl, rfl⟩

theorem projectByTitle_of_label {p : UUID} {l : ProjectLabel} {title : String} (hp : s.label p = some l)
    (htitle : U.lower l.title.toList = U.lower title.toList) : ∃ e, s.projectByTitle U title = some e := by
  obtain ⟨row, hrow, rfl⟩ := Option.map_eq_some_iff.mp hp
  cases hfind : s.projectByTitle U title with
  | some e => exact ⟨e, rfl⟩
  | none =>
    have hall := List.find?_eq_none.mp (show List.find? _ _ = none from hfind) (p, row) (OrdDict.get?_eq_some_iff.mp hrow)
    exact absurd (decide_eq_true htitle) hall

theorem label_of_projectByTitle {title : String} {e : UUID × ProjectRow} (h : s.projectByTitle U title = some e) :
    s.label e.1 = some e.2.label := by
  have hget := OrdDict.get?_eq_some_iff.mpr (List.mem_of_find?_eq_some (show List.find? _ _ = some e from h))
  rw [Store.label, hget]
  rfl

theorem capturesLive_of_unmixed (hs : s.TaskKeys) (h : s.Unmixed U) : s.CapturesLive U := by
  intro s' hs' sink intent actor hknown ⟨p, l, hp, htitle, hlive⟩
  obtain ⟨e, he⟩ := projectByTitle_of_label ((hs'.label p).trans hp) htitle
  have hfound := (Store.projectByTitle_mem he).2
  have hhome : s'.homeOf U intent.projectName = (e.1, e.2.title) := by rw [Store.homeOf, he]
  have hhoused : s'.housed U intent.projectName (actor.map PersonRecord.id) = s' := by rw [Store.housed, he]
  obtain ⟨result, s'', row, hrun, hrow, hproject, hprojects⟩ :=
    @capture_home U s' (hs'.taskKeys hs) actor (hs'.knows hknown) sink intent
  rw [hhome] at hproject
  rw [hhoused] at hprojects
  have hlabel : s.label e.1 = some e.2.label := (hs'.label e.1).symm.trans (label_of_projectByTitle he)
  refine ⟨result, s'', row, e.2.label, hrun, hrow, ?_, hfound, fun hcancelled => ?_⟩
  · rw [hproject, Store.label, hprojects]
    exact label_of_projectByTitle he
  · exact hlive (h e.1 p _ _ hlabel hp (hfound.trans htitle.symm) ⟨intent, hfound.symm⟩ hcancelled)

/-- The database may return a cancelled project first. -/
theorem unmixed_of_capturesLive (hs : s.TaskKeys) (h : s.CapturesLive U) : s.Unmixed U := by
  rintro p q l l' hp hq htitle ⟨intent, hasked⟩ hcancelled
  by_contra hlive
  obtain ⟨row, hrow, rfl⟩ := Option.map_eq_some_iff.mp hp
  obtain ⟨pre, post, hsplit⟩ := List.append_of_mem (OrdDict.get?_eq_some_iff.mp hrow)
  have hperm : ((p, row) :: (pre ++ post)).Perm s.projects.entries := by
    rw [hsplit]
    exact List.perm_middle.symm
  let projects : OrdDict UUID ProjectRow := ⟨(p, row) :: (pre ++ post), (hperm.map Prod.fst).nodup_iff.mpr s.projects.nodup_keys⟩
  have hreordered : s.Reordered { s with projects := projects } := ⟨projects, hperm, rfl⟩
  have hfirst : ({ s with projects := projects } : Store).projectByTitle U (captureTarget intent.projectName) = some (p, row) :=
    List.find?_cons_of_pos (decide_eq_true hasked.symm)
  obtain ⟨result, s'', trow, l'', hrun, htask, hlabel, -, hfiled⟩ := h _ hreordered none intent none (fun _ h => nomatch h)
    ⟨q, l', hq, htitle.symm.trans hasked.symm, hlive⟩
  obtain ⟨result', t, trow', hrun', htask', hproject, hprojects⟩ :=
    @capture_home U _ (hreordered.taskKeys hs) none (fun _ h => nomatch h) none intent
  obtain ⟨hresult, rfl⟩ := Prod.mk.inj (hrun.symm.trans hrun')
  obtain rfl := Except.ok.inj hresult
  obtain rfl := Option.some.inj (htask.symm.trans htask')
  rw [Store.homeOf, hfirst] at hproject
  rw [Store.housed, hfirst] at hprojects
  have hsame : s''.label p = some row.label := by
    rw [Store.label, hprojects]
    exact (hreordered.label p).trans hp
  rw [hproject, hsame] at hlabel
  exact hfiled (Option.some.inj hlabel ▸ hcancelled)

theorem capturesLive_iff (hs : s.TaskKeys) : s.CapturesLive U ↔ s.Unmixed U :=
  ⟨unmixed_of_capturesLive hs, capturesLive_of_unmixed hs⟩

theorem unmixed_relabelled (h : ∀ p, s'.label p = s.label p) : s'.Unmixed U ↔ s.Unmixed U := by
  simp only [Store.Unmixed, h]

/-- New projects do no harm iff no cancelled one has their title. -/
theorem unmixed_opens {title : String} (h : s.Unmixed U) (hopens : AddsTitled title s s')
    (hapart : ∀ p l, s.label p = some l → l.status = .cancelled → Askable U title →
      U.lower l.title.toList ≠ U.lower title.toList) : s'.Unmixed U := by
  intro p q l l' hp hq htitle hasked hcancelled
  by_cases hpold : p ∈ s.projects.keys
  · rw [hopens.kept p hpold] at hp
    by_cases hqold : q ∈ s.projects.keys
    · rw [hopens.kept q hqold] at hq
      exact h p q l l' hp hq htitle hasked hcancelled
    · obtain ⟨rfl, -⟩ := hopens.opened q hqold l' hq
      obtain ⟨intent, hintent⟩ := hasked
      exact absurd htitle (hapart p l hp hcancelled ⟨intent, hintent.trans htitle⟩)
  · rw [(hopens.opened p hpold l hp).2] at hcancelled
    cases hcancelled

theorem unmixed_propose (hs : s.Regular) (h : s.Unmixed U) (solver : GreedySolver) (intent : AddProjectIntent)
    {actor : Option PersonRecord} (today : Date) (sink : Option ProjectSink) (hknown : s.knows (actor.map PersonRecord.id)) :
    ((Request.propose solver intent actor today sink).perform U s).Unmixed U ↔
      (Request.propose solver intent actor today sink).SetsApart U s := by
  have hopens : AddsTitled (strip intent.title) s ((Request.propose solver intent actor today sink).perform U s) :=
    buildAddProjectReply_opens.run (AddsTitled.refl _ s)
  rcases @buildAddProjectReply_plans solver intent actor today s hknown hs.wf.taskKeys.project_new sink with
    ⟨hno, hsame⟩ | ⟨hplans, row, hrow, -⟩
  · refine iff_of_true ?_ fun hplans => absurd hplans hno
    have hlabel : ∀ p, ((Request.propose solver intent actor today sink).perform U s).label p = s.label p := by
      intro p
      rw [Request.perform, hsame]
      rfl
    exact (unmixed_relabelled hlabel).mpr h
  · -- the new project has the next id
    obtain ⟨htitle, hplanning⟩ := hopens.opened s.nextId hs.wf.taskKeys.project_new row.label (by
      rw [Request.perform, Store.label, hrow]
      rfl)
    constructor
    · rintro h' - ⟨asked, hasked⟩ p l hp hcancelled heq
      have hold := (hopens.kept p (AddsTitled.mem_of_label hp)).trans hp
      have hnew : ((Request.propose solver intent actor today sink).perform U s).label s.nextId = some row.label := by
        rw [Request.perform, Store.label, hrow]
        rfl
      have hmixed := h' p s.nextId l row.label hold hnew (by rw [htitle]; exact heq) ⟨asked, hasked.trans heq.symm⟩ hcancelled
      rw [hplanning] at hmixed
      cases hmixed
    · intro hapart
      exact unmixed_opens h hopens fun p l hp hcancelled hasked => hapart hplans hasked p l hp hcancelled

theorem unmixed_capture (hs : s.Regular) (h : s.Unmixed U) (sink : Option TaskSink) (intent : CaptureTaskIntent)
    {actor : Option PersonRecord} (hknown : s.knows (actor.map PersonRecord.id)) :
    ((Request.capture sink intent actor).perform U s).Unmixed U := by
  cases hfound : s.projectByTitle U (captureTarget intent.projectName) with
  | some e =>
    refine (unmixed_relabelled fun p => ?_).mpr h
    rcases @capture_effect U s hs.wf.taskKeys sink intent actor hknown with he | he
    · rw [he]
    · rw [he, Store.housed, hfound]
      rfl
  | none =>
    refine unmixed_opens h (capture_opens hs.wf.taskKeys sink intent hknown) fun p l hp _ _ htitle => ?_
    obtain ⟨e, he⟩ := projectByTitle_of_label hp htitle
    rw [hfound] at he
    cases he

/-- A confirmation cancels nothing and brings nothing back. -/
theorem unmixed_committed (hs : s.Regular) (h : s.Unmixed U) {v p : UUID} (hsettles : Settles v p .committed s s') :
    s'.Unmixed U := by
  have hlabel : ∀ q l, s'.label q = some l → ∃ l₀, s.label q = some l₀ ∧ l₀.title = l.title ∧
      (l₀.status = .cancelled ↔ l.status = .cancelled) := by
    intro q l hl
    rw [hsettles.label] at hl
    split at hl
    · rename_i hq
      obtain ⟨l₀, hl₀, rfl⟩ := Option.map_eq_some_iff.mp hl
      have hopen := hs.live v p hsettles.standing
      rw [Store.Regular.projectStatus_eq, hl₀] at hopen
      exact ⟨l₀, hq ▸ hl₀, rfl, iff_of_false (fun he => hopen (congrArg some he)) nofun⟩
    · exact ⟨l, hl, rfl, Iff.rfl⟩
  intro q r l l' hq hr htitle hasked hcancelled
  obtain ⟨l₀, hl₀, htitle₀, hstatus⟩ := hlabel q l hq
  obtain ⟨l₀', hl₀', htitle₀', hstatus'⟩ := hlabel r l' hr
  rw [← htitle₀, ← htitle₀'] at htitle
  exact hstatus'.mp (h q r l₀ l₀' hl₀ hl₀' htitle (htitle₀ ▸ hasked) (hstatus.mpr hcancelled))

theorem unmixed_retire (h : s.Unmixed U) (old : Option UUID) (new : UUID) :
    ((Request.retire old new).perform U s).Unmixed U ↔ (Request.retire old new).SetsApart U s := by
  rcases @retire_effect U s old new with ⟨hno, he⟩ | ⟨v, p, rfl, hne, hsettles⟩
  · rw [he]
    exact iff_of_true h fun v hv hne p l hstanding => absurd (Store.isProposed_iff.mpr ⟨p, hstanding⟩) (hno v hv hne)
  · have hself : ∀ l, s.label p = some l →
        ((Request.retire (some v) new).perform U s).label p = some { l with status := .cancelled } := fun l hl => by
      rw [hsettles.label, if_pos rfl, hl]
      rfl
    have hother : ∀ q, q ≠ p → ((Request.retire (some v) new).perform U s).label q = s.label q := fun q hq => by
      rw [hsettles.label, if_neg hq]
    constructor
    · intro h' w hw hw' p' l hstanding hl hasked q l' hq hl' htitle
      obtain rfl := Option.some.inj hw
      obtain ⟨rfl, -⟩ := Prod.mk.inj (Option.some.inj (hsettles.standing.symm.trans hstanding))
      exact h' p q _ l' (hself l hl) ((hother q hq).trans hl') htitle.symm hasked rfl
    · intro hapart q r l l' hq hr htitle hasked hcancelled
      by_cases hrp : r = p
      · rw [hrp, hsettles.label, if_pos rfl] at hr
        obtain ⟨l₀, -, rfl⟩ := Option.map_eq_some_iff.mp hr
        rfl
      · rw [hother r hrp] at hr
        by_cases hqp : q = p
        · rw [hqp, hsettles.label, if_pos rfl] at hq
          obtain ⟨l₀, hl₀, rfl⟩ := Option.map_eq_some_iff.mp hq
          exact hapart v rfl hne p l₀ hsettles.standing hl₀ hasked r l' hrp hr htitle.symm
        · rw [hother q hqp] at hq
          exact h q r l l' hq hr htitle hasked hcancelled

theorem unmixed_perform (hs : s.Regular) (h : s.Unmixed U) (r : Request) (hknown : s.knows r.actorId) :
    (r.perform U s).Unmixed U ↔ r.SetsApart U s := by
  cases r with
  | propose solver intent actor today sink => exact unmixed_propose hs h solver intent today sink hknown
  | retire old new => exact unmixed_retire h old new
  | confirm sink v actor =>
    refine iff_of_true ?_ trivial
    rcases @confirm_effect U s hs.wf.versionIds sink v actor hknown with he | ⟨p, hsettles⟩
    · rw [he]
      exact h
    · exact unmixed_committed hs h hsettles
  | capture sink intent actor => exact iff_of_true (unmixed_capture hs h sink intent hknown) trivial
  | assign taskRef personName actorId =>
    exact iff_of_true ((unmixed_relabelled (assign_label taskRef personName hknown)).mpr h) trivial

end Captures

/-- Every capture of a run finds the live project iff no request of it brings a
cancelled and a live project under one title. -/
theorem captures_live_iff (U : CharTables) (s₀ : Store) (hs : s₀.Regular) (h : s₀.CapturesLive U) (reqs : List Request)
    (hknown : ∀ r ∈ reqs, s₀.knows r.actorId) :
    (∀ pre, pre <+: reqs → (Trace.after (Request.perform U) s₀ pre).CapturesLive U) ↔
      ∀ pre r, pre ++ [r] <+: reqs → r.SetsApart U (Trace.after (Request.perform U) s₀ pre) := by
  refine hs.always_iff h hknown fun t r ht hk hlive => ?_
  rw [capturesLive_iff (ht.perform r hk).wf.taskKeys]
  rw [capturesLive_iff ht.wf.taskKeys] at hlive
  exact unmixed_perform ht hlive r hk

section Shooting

def proposeClip : Request :=
  .propose .onWeekdays { title := "Ролик", templateCode := "lite" } (some { id := 1, name := "Анна" }) 1 none

theorem shootingStore_regular : shootingStore.Regular := by
  refine ⟨?_, fun v p hv => (nomatch hv)⟩
  constructor <;> decide

theorem shootingStore_capturesLive : shootingStore.CapturesLive .plain :=
  capturesLive_of_unmixed shootingStore_regular.wf.taskKeys fun _ _ _ _ hp => (nomatch hp)

theorem captures_live_iff_shooting :
    (∀ pre, pre <+: [proposeClip] → (Trace.after (Request.perform .plain) shootingStore pre).CapturesLive .plain) ↔
      ∀ pre r, pre ++ [r] <+: [proposeClip] → r.SetsApart .plain (Trace.after (Request.perform .plain) shootingStore pre) :=
  captures_live_iff .plain shootingStore shootingStore_regular shootingStore_capturesLive [proposeClip] (by
    intro r hr
    obtain rfl := List.mem_singleton.mp hr
    exact (by decide : shootingStore.knows (some 1)))

/-- The proposal is edited once: the second takes the place of the first. -/
def editedOnce : List Request := [proposeClip, proposeClip, .retire (some 6) 9]

theorem editedOnce_knows : ∀ r ∈ editedOnce, shootingStore.knows r.actorId := by
  simp only [editedOnce, List.forall_mem_cons, List.not_mem_nil, false_imp_iff, implies_true, and_true]
  decide

/-- The capture of a task for the clip may end up in the proposal that was replaced. -/
theorem edited_capture_astray :
    (∀ r ∈ editedOnce, shootingStore.knows r.actorId) ∧
      ¬ ∀ pre, pre <+: editedOnce → (Trace.after (Request.perform .plain) shootingStore pre).CapturesLive .plain := by
  refine ⟨editedOnce_knows, fun h => ?_⟩
  have hkeys := (shootingStore_regular.after (U := .plain) editedOnce_knows).1.wf.taskKeys
  have hunmixed := unmixed_of_capturesLive hkeys (h editedOnce List.prefix_rfl)
  have hlive := hunmixed 4 7 ⟨"Ролик", .cancelled, none⟩ ⟨"Ролик", .planning, none⟩ (by decide +kernel)
    (by decide +kernel) rfl ⟨montage, by decide⟩ rfl
  cases hlive

end Shooting

end Planner
