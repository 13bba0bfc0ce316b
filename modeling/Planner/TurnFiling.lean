import Planner.CaptureRace
import Planner.TurnAnswers
import Planner.TurnCaptures

/-! What the captures of a turn file: for each key one task, of the pair that was
new first, with the people of all calls of the key since. -/

namespace Planner

open Program

/-- The entry of a key, its task and the people assigned to it. -/
structure EntryState (U : CharTables) (s₀ : Store) (done : List KeyedCall) (s : Store) (key : List Char)
    (entry : CaptureEntry) : Prop where
  fresh : entry.taskId ∉ s₀.tasks.keys
  task : ∃ row, s.tasks.get? entry.taskId = some row ∧ row.status ≠ .done ∧ titleKey U row.name = key ∧
    ∃ h ∈ (gathered U s₀ key done).head?, ∃ pair, h.pair U = some pair ∧ s.Files U pair entry.taskId row
  people : ∀ p, (entry.taskId, p) ∈ s.assignments.keys ↔ s₀.Finds (namedWith U s₀ key done) p
  names : ∀ x, x ∈ entry.assignees ↔ ∃ name ∈ namedWith U s₀ key done, ∃ person, s₀.personByName name = some person ∧
    person.name = x

/-- The turn that began with `s₀`, after the calls done. -/
structure TurnState (U : CharTables) (s₀ : Store) (done : List KeyedCall) (entries : OrdDict (List Char) CaptureEntry)
    (s : Store) : Prop where
  keys : s.TaskKeys
  people : s.people = s₀.people
  tasks : ∀ t ∈ s₀.tasks.keys, s.tasks.get? t = s₀.tasks.get? t
  projects : ∀ p ∈ s₀.projects.keys, p ∈ s.projects.keys
  housing : ∀ title e, s₀.housing U title = some e → s.housing U title = some e
  housing_new : ∀ title e, s₀.housing U title = none → s.housing U title = some e → e.1 ∉ s₀.projects.keys
  unopened : ∀ key, entries.get? key = none → gathered U s₀ key done = []
  entry : ∀ key entry, entries.get? key = some entry → EntryState U s₀ done s key entry
  new : ∀ t ∈ s.tasks.keys, t ∉ s₀.tasks.keys → ∃ key entry, entries.get? key = some entry ∧ entry.taskId = t

/-- A call that touches no row of the entry and adds nothing to what its key has gathered. -/
theorem EntryState.kept {U : CharTables} {s₀ s s' : Store} {done done' : List KeyedCall} {key : List Char}
    {e : CaptureEntry} (h : EntryState U s₀ done s key e) (hsame : gathered U s₀ key done' = gathered U s₀ key done)
    (hrow : s'.tasks.get? e.taskId = s.tasks.get? e.taskId)
    (hhousing : ∀ title e, s.housing U title = some e → s'.housing U title = some e)
    (hrows : ∀ p, (e.taskId, p) ∈ s'.assignments.keys ↔ (e.taskId, p) ∈ s.assignments.keys) :
    EntryState U s₀ done' s' key e := by
  refine ⟨h.fresh, ?_, fun p => ?_, fun x => ?_⟩
  · obtain ⟨row, hget, hopen, hname, head, hhead, pair, hpair, -, htitle, home, hhome, hproject⟩ := h.task
    rw [← hrow] at hget
    rw [hsame]
    exact ⟨row, hget, hopen, hname, head, hhead, pair, hpair, hget, htitle, home, hhousing _ _ hhome, hproject⟩
  · rw [hrows, namedWith, hsame, ← namedWith]
    exact h.people p
  · rw [namedWith, hsame, ← namedWith]
    exact h.names x

/-- The entry of a key that a single call has opened. -/
theorem EntryState.opened {U : CharTables} {s₀ s : Store} {done : List KeyedCall} {c : KeyedCall} {key : List Char}
    {e : CaptureEntry} {pair : List Char × List Char} (row : TaskRow) (hgathered : gathered U s₀ key done = [c])
    (hfresh : e.taskId ∉ s₀.tasks.keys) (hpair : c.pair U = some pair) (hopen : row.status ≠ .done)
    (hkey : titleKey U row.name = key) (hfiles : s.Files U pair e.taskId row)
    (hpeople : ∀ p, (e.taskId, p) ∈ s.assignments.keys ↔ s₀.Finds c.names p)
    (hnames : ∀ x, x ∈ e.assignees ↔ ∃ name ∈ c.names, ∃ person, s₀.personByName name = some person ∧
      person.name = x) : EntryState U s₀ done s key e := by
  have hnamed : namedWith U s₀ key done = c.names := by rw [namedWith, hgathered, List.flatMap_singleton]
  refine ⟨hfresh, ⟨row, hfiles.1, hopen, hkey, c, ?_, pair, hpair, hfiles⟩, ?_, ?_⟩
  · rw [hgathered]
    rfl
  · rw [hnamed]
    exact hpeople
  · rw [hnamed]
    exact hnames

namespace TurnState

variable {U : CharTables} {s₀ s : Store} {done : List KeyedCall} {entries : OrdDict (List Char) CaptureEntry}
  {c : KeyedCall}

theorem start (hs : s₀.TaskKeys) : TurnState U s₀ [] .empty s₀ where
  keys := hs
  people := rfl
  tasks _ _ := rfl
  projects _ hp := hp
  housing _ _ h := h
  housing_new _ e h h' := absurd (h.symm.trans h') (Option.some_ne_none e).symm
  unopened _ _ := rfl
  entry _ _ h := nomatch h
  new _ ht hnew := absurd ht hnew

theorem mem_tasks (h : TurnState U s₀ done entries s) {t : UUID} (ht : t ∈ s₀.tasks.keys) : t ∈ s.tasks.keys := by
  rw [OrdDict.mem_keys, h.tasks t ht, ← OrdDict.mem_keys]
  exact ht

/-- A call that adds nothing to what its key has gathered. -/
theorem skip (h : TurnState U s₀ done entries s) (hc : ∀ key, c.key U = some key → entries.get? key = none ∧
    ¬ Opens U s₀ key c) : TurnState U s₀ (done ++ [c]) entries s := by
  have hsame : ∀ key, gathered U s₀ key (done ++ [c]) = gathered U s₀ key done := by
    intro key
    by_cases hkey : c.key U = some key
    · obtain ⟨hnone, hopens⟩ := hc key hkey
      rw [gathered_append_of_nil (h.unopened key hnone), if_neg hopens, h.unopened key hnone]
    · exact gathered_append_of_ne hkey
  exact { h with
    unopened := fun key hnone => (hsame key).trans (h.unopened key hnone)
    entry := fun key e he => (h.entry key e he).kept (hsame key) rfl (fun _ _ => id) fun _ => Iff.rfl }

theorem entry_inj (h : TurnState U s₀ done entries s) {key key' : List Char} {e e' : CaptureEntry}
    (he : entries.get? key = some e) (he' : entries.get? key' = some e') (ht : e.taskId = e'.taskId) : key = key' := by
  obtain ⟨row, hrow, -, hkey, -⟩ := (h.entry key e he).task
  obtain ⟨row', hrow', -, hkey', -⟩ := (h.entry key' e' he').task
  rw [ht] at hrow
  obtain rfl := Option.some.inj (hrow.symm.trans hrow')
  exact hkey.symm.trans hkey'

theorem entry_mem (h : TurnState U s₀ done entries s) {key : List Char} {e : CaptureEntry}
    (he : entries.get? key = some e) : e.taskId ∈ s.tasks.keys := by
  obtain ⟨row, hrow, -⟩ := (h.entry key e he).task
  exact OrdDict.mem_keys.mpr (by rw [hrow]; rfl)

theorem unopened_insert (h : TurnState U s₀ done entries s) {key : List Char} (hkey : c.key U = some key)
    {e : CaptureEntry} (key' : List Char) (hnone : (entries.insert key e).get? key' = none) :
    gathered U s₀ key' (done ++ [c]) = [] := by
  by_cases hk : key' = key
  · rw [hk, OrdDict.get?_insert_self] at hnone
    cases hnone
  · rw [OrdDict.get?_insert_of_ne _ _ hk] at hnone
    rw [gathered_append_of_ne fun hc => hk (Option.some.inj (hc.symm.trans hkey)), h.unopened key' hnone]

/-- The other keys keep their entries when a call puts one under its own key. -/
theorem entry_insert (h : TurnState U s₀ done entries s) {key : List Char} (hkey : c.key U = some key) {s' : Store}
    {e : CaptureEntry} (hself : EntryState U s₀ (done ++ [c]) s' key e)
    (hhousing : ∀ title e, s.housing U title = some e → s'.housing U title = some e)
    (hothers : ∀ t ∈ s.tasks.keys, t ≠ e.taskId → s'.tasks.get? t = s.tasks.get? t ∧
      ∀ p, (t, p) ∈ s'.assignments.keys ↔ (t, p) ∈ s.assignments.keys)
    (hfree : ∀ key' e', key' ≠ key → entries.get? key' = some e' → e'.taskId ≠ e.taskId) (key' : List Char)
    (e' : CaptureEntry) (he' : (entries.insert key e).get? key' = some e') :
    EntryState U s₀ (done ++ [c]) s' key' e' := by
  by_cases hk : key' = key
  · subst hk
    rw [OrdDict.get?_insert_self] at he'
    obtain rfl := Option.some.inj he'
    exact hself
  · rw [OrdDict.get?_insert_of_ne _ _ hk] at he'
    obtain ⟨hrow, hrows⟩ := hothers _ (h.entry_mem he') (hfree key' e' hk he')
    have hsame : gathered U s₀ key' (done ++ [c]) = gathered U s₀ key' done :=
      gathered_append_of_ne fun hc => hk (Option.some.inj (hc.symm.trans hkey))
    exact (h.entry key' e' he').kept hsame hrow hhousing hrows

theorem merge (h : TurnState U s₀ done entries s) {key : List Char} {e : CaptureEntry} (hkey : c.key U = some key)
    (he : entries.get? key = some e) : TurnState U s₀ (done ++ [c])
      (entries.insert key { e with assignees := s.mergedNames c.names e.assignees })
      (s.merged e.taskId e.duration c.names e.assignees) := by
  have hentry := h.entry key e he
  have ht := h.entry_mem he
  have hne : gathered U s₀ key done ≠ [] := by
    obtain ⟨row, -, -, -, head, hhead, -⟩ := hentry.task
    rintro hnil
    rw [hnil] at hhead
    cases hhead
  have hgathered := gathered_append_of_ne_nil (c := c) hne hkey
  have hnamed : namedWith U s₀ key (done ++ [c]) = namedWith U s₀ key done ++ c.names := by
    rw [namedWith, hgathered, List.flatMap_append, List.flatMap_singleton]
    rfl
  have hassigned : ∀ name ∈ c.names, ∀ person, s.personByName name = some person → person.name ∈ e.assignees →
      (e.taskId, person.id) ∈ s.assignments.keys := by
    intro name hname person hperson hmem
    obtain ⟨name', hname', person', hperson', hsame⟩ := (hentry.names _).mp hmem
    rw [Store.personByName_congr h.people] at hperson
    rw [Store.personByName_inj hperson hperson' hsame.symm]
    exact (hentry.people _).mpr ⟨name', hname', person', hperson', rfl⟩
  have hrows := fun t p => @Store.mem_merged s c.names p e.taskId e.duration _ t hassigned
  refine ⟨h.keys.merged ht _ _ _, h.people, h.tasks, h.projects, h.housing, h.housing_new, h.unopened_insert hkey,
    h.entry_insert hkey ?_ (fun _ _ => id) (fun t _ hne => ⟨rfl, fun p => (hrows t p).trans (by simp [hne])⟩)
      fun key' e' hk he' heq => hk (h.entry_inj he' he heq), ?_⟩
  · refine ⟨hentry.fresh, ?_, fun p => ?_, fun x => ?_⟩
    · obtain ⟨row, hrow, hopen, hname, head, hhead, hfiles⟩ := hentry.task
      refine ⟨row, hrow, hopen, hname, head, ?_, hfiles⟩
      rw [hgathered, List.head?_append, Option.mem_def.mp hhead]
      rfl
    · have hp := hrows e.taskId p
      rw [hnamed, Store.finds_append, ← hentry.people]
      refine hp.trans ?_
      rw [Store.finds_congr h.people, or_comm]
      simp
    · refine Store.mem_mergedNames.trans ?_
      rw [hentry.names, hnamed]
      simp only [Store.personByName_congr h.people, List.mem_append, or_and_right, exists_or]
  · intro t ht hnew
    obtain ⟨key', e', he', rfl⟩ := h.new t ht hnew
    by_cases hk : key' = key
    · subst hk
      obtain rfl := Option.some.inj (he.symm.trans he')
      exact ⟨key', _, OrdDict.get?_insert_self _ _ _, rfl⟩
    · exact ⟨key', e', by rw [OrdDict.get?_insert_of_ne _ _ hk, he'], rfl⟩

/-- A capture takes a task for its own iff it was there before the turn. -/
theorem duplicate_iff (h : TurnState U s₀ done entries s) (hs₀ : s₀.TaskKeys) (hU : FoldsCase U) {title : String}
    (hnone : entries.get? (titleKey U title) = none) (c : KeyedCall) (actorId : Option UUID) :
    (findDuplicate U ((s.housed U (some c.project) actorId).projectTasks (s.homeOf U (some c.project)).1) title).isSome ↔
      s₀.Holds U (U.lower c.project.toList, U.lower (stripChars title.toList)) := by
  have htarget := c.captureTarget_project
  constructor
  · intro hdup
    obtain ⟨task, hfound⟩ := Option.isSome_iff_exists.mp hdup
    have hmem := List.mem_of_find?_eq_some hfound
    have hhoused := h.keys.housed_of_mem hmem
    obtain ⟨e, hhousing, hhome⟩ := @housing_home U s (some c.project) actorId h.keys
    rw [hhoused, htarget] at hhousing
    rw [hhoused] at hmem
    obtain ⟨row, hrow, hproject, htask⟩ := Store.mem_projectTasks.mp hmem
    have hsame : task.status ≠ .done ∧ U.lower (stripChars task.name.toList) = U.lower (stripChars title.toList) := by
      simpa using List.find?_some (show List.find? _ _ = _ from hfound)
    rw [htask] at hsame
    have hold : task.id ∈ s₀.tasks.keys := by
      by_contra hnew
      obtain ⟨key, entry, hentry, hid⟩ := h.new task.id (OrdDict.mem_keys.mpr (by rw [hrow]; rfl)) hnew
      obtain ⟨row', hrow', -, hkey, -⟩ := (h.entry key entry hentry).task
      rw [hid] at hrow'
      obtain rfl := Option.some.inj (hrow.symm.trans hrow')
      rw [← hkey, hU _ _ hsame.2, hnone] at hentry
      cases hentry
    have hrow₀ : s₀.tasks.get? task.id = some row := (h.tasks _ hold).symm.trans hrow
    refine ⟨task.id, row, ⟨hrow₀, hsame.2, ?_⟩, hsame.1⟩
    have hknown := hs₀.task_project row (OrdDict.mem_values.mpr ⟨_, hrow₀⟩)
    cases hhousing₀ : s₀.housing U (U.lower c.project.toList) with
    | some e₀ =>
      have heq := h.housing _ _ hhousing₀
      rw [hhousing] at heq
      obtain rfl := Option.some.inj heq
      exact ⟨e, rfl, hproject.trans hhome.symm⟩
    | none =>
      refine absurd hknown ?_
      rw [hproject, ← hhome]
      exact h.housing_new _ _ hhousing₀ hhousing
  · rintro ⟨t, row, ⟨hrow, hname, e, hhousing, hproject⟩, hopen⟩
    have hfound : s.projectByTitle U (captureTarget (some c.project)) = some e := by
      rw [htarget]
      exact h.housing _ _ hhousing
    have hhome : (s.homeOf U (some c.project)).1 = e.1 := by simp only [Store.homeOf, hfound]
    have hhoused : s.housed U (some c.project) actorId = s := by simp only [Store.housed, hfound]
    have hold : t ∈ s₀.tasks.keys := OrdDict.mem_keys.mpr (by rw [hrow]; rfl)
    rw [hhome, hhoused, findDuplicate, List.find?_isSome]
    refine ⟨⟨t, row.name, row.status, row.endDate, row.durationHours⟩, ?_, by simp [hopen, hname]⟩
    exact Store.mem_projectTasks.mpr ⟨row, (h.tasks t hold).trans hrow, hproject, rfl⟩

/-- The first call that opens a key is all that the key has gathered. -/
theorem gathered_first (h : TurnState U s₀ done entries s) {title : String} {intent : CaptureTaskIntent}
    (htitle : c.title = some title) (hintent : c.intent = some intent)
    (hnone : entries.get? (titleKey U title) = none)
    (hnot : ¬ s₀.Holds U (U.lower c.project.toList, U.lower (stripChars title.toList))) :
    gathered U s₀ (titleKey U title) (done ++ [c]) = [c] := by
  have hopens : Opens U s₀ (titleKey U title) c := by
    refine ⟨KeyedCall.key_of_title htitle, by rw [hintent]; rfl, fun pair hp => ?_⟩
    rw [Option.mem_def, KeyedCall.pair_of_title htitle] at hp
    obtain rfl := Option.some.inj hp
    exact hnot
  rw [gathered_append_of_nil (h.unopened _ hnone), if_pos hopens]

theorem file (h : TurnState U s₀ done entries s) {title : String} {intent : CaptureTaskIntent}
    (htitle : c.title = some title) (hintent : c.intent = some intent)
    (hnone : entries.get? (titleKey U title) = none)
    (hnot : ¬ s₀.Holds U (U.lower c.project.toList, U.lower (stripChars title.toList))) (actorId : Option UUID)
    {e : CaptureEntry} (hid : e.taskId = (s.housed U intent.projectName actorId).nextId)
    (hassignees : e.assignees = (s.housed U intent.projectName actorId).namesFound intent.assigneeNames) :
    TurnState U s₀ (done ++ [c]) (entries.insert (titleKey U title) e)
      ((s.housed U intent.projectName actorId).filed (s.homeOf U intent.projectName) intent actorId) := by
  obtain ⟨htask, hnames, hproject⟩ := KeyedCall.intent_spec hintent htitle
  have hkeys := h.keys.housed U intent.projectName actorId
  have hpeople := (Store.housed_people (U := U) (s := s) intent.projectName actorId).trans h.people
  have hhomed := Store.homeOf_mem (U := U) (s := s) intent.projectName actorId
  have hfilesProject := @housing_home U s intent.projectName actorId h.keys
  have htarget : captureTarget intent.projectName = c.project := by rw [hproject, c.captureTarget_project]
  rw [htarget] at hfilesProject
  have hkept := fun t e => @housing_kept U s t e intent.projectName actorId h.keys
  have hmade := fun t e => @housing_made U s t e intent.projectName actorId h.keys
  have htasks := @housed_tasks U s intent.projectName actorId
  have hassignments := @housed_assignments U s intent.projectName actorId
  have hprojects := fun p => @housed_projects U s intent.projectName actorId p
  have hnew : (s.housed U intent.projectName actorId).nextId ∉ s.tasks.keys := htasks ▸ hkeys.task_new
  generalize s.housed U intent.projectName actorId = house at *
  generalize s.homeOf U intent.projectName = home at *
  have hkey : c.key U = some (titleKey U title) := KeyedCall.key_of_title htitle
  have hother : ∀ t ∈ s.tasks.keys, (house.filed home intent actorId).tasks.get? t = s.tasks.get? t := by
    intro t ht
    have hne : t ≠ house.nextId := fun he => hnew (he ▸ ht)
    exact (OrdDict.get?_insert_of_ne _ _ hne).trans (by rw [← htasks]; rfl)
  have hmade' : (house.filed home intent actorId).tasks.get? house.nextId = some (intent.row home.1) :=
    OrdDict.get?_insert_self _ _ _
  have hrows : ∀ t p, (t, p) ∈ (house.filed home intent actorId).assignments.keys ↔
      t = house.nextId ∧ s₀.Finds c.names p ∨ (t, p) ∈ s.assignments.keys := by
    intro t p
    rw [Store.mem_filed, hnames, Store.finds_congr hpeople, hassignments]
  have hself : EntryState U s₀ (done ++ [c]) (house.filed home intent actorId) (titleKey U title) e := by
    rw [← hid] at hmade'
    obtain ⟨e₁, he₁, hhome⟩ := hfilesProject
    have hname : U.lower (stripChars (intent.row home.1).name.toList) = U.lower (stripChars title.toList) :=
      congrArg (fun n : String => U.lower (stripChars n.toList)) htask
    refine .opened (intent.row home.1) (h.gathered_first htitle hintent hnone hnot)
      (hid ▸ fun hold => hnew (h.mem_tasks hold)) (KeyedCall.pair_of_title htitle) nofun
      (congrArg (titleKey U) htask) ⟨hmade', hname, e₁, he₁, hhome.symm⟩ (fun p => ?_) fun x => ?_
    · rw [hrows, hid]
      have hfree : (house.nextId, p) ∉ s.assignments.keys := fun hp => hnew (h.keys.assignment_task _ hp)
      simp [hfree]
    · rw [hassignees, hnames]
      simp only [Store.namesFound, List.mem_filterMap, Option.map_eq_some_iff, Store.personByName_congr hpeople]
  refine ⟨hkeys.filed hhomed intent actorId, hpeople, fun t ht => ?_, fun p hp => ?_, fun t e' he' => ?_,
    fun t e' he' hmade'' => ?_, h.unopened_insert hkey, h.entry_insert hkey hself hkept
      (fun t ht hne => ⟨hother t ht, fun p => (hrows t p).trans (by simp [hid ▸ hne])⟩)
      fun key' e' _ he' heq => hnew (hid ▸ heq ▸ h.entry_mem he'), ?_⟩
  · rw [hother t (h.mem_tasks ht), h.tasks t ht]
  · exact hprojects p (h.projects p hp)
  · exact hkept t e' (h.housing t e' he')
  · cases hbefore : s.housing U t with
    | some e₁ =>
      have hsame := (hkept t e₁ hbefore).symm.trans hmade''
      obtain rfl := Option.some.inj hsame
      exact h.housing_new t e₁ he' hbefore
    | none =>
      have hid' := hmade t e' hbefore hmade''
      intro hold
      exact h.keys.project_new (hid' ▸ h.projects _ hold)
  · intro t ht hfresh
    rcases OrdDict.mem_keys_insert.mp ht with rfl | ht
    · exact ⟨titleKey U title, e, OrdDict.get?_insert_self _ _ _, hid⟩
    · obtain ⟨key', e', he', rfl⟩ := h.new t (htasks ▸ ht) hfresh
      have hk : key' ≠ titleKey U title := by
        rintro rfl
        rw [hnone] at he'
        cases he'
      exact ⟨key', e', by rw [OrdDict.get?_insert_of_ne _ _ hk, he'], rfl⟩

theorem call {ctx : ToolContext} {box : ToolBox} (h : TurnState ctx.tables s₀ done box.capturesByKey s)
    (hadmin : ctx.isAdmin = true) (hs₀ : s₀.TaskKeys) (hU : FoldsCase ctx.tables)
    (hknown : s₀.knows (ctx.actor.map PersonRecord.id)) (c : KeyedCall) :
    ∃ outcome s', (box.execute ctx c.args "capture_task").run s = (.ok outcome, s') ∧
      TurnState ctx.tables s₀ (done ++ [c]) outcome.box.capturesByKey s' := by
  cases htitle : c.title with
  | none =>
    obtain ⟨said, hrun⟩ := @untitled_run ctx c box s hadmin htitle
    refine ⟨_, _, hrun, h.skip fun key hkey => ?_⟩
    rw [KeyedCall.key, htitle] at hkey
    cases hkey
  | some title =>
    have hkey := @KeyedCall.key_of_title ctx.tables c title htitle
    have hpair := @KeyedCall.pair_of_title ctx.tables c title htitle
    cases hentry : box.capturesByKey.get? (titleKey ctx.tables title) with
    | some entry =>
      obtain ⟨outcome, hrun, hbox⟩ := merging_run hadmin htitle hentry (h.entry_mem hentry)
      refine ⟨outcome, _, hrun, ?_⟩
      rw [hbox]
      exact h.merge hkey hentry
    | none =>
      cases hintent : c.intent with
      | none =>
        obtain ⟨said, hrun⟩ := refused_run (s := s) hadmin htitle hentry hintent
        refine ⟨_, _, hrun, h.skip fun key hkey' => ?_⟩
        obtain rfl := Option.some.inj (hkey.symm.trans hkey')
        refine ⟨hentry, fun hopens => ?_⟩
        have hsome := hopens.2.1
        rw [hintent] at hsome
        cases hsome
      | some intent =>
        obtain ⟨htask, -, hproject⟩ := KeyedCall.intent_spec hintent htitle
        have hknows : s.knows (ctx.actor.map PersonRecord.id) := fun p hp => by
          rw [h.people]
          exact hknown p hp
        have hdup := h.duplicate_iff hs₀ hU hentry c (ctx.actor.map PersonRecord.id)
        have hrun := captureTask_run (U := ctx.tables) h.keys hknows ctx.taskSink intent
        rw [htask] at hrun
        rw [← hproject] at hdup
        cases hfound : findDuplicate ctx.tables ((s.housed ctx.tables intent.projectName
            (ctx.actor.map PersonRecord.id)).projectTasks (s.homeOf ctx.tables intent.projectName).1) title with
        | some task =>
          rw [hfound] at hrun hdup
          have hholds := hdup.mp rfl
          refine ⟨_, _, capturing_run hadmin htitle hentry hintent hrun, h.skip fun key hkey' => ?_⟩
          obtain rfl := Option.some.inj (hkey.symm.trans hkey')
          exact ⟨hentry, fun hopens => hopens.2.2 _ hpair hholds⟩
        | none =>
          rw [hfound] at hrun hdup
          have hnot : ¬ s₀.Holds ctx.tables _ := fun hholds => Bool.false_ne_true (hdup.mpr hholds)
          refine ⟨_, _, capturing_run hadmin htitle hentry hintent hrun, ?_⟩
          exact h.file htitle hintent hentry hnot _ rfl rfl

theorem calls {ctx : ToolContext} {box : ToolBox} (h : TurnState ctx.tables s₀ done box.capturesByKey s)
    (hadmin : ctx.isAdmin = true) (hs₀ : s₀.TaskKeys) (hU : FoldsCase ctx.tables)
    (hknown : s₀.knows (ctx.actor.map PersonRecord.id)) (cs : List KeyedCall) :
    ∃ box' s', (captureCalls ctx cs box).run s = (.ok box', s') ∧
      TurnState ctx.tables s₀ (done ++ cs) box'.capturesByKey s' := by
  induction cs generalizing done box s with
  | nil => exact ⟨box, s, rfl, by rwa [List.append_nil]⟩
  | cons c rest ih =>
    obtain ⟨outcome, s₁, hrun, h₁⟩ := h.call hadmin hs₀ hU hknown c
    obtain ⟨box', s', hrest, h'⟩ := ih h₁
    refine ⟨box', s', ?_, ?_⟩
    · rw [captureCalls, run_bind_of_ok hrun, hrest]
    · rwa [List.append_assoc, List.singleton_append] at h'

/-- A new task is the one of its key. -/
theorem filed_entry (h : TurnState U s₀ done entries s) (hU : FoldsCase U) {pair : List Char × List Char} {t : UUID}
    {row : TaskRow} (hnew : t ∉ s₀.tasks.keys) (hfiles : s.Files U pair t row) {title : String}
    (htitle : pair.2 = U.lower (stripChars title.toList)) :
    ∃ e, entries.get? (titleKey U title) = some e ∧ e.taskId = t := by
  obtain ⟨hrow, hname, -⟩ := hfiles
  obtain ⟨key, e, he, rfl⟩ := h.new t (OrdDict.mem_keys.mpr (by rw [hrow]; rfl)) hnew
  obtain ⟨row', hrow', -, hkey, -⟩ := (h.entry key e he).task
  obtain rfl := Option.some.inj (hrow.symm.trans hrow')
  have hsame : titleKey U row.name = titleKey U title := hU _ _ (hname.trans htitle)
  exact ⟨e, by rw [← hsame, hkey, he], rfl⟩

theorem files_pair_inj {pair pair' : List Char × List Char} {t : UUID} {row row' : TaskRow} (h : s.Files U pair t row)
    (h' : s.Files U pair' t row') : pair = pair' := by
  obtain ⟨hrow, hname, e, he, hproject⟩ := h
  obtain ⟨hrow', hname', e', he', hproject'⟩ := h'
  obtain rfl := Option.some.inj (hrow.symm.trans hrow')
  obtain ⟨hmem, htitle⟩ := housing_spec he
  obtain ⟨hmem', htitle'⟩ := housing_spec he'
  have hid : e.1 = e'.1 := hproject.symm.trans hproject'
  have hvalue : e.2 = e'.2 := by
    have hget := OrdDict.get?_eq_some_iff.mpr hmem
    rw [hid, OrdDict.get?_eq_some_iff.mpr hmem'] at hget
    exact (Option.some.inj hget).symm
  refine Prod.ext ?_ (hname.symm.trans hname')
  rw [← htitle, ← htitle', hvalue]

/-- A pair has its task iff the calls of its key were for it. -/
theorem filedExactly_iff (h : TurnState U s₀ done entries s) (hU : FoldsCase U) {title : String}
    (htitle : c.title = some title) {pair : List Char × List Char} (hpair : c.pair U = some pair) :
    FiledExactly U s₀ s done pair ↔ (∃ head ∈ (gathered U s₀ (titleKey U title) done).head?, head.pair U = some pair) ∧
      ∀ p, s₀.Finds (namedWith U s₀ (titleKey U title) done) p ↔ s₀.Finds (namedFor U pair done) p := by
  have hname : pair.2 = U.lower (stripChars title.toList) := by
    rw [KeyedCall.pair_of_title htitle] at hpair
    rw [← Option.some.inj hpair]
  constructor
  · rintro ⟨t, ⟨hnew, row, hfiles⟩, -, hpeople⟩
    obtain ⟨e, he, rfl⟩ := h.filed_entry hU hnew hfiles hname
    have hentry := h.entry _ e he
    obtain ⟨row', -, -, -, head, hhead, pair', hheadPair, hfiles'⟩ := hentry.task
    obtain rfl := files_pair_inj hfiles hfiles'
    exact ⟨⟨head, hhead, hheadPair⟩, fun p => (hentry.people p).symm.trans (hpeople p)⟩
  · rintro ⟨⟨head, hhead, hheadPair⟩, hpeople⟩
    cases he : entries.get? (titleKey U title) with
    | none =>
      rw [h.unopened _ he] at hhead
      cases hhead
    | some e =>
      have hentry := h.entry _ e he
      obtain ⟨row, -, -, -, head', hhead', pair', hheadPair', hfiles⟩ := hentry.task
      obtain rfl := Option.some.inj (hhead.symm.trans hhead')
      obtain rfl := Option.some.inj (hheadPair.symm.trans hheadPair')
      refine ⟨e.taskId, ⟨hentry.fresh, row, hfiles⟩, ?_, fun p => (hentry.people p).trans (hpeople p)⟩
      rintro t' ⟨hnew, row', hfiles'⟩
      obtain ⟨e', he', rfl⟩ := h.filed_entry hU hnew hfiles' hname
      obtain rfl := Option.some.inj (he.symm.trans he')
      rfl

end TurnState

/-- The captures of a turn are filed exactly iff the tool's keys tell apart what
the captures do. -/
theorem turn_filed_iff (ctx : ToolContext) (hadmin : ctx.isAdmin = true) (hU : FoldsCase ctx.tables) (s : Store)
    (hs : s.TaskKeys) (hknown : s.knows (ctx.actor.map PersonRecord.id)) (calls : List KeyedCall) :
    TurnFiled ctx.tables s ((captureCalls ctx calls {}).run s).2 calls ↔ KeysTellApart ctx.tables s calls := by
  obtain ⟨box, s', hrun, h⟩ := @TurnState.calls s s [] ctx {} (TurnState.start hs) hadmin hs hU hknown calls
  rw [hrun]
  rw [List.nil_append] at h
  constructor
  · intro hfiled c hc key hkey pair hpair hnot
    obtain ⟨title, htitle, rfl⟩ := Option.map_eq_some_iff.mp hkey
    exact (h.filedExactly_iff hU htitle hpair).mp (hfiled pair ⟨c, hc, hpair⟩ hnot)
  · rintro hapart pair ⟨c, hc, hpair⟩ hnot
    obtain ⟨title, htitle, -⟩ := Option.map_eq_some_iff.mp hpair
    have hkey := @KeyedCall.key_of_title ctx.tables c title htitle
    exact (h.filedExactly_iff hU htitle hpair).mpr (hapart c hc _ hkey pair hpair hnot)

theorem plain_foldsCase : FoldsCase .plain := by
  have hjoin : ∀ ws : List (List Char), (List.intercalate [' '] ws).map lowerChar =
      List.intercalate [' '] (ws.map (List.map lowerChar)) := by
    have hblank : lowerChar ' ' = ' ' := by decide
    intro ws
    induction ws with
    | nil => rfl
    | cons w rest ih =>
      cases rest with
      | nil => simp [List.intercalate]
      | cons w' rest =>
        simp only [List.intercalate, List.map_cons, List.intersperse_cons_cons, List.flatten_cons, List.map_append,
          hblank, List.map_nil] at ih ⊢
        rw [ih]
  have hkey : ∀ a : String, titleKey .plain a = List.intercalate [' '] (words ((stripChars a.toList).map lowerChar)) := by
    intro a
    rw [words_map isSpace_lowerChar, words_stripChars, ← hjoin]
    rfl
  intro a b h
  rw [hkey, hkey]
  exact congrArg (fun cs => List.intercalate [' '] (words cs)) h

section Montage

def Arg.ofNames (names : List String) : Arg where
  shown := "[" ++ joined ", " (names.map fun name => "'" ++ name ++ "'") ++ "]"
  falsy := names.isEmpty
  text := none
  items := some names
  int := none
  optInt := none
  time := none
  shown_text := nofun
  falsy_text := nofun

/-- One person, due on the fifth day. -/
def captureCall (title project name : String) (h : strip project ≠ "") : KeyedCall where
  args := [("title", .ofText title), ("assignees", .ofNames [name]), ("project", .ofText project),
    ("deadline", .ofText "0001-01-05")]
  names := [name]
  project := strip project
  deadline := 5
  assignees_eq := rfl
  project_eq := by
    have hproject : project ≠ "" := by
      rintro rfl
      exact h rfl
    simp [Args.stripped, Args.given?, List.lookup_cons, Arg.ofText, hproject, orRaise, Except.map, Option.filter]
  deadline_eq := by rfl
  assigned := by simp
  housed := h

/-- Anna and Boris with two projects. -/
def montageTeam : Store where
  people := (OrdDict.empty.insert 1 { name := "Анна" }).insert 2 { name := "Борис" }
  projects := (OrdDict.empty.insert 3 montageProject).insert 4 { montageProject with title := "Каталог" }
  nextId := 5

def montageForTwo : List KeyedCall :=
  [captureCall "Монтаж" "Ролик" "Анна" (by decide), captureCall "Монтаж" "Ролик" "Борис" (by decide)]

theorem turn_filed_iff_montage :
    TurnFiled .plain montageTeam ((captureCalls shootingTools montageForTwo {}).run montageTeam).2 montageForTwo ↔
      KeysTellApart .plain montageTeam montageForTwo :=
  turn_filed_iff shootingTools rfl plain_foldsCase montageTeam (by constructor <;> decide) (by decide) montageForTwo

def montageTwice : List KeyedCall :=
  [captureCall "Монтаж" "Ролик" "Анна" (by decide), captureCall "Монтаж" "Каталог" "Борис" (by decide)]

/-- The second task has the title of the first one and is dropped. -/
theorem second_project_dropped :
    ¬ TurnFiled .plain montageTeam ((captureCalls shootingTools montageTwice {}).run montageTeam).2 montageTwice := by
  intro h
  have hcalled : (captureCall "Монтаж" "Каталог" "Борис" (by decide)).pair .plain =
      some ("каталог".toList, "монтаж".toList) := by decide +kernel
  obtain ⟨t, ⟨-, row, hrow, -, e, he, hproject⟩, -⟩ :=
    h ("каталог".toList, "монтаж".toList) ⟨_, List.mem_cons_of_mem _ List.mem_cons_self, hcalled⟩ (by decide)
  have hmem := OrdDict.mem_values.mpr ⟨t, hrow⟩
  have hvalues : (((captureCalls shootingTools montageTwice {}).run montageTeam).2.tasks.values).map TaskRow.projectId =
      [3] := by decide +kernel
  have hthree : row.projectId = 3 := by simpa [hvalues] using List.mem_map_of_mem (f := TaskRow.projectId) hmem
  have hfour : (((captureCalls shootingTools montageTwice {}).run montageTeam).2.housing .plain
      "каталог".toList).map Prod.fst = some 4 := by decide +kernel
  rw [he] at hfour
  rw [hthree, Option.some.inj hfour] at hproject
  exact absurd hproject (by decide)

end Montage

end Planner
