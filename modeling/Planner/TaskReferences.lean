import Planner.AuditTrail
import Planner.TurnAnswers

/-! Which task a reference names. The rows that are matched are one for each
assignee, so a task with two assignees looks like two tasks; and the title of the
project that a reference may carry is not looked at. -/

namespace Planner

open Program

/-- `str.casefold` goes character by character; blanks stay blanks, and nothing else becomes one. -/
def CharTables.FoldsByChar (U : CharTables) : Prop :=
  ∃ f : Char → List Char, (∀ cs, U.casefold cs = cs.flatMap f) ∧
    ∀ c, ∃ d ds, f c = d :: ds ∧ isSpace d = isSpace c

theorem CharTables.plain_foldsByChar : CharTables.plain.FoldsByChar :=
  ⟨fun c => [lowerChar c], fun _ => List.map_eq_flatMap,
    fun c => ⟨lowerChar c, [], rfl, isSpace_lowerChar c⟩⟩

section Fold

variable {U : CharTables} {a b : List Char}

theorem casefold_append (hU : U.FoldsByChar) (a b : List Char) : U.casefold (a ++ b) = U.casefold a ++ U.casefold b := by
  obtain ⟨f, hf, -⟩ := hU
  rw [hf, hf, hf, List.flatMap_append]

theorem casefold_eq_nil (hU : U.FoldsByChar) : U.casefold a = [] ↔ a = [] := by
  obtain ⟨f, hf, hblank⟩ := hU
  rw [hf, List.flatMap_eq_nil_iff]
  constructor
  · intro h
    refine List.eq_nil_iff_forall_not_mem.mpr fun c hc => ?_
    obtain ⟨d, ds, hd, -⟩ := hblank c
    rw [h c hc] at hd
    cases hd
  · rintro rfl c hc
    cases hc

/-- Whether a text begins with a blank is seen after folding, too. -/
theorem casefold_head (hU : U.FoldsByChar) (c : Char) (cs : List Char) :
    ∃ d ds, U.casefold (c :: cs) = d :: ds ∧ isSpace d = isSpace c := by
  obtain ⟨f, hf, hblank⟩ := hU
  obtain ⟨d, ds, hd, hsame⟩ := hblank c
  exact ⟨d, ds ++ cs.flatMap f, by rw [hf, List.flatMap_cons, hd, List.cons_append], hsame⟩

theorem length_casefold_lt (hU : U.FoldsByChar) (hb : b ≠ []) : (U.casefold a).length < (U.casefold (a ++ b)).length := by
  rw [casefold_append hU, List.length_append]
  have hpos := List.length_pos_of_ne_nil ((casefold_eq_nil hU).not.mpr hb)
  omega

end Fold

/-- A text is what `strip` leaves between blanks. -/
theorem exists_stripChars (cs : List Char) : ∃ pre post, cs = pre ++ stripChars cs ++ post := by
  obtain ⟨pre, hpre⟩ : ∃ pre, pre ++ cs.dropWhile isSpace = cs := List.dropWhile_suffix isSpace
  obtain ⟨post, hpost⟩ : stripChars cs <+: cs.dropWhile isSpace := List.rdropWhile_prefix isSpace _
  exact ⟨pre, post, by rw [List.append_assoc, hpost, hpre]⟩

/-- Stripping makes a text shorter or leaves it alone, after folding too. -/
theorem length_casefold_strip {U : CharTables} (hU : U.FoldsByChar) {cs : List Char} (h : stripChars cs ≠ cs) :
    (U.casefold (stripChars cs)).length < (U.casefold cs).length := by
  obtain ⟨pre, post, hsplit⟩ := exists_stripChars cs
  have hlen : (U.casefold cs).length =
      (U.casefold pre).length + (U.casefold (stripChars cs)).length + (U.casefold post).length := by
    conv_lhs => rw [hsplit, casefold_append hU, casefold_append hU]
    simp only [List.length_append]
  have hsome : pre ≠ [] ∨ post ≠ [] := by
    by_contra hnone
    push Not at hnone
    obtain ⟨rfl, rfl⟩ := hnone
    exact h (by simpa using hsplit.symm)
  rcases hsome with hne | hne
  · have hpos := List.length_pos_of_ne_nil ((casefold_eq_nil hU).not.mpr hne)
    omega
  · have hpos := List.length_pos_of_ne_nil ((casefold_eq_nil hU).not.mpr hne)
    omega

namespace Store

variable (U : CharTables) (s : Store)

/-- Rows of `assignments` for the task. -/
def assigneeCount (t : UUID) : Nat := s.assignments.keys.countP fun k => k.1 = t

/-- Of all tasks only `t` has the name, up to case. -/
structure OnlyNamed (name : String) (t : UUID) : Prop where
  named : ∃ row, s.tasks.get? t = some row ∧ U.casefold row.name.toList = U.casefold name.toList
  only : ∀ t' row, s.tasks.get? t' = some row → U.casefold row.name.toList = U.casefold name.toList → t' = t

variable {U} {s} {t : UUID} {row : TaskRow} {x : UUID × String}

theorem mem_tasksWithMeta_iff : x ∈ s.tasksWithMeta ↔ ∃ row, s.tasks.get? x.1 = some row ∧ row.name = x.2 := by
  simp only [tasksWithMeta, List.mem_flatMap, List.mem_insertionSort, List.mem_replicate]
  constructor
  · rintro ⟨e, he, -, rfl⟩
    exact ⟨e.2, OrdDict.get?_eq_some_iff.mpr he, rfl⟩
  · rintro ⟨row, hrow, hname⟩
    refine ⟨(x.1, row), OrdDict.get?_eq_some_iff.mp hrow, by omega, ?_⟩
    rw [hname]

/-- What picks only the name of one task picks one row for each of its assignees. -/
theorem filter_tasksWithMeta {q : String → Bool} (ht : s.tasks.get? t = some row) (hq : q row.name = true)
    (honly : ∀ t' row', s.tasks.get? t' = some row' → q row'.name = true → t' = t) :
    s.tasksWithMeta.filter (fun x => q x.2) = List.replicate (max 1 (s.assigneeCount t)) (t, row.name) := by
  obtain ⟨rows, hperm, hmeta⟩ : ∃ rows : List (UUID × TaskRow), rows.Perm s.tasks.entries ∧
      s.tasksWithMeta = rows.flatMap fun e => List.replicate (max 1 (s.assigneeCount e.1)) (e.1, e.2.name) :=
    ⟨_, List.perm_insertionSort _ _, rfl⟩
  have hmem : (t, row) ∈ rows := hperm.mem_iff.mpr (OrdDict.get?_eq_some_iff.mp ht)
  have hnodup : (rows.map Prod.fst).Nodup := (hperm.map Prod.fst).nodup_iff.mpr s.tasks.nodup_keys
  have hrows : ∀ e ∈ rows, q e.2.name = true → e.1 = t := fun e he hqe =>
    honly e.1 e.2 (OrdDict.get?_eq_some_iff.mpr (hperm.mem_iff.mp he)) hqe
  obtain ⟨pre, post, rfl⟩ := List.append_of_mem hmem
  rw [List.map_append, List.map_cons, List.nodup_middle, List.nodup_cons, ← List.map_append] at hnodup
  -- the rows of the other tasks have other names
  have hnone : ∀ l : List (UUID × TaskRow), l ⊆ pre ++ post → (l.flatMap fun e =>
      List.replicate (max 1 (s.assigneeCount e.1)) (e.1, e.2.name)).filter (fun x => q x.2) = [] := by
    intro l hl
    rw [List.filter_eq_nil_iff]
    intro x hx hqx
    obtain ⟨e, he, hrep⟩ := List.mem_flatMap.mp hx
    obtain rfl := List.eq_of_mem_replicate hrep
    have hother : e ∈ pre ++ (t, row) :: post := by
      rcases List.mem_append.mp (hl he) with h | h
      · exact List.mem_append_left _ h
      · exact List.mem_append_right _ (List.mem_cons_of_mem _ h)
    exact hnodup.1 (List.mem_map.mpr ⟨e, hl he, hrows e hother hqx⟩)
  rw [hmeta, List.flatMap_append, List.flatMap_cons, List.filter_append, List.filter_append,
    hnone pre (List.subset_append_left _ _), hnone post (List.subset_append_right _ _), List.nil_append,
    List.append_nil, List.filter_eq_self.mpr]
  intro x hx
  rw [List.eq_of_mem_replicate hx]
  exact hq

end Store

section Named

variable {U : CharTables} {s : Store} {t : UUID} {ref r : String}

theorem stripChars_strip (ref : String) : stripChars (strip ref).toList = stripChars ref.toList := by
  rw [strip, String.toList_ofList, stripChars_stripChars]

/-- Rows are one row exactly if they are those of a task without a second assignee. -/
theorem replicate_eq_singleton {n : Nat} {x : UUID × String} :
    (∃ name, List.replicate (max 1 n) x = [(x.1, name)]) ↔ n ≤ 1 := by
  constructor
  · rintro ⟨name, h⟩
    have hlen := congrArg List.length h
    rw [List.length_replicate, List.length_singleton] at hlen
    omega
  · intro h
    rw [show max 1 n = 1 by omega]
    exact ⟨x.2, rfl⟩

section Match

variable {tasks : List (UUID × String)} {x : UUID × String}

theorem matchTasks_empty (hU : U.FoldsByChar) (h : stripChars ref.toList = []) : matchTasks U ref tasks = [] := by
  rw [matchTasks, h]
  exact if_pos ((casefold_eq_nil hU).mpr rfl)

theorem matchTasks_exact (hU : U.FoldsByChar) (h : stripChars ref.toList ≠ [])
    (hexact : tasks.filter (fun t => U.casefold t.2.toList = U.casefold (stripChars ref.toList)) ≠ []) :
    matchTasks U ref tasks =
      tasks.filter fun t => U.casefold t.2.toList = U.casefold (stripChars ref.toList) := by
  rw [matchTasks]
  dsimp only
  rw [if_neg ((casefold_eq_nil hU).not.mpr h), if_pos hexact]

theorem matchTasks_within (hU : U.FoldsByChar) (h : stripChars ref.toList ≠ [])
    (hexact : tasks.filter (fun t => U.casefold t.2.toList = U.casefold (stripChars ref.toList)) = []) :
    matchTasks U ref tasks =
      tasks.filter fun t => U.casefold t.2.toList <:+: U.casefold (stripChars ref.toList) := by
  rw [matchTasks]
  dsimp only
  rw [if_neg ((casefold_eq_nil hU).not.mpr h), if_neg (not_not.mpr hexact)]

/-- Whatever is picked appears in the reference. -/
theorem infix_of_mem_matchTasks (h : x ∈ matchTasks U ref tasks) :
    U.casefold x.2.toList <:+: U.casefold (stripChars ref.toList) := by
  unfold matchTasks at h
  dsimp only at h
  split at h
  · cases h
  · split at h
    · have hsame : U.casefold x.2.toList = _ := of_decide_eq_true (List.mem_filter.mp h).2
      rw [hsame]
    · exact of_decide_eq_true (List.mem_filter.mp h).2

end Match

/-- The only task of a name is picked exactly if it has no second assignee and
the name neither is empty nor has blanks around it. -/
theorem matchTasks_named (hU : U.FoldsByChar) (hr : r = ref ∨ r = strip ref) (h : s.OnlyNamed U r t) :
    (∃ name, matchTasks U ref s.tasksWithMeta = [(t, name)]) ↔ s.assigneeCount t ≤ 1 ∧ strip r = r ∧ r ≠ "" := by
  obtain ⟨row, hrow, hname⟩ := h.named
  have hsame : stripChars ref.toList = stripChars r.toList := by
    rcases hr with rfl | rfl
    · rfl
    · exact (stripChars_strip ref).symm
  by_cases hplain : stripChars r.toList = r.toList
  · have hstrip : strip r = r := by rw [strip, hplain, String.ofList_toList]
    by_cases hempty : r = ""
    · have hnil : stripChars ref.toList = [] := by rw [hsame, hempty]; rfl
      rw [matchTasks_empty hU hnil]
      refine iff_of_false ?_ fun hh => hh.2.2 hempty
      rintro ⟨_, he⟩
      cases he
    · have hne : stripChars ref.toList ≠ [] := by
        rw [hsame, hplain]
        exact fun he => hempty (String.toList_inj.mp he)
      have hrows := Store.filter_tasksWithMeta (q := fun n => decide (U.casefold n.toList = U.casefold r.toList)) hrow
        (decide_eq_true hname) fun t' row' ht' hq => h.only t' row' ht' (of_decide_eq_true hq)
      have hexact : s.tasksWithMeta.filter (fun t => U.casefold t.2.toList = U.casefold (stripChars ref.toList)) =
          List.replicate (max 1 (s.assigneeCount t)) (t, row.name) := by
        rw [hsame, hplain]
        exact hrows
      have hsome : List.replicate (max 1 (s.assigneeCount t)) (t, row.name) ≠ [] :=
        List.ne_nil_of_length_pos (by rw [List.length_replicate]; omega)
      rw [matchTasks_exact hU hne (hexact ▸ hsome), hexact, replicate_eq_singleton (x := (t, row.name))]
      exact ⟨fun hle => ⟨hle, hstrip, hempty⟩, fun hh => hh.1⟩
  · refine iff_of_false ?_ fun hh => hplain ?_
    · -- the name of the task is longer than what is looked for
      rintro ⟨name, he⟩
      have hmem : (t, name) ∈ matchTasks U ref s.tasksWithMeta := he ▸ List.mem_singleton_self _
      obtain ⟨row', hrow', hname'⟩ := Store.mem_tasksWithMeta_iff.mp (mem_matchTasks hmem)
      obtain rfl := Option.some.inj (hrow.symm.trans hrow')
      obtain rfl : row.name = name := hname'
      have hle := (infix_of_mem_matchTasks hmem).length_le
      have hlt := length_casefold_strip hU hplain
      rw [hname, hsame] at hle
      omega
    · rw [← String.toList_ofList (l := stripChars r.toList)]
      exact congrArg String.toList hh.2.1

end Named

section Runs

variable {U : CharTables} {s : Store} {t : UUID} {ref : String} {actorId : Option UUID}

theorem putAudit_inj {s s' : Store} {a a' : AuditRow} (haudit : s.audit = s'.audit)
    (h : s.putAudit a = s'.putAudit a') : a = a' := by
  have hrows : s.audit ++ [a] = s'.audit ++ [a'] := congrArg Store.audit h
  rw [haudit] at hrows
  exact List.singleton_inj.mp (List.append_cancel_left hrows)

theorem ne_putAudit {s s' : Store} {a : AuditRow} (haudit : s'.audit = s.audit) : s ≠ s'.putAudit a := by
  intro h
  have hlen : s.audit.length = (s'.audit ++ [a]).length := congrArg (fun s => s.audit.length) h
  rw [haudit, List.length_append, List.length_singleton] at hlen
  omega

theorem assign_state_iff {personName : String} {person : PersonRecord} (hknown : s.knows actorId)
    (hperson : s.personByName personName = some person) :
    ((buildAssignReply U ref personName actorId).run s).2 =
        (s.reassigned t person.id).putAudit (Store.reassignAudit t person.id actorId) ↔
      ∃ name, matchTasks U ref s.tasksWithMeta = [(t, name)] := by
  rcases buildAssignReply_run (U := U) hknown ref personName with ⟨hno, text, hrun⟩ | ⟨person', task, text, hp, hm, -, hrun⟩
  · rw [hrun]
    refine iff_of_false (ne_putAudit (audit_reassigned t person.id)) ?_
    rintro ⟨name, hm⟩
    exact hno ⟨by rw [hperson]; rfl, (t, name), hm⟩
  · rw [hrun]
    obtain rfl := Option.some.inj (hp.symm.trans hperson)
    constructor
    · intro h
      have haudit := putAudit_inj ((audit_reassigned _ _).trans (audit_reassigned _ _).symm) h
      have hid : task.1 = t := Option.some.inj (congrArg AuditRow.entityId haudit)
      exact ⟨task.2, hm.trans (by rw [← hid])⟩
    · rintro ⟨name, hm'⟩
      obtain rfl := List.singleton_inj.mp (hm.symm.trans hm')
      rfl

variable {ctx : ToolContext} {args : Args}

theorem mark_state_iff (hknown : s.knows (ctx.actor.map PersonRecord.id))
    (hargs : ((args.given? "task_ref").map Arg.shown).getD "" = ref) (box : ToolBox) :
    ((markTool ctx args box).run s).2 = (s.modifyTask t ({ · with status := .done })).putAudit
        (Store.markAudit t (ctx.actor.map PersonRecord.id)) ↔
      ∃ name, matchTasks ctx.tables ref s.tasksWithMeta = [(t, name)] := by
  have hsame : matchTasks ctx.tables (strip ref) s.tasksWithMeta = matchTasks ctx.tables ref s.tasksWithMeta := by
    rw [matchTasks, stripChars_strip, ← matchTasks]
  have hmeta : Repo.listTasksWithMeta.run s = (.ok s.tasksWithMeta, s) := run_read _ _
  rw [markTool, hargs, run_bind_of_ok hmeta, hsame]
  cases hmatch : matchTasks ctx.tables ref s.tasksWithMeta with
  | nil => exact iff_of_false (ne_putAudit rfl) fun ⟨_, h⟩ => nomatch h
  | cons task rest =>
    cases rest with
    | cons task' rest => exact iff_of_false (ne_putAudit rfl) fun ⟨_, h⟩ => nomatch h
    | nil =>
      dsimp only
      rw [run_bind_of_ok (markTaskDone_run hknown task.1)]
      constructor
      · intro h
        have hrows : (s.modifyTask task.1 ({ · with status := .done })).audit =
            (s.modifyTask t ({ · with status := .done })).audit := rfl
        have haudit := putAudit_inj hrows h
        have hid : task.1 = t := Option.some.inj (congrArg AuditRow.entityId haudit)
        exact ⟨task.2, by rw [← hid]⟩
      · rintro ⟨name, h⟩
        obtain rfl := List.singleton_inj.mp h
        rfl

end Runs

/-- The only task of a name is reassigned, and marked, by that name exactly if at
most one person has it and the name is not empty and has no blanks around it.
`r` is the reference as it stands or without its own blanks. -/
theorem unique_name_iff (ctx : ToolContext) (s : Store) (ref r : String) (t : UUID) (hU : ctx.tables.FoldsByChar)
    (hr : r = ref ∨ r = strip ref) (honly : s.OnlyNamed ctx.tables r t) (personName : String) (person : PersonRecord)
    (hperson : s.personByName personName = some person) (actorId : Option UUID) (hknown : s.knows actorId)
    (args : Args) (hargs : ((args.given? "task_ref").map Arg.shown).getD "" = ref)
    (hactor : s.knows (ctx.actor.map PersonRecord.id)) (box : ToolBox) :
    (((buildAssignReply ctx.tables ref personName actorId).run s).2 =
        (s.reassigned t person.id).putAudit (Store.reassignAudit t person.id actorId) ↔
      s.assigneeCount t ≤ 1 ∧ strip r = r ∧ r ≠ "") ∧
    (((markTool ctx args box).run s).2 = (s.modifyTask t ({ · with status := .done })).putAudit
        (Store.markAudit t (ctx.actor.map PersonRecord.id)) ↔
      s.assigneeCount t ≤ 1 ∧ strip r = r ∧ r ≠ "") := by
  have hmatch := matchTasks_named hU hr honly
  exact ⟨(assign_state_iff hknown hperson).trans hmatch, (mark_state_iff hactor hargs box).trans hmatch⟩

section Cover

def coverProject (title : String) : ProjectRow where
  title := title
  templateId := none
  deadline := none
  briefReturnDate := none
  status := .planning
  notionPageId := none
  createdBy := none

def cover : TaskRow where
  projectId := 3
  name := "Обложка"
  durationHours := 8

/-- Anna and Boris, and a cover that some of them make. -/
def coverTeam (assignees : List UUID) : Store where
  people := (OrdDict.empty.insert 1 { name := "Анна" }).insert 2 { name := "Борис" }
  projects := OrdDict.empty.insert 3 (coverProject "Альфа")
  tasks := OrdDict.empty.insert 4 cover
  assignments := OrdDict.ofList (assignees.map fun p => ((4, p), 8))
  nextId := 5

theorem coverTeam_onlyNamed (assignees : List UUID) : (coverTeam assignees).OnlyNamed .plain "обложка" 4 where
  named := ⟨cover, rfl, by decide⟩
  only t' row h _ := by
    have hmem : (t', row) ∈ [(4, cover)] := OrdDict.get?_eq_some_iff.mp h
    exact congrArg Prod.fst (List.mem_singleton.mp hmem)

theorem unique_name_iff_cover :
    (((buildAssignReply .plain "обложка" "Анна" (some 1)).run (coverTeam [2])).2 =
        ((coverTeam [2]).reassigned 4 1).putAudit (Store.reassignAudit 4 1 (some 1)) ↔
      (coverTeam [2]).assigneeCount 4 ≤ 1 ∧ strip "обложка" = "обложка" ∧ "обложка" ≠ "") ∧
    (((markTool shootingTools [("task_ref", .ofText "обложка")] {}).run (coverTeam [2])).2 =
        ((coverTeam [2]).modifyTask 4 ({ · with status := .done })).putAudit (Store.markAudit 4 (some 1)) ↔
      (coverTeam [2]).assigneeCount 4 ≤ 1 ∧ strip "обложка" = "обложка" ∧ "обложка" ≠ "") :=
  unique_name_iff shootingTools (coverTeam [2]) "обложка" "обложка" 4 CharTables.plain_foldsByChar (Or.inl rfl)
    (coverTeam_onlyNamed [2]) "Анна" { id := 1, name := "Анна" } (by decide) (some 1) (by decide)
    [("task_ref", .ofText "обложка")] rfl (by decide) {}

/-- With both of them on it the cover counts as several tasks, and nothing happens. -/
theorem pair_ambiguous : (coverTeam [1, 2]).OnlyNamed .plain "обложка" 4 ∧
    (coverTeam [1, 2]).personByName "Анна" = some { id := 1, name := "Анна" } ∧
    ((buildAssignReply .plain "обложка" "Анна" (some 1)).run (coverTeam [1, 2])).2 ≠
      ((coverTeam [1, 2]).reassigned 4 1).putAudit (Store.reassignAudit 4 1 (some 1)) ∧
    ((markTool shootingTools [("task_ref", .ofText "обложка")] {}).run (coverTeam [1, 2])).2 ≠
      ((coverTeam [1, 2]).modifyTask 4 ({ · with status := .done })).putAudit (Store.markAudit 4 (some 1)) := by
  have htwice : ¬ ∃ name, matchTasks .plain "обложка" (coverTeam [1, 2]).tasksWithMeta = [(4, name)] := by
    rintro ⟨name, h⟩
    have hlen : (matchTasks .plain "обложка" (coverTeam [1, 2]).tasksWithMeta).length = 1 := congrArg List.length h
    exact absurd hlen (by decide +kernel)
  have hanna : (coverTeam [1, 2]).personByName "Анна" = some { id := 1, name := "Анна" } := by decide
  have hactor : (coverTeam [1, 2]).knows (shootingTools.actor.map PersonRecord.id) := by decide
  refine ⟨coverTeam_onlyNamed [1, 2], hanna, fun h => htwice ?_, fun h => htwice ?_⟩
  · exact (assign_state_iff (by decide) hanna).mp h
  · have hargs : ((Args.given? [("task_ref", Arg.ofText "обложка")] "task_ref").map Arg.shown).getD "" = "обложка" := rfl
    have hmark := mark_state_iff (t := 4) hactor hargs {}
    exact hmark.mp h

end Cover

section Qualified

/-- «N в проекте P». -/
def qualified (name title : String) : String := name ++ " в проекте " ++ title

def Nonblank (text : String) : Prop := ∃ c ∈ text.toList, isSpace c = false

/-- Of the projects with the title only one task has the name, and one person has the task. -/
structure Store.OnlyIn (s : Store) (name title : String) (t : UUID) : Prop where
  there : ∃ row project, s.tasks.get? t = some row ∧ row.name = name ∧
    s.projects.get? row.projectId = some project ∧ project.title = title
  only : ∀ t' row project, s.tasks.get? t' = some row → row.name = name →
    s.projects.get? row.projectId = some project → project.title = title → t' = t
  oneAssignee : s.assigneeCount t = 1

variable {U : CharTables} {s : Store} {t : UUID} {name title : String}

theorem stripChars_append {a b : List Char} (ha : ∃ c ∈ a, isSpace c = false) (hb : ∃ c ∈ b, isSpace c = false)
    (mid : List Char) : stripChars (a ++ mid ++ b) = a.dropWhile isSpace ++ mid ++ b.rdropWhile isSpace := by
  have hfront : (a ++ mid ++ b).dropWhile isSpace = a.dropWhile isSpace ++ (mid ++ b) := by
    obtain ⟨c, hc, hblank⟩ := ha
    have hne : ¬ (a.dropWhile isSpace).isEmpty = true := by
      rw [List.isEmpty_iff, List.dropWhile_eq_nil_iff]
      exact fun hall => Bool.false_ne_true (hblank.symm.trans (hall c hc))
    rw [List.append_assoc, List.dropWhile_append, if_neg hne]
  have hback : (b.reverse.dropWhile isSpace).isEmpty ≠ true := by
    obtain ⟨c, hc, hblank⟩ := hb
    rw [Ne, List.isEmpty_iff, List.dropWhile_eq_nil_iff]
    exact fun hall => Bool.false_ne_true (hblank.symm.trans (hall c (List.mem_reverse.mpr hc)))
  rw [stripChars, hfront, ← List.append_assoc, List.reverse_append, List.dropWhile_append, if_neg hback,
    List.reverse_append, List.reverse_reverse]
  rfl

theorem stripChars_qualified (hname : Nonblank name) (htitle : Nonblank title) :
    stripChars (qualified name title).toList = name.toList.dropWhile isSpace ++ " в проекте ".toList ++
      title.toList.rdropWhile isSpace := by
  rw [qualified, String.toList_append, String.toList_append, stripChars_append hname htitle]

/-- A name alone is never the whole of a qualified reference. -/
theorem casefold_ne_qualified (hU : U.FoldsByChar) (hname : Nonblank name) (htitle : Nonblank title) :
    U.casefold name.toList ≠ U.casefold (stripChars (qualified name title).toList) := by
  intro he
  rw [stripChars_qualified hname htitle, List.append_assoc] at he
  obtain ⟨c, hc, hblank⟩ := hname
  cases hcs : name.toList with
  | nil =>
    rw [hcs] at hc
    cases hc
  | cons b bs =>
    by_cases hb : isSpace b = true
    · -- the reference begins with no blank once it is stripped
      cases hfront : name.toList.dropWhile isSpace with
      | nil =>
        rw [List.dropWhile_eq_nil_iff] at hfront
        exact Bool.false_ne_true (hblank.symm.trans (hfront c hc))
      | cons d ds =>
        have hd : isSpace d = false := by
          have hhead := List.head?_dropWhile_not isSpace name.toList
          rw [hfront] at hhead
          simpa using hhead
        rw [hfront, hcs, List.cons_append] at he
        obtain ⟨x, xs, hx, hxb⟩ := casefold_head hU b bs
        obtain ⟨y, ys, hy, hyd⟩ := casefold_head hU d (ds ++ (" в проекте ".toList ++ title.toList.rdropWhile isSpace))
        rw [hx, hy] at he
        obtain ⟨rfl, -⟩ := List.cons_eq_cons.mp he
        rw [hxb, hb, hd] at hyd
        cases hyd
    · have hfront : name.toList.dropWhile isSpace = name.toList := by
        rw [hcs, List.dropWhile_cons_of_neg hb]
      rw [hfront] at he
      have hrest : " в проекте ".toList ++ title.toList.rdropWhile isSpace ≠ [] := nofun
      exact absurd (congrArg List.length he) (length_casefold_lt hU hrest).ne

/-- A qualified reference names its task exactly if the name is still there once
the reference is stripped, and no other task has a name that appears in it. -/
theorem qualified_reference_iff (U : CharTables) (hU : U.FoldsByChar) (s : Store) (name title : String)
    (hname : Nonblank name) (htitle : Nonblank title) (t : UUID) (h : s.OnlyIn name title t) :
    matchTasks U (qualified name title) s.tasksWithMeta = [(t, name)] ↔
      U.casefold name.toList <:+: U.casefold (stripChars (qualified name title).toList) ∧
      ∀ t' row, s.tasks.get? t' = some row →
        U.casefold row.name.toList <:+: U.casefold (stripChars (qualified name title).toList) → t' = t := by
  obtain ⟨row, project, hrow, rfl, hproject, rfl⟩ := h.there
  have hwhole := casefold_ne_qualified hU hname htitle
  have hne : stripChars (qualified row.name project.title).toList ≠ [] := fun he => by
    rw [stripChars_qualified hname htitle, List.append_assoc] at he
    exact absurd (List.append_eq_nil_iff.mp he).2 nofun
  generalize qualified row.name project.title = ref at *
  by_cases hexact : s.tasksWithMeta.filter (fun t => U.casefold t.2.toList = U.casefold (stripChars ref.toList)) = []
  · rw [matchTasks_within hU hne hexact]
    constructor
    · intro hmatch
      have hmem : ∀ x, x ∈ [(t, row.name)] ↔ x ∈ s.tasksWithMeta ∧
          U.casefold x.2.toList <:+: U.casefold (stripChars ref.toList) := fun x => by
        rw [← hmatch, List.mem_filter, decide_eq_true_iff]
      refine ⟨((hmem _).mp (List.mem_singleton_self _)).2, fun t' row' hrow' hin => ?_⟩
      have hx := (hmem (t', row'.name)).mpr ⟨Store.mem_tasksWithMeta_iff.mpr ⟨row', hrow', rfl⟩, hin⟩
      exact congrArg Prod.fst (List.mem_singleton.mp hx)
    · rintro ⟨hin, honly⟩
      have hrows := Store.filter_tasksWithMeta
        (q := fun n => decide (U.casefold n.toList <:+: U.casefold (stripChars ref.toList))) hrow
        (decide_eq_true hin) fun t' row' ht' hq => honly t' row' ht' (of_decide_eq_true hq)
      rw [hrows, h.oneAssignee]
      rfl
  · -- another task has the whole reference for its name
    rw [matchTasks_exact hU hne hexact]
    obtain ⟨x, hx⟩ := List.exists_mem_of_ne_nil _ hexact
    obtain ⟨hxs, hxeq⟩ := List.mem_filter.mp hx
    have hxwhole : U.casefold x.2.toList = U.casefold (stripChars ref.toList) := of_decide_eq_true hxeq
    refine iff_of_false (fun hmatch => ?_) fun hh => ?_
    · rw [hmatch, List.mem_singleton] at hx
      exact hwhole (by rw [← hxwhole, hx])
    · obtain ⟨row', hrow', hname'⟩ := Store.mem_tasksWithMeta_iff.mp hxs
      have hxt := hh.2 x.1 row' hrow' (by rw [hname', hxwhole])
      rw [hxt] at hrow'
      obtain rfl := Option.some.inj (hrow.symm.trans hrow')
      exact hwhole (by rw [hname', hxwhole])

/-- The cover of two projects made from one template. -/
def coverTwice : Store :=
  { coverTeam [1] with
    projects := (OrdDict.empty.insert 3 (coverProject "Альфа")).insert 5 (coverProject "Бета")
    tasks := (OrdDict.empty.insert 4 cover).insert 6 { cover with projectId := 5 }
    nextId := 7 }

theorem coverTwice_onlyIn : coverTwice.OnlyIn "Обложка" "Альфа" 4 where
  there := ⟨cover, coverProject "Альфа", rfl, rfl, rfl, rfl⟩
  only t' row project h hname hproject htitle := by
    have hmem : (t', row) ∈ [(4, cover), (6, { cover with projectId := 5 })] := OrdDict.get?_eq_some_iff.mp h
    rcases List.mem_cons.mp hmem with he | he
    · exact congrArg Prod.fst he
    · obtain ⟨rfl, rfl⟩ := Prod.mk.inj (List.mem_singleton.mp he)
      obtain rfl : coverProject "Бета" = project := Option.some.inj hproject
      exact absurd htitle (by decide)
  oneAssignee := rfl

theorem qualified_reference_iff_cover :
    matchTasks .plain (qualified "Обложка" "Альфа") coverTwice.tasksWithMeta = [(4, "Обложка")] ↔
      CharTables.plain.casefold "Обложка".toList <:+:
        CharTables.plain.casefold (stripChars (qualified "Обложка" "Альфа").toList) ∧
      ∀ t' row, coverTwice.tasks.get? t' = some row →
        CharTables.plain.casefold row.name.toList <:+:
          CharTables.plain.casefold (stripChars (qualified "Обложка" "Альфа").toList) → t' = 4 :=
  qualified_reference_iff .plain CharTables.plain_foldsByChar coverTwice "Обложка" "Альфа"
    ⟨'О', by decide, by decide⟩ ⟨'А', by decide, by decide⟩ 4 coverTwice_onlyIn

/-- The project in the reference does not tell the two covers apart. -/
theorem project_not_looked_at : coverTwice.OnlyIn "Обложка" "Альфа" 4 ∧
    matchTasks .plain (qualified "Обложка" "Альфа") coverTwice.tasksWithMeta ≠ [(4, "Обложка")] := by
  refine ⟨coverTwice_onlyIn, fun h => ?_⟩
  have hlen := congrArg List.length h
  revert hlen
  decide +kernel

end Qualified

end Planner
