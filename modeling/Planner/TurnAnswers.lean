import Planner.TurnRuns

/-! A turn of the agent shows what it has written, as long as it has at most one
plan, no call raises in the middle of its writes, and no capture asks for a field. -/

namespace Planner

section Texts

theorem infix_intercalate {α : Type} {sep x : List α} {parts : List (List α)} (h : x ∈ parts) :
    x <:+: sep.intercalate parts := by
  induction parts with
  | nil => cases h
  | cons part rest ih =>
    cases rest with
    | nil =>
      obtain rfl := List.mem_singleton.mp h
      rw [List.intercalate_singleton]
    | cons next rest =>
      rw [List.intercalate_cons_cons]
      rcases List.mem_cons.mp h with rfl | h
      · exact ((List.prefix_append x sep).trans (List.prefix_append _ _)).isInfix
      · exact (ih h).trans (List.suffix_append _ _).isInfix

theorem infix_joined {sep : String} {x : String} {parts : List String} (h : x ∈ parts) :
    x.toList <:+: (joined sep parts).toList := by
  rw [joined, String.toList_intercalate]
  exact infix_intercalate (List.mem_map_of_mem h)

theorem strip_ne_empty {s : String} {c : Char} (hc : c ∈ s.toList) (hblank : isSpace c = false) : strip s ≠ "" := by
  intro h
  have hnil : stripChars s.toList = [] := by
    have hlist := congrArg String.toList h
    rwa [strip, String.toList_ofList] at hlist
  rw [stripChars_eq_nil_iff, List.all_eq_true] at hnil
  rw [hnil c hc] at hblank
  cases hblank

theorem infix_appendNotionLinks (text : String) (urls : List String) :
    text.toList <:+: (appendNotionLinks text urls).toList := by
  simp only [appendNotionLinks]
  split
  · exact List.infix_rfl
  · simp only [String.toList_append, List.append_assoc]
    exact (List.prefix_append _ _).isInfix

theorem link_appendNotionLinks {text url : String} {urls : List String} (h : url ∈ urls) (hne : url ≠ "") :
    url.toList <:+: (appendNotionLinks text urls).toList := by
  cases hin : occurs url text.toList with
  | true => exact (of_decide_eq_true hin).trans (infix_appendNotionLinks text urls)
  | false =>
    have hextra : url ∈ urls.filter fun u => u ≠ "" ∧ !occurs u text.toList :=
      List.mem_filter.mpr ⟨h, by simp [hne, hin]⟩
    have hline : "🔗 Notion: " ++ url ∈ (urls.filter fun u => u ≠ "" ∧ !occurs u text.toList).map
        fun u => "🔗 Notion: " ++ u := List.mem_map_of_mem hextra
    have hurl : url.toList <:+: ("🔗 Notion: " ++ url).toList := by
      rw [String.toList_append]
      exact (List.suffix_append _ _).isInfix
    simp only [appendNotionLinks, if_neg (List.ne_nil_of_mem hextra), String.toList_append]
    exact (hurl.trans (infix_joined hline)).trans (List.suffix_append _ _).isInfix

theorem confirmation_marked (title project : String) (assignees : List String) (deadlineIso : Option String) :
    '✓' ∈ (formatCaptureConfirmation title project assignees deadlineIso).toList := by
  have hfirst : "✓ Записал".toList <:+: (formatCaptureConfirmation title project assignees deadlineIso).toList :=
    infix_joined List.mem_cons_self
  exact hfirst.subset (by decide)

end Texts

section Answers

variable {reply : AgentReply}

/-- Captured tasks are shown in the words of the bot. -/
theorem showReply_captured (fsm : ChatState) (hclarify : reply.clarify = none) {r : String} (hr : r ∈ reply.capturedReplies) {c : Char}
    (hc : c ∈ r.toList) (hblank : isSpace c = false) :
    (showReply fsm reply).1.Says r ∧ ∀ url ∈ reply.notionUrls, url ≠ "" → (showReply fsm reply).1.Says url := by
  have hshown : r ∈ reply.capturedReplies.filter fun r => strip r ≠ "" :=
    List.mem_filter.mpr ⟨hr, decide_eq_true (strip_ne_empty hc hblank)⟩
  let base := joined "\n\n" (reply.capturedReplies.filter fun r => strip r ≠ "")
  have hbase : r.toList <:+: (appendNotionLinks base reply.notionUrls).toList :=
    (infix_joined hshown).trans (infix_appendNotionLinks _ _)
  have htext : (showReply fsm reply).1.text = appendNotionLinks base reply.notionUrls := by
    have hfinal : strip (appendNotionLinks base reply.notionUrls) ≠ "" := strip_ne_empty (hbase.subset hc) hblank
    simp only [showReply, hclarify, ChatAnswer.text, if_pos (List.ne_nil_of_mem hshown)]
    exact if_neg hfinal
  refine ⟨?_, fun url hurl hne => ?_⟩
  · rw [ChatAnswer.Says, htext]
    exact hbase
  · rw [ChatAnswer.Says, htext]
    exact link_appendNotionLinks hurl hne

end Answers

theorem mem_newVersions {s s' : Store} {v : UUID} :
    v ∈ s.newVersions s' ↔ v ∈ s'.planVersions.keys ∧ v ∉ s.planVersions.keys := by
  simp only [Store.newVersions, List.mem_filter, decide_eq_true_eq]

theorem mem_newTasks {s s' : Store} {t : UUID} : t ∈ s.newTasks s' ↔ t ∈ s'.botTasks ∧ t ∉ s.botTasks := by
  simp only [Store.newTasks, List.mem_filter, decide_eq_true_eq]

theorem NothingNew.surfaced {s₀ : Store} {turn : Turn} (h : NothingNew s₀ turn.store) (answer : ChatAnswer)
    (fsm : ChatState) : Surfaced s₀ answer fsm turn := by
  refine ⟨fun v hv => ?_, fun t ht => ?_⟩
  · obtain ⟨hmem, hnew⟩ := mem_newVersions.mp (List.mem_of_getLast? hv)
    exact absurd (h.1 v hmem) hnew
  · obtain ⟨hmem, hnew⟩ := mem_newTasks.mp ht
    exact absurd (h.2 t hmem) hnew

/-- A reply that carries the evidence of the turn and asks nothing. -/
theorem Evidence.surfaced {s₀ : Store} {turn : Turn} (h : Evidence s₀ turn.store turn.box turn.captures)
    {reply : AgentReply} (hpv : reply.proposedPvId = turn.box.lastProposedPvId)
    (hurls : reply.notionUrls = turn.box.capturedNotionUrls) (hclarify : reply.clarify = none)
    (hreplies : ∀ r ∈ turn.box.capturedReplies, r ∈ reply.capturedReplies) (fsm : ChatState) :
    Surfaced s₀ (showReply fsm reply).1 (showReply fsm reply).2 turn := by
  have hlast : ∀ v ∈ s₀.newVersions turn.store, turn.box.lastProposedPvId = some v := fun v hv => by
    obtain ⟨hmem, hnew⟩ := mem_newVersions.mp hv
    exact (h.versions v hmem).resolve_left hnew
  refine ⟨fun v hv => ?_, fun t ht => ?_⟩
  · have hv := hlast v (List.mem_of_getLast? hv)
    refine ⟨?_, ?_, fun w hw hne => ?_⟩
    · simp only [showReply, hclarify, ChatAnswer.keyboard, hpv, hv]
    · simp only [showReply, hclarify, hpv, hv, Option.some_or]
    · exact absurd (Option.some.inj ((hlast w hw).symm.trans hv)) hne
  · obtain ⟨hmem, hnew⟩ := mem_newTasks.mp ht
    obtain ⟨c, hc, hid⟩ := (h.tasks t hmem).resolve_left hnew
    obtain ⟨i, hi⟩ := List.mem_iff_getElem?.mp hc
    obtain ⟨assignees, hreply⟩ := h.confirmed i c hi
    obtain ⟨htold, hlinks⟩ := showReply_captured fsm hclarify (hreplies _ (List.mem_of_getElem? hreply))
      (confirmation_marked _ _ _ _) (by decide)
    refine ⟨c, hc, hid, ⟨assignees, htold⟩, fun url hurl hne => hlinks url ?_ hne⟩
    rw [hurls]
    exact h.urls c hc url hurl hne

theorem partialReply_some {box : ToolBox} {reply : AgentReply} (h : partialReply box = some reply) :
    reply.proposedPvId = box.lastProposedPvId ∧ reply.notionUrls = box.capturedNotionUrls ∧ reply.clarify = none ∧
      ∀ r ∈ box.capturedReplies, r ∈ reply.capturedReplies := by
  unfold partialReply at h
  split at h
  · obtain rfl := Option.some.inj h
    exact ⟨rfl, rfl, rfl, fun r hr => List.mem_append_left _ hr⟩
  · cases h

/-- A turn that leaves no evidence has nothing to show. -/
theorem Evidence.nothingNew {s₀ s : Store} {box : ToolBox} {captures : List CaptureResult}
    (h : Evidence s₀ s box captures) (hleft : partialReply box = none) : NothingNew s₀ s := by
  have hnone : ¬ (box.lastProposedPvId.isSome ∨ box.capturedReplies ≠ [] ∨ box.capturedNotionUrls ≠ []) := by
    intro hsome
    rw [partialReply, if_pos hsome] at hleft
    cases hleft
  refine ⟨fun v hv => ?_, fun t ht => ?_⟩
  · refine (h.versions v hv).resolve_right fun hlast => hnone (Or.inl ?_)
    rw [hlast]
    rfl
  · refine (h.tasks t ht).resolve_right fun hcaptured => hnone (Or.inr (Or.inl fun hnil => ?_))
    obtain ⟨c, hc, -⟩ := hcaptured
    have hcount := h.count
    rw [hnil, List.length_nil] at hcount
    rw [List.eq_nil_of_length_eq_zero hcount.symm] at hc
    cases hc

/-- The calls are in good order, and no capture has lacked a key field unless the
loop breaks off or there is nothing to show. -/
def OrderlyTurn (env : AgentEnv Turn ToolUse) (message : String) (chat : ChatContext) (s₀ : Store) : Prop :=
  let loop := turnLoop env message chat { store := s₀ }
  OrderlyCalls s₀ loop.2.calls ∧
    (loop.2.box.pendingCapture = none ∨ NothingNew s₀ loop.2.store ∨ ∃ e, loop.1 = .error e)

/-- Whatever the model calls and whatever fails. -/
theorem turn_surfaced (U : CharTables) (ctx : ToolContext) (fail : Nat → Bool)
    (api : List (AgentMessage ToolUse) → Except String (Response ToolUse)) (message : String) (chat : ChatContext)
    (fsm : ChatState) (s₀ : Store) (horderly : OrderlyTurn (turnEnv ctx fail api) message chat s₀) :
    let out := agentTurn U (turnEnv ctx fail api) message chat fsm { store := s₀ }
    Surfaced s₀ out.1.1 out.1.2 out.2 := by
  obtain ⟨hcalls, hasked⟩ := horderly
  have hevidence := @turnLoop_evident ctx fail s₀ api message chat hcalls
  rcases hloop : turnLoop (turnEnv ctx fail api) message chat { store := s₀ } with ⟨r, turn⟩
  rw [hloop] at hevidence hasked
  simp only at hevidence hasked
  cases r with
  | ok reply =>
    have hrun : agentTurn U (turnEnv ctx fail api) message chat fsm { store := s₀ } = (showReply fsm reply, turn) := by
      rw [turnLoop] at hloop
      simp only [agentTurn, agentRun, hloop]
    rw [hrun]
    rcases hasked with hnone | hnothing | ⟨e, he⟩
    · obtain ⟨text, rfl⟩ := agentLoop_ok hloop
      exact hevidence.surfaced rfl rfl hnone (fun _ h => h) fsm
    · exact hnothing.surfaced _ _
    · cases he
  | error e =>
    rw [turnLoop] at hloop
    have hbox : (turnEnv ctx fail api).toolbox turn = turn.box := rfl
    cases hleft : partialReply turn.box with
    | some reply =>
      have hrun : agentRun (turnEnv ctx fail api) U message chat { store := s₀ } = (.ok reply, turn) := by
        simp only [agentRun, hloop, hbox, hleft]
      obtain ⟨hpv, hurls, hclarify, hreplies⟩ := partialReply_some hleft
      simp only [agentTurn, hrun]
      exact hevidence.surfaced hpv hurls hclarify hreplies fsm
    | none =>
      have hrun : agentRun (turnEnv ctx fail api) U message chat { store := s₀ } =
          ((parseSync U message chat).map fun intent => { text := describeIntent intent }, turn) := by
        simp only [agentRun, hloop, hbox, hleft]
      have hnothing := hevidence.nothingNew hleft
      cases hparse : (parseSync U message chat).map fun intent => ({ text := describeIntent intent } : AgentReply) with
      | ok reply =>
        simp only [agentTurn, hrun, hparse]
        exact hnothing.surfaced _ _
      | error e =>
        simp only [agentTurn, hrun, hparse]
        exact hnothing.surfaced _ _

section Shooting

def Arg.ofText (s : String) : Arg where
  shown := s
  falsy := decide (s = "")
  text := some s
  items := some (s.toList.map fun c => c.toString)
  int := none
  optInt := none
  time := none
  shown_text := fun _ h => Option.some.inj h
  falsy_text := fun _ h => by rw [Option.some.inj h]

/-- Anna again, with nothing to report. -/
def shootingTools : ToolContext where
  tables := .plain
  solver := .onWeekdays
  isAdmin := true
  actor := some { id := 1, name := "Анна", isAdmin := true }
  today := 1
  taskSink := none
  projectSink := none
  report _ _ _ := .ok ""
  planText _ := "План готов."
  replanText _ := ""
  errorText _ := ""

def planCall : ToolUse := ⟨"plan_project", [("title", .ofText "Ролик"), ("template", .ofText "lite")]⟩

/-- A capture without its key fields. -/
def bareCapture : ToolUse := ⟨"capture_task", [("title", .ofText "Созвон")]⟩

/-- A model that makes these calls and then answers. -/
def callsThese (uses : List ToolUse) : List (AgentMessage ToolUse) → Except String (Response ToolUse)
  | [_] => .ok ⟨"tool_use", uses.map (.toolUse "1")⟩
  | _ => .ok ⟨"end_turn", [.text (some "Готово.")]⟩

def shootingTurn (uses : List ToolUse) : (ChatAnswer × ChatState) × Turn :=
  agentTurn .plain (turnEnv shootingTools (fun _ => false) (callsThese uses)) "Спланируй ролик" { today := 1 } .cleared
    { store := shootingStore }

theorem turn_surfaced_shooting : (shootingTurn [planCall]).1.1 = .message "Готово." (some 6) ∧
    Surfaced shootingStore (shootingTurn [planCall]).1.1 (shootingTurn [planCall]).1.2 (shootingTurn [planCall]).2 := by
  refine ⟨rfl, turn_surfaced _ _ _ _ _ _ _ _ ⟨fun r hr => ?_, Or.inl rfl⟩⟩
  obtain rfl := List.mem_singleton.mp hr
  exact ⟨nofun, fun _ _ _ v hv => hv⟩

/-- The buttons of an incomplete capture hide the proposal made before it. -/
theorem proposal_hidden : (shootingTurn [planCall, bareCapture]).2.store.planVersions.keys = [6] ∧
    ¬ Surfaced shootingStore (shootingTurn [planCall, bareCapture]).1.1 (shootingTurn [planCall, bareCapture]).1.2
      (shootingTurn [planCall, bareCapture]).2 := by
  refine ⟨rfl, fun h => ?_⟩
  obtain ⟨hkeyboard, -⟩ := h.latest 6 rfl
  cases hkeyboard

end Shooting

end Planner
