import Planner.ToolEffects

/-! What the calls of a turn leave in its tool box: the plan, and for every task
captured a confirmation in its place and the link. -/

namespace Planner

open Program

section Loop

variable {ω τ : Type} {env : AgentEnv ω τ} {I : ω → Prop}

theorem runTools_keeps (hI : ∀ call w, I w → I (env.execute call w).2) (blocks : List (Block τ)) {w : ω} (hw : I w) :
    I (runTools env blocks w).2 := by
  induction blocks generalizing w with
  | nil => exact hw
  | cons block blocks ih =>
    cases block with
    | toolUse id call =>
      have hcall := hI call w hw
      simp only [runTools]
      rcases hexec : env.execute call w with ⟨e | out, w₁⟩
      · rw [hexec] at hcall
        exact hcall
      · rw [hexec] at hcall
        have hrest := ih hcall
        simp only
        rcases hrun : runTools env blocks w₁ with ⟨e | results, w₂⟩ <;> rw [hrun] at hrest <;> exact hrest
    | malformed => exact hw
    | text => exact ih hw
    | other => exact ih hw

theorem agentLoop_keeps (hI : ∀ call w, I w → I (env.execute call w).2) (n : Nat) (messages : List (AgentMessage τ))
    {w : ω} (hw : I w) : I (agentLoop env n messages w).2 := by
  induction n generalizing messages w with
  | zero => exact hw
  | succ n ih =>
    simp only [agentLoop]
    split
    · exact hw
    · rename_i resp _
      split
      · exact hw
      · have htools := runTools_keeps hI resp.content hw
        rcases hrun : runTools env resp.content w with ⟨e | results, w₁⟩ <;> rw [hrun] at htools
        · exact htools
        · exact ih _ htools

theorem agentLoop_ok {n : Nat} {messages : List (AgentMessage τ)} {w w' : ω} {reply : AgentReply}
    (h : agentLoop env n messages w = (.ok reply, w')) : ∃ text, reply = (env.toolbox w').reply text := by
  induction n generalizing messages w with
  | zero =>
    obtain ⟨hr, rfl⟩ := Prod.mk.inj h
    exact ⟨capMessage, (Except.ok.inj hr).symm⟩
  | succ n ih =>
    simp only [agentLoop] at h
    split at h
    · cases h
    · rename_i resp _
      split at h
      · obtain ⟨hr, rfl⟩ := Prod.mk.inj h
        cases htext : finalText resp.content with
        | error e =>
          rw [htext] at hr
          cases hr
        | ok text =>
          rw [htext] at hr
          exact ⟨text, (Except.ok.inj hr).symm⟩
      · rcases hrun : runTools env resp.content w with ⟨e | results, w₁⟩ <;> rw [hrun] at h
        · cases h
        · exact ih h

end Loop

/-- What the tool box holds about a turn that began with `s₀`, has come to `s` and
has captured `captures`. -/
structure Evidence (s₀ s : Store) (box : ToolBox) (captures : List CaptureResult) : Prop where
  versions : ∀ v ∈ s.planVersions.keys, v ∈ s₀.planVersions.keys ∨ box.lastProposedPvId = some v
  tasks : ∀ t ∈ s.botTasks, t ∈ s₀.botTasks ∨ ∃ c ∈ captures, c.taskId = t
  count : box.capturedReplies.length = captures.length
  confirmed : ∀ (i : Nat) (c : CaptureResult), captures[i]? = some c → ∃ assignees, box.capturedReplies[i]? =
    some (formatCaptureConfirmation c.taskTitle c.projectTitle assignees c.deadlineIso)
  urls : ∀ c ∈ captures, ∀ url ∈ c.notionUrl, url ≠ "" → url ∈ box.capturedNotionUrls
  entries : ∀ key entry, box.capturesByKey.get? key = some entry → ∃ c : CaptureResult,
    captures[entry.idx]? = some c ∧ c.taskTitle = entry.title ∧ c.projectTitle = entry.project ∧
      c.deadlineIso = entry.deadlineIso

namespace Evidence

variable {s₀ s s' : Store} {box : ToolBox} {captures : List CaptureResult}

theorem start (s₀ : Store) : Evidence s₀ s₀ {} [] :=
  ⟨fun _ hv => Or.inl hv, fun _ ht => Or.inl ht, rfl, nofun, nofun, nofun⟩

theorem quiet (h : Evidence s₀ s box captures) (hnew : NothingNew s s') : Evidence s₀ s' box captures :=
  { h with
    versions := fun v hv => h.versions v (hnew.1 v hv)
    tasks := fun t ht => h.tasks t (hnew.2 t ht) }

/-- A merge keeps the entry and its place, and renews the confirmation there. -/
theorem merge (h : Evidence s₀ s box captures) {key : List Char} {entry : CaptureEntry}
    (hentry : box.capturesByKey.get? key = some entry) (assigned : List String) (r : Except PlannerError Unit) :
    Evidence s₀ s (box.merge key entry assigned r).box captures := by
  obtain ⟨c, hc, htitle, hproject, hdeadline⟩ := h.entries key entry hentry
  have hentries : ∀ key' entry', (box.capturesByKey.insert key { entry with assignees := assigned }).get? key' =
      some entry' → ∃ c : CaptureResult, captures[entry'.idx]? = some c ∧ c.taskTitle = entry'.title ∧
        c.projectTitle = entry'.project ∧ c.deadlineIso = entry'.deadlineIso := by
    intro key' entry' he
    by_cases hkey : key' = key
    · rw [hkey, OrdDict.get?_insert_self] at he
      obtain rfl := Option.some.inj he
      exact ⟨c, hc, htitle, hproject, hdeadline⟩
    · rw [OrdDict.get?_insert_of_ne _ _ hkey] at he
      exact h.entries key' entry' he
  cases r with
  | error e => exact { h with entries := hentries }
  | ok _ =>
    refine { h with entries := hentries, count := ?_, confirmed := fun i d hd => ?_ }
    · simp only [ToolBox.merge, List.length_set]
      exact h.count
    · simp only [ToolBox.merge]
      by_cases hi : entry.idx = i
      · subst hi
        obtain rfl := Option.some.inj (hc.symm.trans hd)
        have hlt : entry.idx < box.capturedReplies.length := by
          rw [h.count]
          exact (List.getElem?_eq_some_iff.mp hc).1
        exact ⟨assigned, by rw [List.getElem?_set_self hlt, htitle, hproject, hdeadline]⟩
      · rw [List.getElem?_set_ne hi]
        exact h.confirmed i d hd

theorem capture (h : Evidence s₀ s box captures) (key : List Char) {result : CaptureResult}
    (hdup : result.isDuplicate = false) (hversions : ∀ v ∈ s'.planVersions.keys, v ∈ s.planVersions.keys)
    (htasks : ∀ t ∈ s'.botTasks, t ∈ s.botTasks ∨ t = result.taskId) :
    Evidence s₀ s' (box.capture key result).box (captures ++ [result]) := by
  have hlast : (captures ++ [result])[box.capturedReplies.length]? = some result := by
    rw [h.count, List.getElem?_concat_length]
  have hold : ∀ (i : Nat) (c : CaptureResult), captures[i]? = some c → (captures ++ [result])[i]? = some c :=
    fun i c hc => by rw [List.getElem?_append_left (List.getElem?_eq_some_iff.mp hc).1, hc]
  simp only [ToolBox.capture, hdup, Bool.false_eq_true, if_false]
  refine ⟨fun v hv => h.versions v (hversions v hv), fun t ht => ?_, ?_, fun i c hc => ?_, fun c hc url hurl hne => ?_,
    fun key' entry he => ?_⟩
  · rcases htasks t ht with ht | rfl
    · rcases h.tasks t ht with ht | ⟨c, hc, hid⟩
      · exact Or.inl ht
      · exact Or.inr ⟨c, List.mem_append_left _ hc, hid⟩
    · exact Or.inr ⟨result, List.mem_append_right _ (List.mem_singleton_self result), rfl⟩
  · simp only [List.length_append, h.count, List.length_singleton]
  · by_cases hi : i < captures.length
    · rw [List.getElem?_append_left hi] at hc
      obtain ⟨assignees, hreply⟩ := h.confirmed i c hc
      exact ⟨assignees, by rw [List.getElem?_append_left (h.count ▸ hi), hreply]⟩
    · have hlt := (List.getElem?_eq_some_iff.mp hc).1
      rw [List.length_append, List.length_singleton] at hlt
      obtain rfl : i = box.capturedReplies.length := by
        rw [h.count]
        omega
      obtain rfl := Option.some.inj (hlast.symm.trans hc)
      exact ⟨result.assigneeNames, List.getElem?_concat_length⟩
  · rcases List.mem_append.mp hc with hc | hc
    · exact List.mem_append_left _ (h.urls c hc url hurl hne)
    · obtain rfl := List.mem_singleton.mp hc
      refine List.mem_append_right _ ?_
      rw [Option.mem_def.mp hurl]
      simp [hne]
  · by_cases hkey : key' = key
    · rw [hkey, OrdDict.get?_insert_self] at he
      obtain rfl := Option.some.inj he
      exact ⟨result, hlast, rfl, rfl, rfl⟩
    · rw [OrdDict.get?_insert_of_ne _ _ hkey] at he
      obtain ⟨c, hc, hfields⟩ := h.entries key' entry he
      exact ⟨c, hold _ c hc, hfields⟩

/-- A turn without a plan gets one, or none. -/
theorem plan (h : Evidence s₀ s box captures) (hnone : ∀ v ∈ s.planVersions.keys, v ∈ s₀.planVersions.keys)
    (v : Option UUID) (urls : List String)
    (hversions : ∀ w ∈ s'.planVersions.keys, w ∈ s.planVersions.keys ∨ v = some w)
    (htasks : ∀ t ∈ s'.botTasks, t ∈ s.botTasks) :
    Evidence s₀ s' { box with lastProposedPvId := v, capturedNotionUrls := box.capturedNotionUrls ++ urls } captures :=
  { h with
    versions := fun w hw => (hversions w hw).imp_left (hnone w)
    tasks := fun t ht => h.tasks t (htasks t ht)
    urls := fun c hc url hurl hne => List.mem_append_left _ (h.urls c hc url hurl hne) }

theorem step {name : String} {outcome : ToolOutcome} (h : Evidence s₀ s box captures)
    (heffect : CallEffect name box s s' outcome)
    (hplans : name = "plan_project" → ∀ text, outcome.said = .ok text → ∀ v ∈ s.planVersions.keys,
      v ∈ s₀.planVersions.keys) :
    Evidence s₀ s' outcome.box (captures ++ outcome.captured.toList) := by
  cases heffect with
  | none said hnew =>
    rw [Option.toList_none, List.append_nil]
    exact h.quiet hnew
  | asked pending text hnew =>
    rw [Option.toList_none, List.append_nil]
    exact { h.quiet hnew with }
  | merged hentry assigned r hnew =>
    rename_i key entry
    have hnone : (box.merge key entry assigned r).captured = none := by cases r <;> rfl
    rw [hnone, Option.toList_none, List.append_nil]
    exact (h.quiet hnew).merge hentry assigned r
  | captured key hdup hversions htasks =>
    rename_i result
    have hsome : (box.capture key result).captured = some result := by
      simp only [ToolBox.capture, hdup, Bool.false_eq_true, if_false]
    rw [hsome]
    exact h.capture key hdup hversions htasks
  | proposed v urls text hname hversions htasks =>
    rw [Option.toList_none, List.append_nil]
    exact h.plan (hplans hname text rfl) (some v) urls
      (fun w hw => (hversions w hw).imp_right fun he => congrArg some he.symm) htasks
  | declined text hname hnew =>
    have hplan := h.plan (hplans hname text rfl) none [] (fun w hw => Or.inl (hnew.1 w hw)) hnew.2
    rw [List.append_nil] at hplan
    rw [Option.toList_none, List.append_nil]
    exact hplan

end Evidence

section Turns

variable {ctx : ToolContext} {fail : Nat → Bool} {s₀ : Store} {turn : Turn}

theorem Turn.call_run (ctx : ToolContext) (fail : Nat → Bool) (use : ToolUse) (turn : Turn) :
    ∃ outcome s' clock, (turn.call ctx fail use).2 = ⟨s', outcome.box, clock,
        turn.calls ++ [⟨use, turn.store, s', outcome⟩]⟩ ∧
      (CallEffect use.name turn.box turn.store s' outcome ∨ ∃ e, outcome = ⟨turn.box, .error e, none⟩) := by
  have houtage : ∀ n, ∀ e ∈ outage fail n, e = .unavailable := fun n e he => by
    unfold outage at he
    split at he
    · exact (Option.some.inj he).symm
    · cases he
  have hends := Ends.runFaulty houtage (turn.box.execute ctx use.args use.name) turn.clock turn.store
  obtain ⟨outcome, hr, heffect⟩ := execute_ends (fun message => nofun) hends
  rcases hrun : (turn.box.execute ctx use.args use.name).runFaulty (outage fail) turn.clock turn.store with
    ⟨r, clock, s'⟩
  rw [hrun] at hr heffect
  obtain rfl : r = .ok outcome := hr
  refine ⟨outcome, s', clock, ?_, heffect⟩
  simp only [Turn.call, hrun]

/-- As long as the calls are in good order, the tool box has the evidence of the turn. -/
def Turn.Evident (s₀ : Store) (turn : Turn) : Prop :=
  OrderlyCalls s₀ turn.calls → Evidence s₀ turn.store turn.box turn.captures

theorem Turn.Evident.call (h : turn.Evident s₀) (use : ToolUse) : (turn.call ctx fail use).2.Evident s₀ := by
  obtain ⟨outcome, s', clock, hcall, heffect⟩ := Turn.call_run ctx fail use turn
  rw [hcall]
  intro horderly
  have hold : OrderlyCalls s₀ turn.calls := fun r hr => horderly r (List.mem_append_left _ hr)
  obtain ⟨herror, hplans⟩ := horderly ⟨use, turn.store, s', outcome⟩
    (List.mem_append_right _ (List.mem_singleton_self _))
  have hstep := (h hold).step (effect_of_quiet heffect herror) hplans
  have hcaptures : Turn.captures ⟨s', outcome.box, clock, turn.calls ++ [⟨use, turn.store, s', outcome⟩]⟩ =
      turn.captures ++ outcome.captured.toList := by
    simp only [Turn.captures, List.filterMap_append]
    cases hc : outcome.captured <;> simp [hc]
  rw [hcaptures]
  exact hstep

theorem turnLoop_evident (api : List (AgentMessage ToolUse) → Except String (Response ToolUse)) (message : String)
    (chat : ChatContext) : (turnLoop (turnEnv ctx fail api) message chat { store := s₀ }).2.Evident s₀ :=
  agentLoop_keeps (I := Turn.Evident s₀) (fun use _ h => h.call use) _ _ fun _ => .start s₀

end Turns

end Planner
