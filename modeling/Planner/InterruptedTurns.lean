import Planner.TurnAnswers

/-! Turns that the model breaks off after some calls. What the chat is told then
hangs on the evidence in the tool box, which only captures and proposals leave. -/

namespace Planner

/-- Some call has changed the tables. -/
def Turn.Wrote (turn : Turn) : Prop := ∃ r ∈ turn.calls, ¬ r.before.SameRows r.after

/-- A task was captured, a plan stands proposed, or there is a link to a card. -/
def Turn.Told (turn : Turn) : Prop :=
  (∃ r ∈ turn.calls, r.outcome.captured.isSome) ∨ turn.box.lastProposedPvId.isSome ∨ turn.box.capturedNotionUrls ≠ []

/-- A reply with the notice and all that the tool box holds. -/
structure AgentReply.Carries (reply : AgentReply) (box : ToolBox) : Prop where
  notice : interruptNotice ∈ reply.capturedReplies
  text : interruptNotice.toList <:+: reply.text.toList
  plan : reply.proposedPvId = box.lastProposedPvId
  captures : ∀ r ∈ box.capturedReplies, r ∈ reply.capturedReplies
  links : reply.notionUrls = box.capturedNotionUrls
  clarify : reply.clarify = box.pendingCapture

/-- What was written or asked before the model broke off is not hidden. -/
def InterruptionShown (U : CharTables) (env : AgentEnv Turn ToolUse) (message : String) (chat : ChatContext)
    (s₀ : Store) : Prop :=
  let turn := (turnLoop env message chat { store := s₀ }).2
  turn.Wrote ∨ turn.box.pendingCapture.isSome →
    ∃ reply, (agentRun env U message chat { store := s₀ }).1 = .ok reply ∧ reply.Carries turn.box

section Box

variable {ctx : ToolContext} {fail : Nat → Bool} {turn : Turn}

/-- There is one confirmation for every task captured. -/
def Turn.Confirms (turn : Turn) : Prop := turn.box.capturedReplies.length = turn.captures.length

theorem Turn.Confirms.call (h : turn.Confirms) (use : ToolUse) : (turn.call ctx fail use).2.Confirms := by
  obtain ⟨outcome, s', clock, hcall, heffect⟩ := Turn.call_run ctx fail use turn
  have hcaptures : Turn.captures ⟨s', outcome.box, clock, turn.calls ++ [⟨use, turn.store, s', outcome⟩]⟩ =
      turn.captures ++ outcome.captured.toList := by
    simp only [Turn.captures, List.filterMap_append]
    cases hc : outcome.captured <;> simp [hc]
  have hcount : outcome.box.capturedReplies.length = turn.box.capturedReplies.length + outcome.captured.toList.length := by
    rcases heffect with heffect | ⟨e, rfl⟩
    · cases heffect with
      | none => rfl
      | asked => rfl
      | merged hentry assigned r => cases r <;> simp [ToolBox.merge]
      | captured key hdup => simp [ToolBox.capture, hdup]
      | proposed => rfl
      | declined => rfl
    · rfl
  rw [hcall, Turn.Confirms, hcaptures, List.length_append, hcount, h]

theorem turnLoop_confirms (api : List (AgentMessage ToolUse) → Except String (Response ToolUse)) (message : String)
    (chat : ChatContext) (s₀ : Store) : (turnLoop (turnEnv ctx fail api) message chat { store := s₀ }).2.Confirms :=
  agentLoop_keeps (fun use _ h => h.call use) _ _ rfl

theorem Turn.Confirms.told_iff (h : turn.Confirms) :
    turn.Told ↔ turn.box.lastProposedPvId.isSome ∨ turn.box.capturedReplies ≠ [] ∨ turn.box.capturedNotionUrls ≠ [] := by
  have hcaptured : (∃ r ∈ turn.calls, r.outcome.captured.isSome) ↔ turn.box.capturedReplies ≠ [] := by
    rw [Ne, ← List.length_eq_zero_iff, h, List.length_eq_zero_iff, Turn.captures, List.filterMap_eq_nil_iff]
    simp only [not_forall, ← Option.ne_none_iff_isSome, exists_prop, ne_eq]
  rw [Turn.Told, hcaptured]
  tauto

end Box

section Interrupted

variable {U : CharTables} {message : String} {chat : ChatContext} {s₀ : Store}

/-- A loop that raises leaves the reply to the evidence, or else to the offline parser. -/
theorem agentRun_raised {ω τ : Type} {env : AgentEnv ω τ} {w w' : ω} {e : String}
    (h : agentLoop env maxIters [.user (buildContextBlock chat ++ "\n---\n" ++ message)] w = (.error e, w')) :
    (agentRun env U message chat w).1 = match partialReply (env.toolbox w') with
      | some reply => .ok reply
      | none => (parseSync U message chat).map fun intent => { text := describeIntent intent } := by
  simp only [agentRun, h]
  cases partialReply (env.toolbox w') <;> rfl

theorem partialReply_carries {box : ToolBox} {reply : AgentReply} (h : partialReply box = some reply)
    (hpending : box.pendingCapture = none) : reply.Carries box := by
  obtain ⟨hplan, hlinks, hclarify, hcaptures⟩ := partialReply_some h
  unfold partialReply at h
  split at h
  swap
  · cases h
  obtain rfl := Option.some.inj h
  have hnotice : interruptNotice ∈ box.capturedReplies ++
      ((if box.lastProposedPvId.isSome then [planProposedLine] else []) ++ [interruptNotice]) :=
    List.mem_append_right _ (List.mem_append_right _ List.mem_cons_self)
  exact ⟨hnotice, infix_joined hnotice, hplan, hcaptures, hlinks, hclarify.trans hpending.symm⟩

/-- The fallback has no confirmations, so it cannot carry the notice either. -/
theorem fallback_carries_nothing {U : CharTables} {message : String} {chat : ChatContext} {box : ToolBox} :
    ¬ ∃ reply : AgentReply, ((parseSync U message chat).map fun intent =>
      ({ text := describeIntent intent } : AgentReply)) = .ok reply ∧ reply.Carries box := by
  rintro ⟨reply, hreply, hcarries⟩
  cases hparse : parseSync U message chat with
  | error e =>
    rw [hparse] at hreply
    cases hreply
  | ok intent =>
    rw [hparse] at hreply
    obtain rfl := Except.ok.inj hreply
    cases hcarries.notice

/-- An interrupted turn shows what it has done iff it was not about to ask anything,
and has captured or proposed something if it has written at all. -/
theorem interruption_shown_iff (U : CharTables) (ctx : ToolContext) (fail : Nat → Bool)
    (api : List (AgentMessage ToolUse) → Except String (Response ToolUse)) (message : String) (chat : ChatContext)
    (s₀ : Store) (e : String) (hraised : (turnLoop (turnEnv ctx fail api) message chat { store := s₀ }).1 = .error e) :
    InterruptionShown U (turnEnv ctx fail api) message chat s₀ ↔
      (turnLoop (turnEnv ctx fail api) message chat { store := s₀ }).2.box.pendingCapture = none ∧
        ((turnLoop (turnEnv ctx fail api) message chat { store := s₀ }).2.Wrote →
          (turnLoop (turnEnv ctx fail api) message chat { store := s₀ }).2.Told) := by
  have hconfirms := @turnLoop_confirms ctx fail api message chat s₀
  rcases hloop : turnLoop (turnEnv ctx fail api) message chat { store := s₀ } with ⟨r, turn⟩
  rw [hloop] at hraised hconfirms
  obtain rfl : r = .error e := hraised
  have hrun : (agentRun (turnEnv ctx fail api) U message chat { store := s₀ }).1 = match partialReply turn.box with
      | some reply => .ok reply
      | none => (parseSync U message chat).map fun intent => { text := describeIntent intent } := agentRun_raised hloop
  simp only [InterruptionShown, hloop, hrun]
  have htold := hconfirms.told_iff
  cases hleft : partialReply turn.box with
  | some reply =>
    have htold : turn.Told := by
      rw [htold]
      by_contra hnone
      rw [partialReply, if_neg hnone] at hleft
      cases hleft
    constructor
    · intro hshown
      refine ⟨?_, fun _ => htold⟩
      by_contra hpending
      obtain ⟨_, hreply, hcarries⟩ := hshown (Or.inr (Option.isSome_iff_ne_none.mpr hpending))
      obtain rfl := Except.ok.inj hreply
      exact hpending (hcarries.clarify.symm.trans (partialReply_some hleft).2.2.1)
    · rintro ⟨hpending, -⟩ -
      exact ⟨reply, rfl, partialReply_carries hleft hpending⟩
  | none =>
    have hsilent : ¬ turn.Told := by
      rw [htold]
      intro hsome
      rw [partialReply, if_pos hsome] at hleft
      cases hleft
    have hfallback := @fallback_carries_nothing U message chat turn.box
    constructor
    · intro hshown
      refine ⟨?_, fun hwrote => absurd (hshown (Or.inl hwrote)) hfallback⟩
      by_contra hpending
      exact hfallback (hshown (Or.inr (Option.isSome_iff_ne_none.mpr hpending)))
    · rintro ⟨hpending, hwrote⟩ (hw | hasked)
      · exact absurd (hwrote hw) hsilent
      · rw [hpending] at hasked
        cases hasked

end Interrupted

section Shooting

/-- A model that makes these calls and is overloaded after them. -/
def callsThenFails (uses : List ToolUse) : List (AgentMessage ToolUse) → Except String (Response ToolUse)
  | [_] => .ok ⟨"tool_use", uses.map (.toolUse "1")⟩
  | _ => .error "overloaded"

def failingEnv (uses : List ToolUse) : AgentEnv Turn ToolUse :=
  turnEnv shootingTools (fun _ => false) (callsThenFails uses)

def failingTurn (uses : List ToolUse) : Turn := (turnLoop (failingEnv uses) "КП" { today := 1 } { store := shootingStore }).2

def vacationCall : ToolUse :=
  ⟨"set_vacation", [("person", .ofText "Анна"), ("day_from", .ofText "2026-06-01"), ("day_to", .ofText "2026-06-01")]⟩

theorem interruption_shown_iff_shooting :
    InterruptionShown .plain (failingEnv [planCall]) "КП" { today := 1 } shootingStore ↔
      (failingTurn [planCall]).box.pendingCapture = none ∧
        ((failingTurn [planCall]).Wrote → (failingTurn [planCall]).Told) :=
  interruption_shown_iff .plain shootingTools _ _ "КП" { today := 1 } shootingStore "overloaded" rfl

/-- Anna's day off is entered, and the chat is told what the offline parser makes of the message. -/
theorem vacation_hidden : (failingTurn [vacationCall]).store.dayOverrides.keys = [(1, 739768)] ∧
    ¬ InterruptionShown .plain (failingEnv [vacationCall]) "КП" { today := 1 } shootingStore := by
  refine ⟨rfl, fun hshown => ?_⟩
  have hwrote : (failingTurn [vacationCall]).Wrote := by
    refine ⟨_, List.mem_singleton_self _, fun hsame => ?_⟩
    have hkeys := congrArg (fun s : Store => s.dayOverrides.keys) hsame
    have hbefore : shootingStore.dayOverrides.keys = [] := rfl
    have hafter : (failingTurn [vacationCall]).store.dayOverrides.keys = [(1, 739768)] := rfl
    cases hafter.symm.trans (hkeys.trans hbefore)
  obtain ⟨reply, hreply, hcarries⟩ := hshown (Or.inl hwrote)
  have hraised : agentLoop (failingEnv [vacationCall]) maxIters
      [.user (buildContextBlock { today := 1 } ++ "\n---\n" ++ "КП")] { store := shootingStore } =
        (.error "overloaded", failingTurn [vacationCall]) := rfl
  have hleft : partialReply (failingTurn [vacationCall]).box = none := rfl
  rw [agentRun_raised hraised] at hreply
  simp only [failingEnv, turnEnv, hleft] at hreply
  cases hparse : parseSync .plain "КП" { today := 1 } with
  | error e =>
    rw [hparse] at hreply
    cases hreply
  | ok intent =>
    rw [hparse] at hreply
    obtain rfl := Except.ok.inj hreply
    cases hcarries.notice

end Shooting

end Planner
