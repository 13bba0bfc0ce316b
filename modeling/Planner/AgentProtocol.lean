import Planner.InterruptedTurns

/-! The conversation that the agent holds with the model. Every call the model
asks for is made once and in order, and answered by the very next message. -/

namespace Planner

section Conversation

variable {ω τ : Type}

def Block.call? : Block τ → Option (String × τ)
  | .toolUse id call => some (id, call)
  | _ => none

/-- The calls a response asks for. -/
def toolCalls (content : List (Block τ)) : List (String × τ) := content.filterMap Block.call?

/-- A response that asks for tools, and the message that answers it. -/
structure Exchange (τ : Type) where
  content : List (Block τ)
  results : List (String × String)

def conversation (first : String) (exchanges : List (Exchange τ)) : List (AgentMessage τ) :=
  .user first :: exchanges.flatMap fun e => [.assistant e.content, .results e.results]

/-- Assistant and results take turns, and the results are those of its calls. -/
def Paired : List (AgentMessage τ) → Prop
  | [] => True
  | .assistant content :: .results results :: rest =>
    results.map Prod.fst = (toolCalls content).map Prod.fst ∧ Paired rest
  | _ => False

/-- What the model's interface demands of a request. -/
def WellFormed : List (AgentMessage τ) → Prop
  | .user _ :: rest => Paired rest
  | _ => False

variable (env : AgentEnv ω τ)

/-- The requests of the loop, one for each turn that it gets to. -/
def agentRequests : Nat → List (AgentMessage τ) → ω → List (List (AgentMessage τ))
  | 0, _, _ => []
  | n + 1, messages, w => messages ::
    match env.api messages with
    | .error _ => []
    | .ok resp =>
      if resp.stopReason ≠ "tool_use" then []
      else
        match runTools env resp.content w with
        | (.error _, _) => []
        | (.ok results, w) => agentRequests n (messages ++ [.assistant resp.content, .results results]) w

/-- The calls are made one after the other, and each of them answers. -/
inductive Answered : List (String × τ) → ω → List (String × String) → ω → Prop
  | nil (w : ω) : Answered [] w [] w
  | cons {id : String} {call : τ} {calls : List (String × τ)} {out : String} {results : List (String × String)}
      {w w₁ w₂ : ω} (h : env.execute call w = (.ok out, w₁)) (hrest : Answered calls w₁ results w₂) :
      Answered ((id, call) :: calls) w ((id, out) :: results) w₂

/-- The exchanges so far: each response is what the model says to all before it. -/
inductive Held (first : String) : List (Exchange τ) → ω → ω → Prop
  | start (w : ω) : Held first [] w w
  | more {exchanges : List (Exchange τ)} {e : Exchange τ} {w w₁ w₂ : ω} (h : Held first exchanges w w₁)
      (hapi : env.api (conversation first exchanges) = .ok ⟨"tool_use", e.content⟩)
      (hanswered : Answered env (toolCalls e.content) w₁ e.results w₂) : Held first (exchanges ++ [e]) w w₂

/-- How the loop ends after the exchanges. -/
inductive LoopEnds (first : String) (limit : Nat) (exchanges : List (Exchange τ)) (w : ω) :
    Except String AgentReply × ω → Prop
  | capped (h : exchanges.length = limit) :
      LoopEnds first limit exchanges w (.ok ((env.toolbox w).reply capMessage), w)
  | refused {e : String} (hapi : env.api (conversation first exchanges) = .error e) :
      LoopEnds first limit exchanges w (.error e, w)
  | answered {resp : Response τ} (hapi : env.api (conversation first exchanges) = .ok resp)
      (hstop : resp.stopReason ≠ "tool_use") :
      LoopEnds first limit exchanges w ((finalText resp.content).map (env.toolbox w).reply, w)
  /-- A call raises; those before it have answered, those after it are not made. -/
  | raised {content : List (Block τ)} {done rest : List (String × τ)} {id : String} {call : τ}
      {results : List (String × String)} {e : String} {w₁ w₂ : ω}
      (hapi : env.api (conversation first exchanges) = .ok ⟨"tool_use", content⟩)
      (hcalls : toolCalls content = done ++ (id, call) :: rest) (hdone : Answered env done w results w₁)
      (hraise : env.execute call w₁ = (.error e, w₂)) : LoopEnds first limit exchanges w (.error e, w₂)
  /-- A block cannot be read; the calls before it have answered. -/
  | unread {content : List (Block τ)} {before after : List (Block τ)} {results : List (String × String)} {w₁ : ω}
      (hapi : env.api (conversation first exchanges) = .ok ⟨"tool_use", content⟩)
      (hcontent : content = before ++ .malformed :: after)
      (hdone : Answered env (toolCalls before) w results w₁) :
      LoopEnds first limit exchanges w (.error "attribute", w₁)

end Conversation

section Loop

variable {ω τ : Type} {env : AgentEnv ω τ} {first : String}

@[simp] theorem toolCalls_cons_toolUse (id : String) (call : τ) (content : List (Block τ)) :
    toolCalls (.toolUse id call :: content) = (id, call) :: toolCalls content := rfl

theorem toolCalls_cons_other {block : Block τ} (h : block.call? = none) (content : List (Block τ)) :
    toolCalls (block :: content) = toolCalls content := List.filterMap_cons_none h

theorem Answered.ids {calls : List (String × τ)} {results : List (String × String)} {w w' : ω}
    (h : Answered env calls w results w') : results.map Prod.fst = calls.map Prod.fst := by
  induction h with
  | nil => rfl
  | cons _ _ ih => rw [List.map_cons, List.map_cons, ih]

/-- The tools of one response: all have answered, or one raises, or a block stops them. -/
inductive ToolsEnd (env : AgentEnv ω τ) (content : List (Block τ)) (w : ω) :
    Except String (List (String × String)) × ω → Prop
  | answered {results : List (String × String)} {w' : ω} (h : Answered env (toolCalls content) w results w') :
      ToolsEnd env content w (.ok results, w')
  | raised {done rest : List (String × τ)} {id : String} {call : τ} {results : List (String × String)} {e : String}
      {w₁ w₂ : ω} (hcalls : toolCalls content = done ++ (id, call) :: rest) (hdone : Answered env done w results w₁)
      (hraise : env.execute call w₁ = (.error e, w₂)) : ToolsEnd env content w (.error e, w₂)
  | unread {before after : List (Block τ)} {results : List (String × String)} {w₁ : ω}
      (hcontent : content = before ++ .malformed :: after) (hdone : Answered env (toolCalls before) w results w₁) :
      ToolsEnd env content w (.error "attribute", w₁)

/-- A block that asks for nothing changes nothing. -/
theorem ToolsEnd.skip {block : Block τ} (hblock : block.call? = none) {content : List (Block τ)} {w : ω}
    {r : Except String (List (String × String)) × ω} (h : ToolsEnd env content w r) :
    ToolsEnd env (block :: content) w r := by
  have hcalls := toolCalls_cons_other hblock content
  cases h with
  | answered h => exact .answered (hcalls ▸ h)
  | raised hrest hdone hraise => exact .raised (hcalls ▸ hrest) hdone hraise
  | @unread before after results w₁ hcontent hdone =>
    have hbefore := toolCalls_cons_other hblock before
    exact .unread (congrArg (block :: ·) hcontent) (hbefore ▸ hdone)

theorem runTools_ends (content : List (Block τ)) (w : ω) : ToolsEnd env content w (runTools env content w) := by
  induction content generalizing w with
  | nil => exact .answered (.nil w)
  | cons block content ih =>
    cases block with
    | text text => exact (ih w).skip rfl
    | other => exact (ih w).skip rfl
    | malformed =>
      have hfirst : Block.malformed :: content = [] ++ .malformed :: content := rfl
      exact .unread hfirst (.nil w)
    | toolUse id call =>
      have hasked := toolCalls_cons_toolUse id call content
      simp only [runTools]
      rcases hexec : env.execute call w with ⟨e | out, w₁⟩
      · have hfirst : toolCalls (.toolUse id call :: content) = [] ++ (id, call) :: toolCalls content := hasked
        exact .raised hfirst (.nil w) hexec
      · have hrest := ih w₁
        dsimp only
        generalize runTools env content w₁ = r at hrest
        cases hrest with
        | answered h => exact .answered (.cons hexec h)
        | @raised done rest id' call' results e w₁' w₂ hcalls hdone hraise =>
          have hrest : toolCalls (.toolUse id call :: content) = ((id, call) :: done) ++ (id', call') :: rest := by
            rw [hasked, hcalls]
            rfl
          exact .raised hrest (.cons hexec hdone) hraise
        | @unread before after results w₁' hcontent hdone =>
          have hblocks : Block.toolUse id call :: content = (.toolUse id call :: before) ++ .malformed :: after :=
            congrArg (_ :: ·) hcontent
          exact .unread hblocks (.cons hexec hdone)

theorem conversation_snoc (exchanges : List (Exchange τ)) (e : Exchange τ) :
    conversation first (exchanges ++ [e]) =
      conversation first exchanges ++ [.assistant e.content, .results e.results] := by
  simp only [conversation, List.flatMap_append, List.flatMap_singleton, List.cons_append]

theorem Held.paired {exchanges : List (Exchange τ)} {w w' : ω} (h : Held env first exchanges w w') :
    ∀ e ∈ exchanges, e.results.map Prod.fst = (toolCalls e.content).map Prod.fst := by
  induction h with
  | start => simp
  | more _ _ hanswered ih =>
    intro e he
    rcases List.mem_append.mp he with he | he
    · exact ih e he
    · obtain rfl := List.mem_singleton.mp he
      exact hanswered.ids

theorem wellFormed_conversation {exchanges : List (Exchange τ)}
    (h : ∀ e ∈ exchanges, e.results.map Prod.fst = (toolCalls e.content).map Prod.fst) :
    WellFormed (conversation first exchanges) := by
  change Paired (exchanges.flatMap fun e => [.assistant e.content, .results e.results])
  induction exchanges with
  | nil => trivial
  | cons e exchanges ih =>
    exact ⟨h e List.mem_cons_self, ih fun e' he' => h e' (List.mem_cons_of_mem _ he')⟩

/-- What the loop does from any point of the conversation on. -/
theorem agentLoop_from (n : Nat) {exchanges : List (Exchange τ)} {w₀ w : ω} (h : Held env first exchanges w₀ w) :
    ∃ later w', Held env first (exchanges ++ later) w₀ w' ∧ later.length ≤ n ∧
      agentRequests env n (conversation first exchanges) w =
        (List.range (min (later.length + 1) n)).map (fun k => conversation first (exchanges ++ later.take k)) ∧
      LoopEnds env first (exchanges.length + n) (exchanges ++ later) w'
        (agentLoop env n (conversation first exchanges) w) := by
  induction n generalizing exchanges w with
  | zero => exact ⟨[], w, by rwa [List.append_nil], le_rfl, rfl, by rw [List.append_nil]; exact .capped rfl⟩
  | succ n ih =>
    -- the conversation stops here in every case but one
    have hone : (List.range (min (([] : List (Exchange τ)).length + 1) (n + 1))).map
        (fun k => conversation first (exchanges ++ ([] : List (Exchange τ)).take k)) =
          [conversation first exchanges] := by
      have hmin : min (([] : List (Exchange τ)).length + 1) (n + 1) = 1 := by simp
      rw [hmin]
      simp only [List.range_one, List.map_cons, List.map_nil, List.take_nil, List.append_nil]
    have hheld : Held env first (exchanges ++ []) w₀ w := by rwa [List.append_nil]
    simp only [agentRequests, agentLoop]
    cases hapi : env.api (conversation first exchanges) with
    | error e =>
      refine ⟨[], w, hheld, Nat.zero_le _, hone.symm, ?_⟩
      rw [List.append_nil]
      exact .refused hapi
    | ok resp =>
      obtain ⟨stop, content⟩ := resp
      dsimp only
      by_cases hstop : stop = "tool_use"
      · rw [if_neg (not_not_intro hstop), if_neg (not_not_intro hstop)]
        rw [hstop] at hapi
        have htools := @runTools_ends ω τ env content w
        generalize runTools env content w = r at htools
        cases htools with
        | @answered results w₁ hanswered =>
          have hmore := h.more (e := ⟨content, results⟩) hapi hanswered
          obtain ⟨later, w', hlater, hlength, hrequests, hends⟩ := ih hmore
          rw [conversation_snoc] at hrequests hends
          rw [List.append_assoc] at hlater hends
          rw [List.length_append, List.length_singleton] at hends
          refine ⟨⟨content, results⟩ :: later, w', hlater, Nat.succ_le_succ hlength, ?_, ?_⟩
          · dsimp only
            rw [hrequests, List.length_cons, Nat.succ_min_succ, List.range_succ_eq_map, List.map_cons, List.map_map,
              List.take_zero, List.append_nil]
            refine congrArg (_ :: ·) (List.map_congr_left fun k _ => ?_)
            rw [Function.comp_apply, List.take_succ_cons, List.append_assoc]
            rfl
          · dsimp only
            rw [Nat.add_right_comm] at hends
            exact hends
        | raised hcalls hdone hraise =>
          refine ⟨[], w, hheld, Nat.zero_le _, hone.symm, ?_⟩
          rw [List.append_nil]
          exact .raised hapi hcalls hdone hraise
        | unread hcontent hdone =>
          refine ⟨[], w, hheld, Nat.zero_le _, hone.symm, ?_⟩
          rw [List.append_nil]
          exact .unread hapi hcontent hdone
      · rw [if_pos hstop, if_pos hstop]
        refine ⟨[], w, hheld, Nat.zero_le _, hone.symm, ?_⟩
        rw [List.append_nil]
        exact .answered hapi hstop

end Loop

/-- The run is the loop and what is made of its end. -/
theorem agentRun_world {ω τ : Type} (env : AgentEnv ω τ) (U : CharTables) (message : String) (ctx : ChatContext) (w : ω) :
    (agentRun env U message ctx w).2 =
      (agentLoop env maxIters [.user (buildContextBlock ctx ++ "\n---\n" ++ message)] w).2 := by
  unfold agentRun
  rcases agentLoop env maxIters [.user (buildContextBlock ctx ++ "\n---\n" ++ message)] w with ⟨e | reply, w'⟩
  · dsimp only
    cases partialReply (env.toolbox w') <;> rfl
  · rfl

/-- The reply of the loop, or what is left to say when it has raised. -/
def afterLoop (U : CharTables) (message : String) (ctx : ChatContext) (box : ToolBox) :
    Except String AgentReply → Except ParseError AgentReply
  | .ok reply => .ok reply
  | .error _ =>
    match partialReply box with
    | some reply => .ok reply
    | none => (parseSync U message ctx).map fun intent => { text := describeIntent intent }

/-- Whatever the model and the tools do: every request is a well-formed conversation and
extends the one before it by one exchange, there are ten at most, every call that the
model asks for is made once and in order until the turn breaks off, and the reply is
made from what the calls have left. -/
theorem agent_conversation {ω τ : Type} (env : AgentEnv ω τ) (U : CharTables) (message : String) (ctx : ChatContext)
    (w : ω) :
    let first := buildContextBlock ctx ++ "\n---\n" ++ message
    let requests := agentRequests env maxIters [.user first] w
    ∃ exchanges w₁ outcome, Held env first exchanges w w₁ ∧ exchanges.length ≤ maxIters ∧
      requests = (List.range (min (exchanges.length + 1) maxIters)).map
        (fun k => conversation first (exchanges.take k)) ∧
      (∀ request ∈ requests, WellFormed request) ∧
      LoopEnds env first maxIters exchanges w₁ outcome ∧
      (agentRun env U message ctx w).2 = outcome.2 ∧
      (agentRun env U message ctx w).1 = afterLoop U message ctx (env.toolbox outcome.2) outcome.1 := by
  intro first requests
  have hstart : Held env first [] w w := .start w
  obtain ⟨exchanges, w₁, hheld, hlength, hrequests, hends⟩ := agentLoop_from maxIters hstart
  rw [List.nil_append] at hheld hends
  simp only [List.nil_append] at hrequests
  rw [List.length_nil, Nat.zero_add] at hends
  refine ⟨exchanges, w₁, agentLoop env maxIters [.user first] w, hheld, hlength, hrequests, fun request hrequest => ?_,
    hends, agentRun_world env U message ctx w, ?_⟩
  · have hmem : request ∈ (List.range (min (exchanges.length + 1) maxIters)).map
        (fun k => conversation first (exchanges.take k)) := hrequests ▸ hrequest
    obtain ⟨k, -, rfl⟩ := List.mem_map.mp hmem
    exact wellFormed_conversation fun e he => hheld.paired e (List.mem_of_mem_take he)
  · rcases hrun : agentLoop env maxIters [.user first] w with ⟨e | reply, w'⟩
    · exact agentRun_raised hrun
    · rw [agentRun, hrun, afterLoop]

end Planner
