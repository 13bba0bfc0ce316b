import Planner.Agent

/-! Whether the language front end answers. All its fallbacks end in the offline
parser, and this one raises on a text that is too long to be a title. -/

namespace Planner

section Claude

variable {τ : Type} {U : CharTables} {create : Except String (Response τ)} {message : String} {ctx : ChatContext}

theorem claudeParse_ok (validateJson : String → Except String Intent)
    (h : ∃ intent, parseSync U message ctx = .ok intent) :
    ∃ intent, claudeParse U create validateJson message ctx = .ok intent := by
  unfold claudeParse
  split
  · exact ⟨_, rfl⟩
  · exact h

theorem claudeParseIntents_ok (validateJson : String → Except String (List Intent))
    (h : ∃ intent, parseSync U message ctx = .ok intent) :
    ∃ intents, claudeParseIntents U create validateJson message ctx = .ok intents := by
  unfold claudeParseIntents
  split
  · exact ⟨_, rfl⟩
  · obtain ⟨intent, hi⟩ := h
    rw [hi]
    exact ⟨_, rfl⟩

theorem claudeParseIntents_error (e : String) (validateJson : String → Except String (List Intent)) :
    claudeParseIntents U (.error e : Except String (Response τ)) validateJson message ctx =
      (parseSync U message ctx).map ([·]) := rfl

end Claude

section Agent

variable {ω τ : Type} (env : AgentEnv ω τ) {U : CharTables} {message : String} {ctx : ChatContext} {w : ω}

/-- The agent answers iff its loop does, or its tools have left evidence, or the
offline parser answers. -/
theorem agentRun_ok_iff :
    (∃ reply, (agentRun env U message ctx w).1 = .ok reply) ↔
      (∃ reply, (agentLoop env maxIters [.user (buildContextBlock ctx ++ "\n---\n" ++ message)] w).1 = .ok reply) ∨
      (partialReply (env.toolbox
        (agentLoop env maxIters [.user (buildContextBlock ctx ++ "\n---\n" ++ message)] w).2)).isSome ∨
      ∃ intent, parseSync U message ctx = .ok intent := by
  unfold agentRun
  split
  · rename_i reply w' hloop
    rw [hloop]
    exact iff_of_true ⟨reply, rfl⟩ (Or.inl ⟨reply, rfl⟩)
  · rename_i e w' hloop
    rw [hloop]
    split
    · rename_i reply hleft
      exact iff_of_true ⟨reply, rfl⟩ (Or.inr (Or.inl (by rw [hleft]; rfl)))
    · rename_i hleft
      cases hparse : parseSync U message ctx with
      | ok intent => exact iff_of_true ⟨_, rfl⟩ (Or.inr (Or.inr ⟨intent, rfl⟩))
      | error e =>
        refine iff_of_false (fun ⟨_, h⟩ => by cases h) ?_
        rintro (⟨_, h⟩ | h | ⟨_, h⟩)
        · cases h
        · rw [hleft] at h
          cases h
        · cases h

end Agent

/-- Whatever the model does, all four entry points answer, iff the text is no
longer than a title or is not to become a task. -/
theorem frontEnd_answers_iff (U : CharTables) (message : String) (ctx : ChatContext) :
    ((∃ intent, parseSync U message ctx = .ok intent) ∧
      (∀ (τ : Type) (create : Except String (Response τ)) validateJson,
        ∃ intent, claudeParse U create validateJson message ctx = .ok intent) ∧
      (∀ (τ : Type) (create : Except String (Response τ)) validateJson,
        ∃ intents, claudeParseIntents U create validateJson message ctx = .ok intents) ∧
      ∀ (ω τ : Type) (env : AgentEnv ω τ) (w : ω), ∃ reply, (agentRun env U message ctx w).1 = .ok reply) ↔
    FitsTitle U message := by
  rw [← parseSync_ok_iff message ctx]
  constructor
  · intro h
    exact h.1
  · intro h
    exact ⟨h, fun _ _ validateJson => claudeParse_ok validateJson h,
      fun _ _ validateJson => claudeParseIntents_ok validateJson h,
      fun _ _ env _ => (agentRun_ok_iff env).mpr (Or.inr (Or.inr h))⟩

section LongMessage

theorem exists_of_map_ok {ε α β : Type} {x : Except ε α} {f : α → β} (h : ∃ b, x.map f = .ok b) :
    ∃ a, x = .ok a := by
  cases x with
  | ok a => exact ⟨a, rfl⟩
  | error e =>
    obtain ⟨_, h⟩ := h
    cases h

/-- Some letter of the word is another one. -/
def hasOther (word : String) : Bool := word.toList.any fun c => c ≠ 'я'

theorem ne_replicate {word : String} {n : Nat} (h : hasOther word = true) : word.toList ≠ List.replicate n 'я' := by
  intro heq
  obtain ⟨c, hc, hne⟩ := List.any_eq_true.mp h
  exact of_decide_eq_true hne (List.eq_of_mem_replicate (heq ▸ hc))

theorem occurs_replicate {needle : String} {n : Nat} (h : hasOther needle = true) :
    occurs needle (List.replicate n 'я') = false := by
  obtain ⟨c, hc, hne⟩ := List.any_eq_true.mp h
  refine decide_eq_false fun hoccurs => of_decide_eq_true hne ?_
  exact List.eq_of_mem_replicate (hoccurs.subset hc)

theorem anyOccurs_replicate {needles : List String} {n : Nat} (h : needles.all hasOther = true) :
    anyOccurs needles (List.replicate n 'я') = false :=
  List.any_eq_false.mpr fun needle hn => ne_true_of_eq_false (occurs_replicate (List.all_eq_true.mp h needle hn))

theorem lowered_replicate (n : Nat) : lowered .plain (List.replicate n 'я') = List.replicate n 'я' := by
  have hlower : lowerChar 'я' = 'я' := by decide
  have hblank : isSpace 'я' = false := by decide
  simp [lowered, stripChars, CharTables.plain, hlower, hblank]

theorem strip_replicate (n : Nat) :
    strip (String.ofList (List.replicate n 'я')) = String.ofList (List.replicate n 'я') := by
  have hblank : isSpace 'я' = false := by decide
  simp [strip, stripChars, hblank]

theorem capturesText_replicate (n : Nat) :
    CapturesText .plain (String.ofList (List.replicate (n + 1) 'я')) := by
  have hlow := lowered_replicate (n + 1)
  unfold CapturesText
  rw [String.toList_ofList]
  refine ⟨?_, ?_, ?_, ?_, ?_, ?_, ?_, ?_, ?_⟩
  · rw [asksLoad, hlow, anyOccurs_replicate rfl, occurs_replicate rfl, Bool.false_or]
  · rw [asksTasks, hlow, anyOccurs_replicate rfl]
  · rw [asksVacation, hlow, occurs_replicate rfl, Bool.false_or]
    rfl
  · rw [asksWhatIf, hlow, anyOccurs_replicate rfl, Bool.false_or]
    rfl
  · rw [confirms, hlow, List.any_eq_false]
    intro phrase hphrase
    have hletter : ["ок", "ok", "да", "yes", "confirm", "подтверждаю"].all hasOther = true := rfl
    simpa using ne_replicate (n := n + 1) (List.all_eq_true.mp hletter phrase hphrase)
  · rw [dropsProject, hlow, occurs_replicate rfl, Bool.false_and]
  · rw [namesProject, hlow, anyOccurs_replicate rfl, Bool.false_and]
  · rw [isQuestion, hlow, List.getLast?_replicate, if_neg (Nat.succ_ne_zero n)]
    rfl
  · rw [hlow]
    exact List.cons_ne_nil _ _

theorem replicate_unfit {n : Nat} (h : 200 ≤ n) : ¬ FitsTitle .plain (String.ofList (List.replicate (n + 1) 'я')) := by
  intro hfits
  have hlength := hfits (capturesText_replicate n)
  rw [strip_replicate, String.length_ofList, List.length_replicate] at hlength
  omega

/-- A description of 201 letters. -/
def longMessage : String := String.ofList (List.replicate 201 'я')

/-- A model that never answers, and no tools. -/
def silentModel : AgentEnv Unit Unit where
  api _ := .error "timeout"
  execute _ w := (.ok "", w)
  toolbox _ := {}

/-- With the model out of reach the last resort raises, too. -/
theorem longMessage_raises :
    (¬ ∃ intent, parseSync .plain longMessage { today := 1 } = .ok intent) ∧
    (¬ ∃ intent, claudeParse .plain (.error "timeout" : Except String (Response Unit)) (fun _ => .error "")
      longMessage { today := 1 } = .ok intent) ∧
    (¬ ∃ intents, claudeParseIntents .plain (.error "timeout" : Except String (Response Unit))
      (fun _ => .error "") longMessage { today := 1 } = .ok intents) ∧
    ¬ ∃ reply, (agentRun silentModel .plain longMessage { today := 1 } ()).1 = .ok reply := by
  have hraises : ¬ ∃ intent, parseSync .plain longMessage { today := 1 } = .ok intent := fun h =>
    replicate_unfit (Nat.le_refl 200) ((parseSync_ok_iff _ _).mp h)
  refine ⟨hraises, hraises, ?_, ?_⟩
  · rw [claudeParseIntents_error]
    exact fun h => hraises (exists_of_map_ok h)
  · rintro h
    rcases (agentRun_ok_iff silentModel).mp h with ⟨_, hloop⟩ | hleft | hparse
    · cases hloop
    · exact absurd hleft (by decide)
    · exact hraises hparse

end LongMessage

end Planner
