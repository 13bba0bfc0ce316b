import Planner.Lib.Program

/-! Programs whose operations may fail. An operation that fails raises an
exception of the environment and leaves the state alone; the program goes on from there. -/

namespace Program

variable {σ ε α β : Type}

/-- `p` may end with `r` in `s'` when it runs from `s` on its own and any of its
operations may fail. -/
inductive Ends (fault : ε → Prop) : Program σ ε α → σ → Except ε α → σ → Prop
  | pure (a : α) (s : σ) : Ends fault (.pure a) s (.ok a) s
  | raise (e : ε) (s : σ) : Ends fault (.raise e) s (.error e) s
  | operate {γ : Type} {op : σ → Except ε γ × σ} {next : Except ε γ → Program σ ε α} {s s' : σ}
      {r : Except ε α} (h : Ends fault (next (op s).1) (op s).2 r s') : Ends fault (.atomic op next) s r s'
  | fail {γ : Type} {op : σ → Except ε γ × σ} {next : Except ε γ → Program σ ε α} {s s' : σ}
      {r : Except ε α} {e : ε} (he : fault e) (h : Ends fault (next (.error e)) s r s') :
      Ends fault (.atomic op next) s r s'

namespace Ends

variable {fault : ε → Prop} {s s' : σ}

/-- Among the ends is the one without a failure. -/
theorem run (p : Program σ ε α) (s : σ) : p.Ends fault s (p.run s).1 (p.run s).2 := by
  induction p generalizing s with
  | pure a => exact .pure a s
  | raise e => exact .raise e s
  | atomic op next ih => exact .operate (ih (op s).1 (op s).2)

theorem of_pure {a : α} {r : Except ε α} (h : (Pure.pure a : Program σ ε α).Ends fault s r s') :
    r = .ok a ∧ s' = s := by
  cases h
  exact ⟨rfl, rfl⟩

theorem of_pure_ok {a b : α} (h : (Pure.pure a : Program σ ε α).Ends fault s (.ok b) s') : b = a ∧ s' = s := by
  obtain ⟨hb, hs⟩ := of_pure h
  exact ⟨Except.ok.inj hb, hs⟩

theorem of_raise {e : ε} {r : Except ε α} (h : (Program.raise e : Program σ ε α).Ends fault s r s') :
    r = .error e ∧ s' = s := by
  cases h
  exact ⟨rfl, rfl⟩

theorem of_ofExcept {x r : Except ε α} (h : (Program.ofExcept x : Program σ ε α).Ends fault s r s') :
    r = x ∧ s' = s := by
  cases x with
  | ok a => exact of_pure h
  | error e => exact of_raise h

/-- A call answers, or fails without a trace. -/
theorem of_call {op : σ → Except ε β × σ} {r : Except ε β} (h : (call op).Ends fault s r s') :
    (r = (op s).1 ∧ s' = (op s).2) ∨ s' = s ∧ ∃ e, fault e ∧ r = .error e := by
  cases h with
  | operate h =>
    cases ho : (op s).1 with
    | ok b =>
      rw [ho] at h
      obtain ⟨rfl, rfl⟩ := of_pure h
      exact Or.inl ⟨rfl, rfl⟩
    | error e =>
      rw [ho] at h
      obtain ⟨rfl, rfl⟩ := of_raise h
      exact Or.inl ⟨rfl, rfl⟩
  | fail he h =>
    obtain ⟨rfl, rfl⟩ := of_raise h
    exact Or.inr ⟨rfl, _, he, rfl⟩

theorem of_call_ok {op : σ → Except ε β × σ} {b : β} (h : (call op).Ends fault s (.ok b) s') :
    (op s).1 = .ok b ∧ s' = (op s).2 := by
  rcases of_call h with ⟨hb, hs⟩ | ⟨-, e, -, he⟩
  · exact ⟨hb.symm, hs⟩
  · cases he

/-- A call that writes only under a condition has written, or nothing has changed. -/
theorem of_guarded {c : σ → Prop} [DecidablePred c] {b : σ → β} {t : σ → σ} {e : ε} {r : Except ε β}
    (h : (call fun s => if c s then (.ok (b s), t s) else (.error e, s)).Ends fault s r s') :
    (r = .ok (b s) ∧ s' = t s) ∨ s' = s ∧ ∃ e', (e' = e ∨ fault e') ∧ r = .error e' := by
  rcases of_call h with ⟨hr, hs⟩ | ⟨hs, e', hfault, hr⟩
  · by_cases hc : c s
    · rw [if_pos hc] at hr hs
      exact Or.inl ⟨hr, hs⟩
    · rw [if_neg hc] at hr hs
      exact Or.inr ⟨hs, e, Or.inl rfl, hr⟩
  · exact Or.inr ⟨hs, e', Or.inr hfault, hr⟩

theorem of_guarded_ok {c : σ → Prop} [DecidablePred c] {b : σ → β} {t : σ → σ} {e : ε} {x : β}
    (h : (call fun s => if c s then (.ok (b s), t s) else (.error e, s)).Ends fault s (.ok x) s') :
    x = b s ∧ s' = t s := by
  rcases of_guarded h with ⟨hx, hs⟩ | ⟨-, e', -, he⟩
  · exact ⟨Except.ok.inj hx, hs⟩
  · cases he

theorem of_guarded_error {c : σ → Prop} [DecidablePred c] {b : σ → β} {t : σ → σ} {e e' : ε}
    (h : (call fun s => if c s then (.ok (b s), t s) else (.error e, s)).Ends fault s (.error e') s') :
    s' = s ∧ (e' = e ∨ fault e') := by
  rcases of_guarded h with ⟨hx, -⟩ | ⟨hs, e'', hwhy, he⟩
  · cases hx
  · exact ⟨hs, Except.error.inj he ▸ hwhy⟩

theorem of_read {f : σ → β} {r : Except ε β} (h : (Program.read f : Program σ ε β).Ends fault s r s') :
    s' = s ∧ (r = .ok (f s) ∨ ∃ e, r = .error e) := by
  rcases of_call h with ⟨rfl, rfl⟩ | ⟨rfl, e, -, he⟩
  · exact ⟨rfl, Or.inl rfl⟩
  · exact ⟨rfl, Or.inr ⟨e, he⟩⟩

theorem of_read_ok {f : σ → β} {b : β} (h : (Program.read f : Program σ ε β).Ends fault s (.ok b) s') :
    b = f s ∧ s' = s := by
  obtain ⟨hb, hs⟩ := of_call_ok h
  exact ⟨(Except.ok.inj hb).symm, hs⟩

theorem of_bind {p : Program σ ε α} {f : α → Program σ ε β} {r : Except ε β}
    (h : (p >>= f).Ends fault s r s') :
    (∃ a s₁, p.Ends fault s (.ok a) s₁ ∧ (f a).Ends fault s₁ r s') ∨
      ∃ e, p.Ends fault s (.error e) s' ∧ r = .error e := by
  change (p.bind f).Ends fault s r s' at h
  induction p generalizing s with
  | pure a => exact Or.inl ⟨a, s, .pure a s, h⟩
  | raise e =>
    obtain ⟨rfl, rfl⟩ := of_raise h
    exact Or.inr ⟨e, .raise e _, rfl⟩
  | atomic op next ih =>
    cases h with
    | operate h =>
      rcases ih _ h with ⟨a, s₁, hp, hf⟩ | ⟨e, hp, he⟩
      · exact Or.inl ⟨a, s₁, .operate hp, hf⟩
      · exact Or.inr ⟨e, .operate hp, he⟩
    | fail hfault h =>
      rcases ih _ h with ⟨a, s₁, hp, hf⟩ | ⟨e, hp, he⟩
      · exact Or.inl ⟨a, s₁, .fail hfault hp, hf⟩
      · exact Or.inr ⟨e, .fail hfault hp, he⟩

theorem of_bind_ok {p : Program σ ε α} {f : α → Program σ ε β} {b : β} (h : (p >>= f).Ends fault s (.ok b) s') :
    ∃ a s₁, p.Ends fault s (.ok a) s₁ ∧ (f a).Ends fault s₁ (.ok b) s' := by
  rcases of_bind h with hok | ⟨e, -, he⟩
  · exact hok
  · cases he

/-- What is only checked leaves no trace. -/
theorem of_bind_ofExcept {x : Except ε α} {f : α → Program σ ε β} {r : Except ε β}
    (h : (Program.ofExcept x >>= f).Ends fault s r s') :
    (∃ a, x = .ok a ∧ (f a).Ends fault s r s') ∨ ∃ e, x = .error e ∧ r = .error e ∧ s' = s := by
  rcases of_bind h with ⟨a, s₁, hcheck, hf⟩ | ⟨e, hcheck, he⟩
  · obtain ⟨hx, rfl⟩ := of_ofExcept hcheck
    exact Or.inl ⟨a, hx.symm, hf⟩
  · obtain ⟨hx, hs⟩ := of_ofExcept hcheck
    exact Or.inr ⟨e, hx.symm, he, hs⟩

theorem of_bind_ofExcept_ok {x : Except ε α} {f : α → Program σ ε β} {b : β}
    (h : (Program.ofExcept x >>= f).Ends fault s (.ok b) s') : ∃ a, x = .ok a ∧ (f a).Ends fault s (.ok b) s' := by
  rcases of_bind_ofExcept h with hok | ⟨e, -, he, -⟩
  · exact hok
  · cases he

theorem of_bind_read_ok {g : σ → α} {f : α → Program σ ε β} {b : β}
    (h : (Program.read g >>= f).Ends fault s (.ok b) s') : ∃ a, a = g s ∧ (f a).Ends fault s (.ok b) s' := by
  obtain ⟨a, s₁, hread, hf⟩ := of_bind_ok h
  obtain ⟨ha, rfl⟩ := of_read_ok hread
  exact ⟨a, ha, hf⟩

theorem of_attempt {p : Program σ ε α} {r : Except ε (Except ε α)} (h : p.attempt.Ends fault s r s') :
    ∃ r', p.Ends fault s r' s' ∧ r = .ok r' := by
  induction p generalizing s with
  | pure a =>
    obtain ⟨rfl, rfl⟩ := of_pure h
    exact ⟨_, .pure a _, rfl⟩
  | raise e =>
    obtain ⟨rfl, rfl⟩ := of_pure h
    exact ⟨_, .raise e _, rfl⟩
  | atomic op next ih =>
    cases h with
    | operate h =>
      obtain ⟨r', hr, rfl⟩ := ih _ h
      exact ⟨r', .operate hr, rfl⟩
    | fail hfault h =>
      obtain ⟨r', hr, rfl⟩ := ih _ h
      exact ⟨r', .fail hfault hr, rfl⟩

end Ends

/-- Runs on its own while the failures are scheduled: operation number `n` raises
`fail n`, if there is one. Answers how many operations there have been, too. -/
def runFaulty (fail : Nat → Option ε) : Program σ ε α → Nat → σ → Except ε α × Nat × σ
  | .pure a, n, s => (.ok a, n, s)
  | .raise e, n, s => (.error e, n, s)
  | .atomic op next, n, s =>
    match fail n with
    | some e => (next (.error e)).runFaulty fail (n + 1) s
    | none => (next (op s).1).runFaulty fail (n + 1) (op s).2

section RunFaulty

variable (fail : Nat → Option ε) (n : Nat) (s : σ)

@[simp] theorem runFaulty_pure (a : α) : (Pure.pure a : Program σ ε α).runFaulty fail n s = (.ok a, n, s) := rfl

@[simp] theorem runFaulty_call (op : σ → Except ε β × σ) : (call op).runFaulty fail n s =
    match fail n with
    | some e => (.error e, n + 1, s)
    | none => ((op s).1, n + 1, (op s).2) := by
  simp only [call, runFaulty]
  cases fail n with
  | some e => rfl
  | none => rcases op s with ⟨_ | _, s'⟩ <;> rfl

/-- An operation that does not fail is the one that runs on its own. -/
theorem runFaulty_call_of_none {fail : Nat → Option ε} {n : Nat} {s t : σ} {op : σ → Except ε β × σ} {r : Except ε β}
    (hn : fail n = none) (h : (call op).run s = (r, t)) : (call op).runFaulty fail n s = (r, n + 1, t) := by
  rw [run_call] at h
  rw [runFaulty_call, hn, h]

@[simp] theorem runFaulty_ofExcept (r : Except ε α) :
    (ofExcept r : Program σ ε α).runFaulty fail n s = (r, n, s) := by
  cases r <;> rfl

theorem runFaulty_bind (p : Program σ ε α) (f : α → Program σ ε β) : (p >>= f).runFaulty fail n s =
    match p.runFaulty fail n s with
    | (.ok a, m, t) => (f a).runFaulty fail m t
    | (.error e, m, t) => (.error e, m, t) := by
  change (p.bind f).runFaulty fail n s = _
  induction p generalizing n s with
  | pure a => rfl
  | raise e => rfl
  | atomic op next ih =>
    simp only [bind, runFaulty]
    cases fail n with
    | some e => exact ih (.error e) (n + 1) s
    | none => exact ih (op s).1 (n + 1) (op s).2

theorem runFaulty_bind_of_ok {fail : Nat → Option ε} {n m : Nat} {s t : σ} {p : Program σ ε α}
    {f : α → Program σ ε β} {a : α} (h : p.runFaulty fail n s = (.ok a, m, t)) :
    (p >>= f).runFaulty fail n s = (f a).runFaulty fail m t := by
  rw [runFaulty_bind, h]

@[simp] theorem runFaulty_attempt (p : Program σ ε α) : p.attempt.runFaulty fail n s =
    (.ok (p.runFaulty fail n s).1, (p.runFaulty fail n s).2) := by
  induction p generalizing n s with
  | pure a => rfl
  | raise e => rfl
  | atomic op next ih =>
    simp only [attempt, runFaulty]
    cases fail n with
    | some e => exact ih (.error e) (n + 1) s
    | none => exact ih (op s).1 (n + 1) (op s).2

end RunFaulty

theorem Ends.runFaulty {fault : ε → Prop} {fail : Nat → Option ε} (hfail : ∀ n, ∀ e ∈ fail n, fault e)
    (p : Program σ ε α) (n : Nat) (s : σ) :
    p.Ends fault s (p.runFaulty fail n s).1 (p.runFaulty fail n s).2.2 := by
  induction p generalizing n s with
  | pure a => exact .pure a s
  | raise e => exact .raise e s
  | atomic op next ih =>
    rw [Program.runFaulty]
    cases hn : fail n with
    | some e => exact .fail (hfail n e hn) (ih (.error e) (n + 1) s)
    | none => exact .operate (ih (op s).1 (n + 1) (op s).2)

/-- What every operation keeps is kept whatever fails. -/
theorem Keeps.ends {I fault} {p : Program σ ε α} (hp : p.Keeps I) {s s' : σ} {r : Except ε α} (hs : I s)
    (h : p.Ends fault s r s') : I s' := by
  induction h with
  | pure => exact hs
  | raise => exact hs
  | operate _ ih => exact ih (hp.rest _) (hp.operate hs)
  | fail _ _ ih => exact ih (hp.rest _) hs

/-- One step after the other. -/
def runSteps (steps : List (σ → σ)) (s : σ) : σ := steps.foldl (fun s step => step s) s

theorem runSteps_append (steps steps' : List (σ → σ)) (s : σ) :
    runSteps (steps ++ steps') s = runSteps steps' (runSteps steps s) := List.foldl_append

/-- Whatever fails, `p` ends with the first of the steps done; it answers only with all
of them, and then as `Q` says. -/
def Stepwise (fault : ε → Prop) (p : Program σ ε α) (s : σ) (steps : List (σ → σ)) (Q : α → Prop) : Prop :=
  ∀ r s', p.Ends fault s r s' →
    ∃ n ≤ steps.length, s' = runSteps (steps.take n) s ∧ ∀ a, r = .ok a → n = steps.length ∧ Q a

namespace Stepwise

variable {fault : ε → Prop} {s : σ} {steps steps' : List (σ → σ)}

theorem pure (a : α) : (Pure.pure a : Program σ ε α).Stepwise fault s [] (· = a) := by
  intro r s' h
  obtain ⟨rfl, rfl⟩ := Ends.of_pure h
  exact ⟨0, Nat.le_refl _, rfl, fun b hb => ⟨rfl, (Except.ok.inj hb).symm⟩⟩

theorem raise (e : ε) {Q : α → Prop} : (Program.raise e : Program σ ε α).Stepwise fault s steps Q := by
  intro r s' h
  obtain ⟨rfl, rfl⟩ := Ends.of_raise h
  exact ⟨0, Nat.zero_le _, rfl, fun a ha => nomatch ha⟩

theorem ofExcept (x : Except ε α) : (Program.ofExcept x : Program σ ε α).Stepwise fault s [] (x = .ok ·) := by
  intro r s' h
  obtain ⟨rfl, rfl⟩ := Ends.of_ofExcept h
  exact ⟨0, Nat.le_refl _, rfl, fun a ha => ⟨rfl, ha⟩⟩

theorem read (f : σ → α) : (Program.read f : Program σ ε α).Stepwise fault s [] (· = f s) := by
  intro r s' h
  obtain ⟨rfl, hr⟩ := Ends.of_read h
  refine ⟨0, Nat.le_refl _, rfl, fun a ha => ⟨rfl, ?_⟩⟩
  rcases hr with hr | ⟨e, he⟩
  · exact Except.ok.inj (ha.symm.trans hr)
  · cases ha.symm.trans he

/-- A call that finds nothing to do. -/
theorem quiet_call {op : σ → Except ε α × σ} {a : α} (h : op s = (.ok a, s)) :
    (Program.call op).Stepwise fault s [] (· = a) := by
  intro r s' hend
  rcases Ends.of_call hend with ⟨rfl, rfl⟩ | ⟨rfl, e, -, rfl⟩
  · rw [h]
    exact ⟨0, Nat.le_refl _, rfl, fun b hb => ⟨rfl, (Except.ok.inj hb).symm⟩⟩
  · exact ⟨0, Nat.le_refl _, rfl, fun b hb => nomatch hb⟩

/-- A call that leaves the step undone does not answer. -/
theorem call {op : σ → Except ε α × σ} {step : σ → σ} {Q : α → Prop}
    (h : (∃ a, op s = (.ok a, step s) ∧ Q a) ∨ ∃ e, op s = (.error e, s)) :
    (Program.call op).Stepwise fault s [step] Q := by
  intro r s' hend
  rcases Ends.of_call hend with ⟨rfl, rfl⟩ | ⟨rfl, e, -, rfl⟩
  · rcases h with ⟨a, ha, hQ⟩ | ⟨e, he⟩
    · rw [ha]
      exact ⟨1, Nat.le_refl _, rfl, fun b hb => ⟨rfl, Except.ok.inj hb ▸ hQ⟩⟩
    · rw [he]
      exact ⟨0, Nat.zero_le _, rfl, fun b hb => nomatch hb⟩
  · exact ⟨0, Nat.zero_le _, rfl, fun b hb => nomatch hb⟩

theorem guarded {c : σ → Prop} [DecidablePred c] {b : σ → α} {step : σ → σ} {e : ε} :
    (Program.call fun s => if c s then (.ok (b s), step s) else (.error e, s)).Stepwise fault s [step] (· = b s) := by
  refine call ?_
  by_cases hc : c s
  · exact Or.inl ⟨b s, if_pos hc, rfl⟩
  · exact Or.inr ⟨e, if_neg hc⟩

theorem mono {p : Program σ ε α} {Q R : α → Prop} (h : p.Stepwise fault s steps Q) (hQR : ∀ a, Q a → R a) :
    p.Stepwise fault s steps R := by
  intro r s' hend
  obtain ⟨n, hn, hs, hr⟩ := h r s' hend
  exact ⟨n, hn, hs, fun a ha => ⟨(hr a ha).1, hQR a (hr a ha).2⟩⟩

theorem answer (a : α) : (Pure.pure a : Program σ ε α).Stepwise fault s [] fun _ => True :=
  (pure a).mono fun _ _ => trivial

/-- What follows an answer goes on from where all the steps have led. -/
theorem bind {p : Program σ ε α} {f : α → Program σ ε β} {Q : α → Prop} {R : β → Prop} (h : p.Stepwise fault s steps Q)
    (hf : ∀ a, Q a → (f a).Stepwise fault (runSteps steps s) steps' R) :
    (p >>= f).Stepwise fault s (steps ++ steps') R := by
  intro r s' hend
  rcases Ends.of_bind hend with ⟨a, t, hp, hrest⟩ | ⟨e, hp, rfl⟩
  · obtain ⟨n, -, rfl, hall⟩ := h _ _ hp
    obtain ⟨rfl, hQ⟩ := hall a rfl
    rw [List.take_length] at hrest
    obtain ⟨m, hm, rfl, hr⟩ := hf a hQ r s' hrest
    refine ⟨steps.length + m, ?_, ?_, fun b hb => ?_⟩
    · rw [List.length_append]
      exact Nat.add_le_add_left hm _
    · rw [List.take_length_add_append, runSteps_append]
    · obtain ⟨rfl, hR⟩ := hr b hb
      exact ⟨List.length_append.symm, hR⟩
  · obtain ⟨n, hn, rfl, -⟩ := h _ _ hp
    refine ⟨n, Nat.le_trans hn (List.length_append ▸ Nat.le_add_right _ _), ?_, fun b hb => nomatch hb⟩
    rw [List.take_append_of_le_length hn]

theorem step_bind {p : Program σ ε α} {f : α → Program σ ε β} {step : σ → σ} {Q : α → Prop} {R : β → Prop}
    (h : p.Stepwise fault s [step] Q) (hf : ∀ a, Q a → (f a).Stepwise fault (step s) steps R) :
    (p >>= f).Stepwise fault s (step :: steps) R := h.bind hf

theorem quiet_bind {p : Program σ ε α} {f : α → Program σ ε β} {Q : α → Prop} {R : β → Prop}
    (h : p.Stepwise fault s [] Q) (hf : ∀ a, Q a → (f a).Stepwise fault s steps R) :
    (p >>= f).Stepwise fault s steps R := h.bind hf

theorem bind_quiet {p : Program σ ε α} {f : α → Program σ ε β} {Q : α → Prop} {R : β → Prop}
    (h : p.Stepwise fault s steps Q) (hf : ∀ a, Q a → (f a).Stepwise fault (runSteps steps s) [] R) :
    (p >>= f).Stepwise fault s steps R := by
  have hall := h.bind hf
  rw [List.append_nil] at hall
  exact hall

end Stepwise

end Program
