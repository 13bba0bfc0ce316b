import Mathlib.Logic.Function.Iterate

/-! Loops as relations between the state they are entered in and the state they
are left in. A turn may fail, and a loop that meets a failing turn, or is never
left, relates its entry to nothing. -/

variable {σ : Type*}

inductive WhileLoop (cond : σ → Bool) (body : σ → Option σ) : σ → σ → Prop
  | leave {s : σ} (hcond : cond s = false) : WhileLoop cond body s s
  | turn {s u t : σ} (hcond : cond s = true) (hbody : body s = some u)
      (hrest : WhileLoop cond body u t) : WhileLoop cond body s t

namespace WhileLoop

variable {cond : σ → Bool} {body : σ → Option σ} {s t : σ}

theorem unique {t' : σ} (h : WhileLoop cond body s t) (h' : WhileLoop cond body s t') : t = t' := by
  induction h with
  | leave hcond =>
    cases h' with
    | leave => rfl
    | turn hcond' => exact Bool.noConfusion (hcond.symm.trans hcond')
  | turn hcond hbody _ ih =>
    cases h' with
    | leave hcond' => exact Bool.noConfusion (hcond.symm.trans hcond')
    | turn _ hbody' hrest' =>
      obtain rfl := Option.some.inj (hbody.symm.trans hbody')
      exact ih hrest'

theorem invariant {I : σ → Prop} (h : WhileLoop cond body s t) (hs : I s)
    (keep : ∀ s u, I s → cond s = true → body s = some u → I u) : I t ∧ cond t = false := by
  induction h with
  | leave hcond => exact ⟨hs, hcond⟩
  | turn hcond hbody _ ih => exact ih (keep _ _ hs hcond hbody)

/-- A turn that cannot fail keeps the invariant and has less left to do. -/
theorem total {I : σ → Prop} (left : σ → ℕ) (hs : I s)
    (turns : ∀ s, I s → cond s = true → ∃ u, body s = some u ∧ I u ∧ left u < left s) :
    ∃ t, WhileLoop cond body s t ∧ I t ∧ cond t = false := by
  induction hk : left s using Nat.strongRecOn generalizing s with
  | ind k ih =>
    cases hcond : cond s with
    | false => exact ⟨s, leave hcond, hs, hcond⟩
    | true =>
      obtain ⟨u, hbody, hu, hlt⟩ := turns s hs hcond
      obtain ⟨t, hrest, ht⟩ := ih (left u) (hk ▸ hlt) hu rfl
      exact ⟨t, turn hcond hbody hrest, ht⟩

end WhileLoop

/-- `body` is run a given number of times. -/
inductive ForLoop (body : σ → σ → Prop) : ℕ → σ → σ → Prop
  | leave {s : σ} : ForLoop body 0 s s
  | turn {n : ℕ} {s u t : σ} (hbody : body s u) (hrest : ForLoop body n u t) : ForLoop body (n + 1) s t

namespace ForLoop

variable {body : σ → σ → Prop} (f : σ → σ) (Good : σ → Prop)

theorem good_of_iterate (back : ∀ s, Good (f s) → Good s) (n : ℕ) {s : σ} (h : Good (f^[n] s)) :
    Good s := by
  induction n generalizing s with
  | zero => exact h
  | succ n ih => exact back s (ih h)

/-- A body that answers `f`, and fails where that is no good. -/
theorem iff_iterate (answers : ∀ s t, Good s → (body s t ↔ t = f s ∧ Good t))
    (back : ∀ s, Good (f s) → Good s) (n : ℕ) {s t : σ} (hs : Good s) :
    ForLoop body n s t ↔ t = f^[n] s ∧ Good t := by
  induction n generalizing s with
  | zero =>
    constructor
    · intro h
      cases h
      exact ⟨rfl, hs⟩
    · rintro ⟨rfl, _⟩
      exact leave
  | succ n ih =>
    constructor
    · intro h
      cases h with
      | turn hbody hrest =>
        obtain ⟨rfl, hu⟩ := (answers s _ hs).mp hbody
        exact (ih hu).mp hrest
    · rintro ⟨rfl, ht⟩
      have hu : Good (f s) := good_of_iterate f Good back n ht
      exact turn ((answers s _ hs).mpr ⟨rfl, hu⟩) ((ih hu).mpr ⟨rfl, ht⟩)

end ForLoop
