import Mathlib.Tactic.TypeStar
import Mathlib.Data.Prod.Basic

/-! Programs that touch a shared state only through atomic operations. An
operation answers a value or an exception and leaves a state behind; between
two operations the program is its continuation. -/

inductive Program (σ ε α : Type) : Type 1
  | pure (a : α)
  | raise (e : ε)
  | atomic {β : Type} (op : σ → Except ε β × σ) (next : Except ε β → Program σ ε α)

theorem except_bind_ok {ε α β : Type} {x : Except ε α} {f : α → Except ε β} {b : β} (h : (x >>= f) = .ok b) :
    ∃ a, x = .ok a ∧ f a = .ok b := by
  cases x with
  | ok a => exact ⟨a, rfl, h⟩
  | error e => cases h

namespace Program

variable {σ ε α β : Type}

def bind : Program σ ε α → (α → Program σ ε β) → Program σ ε β
  | .pure a, f => f a
  | .raise e, _ => .raise e
  | .atomic op next, f => .atomic op fun r => (next r).bind f

instance : Monad (Program σ ε) where
  pure := .pure
  bind := .bind

/-- One operation; its exception, if it answers one, is raised. -/
def call (op : σ → Except ε β × σ) : Program σ ε β :=
  .atomic op fun
    | .ok b => .pure b
    | .error e => .raise e

/-- An operation that only reads. -/
def read (f : σ → β) : Program σ ε β := call fun s => (.ok (f s), s)

/-- Raises what a pure computation raises. -/
def ofExcept : Except ε α → Program σ ε α
  | .ok a => .pure a
  | .error e => .raise e

/-- Turns an exception into a value, as a `try` statement does. -/
def attempt : Program σ ε α → Program σ ε (Except ε α)
  | .pure a => .pure (.ok a)
  | .raise e => .pure (.error e)
  | .atomic op next => .atomic op fun r => (next r).attempt

/-- Runs on its own, without anyone in between. -/
def run : Program σ ε α → σ → Except ε α × σ
  | .pure a, s => (.ok a, s)
  | .raise e, s => (.error e, s)
  | .atomic op next, s => (next (op s).1).run (op s).2

@[simp] theorem run_pure (a : α) (s : σ) : (Pure.pure a : Program σ ε α).run s = (.ok a, s) := rfl

@[simp] theorem run_raise (e : ε) (s : σ) : (raise e : Program σ ε α).run s = (.error e, s) := rfl

@[simp] theorem run_call (op : σ → Except ε β × σ) (s : σ) : (call op).run s = op s := by
  simp only [call, run]
  rcases op s with ⟨_ | _, s'⟩ <;> rfl

@[simp] theorem run_read (f : σ → β) (s : σ) :
    (read f : Program σ ε β).run s = (.ok (f s), s) := run_call _ s

@[simp] theorem run_ofExcept (r : Except ε α) (s : σ) :
    (ofExcept r : Program σ ε α).run s = (r, s) := by
  cases r <;> rfl

theorem run_bind (p : Program σ ε α) (f : α → Program σ ε β) (s : σ) :
    (p >>= f).run s = match p.run s with
      | (.ok a, s') => (f a).run s'
      | (.error e, s') => (.error e, s') := by
  change (p.bind f).run s = _
  induction p generalizing s with
  | pure a => rfl
  | raise e => rfl
  | atomic op next ih => exact ih (op s).1 (op s).2

@[simp] theorem run_attempt (p : Program σ ε α) (s : σ) :
    p.attempt.run s = (.ok (p.run s).1, (p.run s).2) := by
  induction p generalizing s with
  | pure a => rfl
  | raise e => rfl
  | atomic op next ih => exact ih (op s).1 (op s).2

theorem bind_assoc {γ : Type} (p : Program σ ε α) (f : α → Program σ ε β) (g : β → Program σ ε γ) :
    p >>= f >>= g = p >>= fun a => f a >>= g := by
  change (p.bind f).bind g = p.bind fun a => (f a).bind g
  induction p with
  | pure a => rfl
  | raise e => rfl
  | atomic op next ih => exact congrArg (Program.atomic op) (funext ih)

theorem run_bind_of_ok {p : Program σ ε α} {f : α → Program σ ε β} {s s' : σ} {a : α}
    (h : p.run s = (.ok a, s')) : (p >>= f).run s = (f a).run s' := by
  rw [run_bind, h]

theorem run_bind_of_error {p : Program σ ε α} {f : α → Program σ ε β} {s s' : σ} {e : ε}
    (h : p.run s = (.error e, s')) : (p >>= f).run s = (.error e, s') := by
  rw [run_bind, h]

@[simp] theorem run_bind_pure (p : Program σ ε α) (b : β) (s : σ) :
    ((p >>= fun _ => Pure.pure b).run s).2 = (p.run s).2 := by
  rw [run_bind]
  split <;> simp_all

/-- What only answers afterwards leaves the state to `p`. -/
theorem run_bind_quiet (p : Program σ ε α) {f : α → Program σ ε β} (hf : ∀ a t, ((f a).run t).2 = t) (s : σ) :
    ((p >>= f).run s).2 = (p.run s).2 := by
  rw [run_bind]
  split
  · rename_i a t ha
    rw [hf, ha]
  · rename_i e t he
    rw [he]

theorem run_bind_eq_ok {p : Program σ ε α} {f : α → Program σ ε β} {s s' : σ} {b : β}
    (h : (p >>= f).run s = (.ok b, s')) :
    ∃ a s₁, p.run s = (.ok a, s₁) ∧ (f a).run s₁ = (.ok b, s') := by
  rw [run_bind] at h
  split at h
  · rename_i a s₁ ha
    exact ⟨a, s₁, ha, h⟩
  · cases h

theorem run_bind_ofExcept_ok {x : Except ε α} {f : α → Program σ ε β} {s s' : σ} {b : β}
    (h : (ofExcept x >>= f).run s = (.ok b, s')) : ∃ a, x = .ok a ∧ (f a).run s = (.ok b, s') := by
  obtain ⟨a, s₁, hcheck, hf⟩ := run_bind_eq_ok h
  rw [run_ofExcept] at hcheck
  obtain ⟨hx, rfl⟩ := Prod.mk.inj hcheck
  exact ⟨a, hx, hf⟩

/-- Every operation of the program keeps `I`, whatever it answers and whatever
the others do in between. -/
def Keeps (I : σ → Prop) : Program σ ε α → Prop
  | .pure _ => True
  | .raise _ => True
  | .atomic op next => (∀ s, I s → I (op s).2) ∧ ∀ r, (next r).Keeps I

namespace Keeps

variable {I : σ → Prop}

theorem pure (a : α) : (Pure.pure a : Program σ ε α).Keeps I := trivial

theorem raise (e : ε) : (Program.raise e : Program σ ε α).Keeps I := trivial

theorem ofExcept (r : Except ε α) : (Program.ofExcept r : Program σ ε α).Keeps I := by
  cases r <;> trivial

/-- The rest runs only on what has been computed. -/
theorem ofExcept_bind {r : Except ε α} {f : α → Program σ ε β} (hf : ∀ a, r = .ok a → (f a).Keeps I) :
    (Program.ofExcept r >>= f).Keeps I := by
  cases r with
  | ok a => exact hf a rfl
  | error e => trivial

theorem call {op : σ → Except ε β × σ} (h : ∀ s, I s → I (op s).2) :
    (Program.call op).Keeps I := by
  refine ⟨h, fun r => ?_⟩
  cases r <;> trivial

theorem read (f : σ → β) : (Program.read f : Program σ ε β).Keeps I := call fun _ hs => hs

theorem guarded {c : σ → Prop} [DecidablePred c] {b : σ → β} {t : σ → σ} {e : ε} (h : ∀ s, c s → I s → I (t s)) :
    (Program.call fun s => if c s then (.ok (b s), t s) else (.error e, s)).Keeps I := by
  refine call fun s hs => ?_
  by_cases hc : c s
  · rw [if_pos hc]
    exact h s hc hs
  · rw [if_neg hc]
    exact hs

theorem bind {p : Program σ ε α} {f : α → Program σ ε β} (hp : p.Keeps I)
    (hf : ∀ a, (f a).Keeps I) : (p >>= f).Keeps I := by
  change (p.bind f).Keeps I
  induction p with
  | pure a => exact hf a
  | raise e => trivial
  | atomic op next ih => exact ⟨hp.1, fun r => ih r (hp.2 r)⟩

theorem attempt {p : Program σ ε α} (hp : p.Keeps I) : p.attempt.Keeps I := by
  induction p with
  | pure a => trivial
  | raise e => trivial
  | atomic op next ih => exact ⟨hp.1, fun r => ih r (hp.2 r)⟩

theorem run {p : Program σ ε α} (hp : p.Keeps I) {s : σ} (hs : I s) : I (p.run s).2 := by
  induction p generalizing s with
  | pure a => exact hs
  | raise e => exact hs
  | atomic op next ih => exact ih (op s).1 (hp.2 _) (hp.1 s hs)

theorem map {p : Program σ ε α} (f : α → β) (hp : p.Keeps I) : (f <$> p).Keeps I :=
  hp.bind fun _ => pure _

theorem operate {op : σ → Except ε β × σ} {next : Except ε β → Program σ ε α}
    (h : (Program.atomic op next).Keeps I) {s : σ} (hs : I s) : I (op s).2 := h.1 s hs

theorem rest {op : σ → Except ε β × σ} {next : Except ε β → Program σ ε α}
    (h : (Program.atomic op next).Keeps I) (r : Except ε β) : (next r).Keeps I := h.2 r

end Keeps

-- from here on by its rules: evaluating it would run the program
attribute [irreducible] Keeps

end Program
