import Mathlib.Data.List.Infix

/-! Runs of commands over a state. A command changes the state; what it tells about
a subject, if anything, holds until a later one tells otherwise. -/

namespace Trace

variable {σ κ β : Type} (step : σ → κ → σ)

def after (s : σ) (cmds : List κ) : σ := cmds.foldl step s

/-- The last thing a command of the run tells. -/
def last (tells : σ → κ → Option β) : σ → List κ → Option β
  | _, [] => none
  | s, c :: cmds => (last tells (step s c) cmds).or (tells s c)

@[simp] theorem after_nil (s : σ) : after step s [] = s := rfl

theorem after_cons (s : σ) (c : κ) (cmds : List κ) :
    after step s (c :: cmds) = after step (step s c) cmds := rfl

theorem after_append (s : σ) (cmds later : List κ) :
    after step s (cmds ++ later) = after step (after step s cmds) later :=
  List.foldl_append

theorem after_snoc (s : σ) (cmds : List κ) (c : κ) :
    after step s (cmds ++ [c]) = step (after step s cmds) c := after_append step s cmds [c]

theorem last_append (tells : σ → κ → Option β) (s : σ) (cmds later : List κ) :
    last step tells s (cmds ++ later) =
      (last step tells (after step s cmds) later).or (last step tells s cmds) := by
  induction cmds generalizing s with
  | nil => simp [last]
  | cons c cmds ih => simp only [List.cons_append, last, ih, after_cons, Option.or_assoc]

theorem last_snoc (tells : σ → κ → Option β) (s : σ) (cmds : List κ) (c : κ) :
    last step tells s (cmds ++ [c]) =
      (tells (after step s cmds) c).or (last step tells s cmds) := by
  rw [last_append]
  rfl

/-- A command that tells nothing, in the middle of a run. -/
theorem last_append_cons {tells : σ → κ → Option β} {s : σ} {cmds later : List κ} {c : κ}
    (h : tells (after step s cmds) c = none) : last step tells s (cmds ++ c :: later) =
      (last step tells (after step s (cmds ++ [c])) later).or (last step tells s cmds) := by
  rw [last_append, after_snoc, last, h, Option.or_none]

/-- What every command keeps, a run keeps. -/
theorem after_keeps {I : σ → Prop} (hstep : ∀ s c, I s → I (step s c)) {s : σ} (h : I s)
    (cmds : List κ) : I (after step s cmds) := by
  induction cmds generalizing s with
  | nil => exact h
  | cons c cmds ih => exact ih (hstep s c h)

/-- `P` holds all along a run iff every command of it meets the condition under
which that command keeps `P`. `I` is what commands with `D` keep in any case. -/
theorem always_iff_of_forall {P I : List κ → Prop} {C : List κ → κ → Prop} {D : κ → Prop} {cmds : List κ}
    (hD : ∀ c ∈ cmds, D c) (hI : I []) (hP : P []) (hkeep : ∀ pre c, D c → I pre → I (pre ++ [c]))
    (hstep : ∀ pre c, D c → I pre → P pre → (P (pre ++ [c]) ↔ C pre c)) :
    (∀ pre, pre <+: cmds → P pre) ↔ ∀ pre c, pre ++ [c] <+: cmds → C pre c := by
  have hlast : ∀ {pre c}, pre ++ [c] <+: cmds → D c := fun hpre => hD _ (hpre.subset (by simp))
  have hinv : ∀ pre, pre <+: cmds → I pre := fun pre => by
    induction pre using List.reverseRecOn with
    | nil => exact fun _ => hI
    | append_singleton pre c ih => exact fun hpre => hkeep pre c (hlast hpre) (ih ((List.prefix_append pre [c]).trans hpre))
  constructor
  · intro h pre c hpre
    have hbefore := (List.prefix_append pre [c]).trans hpre
    exact (hstep pre c (hlast hpre) (hinv pre hbefore) (h pre hbefore)).mp (h _ hpre)
  · intro h pre
    induction pre using List.reverseRecOn with
    | nil => exact fun _ => hP
    | append_singleton pre c ih =>
      intro hpre
      have hbefore := (List.prefix_append pre [c]).trans hpre
      exact (hstep pre c (hlast hpre) (hinv pre hbefore) (ih hbefore)).mpr (h pre c hpre)

theorem always_iff {P I : List κ → Prop} {C : List κ → κ → Prop} {cmds : List κ} (hI : I []) (hP : P [])
    (hkeep : ∀ pre c, I pre → I (pre ++ [c])) (hstep : ∀ pre c, I pre → P pre → (P (pre ++ [c]) ↔ C pre c)) :
    (∀ pre, pre <+: cmds → P pre) ↔ ∀ pre c, pre ++ [c] <+: cmds → C pre c :=
  always_iff_of_forall (D := fun _ => True) (fun _ _ => trivial) hI hP (fun pre c _ => hkeep pre c)
    fun pre c _ => hstep pre c

end Trace
