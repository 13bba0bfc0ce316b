import Planner.Lib.Interleaving

/-! Threads that look for a key before they insert it, with no lock in between.
As long as nobody inserts what another thread has looked for in vain, every key
is still lacking when it is inserted. -/

namespace Program

variable {σ ε α β : Type}

/-- The next operation of a program, if it has one left. -/
def turn : Program σ ε α → σ → Option (Program σ ε α × σ)
  | .pure _, _ => none
  | .raise _, _ => none
  | .atomic op next, s => some (next (op s).1, (op s).2)

theorem turn_call (op : σ → Except ε β × σ) (s : σ) :
    (call op).turn s = some (ofExcept ((call op).run s).1, ((call op).run s).2) := by
  rw [run_call]
  simp only [call, turn]
  cases (op s).1 <;> rfl

theorem turn_bind {p q : Program σ ε α} {s s' : σ} (h : p.turn s = some (q, s')) (f : α → Program σ ε β) :
    (p >>= f).turn s = some (q >>= f, s') := by
  cases p with
  | pure a => cases h
  | raise e => cases h
  | atomic op next =>
    obtain ⟨rfl, rfl⟩ := Prod.mk.inj (Option.some.inj h)
    rfl

end Program

/-- Threads that carry where they stand: `wants` is what one has looked for in
vain, `brings` what its next operation inserts. -/
structure Lookout (σ ε : Type) (τ : Type 1) (κ : Type) where
  program : τ → Program σ ε Unit
  next : τ → σ → Option (τ × σ)
  wants : τ → Option κ
  brings : τ → Option κ
  Lacks : σ → κ → Prop
  next_turn : ∀ t s, (next t s).map (Prod.map program id) = (program t).turn s

namespace Lookout

variable {σ ε κ : Type} {τ : Type 1} (L : Lookout σ ε τ κ)

/-- `rule` says which thread may be served. -/
inductive Step (launch : τ → Prop) (rule : List τ → Nat → τ → Prop) : σ × List τ → σ × List τ → Prop
  | start {s : σ} {ts : List τ} {t : τ} (h : launch t) : Step launch rule (s, ts) (s, ts ++ [t])
  | operate {s s' : σ} {ts : List τ} {i : Nat} {t t' : τ} (hi : ts[i]? = some t) (hnext : L.next t s = some (t', s'))
      (hrule : rule ts i t) : Step launch rule (s, ts) (s', ts.set i t')

abbrev Run (launch : τ → Prop) (rule : List τ → Nat → τ → Prop) : σ × List τ → σ × List τ → Prop :=
  Relation.ReflTransGen (L.Step launch rule)

/-- Nobody else has looked in vain for what the thread is about to insert. -/
def Alone (ts : List τ) (i : Nat) (t : τ) : Prop :=
  ∀ k ∈ L.brings t, ∀ j u, ts[j]? = some u → j ≠ i → k ∉ L.wants u

/-- The programs of the threads that may be started. -/
def Launched (launch : τ → Prop) (_ : σ) (p : Program σ ε Unit) : Prop := ∃ t, launch t ∧ L.program t = p

/-- The programs, without where they stand. -/
def config (x : σ × List τ) : Config σ ε := ⟨x.1, x.2.map L.program⟩

variable {L} {launch : τ → Prop} {rule : List τ → Nat → τ → Prop}

theorem Step.config {x y : σ × List τ} (h : L.Step launch rule x y) :
    Config.Step (L.Launched launch) (fun _ => False) (L.config x) (L.config y) := by
  cases h with
  | start hstart =>
    simp only [Lookout.config, List.map_append, List.map_cons, List.map_nil]
    exact Config.Step.start ⟨_, hstart, rfl⟩
  | @operate s s' ts i t t' hi hnext hrule =>
    have hturn := L.next_turn t s
    rw [hnext] at hturn
    have hprogram : (ts.map L.program)[i]? = some (L.program t) := by rw [List.getElem?_map, hi, Option.map_some]
    simp only [Lookout.config, List.map_set]
    generalize L.program t = p at hturn hprogram
    cases p with
    | pure a => cases hturn
    | raise e => cases hturn
    | atomic op next =>
      obtain ⟨hp, hs⟩ := Prod.mk.inj (Option.some.inj hturn)
      rw [show L.program t' = next (op s).1 from hp, show s' = (op s).2 from hs]
      exact Config.Step.operate hprogram

/-- Whatever the rule, a run of the threads is a run of their programs. -/
theorem Run.reaches {x y : σ × List τ} (h : L.Run launch rule x y) :
    Config.Reaches (L.Launched launch) (fun _ => False) (L.config x) (L.config y) := by
  induction h with
  | refl => exact Relation.ReflTransGen.refl
  | tail _ hstep ih => exact ih.tail hstep.config

/-- Without a rule there are no other runs of the programs. -/
theorem exists_run_of_reaches {x : σ × List τ} {c : Config σ ε}
    (h : Config.Reaches (L.Launched launch) (fun _ => False) (L.config x) c) :
    ∃ y, L.config y = c ∧ L.Run launch (fun _ _ _ => True) x y := by
  induction h with
  | refl => exact ⟨x, rfl, Relation.ReflTransGen.refl⟩
  | tail _ hstep ih =>
    obtain ⟨⟨s, ts⟩, rfl, hrun⟩ := ih
    cases hstep with
    | start hstart =>
      obtain ⟨t, ht, rfl⟩ := hstart
      exact ⟨(s, ts ++ [t]), by simp [config], hrun.tail (Step.start ht)⟩
    | @operate i _ op next hi =>
      simp only [config, List.getElem?_map] at hi
      obtain ⟨t, ht, hp⟩ := Option.map_eq_some_iff.mp hi
      have hturn := L.next_turn t s
      rw [hp] at hturn
      obtain ⟨⟨t', s'⟩, hnext, heq⟩ := Option.map_eq_some_iff.mp hturn
      obtain ⟨hprogram, hstate⟩ := Prod.mk.inj heq
      refine ⟨(s', ts.set i t'), ?_, hrun.tail (Step.operate ht hnext trivial)⟩
      simp only [config, List.map_set]
      rw [show s' = (op s).2 from hstate, show L.program t' = next (op s).1 from hprogram]
    | fail hi he => exact he.elim

variable (L) in
/-- What one operation does to the keys: those a thread wants lack when it has
looked, and only what it brings stops lacking. -/
structure Faithful (launch : τ → Prop) : Prop where
  start : ∀ t, launch t → L.wants t = none
  looked : ∀ t s t' s', L.next t s = some (t', s') → (∀ k ∈ L.wants t, L.Lacks s k) → ∀ k ∈ L.wants t', L.Lacks s' k
  kept : ∀ t s t' s' k, L.next t s = some (t', s') → L.Lacks s k → k ∉ L.brings t → L.Lacks s' k

variable (L) in
def WantsLack (x : σ × List τ) : Prop := ∀ t ∈ x.2, ∀ k ∈ L.wants t, L.Lacks x.1 k

theorem Faithful.step (hL : L.Faithful launch) {x y : σ × List τ} (hx : L.WantsLack x)
    (h : L.Step launch L.Alone x y) : L.WantsLack y := by
  cases h with
  | start hstart =>
    intro u hu k hk
    rcases List.mem_append.mp hu with hu | hu
    · exact hx u hu k hk
    · rw [List.mem_singleton.mp hu, hL.start _ hstart] at hk
      cases hk
  | @operate s s' ts i t t' hi hnext halone =>
    intro u hu k hk
    obtain ⟨j, hj⟩ := List.mem_iff_getElem?.mp hu
    by_cases hji : j = i
    · subst hji
      obtain ⟨hlt, -⟩ := List.getElem?_eq_some_iff.mp hi
      obtain rfl : t' = u := by simpa [List.getElem?_set_self hlt] using hj
      exact hL.looked _ _ _ _ hnext (hx t (List.mem_of_getElem? hi)) k hk
    · simp only at hj
      rw [List.getElem?_set_ne (Ne.symm hji)] at hj
      refine hL.kept _ _ _ _ k hnext (hx u (List.mem_of_getElem? hj) k hk) fun hbrings => ?_
      exact halone k hbrings j u hj hji hk

/-- An invariant that survives the insertion of what is lacking. -/
theorem Faithful.run (hL : L.Faithful launch) {I : σ → Prop}
    (hI : ∀ t s t' s', L.next t s = some (t', s') → (∀ k ∈ L.wants t, L.Lacks s k) → I s → I s') {x y : σ × List τ}
    (hx : L.WantsLack x) (hinv : I x.1) (h : L.Run launch L.Alone x y) : L.WantsLack y ∧ I y.1 := by
  induction h with
  | refl => exact ⟨hx, hinv⟩
  | tail _ hstep ih =>
    refine ⟨hL.step ih.1 hstep, ?_⟩
    cases hstep with
    | start => exact ih.2
    | operate hi hnext hrule => exact hI _ _ _ _ hnext (ih.1 _ (List.mem_of_getElem? hi)) ih.2

variable (L) in
/-- At most `n` operations of one thread. -/
def advance : Nat → τ × σ → τ × σ
  | 0, x => x
  | n + 1, x =>
    match L.next x.1 x.2 with
    | some y => advance n y
    | none => x

/-- A thread without competitors follows the rule. -/
theorem run_advance (n : Nat) (x : τ × σ) :
    L.Run launch L.Alone (x.2, [x.1]) ((L.advance n x).2, [(L.advance n x).1]) := by
  induction n generalizing x with
  | zero => exact Relation.ReflTransGen.refl
  | succ n ih =>
    simp only [advance]
    split
    · rename_i y hnext
      have halone : L.Alone [x.1] 0 x.1 := by
        intro k _ j u hj hne
        rw [List.getElem?_singleton, if_neg hne] at hj
        cases hj
      exact Relation.ReflTransGen.head (Step.operate rfl hnext halone) (ih y)
    · exact Relation.ReflTransGen.refl

end Lookout
