import Mathlib.Data.List.Forall2
import Mathlib.Data.Multiset.AddSub
import Mathlib.Logic.Relation
import Planner.Lib.Program

/-! Any number of programs over one shared state, interleaved operation by
operation. A thread may be started at any time, and an operation may fail
without an effect. Invariants are proved with a stage attached to each thread:
what the thread may rely on, and what it still owes. -/

/-- `Knows s k` is what a thread at stage `k` relies on, `Moves k s k' s'` what
one of its operations may do to the state and to its stage. -/
structure Discipline (σ κ : Type) where
  Knows : σ → κ → Prop
  Moves : κ → σ → κ → σ → Prop

namespace Program

variable {σ ε κ α β : Type}

/-- Every operation, answered or failed, moves along the discipline; the program
returns at a stage of `Q` or raises at a stage of `E`. -/
def Follows (D : Discipline σ κ) (fault : ε → Prop) (Q : κ → α → Prop) (E : κ → ε → Prop) :
    Program σ ε α → κ → Prop
  | .pure a, k => Q k a
  | .raise e, k => E k e
  | .atomic op next, k =>
    (∀ s, D.Knows s k → ∃ k', D.Moves k s k' (op s).2 ∧ (next (op s).1).Follows D fault Q E k') ∧
      ∀ s e, D.Knows s k → fault e → ∃ k', D.Moves k s k' s ∧ (next (.error e)).Follows D fault Q E k'

namespace Follows

variable {D : Discipline σ κ} {fault : ε → Prop} {k : κ}

theorem pure {Q : κ → α → Prop} {E : κ → ε → Prop} {a : α} (h : Q k a) :
    (Pure.pure a : Program σ ε α).Follows D fault Q E k := h

theorem raise {Q : κ → α → Prop} {E : κ → ε → Prop} {e : ε} (h : E k e) :
    (Program.raise e : Program σ ε α).Follows D fault Q E k := h

/-- The operation is the same, and what comes after it follows. -/
theorem continued {γ : Type} {Q : κ → α → Prop} {Q' : κ → γ → Prop} {E E' : κ → ε → Prop} {op : σ → Except ε β × σ}
    {next : Except ε β → Program σ ε α} {next' : Except ε β → Program σ ε γ}
    (h : (Program.atomic op next).Follows D fault Q E k)
    (hnext : ∀ r k', (next r).Follows D fault Q E k' → (next' r).Follows D fault Q' E' k') :
    (Program.atomic op next').Follows D fault Q' E' k := by
  refine ⟨fun s hs => ?_, fun s e hs he => ?_⟩
  · obtain ⟨k', hm, hk'⟩ := h.1 s hs
    exact ⟨k', hm, hnext _ k' hk'⟩
  · obtain ⟨k', hm, hk'⟩ := h.2 s e hs he
    exact ⟨k', hm, hnext _ k' hk'⟩

theorem mono {Q Q' : κ → α → Prop} {E E' : κ → ε → Prop} {p : Program σ ε α}
    (h : p.Follows D fault Q E k) (hQ : ∀ k a, Q k a → Q' k a) (hE : ∀ k e, E k e → E' k e) :
    p.Follows D fault Q' E' k := by
  induction p generalizing k with
  | pure a => exact hQ k a h
  | raise e => exact hE k e h
  | atomic op next ih => exact continued h fun r _ => ih r

theorem bind {Q : κ → α → Prop} {Q' : κ → β → Prop} {E : κ → ε → Prop} {p : Program σ ε α}
    {f : α → Program σ ε β} (hp : p.Follows D fault Q E k)
    (hf : ∀ k a, Q k a → (f a).Follows D fault Q' E k) : (p >>= f).Follows D fault Q' E k := by
  change (p.bind f).Follows D fault Q' E k
  induction p generalizing k with
  | pure a => exact hf k a hp
  | raise e => exact hp
  | atomic op next ih => exact continued hp fun r _ => ih r

theorem attempt {Q : κ → Except ε α → Prop} {E : κ → ε → Prop} {p : Program σ ε α}
    (h : p.Follows D fault (fun k a => Q k (.ok a)) (fun k e => Q k (.error e)) k) :
    p.attempt.Follows D fault Q E k := by
  induction p generalizing k with
  | pure a => exact h
  | raise e => exact h
  | atomic op next ih => exact continued h fun r _ => ih r

theorem call {Q : κ → β → Prop} {E : κ → ε → Prop} {op : σ → Except ε β × σ}
    (hop : ∀ s, D.Knows s k → ∃ k', D.Moves k s k' (op s).2 ∧
      (∀ b, (op s).1 = .ok b → Q k' b) ∧ ∀ e, (op s).1 = .error e → E k' e)
    (hfault : ∀ s e, D.Knows s k → fault e → ∃ k', D.Moves k s k' s ∧ E k' e) :
    (Program.call op).Follows D fault Q E k := by
  refine ⟨fun s hs => ?_, fun s e hs he => ?_⟩
  · obtain ⟨k', hm, hQ, hE⟩ := hop s hs
    refine ⟨k', hm, ?_⟩
    cases hr : (op s).1 with
    | ok b => exact hQ b hr
    | error e => exact hE e hr
  · obtain ⟨k', hm, hE⟩ := hfault s e hs he
    exact ⟨k', hm, hE⟩

theorem operate {Q : κ → α → Prop} {E : κ → ε → Prop} {op : σ → Except ε β × σ}
    {next : Except ε β → Program σ ε α} (h : (Program.atomic op next).Follows D fault Q E k) {s : σ}
    (hs : D.Knows s k) : ∃ k', D.Moves k s k' (op s).2 ∧ (next (op s).1).Follows D fault Q E k' :=
  h.1 s hs

theorem fail {Q : κ → α → Prop} {E : κ → ε → Prop} {op : σ → Except ε β × σ}
    {next : Except ε β → Program σ ε α} (h : (Program.atomic op next).Follows D fault Q E k) {s : σ}
    {e : ε} (hs : D.Knows s k) (he : fault e) :
    ∃ k', D.Moves k s k' s ∧ (next (.error e)).Follows D fault Q E k' := h.2 s e hs he

theorem returned {Q : κ → α → Prop} {E : κ → ε → Prop} {a : α}
    (h : (Program.pure a : Program σ ε α).Follows D fault Q E k) : Q k a := h

end Follows

-- from here on by its rules: evaluating it would run the program
attribute [irreducible] Follows

end Program

structure Config (σ ε : Type) where
  state : σ
  threads : List (Program σ ε Unit)

namespace Config

variable {σ ε κ : Type}

/-- `launch` says what may be started in a state, `fault` which exceptions the
environment may answer in place of an operation. -/
inductive Step (launch : σ → Program σ ε Unit → Prop) (fault : ε → Prop) :
    Config σ ε → Config σ ε → Prop
  | start {c : Config σ ε} {p : Program σ ε Unit} (h : launch c.state p) :
      Step launch fault c ⟨c.state, c.threads ++ [p]⟩
  | operate {c : Config σ ε} {i : Nat} {β : Type} {op : σ → Except ε β × σ}
      {next : Except ε β → Program σ ε Unit} (h : c.threads[i]? = some (.atomic op next)) :
      Step launch fault c ⟨(op c.state).2, c.threads.set i (next (op c.state).1)⟩
  | fail {c : Config σ ε} {i : Nat} {β : Type} {op : σ → Except ε β × σ}
      {next : Except ε β → Program σ ε Unit} {e : ε}
      (h : c.threads[i]? = some (.atomic op next)) (he : fault e) :
      Step launch fault c ⟨c.state, c.threads.set i (next (.error e))⟩

abbrev Reaches (launch : σ → Program σ ε Unit → Prop) (fault : ε → Prop) :
    Config σ ε → Config σ ε → Prop := Relation.ReflTransGen (Step launch fault)

variable {launch : σ → Program σ ε Unit → Prop} {fault : ε → Prop}

/-- Among the interleavings is the one that lets a new thread run alone. -/
theorem reaches_alone (p : Program σ ε Unit) (s : σ) (ts : List (Program σ ε Unit)) :
    Reaches launch fault ⟨s, ts ++ [p]⟩ ⟨(p.run s).2, ts ++ [.ofExcept (p.run s).1]⟩ := by
  induction p generalizing s with
  | pure a => exact Relation.ReflTransGen.refl
  | raise e => exact Relation.ReflTransGen.refl
  | atomic op next ih =>
    have hi : (ts ++ [.atomic op next])[ts.length]? = some (.atomic op next) := by simp
    have hstep : Step launch fault ⟨s, ts ++ [.atomic op next]⟩
        ⟨(op s).2, (ts ++ [Program.atomic op next]).set ts.length (next (op s).1)⟩ := Step.operate hi
    rw [List.set_append_right _ _ le_rfl, Nat.sub_self, List.set_cons_zero] at hstep
    exact Relation.ReflTransGen.head hstep (ih (op s).1 (op s).2)

/-- The next operation of a thread, if it has one left. -/
def turn (c : Config σ ε) (i : Nat) : Config σ ε :=
  match c.threads[i]? with
  | some (.atomic op next) => ⟨(op c.state).2, c.threads.set i (next (op c.state).1)⟩
  | _ => c

/-- The threads take turns in a given order. -/
def play (c : Config σ ε) (order : List Nat) : Config σ ε := order.foldl turn c

@[simp] theorem play_nil (c : Config σ ε) : c.play [] = c := rfl

@[simp] theorem play_cons (c : Config σ ε) (i : Nat) (order : List Nat) :
    c.play (i :: order) = (c.turn i).play order := rfl

theorem turn_atomic {c : Config σ ε} {i : Nat} {β : Type} {op : σ → Except ε β × σ}
    {next : Except ε β → Program σ ε Unit} (h : c.threads[i]? = some (.atomic op next)) :
    c.turn i = ⟨(op c.state).2, c.threads.set i (next (op c.state).1)⟩ := by
  simp only [turn, h]

/-- Taking turns is one of the interleavings. -/
theorem reaches_play (order : List Nat) (c : Config σ ε) : Reaches launch fault c (c.play order) := by
  induction order generalizing c with
  | nil => exact Relation.ReflTransGen.refl
  | cons i order ih =>
    have hturn : Reaches launch fault c (c.turn i) := by
      unfold turn
      split
      · rename_i h
        exact Relation.ReflTransGen.single (Step.operate h)
      · exact Relation.ReflTransGen.refl
    exact hturn.trans (ih _)

theorem forall₂_set {α β : Type*} {R : α → β → Prop} {as : List α} {bs : List β}
    (h : List.Forall₂ R as bs) {i : Nat} {a : α} {b : β} (hab : R a b) :
    List.Forall₂ R (as.set i a) (bs.set i b) := by
  induction h generalizing i with
  | nil => exact List.Forall₂.nil
  | cons h₁ h₂ ih =>
    cases i with
    | zero => exact List.Forall₂.cons hab h₂
    | succ i => exact List.Forall₂.cons h₁ ih

theorem forall₂_getElem? {α β : Type*} {R : α → β → Prop} {as : List α} {bs : List β}
    (h : List.Forall₂ R as bs) {i : Nat} {b : β} (hb : bs[i]? = some b) :
    ∃ a, as[i]? = some a ∧ R a b := by
  induction h generalizing i with
  | nil => simp at hb
  | cons h₁ h₂ ih =>
    cases i with
    | zero =>
      obtain rfl : _ = b := by simpa using hb
      exact ⟨_, rfl, h₁⟩
    | succ i => exact ih (by simpa using hb)

/-- The threads follow the discipline from stages that satisfy `Inv` with the
state, whatever their order, and end in `Q`. -/
def Disciplined (D : Discipline σ κ) (fault : ε → Prop) (Q : κ → Prop)
    (Inv : σ → Multiset κ → Prop) (c : Config σ ε) : Prop :=
  ∃ ks : List κ, List.Forall₂ (fun k p => p.Follows D fault (fun k _ => Q k) (fun _ _ => True) k)
    ks c.threads ∧ Inv c.state ks

/-- What has to be shown of the invariant: it implies what each stage relies on,
every move keeps it, and so does a thread that is started. -/
structure Preserves (D : Discipline σ κ) (launch : σ → Program σ ε Unit → Prop) (fault : ε → Prop)
    (Q : κ → Prop) (Inv : σ → Multiset κ → Prop) : Prop where
  knows : ∀ s k m, Inv s (k ::ₘ m) → D.Knows s k
  move : ∀ s k m k' s', Inv s (k ::ₘ m) → D.Moves k s k' s' → Inv s' (k' ::ₘ m)
  start : ∀ s m p, Inv s m → launch s p →
    ∃ k, p.Follows D fault (fun k _ => Q k) (fun _ _ => True) k ∧ Inv s (k ::ₘ m)

variable {D : Discipline σ κ} {Q : κ → Prop} {Inv : σ → Multiset κ → Prop}

theorem coe_set {ks : List κ} {i : Nat} {k : κ} (h : ks[i]? = some k) :
    (ks : Multiset κ) = k ::ₘ (ks.eraseIdx i : Multiset κ) ∧
      ∀ k', (ks.set i k' : Multiset κ) = k' ::ₘ (ks.eraseIdx i : Multiset κ) := by
  obtain ⟨hi, rfl⟩ := List.getElem?_eq_some_iff.mp h
  refine ⟨Multiset.coe_eq_coe.mpr (List.getElem_cons_eraseIdx_perm hi).symm, fun k' => ?_⟩
  exact Multiset.coe_eq_coe.mpr (List.set_perm_cons_eraseIdx hi k')

/-- A step moves one thread, or leaves the state alone. -/
theorem Preserves.step (h : Preserves D launch fault Q Inv) {c c' : Config σ ε}
    (hc : Disciplined D fault Q Inv c) (hstep : Step launch fault c c') :
    Disciplined D fault Q Inv c' ∧
      (c'.state = c.state ∨ ∃ k m k', Inv c.state (k ::ₘ m) ∧ D.Moves k c.state k' c'.state) := by
  obtain ⟨ks, hat, hinv⟩ := hc
  cases hstep with
  | start hp =>
    obtain ⟨k, hk, hi⟩ := h.start _ _ _ hinv hp
    refine ⟨⟨ks ++ [k], List.rel_append hat (List.Forall₂.cons hk List.Forall₂.nil), ?_⟩, Or.inl rfl⟩
    rwa [← Multiset.coe_add, Multiset.coe_singleton, Multiset.add_comm, Multiset.singleton_add]
  | operate hi =>
    obtain ⟨k, hk, hf⟩ := forall₂_getElem? hat hi
    obtain ⟨hcoe, hset⟩ := coe_set hk
    rw [hcoe] at hinv
    obtain ⟨k', hm, hf'⟩ := hf.operate (h.knows _ _ _ hinv)
    exact ⟨⟨_, forall₂_set hat hf', hset k' ▸ h.move _ _ _ _ _ hinv hm⟩, Or.inr ⟨_, _, _, hinv, hm⟩⟩
  | fail hi he =>
    obtain ⟨k, hk, hf⟩ := forall₂_getElem? hat hi
    obtain ⟨hcoe, hset⟩ := coe_set hk
    rw [hcoe] at hinv
    obtain ⟨k', hm, hf'⟩ := hf.fail (h.knows _ _ _ hinv) he
    exact ⟨⟨_, forall₂_set hat hf', hset k' ▸ h.move _ _ _ _ _ hinv hm⟩, Or.inl rfl⟩

theorem Preserves.reaches (h : Preserves D launch fault Q Inv) {c c' : Config σ ε}
    (hc : Disciplined D fault Q Inv c) (hrun : Reaches launch fault c c') :
    Disciplined D fault Q Inv c' := by
  induction hrun with
  | refl => exact hc
  | tail _ hstep ih => exact (h.step ih hstep).1

/-- How the state evolves along a run, from how each move changes it. -/
theorem Preserves.evolves (h : Preserves D launch fault Q Inv) {R : σ → σ → Prop}
    (hrefl : ∀ s, R s s) (htrans : ∀ s t u, R s t → R t u → R s u)
    (hmove : ∀ s k m k' s', Inv s (k ::ₘ m) → D.Moves k s k' s' → R s s') {c c' : Config σ ε}
    (hc : Disciplined D fault Q Inv c) (hrun : Reaches launch fault c c') : R c.state c'.state := by
  induction hrun with
  | refl => exact hrefl _
  | tail hrun hstep ih =>
    refine htrans _ _ _ ih ?_
    rcases (h.step (h.reaches hc hrun) hstep).2 with he | ⟨k, m, k', hinv, hm⟩
    · exact he ▸ hrefl _
    · exact hmove _ _ _ _ _ hinv hm

/-- Once all threads have returned, their stages are final. -/
theorem Disciplined.settled {c : Config σ ε} (hc : Disciplined D fault Q Inv c)
    (hdone : ∀ p ∈ c.threads, p = .pure ()) :
    ∃ ks : Multiset κ, (∀ k ∈ ks, Q k) ∧ Inv c.state ks := by
  obtain ⟨ks, hat, hinv⟩ := hc
  refine ⟨ks, fun k hk => ?_, hinv⟩
  obtain ⟨i, hi⟩ := List.mem_iff_getElem?.mp (Multiset.mem_coe.mp hk)
  obtain ⟨p, hp, hf⟩ := forall₂_getElem? hat.flip hi
  rw [hdone p (List.mem_of_getElem? hp)] at hf
  exact hf.returned

end Config
