import Mathlib.Algebra.Order.Group.Basic
import Mathlib.Algebra.Order.Group.Int
import Planner.Lib.Spacing
import Planner.Lib.Trace
import Planner.Strangers

/-! The throttle in front of the message handlers. It drops what a user sends too soon
after his last message that got through, and keeps no other user waiting. -/

namespace Planner

structure ThrottleMiddleware (τ : Type) where
  min : τ
  lastSeen : OrdDict Int τ := .empty

section Throttle

variable {τ : Type} [AddCommGroup τ] [LinearOrder τ]

/-- Whether the handler is called; a message that is dropped leaves no trace. -/
def ThrottleMiddleware.call (mw : ThrottleMiddleware τ) (tgId : Option Int) (now : τ) : Bool × ThrottleMiddleware τ :=
  match tgId with
  | none => (true, mw)
  | some id =>
    if (mw.lastSeen.get? id).any fun last => now - last < mw.min then (false, mw)
    else (true, { mw with lastSeen := mw.lastSeen.insert id now })

/-- An update with the reading of the clock when it is handled. -/
structure Arrival (τ : Type) where
  now : τ
  update : Update

def Arrival.userId (a : Arrival τ) : Option Int := a.update.sender.userId

/-- The middleware of the messages runs for those that a handler takes. -/
inductive Passage
  | unthrottled
  | handled
  | dropped
  deriving DecidableEq, Repr

/-- The bot behind the throttle. -/
structure Line (τ : Type) where
  throttle : ThrottleMiddleware τ
  chats : Bot.Chats

namespace Bot

/-- No handler takes an unknown command, but the dialogues take any text. -/
def takesMessage (fsm : Fsm) : Event → Bool
  | .message (some .other) _ => fsm.step.isSome
  | .message _ _ => true
  | .voice _ => true
  | .confirm _ => false
  | .edit _ => false
  | .press _ => false

def passage (line : Line τ) (a : Arrival τ) : Passage :=
  if takesMessage (line.chats.fsm a.update.sender.userId a.update.sender.chatId) a.update.event then
    if (line.throttle.call a.userId a.now).1 then .handled else .dropped
  else .unthrottled

variable (bot : Bot)

def arrive (line : Line τ) (a : Arrival τ) : Line τ :=
  match passage line a with
  | .unthrottled => { line with chats := bot.receive a.update line.chats }
  | .handled => ⟨(line.throttle.call a.userId a.now).2, bot.receive a.update line.chats⟩
  | .dropped => line

/-- How the updates of a run pass. -/
def passages : Line τ → List (Arrival τ) → List (Arrival τ × Passage)
  | _, [] => []
  | line, a :: as => (a, passage line a) :: passages (bot.arrive line a) as

/-- The messages of a user that come to the throttle. -/
def sent (id : Int) (log : List (Arrival τ × Passage)) : List (Arrival τ) :=
  (log.filter fun e => e.1.userId = some id ∧ e.2 ≠ .unthrottled).map Prod.fst

/-- Those that get through. -/
def answered (id : Int) (log : List (Arrival τ × Passage)) : List (Arrival τ) :=
  (log.filter fun e => e.1.userId = some id ∧ e.2 = .handled).map Prod.fst

/-- All updates that get to a handler. -/
def received (log : List (Arrival τ × Passage)) : List (Arrival τ) :=
  (log.filter fun e => e.2 ≠ .dropped).map Prod.fst

end Bot

section Passages

variable {mw : ThrottleMiddleware τ} {id : Int} {now : τ}

/-- At least the interval lies between two times. -/
def Apart (min : τ) (t t' : τ) : Prop := min ≤ t' - t

instance (min : τ) : DecidableRel (Apart min) := fun t t' => inferInstanceAs (Decidable (min ≤ t' - t))

theorem call_min (tgId : Option Int) : (mw.call tgId now).2.min = mw.min := by
  cases tgId with
  | none => rfl
  | some id =>
    rw [ThrottleMiddleware.call]
    split <;> rfl

theorem call_dropped (h : (mw.call (some id) now).1 = false) :
    ∃ last, mw.lastSeen.get? id = some last ∧ ¬ Apart mw.min last now := by
  rw [ThrottleMiddleware.call] at h
  split at h
  · rename_i hsoon
    cases hlast : mw.lastSeen.get? id with
    | none =>
      rw [hlast] at hsoon
      cases hsoon
    | some last =>
      rw [hlast, Option.any_some, decide_eq_true_eq] at hsoon
      exact ⟨last, rfl, not_le.mpr hsoon⟩
  · cases h

theorem call_handled (h : (mw.call (some id) now).1 = true) :
    (∀ last ∈ mw.lastSeen.get? id, Apart mw.min last now) ∧
      (mw.call (some id) now).2.lastSeen = mw.lastSeen.insert id now := by
  rw [ThrottleMiddleware.call] at h ⊢
  split at h
  · cases h
  · rename_i hsoon
    refine ⟨fun last hlast => ?_, by rw [if_neg hsoon]⟩
    rw [Option.mem_def.mp hlast, Option.any_some, decide_eq_true_eq] at hsoon
    exact not_lt.mp hsoon

theorem call_other {tgId : Option Int} (h : tgId ≠ some id) :
    (mw.call tgId now).2.lastSeen.get? id = mw.lastSeen.get? id := by
  cases tgId with
  | none => rfl
  | some id' =>
    have hne : id ≠ id' := fun he => h (congrArg some he.symm)
    rw [ThrottleMiddleware.call]
    split
    · rfl
    · exact OrdDict.get?_insert_of_ne _ _ hne

end Passages

namespace Bot

variable {bot : Bot} {id : Int}

theorem arrive_min (line : Line τ) (a : Arrival τ) : (bot.arrive line a).throttle.min = line.throttle.min := by
  unfold arrive
  split
  · rfl
  · exact call_min a.userId
  · rfl

omit [AddCommGroup τ] [LinearOrder τ] in
theorem answered_cons (a : Arrival τ) (p : Passage) (log : List (Arrival τ × Passage)) : answered id ((a, p) :: log) =
    if a.userId = some id ∧ p = .handled then a :: answered id log else answered id log := by
  by_cases h : a.userId = some id ∧ p = .handled <;> simp [answered, h]

omit [AddCommGroup τ] [LinearOrder τ] in
theorem sent_cons (a : Arrival τ) (p : Passage) (log : List (Arrival τ × Passage)) : sent id ((a, p) :: log) =
    if a.userId = some id ∧ p ≠ .unthrottled then a :: sent id log else sent id log := by
  by_cases h : a.userId = some id ∧ p ≠ .unthrottled <;> simp [sent, h]

theorem call_of_passage {line : Line τ} {a : Arrival τ} :
    (passage line a = .handled → (line.throttle.call a.userId a.now).1 = true) ∧
      (passage line a = .dropped → (line.throttle.call a.userId a.now).1 = false) := by
  unfold passage
  split
  · split <;> simp_all
  · simp

/-- What gets through of a user is picked from what he sends, whatever the others do. -/
theorem answered_passages (line : Line τ) (as : List (Arrival τ)) :
    answered id (bot.passages line as) =
      Spacing.pick (Apart line.throttle.min) Arrival.now (line.throttle.lastSeen.get? id) (sent id (bot.passages line as)) := by
  induction as generalizing line with
  | nil => cases line.throttle.lastSeen.get? id <;> rfl
  | cons a as ih =>
    have hnext := ih (bot.arrive line a)
    rw [arrive_min] at hnext
    rw [passages, answered_cons, sent_cons]
    by_cases huser : a.userId = some id
    · cases hpass : passage line a with
      | unthrottled =>
        rw [if_neg (by simp), if_neg (by simp), hnext]
        simp only [arrive, hpass]
      | dropped =>
        have hcall := call_of_passage.2 hpass
        rw [huser] at hcall
        obtain ⟨last, hlast, hsoon⟩ := call_dropped hcall
        rw [if_neg (by simp), if_pos ⟨huser, by simp⟩, hlast, Spacing.pick, if_neg hsoon, hnext]
        simp only [arrive, hpass, hlast]
      | handled =>
        have hcall := call_of_passage.1 hpass
        rw [huser] at hcall
        obtain ⟨hfar, hseen⟩ := call_handled hcall
        have hlast : (bot.arrive line a).throttle.lastSeen.get? id = some a.now := by
          simp only [arrive, hpass, huser]
          rw [hseen, OrdDict.get?_insert_self]
        rw [if_pos ⟨huser, rfl⟩, if_pos ⟨huser, by simp⟩, hnext, hlast]
        cases hbefore : line.throttle.lastSeen.get? id with
        | none => rfl
        | some last => rw [Spacing.pick, if_pos (hfar last hbefore)]
    · have hsame : (bot.arrive line a).throttle.lastSeen.get? id = line.throttle.lastSeen.get? id := by
        unfold arrive
        split
        · rfl
        · exact call_other huser
        · rfl
      rw [if_neg fun h => huser h.1, if_neg fun h => huser h.1, hnext, hsame]

theorem chats_after (line : Line τ) (as : List (Arrival τ)) :
    (Trace.after bot.arrive line as).chats =
      Trace.after (fun chats a => bot.receive a.update chats) line.chats (received (bot.passages line as)) := by
  induction as generalizing line with
  | nil => rfl
  | cons a as ih =>
    rw [Trace.after_cons, ih, passages]
    cases hpass : passage line a <;> simp only [received, arrive, hpass] <;> rfl

theorem sent_sublist (line : Line τ) (as : List (Arrival τ)) : (sent id (bot.passages line as)).Sublist as := by
  induction as generalizing line with
  | nil => exact List.Sublist.refl []
  | cons a as ih =>
    rw [passages, sent_cons]
    split
    · exact (ih _).cons_cons a
    · exact (ih _).cons a

end Bot

variable [IsOrderedAddMonoid τ]

theorem apart_widens (min : τ) : Spacing.Widens (Apart min) := fun _ _ _ _ ha hb h =>
  h.trans (sub_le_sub hb ha)

/-- Behind the throttle a run of updates comes to the run of those that get through. What
gets through of a user depends on his own messages alone, and is as many of them as can
lie at the interval from each other. -/
theorem throttle_picks_most (bot : Bot) (min : τ) (chats : Bot.Chats) {as : List (Arrival τ)}
    (has : Spacing.InOrder Arrival.now as) (id : Int) :
    let log := bot.passages ⟨{ min := min }, chats⟩ as
    (Trace.after bot.arrive ⟨{ min := min }, chats⟩ as).chats =
        Trace.after (fun c a => bot.receive a.update c) chats (Bot.received log) ∧
      Bot.answered id log = Spacing.pick (Apart min) Arrival.now none (Bot.sent id log) ∧
      Spacing.Spaced (Apart min) Arrival.now (Bot.answered id log) ∧
      ∀ choice, choice.Sublist (Bot.sent id log) → Spacing.Spaced (Apart min) Arrival.now choice →
        choice.length ≤ (Bot.answered id log).length := by
  intro log
  have hpick : Bot.answered id log = Spacing.pick (Apart min) Arrival.now none (Bot.sent id log) :=
    Bot.answered_passages _ as
  have horder : Spacing.InOrder Arrival.now (Bot.sent id log) := has.sublist (Bot.sent_sublist _ as)
  refine ⟨Bot.chats_after _ as, hpick, ?_, fun choice hsub hspaced => ?_⟩
  · rw [hpick]
    exact Spacing.pick_spaced (apart_widens min) horder none
  · rw [hpick]
    exact Spacing.pick_longest (apart_widens min) horder hsub hspaced

end Throttle

/-- Four messages of one user, the clock in milliseconds. -/
def hurried : List (Arrival Int) :=
  [0, 400, 1100, 1900].map fun now => ⟨now, Bot.passerby (.message none "ставь КП на Анну")⟩

def hurriedLine : Line Int := ⟨{ min := 1000 }, Bot.onePerson⟩

theorem throttle_picks_most_hurried :
    let log := Bot.smallBot.passages hurriedLine hurried
    (Trace.after Bot.smallBot.arrive hurriedLine hurried).chats =
        Trace.after (fun c a => Bot.smallBot.receive a.update c) Bot.onePerson (Bot.received log) ∧
      Bot.answered 7 log = Spacing.pick (Apart (1000 : Int)) Arrival.now none (Bot.sent 7 log) ∧
      Spacing.Spaced (Apart (1000 : Int)) Arrival.now (Bot.answered 7 log) ∧
      ∀ choice, choice.Sublist (Bot.sent 7 log) → Spacing.Spaced (Apart (1000 : Int)) Arrival.now choice →
        choice.length ≤ (Bot.answered 7 log).length :=
  throttle_picks_most Bot.smallBot (1000 : Int) Bot.onePerson (by simp [Spacing.InOrder, hurried]) 7

end Planner
