import Planner.Throttle

/-! What the bot hears in a group. A text has to address it; so has a voice, unless the
same user has addressed the bot there in a text not long before. -/

namespace Planner

/-- `message.bot.me()`. -/
structure BotUser where
  id : Int
  username : String

/-- The last text to the bot, for every user of a chat. -/
structure VoiceArm (τ : Type) where
  window : τ
  armed : OrdDict (Int × Int) τ := .empty

/-- An update as Telegram delivers it; `utc` is the clock of `VoiceArm`. -/
structure Envelope (τ : Type) where
  now : τ
  utc : τ
  isPrivate : Bool
  replyTo : Option Int
  caption : String
  update : Update

namespace Envelope

variable {τ : Type}

/-- The chat and the user, if the update has both. -/
def place (e : Envelope τ) : Option (Int × Int) :=
  match e.update.sender.chatId, e.update.sender.userId with
  | some chatId, some userId => some (chatId, userId)
  | _, _ => none

end Envelope

def Event.isVoice : Event → Bool
  | .voice _ => true
  | _ => false

/-- The bot behind the throttle, and who may send it a voice. -/
structure Ears (τ : Type) where
  line : Line τ
  voiceArm : VoiceArm τ

/-- How an update went: `heard` by a handler that acts on it, `armed` if it lets the
next voice of its sender through. -/
structure Hearing (τ : Type) where
  envelope : Envelope τ
  update : Update
  passage : Passage
  heard : Bool
  armed : Bool

section Ears

variable {τ : Type} [AddCommGroup τ] [LinearOrder τ]

namespace VoiceArm

def arm (voiceArm : VoiceArm τ) (place : Int × Int) (now : τ) : VoiceArm τ :=
  { voiceArm with armed := voiceArm.armed.insert place now }

def isArmed (voiceArm : VoiceArm τ) (place : Int × Int) (now : τ) : Bool :=
  (voiceArm.armed.get? place).any fun ts => now - ts ≤ voiceArm.window

end VoiceArm

namespace Bot

/-- No command, and no dialogue that waits for a text. -/
def takesMention (fsm : Fsm) : Event → Bool
  | .message none _ => fsm.step.isNone
  | _ => false

/-- Texts to nobody else and voices are acted on only if they are for the bot. -/
def heeds (fsm : Fsm) (u : Update) : Bool := !(takesMention fsm u.event || u.event.isVoice) || u.addressed

variable (bot : Bot) (me : BotUser)

/-- In private always; in a group by the name of the bot or by a reply to it. -/
def isAddressedInGroup (e : Envelope τ) (text : String) : Bool :=
  e.isPrivate || decide (bot.tables.lower ("@" ++ me.username).toList <:+: bot.tables.lower text.toList) ||
    e.replyTo == some me.id

def addressed (voiceArm : VoiceArm τ) (e : Envelope τ) : Bool :=
  match e.update.event with
  | .voice _ => bot.isAddressedInGroup me e e.caption || e.place.any fun place => voiceArm.isArmed place e.utc
  | .message _ text => bot.isAddressedInGroup me e text
  | _ => true

/-- The update as the handlers see it. -/
def opened (ears : Ears τ) (e : Envelope τ) : Update :=
  { e.update with addressed := bot.addressed me ears.voiceArm e }

/-- The sender could be looked up. -/
def resolves (chats : Chats) (u : Update) : Bool :=
  match (resolveActor bot.gate u.sender).runFaulty (outage u.fail) 0 chats.store with
  | (.ok _, _, _) => true
  | (.error _, _, _) => false

def hearing (ears : Ears τ) (e : Envelope τ) : Hearing τ :=
  let u := bot.opened me ears e
  let passage := passage ears.line ⟨e.now, u⟩
  let fsm := ears.line.chats.fsm u.sender.userId u.sender.chatId
  { envelope := e
    update := u
    passage := passage
    heard := passage != .dropped && heeds fsm u
    armed := passage == .handled && bot.resolves ears.line.chats u && takesMention fsm u.event && u.addressed &&
      !e.isPrivate && e.place.isSome }

/-- A text to the bot in a group arms the voice of its sender before it is handled. -/
def hear (ears : Ears τ) (e : Envelope τ) : Ears τ where
  line := bot.arrive ears.line ⟨e.now, bot.opened me ears e⟩
  voiceArm :=
    match e.place with
    | some place => if (bot.hearing me ears e).armed then ears.voiceArm.arm place e.utc else ears.voiceArm
    | none => ears.voiceArm

def hearings : Ears τ → List (Envelope τ) → List (Hearing τ)
  | _, [] => []
  | ears, e :: es => bot.hearing me ears e :: hearings (bot.hear me ears e) es

end Bot

namespace Bot

variable {bot : Bot} {me : BotUser}

/-- What is not meant for the bot leaves no trace. -/
theorem receive_unheeded {u : Update} {c : Chats}
    (h : heeds (c.fsm u.sender.userId u.sender.chatId) u = false) : bot.receive u c = c := by
  simp only [heeds, Bool.or_eq_false_iff, Bool.not_eq_false', Bool.or_eq_true] at h
  obtain ⟨hkind, haddressed⟩ := h
  have hdeaf : ∀ text : String, ¬ (u.addressed = true ∧ text ≠ "") := fun _ h => by
    rw [haddressed] at h
    exact Bool.false_ne_true h.1
  have hhandle : ∀ actor, bot.handle u actor ⟨c.store, c.fsm u.sender.userId u.sender.chatId⟩ =
      ⟨c.store, c.fsm u.sender.userId u.sender.chatId⟩ := by
    intro actor
    generalize c.fsm u.sender.userId u.sender.chatId = fsm at hkind ⊢
    unfold handle
    cases hevent : u.event with
    | message command text =>
      rw [hevent] at hkind
      cases command with
      | some command => exact absurd hkind (by simp [takesMention, Event.isVoice])
      | none =>
        have hstep : fsm.step = none := by simpa [takesMention, Event.isVoice] using hkind
        dsimp only
        unfold handleMessage
        rw [hstep]
        dsimp only
        rw [handleMentionOrDm, if_neg (hdeaf _)]
    | voice transcript =>
      dsimp only
      rw [handleVoice, if_neg (hdeaf _)]
    | confirm pvId => exact absurd hkind (by simp [takesMention, Event.isVoice, hevent])
    | edit pvId => exact absurd hkind (by simp [takesMention, Event.isVoice, hevent])
    | press press => exact absurd hkind (by simp [takesMention, Event.isVoice, hevent])
  have hupdate : bot.update u ⟨c.store, c.fsm u.sender.userId u.sender.chatId⟩ =
      ⟨c.store, c.fsm u.sender.userId u.sender.chatId⟩ := by
    unfold update
    split
    · exact hhandle _
    · rfl
  obtain ⟨store, fsm⟩ := c
  simp only [receive, hupdate]
  congr 1
  funext userId chatId
  split
  · rename_i h
    rw [h.1, h.2]
  · rfl

theorem hear_window (ears : Ears τ) (e : Envelope τ) : (bot.hear me ears e).voiceArm.window = ears.voiceArm.window := by
  unfold hear
  cases e.place with
  | none => rfl
  | some place =>
    dsimp only
    split
    · rfl
    · rfl

theorem arrive_chats (line : Line τ) (a : Arrival τ) :
    (bot.arrive line a).chats = if passage line a = .dropped then line.chats else bot.receive a.update line.chats := by
  unfold arrive
  cases passage line a with
  | unthrottled => rfl
  | handled => rfl
  | dropped => rfl

theorem heard_iff (ears : Ears τ) (e : Envelope τ) : (bot.hearing me ears e).heard = true ↔
    (bot.hearing me ears e).passage ≠ .dropped ∧
      heeds (ears.line.chats.fsm e.update.sender.userId e.update.sender.chatId) (bot.opened me ears e) = true := by
  change (((bot.hearing me ears e).passage != .dropped) && _) = true ↔ _
  rw [Bool.and_eq_true, bne_iff_ne]
  rfl

/-- The chats see the heard updates alone. -/
theorem hear_chats (ears : Ears τ) (e : Envelope τ) : (bot.hear me ears e).line.chats =
    if (bot.hearing me ears e).heard = true then bot.receive (bot.opened me ears e) ears.line.chats
    else ears.line.chats := by
  change (bot.arrive ears.line ⟨e.now, bot.opened me ears e⟩).chats = _
  rw [arrive_chats]
  by_cases hdropped : passage ears.line ⟨e.now, bot.opened me ears e⟩ = .dropped
  · rw [if_pos hdropped, if_neg]
    exact fun hheard => ((heard_iff ears e).mp hheard).1 hdropped
  · rw [if_neg hdropped]
    by_cases hheard : (bot.hearing me ears e).heard = true
    · rw [if_pos hheard]
    · rw [if_neg hheard]
      apply receive_unheeded
      exact Bool.eq_false_iff.mpr fun hheeds => hheard ((heard_iff ears e).mpr ⟨hdropped, hheeds⟩)

/-- A voice that gets through is heard if it is addressed, or its sender is armed. -/
theorem voice_heard (ears : Ears τ) {e : Envelope τ} (hvoice : e.update.event.isVoice = true) :
    (bot.hearing me ears e).heard = true ↔ (bot.hearing me ears e).passage ≠ .dropped ∧
      (bot.isAddressedInGroup me e e.caption = true ∨
        ∃ place, e.place = some place ∧ ears.voiceArm.isArmed place e.utc = true) := by
  rw [heard_iff]
  refine and_congr_right fun _ => ?_
  cases hevent : e.update.event with
  | voice transcript =>
    have hmention : takesMention (ears.line.chats.fsm e.update.sender.userId e.update.sender.chatId)
        (bot.opened me ears e).event = false := by
      change takesMention _ e.update.event = false
      rw [hevent]
      rfl
    have hkind : (bot.opened me ears e).event.isVoice = true := hvoice
    have haddressed : (bot.opened me ears e).addressed =
        (bot.isAddressedInGroup me e e.caption || e.place.any fun place => ears.voiceArm.isArmed place e.utc) := by
      change bot.addressed me ears.voiceArm e = _
      rw [addressed, hevent]
    rw [heeds, hmention, hkind, haddressed]
    simp only [Bool.false_or, Bool.not_true, Bool.or_eq_true, Option.any_eq_true]
  | message command text => exact absurd hvoice (by simp [hevent, Event.isVoice])
  | confirm pvId => exact absurd hvoice (by simp [hevent, Event.isVoice])
  | edit pvId => exact absurd hvoice (by simp [hevent, Event.isVoice])
  | press press => exact absurd hvoice (by simp [hevent, Event.isVoice])

theorem hearings_append (ears : Ears τ) (es es' : List (Envelope τ)) : bot.hearings me ears (es ++ es') =
    bot.hearings me ears es ++ bot.hearings me (Trace.after (bot.hear me) ears es) es' := by
  induction es generalizing ears with
  | nil => rfl
  | cons e es ih =>
    rw [List.cons_append, hearings, ih]
    rfl

/-- A point of the log, and the state the bot was in then. -/
theorem hearings_split {ears : Ears τ} {es : List (Envelope τ)} {pre post : List (Hearing τ)} {h : Hearing τ}
    (hlog : bot.hearings me ears es = pre ++ h :: post) : ∃ before e later, es = before ++ e :: later ∧
      pre = bot.hearings me ears before ∧ h = bot.hearing me (Trace.after (bot.hear me) ears before) e := by
  induction es generalizing ears pre with
  | nil => exact absurd hlog (by simp [hearings])
  | cons e es ih =>
    cases pre with
    | nil =>
      obtain ⟨hhead, -⟩ := List.cons.inj hlog
      exact ⟨[], e, es, rfl, rfl, hhead.symm⟩
    | cons g pre =>
      obtain ⟨hhead, hrest⟩ := List.cons.inj hlog
      obtain ⟨before, e', later, hes, hpre, hh⟩ := ih hrest
      refine ⟨e :: before, e', later, ?_, ?_, hh⟩
      · rw [hes]
        rfl
      · rw [← hhead, hpre]
        rfl

theorem hearings_envelopes (ears : Ears τ) (es : List (Envelope τ)) :
    (bot.hearings me ears es).map Hearing.envelope = es := by
  induction es generalizing ears with
  | nil => rfl
  | cons e es ih => exact congrArg (e :: ·) (ih _)

theorem window_after (ears : Ears τ) (es : List (Envelope τ)) :
    (Trace.after (bot.hear me) ears es).voiceArm.window = ears.voiceArm.window :=
  Trace.after_keeps (bot.hear me) (I := fun ears' => ears'.voiceArm.window = ears.voiceArm.window)
    (fun s e h => (hear_window s e).trans h) rfl es

/-- What is stored for a place is the time of the last text that armed it. -/
theorem armed_after {window : τ} {line : Line τ} (es : List (Envelope τ)) (place : Int × Int) :
    (Trace.after (bot.hear me) ⟨line, { window := window }⟩ es).voiceArm.armed.get? place =
      (((bot.hearings me ⟨line, { window := window }⟩ es).filter fun g =>
        g.armed && decide (g.envelope.place = some place)).getLast?).map fun g => g.envelope.utc := by
  induction es using List.reverseRecOn with
  | nil => rfl
  | append_singleton es e ih =>
    rw [Trace.after_snoc, hearings_append, List.filter_append]
    generalize Trace.after (bot.hear me) ⟨line, { window := window }⟩ es = ears at ih ⊢
    have hlog : bot.hearings me ears [e] = [bot.hearing me ears e] := rfl
    have henvelope : (bot.hearing me ears e).envelope = e := rfl
    rw [hlog]
    by_cases harms : (bot.hearing me ears e).armed = true ∧ e.place = some place
    · -- the text is the last one to arm the place
      have hkept : [bot.hearing me ears e].filter (fun g => g.armed && decide (g.envelope.place = some place)) =
          [bot.hearing me ears e] := by
        rw [List.filter_eq_self]
        intro g hg
        rw [List.mem_singleton.mp hg, henvelope, harms.1, harms.2]
        simp
      rw [hkept, List.getLast?_concat]
      simp only [hear, harms.1, harms.2, if_true, VoiceArm.arm, OrdDict.get?_insert_self]
      rfl
    · have hgone : [bot.hearing me ears e].filter (fun g => g.armed && decide (g.envelope.place = some place)) = [] := by
        rw [List.filter_eq_nil_iff]
        intro g hg
        rw [List.mem_singleton.mp hg, henvelope, Bool.and_eq_true, decide_eq_true_eq]
        exact harms
      have hsame : (bot.hear me ears e).voiceArm.armed.get? place = ears.voiceArm.armed.get? place := by
        simp only [hear]
        cases hplace : e.place with
        | none => rfl
        | some place' =>
          dsimp only
          split
          · rename_i harmed
            refine OrdDict.get?_insert_of_ne _ _ fun he => harms ⟨harmed, ?_⟩
            rw [hplace, he]
          · rfl
      rw [hgone, List.append_nil, hsame, ih]

end Bot

variable [IsOrderedAddMonoid τ]

/-- In a run of updates whose clock never goes back, a voice that gets through the throttle
is heard iff it is addressed to the bot or the same user addressed the bot in the same
group, in a text that no dialogue took, within the window before it. All that is not
heard leaves the chats as they are. -/
theorem voices_heard (bot : Bot) (me : BotUser) (min window : τ) (chats : Bot.Chats) {es : List (Envelope τ)}
    (hclock : Spacing.InOrder Envelope.utc es) :
    let ears : Ears τ := ⟨⟨{ min := min }, chats⟩, { window := window }⟩
    let log := bot.hearings me ears es
    (Trace.after (bot.hear me) ears es).line.chats =
        Trace.after (fun c u => bot.receive u c) chats ((log.filter Hearing.heard).map Hearing.update) ∧
      ∀ pre h post, log = pre ++ h :: post → h.envelope.update.event.isVoice = true →
        (h.heard = true ↔ h.passage ≠ .dropped ∧
          (bot.isAddressedInGroup me h.envelope h.envelope.caption = true ∨
            ∃ g ∈ pre, g.armed = true ∧ g.envelope.place = h.envelope.place ∧
              h.envelope.utc - g.envelope.utc ≤ window)) := by
  intro ears log
  constructor
  · have hrun : ∀ (es : List (Envelope τ)) (ears : Ears τ), (Trace.after (bot.hear me) ears es).line.chats =
        Trace.after (fun c u => bot.receive u c) ears.line.chats
          (((bot.hearings me ears es).filter Hearing.heard).map Hearing.update) := by
      intro es
      induction es with
      | nil => exact fun _ => rfl
      | cons e es ih =>
        intro ears
        rw [Trace.after_cons, ih, Bot.hear_chats, Bot.hearings]
        by_cases hheard : (bot.hearing me ears e).heard = true
        · rw [if_pos hheard, List.filter_cons_of_pos hheard]
          rfl
        · rw [if_neg hheard, List.filter_cons_of_neg hheard]
    exact hrun es ears
  · intro pre h post hlog hvoice
    obtain ⟨before, e, later, hes, hpre, rfl⟩ := Bot.hearings_split hlog
    have henvelope : (bot.hearing me (Trace.after (bot.hear me) ears before) e).envelope = e := rfl
    rw [henvelope] at hvoice ⊢
    rw [Bot.voice_heard _ hvoice]
    refine and_congr_right fun _ => or_congr_right ?_
    have hpast : ∀ g ∈ pre, g.armed = true → g.envelope.place.isSome = true := by
      intro g hg harmed
      obtain ⟨pre', post', hcut⟩ := List.append_of_mem hg
      obtain ⟨before', e', later', -, -, rfl⟩ := Bot.hearings_split (hpre.symm.trans hcut)
      change (_ && e'.place.isSome) = true at harmed
      exact (Bool.and_eq_true_iff.mp harmed).2
    constructor
    · rintro ⟨place, hplace, harmed⟩
      rw [VoiceArm.isArmed, Option.any_eq_true] at harmed
      obtain ⟨ts, hts, hsoon⟩ := harmed
      rw [Bot.armed_after, Option.map_eq_some_iff] at hts
      obtain ⟨g, hlast, rfl⟩ := hts
      obtain ⟨hg, hkeep⟩ := List.mem_filter.mp (List.mem_of_getLast? hlast)
      rw [Bool.and_eq_true, decide_eq_true_eq] at hkeep
      rw [Bot.window_after, decide_eq_true_eq] at hsoon
      exact ⟨g, hpre ▸ hg, hkeep.1, hkeep.2.trans hplace.symm, hsoon⟩
    · rintro ⟨g, hg, harmed, hplace, hsoon⟩
      obtain ⟨place, hat⟩ := Option.isSome_iff_exists.mp (hpast g hg harmed)
      refine ⟨place, hplace ▸ hat, ?_⟩
      have hmem : g ∈ (bot.hearings me ears before).filter fun g =>
          g.armed && decide (g.envelope.place = some place) := by
        refine List.mem_filter.mpr ⟨hpre ▸ hg, ?_⟩
        rw [harmed, hat]
        simp
      obtain ⟨last, hlast⟩ := Option.isSome_iff_exists.mp (List.getLast?_isSome.mpr (List.ne_nil_of_mem hmem))
      -- the last text to arm the place is no earlier than this one
      have horder : Spacing.InOrder (fun g : Hearing τ => g.envelope.utc) ((bot.hearings me ears before).filter fun g =>
          g.armed && decide (g.envelope.place = some place)) := by
        have hbefore : Spacing.InOrder Envelope.utc before := (List.pairwise_append.mp (hes ▸ hclock)).1
        have henvelopes := @Bot.hearings_envelopes τ _ _ bot me ears before
        rw [← henvelopes] at hbefore
        exact (List.pairwise_map.mp hbefore).filter _
      have hle : g.envelope.utc ≤ last.envelope.utc := by
        obtain ⟨init, hinit⟩ := List.getLast?_eq_some_iff.mp hlast
        rw [hinit] at hmem horder
        rcases List.mem_append.mp hmem with hm | hm
        · exact (List.pairwise_append.mp horder).2.2 g hm last (List.mem_singleton_self last)
        · rw [List.mem_singleton.mp hm]
      rw [VoiceArm.isArmed, Bot.armed_after, hlast, Option.map_some, Option.any_some, decide_eq_true_eq,
        Bot.window_after]
      exact (sub_le_sub_left hle _).trans hsoon

end Ears

/-- In the group of `Bot.smallBot`, times in milliseconds. -/
def inGroup (userId now : Int) (event : Event) : Envelope Int where
  now := now
  utc := now
  isPrivate := false
  replyTo := none
  caption := ""
  update := { Bot.passerby event with sender := ⟨some userId, some 2⟩ }

/-- One user calls the bot and sends two voices, the second too late; another sends one. -/
def calledOnce : List (Envelope Int) :=
  [inGroup 7 0 (.message none "@planner_bot, привет"), inGroup 8 50000 (.voice "ставь КП на Анну"),
    inGroup 7 60000 (.voice "ставь КП на Анну"), inGroup 7 125000 (.voice "ставь КП на Анну")]

theorem voices_heard_calledOnce :
    let ears : Ears Int := ⟨⟨{ min := 1000 }, Bot.onePerson⟩, { window := 120000 }⟩
    let log := Bot.smallBot.hearings ⟨99, "planner_bot"⟩ ears calledOnce
    (Trace.after (Bot.smallBot.hear ⟨99, "planner_bot"⟩) ears calledOnce).line.chats =
        Trace.after (fun c u => Bot.smallBot.receive u c) Bot.onePerson ((log.filter Hearing.heard).map Hearing.update) ∧
      ∀ pre h post, log = pre ++ h :: post → h.envelope.update.event.isVoice = true →
        (h.heard = true ↔ h.passage ≠ .dropped ∧
          (Bot.smallBot.isAddressedInGroup ⟨99, "planner_bot"⟩ h.envelope h.envelope.caption = true ∨
            ∃ g ∈ pre, g.armed = true ∧ g.envelope.place = h.envelope.place ∧
              h.envelope.utc - g.envelope.utc ≤ 120000)) :=
  voices_heard Bot.smallBot ⟨99, "planner_bot"⟩ (1000 : Int) 120000 Bot.onePerson
    (by simp [Spacing.InOrder, calledOnce, inGroup])

end Planner
