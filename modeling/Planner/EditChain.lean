import Planner.EditLoopRuns

/-! Chains of edits: as long as the loop is armed exactly one of the versions
proposed along the chain and not confirmed is still open, the stashed one. -/

namespace Planner

open Program

/-- The tables, the state of the chat, and what the chain has proposed so far. -/
structure EditChain where
  store : Store
  fsm : ChatState
  proposals : List UUID

/-- A message that the armed loop handles. -/
inductive EditStep (U : CharTables) (Allowed : Chat → EditMessage → EditChain → Prop) (c : EditChain) :
    EditChain → Prop
  | edit (chat : Chat) (message : EditMessage) {fsm : ChatState} {r : Except PlannerError Unit} {s' : Store}
      (hwaiting : c.fsm.waiting = true) (hknown : c.store.knows (chat.actor.map PersonRecord.id))
      (hallowed : Allowed chat message c)
      (hrun : (handleEdit U chat c.fsm message).run c.store = (.ok (fsm, r), s')) :
      EditStep U Allowed c ⟨s', fsm, c.proposals ++ c.store.newVersions s'⟩

abbrev EditRun (U : CharTables) (Allowed : Chat → EditMessage → EditChain → Prop) :
    EditChain → EditChain → Prop := Relation.ReflTransGen (EditStep U Allowed)

namespace EditChain

/-- The loop is armed with the only version of the chain that is neither
confirmed nor retired, or it has ended and there is none. -/
def OneLive (c : EditChain) : Prop :=
  if c.fsm.waiting then
    ∃ v ∈ c.proposals, c.fsm.pendingPvId = some v ∧ c.store.IsProposed v ∧
      ∀ w ∈ c.proposals, w ≠ v → ¬ c.store.IsCommitted w → c.store.IsRetired w
  else ∀ w ∈ c.proposals, ¬ c.store.IsCommitted w → c.store.IsRetired w

/-- The message has changed neither the stash nor any version, or it has confirmed
the stashed one and ended the loop. -/
def Untouched (c c' : EditChain) : Prop :=
  (c'.fsm = c.fsm ∧ ∀ w, c'.store.standing w = c.store.standing w) ∨
    c'.fsm = .cleared ∧ ∃ v, c.fsm.pendingPvId = some v ∧ c'.store.IsCommitted v

end EditChain

/-- Blank, a whole-message confirmation, or a list of intents in good order. -/
def EditMessage.Orderly (U : CharTables) (chat : Chat) (message : EditMessage) (c : EditChain) : Prop :=
  strip message.text = "" ∨ isConfirmPhrase U message.text = true ∨
    Planner.Orderly U chat c.fsm.pendingPvId false (intentsToDispatch message.intents) c.fsm c.store

namespace EditChain

/-- What carries `OneLive` along a chain. -/
structure Inv (c : EditChain) : Prop where
  ids : c.store.VersionIds
  mem : ∀ w ∈ c.proposals, w ∈ c.store.planVersions.keys
  armed : c.fsm.waiting = true → ∃ v ∈ c.proposals, c.fsm.pendingPvId = some v ∧ c.store.IsProposed v ∧
    ∀ w ∈ c.proposals, w ≠ v → c.store.Settled w
  ended : c.fsm.waiting = false → ∀ w ∈ c.proposals, c.store.Settled w

theorem Inv.oneLive {c : EditChain} (h : c.Inv) : c.OneLive := by
  have hretired : ∀ w, c.store.Settled w → ¬ c.store.IsCommitted w → c.store.IsRetired w :=
    fun w hw hnot => hw.resolve_left hnot
  unfold OneLive
  cases hwaiting : c.fsm.waiting with
  | true =>
    obtain ⟨v, hv, hpending, hproposed, hsettled⟩ := h.armed hwaiting
    exact ⟨v, hv, hpending, hproposed, fun w hw hne => hretired w (hsettled w hw hne)⟩
  | false => exact fun w hw => hretired w (h.ended hwaiting w hw)

theorem not_oneLive {c : EditChain} {v w : UUID} (hwaiting : c.fsm.waiting = true) (hv : c.fsm.pendingPvId = some v)
    (hmem : w ∈ c.proposals) (hne : w ≠ v) (hw : c.store.IsProposed w) : ¬ c.OneLive := by
  rw [OneLive, if_pos hwaiting]
  rintro ⟨u, -, hu, -, hothers⟩
  obtain rfl := Option.some.inj (hv.symm.trans hu)
  by_cases hcommitted : c.store.IsCommitted w
  · exact Store.Settled.not_proposed (Or.inl hcommitted) hw
  · exact Store.Settled.not_proposed (Or.inr (hothers w hmem hne hcommitted)) hw

end EditChain

theorem newVersions_of_eq {s s' : Store} (h : s'.planVersions.keys = s.planVersions.keys) : s.newVersions s' = [] := by
  rw [Store.newVersions, h, List.filter_eq_nil_iff]
  intro v hv hnew
  exact of_decide_eq_true hnew hv

theorem newVersions_of_append {s s' : Store} {w : UUID} (h : s'.planVersions.keys = s.planVersions.keys ++ [w])
    (hw : w ∉ s.planVersions.keys) : s.newVersions s' = [w] := by
  have hold : s.planVersions.keys.filter (fun v => decide (v ∉ s.planVersions.keys)) = [] := by
    rw [List.filter_eq_nil_iff]
    intro v hv hnew
    exact of_decide_eq_true hnew hv
  rw [Store.newVersions, h, List.filter_append, hold, List.nil_append]
  simp [hw]

section Messages

variable {U : CharTables} {chat : Chat} {s : Store} {fsm : ChatState} {v : UUID} {proposals : List UUID}

theorem Midway.start (hids : s.VersionIds) (hmem : ∀ w ∈ proposals, w ∈ s.planVersions.keys)
    (hsettled : ∀ w ∈ proposals, w ≠ v → s.Settled w) (hv : s.IsProposed v) :
    Midway s fsm v proposals s fsm none :=
  ⟨hids, rfl, hmem, hsettled, Or.inl ⟨hv, fun _ => ⟨rfl, fun _ => rfl⟩⟩, fun _ => rfl, nofun⟩

theorem handleText_midway {message : EditMessage} (hknown : s.knows (chat.actor.map PersonRecord.id))
    (hpending : fsm.pendingPvId = some v) (hv : s.IsProposed v) (h : Midway s fsm v proposals s fsm none)
    (horderly : isConfirmPhrase U message.text = true ∨
      Orderly U chat (some v) false (intentsToDispatch message.intents) fsm s) :
    ∃ fsm' r s', (handleText U chat (some v) fsm message).run s = (.ok (fsm', r), s') ∧
      ((∃ lastPv, r = .ok lastPv ∧ Midway s fsm v proposals s' fsm' lastPv) ∨
        ∃ e, r = .error e ∧ Midway s fsm v proposals s' fsm' none) := by
  have hkey : v ∈ s.planVersions.keys := by
    obtain ⟨p, hp⟩ := Store.isProposed_iff.mp hv
    exact Store.mem_versions_of_standing hp
  unfold handleText
  split
  · exact ⟨fsm, .ok none, s, rfl, Or.inl ⟨none, rfl, h⟩⟩
  · by_cases hphrase : isConfirmPhrase U message.text = true
    · simp only [hphrase, if_true, hpending, Option.some_or]
      rcases confirmAnswer_run chat.taskSink v h.ids hknown "Этот план уже зафиксирован." with
        ⟨hnot, -⟩ | ⟨p, text, s', hp, hd, hrun⟩
      · exact absurd hv hnot
      · refine ⟨.cleared, .ok none, s', ?_, Or.inl ⟨none, rfl, h.committed hkey hp hd⟩⟩
        simp only [confirmPending, run_bind, run_attempt, hrun, run_pure]
    · simp only [if_neg hphrase]
      exact dispatchAll_midway _ hknown hkey h (horderly.resolve_left hphrase)

theorem dispatchAll_returns (intents : List Intent) (lastPvId lastPv : Option UUID) (fsm : ChatState) (s : Store) :
    ∃ x s', (dispatchAll U chat lastPvId intents fsm lastPv).run s = (.ok x, s') := by
  induction intents generalizing fsm lastPv s with
  | nil => exact ⟨_, s, rfl⟩
  | cons intent rest ih =>
    simp only [dispatchAll, run_bind, run_attempt]
    rcases (dispatchIntent U chat lastPvId fsm intent).run s with ⟨e | x, s₁⟩
    · exact ⟨_, s₁, rfl⟩
    · exact ih _ _ s₁

theorem handleText_returns (message : EditMessage) (lastPvId : Option UUID) (fsm : ChatState) (s : Store) :
    ∃ x s', (handleText U chat lastPvId fsm message).run s = (.ok x, s') := by
  unfold handleText
  split
  · exact ⟨_, s, rfl⟩
  · split
    · rename_i pending _
      simp only [run_bind, run_attempt]
      rcases (confirmPending chat.taskSink pending chat.actor).run s with ⟨e | x, s₁⟩ <;> exact ⟨_, s₁, rfl⟩
    · exact dispatchAll_returns _ _ _ fsm s

/-- Every message leaves the chat in some state, also when an intent raises. -/
theorem handleEdit_returns (message : EditMessage) (fsm : ChatState) (s : Store) :
    ∃ x s', (handleEdit U chat fsm message).run s = (.ok x, s') := by
  unfold handleEdit
  split
  · exact ⟨_, s, rfl⟩
  · obtain ⟨⟨fsm', r⟩, s₁, htext⟩ := @handleText_returns U chat message fsm.pendingPvId fsm s
    simp only [run_bind, htext]
    cases r with
    | error e => exact ⟨_, s₁, rfl⟩
    | ok new =>
      cases new with
      | none => exact ⟨_, s₁, rfl⟩
      | some w =>
        simp only [run_bind, run_attempt]
        rcases (retireReplaced fsm.pendingPvId w).run s₁ with ⟨e | x, s₂⟩ <;> exact ⟨_, s₂, rfl⟩

theorem handleEdit_blank {message : EditMessage} (h : strip message.text = "") :
    (handleEdit U chat fsm message).run s = (.ok (fsm, .ok ()), s) := by
  simp only [handleEdit, if_pos h, run_pure]

/-- The message has led to no proposal. -/
theorem Midway.unmade_edit {s' : Store} {fsm' : ChatState} (h : Midway s fsm v proposals s' fsm' none)
    (hwaiting : fsm.waiting = true) (hpending : fsm.pendingPvId = some v) (hv : v ∈ proposals) :
    EditChain.Inv ⟨s', fsm', proposals ++ s.newVersions s'⟩ ∧
      EditChain.Untouched ⟨s, fsm, proposals⟩ ⟨s', fsm', proposals ++ s.newVersions s'⟩ := by
  have hkeys := h.unmade rfl
  have hmem : ∀ w ∈ proposals, w ∈ s'.planVersions.keys := fun w hw => hkeys ▸ h.mem w hw
  rw [newVersions_of_eq hkeys, List.append_nil]
  rcases h.current with ⟨hproposed, hsame⟩ | ⟨hcommitted, hcleared⟩
  · obtain ⟨rfl, hstanding⟩ := hsame rfl
    refine ⟨⟨h.ids, hmem, fun _ => ⟨v, hv, hpending, hproposed, h.settled⟩, fun hended => ?_⟩, Or.inl ⟨rfl, hstanding⟩⟩
    exact absurd (hwaiting.symm.trans hended) nofun
  · obtain rfl := hcleared rfl
    refine ⟨⟨h.ids, hmem, nofun, fun _ w hw => ?_⟩, Or.inr ⟨rfl, v, hpending, hcommitted⟩⟩
    by_cases hwv : w = v
    · exact hwv ▸ Or.inl hcommitted
    · exact h.settled w hw hwv

/-- The message has led to one proposal, and the edited one is retired unless the
message has confirmed it. -/
theorem Midway.made_edit {s' : Store} {fsm' : ChatState} {w : UUID} (h : Midway s fsm v proposals s' fsm' (some w))
    (hv : v ∈ proposals) : ∃ s'', (retireReplaced (some v) w).run s' = (.ok (), s'') ∧
      s.newVersions s'' = [w] ∧ EditChain.Inv ⟨s'', ⟨true, some w⟩, proposals ++ [w]⟩ := by
  obtain ⟨hkeys, hnew, hw⟩ := h.made w rfl
  have hne : v ≠ w := fun he => hnew (he ▸ h.mem v hv)
  have hinv : ∀ s'' : Store, s''.VersionIds → s''.planVersions.keys = s.planVersions.keys ++ [w] → s''.IsProposed w →
      (∀ u ∈ proposals, s''.Settled u) → EditChain.Inv ⟨s'', ⟨true, some w⟩, proposals ++ [w]⟩ := by
    intro s'' hids hkeys hw hsettled
    refine ⟨hids, fun u hu => ?_, fun _ => ⟨w, ?_, rfl, hw, fun u hu hne => ?_⟩, nofun⟩
    · rw [hkeys]
      rcases List.mem_append.mp hu with hu | hu
      · exact List.mem_append_left _ (h.mem u hu)
      · exact List.mem_append_right _ hu
    · exact List.mem_append_right _ (List.mem_singleton_self w)
    · rcases List.mem_append.mp hu with hu | hu
      · exact hsettled u hu
      · exact absurd (List.mem_singleton.mp hu) hne
  simp only [retireReplaced, if_neg hne]
  rcases h.current with ⟨hproposed, -⟩ | ⟨hcommitted, -⟩
  · obtain ⟨p, hp⟩ := Store.isProposed_iff.mp hproposed
    obtain ⟨s'', hrun, hd⟩ := retirePlan_run h.ids hp
    have hkeys' := hd.versions.trans hkeys
    refine ⟨s'', hrun, newVersions_of_append hkeys' hnew, hinv s'' (h.ids.decided hp hd) hkeys' ?_ fun u hu => ?_⟩
    · rw [Store.isProposed_iff] at hw ⊢
      obtain ⟨q, hq⟩ := hw
      exact ⟨q, (hd.standing_of_ne w hne.symm).trans hq⟩
    · by_cases huv : u = v
      · exact huv ▸ Or.inr ⟨p, hd.standing, hd.status⟩
      · exact (h.settled u hu huv).decided h.ids hp hd huv
  · have hsettled : s'.Settled v := Or.inl hcommitted
    refine ⟨s', retirePlan_run_of_not_proposed hsettled.not_proposed, newVersions_of_append hkeys hnew,
      hinv s' h.ids hkeys hw fun u hu => ?_⟩
    by_cases huv : u = v
    · exact huv ▸ hsettled
    · exact h.settled u hu huv

end Messages

namespace EditChain

variable {U : CharTables} {c c' : EditChain}

theorem Inv.step (h : c.Inv) (hstep : EditStep U (EditMessage.Orderly U · · ·) c c') :
    c'.Inv ∧ (c'.proposals = c.proposals → Untouched c c') := by
  obtain ⟨chat, message, hwaiting, hknown, horderly, hrun⟩ := hstep
  rename_i fsm r s'
  obtain ⟨s, fsm₀, proposals⟩ := c
  obtain ⟨v, hv, hpending, hproposed, hsettled⟩ := h.armed hwaiting
  simp only at hwaiting hpending hv hproposed hsettled hrun
  by_cases hblank : strip message.text = ""
  · rw [handleEdit_blank hblank] at hrun
    obtain ⟨hr, rfl⟩ := Prod.mk.inj hrun
    obtain ⟨rfl, -⟩ := Prod.mk.inj (Except.ok.inj hr)
    rw [newVersions_of_eq rfl, List.append_nil]
    exact ⟨h, fun _ => Or.inl ⟨rfl, fun _ => rfl⟩⟩
  have hstart := @Midway.start s fsm₀ v proposals h.ids h.mem hsettled hproposed
  have hordered := horderly.resolve_left hblank
  simp only [hpending] at hordered
  obtain ⟨fsm', r', s₁, htext, hends⟩ := handleText_midway hknown hpending hproposed hstart hordered
  simp only [handleEdit, if_neg hblank, hpending, run_bind, htext] at hrun
  rcases hends with ⟨lastPv, rfl, hmid⟩ | ⟨e, rfl, hmid⟩
  · cases lastPv with
    | none =>
      obtain ⟨hr, rfl⟩ := Prod.mk.inj hrun
      obtain ⟨rfl, -⟩ := Prod.mk.inj (Except.ok.inj hr)
      obtain ⟨hinv, huntouched⟩ := hmid.unmade_edit hwaiting hpending hv
      exact ⟨hinv, fun _ => huntouched⟩
    | some w =>
      obtain ⟨s₂, hretire, hversions, hinv⟩ := hmid.made_edit hv
      simp only [run_bind, run_attempt, hretire, run_pure] at hrun
      obtain ⟨hr, rfl⟩ := Prod.mk.inj hrun
      obtain ⟨rfl, -⟩ := Prod.mk.inj (Except.ok.inj hr)
      rw [hversions]
      exact ⟨hinv, fun hsame => absurd (List.self_eq_append_right.mp hsame.symm) nofun⟩
  · obtain ⟨hr, rfl⟩ := Prod.mk.inj hrun
    obtain ⟨rfl, -⟩ := Prod.mk.inj (Except.ok.inj hr)
    obtain ⟨hinv, huntouched⟩ := hmid.unmade_edit hwaiting hpending hv
    exact ⟨hinv, fun _ => huntouched⟩

end EditChain

/-- Along every chain of messages in good order, from a proposal whose edit button
has been pressed. -/
theorem one_live_proposal (U : CharTables) {s₀ : Store} (hids : s₀.VersionIds) {v₀ : UUID} (hv₀ : s₀.IsProposed v₀)
    {c : EditChain} (hrun : EditRun U (EditMessage.Orderly U · · ·) ⟨s₀, ⟨true, some v₀⟩, [v₀]⟩ c) :
    c.OneLive ∧ ∀ c', EditStep U (EditMessage.Orderly U · · ·) c c' → c'.proposals = c.proposals → c.Untouched c' := by
  have hinv : c.Inv := by
    induction hrun with
    | refl =>
      obtain ⟨p, hp⟩ := Store.isProposed_iff.mp hv₀
      have hkey := Store.mem_versions_of_standing hp
      refine ⟨hids, fun w hw => ?_, fun _ => ⟨v₀, List.mem_singleton_self v₀, rfl, hv₀, fun w hw hne => ?_⟩, nofun⟩
      · obtain rfl := List.mem_singleton.mp hw
        exact hkey
      · exact absurd (List.mem_singleton.mp hw) hne
    | tail _ hstep ih => exact (ih.step hstep).1
  exact ⟨hinv.oneLive, fun c' hstep => (hinv.step hstep).2⟩

/-- Anna runs the chat herself. -/
def shootingChat : Chat where
  isAdmin := true
  actor := some { id := 1, name := "Анна", isAdmin := true }
  solver := .onWeekdays
  today := 1
  taskSink := none
  projectSink := none

def shootingEdit (n : Nat) : EditMessage :=
  ⟨"правка", List.replicate n (.addProject { title := "Ролик", templateCode := "lite" })⟩

theorem shootingChat_known (s : Store) (h : 1 ∈ s.people.keys) :
    s.knows (shootingChat.actor.map PersonRecord.id) := by
  intro p hp
  obtain rfl := Option.some.inj hp
  exact h

theorem proposedShooting_ids : proposedShooting.VersionIds := by
  have hkeys : proposedShooting.planVersions.keys = [6] := rfl
  have honly : ∀ v p st, proposedShooting.standing v = some (p, st) → v = 6 := fun v p st hv =>
    List.mem_singleton.mp (hkeys ▸ Store.mem_versions_of_standing hv)
  have hsix : proposedShooting.standing 6 = some (4, .proposed) := rfl
  have hprojects : proposedShooting.projects.keys = [4] := rfl
  refine ⟨fun v hv => ?_, fun v p st hv => ?_, fun v w p st st' hv hw => ?_⟩
  · obtain rfl := List.mem_singleton.mp (hkeys ▸ hv)
    exact show 6 < 7 by decide
  · obtain rfl := honly v p st hv
    obtain ⟨rfl, -⟩ := Prod.mk.inj (Option.some.inj (hsix.symm.trans hv))
    exact hprojects ▸ List.mem_singleton_self 4
  · exact (honly v p st hv).trans (honly w p st' hw).symm

theorem one_live_proposal_shooting : ∃ s' r,
    (handleEdit .plain shootingChat ⟨true, some 6⟩ (shootingEdit 1)).run proposedShooting =
      (.ok (⟨true, some 9⟩, r), s') ∧
    (EditChain.mk s' ⟨true, some 9⟩ ([6] ++ proposedShooting.newVersions s')).OneLive :=
  ⟨_, _, rfl, (one_live_proposal .plain proposedShooting_ids (show proposedShooting.IsProposed 6 from ⟨_, rfl, rfl⟩)
    (.single (.edit shootingChat (shootingEdit 1) rfl (shootingChat_known _ (by decide))
      (Or.inr (Or.inr ⟨nofun, rfl, trivial⟩)) rfl))).1⟩

/-- Two proposals in one message: the earlier one stays open. -/
theorem two_live_proposals : ∃ c, EditRun .plain (fun _ _ _ => True) ⟨proposedShooting, ⟨true, some 6⟩, [6]⟩ c ∧
    9 ∈ c.proposals ∧ c.store.IsProposed 9 ∧ c.fsm = ⟨true, some 12⟩ ∧ c.store.IsProposed 12 ∧ ¬ c.OneLive := by
  refine ⟨_, .single (.edit shootingChat (shootingEdit 2) rfl (shootingChat_known _ (by decide)) trivial rfl),
    by decide, ⟨_, rfl, rfl⟩, rfl, ⟨_, rfl, rfl⟩, ?_⟩
  exact EditChain.not_oneLive (v := 12) (w := 9) rfl rfl (by decide) (by decide) ⟨_, rfl, rfl⟩

end Planner
