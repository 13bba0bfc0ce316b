import Planner.DoneTicks
import Planner.Lib.Trace

/-! The master card of a project on its page: a checklist, a brief and the ideas of the
team. The bot ticks the first item of a name, whatever becomes of its requests, and
nothing else on the card. -/

namespace Planner

/-- A block of a page, its text in the parts the service keeps it in. -/
inductive CardBlock
  | heading2 (text : String)
  | toDo (richText : List String) (checked : Bool)
  | paragraph (richText : List String)
  deriving DecidableEq, Repr

def CardBlock.setChecked (v : Bool) : CardBlock → CardBlock
  | .toDo richText _ => .toDo richText v
  | block => block

namespace ProjectCard

def checklistBlocks (taskNames : List String) : List CardBlock := taskNames.map fun name => .toDo [name] false

/-- Checklist, empty brief and room for ideas. -/
def cardChildren (project : SinkProject) : List CardBlock :=
  .heading2 "Чеклист задач" :: (checklistBlocks project.taskNames ++
    [.heading2 "Бриф", .paragraph [], .heading2 "Идеи", .paragraph []])

/-- How many blocks the service takes, and lists, in one request. -/
def pageSize : Nat := 100

def plainText (richText : List String) : String := strip (String.join richText)

section Find

variable (U : CharTables)

def isTodo (taskName : String) : CardBlock → Bool
  | .toDo richText _ => decide (U.casefold (plainText richText).toList = U.casefold (strip taskName).toList)
  | _ => false

/-- The place of the block, which stands for its id. -/
def findTodo (blocks : List CardBlock) (taskName : String) : Option Nat := blocks.findIdx? (isTodo U taskName)

/-- A request takes effect and is answered, takes effect alone, or does not arrive. -/
inductive Reach
  | answered
  | unanswered
  | lost
  deriving DecidableEq, Repr

/-- The blocks are listed, if `lists`, and the one that is found is ticked. -/
def markTaskDone (taskName : String) (lists : Bool) (patch : Reach) (blocks : List CardBlock) : Bool × List CardBlock :=
  if lists then
    match findTodo U (blocks.take pageSize) taskName with
    | none => (false, blocks)
    | some i =>
      match patch with
      | .answered => (true, blocks.modify i (CardBlock.setChecked true))
      | .unanswered => (false, blocks.modify i (CardBlock.setChecked true))
      | .lost => (false, blocks)
  else (false, blocks)

/-- What happens on the page: the team ticks by hand and writes below. -/
inductive Step
  | mark (taskName : String) (lists : Bool) (patch : Reach)
  | byHand (place : Nat) (checked : Bool)
  | below (blocks : List CardBlock)

def step (blocks : List CardBlock) : Step → List CardBlock
  | .mark taskName lists patch => (markTaskDone U taskName lists patch blocks).2
  | .byHand place checked => blocks.modify place (CardBlock.setChecked checked)
  | .below more => blocks ++ more

/-- Names that the search takes for the same. -/
def sameName (taskName item : String) : Bool :=
  decide (U.casefold (strip item).toList = U.casefold (strip taskName).toList)

/-- What a step makes of the box at `place`, if anything. -/
def tells (project : SinkProject) (place : Nat) : Step → Option Bool
  | .mark taskName lists patch =>
    if lists ∧ patch ≠ .lost ∧ (project.taskNames.findIdx? (sameName U taskName)).map (· + 1) = some place then some true
    else none
  | .byHand place' checked => if place' = place then some checked else none
  | .below _ => none

/-- The last of it. -/
def lastTold (project : SinkProject) (place : Nat) (steps : List Step) : Option Bool :=
  (steps.filterMap (tells U project place)).getLast?

end Find

variable {U : CharTables} {project : SinkProject}

@[simp] theorem isTodo_setChecked (name : String) (v : Bool) (block : CardBlock) :
    isTodo U name (block.setChecked v) = isTodo U name block := by
  cases block <;> rfl

@[simp] theorem setChecked_setChecked (v w : Bool) (block : CardBlock) :
    (block.setChecked w).setChecked v = block.setChecked v := by
  cases block <;> rfl

theorem findTodo_cardChildren (name : String) :
    findTodo U (cardChildren project) name = (project.taskNames.findIdx? (sameName U name)).map (· + 1) := by
  have hitems : (checklistBlocks project.taskNames).findIdx? (isTodo U name) =
      project.taskNames.findIdx? (sameName U name) := by
    have htodo : (isTodo U name ∘ fun item => CardBlock.toDo [item] false) = sameName U name := by
      funext item
      have hjoin : String.join [item] = item := by simp [String.join]
      simp only [Function.comp_apply, isTodo, sameName, plainText, hjoin]
    rw [checklistBlocks, List.findIdx?_map, htodo]
  have hrest : ([.heading2 "Бриф", .paragraph [], .heading2 "Идеи", .paragraph []] : List CardBlock).findIdx?
      (isTodo U name) = none := rfl
  rw [findTodo, cardChildren, List.findIdx?_cons, if_neg (by exact Bool.false_ne_true), List.findIdx?_append, hitems,
    hrest, Option.map_none, Option.or_none]

/-- The card as it was made, with other ticks. -/
def Shows (project : SinkProject) (ticks : Nat → Bool) (blocks : List CardBlock) : Prop :=
  ∀ place < (cardChildren project).length,
    blocks[place]? = (cardChildren project)[place]?.map (CardBlock.setChecked (ticks place))

theorem findTodo_of_shows {ticks : Nat → Bool} {blocks : List CardBlock} (h : Shows project ticks blocks)
    (hsize : (cardChildren project).length ≤ pageSize) (name : String) {place : Nat}
    (hplace : place < (cardChildren project).length) :
    findTodo U (blocks.take pageSize) name = some place ↔ findTodo U (cardChildren project) name = some place := by
  have hsame : ∀ p < (cardChildren project).length, ((blocks.take pageSize)[p]?).map (isTodo U name) =
      ((cardChildren project)[p]?).map (isTodo U name) := by
    intro p hp
    rw [List.getElem?_take_of_lt (hp.trans_le hsize), h p hp, Option.map_map]
    refine congrArg (Option.map · _) ?_
    funext block
    exact isTodo_setChecked name (ticks p) block
  have hiff : ∀ (l : List CardBlock), findTodo U l name = some place ↔
      (l[place]?).map (isTodo U name) = some true ∧ ∀ p < place, (l[p]?).map (isTodo U name) = some false := by
    intro l
    rw [findTodo, List.findIdx?_eq_some_iff_getElem]
    constructor
    · rintro ⟨hlt, hfound, hbefore⟩
      refine ⟨by rw [List.getElem?_eq_getElem hlt, Option.map_some, hfound], fun p hp => ?_⟩
      rw [List.getElem?_eq_getElem (hp.trans hlt), Option.map_some]
      exact congrArg some (Bool.eq_false_iff.mpr (hbefore p hp))
    · rintro ⟨hfound, hbefore⟩
      obtain ⟨block, hblock, htodo⟩ := Option.map_eq_some_iff.mp hfound
      obtain ⟨hlt, rfl⟩ := List.getElem?_eq_some_iff.mp hblock
      refine ⟨hlt, htodo, fun p hp => ?_⟩
      have hp' := hbefore p hp
      rw [List.getElem?_eq_getElem (hp.trans hlt), Option.map_some] at hp'
      exact Bool.eq_false_iff.mp (Option.some.inj hp')
  rw [hiff, hiff, hsame place hplace]
  refine and_congr_right fun _ => forall₂_congr fun p hp => ?_
  rw [hsame p (hp.trans hplace)]

/-- A tick at one place, seen from every place. -/
theorem Shows.modify {ticks : Nat → Bool} {blocks : List CardBlock} (h : Shows project ticks blocks) (i : Nat) (v : Bool) :
    Shows project (fun place => if i = place then v else ticks place) (blocks.modify i (CardBlock.setChecked v)) := by
  intro place hplace
  rw [List.getElem?_modify, h place hplace]
  by_cases hi : i = place
  · cases (cardChildren project)[place]? with
    | none => rfl
    | some block => simp [hi]
  · cases (cardChildren project)[place]? with
    | none => rfl
    | some block => simp [hi]

theorem Shows.congr {ticks ticks' : Nat → Bool} {blocks : List CardBlock} (h : Shows project ticks blocks)
    (heq : ∀ place < (cardChildren project).length, ticks' place = ticks place) : Shows project ticks' blocks :=
  fun place hplace => heq place hplace ▸ h place hplace

/-- What one step does to the card. -/
theorem Shows.step {ticks : Nat → Bool} {blocks : List CardBlock} (h : Shows project ticks blocks)
    (hsize : (cardChildren project).length ≤ pageSize) (s : Step) :
    Shows project (fun place => (tells U project place s).getD (ticks place)) (ProjectCard.step U blocks s) := by
  cases s with
  | below more =>
    intro place hplace
    have hlt : place < blocks.length := by
      by_contra hge
      have hnone := h place hplace
      rw [List.getElem?_eq_none (Nat.le_of_not_lt hge), List.getElem?_eq_getElem hplace] at hnone
      cases hnone
    rw [ProjectCard.step, List.getElem?_append_left hlt]
    exact h place hplace
  | byHand i v =>
    refine (h.modify i v).congr fun place _ => ?_
    by_cases hi : i = place
    · simp [tells, hi]
    · simp [tells, hi]
  | mark name lists patch =>
    by_cases heffect : lists = true ∧ patch ≠ .lost
    · cases hfind : findTodo U (blocks.take pageSize) name with
      | none =>
        have hstep : ProjectCard.step U blocks (.mark name lists patch) = blocks := by
          rw [ProjectCard.step, markTaskDone, if_pos heffect.1, hfind]
        rw [hstep]
        refine h.congr fun place hplace => ?_
        have hiff := @findTodo_of_shows U project ticks blocks h hsize name place hplace
        rw [hfind, findTodo_cardChildren] at hiff
        have hnot : ¬ (project.taskNames.findIdx? (sameName U name)).map (· + 1) = some place := by
          intro hfound
          cases hiff.mpr hfound
        rw [tells, if_neg fun hh => hnot hh.2.2, Option.getD_none]
      | some i =>
        have hstep : ProjectCard.step U blocks (.mark name lists patch) = blocks.modify i (CardBlock.setChecked true) := by
          rw [ProjectCard.step, markTaskDone, if_pos heffect.1, hfind]
          cases patch with
          | answered => rfl
          | unanswered => rfl
          | lost => exact absurd rfl heffect.2
        rw [hstep]
        refine (h.modify i true).congr fun place hplace => ?_
        have hiff := @findTodo_of_shows U project ticks blocks h hsize name place hplace
        rw [hfind, findTodo_cardChildren, Option.some_inj] at hiff
        by_cases hi : i = place
        · rw [tells, if_pos ⟨heffect.1, heffect.2, hiff.mp hi⟩, Option.getD_some, if_pos hi]
        · rw [tells, if_neg fun hh => hi (hiff.mpr hh.2.2), Option.getD_none, if_neg hi]
    · have hstep : ProjectCard.step U blocks (.mark name lists patch) = blocks := by
        rw [ProjectCard.step, markTaskDone]
        split
        · rename_i hlists
          split
          · rfl
          · cases patch with
            | answered => exact absurd ⟨hlists, Reach.noConfusion⟩ heffect
            | unanswered => exact absurd ⟨hlists, Reach.noConfusion⟩ heffect
            | lost => rfl
        · rfl
      rw [hstep]
      refine h.congr fun place _ => ?_
      rw [tells, if_neg fun hh => heffect ⟨hh.1, hh.2.1⟩, Option.getD_none]

theorem Shows.after (hsize : (cardChildren project).length ≤ pageSize) (steps : List Step) :
    Shows project (fun place => (lastTold U project place steps).getD false)
      (Trace.after (ProjectCard.step U) (cardChildren project) steps) := by
  induction steps using List.reverseRecOn with
  | nil =>
    intro place _
    cases hblock : (cardChildren project)[place]? with
    | none => exact hblock
    | some block =>
      have hmem := List.mem_of_getElem? hblock
      have hunticked : block.setChecked false = block := by
        simp only [cardChildren, checklistBlocks, List.mem_cons, List.mem_append, List.mem_map, List.not_mem_nil,
          or_false] at hmem
        rcases hmem with rfl | ⟨name, -, rfl⟩ | rfl | rfl | rfl | rfl <;> rfl
      exact hblock.trans (congrArg some hunticked.symm)
  | append_singleton steps s ih =>
    rw [Trace.after_snoc]
    refine (ih.step hsize s).congr fun place _ => ?_
    rw [lastTold, lastTold, List.filterMap_append]
    cases htell : tells U project place s with
    | none => simp [htell]
    | some v => simp [htell]

end ProjectCard

open ProjectCard

/-- Whatever becomes of the requests, and whatever the team ticks by hand or writes
below: an item of the checklist has the name it was made with, and is ticked iff the last
to touch its box, by hand or as the first item of the name that was marked, has ticked
it. All other blocks of the card are as they were made. -/
theorem card_items (U : CharTables) (project : SinkProject) (hsize : (cardChildren project).length ≤ pageSize)
    (steps : List ProjectCard.Step) :
    let blocks := Trace.after (ProjectCard.step U) (cardChildren project) steps
    (∀ k name, project.taskNames[k]? = some name →
      blocks[k + 1]? = some (.toDo [name] ((lastTold U project (k + 1) steps).getD false))) ∧
    ∀ place, place = 0 ∨ project.taskNames.length < place → place < (cardChildren project).length →
      blocks[place]? = (cardChildren project)[place]? := by
  intro blocks
  have hshows : Shows project (fun place => (lastTold U project place steps).getD false) blocks := Shows.after hsize steps
  have hitem : ∀ k name, project.taskNames[k]? = some name →
      (cardChildren project)[k + 1]? = some (.toDo [name] false) := by
    intro k name hname
    have hlt : k < (checklistBlocks project.taskNames).length := by
      rw [checklistBlocks, List.length_map]
      exact (List.getElem?_eq_some_iff.mp hname).1
    rw [cardChildren, List.getElem?_cons_succ, List.getElem?_append_left hlt, checklistBlocks, List.getElem?_map, hname]
    rfl
  refine ⟨fun k name hname => ?_, fun place hplace hlt => ?_⟩
  · have hlt := (List.getElem?_eq_some_iff.mp (hitem k name hname)).1
    rw [hshows (k + 1) hlt, hitem k name hname]
    rfl
  · rw [hshows place hlt]
    have hother : ∀ block ∈ (cardChildren project)[place]?, ∀ v, block.setChecked v = block := by
      intro block hblock v
      rcases hplace with rfl | hafter
      · obtain rfl : CardBlock.heading2 "Чеклист задач" = block := Option.some.inj hblock
        rfl
      · obtain ⟨k, rfl⟩ := Nat.exists_eq_add_of_lt hafter
        rw [Option.mem_def, cardChildren, show project.taskNames.length + k + 1 = (project.taskNames.length + k) + 1 from rfl,
          List.getElem?_cons_succ, List.getElem?_append_right (by simp [checklistBlocks])] at hblock
        have hmem := List.mem_of_getElem? hblock
        simp only [List.mem_cons, List.not_mem_nil, or_false] at hmem
        rcases hmem with rfl | rfl | rfl | rfl <;> rfl
    cases hblock : (cardChildren project)[place]? with
    | none => rfl
    | some block => exact congrArg some (hother block hblock _)

/-- Two items of one name, and a request whose answer does not come back. -/
theorem card_items_repeated :
    let project : SinkProject := ⟨"Ролик", "video", ["Монтаж", "Съёмка", "монтаж "], none⟩
    let steps : List ProjectCard.Step := [.mark "монтаж" true .unanswered, .byHand 2 true, .below [.toDo ["Съёмка"] false],
      .mark "Монтаж" true .answered, .byHand 2 false]
    let blocks := Trace.after (ProjectCard.step .plain) (cardChildren project) steps
    (∀ k name, project.taskNames[k]? = some name →
      blocks[k + 1]? = some (.toDo [name] ((lastTold .plain project (k + 1) steps).getD false))) ∧
    ∀ place, place = 0 ∨ project.taskNames.length < place → place < (cardChildren project).length →
      blocks[place]? = (cardChildren project)[place]? :=
  card_items .plain _ (by decide) _

end Planner
