import Planner.NotionSink
import Planner.ProjectCard

/-! Master cards, created one after the other. Whether they go under a page or into a
database is asked of the service, until it answers once. -/

namespace Planner

namespace CardSink

open Notion (Failure)

/-- An answer, with what its body has for the properties of a database and for the id of a page. -/
structure Answer where
  status : Nat
  properties : Except Failure Schema
  id : Except Failure (Option String)

/-- The service, answer by answer, and which answers `raise_for_status` raises for. -/
structure Http where
  answer : Nat → Except Failure Answer
  raises : Answer → Bool

inductive Parent
  | page
  | database
  deriving DecidableEq, Repr

/-- A card that was asked for; `status` is none if no answer came. -/
structure Post where
  parent : Parent
  titleProp : String
  title : String
  children : List CardBlock
  status : Option Nat

/-- `NotionProjectSink` with what it keeps, what it was told of the parent, and what it has sent. -/
structure State where
  isDatabase : Option Bool := none
  titleProp : String := "title"
  requests : Nat := 0
  looks : List (Except Failure Answer) := []
  posts : List Post := []

/-- The name of the first title column. -/
def titleOf (schema : Schema) : String := (Notion.firstOfType schema .title).getD "Name"

def cardTitle (project : SinkProject) : String :=
  match project.deadline with
  | some deadline => project.title ++ " (дедлайн " ++ deadline.isoformat ++ ")"
  | none => project.title

section Create

variable (http : Http)

def getParent : Program State Failure Answer :=
  .call fun s => (http.answer s.requests, { s with
    requests := s.requests + 1
    looks := s.looks ++ [http.answer s.requests] })

def setDatabase (isDatabase : Bool) : Program State Failure Unit :=
  .call fun s => (.ok (), { s with isDatabase := some isDatabase })

def setTitleProp (titleProp : String) : Program State Failure Unit := .call fun s => (.ok (), { s with titleProp })

def post (parent : Parent) (titleProp title : String) (children : List CardBlock) : Program State Failure Answer :=
  .call fun s => (http.answer s.requests, { s with
    requests := s.requests + 1
    posts := s.posts ++ [⟨parent, titleProp, title, children, (http.answer s.requests).toOption.map Answer.status⟩] })

/-- The first answer of the service is kept, before its body is read. -/
def askParent : Program State Failure Unit := do
  let r ← getParent http
  setDatabase (r.status = 200)
  if r.status = 200 then do
    let schema ← .ofExcept r.properties
    setTitleProp (titleOf schema)
  else pure ()

def resolveParent : Program State Failure (Parent × String) := do
  match ← Program.read State.isDatabase with
  | some _ => pure ()
  | none => askParent http
  match ← Program.read State.isDatabase with
  | some true => pure (.database, ← Program.read State.titleProp)
  | _ => pure (.page, "title")

/-- Everything under `try`. -/
def tryCreate (project : SinkProject) : Program State Failure (Option String) := do
  let (parent, titleProp) ← resolveParent http
  let r ← post http parent titleProp (cardTitle project) (ProjectCard.cardChildren project)
  if http.raises r then .raise .status else pure ()
  .ofExcept r.id

def createCard (project : SinkProject) : Program State Failure (Option String) := do
  match ← (tryCreate http project).attempt with
  | .ok id => pure id
  | .error _ => pure none

/-- The sink after some projects. -/
def after (projects : List SinkProject) : State :=
  Trace.after (fun s project => ((createCard http project).run s).2) {} projects

end Create

/-- Where the cards go after an answer. A database whose columns could not be read
is taken to have the title of a page. -/
def Answer.decides (r : Answer) : Parent × String :=
  if r.status = 200 then (.database, (r.properties.toOption.map titleOf).getD "title") else (.page, "title")

/-- No look at the parent was answered. -/
def Unanswered (looks : List (Except Failure Answer)) : Prop := ∀ l ∈ looks, ∃ e, l = .error e

/-- What the sink knows is what the one answer told it, and so every card was sent. -/
structure State.Told (s : State) (r : Answer) : Prop where
  looks : ∃ failed, s.looks = failed ++ [.ok r] ∧ Unanswered failed
  isDatabase : s.isDatabase = some (decide (r.status = 200))
  titleProp : r.status = 200 → s.titleProp = r.decides.2
  posts : ∀ p ∈ s.posts, (p.parent, p.titleProp) = r.decides

/-- As long as there was no answer nothing is known, and nothing was sent. -/
structure State.Waits (s : State) : Prop where
  looks : Unanswered s.looks
  isDatabase : s.isDatabase = none
  titleProp : s.titleProp = "title"
  posts : s.posts = []

def Post.content (p : Post) : String × List CardBlock := (p.title, p.children)

def contentOf (project : SinkProject) : String × List CardBlock := (cardTitle project, ProjectCard.cardChildren project)

section Runs

variable {http : Http} {s : State} {r : Answer}

/-- Where the parent is known it is not asked for again. -/
theorem resolveParent_told (h : s.Told r) : (resolveParent http).run s = (.ok r.decides, s) := by
  simp only [resolveParent, Program.run_bind, Program.run_read, h.isDatabase]
  by_cases hstatus : r.status = 200
  · simp only [hstatus, decide_true, Program.run_bind, Program.run_read, Program.run_pure, h.titleProp hstatus]
    simp only [Answer.decides, if_pos hstatus]
  · simp only [hstatus, decide_false, Program.run_pure]
    simp only [Answer.decides, if_neg hstatus]

/-- A first look: it fails, or it settles the parent, even if its body cannot be read. -/
theorem resolveParent_waits (http : Http) (h : s.Waits) :
    (∃ e s', (resolveParent http).run s = (.error e, s') ∧ s'.Waits) ∨
    ∃ r s', s'.Told r ∧ s'.posts = [] ∧
      ((resolveParent http).run s = (.ok r.decides, s') ∨ ∃ e, (resolveParent http).run s = (.error e, s')) := by
  cases hanswer : http.answer s.requests with
  | error e =>
    refine Or.inl ⟨e, { s with requests := s.requests + 1, looks := s.looks ++ [.error e] }, ?_, ?_⟩
    · simp only [resolveParent, askParent, getParent, Program.run_bind, Program.run_read, Program.run_call, h.isDatabase,
        hanswer]
    · refine ⟨fun l hl => ?_, h.isDatabase, h.titleProp, h.posts⟩
      rcases List.mem_append.mp hl with hl | hl
      · exact h.looks l hl
      · exact ⟨e, List.mem_singleton.mp hl⟩
  | ok r =>
    -- the flag is kept whatever the body holds, the title only if it can be read
    have htold : ∀ titleProp, (r.status = 200 → titleProp = r.decides.2) → State.Told
        ⟨some (decide (r.status = 200)), titleProp, s.requests + 1, s.looks ++ [.ok r], s.posts⟩ r := fun titleProp ht =>
      ⟨⟨s.looks, rfl, h.looks⟩, rfl, ht, fun p hp => by
        rw [h.posts] at hp
        cases hp⟩
    by_cases hstatus : r.status = 200
    · cases hschema : r.properties with
      | error e =>
        refine Or.inr ⟨r, _, htold s.titleProp fun _ => ?_, h.posts, Or.inr ⟨e, ?_⟩⟩
        · rw [h.titleProp, Answer.decides, if_pos hstatus, hschema]
          rfl
        · simp only [resolveParent, askParent, getParent, setDatabase, Program.run_bind, Program.run_read, Program.run_call,
            h.isDatabase, hanswer, if_pos hstatus, hschema, Program.run_ofExcept]
      | ok schema =>
        have htitle : titleOf schema = r.decides.2 := by
          rw [Answer.decides, if_pos hstatus, hschema]
          rfl
        refine Or.inr ⟨r, _, htold (titleOf schema) fun _ => htitle, h.posts, Or.inl ?_⟩
        simp only [resolveParent, askParent, getParent, setDatabase, setTitleProp, Program.run_bind, Program.run_read,
          Program.run_call, h.isDatabase, hanswer, hschema, hstatus, decide_true]
        simp only [Answer.decides, if_pos hstatus, hschema]
        rfl
    · refine Or.inr ⟨r, _, htold s.titleProp fun ht => absurd ht hstatus, h.posts, Or.inl ?_⟩
      simp only [resolveParent, askParent, getParent, setDatabase, Program.run_bind, Program.run_read, Program.run_call,
        h.isDatabase, hanswer, hstatus, decide_false, if_false, Program.run_pure]
      simp only [Answer.decides, if_neg hstatus]

/-- After the parent is known one card is sent, to where the answer said. -/
theorem post_told (http : Http) (h : s.Told r) (project : SinkProject) : ∃ p s',
    (post http r.decides.1 r.decides.2 (cardTitle project) (ProjectCard.cardChildren project)).run s =
      (http.answer s.requests, s') ∧ s'.Told r ∧ s'.looks = s.looks ∧ s'.posts = s.posts ++ [p] ∧
      p.content = contentOf project := by
  let p : Post := ⟨r.decides.1, r.decides.2, cardTitle project, ProjectCard.cardChildren project,
    (http.answer s.requests).toOption.map Answer.status⟩
  refine ⟨p, { s with requests := s.requests + 1, posts := s.posts ++ [p] }, Program.run_call _ _, ?_, rfl, rfl, rfl⟩
  refine ⟨h.looks, h.isDatabase, h.titleProp, fun q hq => ?_⟩
  rcases List.mem_append.mp hq with hq | hq
  · exact h.posts q hq
  · rw [List.mem_singleton.mp hq]

theorem createCard_state (project : SinkProject) :
    ((createCard http project).run s).2 = ((tryCreate http project).run s).2 := by
  rw [createCard, Program.run_bind, Program.run_attempt]
  dsimp only
  cases ((tryCreate http project).run s).1 <;> rfl

/-- What comes after the answer sends nothing. -/
theorem tryCreate_state {s' : State} (project : SinkProject) (h : (resolveParent http).run s = (.ok r.decides, s')) :
    ((tryCreate http project).run s).2 =
      ((post http r.decides.1 r.decides.2 (cardTitle project) (ProjectCard.cardChildren project)).run s').2 := by
  rw [tryCreate, Program.run_bind_of_ok h, Program.run_bind]
  cases (post http r.decides.1 r.decides.2 (cardTitle project) (ProjectCard.cardChildren project)).run s' with
  | mk answer s₁ =>
    cases answer with
    | error e => rfl
    | ok page =>
      dsimp only
      split
      · rfl
      · rw [Program.run_ofExcept]

/-- A card whose parent is known is sent once, whatever comes of it. -/
theorem createCard_told (http : Http) (h : s.Told r) (project : SinkProject) : ∃ p,
    ((createCard http project).run s).2.Told r ∧ ((createCard http project).run s).2.looks = s.looks ∧
      ((createCard http project).run s).2.posts = s.posts ++ [p] ∧ p.content = contentOf project := by
  obtain ⟨p, s', hpost, htold, hlooks, hposts, hcontent⟩ := post_told http h project
  rw [createCard_state, tryCreate_state project (resolveParent_told h), hpost]
  exact ⟨p, htold, hlooks, hposts, hcontent⟩

/-- The first card: it is not sent, or it is the first one sent. -/
theorem createCard_waits (http : Http) (h : s.Waits) (project : SinkProject) :
    ((createCard http project).run s).2.Waits ∨ ∃ r, ((createCard http project).run s).2.Told r ∧
      (((createCard http project).run s).2.posts = [] ∨
        ∃ p, ((createCard http project).run s).2.posts = [p] ∧ p.content = contentOf project) := by
  rw [createCard_state]
  rcases resolveParent_waits http h with ⟨e, s', hrun, hwaits⟩ | ⟨r, s', htold, hposts, hrun | ⟨e, hrun⟩⟩
  · rw [tryCreate, Program.run_bind_of_error hrun]
    exact Or.inl hwaits
  · obtain ⟨p, s₁, hpost, htold₁, -, hposts₁, hcontent⟩ := post_told http htold project
    rw [tryCreate_state project hrun, hpost]
    rw [hposts] at hposts₁
    exact Or.inr ⟨r, htold₁, Or.inr ⟨p, hposts₁, hcontent⟩⟩
  · rw [tryCreate, Program.run_bind_of_error hrun]
    exact Or.inr ⟨r, htold, Or.inl hposts⟩

theorem after_snoc (http : Http) (projects : List SinkProject) (project : SinkProject) :
    after http (projects ++ [project]) = ((createCard http project).run (after http projects)).2 :=
  Trace.after_snoc _ _ _ _

theorem after_settled (http : Http) (projects : List SinkProject) :
    ((after http projects).posts.map Post.content) <:+ projects.map contentOf ∧
      ((after http projects).Waits ∨ ∃ r, (after http projects).Told r) := by
  induction projects using List.reverseRecOn with
  | nil =>
    exact ⟨List.nil_suffix, Or.inl ⟨fun l hl => absurd hl List.not_mem_nil, rfl, rfl, rfl⟩⟩
  | append_singleton projects project ih =>
    rw [after_snoc, List.map_append]
    obtain ⟨hsuffix, hwaits | ⟨r, htold⟩⟩ := ih
    · rcases createCard_waits http hwaits project with hwaits' | ⟨r, htold, hposts | ⟨p, hposts, hcontent⟩⟩
      · rw [hwaits'.posts]
        exact ⟨List.nil_suffix, Or.inl hwaits'⟩
      · rw [hposts]
        exact ⟨List.nil_suffix, Or.inr ⟨r, htold⟩⟩
      · rw [hposts, List.map_singleton, hcontent]
        exact ⟨List.suffix_append _ _, Or.inr ⟨r, htold⟩⟩
    · obtain ⟨p, htold', -, hposts, hcontent⟩ := createCard_told http htold project
      rw [hposts, List.map_append, List.map_singleton, hcontent]
      obtain ⟨before, hbefore⟩ := hsuffix
      refine ⟨⟨before, ?_⟩, Or.inr ⟨r, htold'⟩⟩
      rw [← List.append_assoc, hbefore]
      rfl

/-- Once it is known where cards go, every one is sent there. -/
theorem after_told (projects : List SinkProject) (htold : (after http projects).Told r) (more : List SinkProject) :
    (after http (projects ++ more)).Told r ∧ (after http (projects ++ more)).looks = (after http projects).looks ∧
      (after http (projects ++ more)).posts.map Post.content =
        (after http projects).posts.map Post.content ++ more.map contentOf := by
  induction more using List.reverseRecOn with
  | nil =>
    rw [List.append_nil, List.map_nil, List.append_nil]
    exact ⟨htold, rfl, rfl⟩
  | append_singleton more project ih =>
    obtain ⟨htold', hlooks, hposts⟩ := ih
    obtain ⟨p, htold'', hsame, hsent, hcontent⟩ := createCard_told http htold' project
    rw [← List.append_assoc, after_snoc]
    refine ⟨htold'', hsame.trans hlooks, ?_⟩
    rw [hsent, List.map_append, hposts, List.map_append, List.map_singleton, hcontent, List.append_assoc]
    rfl

theorem resolveParent_keeps (http : Http) (posts : List Post) : (resolveParent http).Keeps fun s => s.posts = posts := by
  have hask : (askParent http).Keeps fun s => s.posts = posts := by
    refine (Program.Keeps.call fun s hs => hs).bind fun r => (Program.Keeps.call fun s hs => hs).bind fun _ => ?_
    split
    · exact (Program.Keeps.ofExcept _).bind fun schema => Program.Keeps.call fun s hs => hs
    · exact Program.Keeps.pure _
  refine (Program.Keeps.read _).bind fun known => ?_
  have hknown : (Program.read State.isDatabase >>= fun isDatabase => match isDatabase with
      | some true => Program.read State.titleProp >>= fun titleProp => pure (Parent.database, titleProp)
      | _ => pure (Parent.page, "title") : Program State Failure (Parent × String)).Keeps fun s => s.posts = posts := by
    refine (Program.Keeps.read _).bind fun isDatabase => ?_
    split
    · exact (Program.Keeps.read _).bind fun titleProp => Program.Keeps.pure _
    · exact Program.Keeps.pure _
  cases known with
  | none => exact hask.bind fun _ => hknown
  | some b => exact hknown

/-- An id is that of the page that was asked for last. -/
theorem createCard_answer {project : SinkProject} {id : String}
    (h : ((createCard http project).run s).1 = .ok (some id)) : ∃ p r,
    ((createCard http project).run s).2.posts = s.posts ++ [p] ∧ p.content = contentOf project ∧
      p.status = some r.status ∧ http.raises r = false ∧ r.id = .ok (some id) := by
  rw [createCard_state]
  have hid : ((tryCreate http project).run s).1 = .ok (some id) := by
    rw [createCard, Program.run_bind, Program.run_attempt] at h
    dsimp only at h
    cases hanswer : ((tryCreate http project).run s).1 with
    | error e =>
      rw [hanswer] at h
      cases h
    | ok answer =>
      rw [hanswer] at h
      rw [Except.ok.inj h]
  obtain ⟨⟨parent, titleProp⟩, s₁, hresolve, hrest⟩ := Program.run_bind_eq_ok (Prod.ext hid rfl)
  have hkept : s₁.posts = s.posts := by
    have hposts := (resolveParent_keeps http s.posts).run (s := s) rfl
    rwa [hresolve] at hposts
  obtain ⟨r, s₂, hpost, hrest⟩ := Program.run_bind_eq_ok hrest
  rw [post, Program.run_call] at hpost
  obtain ⟨hanswer, rfl⟩ := Prod.mk.inj hpost
  split at hrest
  · cases hrest
  · rename_i hgood
    rw [Program.run_ofExcept] at hrest
    obtain ⟨hr, hs⟩ := Prod.mk.inj hrest
    refine ⟨⟨parent, titleProp, cardTitle project, ProjectCard.cardChildren project,
      (http.answer s₁.requests).toOption.map Answer.status⟩, r, ?_, rfl, ?_, Bool.eq_false_iff.mpr hgood, hr⟩
    · rw [← hkept]
      exact congrArg State.posts hs.symm
    · rw [hanswer]
      rfl

end Runs

/-- Any number of projects, and a service that answers as it likes. Until a look at the
parent is answered nothing is sent. The first answer, whatever it is, decides for good where
all cards go, and every project after it is sent there, once and in order; before these at most
the one that made the look. An id that is answered is that of the card just sent. -/
theorem cards_one_parent (http : Http) (projects : List SinkProject) :
    (after http projects).posts.map Post.content <:+ projects.map contentOf ∧
    (Unanswered (after http projects).looks ∧ (after http projects).posts = [] ∨
      ∃ failed r, (after http projects).looks = failed ++ [.ok r] ∧ Unanswered failed ∧
        (∀ p ∈ (after http projects).posts, (p.parent, p.titleProp) = r.decides) ∧
        ∀ more, (after http (projects ++ more)).looks = (after http projects).looks ∧
          (after http (projects ++ more)).posts.map Post.content =
            (after http projects).posts.map Post.content ++ more.map contentOf) ∧
    ∀ project id, ((createCard http project).run (after http projects)).1 = .ok (some id) → ∃ p r,
      ((createCard http project).run (after http projects)).2.posts = (after http projects).posts ++ [p] ∧
        p.content = contentOf project ∧ p.status = some r.status ∧ http.raises r = false ∧ r.id = .ok (some id) := by
  obtain ⟨hsuffix, hsettled⟩ := after_settled http projects
  refine ⟨hsuffix, ?_, fun project id h => createCard_answer h⟩
  rcases hsettled with hwaits | ⟨r, htold⟩
  · exact Or.inl ⟨hwaits.looks, hwaits.posts⟩
  · obtain ⟨failed, hlooks, hfailed⟩ := htold.looks
    exact Or.inr ⟨failed, r, hlooks, hfailed, htold.posts, fun more => (after_told projects htold more).2⟩

end CardSink

end Planner
