import Planner.Lib.Program
import Planner.NotionMapping

/-! The mirror of one card: the schema is fetched and kept, and a board that
refuses the card is asked again with less on it. -/

namespace Planner

namespace Notion

inductive Failure
  | network
  | status
  | body
  deriving DecidableEq, Repr

/-- An answer, with what its body has for the properties of a database and for the link of a page. -/
structure Response where
  status : Nat
  properties : Except Failure Schema
  url : Except Failure (Option String)

/-- The service at the other end, answer by answer, and which answers `raise_for_status` raises for. -/
structure Http where
  answer : Nat → Except Failure Response
  raises : Response → Bool

def Http.raiseForStatus (http : Http) (r : Response) : Except Failure Unit :=
  if http.raises r then .error .status else .ok ()

/-- A page that was asked for; `status` is none if no answer came. -/
structure Post where
  properties : Properties
  status : Option Nat

namespace Post

def refused (p : Post) : Bool := p.status.any (400 ≤ ·)

def created (p : Post) : Bool := p.status.any (· < 400)

end Post

/-- The sink with its cached schema, and what it has sent. -/
structure SinkState where
  schema : Option Schema := none
  requests : Nat := 0
  posts : List Post := []

/-- `==` of two dictionaries, which have no order. -/
def Same (p q : Properties) : Prop := p.entries.Perm q.entries

instance (p q : Properties) : Decidable (Same p q) := inferInstanceAs (Decidable (p.entries.Perm q.entries))

section Push

variable (U : CharTables) (http : Http)

def get : Program SinkState Failure Response :=
  .call fun s => (http.answer s.requests, { s with requests := s.requests + 1 })

def post (properties : Properties) : Program SinkState Failure Response :=
  .call fun s => (http.answer s.requests, { s with
    requests := s.requests + 1
    posts := s.posts ++ [⟨properties, (http.answer s.requests).toOption.map Response.status⟩] })

def setSchema (schema : Option Schema) : Program SinkState Failure Unit := .call fun s => (.ok (), { s with schema := schema })

def fetchSchema : Program SinkState Failure Schema := do
  match ← Program.read SinkState.schema with
  | some schema => pure schema
  | none =>
    let r ← get http
    .ofExcept (http.raiseForStatus r)
    let schema ← .ofExcept r.properties
    setSchema (some schema)
    pure schema

/-- Title and date only. -/
def safe (properties : Properties) : Properties :=
  properties.filter fun _ value => decide (value.type = .title ∨ value.type = .date)

/-- The steps of the ladder; one that would repeat the last attempt is skipped. -/
def retry : List Properties → Properties → Response → Program SinkState Failure Response
  | [], _, r => pure r
  | candidate :: candidates, attempted, r =>
    if Same candidate attempted then retry candidates attempted r
    else do
      let r ← post http candidate
      if r.status < 400 then pure r else retry candidates candidate r

def createPage (schema : Schema) (task : SinkTask) : Program SinkState Failure (Option String) := do
  let properties := buildProperties U schema task false
  let r ← post http properties
  let r ← (if 400 ≤ r.status then retry http [buildProperties U schema task true, safe properties] properties r else pure r)
  .ofExcept (http.raiseForStatus r)
  .ofExcept r.url

/-- Everything under `try`. -/
def tryPush (task : SinkTask) : Program SinkState Failure (Option String) := do
  let schema ← fetchSchema http
  createPage U http schema task

def pushTask (task : SinkTask) : Program SinkState Failure (Option String) := do
  match ← (tryPush U http task).attempt with
  | .ok url => pure url
  | .error _ =>
    setSchema none
    pure none

end Push

/-- What one push has sent: each page that was asked for after a refusal, and
with other properties than the one before. -/
structure Ladder (posts : List Post) (answer : Option String) : Prop where
  three : posts.length ≤ 3
  after_refusal : posts.IsChain fun p _ => p.refused = true
  changed : posts.IsChain fun p q => ¬ Same q.properties p.properties
  one_page : posts.countP Post.created ≤ 1
  page : answer ≠ none → ∃ p ∈ posts, p.created = true

section Runs

variable {U : CharTables} {http : Http}

/-- A further page is asked for after a refusal, and with other properties. -/
def Climbs (p q : Post) : Prop := p.refused = true ∧ ¬ Same q.properties p.properties

theorem run_post (http : Http) (s : SinkState) (properties : Properties) : ∃ p : Post, p.properties = properties ∧
    ((post http properties).run s).2.posts = s.posts ++ [p] ∧
    ∀ r, ((post http properties).run s).1 = .ok r → p.status = some r.status := by
  rw [post, Program.run_call]
  refine ⟨_, rfl, rfl, fun r hr => ?_⟩
  have hanswer : http.answer s.requests = .ok r := hr
  rw [hanswer]
  rfl

/-- What a retry sends climbs on from the attempt that was refused; a good answer
at the end is that of a page. -/
theorem run_retry (http : Http) (candidates : List Properties) {last : Post} {r : Response} (hlast : last.status = some r.status)
    (hrefused : 400 ≤ r.status) (s : SinkState) : ∃ posts,
      ((retry http candidates last.properties r).run s).2.posts = s.posts ++ posts ∧
      posts.length ≤ candidates.length ∧ (last :: posts).IsChain Climbs ∧
      ∀ r', ((retry http candidates last.properties r).run s).1 = .ok r' → r'.status < 400 →
        ∃ p ∈ posts, p.created = true := by
  induction candidates generalizing last r s with
  | nil =>
    refine ⟨[], (List.append_nil _).symm, le_rfl, .singleton _, fun r' hr hgood => ?_⟩
    obtain rfl : r = r' := Except.ok.inj hr
    omega
  | cons candidate candidates ih =>
    by_cases hsame : Same candidate last.properties
    · obtain ⟨posts, hposts, hlen, hchain, hpage⟩ := ih hlast hrefused s
      rw [retry, if_pos hsame]
      exact ⟨posts, hposts, hlen.trans (Nat.le_succ _), hchain, hpage⟩
    · obtain ⟨p, rfl, hsent, hstatus⟩ := run_post http s candidate
      have hclimbs : Climbs last p := ⟨by simp [Post.refused, hlast, hrefused], hsame⟩
      rw [retry, if_neg hsame, Program.run_bind]
      split
      · rename_i r₁ s₁ hpost
        rw [hpost] at hsent hstatus
        by_cases hgood : r₁.status < 400
        · rw [if_pos hgood]
          refine ⟨[p], hsent, by simp, .cons_cons hclimbs (.singleton _), fun _ _ _ => ⟨p, by simp, ?_⟩⟩
          simp [Post.created, hstatus r₁ rfl, hgood]
        · obtain ⟨posts, hposts, hlen, hchain, hpage⟩ := ih (hstatus r₁ rfl) (not_lt.mp hgood) s₁
          rw [if_neg hgood]
          refine ⟨p :: posts, ?_, Nat.succ_le_succ hlen, .cons_cons hclimbs hchain, fun r' hr hgood' => ?_⟩
          · rw [hposts, hsent, List.append_assoc, List.singleton_append]
          · obtain ⟨q, hq, hcreated⟩ := hpage r' hr hgood'
            exact ⟨q, List.mem_cons_of_mem _ hq, hcreated⟩
      · rename_i e s₁ hpost
        rw [hpost] at hsent
        exact ⟨[p], hsent, by simp, .cons_cons hclimbs (.singleton _), nofun⟩

/-- What comes after the first answer. -/
theorem run_afterFirst (http : Http) (candidates : List Properties) {first : Post} {r : Response} (hfirst : first.status = some r.status)
    (s : SinkState) : ∃ posts,
      ((if 400 ≤ r.status then retry http candidates first.properties r else pure r).run s).2.posts = s.posts ++ posts ∧
      posts.length ≤ candidates.length ∧ (first :: posts).IsChain Climbs ∧
      ∀ r', ((if 400 ≤ r.status then retry http candidates first.properties r else pure r).run s).1 = .ok r' →
        r'.status < 400 → ∃ p ∈ first :: posts, p.created = true := by
  by_cases hrefused : 400 ≤ r.status
  · obtain ⟨posts, hposts, hlen, hchain, hpage⟩ := run_retry http candidates hfirst hrefused s
    rw [if_pos hrefused]
    refine ⟨posts, hposts, hlen, hchain, fun r' hr hgood => ?_⟩
    obtain ⟨p, hp, hcreated⟩ := hpage r' hr hgood
    exact ⟨p, List.mem_cons_of_mem _ hp, hcreated⟩
  · rw [if_neg hrefused]
    refine ⟨[], (List.append_nil _).symm, Nat.zero_le _, .singleton _, fun _ _ _ => ⟨first, List.mem_cons_self, ?_⟩⟩
    simp [Post.created, hfirst, not_le.mp hrefused]

theorem run_createPage (hraises : ∀ r : Response, 400 ≤ r.status → http.raises r = true) (schema : Schema)
    (task : SinkTask) (s : SinkState) : ∃ posts,
      ((createPage U http schema task).run s).2.posts = s.posts ++ posts ∧ posts.length ≤ 3 ∧
      posts.IsChain Climbs ∧
      ∀ url, ((createPage U http schema task).run s).1 = .ok url → ∃ p ∈ posts, p.created = true := by
  obtain ⟨first, hproperties, hsent, hstatus⟩ := run_post http s (buildProperties U schema task false)
  simp only [createPage, ← hproperties]
  rw [Program.run_bind]
  split
  · rename_i r s₁ hpost
    rw [hproperties] at hpost
    rw [hpost] at hsent hstatus
    obtain ⟨posts, hposts, hlen, hchain, hpage⟩ := run_afterFirst http
      [buildProperties U schema task true, safe first.properties] (hstatus r rfl) s₁
    refine ⟨first :: posts, ?_, Nat.succ_le_succ hlen, hchain, fun url hurl => ?_⟩
    · rw [Program.run_bind_quiet _ fun r' t => ?_, hposts, hsent, List.append_assoc, List.singleton_append]
      rw [Program.run_bind_quiet _ fun _ t => by rw [Program.run_ofExcept], Program.run_ofExcept]
    · obtain ⟨r', s₂, hr, hrest⟩ := Program.run_bind_eq_ok (Prod.ext hurl rfl)
      obtain ⟨_, s₃, hcheck, -⟩ := Program.run_bind_eq_ok hrest
      have hgood : r'.status < 400 := by
        by_contra hbad
        rw [Program.run_ofExcept, Http.raiseForStatus, if_pos (hraises r' (not_lt.mp hbad))] at hcheck
        cases congrArg Prod.fst hcheck
      exact hpage r' (congrArg Prod.fst hr) hgood
  · rename_i e s₁ hpost
    rw [hproperties] at hpost
    rw [hpost] at hsent
    exact ⟨[first], hsent, by simp, .singleton _, nofun⟩

theorem fetchSchema_keeps (posts : List Post) : (fetchSchema http).Keeps fun s => s.posts = posts := by
  refine (Program.Keeps.read _).bind fun cached => ?_
  cases cached with
  | some schema => exact .pure _
  | none =>
    refine (Program.Keeps.call fun _ hs => hs).bind fun r => (Program.Keeps.ofExcept _).bind fun _ => ?_
    refine (Program.Keeps.ofExcept _).bind fun schema => ?_
    exact (Program.Keeps.call fun _ hs => hs).bind fun _ => .pure _

/-- Only the last page of such a chain can be there. -/
theorem countP_created_le {posts : List Post} (h : posts.IsChain fun p _ => p.refused = true) :
    posts.countP Post.created ≤ 1 := by
  induction h with
  | nil => exact Nat.zero_le 1
  | singleton p => exact List.countP_le_length
  | cons_cons hrefused hrest ih =>
    rename_i p q posts
    have hnone : ¬ p.created = true := by
      obtain ⟨properties, status⟩ := p
      cases status with
      | none => exact nofun
      | some status => simpa [Post.refused, Post.created] using hrefused
    rw [List.countP_cons_of_neg hnone]
    exact ih

end Runs

/-- A push never raises, climbs a ladder of at most three pages of which at most one
is created, and forgets the schema if something went wrong. -/
theorem pushTask_ladder (U : CharTables) (http : Http) (hraises : ∀ r : Response, 400 ≤ r.status → http.raises r = true)
    (task : SinkTask) (s : SinkState) : ∃ answer posts s', (pushTask U http task).run s = (.ok answer, s') ∧
      s'.posts = s.posts ++ posts ∧ Ladder posts answer ∧
      ∀ e, ((tryPush U http task).run s).1 = .error e → s'.schema = none := by
  obtain ⟨posts, hposts, hlen, hchain, hpage⟩ : ∃ posts, ((tryPush U http task).run s).2.posts = s.posts ++ posts ∧
      posts.length ≤ 3 ∧ posts.IsChain Climbs ∧
      ∀ url, ((tryPush U http task).run s).1 = .ok url → ∃ p ∈ posts, p.created = true := by
    have hfetched : ((fetchSchema http).run s).2.posts = s.posts := (fetchSchema_keeps s.posts).run rfl
    rw [tryPush, Program.run_bind]
    split
    · rename_i schema s₁ hfetch
      rw [hfetch] at hfetched
      obtain ⟨posts, hposts, hrest⟩ := run_createPage (U := U) hraises schema task s₁
      exact ⟨posts, hposts.trans (by rw [hfetched]), hrest⟩
    · rename_i e s₁ hfetch
      rw [hfetch] at hfetched
      exact ⟨[], by simpa using hfetched, Nat.zero_le 3, .nil, nofun⟩
  have hladder : ∀ answer : Option String, (answer ≠ none → ∃ p ∈ posts, p.created = true) → Ladder posts answer := by
    intro answer hanswer
    have hrefused := hchain.imp fun p q h => h.1
    exact ⟨hlen, hrefused, hchain.imp fun p q h => h.2, countP_created_le hrefused, hanswer⟩
  rw [pushTask, Program.run_bind, Program.run_attempt]
  cases htry : ((tryPush U http task).run s).1 with
  | ok url => exact ⟨url, posts, _, rfl, hposts, hladder url fun _ => hpage url htry, nofun⟩
  | error e => exact ⟨none, posts, _, rfl, hposts, hladder none fun h => absurd rfl h, fun _ _ => rfl⟩

def refusingBoard : Http where
  answer
    | 0 => .ok ⟨200, .ok (.ofList [("Name", ⟨.title, []⟩), ("Assign", ⟨.multiSelect, []⟩)]), .error .body⟩
    | 1 => .ok ⟨400, .error .body, .error .body⟩
    | _ => .ok ⟨200, .error .body, .ok (some "url")⟩
  raises r := decide (r.status < 200 ∨ 300 ≤ r.status)

theorem pushTask_ladder_refusing : ∃ answer posts s',
    (pushTask .plain refusingBoard ⟨"бриф", ["Тоня"], none, none, none⟩).run {} = (.ok answer, s') ∧
      s'.posts = [] ++ posts ∧ Ladder posts answer ∧
      ∀ e, ((tryPush .plain refusingBoard ⟨"бриф", ["Тоня"], none, none, none⟩).run {}).1 = .error e → s'.schema = none :=
  pushTask_ladder .plain refusingBoard (fun _ h => decide_eq_true (Or.inr (by omega))) _ {}

example : (((pushTask .plain refusingBoard ⟨"бриф", ["Тоня"], none, none, none⟩).run {}).2.posts.map Post.status) =
    [some 400, some 200] := by decide +kernel

end Notion

end Planner
