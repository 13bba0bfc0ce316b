import Planner.Lib.Faults
import Planner.WebSessions

/-! Who writes through the admin site. In production every write goes back to a login
of an admin whom Telegram has vouched for, and is entered under his name. -/

namespace Planner

open Program

/-- New entries of the audit log, all under one name. -/
def Store.AuditedBy (s : Store) (actorId : Option UUID) (s' : Store) : Prop :=
  ∃ rows, s'.audit = s.audit ++ rows ∧ ∀ row ∈ rows, row.actorId = actorId

section Routes

variable {s : Store} {actorId : Option UUID}

theorem auditedBy_of_audit {t t' : Store} (h : s.AuditedBy actorId t) (ha : t'.audit = t.audit) : s.AuditedBy actorId t' := by
  obtain ⟨rows, hrows, hname⟩ := h
  exact ⟨rows, ha.trans hrows, hname⟩

theorem addAudit_auditedBy (action entityType : String) (entityId : Option UUID)
    (payload : Option (List (String × AuditValue))) :
    (Repo.addAudit actorId action entityType entityId payload).Keeps (s.AuditedBy actorId) := by
  refine Keeps.guarded fun t _ h => ?_
  obtain ⟨rows, hrows, hname⟩ := h
  refine ⟨rows ++ [⟨actorId, action, entityType, entityId, payload⟩], ?_, ?_⟩
  · rw [Store.putAudit, hrows, List.append_assoc]
  · intro row hrow
    rcases List.mem_append.mp hrow with hrow | hrow
    · exact hname row hrow
    · rw [List.mem_singleton.mp hrow]

theorem editInPlan_auditedBy (taskId : UUID) (f : Assignment → Assignment) :
    (Repo.editInPlan taskId f).Keeps (s.AuditedBy actorId) := by
  refine Keeps.call fun t h => ?_
  split
  · exact h
  · exact auditedBy_of_audit h rfl

theorem setTaskAssignee_auditedBy (taskId personId : UUID) (hours : Int) :
    (Repo.setTaskAssignee taskId personId hours).Keeps (s.AuditedBy actorId) := by
  refine Keeps.call fun t h => ?_
  split
  · exact h
  · split
    · exact auditedBy_of_audit h rfl
    · exact h

theorem reassign_auditedBy (isAdmin : Bool) (taskId personId : FormField UUID) :
    (reassign isAdmin taskId personId actorId).Keeps (s.AuditedBy actorId) := by
  unfold reassign
  split
  · exact Keeps.raise _
  · split
    · exact Keeps.pure _
    · refine (Keeps.read _).bind fun people => ?_
      split
      · exact Keeps.raise _
      · refine (setTaskAssignee_auditedBy _ _ _).bind fun moved => ?_
        split
        · exact (editInPlan_auditedBy _ _).bind fun _ => addAudit_auditedBy _ _ _ _
        · exact Keeps.pure _
    · exact Keeps.raise _

theorem toDate_keeps {I : Store → Prop} (field : FormField Date) : field.toDate.Keeps I := by
  cases field with
  | blank => exact Keeps.pure _
  | bad => exact Keeps.raise _
  | value d => exact Keeps.pure _

theorem editTask_auditedBy (isAdmin : Bool) (taskId : UUID) (start end_ : FormField Date) :
    (editTask isAdmin taskId start end_ actorId).Keeps (s.AuditedBy actorId) := by
  unfold editTask
  split
  · exact Keeps.raise _
  · refine (toDate_keeps start).bind fun startD => (toDate_keeps end_).bind fun endD => ?_
    refine (Keeps.call fun t h => auditedBy_of_audit h rfl).bind fun _ => ?_
    exact (editInPlan_auditedBy _ _).bind fun _ => addAudit_auditedBy _ _ _ _

theorem upsertDayOverride_auditedBy (personId : UUID) (day : Date) (capacityH : Int) (reason : Option String) :
    (Repo.upsertDayOverride personId day capacityH reason).Keeps (s.AuditedBy actorId) :=
  Keeps.guarded fun _ _ h => auditedBy_of_audit h rfl

theorem upsertDays_auditedBy (personId : UUID) (capacityH : Int) (n : Nat) (day : Date) :
    (upsertDays personId capacityH n day).Keeps (s.AuditedBy actorId) := by
  induction n generalizing day with
  | zero => exact Keeps.pure _
  | succ n ih => exact (upsertDayOverride_auditedBy _ _ _ _).bind fun _ => ih (day + 1)

theorem setVacation_auditedBy (intent : VacationIntent) (isAdmin : Bool) :
    (setVacation intent actorId isAdmin).Keeps (s.AuditedBy actorId) := by
  unfold setVacation
  split
  · exact Keeps.raise _
  · refine (Keeps.ofExcept _).bind fun _ => (Keeps.read _).bind fun person => ?_
    cases person with
    | none => exact Keeps.raise _
    | some person =>
      refine (upsertDays_auditedBy _ _ _ _).bind fun _ => ?_
      exact (addAudit_auditedBy _ _ _ _).bind fun _ => Keeps.pure _

end Routes

namespace WebApp

variable {app : WebApp} {web : WebState} {r : WebRequest}

theorem requireAdmin_eq {user : Claims} (h : app.currentUser r = .ok user) :
    app.requireAdmin r = if user.isAdmin then .ok user else .error (.http 403 "Только админ.") := by
  rw [requireAdmin, h]

theorem currentUser_of_admin {user : Claims} (h : app.requireAdmin r = .ok user) :
    app.currentUser r = .ok user ∧ user.isAdmin = true := by
  unfold requireAdmin at h
  split at h
  · cases h
  · rename_i user' huser
    split at h
    · rename_i hadmin
      obtain rfl := Except.ok.inj h
      exact ⟨huser, hadmin⟩
    · cases h

/-- Only three routes touch the tables, each in the name of the session. -/
theorem handle_keeps {I : Store → Prop} (tgUserIds : List (Int × UUID))
    (hvacation : ∀ user, app.requireAdmin r = .ok user →
      ∀ intent, (setVacation intent user.actorIdFrom user.isAdmin).Keeps I)
    (hreassign : ∀ user, app.currentUser r = .ok user →
      ∀ taskId personId, (reassign user.isAdmin taskId personId user.actorIdFrom).Keeps I)
    (hedit : ∀ user, app.currentUser r = .ok user →
      ∀ taskId start end_, (editTask user.isAdmin taskId start end_ user.actorIdFrom).Keeps I) :
    (app.handle tgUserIds r).Keeps I := by
  have hroute : ∀ (location : String) (route : Bool → Option UUID → UseCase Unit),
      (∀ user, app.currentUser r = .ok user → (route user.isAdmin user.actorIdFrom).Keeps I) →
        (app.adminRoute r location route).Keeps I := by
    intro location route hkeeps
    unfold adminRoute
    split
    · exact Keeps.raise _
    · rename_i user huser
      exact (hkeeps user huser).map _
  unfold handle
  split
  · exact Keeps.pure _
  · unfold devLogin
    split
    · exact Keeps.raise _
    · exact Keeps.pure _
  · unfold loginCallback
    dsimp only
    split
    · exact Keeps.pure _
    · exact Keeps.raise _
    · split
      · exact Keeps.raise _
      · split
        · exact Keeps.raise _
        · split
          · exact Keeps.raise _
          · exact (Keeps.read _).bind fun _ => Keeps.pure _
  · exact Keeps.pure _
  · split
    · exact Keeps.raise _
    · exact Keeps.pure _
  · unfold addVacation
    split
    · exact Keeps.raise _
    · rename_i user huser
      split
      · exact Keeps.raise _
      · split
        · refine (hvacation user huser _).attempt.bind fun outcome => ?_
          split
          · exact Keeps.pure _
          · exact Keeps.pure _
          · exact Keeps.raise _
        · exact Keeps.raise _
  · exact hroute _ _ fun user huser => hreassign user huser _ _
  · exact hroute _ _ fun user huser => hedit user huser _ _ _

/-- A session that is not an admin's writes nothing. -/
theorem handle_keeps_of_error {I : Store → Prop} {e : PlannerError} (h : app.requireAdmin r = .error e)
    (tgUserIds : List (Int × UUID)) : (app.handle tgUserIds r).Keeps I := by
  have hadmin : ∀ user, app.currentUser r = .ok user → user.isAdmin = false := by
    intro user huser
    by_contra hnot
    rw [requireAdmin_eq huser, if_pos (Bool.not_eq_false _ ▸ hnot)] at h
    cases h
  refine handle_keeps tgUserIds ?_ ?_ ?_
  · intro user huser
    cases h.symm.trans huser
  · intro user huser taskId personId
    rw [hadmin user huser]
    exact Keeps.raise _
  · intro user huser taskId start end_
    rw [hadmin user huser]
    exact Keeps.raise _

/-- An admin's session writes under its own name. -/
theorem handle_auditedBy {user : Claims} (h : app.requireAdmin r = .ok user) (s : Store) (tgUserIds : List (Int × UUID)) :
    (app.handle tgUserIds r).Keeps (s.AuditedBy user.actorIdFrom) := by
  have hsame : ∀ user', app.currentUser r = .ok user' → user' = user := fun user' huser' =>
    Except.ok.inj (huser'.symm.trans (currentUser_of_admin h).1)
  refine handle_keeps tgUserIds ?_ ?_ ?_
  · intro user' huser' intent
    rw [hsame user' (currentUser_of_admin huser').1]
    exact setVacation_auditedBy intent _
  · intro user' huser' taskId personId
    rw [hsame user' huser']
    exact reassign_auditedBy _ taskId personId
  · intro user' huser' taskId start end_
    rw [hsame user' huser']
    exact editTask_auditedBy _ taskId start end_

theorem respond_ends (app : WebApp) (web : WebState) (r : WebRequest) :
    ∃ outcome, (app.handle web.tgUserIds r).Ends (fun _ => True) web.store outcome (app.respond web r).2 ∧
      (app.respond web r).1 = answer outcome :=
  ⟨_, Ends.runFaulty (fun _ _ _ => trivial) (app.handle web.tgUserIds r) 0 web.store, rfl⟩

theorem respond_writes (h : (app.respond web r).2 ≠ web.store) :
    ∃ user, app.requireAdmin r = .ok user ∧ web.store.AuditedBy user.actorIdFrom (app.respond web r).2 := by
  obtain ⟨outcome, hends, -⟩ := respond_ends app web r
  cases huser : app.requireAdmin r with
  | error e =>
    have hkeeps : (app.handle web.tgUserIds r).Keeps (· = web.store) := handle_keeps_of_error huser web.tgUserIds
    exact absurd (hkeeps.ends rfl hends) h
  | ok user =>
    have hstart : web.store.AuditedBy user.actorIdFrom web.store := ⟨[], by simp, by simp⟩
    exact ⟨user, rfl, (handle_auditedBy huser web.store web.tgUserIds).ends hstart hends⟩

theorem token?_of_error (e : PlannerError) : e.response.token? = none := by
  cases e <;> rfl

theorem token?_adminRoute {location : String} {route : Bool → Option UUID → UseCase Unit} {s s' : Store}
    {response : WebResponse} (h : (app.adminRoute r location route).Ends (fun _ => True) s (.ok response) s') :
    response.token? = none := by
  unfold adminRoute at h
  split at h
  · cases (Ends.of_raise h).1
  · obtain ⟨_, _, -, hpure⟩ := Ends.of_bind_ok h
    rw [(Ends.of_pure_ok hpure).1]
    rfl

theorem token?_addVacation {personName : String} {dayFrom dayTo : FormField Date} {capacityH : Int} {s s' : Store}
    {response : WebResponse}
    (h : (app.addVacation r personName dayFrom dayTo capacityH).Ends (fun _ => True) s (.ok response) s') :
    response.token? = none := by
  unfold addVacation at h
  split at h
  · cases (Ends.of_raise h).1
  · split at h
    · cases (Ends.of_raise h).1
    · split at h
      · obtain ⟨_, _, -, hrest⟩ := Ends.of_bind_ok h
        split at hrest
        · rw [(Ends.of_pure_ok hrest).1]
          rfl
        · rw [(Ends.of_pure_ok hrest).1]
          rfl
        · cases (Ends.of_raise hrest).1
      · cases (Ends.of_raise h).1

/-- The login that a session comes from. -/
structure Login (app : WebApp) (web : WebState) (l : WebRequest) (data : OrdDict String String) (tgId : Int) : Prop where
  callback : ∃ query, l.call = .loginCallback query ∧ data = OrdDict.ofList query
  verified : verifyTelegramLogin app.tables app.hexdigest data app.settings.botToken l.now = .ok true
  id : (data.get? "id").bind app.tables.toInt = some tgId

theorem token_of_respond (hprod : app.settings.debug = false) {token : String}
    (h : (app.respond web r).1.token? = some token) : ∃ data tgId, Login app web r data tgId ∧
      token = app.createJwt (app.claimsOf data tgId (web.personByTgId tgId)) r.now := by
  obtain ⟨outcome, hends, hanswer⟩ := respond_ends app web r
  rw [hanswer] at h
  cases outcome with
  | error e =>
    rw [answer, token?_of_error] at h
    cases h
  | ok response =>
    unfold handle at hends
    split at hends
    · rw [(Ends.of_pure_ok hends).1] at h
      cases h
    · rw [devLogin, hprod] at hends
      cases (Ends.of_raise hends).1
    · rename_i query hcall
      unfold loginCallback at hends
      dsimp only at hends
      split at hends
      · rw [(Ends.of_pure_ok hends).1] at h
        cases h
      · cases (Ends.of_raise hends).1
      · rename_i hverified
        split at hends
        · cases (Ends.of_raise hends).1
        · rename_i text htext
          split at hends
          · cases (Ends.of_raise hends).1
          · rename_i tgId htgId
            split at hends
            · cases (Ends.of_raise hends).1
            · obtain ⟨person, hperson, hpure⟩ := Ends.of_bind_read_ok hends
              rw [(Ends.of_pure_ok hpure).1, hperson] at h
              refine ⟨_, tgId, ⟨⟨query, hcall, rfl⟩, hverified, ?_⟩, (Option.some.inj h).symm⟩
              rw [htext]
              exact htgId
    · rw [(Ends.of_pure_ok hends).1] at h
      cases h
    · split at hends
      · cases (Ends.of_raise hends).1
      · rw [(Ends.of_pure_ok hends).1] at h
        cases h
    · cases (token?_addVacation hends).symm.trans h
    · cases (token?_adminRoute hends).symm.trans h
    · cases (token?_adminRoute hends).symm.trans h

@[simp] theorem actorIdFrom_claimsOf (data : OrdDict String String) (tgId : Int) (person : Option PersonRecord) :
    (app.claimsOf data tgId person).actorIdFrom = person.map PersonRecord.id := by
  cases person <;> rfl

theorem isAdmin_claimsOf {data : OrdDict String String} {tgId : Int} {person : Option PersonRecord} :
    (app.claimsOf data tgId person).isAdmin = true ↔
      person.any PersonRecord.isAdmin = true ∨ tgId ∈ app.settings.adminIds := by
  simp [claimsOf]

theorem secret_of_start (hstart : ensureSecureConfig app.settings = .ok ()) (hprod : app.settings.debug = false) :
    app.settings.jwtSecret ≠ defaultJwtSecret := by
  intro hsecret
  simp [ensureSecureConfig, hprod, hsecret] at hstart

theorem cookie_of_currentUser {user : Claims} (h : app.currentUser r = .ok user) :
    ∃ token, r.cookie = some token ∧ app.jwt.decode token app.settings.jwtSecret r.now = some user := by
  unfold currentUser at h
  split at h
  · cases h
  · rename_i claims hclaims
    obtain rfl := Except.ok.inj h
    obtain ⟨token, htoken, hdecode⟩ := Option.bind_eq_some_iff.mp hclaims
    exact ⟨token, (Option.filter_eq_some_iff.mp htoken).1, hdecode⟩

end WebApp

/-- What a run of the site may rely on. -/
structure Trusted (app : WebApp) (web₀ : WebState) (steps : List WebStep) : Prop where
  digit : app.tables.digit '=' = none
  /-- A token tells what was encoded in it until it expires. -/
  decode : ∀ claims exp now claims',
    app.jwt.decode (app.jwt.encode claims exp app.settings.jwtSecret) app.settings.jwtSecret now = some claims' →
      claims' = claims ∧ now < exp * second
  /-- Under a secret that is not public only tokens of the site decode. -/
  cookie : app.settings.jwtSecret ≠ defaultJwtSecret → ∀ pre r token claims, pre ++ [.request r] <+: steps →
    r.cookie = some token → app.jwt.decode token app.settings.jwtSecret r.now = some claims →
      ∃ pre' l, pre' ++ [.request l] <+: pre ∧ (app.respond (app.after web₀ pre') l).1.token? = some token
  /-- Only Telegram signs under the token of the bot. -/
  digest : ∀ pre r query check, pre ++ [.request r] <+: steps → r.call = .loginCallback query →
    (OrdDict.ofList query).get? "hash" = some (app.hexdigest app.settings.botToken check) →
      ∃ p, .signs p ∈ pre ∧ checkString p = check
  clean : ∀ p, .signs p ∈ steps → CleanPayload p

/-- `l` is the login of an admin: Telegram had signed his account a day before at most. -/
structure AdminLogin (app : WebApp) (web₀ : WebState) (pre : List WebStep) (l : WebRequest)
    (person : Option PersonRecord) (p : OrdDict String String) (tgId authDate : Int) : Prop where
  signed : .signs p ∈ pre
  id : (p.get? "id").bind app.tables.toInt = some tgId
  date : (p.get? "auth_date").bind app.tables.toInt = some authDate
  fresh : l.now - authDate * second ≤ authMaxAge * second
  known : person = (app.after web₀ pre).personByTgId tgId
  admin : person.any PersonRecord.isAdmin = true ∨ tgId ∈ app.settings.adminIds

section Runs

variable {app : WebApp} {web₀ : WebState} {steps : List WebStep}

theorem adminLogin_of_token (h : Trusted app web₀ steps) (hprod : app.settings.debug = false) {pre : List WebStep}
    {l : WebRequest} (hl : pre ++ [.request l] <+: steps) {token : String}
    (htoken : (app.respond (app.after web₀ pre) l).1.token? = some token) {now : Int} {user : Claims}
    (huser : app.jwt.decode token app.settings.jwtSecret now = some user) (hadmin : user.isAdmin = true) :
    ∃ person p tgId authDate, AdminLogin app web₀ pre l person p tgId authDate ∧
      now < l.now + jwtTtlHours * 3600 * second ∧ user.actorIdFrom = person.map PersonRecord.id := by
  obtain ⟨data, tgId, hlogin, rfl⟩ := WebApp.token_of_respond hprod htoken
  obtain ⟨rfl, hnow⟩ := h.decode _ _ _ _ huser
  obtain ⟨query, hcall, rfl⟩ := hlogin.callback
  obtain ⟨hhash, authDate, hdate, hfresh⟩ := verifyTelegramLogin_true hlogin.verified
  obtain ⟨p, hp, hcheck⟩ := h.digest pre l query _ hl hcall hhash
  have hclean := h.clean p (hl.subset (List.mem_append_left _ hp))
  refine ⟨_, p, tgId, authDate, ⟨hp, ?_, ?_, hfresh, rfl, WebApp.isAdmin_claimsOf.mp hadmin⟩, ?_, by simp⟩
  · exact number_signed h.digit hclean hcheck.symm (by decide) (by decide) hlogin.id
  · exact number_signed h.digit hclean hcheck.symm (by decide) (by decide) hdate
  · simp only [second, jwtTtlHours] at hnow ⊢
    omega

end Runs

def annToken : String :=
  "eyJhbGciOiJIUzI1NiIsInR5cCI6IkpXVCJ9.eyJzdWIiOiIwMDAwMDAwMC0wMDAwLTAwMDAtMDAwMC0wMDAwMDAwM" ++
    "DAwMDEiLCJuYW1lIjoiQW5uIiwidGdfaWQiOjQyLCJpc19hZG1pbiI6dHJ1ZSwiZXhwIjoxNzAwMDQzNTAwfQ.BF6e" ++
    "Qkh4aiKAc1_EDG8yZEOicOrMJO7zOGXGqGNcEKQ"

def annClaims : Claims := ⟨.person 1, "Ann", 42, true⟩

/-- Knows one token; no other is asked for. -/
def annJwt : Jwt where
  encode claims exp secret :=
    if claims = annClaims ∧ exp = 1700043500 ∧ secret = "a-strong-secret" then annToken else ""
  decode token secret now :=
    if token = annToken ∧ secret = "a-strong-secret" ∧ now < 1700043500 * second then some annClaims else none

def annSite : WebApp := ⟨.plain, ⟨widgetToken, "a-strong-secret", [], false⟩, widgetDigest, annJwt⟩

def annTables : WebState := ⟨{ people := .ofList [(1, { name := "Ann", isAdmin := true })] }, [(42, 1)]⟩

def annLogin : WebRequest := { now := 1700000300 * second, call := .loginCallback widgetQuery.entries }

def annEdit : WebRequest :=
  { now := 1700003900 * second, cookie := some annToken, call := .editTask 7 (.value 739000) .blank }

def annRun : List WebStep := [.signs widgetPayload, .request annLogin, .request annEdit]

theorem annLogin_token : (annSite.respond annTables annLogin).1.token? = some annToken := by decide +kernel

theorem annRun_request {pre : List WebStep} {r : WebRequest} (h : pre ++ [.request r] <+: annRun) :
    pre = [.signs widgetPayload] ∧ r = annLogin ∨
      pre = [.signs widgetPayload, .request annLogin] ∧ r = annEdit := by
  rcases pre with _ | ⟨a, _ | ⟨b, _ | ⟨c, pre⟩⟩⟩
  · simp [annRun] at h
  · simp [annRun] at h
    exact Or.inl ⟨by rw [h.1], h.2⟩
  · simp [annRun] at h
    exact Or.inr ⟨by rw [h.1, h.2.1], h.2.2⟩
  · simp [annRun] at h

theorem annRun_trusted : Trusted annSite annTables annRun where
  digit := by decide
  decode := by
    intro claims exp now claims' h
    simp only [annSite, annJwt] at h
    split at h
    · rename_i hclaims
      split at h
      · rename_i hnow
        rw [hclaims.1, hclaims.2.1]
        exact ⟨(Option.some.inj h).symm, hnow.2.2⟩
      · cases h
    · rw [if_neg fun hempty => absurd hempty.1 (by decide)] at h
      cases h
  cookie := by
    intro _ pre r token claims hr hcookie _
    rcases annRun_request hr with ⟨rfl, rfl⟩ | ⟨rfl, rfl⟩
    · cases hcookie
    · obtain rfl := Option.some.inj hcookie
      exact ⟨[.signs widgetPayload], annLogin, List.prefix_rfl, annLogin_token⟩
  digest := by
    intro pre r query check hr hcall hhash
    rcases annRun_request hr with ⟨rfl, rfl⟩ | ⟨rfl, rfl⟩
    · obtain rfl := WebCall.loginCallback.inj hcall
      have hsame : (OrdDict.ofList widgetQuery.entries).get? "hash" = widgetQuery.get? "hash" := by decide
      exact ⟨widgetPayload, by simp, widgetDigest_signed check (hsame.symm.trans hhash)⟩
    · cases hcall
  clean := by
    intro p hp
    simp only [annRun, List.mem_cons, WebStep.signs.injEq, List.not_mem_nil, or_false, reduceCtorEq] at hp
    exact hp ▸ widgetPayload_clean

end Planner
