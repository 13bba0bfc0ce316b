import Planner.Lib.Trace
import Planner.LoginWidget
import Planner.Updates

/-! The sessions of the admin site. A session is a signed cookie that says who has
logged in and whether as an admin; a request to write is answered on its word alone. -/

namespace Planner

def jwtTtlHours : Int := 12

/-- The text in `sub`; only that of a person reads as a UUID. -/
inductive Subject
  | dev
  | person (id : UUID)
  | telegram (tgId : Int)
  deriving DecidableEq, Repr

structure Claims where
  sub : Subject
  name : String
  tgId : Int
  isAdmin : Bool
  deriving DecidableEq, Repr

/-- `jwt.encode` of claims that expire at a whole second, and `jwt.decode` at a time. -/
structure Jwt where
  encode : Claims → Int → String → String
  decode : String → String → Int → Option Claims

def defaultJwtSecret : String := "dev-insecure-change-me"

structure WebSettings where
  botToken : String
  jwtSecret : String
  adminIds : List Int
  debug : Bool

/-- The process does not start otherwise. -/
def ensureSecureConfig (settings : WebSettings) : Except String Unit :=
  if !settings.debug && settings.jwtSecret == defaultJwtSecret then
    .error "JWT_SECRET is the insecure default. Set a strong JWT_SECRET"
  else .ok ()

/-- The application: its settings, and what it takes from libraries. -/
structure WebApp where
  tables : CharTables
  settings : WebSettings
  hexdigest : String → String → String
  jwt : Jwt

inductive CookieChange
  | keep
  | set (token : String) (secure : Bool)
  | delete
  deriving DecidableEq, Repr

inductive WebResponse
  | page
  | redirect (location : String) (cookie : CookieChange := .keep)
  | failed (status : Nat) (detail : String)
  deriving DecidableEq, Repr

/-- The session a response hands out. -/
def WebResponse.token? : WebResponse → Option String
  | .redirect _ (.set token _) => some token
  | _ => none

/-- `view` is any page behind the login; pages only read. -/
inductive WebCall
  | login
  | devLogin (clientHost : Option String)
  | loginCallback (query : List (String × String))
  | logout
  | view
  | addVacation (personName : String) (dayFrom dayTo : FormField Date) (capacityH : Int)
  | reassign (taskId personId : FormField UUID)
  | editTask (taskId : UUID) (start end_ : FormField Date)

/-- `fail` when the database does not answer. -/
structure WebRequest where
  now : Int
  cookie : Option String := none
  call : WebCall
  fail : Nat → Bool := fun _ => false

/-- The tables, and the column `people.tg_user_id`. -/
structure WebState where
  store : Store
  tgUserIds : List (Int × UUID)

def WebState.personByTgId (web : WebState) (tgId : Int) : Option PersonRecord :=
  (web.tgUserIds.lookup tgId).bind fun id => (web.store.people.get? id).map (PersonRow.record id)

/-- `actor_id_from`. -/
def Claims.actorIdFrom (user : Claims) : Option UUID :=
  match user.sub with
  | .person id => some id
  | _ => none

/-- The exception handlers of the application. -/
def PlannerError.response : PlannerError → WebResponse
  | .http status detail => .failed status detail
  | .permission _ => .failed 403 "Только админ может править план."
  | .planNotFound _ => .failed 404 "Не нашёл такой план."
  | .personNotFound _ => .failed 404 "Не нашёл такого человека в команде."
  | .planNotProposed _ => .failed 409 "Этот план уже зафиксирован."
  | .value | .invalidVacation _ | .invalidProject _ | .invalidStatus _ =>
    .failed 400 "Некорректные данные в запросе."
  | .solver _ | .key | .overflow | .integrity | .unavailable => .failed 500 "Internal Server Error"

def answer : Except PlannerError WebResponse → WebResponse
  | .ok response => response
  | .error e => e.response

def loopbackHosts : List String := ["127.0.0.1", "::1", "localhost"]

namespace WebApp

variable (app : WebApp)

def createJwt (claims : Claims) (now : Int) : String :=
  app.jwt.encode claims (now / second + jwtTtlHours * 3600) app.settings.jwtSecret

/-- `current_user`: an empty cookie is none. -/
def currentUser (r : WebRequest) : Except PlannerError Claims :=
  match (r.cookie.filter fun token => token ≠ "").bind fun token => app.jwt.decode token app.settings.jwtSecret r.now with
  | none => .error (.http 401 "Не авторизован.")
  | some claims => .ok claims

def requireAdmin (r : WebRequest) : Except PlannerError Claims :=
  match app.currentUser r with
  | .error e => .error e
  | .ok user => if user.isAdmin then .ok user else .error (.http 403 "Только админ.")

def setSessionCookie (claims : Claims) (now : Int) : WebResponse :=
  .redirect "/plan" (.set (app.createJwt claims now) (!app.settings.debug))

def devLogin (now : Int) (clientHost : Option String) : UseCase WebResponse :=
  if !app.settings.debug || !loopbackHosts.contains (clientHost.getD "") then .raise (.http 404 "Not found.")
  else pure (app.setSessionCookie ⟨.dev, "Dev Admin", 0, true⟩ now)

/-- The session of an account: a person's, if the team knows it. -/
def claimsOf (data : OrdDict String String) (tgId : Int) (person : Option PersonRecord) : Claims where
  sub := (person.map fun p => Subject.person p.id).getD (.telegram tgId)
  name := (person.map PersonRecord.name).getD (data.getD "first_name" "—")
  tgId := tgId
  isAdmin := person.any PersonRecord.isAdmin || app.settings.adminIds.contains tgId

def loginCallback (tgUserIds : List (Int × UUID)) (now : Int) (query : List (String × String)) : UseCase WebResponse :=
  let data := OrdDict.ofList query
  match verifyTelegramLogin app.tables app.hexdigest data app.settings.botToken now with
  | .error _ => pure (.failed 500 "Internal Server Error")
  | .ok false => .raise (.http 401 "Подпись недействительна.")
  | .ok true =>
    match data.get? "id" with
    | none => .raise .key
    | some text =>
      match app.tables.toInt text with
      | none => .raise .value
      | some tgId =>
        -- the column is a `bigint`
        if ¬ (-2 ^ 63 ≤ tgId ∧ tgId < 2 ^ 63) then .raise .overflow
        else do
          let person ← Repo.getPersonByTgId ⟨app.settings.adminIds, none, tgUserIds⟩ tgId
          pure (app.setSessionCookie (app.claimsOf data tgId person) now)

/-- `POST /team/vacation`. The form is checked after the session. -/
def addVacation (r : WebRequest) (personName : String) (dayFrom dayTo : FormField Date) (capacityH : Int) :
    UseCase WebResponse :=
  match app.requireAdmin r with
  | .error e => .raise e
  | .ok user =>
    if personName = "" ∨ dayFrom = .blank ∨ dayTo = .blank ∨ ¬ (minCapacityH ≤ capacityH ∧ capacityH ≤ maxCapacityH) then
      .raise (.http 422 "")
    else
      match dayFrom, dayTo with
      | .value dayFrom, .value dayTo => do
        match ← (setVacation ⟨personName, dayFrom, dayTo, capacityH⟩ user.actorIdFrom user.isAdmin).attempt with
        | .ok _ => pure (.redirect "/team")
        | .error (.invalidVacation text) => pure (.failed 400 text)
        | .error e => .raise e
      | _, _ => .raise .value

/-- The routes that write a task ask for the admin themselves. -/
def adminRoute (r : WebRequest) (location : String) (route : Bool → Option UUID → UseCase Unit) : UseCase WebResponse :=
  match app.currentUser r with
  | .error e => .raise e
  | .ok user => (fun _ => WebResponse.redirect location) <$> route user.isAdmin user.actorIdFrom

def handle (tgUserIds : List (Int × UUID)) (r : WebRequest) : UseCase WebResponse :=
  match r.call with
  | .login => pure .page
  | .devLogin clientHost => app.devLogin r.now clientHost
  | .loginCallback query => app.loginCallback tgUserIds r.now query
  | .logout => pure (.redirect "/login" .delete)
  | .view =>
    match app.currentUser r with
    | .error e => .raise e
    | .ok _ => pure .page
  | .addVacation personName dayFrom dayTo capacityH => app.addVacation r personName dayFrom dayTo capacityH
  | .reassign taskId personId => app.adminRoute r "/schedule" fun isAdmin actorId => reassign isAdmin taskId personId actorId
  | .editTask taskId start end_ => app.adminRoute r "/plan" fun isAdmin actorId => editTask isAdmin taskId start end_ actorId

def respond (web : WebState) (r : WebRequest) : WebResponse × Store :=
  let (outcome, _, store) := (app.handle web.tgUserIds r).runFaulty (outage r.fail) 0 web.store
  (answer outcome, store)

end WebApp

/-- What happens around the site. The bot and the operators change the tables as they like. -/
inductive WebStep
  | request (r : WebRequest)
  /-- Telegram signs the fields of an account for its owner. -/
  | signs (payload : OrdDict String String)
  | elsewhere (web : WebState)

namespace WebApp

variable (app : WebApp)

def step (web : WebState) : WebStep → WebState
  | .request r => { web with store := (app.respond web r).2 }
  | .signs _ => web
  | .elsewhere web' => web'

def after (web : WebState) (steps : List WebStep) : WebState := Trace.after app.step web steps

end WebApp

end Planner
