import Mathlib.Data.List.Dedup
import Nvbmc.AsyncRpc.JsonText
import Nvbmc.HashServ.Unification
import Nvbmc.Library.Dict
import Nvbmc.Library.Folding

/-!
# Users of a hash equivalence server

The messages that log a connection in or change the table of users, and the
decorator that decides who may send them.  A new token is awaited between the
decision and the change of the table, and other connections go on meanwhile.

Random tokens and salts are part of the action that goes on with a message.
-/

namespace Nvbmc.HashServ.Users

open Nvbmc.AsyncRpc Nvbmc.Library

def nonePerm : PyStr := codes "@none"
def readPerm : PyStr := codes "@read"
def reportPerm : PyStr := codes "@report"
def dbAdminPerm : PyStr := codes "@db-admin"
def userAdminPerm : PyStr := codes "@user-admin"
def allPerm : PyStr := codes "@all"

def allPermissions : List PyStr :=
  [readPerm, reportPerm, dbAdminPerm, userAdminPerm, allPerm]

def tokenAlgorithm : PyStr := codes "sha256"

/-- A user with its permissions at the time of the login. -/
structure User where
  username : PyStr
  permissions : List PyStr
deriving DecidableEq

/-- A row of the table `users`; the permissions are the words of its column. -/
structure Account where
  token : PyStr
  permissions : List PyStr
deriving DecidableEq

/-- The server's configuration, and what it takes from Python. -/
structure Config where
  anonPerms : List PyStr
  readOnly : Bool
  /-- `str` of a value that is no string. -/
  repr : Json → PyStr
  /-- `hexdigest` of an algorithm, when there is one of that name, for a salt
  and a token. -/
  hexdigest : PyStr → PyStr → PyStr → Option PyStr

/-- What a handler raises. -/
inductive Failure where
  | invokeError (message : PyStr)
  | exception

def orRaise {α : Type} (value : Option α) (failure : Failure) :
    Except Failure α :=
  value.elim (.error failure) .ok

/-- `sorted` of strings. -/
def sorted (texts : List PyStr) : List PyStr :=
  texts.mergeSort (· ≤ ·)

/-- `str.join`. -/
def join (separator : PyStr) (texts : List PyStr) : PyStr :=
  (texts.intersperse separator).flatten

namespace Config

variable (config : Config)

/-- `hash_token`. -/
def hashToken (algo salt token : PyStr) : Option PyStr :=
  (config.hexdigest algo salt token).map fun digest =>
    join (codes ":") [algo, salt, digest]

def str : Json → PyStr
  | .str value => value
  | value => config.repr value

/-- `request[key]`. -/
def field (request : Json) (key : String) : Except Failure Json :=
  match request with
  | .dict items =>
      match Dict.get? items (codes key) with
      | some value => .ok value
      | none => .error .exception
  | _ => .error .exception

/-- `str(request["username"])`. -/
def username (request : Json) : Except Failure PyStr :=
  (field request "username").map config.str

/-- `user_has_permissions`. -/
def userHasPermissions (user : Option User) (required : List PyStr)
    (allowAnon : Bool) : Bool :=
  (allowAnon && (allPerm ∈ config.anonPerms ||
      required.all (· ∈ config.anonPerms))) ||
    match user with
    | none => false
    | some user =>
        allPerm ∈ user.permissions || required.all (· ∈ user.permissions)

def denied (user : Option User) (required : List PyStr) : Failure :=
  .invokeError ((user.elim (codes "Anonymous user") (·.username)) ++
    codes " is not allowed to access permissions(s) " ++
    join (codes ", ") required)

def isStr : Json → PyStr → Bool
  | .str value, text => value = text
  | _, _ => false

/-- The decorator `permissions`: the request the handler gets. -/
def permissions (user : Option User) (required : List PyStr)
    (allowAnon allowSelfService : Bool) (request : Json) :
    Except Failure Json :=
  let ordinary :=
    if config.userHasPermissions user required allowAnon then .ok request
    else .error (denied user required)
  match allowSelfService, user with
  | true, some user =>
      match request with
      | .dict items =>
          let name := (Dict.get? items (codes "username")).getD
            (.str user.username)
          if isStr name user.username then
            .ok (.dict (Dict.set items (codes "username") (.str user.username)))
          else ordinary
      | _ => .error .exception
  | _, _ => ordinary

/-- `get_perm_arg`.  A value that is no string is either unhashable or an
unknown permission that cannot be joined. -/
def getPermArg (arg : Json) : Except Failure (List PyStr) :=
  match arg with
  | .list items =>
      if items.all fun item => item matches .str _ then
        let perms := (items.map config.str).dedup.filter (· ≠ nonePerm)
        let unknown := perms.filter (· ∉ allPermissions)
        if unknown ≠ [] then
          .error (.invokeError (codes "Unknown permissions " ++
            join (codes ", ") (sorted unknown)))
        else .ok (sorted perms)
      else .error .exception
  | _ => .error (.invokeError (codes "Unexpected type for permissions"))

end Config

/-- `return_perms`. -/
def returnPerms (permissions : List PyStr) : Json :=
  .list ((if allPerm ∈ permissions then sorted allPermissions
    else sorted permissions).map .str)

def noUserError (username : PyStr) : Failure :=
  .invokeError (codes "No user named '" ++ username ++ codes "' exists")

def userAnswer (username : PyStr) (permissions : Json) :
    List (PyStr × Json) :=
  [(codes "username", .str username), (codes "permissions", permissions)]

abbrev Accounts := Dict PyStr Account

/-- `lookup_user`. -/
def lookupUser (users : Accounts) (username : PyStr) : Option User :=
  (users.get? username).map fun account => ⟨username, account.permissions⟩

/-- The handlers of messages, with one constructor for those that neither log in
nor look at the table of users. -/
inductive Handler where
  | auth
  | getUser
  | getAllUsers
  | becomeUser
  | refreshToken
  | setPerms
  | newUser
  | deleteUser
  | other
deriving DecidableEq

/-- The handlers of every server, in the order of their registration. -/
def readHandlers : List (PyStr × Handler) :=
  [(codes "ping", .other), (codes "get", .other), (codes "get-outhash", .other),
    (codes "get-stream", .other), (codes "exists-stream", .other),
    (codes "get-stats", .other), (codes "get-db-usage", .other),
    (codes "get-db-query-columns", .other), (codes "report", .other),
    (codes "auth", .auth), (codes "get-user", .getUser),
    (codes "get-all-users", .getAllUsers),
    (codes "become-user", .becomeUser)]

def writeHandlers : List (PyStr × Handler) :=
  [(codes "report-equiv", .other), (codes "reset-stats", .other),
    (codes "backfill-wait", .other), (codes "remove", .other),
    (codes "gc-mark", .other), (codes "gc-mark-stream", .other),
    (codes "gc-sweep", .other), (codes "gc-status", .other),
    (codes "clean-unused", .other), (codes "refresh-token", .refreshToken),
    (codes "set-user-perms", .setPerms), (codes "new-user", .newUser),
    (codes "delete-user", .deleteUser)]

/-- `self.handlers`. -/
def handlers (readOnly : Bool) : List (PyStr × Handler) :=
  if readOnly then readHandlers else readHandlers ++ writeHandlers

/-- `dispatch_message`: the handler of a message and its request. -/
def dispatch (readOnly : Bool) (message : Json) : Option (Handler × Json) :=
  match message with
  | .dict items =>
      (handlers readOnly).findSome? fun handler =>
        (Dict.get? items handler.1).map fun request => (handler.2, request)
  | _ => none

/-- A handler that waits for a new token. -/
inductive Waiting where
  | refreshToken (username : PyStr)
  | newUser (username : PyStr) (permissions : List PyStr)
deriving DecidableEq

/-- How far a handler comes without waiting. -/
inductive Outcome where
  | returns (users : Accounts) (user : Option User) (answer : Json)
  | waits (waiting : Waiting)
  /-- The handler is none of this module's. -/
  | elsewhere

namespace Config

variable (config : Config)

def tokenParts (token : PyStr) : Option (PyStr × PyStr) :=
  match token.splitOn 58 with
  | [algo, salt, _] => some (algo, salt)
  | _ => none

/-- `handle_auth`. -/
def handleAuth (users : Accounts) (request : Json) : Except Failure Outcome :=
  do
  let username ← config.username request
  let token ← (field request "token").map config.str
  let failed := Failure.invokeError
    (codes "Unable to authenticate as " ++ username)
  let account ← orRaise (users.get? username) failed
  let parts ← orRaise (tokenParts account.token) failed
  let hash ← orRaise (config.hashToken parts.1 parts.2 token) .exception
  if hash ≠ account.token then .error failed
  else
    let answer := (codes "result", .bool true) ::
      userAnswer username (.list ((sorted account.permissions).map .str))
    .ok (.returns users (some ⟨username, account.permissions⟩) (.dict answer))

/-- `handle_get_user`. -/
def handleGetUser (users : Accounts) (user : Option User) (request : Json) :
    Except Failure Outcome := do
  let request ← config.permissions user [userAdminPerm] false true request
  let username ← config.username request
  let answer := (lookupUser users username).elim .null fun found =>
    .dict (userAnswer found.username (returnPerms found.permissions))
  .ok (.returns users user answer)

/-- `handle_get_all_users`. -/
def handleGetAllUsers (users : Accounts) (user : Option User) (request : Json) :
    Except Failure Outcome := do
  let _ ← config.permissions user [userAdminPerm] false false request
  let answers := users.map fun row =>
    .dict (userAnswer row.1 (returnPerms row.2.permissions))
  .ok (.returns users user (.dict [(codes "users", .list answers)]))

/-- `handle_become_user`. -/
def handleBecomeUser (users : Accounts) (user : Option User) (request : Json) :
    Except Failure Outcome := do
  let request ← config.permissions user [userAdminPerm] false false request
  let username ← config.username request
  let found ← orRaise (lookupUser users username)
    (.invokeError (codes "User " ++ username ++ codes " doesn't exist"))
  .ok (.returns users (some found)
    (.dict (userAnswer found.username (returnPerms found.permissions))))

/-- `handle_refresh_token` up to the new token. -/
def handleRefreshToken (user : Option User) (request : Json) :
    Except Failure Outcome := do
  let request ← config.permissions user [userAdminPerm] false true request
  let username ← config.username request
  .ok (.waits (.refreshToken username))

/-- `handle_set_perms`. -/
def handleSetPerms (users : Accounts) (user : Option User) (request : Json) :
    Except Failure Outcome := do
  let request ← config.permissions user [userAdminPerm] false false request
  let username ← config.username request
  let permissions ← config.getPermArg (← field request "permissions")
  let account ← orRaise (users.get? username) (noUserError username)
  .ok (.returns (users.set username { account with permissions := permissions })
    user (.dict (userAnswer username (returnPerms permissions))))

/-- `handle_new_user` up to the new token. -/
def handleNewUser (user : Option User) (request : Json) :
    Except Failure Outcome := do
  let request ← config.permissions user [userAdminPerm] false false request
  let username ← config.username request
  let permissions ← config.getPermArg (← field request "permissions")
  .ok (.waits (.newUser username permissions))

/-- `handle_delete_user`. -/
def handleDeleteUser (users : Accounts) (user : Option User) (request : Json) :
    Except Failure Outcome := do
  let request ← config.permissions user [userAdminPerm] false true request
  let username ← config.username request
  if users.contains username then
    .ok (.returns (users.del username) user
      (.dict [(codes "username", .str username)]))
  else .error (noUserError username)

def handle (users : Accounts) (user : Option User) (request : Json) :
    Handler → Except Failure Outcome
  | .auth => config.handleAuth users request
  | .getUser => config.handleGetUser users user request
  | .getAllUsers => config.handleGetAllUsers users user request
  | .becomeUser => config.handleBecomeUser users user request
  | .refreshToken => config.handleRefreshToken user request
  | .setPerms => config.handleSetPerms users user request
  | .newUser => config.handleNewUser user request
  | .deleteUser => config.handleDeleteUser users user request
  | .other => .ok .elsewhere

/-- What follows when there is a new token. -/
def goOn (users : Accounts) (token salt : PyStr) (waiting : Waiting) :
    Except Failure (Accounts × Json) := do
  let hash ← orRaise (config.hashToken tokenAlgorithm salt token) .exception
  match waiting with
  | .refreshToken username =>
      let account ← orRaise (users.get? username) (noUserError username)
      .ok (users.set username { account with token := hash },
        .dict [(codes "username", .str username), (codes "token", .str token)])
  | .newUser username permissions =>
      if users.contains username then
        .error (.invokeError
          (codes "Cannot create new user '" ++ username ++ codes "'"))
      else
        .ok (users.set username ⟨hash, permissions⟩,
          .dict (userAnswer username (returnPerms permissions) ++
            [(codes "token", .str token)]))

end Config

structure Connection where
  user : Option User
  waiting : Option Waiting
  /-- An error ends a connection. -/
  closed : Bool

def Connection.anonymous : Connection := ⟨none, none, false⟩

structure State (Conn : Type) where
  users : Accounts
  connections : Conn → Connection

inductive Action (Conn : Type) where
  | receive (conn : Conn) (message : Json)
  | goOn (conn : Conn) (token salt : PyStr)

/-- The connection whose handler runs. -/
def Action.conn {Conn : Type} : Action Conn → Conn
  | .receive conn _ => conn
  | .goOn conn _ _ => conn

section Steps

variable {Conn : Type} [DecidableEq Conn]

def State.initial (users : Accounts) : State Conn :=
  ⟨users, fun _ => .anonymous⟩

def State.set (s : State Conn) (conn : Conn) (connection : Connection) :
    State Conn :=
  { s with connections := Function.update s.connections conn connection }

/-- An error ends the connection. -/
def State.close (s : State Conn) (conn : Conn) : State Conn :=
  s.set conn { s.connections conn with waiting := none, closed := true }

def step (config : Config) (s : State Conn) : Action Conn → State Conn
  | .receive conn message =>
      let connection := s.connections conn
      if connection.closed ∨ connection.waiting.isSome then s
      else
        match dispatch config.readOnly message with
        | none => s.close conn
        | some (handler, request) =>
            match config.handle s.users connection.user request handler with
            | .error _ => s.close conn
            | .ok (.returns users user _) =>
                { s.set conn { connection with user := user } with
                  users := users }
            | .ok (.waits waiting) =>
                s.set conn { connection with waiting := some waiting }
            | .ok .elsewhere => s
  | .goOn conn token salt =>
      let connection := s.connections conn
      match connection.waiting with
      | none => s
      | some waiting =>
          match config.goOn s.users token salt waiting with
          | .error _ => s.close conn
          | .ok (users, _) =>
              { s.set conn { connection with waiting := none } with
                users := users }

/-- The server after some actions, with all connections anonymous before. -/
def run (config : Config) (users : Accounts) (actions : List (Action Conn)) :
    State Conn :=
  actions.foldl (step config) (.initial users)

end Steps

def Elevated (user : Option User) : Prop :=
  ∃ admin, user = some admin ∧
    (userAdminPerm ∈ admin.permissions ∨ allPerm ∈ admin.permissions)

/-- The request has a token whose hash is stored for the user. -/
def Authenticates (config : Config) (users : Accounts) (request : Json)
    (user : Option User) : Prop :=
  ∃ username token account algo salt,
    config.username request = .ok username ∧
      (Config.field request "token").map config.str = .ok token ∧
      users.get? username = some account ∧
      config.hashToken algo salt token = some account.token ∧
      user = some ⟨username, account.permissions⟩

/-- What a handler that waits for a token may do: administer users, or give the
connection's own user a new token. -/
def Waiting.Authorised (user : Option User) (waiting : Waiting) : Prop :=
  Elevated user ∨ ∃ self, user = some self ∧
    waiting = .refreshToken self.username

section Handlers

variable {config : Config} {users users' : Accounts} {user user' : Option User}
  {request request' answer : Json}

theorem orRaise_eq_ok {α : Type} {value : Option α} {failure : Failure}
    {result : α} : orRaise value failure = .ok result ↔
      value = some result := by
  cases value <;> simp [orRaise]

theorem userHasPermissions_userAdmin :
    config.userHasPermissions user [userAdminPerm] false = true ↔
      Elevated user := by
  cases user with
  | none => simp [Config.userHasPermissions, Elevated]
  | some user => 
      simp [Config.userHasPermissions, Elevated, or_comm]

theorem permissions_elevated
    (permitted : config.permissions user [userAdminPerm] false false request =
      .ok request') : Elevated user := by
  simp only [Config.permissions] at permitted
  split_ifs at permitted with has
  exact userHasPermissions_userAdmin.mp has

theorem permissions_selfService
    (permitted : config.permissions user [userAdminPerm] false true request =
      .ok request') :
    Elevated user ∨
      ∃ self, user = some self ∧
        config.username request' = .ok self.username := by
  cases user with
  | none =>
      simp only [Config.permissions] at permitted
      split_ifs at permitted with has
      exact .inl (userHasPermissions_userAdmin.mp has)
  | some self =>
      simp only [Config.permissions] at permitted
      split at permitted
      · split_ifs at permitted with own has
        · cases permitted
          refine .inr ⟨self, rfl, ?_⟩
          simp [Config.username, Config.field, Config.str, Except.map]
        · exact .inl (userHasPermissions_userAdmin.mp has)
      · cases permitted

/-- What a handler may change without waiting. -/
structure Permitted (config : Config) (users : Accounts) (user : Option User)
    (request : Json) (handler : Handler) (users' : Accounts)
    (user' : Option User) : Prop where
  session : user' = user ∨
    handler = .auth ∧ Authenticates config users request user' ∨
    handler = .becomeUser ∧ Elevated user
  table : users' = users ∨ Elevated user ∨ handler = .deleteUser ∧
    ∃ self, user = some self ∧ users' = users.del self.username

/-- What a handler may change or wait for. -/
def Outcome.Allowed (config : Config) (users : Accounts) (user : Option User)
    (request : Json) (handler : Handler) : Outcome → Prop
  | .returns users' user' _ =>
      Permitted config users user request handler users' user'
  | .waits waiting => waiting.Authorised user
  | .elsewhere => True

theorem handle_allowed {handler : Handler} {outcome : Outcome}
    (handled : config.handle users user request handler = .ok outcome) :
    outcome.Allowed config users user request handler := by
  cases handler with
  | auth =>
      obtain ⟨username, named, handled⟩ := bind_eq_ok.mp handled
      obtain ⟨token, given, handled⟩ := bind_eq_ok.mp handled
      obtain ⟨account, found, handled⟩ := bind_eq_ok.mp handled
      obtain ⟨parts, _, handled⟩ := bind_eq_ok.mp handled
      obtain ⟨hash, hashed, handled⟩ := bind_eq_ok.mp handled
      rw [orRaise_eq_ok] at found hashed
      split_ifs at handled with same
      rw [not_not] at same
      subst same
      cases handled
      exact ⟨.inr (.inl ⟨rfl, username, token, account, parts.1, parts.2, named,
        given, found, hashed, rfl⟩), .inl rfl⟩
  | getUser =>
      obtain ⟨_, _, handled⟩ := bind_eq_ok.mp handled
      obtain ⟨_, _, handled⟩ := bind_eq_ok.mp handled
      cases handled
      exact ⟨.inl rfl, .inl rfl⟩
  | getAllUsers =>
      obtain ⟨_, _, handled⟩ := bind_eq_ok.mp handled
      cases handled
      exact ⟨.inl rfl, .inl rfl⟩
  | becomeUser =>
      obtain ⟨_, permitted, handled⟩ := bind_eq_ok.mp handled
      obtain ⟨_, _, handled⟩ := bind_eq_ok.mp handled
      obtain ⟨_, _, handled⟩ := bind_eq_ok.mp handled
      cases handled
      exact ⟨.inr (.inr ⟨rfl, permissions_elevated permitted⟩), .inl rfl⟩
  | refreshToken =>
      obtain ⟨_, permitted, handled⟩ := bind_eq_ok.mp handled
      obtain ⟨username, named, handled⟩ := bind_eq_ok.mp handled
      cases handled
      refine (permissions_selfService permitted).imp_right ?_
      rintro ⟨self, logged, own⟩
      cases own.symm.trans named
      exact ⟨self, logged, rfl⟩
  | setPerms =>
      obtain ⟨_, permitted, handled⟩ := bind_eq_ok.mp handled
      obtain ⟨_, _, handled⟩ := bind_eq_ok.mp handled
      obtain ⟨_, _, handled⟩ := bind_eq_ok.mp handled
      obtain ⟨_, _, handled⟩ := bind_eq_ok.mp handled
      obtain ⟨_, _, handled⟩ := bind_eq_ok.mp handled
      cases handled
      exact ⟨.inl rfl, .inr (.inl (permissions_elevated permitted))⟩
  | newUser =>
      obtain ⟨_, permitted, handled⟩ := bind_eq_ok.mp handled
      obtain ⟨_, _, handled⟩ := bind_eq_ok.mp handled
      obtain ⟨_, _, handled⟩ := bind_eq_ok.mp handled
      obtain ⟨_, _, handled⟩ := bind_eq_ok.mp handled
      cases handled
      exact .inl (permissions_elevated permitted)
  | deleteUser =>
      obtain ⟨_, permitted, handled⟩ := bind_eq_ok.mp handled
      obtain ⟨username, named, handled⟩ := bind_eq_ok.mp handled
      split_ifs at handled
      cases handled
      refine ⟨.inl rfl, .inr ((permissions_selfService permitted).imp_right ?_)⟩
      rintro ⟨self, logged, own⟩
      cases own.symm.trans named
      exact ⟨rfl, self, logged, rfl⟩
  | other =>
      cases handled
      trivial

theorem goOn_table {token salt : PyStr} {waiting : Waiting}
    (authorised : waiting.Authorised user)
    (gone : config.goOn users token salt waiting = .ok (users', answer)) :
    Elevated user ∨ ∃ self, user = some self ∧
      waiting = .refreshToken self.username ∧
      ∀ other ≠ self.username, users'.get? other = users.get? other := by
  refine authorised.imp_right ?_
  rintro ⟨self, logged, rfl⟩
  refine ⟨self, logged, rfl, fun other foreign => ?_⟩
  obtain ⟨_, _, gone⟩ := bind_eq_ok.mp gone
  obtain ⟨_, _, gone⟩ := bind_eq_ok.mp gone
  cases gone
  exact Dict.get?_set_of_ne _ _ foreign

end Handlers

section Runs

variable {Conn : Type} [DecidableEq Conn]

/-- The action comes from a request of the user with the name about itself, to
delete it or to give it a new token. -/
def SelfService (config : Config) (s : State Conn) (action : Action Conn)
    (username : PyStr) : Prop :=
  match action with
  | .receive _ message =>
      ∃ request, dispatch config.readOnly message = some (.deleteUser, request)
  | .goOn conn _ _ =>
      (s.connections conn).waiting = some (.refreshToken username)

/-- A step changes the user of a connection only by a login or for an
administrator, and the table only for an administrator, or in the row of the
user of the connection. -/
structure Guarded (config : Config) (s : State Conn) (action : Action Conn) :
    Prop where
  session : ∀ conn,
    ((step config s action).connections conn).user ≠ (s.connections conn).user →
    ∃ message handler request, action = .receive conn message ∧
      dispatch config.readOnly message = some (handler, request) ∧
      (handler = .auth ∧ Authenticates config s.users request
          ((step config s action).connections conn).user ∨
        handler = .becomeUser ∧ Elevated (s.connections conn).user)
  table : (step config s action).users ≠ s.users →
    Elevated (s.connections action.conn).user ∨
      ∃ self, (s.connections action.conn).user = some self ∧
        SelfService config s action self.username ∧
        ∀ other ≠ self.username,
          (step config s action).users.get? other = s.users.get? other

def Authorised (s : State Conn) : Prop :=
  ∀ conn, ∀ waiting ∈ (s.connections conn).waiting,
    waiting.Authorised (s.connections conn).user

variable {config : Config} {s : State Conn} {connection : Connection}

theorem Authorised.set (authorised : Authorised s) {conn : Conn}
    (own : ∀ waiting ∈ connection.waiting,
      waiting.Authorised connection.user) : Authorised
        (s.set conn connection) := by
  intro other waiting member
  by_cases same : other = conn
  · subst same
    simp only [State.set, Function.update_self] at member ⊢
    exact own waiting member
  · simp only [State.set, Function.update_of_ne same] at member ⊢
    exact authorised other waiting member

theorem Authorised.close (authorised : Authorised s) (conn : Conn) :
    Authorised (s.close conn) :=
  authorised.set (by simp)

theorem Authorised.step (authorised : Authorised s) (action : Action Conn) :
    Authorised (step config s action) := by
  cases action with
  | receive conn message =>
      simp only [Users.step]
      split_ifs with busy
      · exact authorised
      · rw [not_or] at busy
        have free : (s.connections conn).waiting = none := by
          simpa using busy.2
        split
        · exact authorised.close conn
        · split
          · exact authorised.close conn
          · exact authorised.set (by simp [free])
          · rename_i waits
            refine authorised.set fun waiting member => ?_
            cases member
            exact handle_allowed waits
          · exact authorised
  | goOn conn token salt =>
      simp only [Users.step]
      split
      · exact authorised
      · split
        · exact authorised.close conn
        · exact authorised.set (by simp)

theorem set_user {conn other : Conn} :
    ((s.set conn connection).connections other).user =
      if other = conn then connection.user else (s.connections other).user := by
  by_cases same : other = conn
  · subst same
    simp only [State.set, Function.update_self, if_true]
  · simp only [State.set, Function.update_of_ne same, if_neg same]

structure Keeps (s t : State Conn) : Prop where
  user : ∀ conn, (t.connections conn).user = (s.connections conn).user
  users : t.users = s.users

omit [DecidableEq Conn] in
theorem Keeps.refl (s : State Conn) : Keeps s s := ⟨fun _ => rfl, rfl⟩

theorem Keeps.set {conn : Conn}
    (same : connection.user = (s.connections conn).user) :
    Keeps s (s.set conn connection) := by
  refine ⟨fun other => ?_, rfl⟩
  rw [set_user]
  split_ifs with equal
  · rw [equal, same]
  · rfl

theorem Keeps.guarded {action : Action Conn}
    (keeps : Keeps s (Users.step config s action)) : Guarded config s action :=
  ⟨fun conn changes => absurd (keeps.user conn) changes,
    fun changes => absurd keeps.users changes⟩

variable (config)

theorem step_receive (s : State Conn) (conn : Conn) (message : Json) :
    Keeps s (step config s (.receive conn message)) ∨
      ∃ handler request users user answer,
        dispatch config.readOnly message = some (handler, request) ∧
        config.handle s.users (s.connections conn).user request handler =
          .ok (.returns users user answer) ∧
        step config s (.receive conn message) =
          { s.set conn { s.connections conn with user := user } with
            users := users } := by
  simp only [step]
  split_ifs with busy
  · exact .inl (.refl s)
  · split
    · exact .inl (.set rfl)
    · rename_i handler request dispatched
      split
      · exact .inl (.set rfl)
      · rename_i users user answer returns
        exact .inr ⟨handler, request, users, user, answer, dispatched, returns,
          rfl⟩
      · exact .inl (.set rfl)
      · exact .inl (.refl s)

theorem step_goOn (s : State Conn) (conn : Conn) (token salt : PyStr) :
    Keeps s (step config s (.goOn conn token salt)) ∨
      ∃ waiting users answer, (s.connections conn).waiting = some waiting ∧
        config.goOn s.users token salt waiting = .ok (users, answer) ∧
        step config s (.goOn conn token salt) =
          { s.set conn { s.connections conn with waiting := none } with
            users := users } := by
  simp only [step]
  split
  · exact .inl (.refl s)
  · rename_i waiting waits
    split
    · exact .inl (.set rfl)
    · rename_i users answer gone
      exact .inr ⟨waiting, users, answer, waits, gone, rfl⟩

theorem guarded_receive (s : State Conn) (conn : Conn)
    (message : Json) : Guarded config s (.receive conn message) := by
  obtain keeps | ⟨handler, request, users, user, answer, dispatched, returns,
    result⟩ := step_receive config s conn message
  · exact keeps.guarded
  · obtain ⟨session, table⟩ := handle_allowed returns
    constructor
    · intro other changes
      rw [result] at changes ⊢
      simp only [set_user] at changes ⊢
      split_ifs at changes ⊢ with same
      · subst same
        exact ⟨message, handler, request, rfl, dispatched,
          session.resolve_left changes⟩
      · exact absurd rfl changes
    · intro changes
      rw [result] at changes ⊢
      refine (table.resolve_left changes).imp_right ?_
      rintro ⟨rfl, self, logged, rfl⟩
      refine ⟨self, logged, ⟨request, dispatched⟩, fun other foreign => ?_⟩
      rw [Dict.get?_del, if_neg foreign]

theorem Authorised.guarded_goOn (authorised : Authorised s)
    (conn : Conn) (token salt : PyStr) :
    Guarded config s (.goOn conn token salt) := by
  obtain keeps | ⟨waiting, users, answer, waits, gone, result⟩ :=
    step_goOn config s conn token salt
  · exact keeps.guarded
  · constructor
    · intro other changes
      have keeps : Keeps s
          (s.set conn { s.connections conn with waiting := none }) := .set rfl
      rw [result] at changes
      exact absurd (keeps.user other) changes
    · intro changes
      rw [result]
      obtain elevated | ⟨self, logged, own, others⟩ :=
        goOn_table (authorised conn waiting waits) gone
      · exact .inl elevated
      · rw [own] at waits
        exact .inr ⟨self, logged, waits, others⟩

theorem run_authorised (users : Accounts)
    (actions : List (Action Conn)) : Authorised (run config users actions) := by
  have start : Authorised (State.initial users : State Conn) := by
    intro conn waiting member
    cases member
  unfold run
  generalize State.initial users = s at start
  induction actions generalizing s with
  | nil => exact start
  | cons action actions induction => exact induction _ (start.step action)

/-- Nobody becomes a user or changes the table of users without being entitled
to it, whatever the connections have sent before. -/
theorem run_guarded (config : Config) (users : Accounts)
    (actions : List (Action Conn)) (action : Action Conn) :
    Guarded config (run config users actions) action := by
  cases action with
  | receive conn message => exact guarded_receive config _ conn message
  | goOn conn token salt =>
      exact (run_authorised config users actions).guarded_goOn config conn token
        salt

end Runs

end Nvbmc.HashServ.Users
