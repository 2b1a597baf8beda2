import ClassProjects.Ims.Database

/-!
# The handlers of the server

The functions of `main.c` that handle one operation of one connection. A handler returns
its `int`, the database after it and the messages it sends, in order. `none` is a NULL
dereference : a friend entry without a user, or an `rfcur` that a search left at the end
of the list.

A connection is the descriptor `accept` returned, so it is never `-1`. The part of a
handler between `sem_wait` and `sem_post` is a definition of its own where it edits two
friend lists.
-/

namespace ClassProjects

namespace Ims

/-- What a handler returns and does. -/
structure Outcome where
  ret : ℕ
  db : Db
  sent : List Sent
deriving DecidableEq

/-- Answer with an error and return `ret`. -/
def answerError (ret : ℕ) (db : Db) (connfd : ℕ) (et : ImpError) (userName : Option CStr) :
    Outcome :=
  ⟨ret, db, [⟨connfd, .error et userName⟩]⟩

/-- `validUserName`. -/
def validUserName (lim : ImpLimits) (name : CStr) : Bool :=
  if !(1 ≤ name.length ∧ name.length ≤ lim.nameMaxlen) then false
  else !name.any fun c => isspace c || !isprint c

/-- `validIM`. -/
def validIM (lim : ImpLimits) (IM : CStr) : Bool :=
  if !(1 ≤ IM.length ∧ IM.length ≤ lim.imMaxlen) then false
  else !IM.any fun c => (isspace c && c ≠ ' ') || !isprint c

/-- `registerUser`. The search of the user list ends at its last node when the name is
new, and the new node is linked behind that one. -/
def registerUser (lim : ImpLimits) (db : Db) (userName : CStr) (connfd : ℕ) : Outcome :=
  if validUserName lim userName = false then answerError 1 db connfd .badCommand none
  else
    match db.findUser userName with
    | some ucur =>
      if ucur.connfd = connfd then answerError 1 db connfd .clientBound (some userName)
      else answerError 1 db connfd .userExists (some userName)
    | none =>
      ⟨0, { db with users := db.users ++ [dbUserInit userName] },
        [⟨connfd, .ack .register (some userName)⟩]⟩

/-- The `STATUS` message a user gets about an entry of his own list. -/
def friendStatus (db : Db) (connfd : ℕ) (fcur : DbFriend) : Option Sent :=
  (db.deref fcur.friend).map fun friend =>
    if fcur.status = .yes then ⟨connfd, .status friend.name .yes friend.active⟩
    else ⟨connfd, .status friend.name fcur.status .not⟩

/-- The loop that tells the active friends of a list about its owner. -/
def notifyFriends (db : Db) (msg : ImpMsg) : List DbFriend → Option (List Sent)
  | [] => some []
  | fcur :: rest =>
    match db.deref fcur.friend with
    | none => none
    | some friend =>
      (notifyFriends db msg rest).map fun sent =>
        if friend.active = .yes ∧ fcur.status = .yes then ⟨friend.connfd, msg⟩ :: sent else sent

/-- `loginUser`. -/
def loginUser (db : Db) (userName : CStr) (connfd : ℕ) : Option Outcome :=
  match db.findUser userName with
  | none => some (answerError 1 db connfd .userDoesNotExist none)
  | some ucur =>
    if ucur.active = .yes ∧ ucur.connfd = connfd then
      some (answerError 1 db connfd .clientBound (some userName))
    else if ucur.active = .yes ∧ ucur.connfd ≠ connfd then
      some (answerError 1 db connfd .userAlreadyActive (some userName))
    else do
      let db := db.updateUser (fun u => u.name = userName) fun u =>
        { u with active := .yes, connfd := connfd }
      -- first the user about his friends, then the friends about the user
      let own ← ucur.flist.mapM (friendStatus db connfd)
      let friends ← notifyFriends db (.status userName .yes .yes) ucur.flist
      some ⟨0, db, ⟨connfd, .ack .login (some userName)⟩ :: own ++ friends⟩

/-- `logoutUser`. -/
def logoutUser (db : Db) (connfd : ℕ) : Option Outcome :=
  match db.findConn connfd with
  | none => some (answerError 1 db connfd .clientNotBound none)
  | some ucur =>
    if ucur.active = .not then some (answerError 1 db connfd .clientNotBound none)
    else do
      let db := db.updateUser (fun u => u.connfd = connfd) fun u =>
        { u with active := .not, connfd := -1 }
      let friends ← notifyFriends db (.status ucur.name .yes .not) ucur.flist
      some ⟨0, db, ⟨connfd, .ack .logout none⟩ :: friends⟩

/-- Tell the requester, and the requested user if he is active. -/
def tellBoth (connfd : ℕ) (requested : DbUser) (toRequester toRequested : ImpMsg) : List Sent :=
  ⟨connfd, toRequester⟩ ::
    if requested.active = .yes then [⟨requested.connfd, toRequested⟩] else []

/-- The section that makes two users friends : `fcur` of the requested user's list, which
`before` and `rest` surround, and the entry that a search of the requester's list finds. -/
def makeFriends (db : Db) (connfd : ℕ) (requester requested : DbUser) (before : List DbFriend)
    (fcur : DbFriend) (rest : List DbFriend) : Option Db := do
  let db := db.setFlist (fun u => u.name = requested.name)
    (before ++ fcur.setStatus .yes yes_ne :: rest)
  match ← scanFriend requested.name requester.flist with
  | (_, []) => none
  | (rbefore, rfcur :: rrest) =>
    some (db.setFlist (fun u => u.connfd = connfd)
      (rbefore ++ rfcur.setStatus .yes yes_ne :: rrest))

/-- The section that places a request : an entry behind `fprev`, the last node of the
requested user's list, and one at the end of the requester's. -/
def placeRequest (db : Db) (connfd : ℕ) (requester requested : DbUser) (before : List DbFriend) :
    Db :=
  let db := db.setFlist (fun u => u.name = requested.name)
    (before ++ [db.dbFriendInit requester.name .toanswer toanswer_ne])
  db.setFlist (fun u => u.connfd = connfd)
    (requester.flist ++ [db.dbFriendInit requested.name .requested requested_ne])

/-- `friendRequest`. -/
def friendRequest (db : Db) (userName : CStr) (connfd : ℕ) : Option Outcome :=
  match db.findConn connfd with
  | none => some (answerError 1 db connfd .clientNotBound none)
  | some requester =>
    if requester.name = userName then some (answerError 1 db connfd .badCommand none)
    else
      match db.findUser userName with
      | none => some (answerError 1 db connfd .userDoesNotExist none)
      | some requested => do
        match ← scanFriend requester.name requested.flist with
        | (before, fcur :: rest) =>
          match fcur.status with
          | .toanswer => some (answerError 0 db connfd .requestedAlready (some userName))
          | .requested =>
            let db ← makeFriends db connfd requester requested before fcur rest
            some ⟨0, db, tellBoth connfd requested (.status requested.name .yes requested.active)
              (.status requester.name .yes requester.active)⟩
          | _ => some (answerError 0 db connfd .friendAlready (some requested.name))
        | (before, []) =>
          some ⟨0, placeRequest db connfd requester requested before,
            tellBoth connfd requested (.status requested.name .requested .not)
              (.status requester.name .toanswer .not)⟩

/-- The section that unlinks `fcur` from the requested user's list, and the entry that a
search of the requester's list finds. -/
def unlinkFriends (db : Db) (connfd : ℕ) (requester requested : DbUser)
    (before rest : List DbFriend) : Option Db := do
  let db := db.setFlist (fun u => u.name = requested.name) (before ++ rest)
  match ← scanFriend requested.name requester.flist with
  | (_, []) => none
  | (rbefore, _ :: rrest) => some (db.setFlist (fun u => u.connfd = connfd) (rbefore ++ rrest))

/-- `friendRemove`. -/
def friendRemove (db : Db) (userName : CStr) (connfd : ℕ) : Option Outcome :=
  match db.findConn connfd with
  | none => some (answerError 1 db connfd .clientNotBound none)
  | some requester =>
    if requester.name = userName then some (answerError 1 db connfd .badCommand none)
    else
      match db.findUser userName with
      | none => some (answerError 1 db connfd .userDoesNotExist none)
      | some requested => do
        match ← scanFriend requester.name requested.flist with
        | (before, _ :: rest) =>
          let db ← unlinkFriends db connfd requester requested before rest
          some ⟨0, db, tellBoth connfd requested (.status requested.name .not .not)
            (.status requester.name .not .not)⟩
        | (_, []) => some (answerError 1 db connfd .notFriend (some requested.name))

/-- `friendList`. -/
def friendList (db : Db) (connfd : ℕ) : Option Outcome :=
  match db.findConn connfd with
  | none => some (answerError 1 db connfd .clientNotBound none)
  | some ucur => (ucur.flist.mapM (friendStatus db connfd)).map fun sent => ⟨0, db, sent⟩

/-- `imUser`. -/
def imUser (lim : ImpLimits) (db : Db) (userName IM : CStr) (connfd : ℕ) : Option Outcome :=
  match db.findConn connfd with
  | none => some (answerError 1 db connfd .clientNotBound none)
  | some sender =>
    match db.findUser userName with
    | none => some (answerError 1 db connfd .userDoesNotExist none)
    | some recipient => do
      let (_, found) ← scanFriend recipient.name sender.flist
      if (found.head?.map DbFriend.status) ≠ some .yes then
        some (answerError 1 db connfd .notFriend (some recipient.name))
      else if recipient.active = .not then
        some (answerError 1 db connfd .userNotActive (some recipient.name))
      else if validIM lim IM = false then some (answerError 1 db connfd .badCommand none)
      else
        some ⟨0, db, [⟨recipient.connfd, .op (.im sender.name IM)⟩,
          ⟨connfd, .ack .im (some recipient.name)⟩]⟩

/-! ## One message -/

/-- The `switch` over the operations. `default` handles nothing. -/
def handleOp (lim : ImpLimits) (db : Db) (connfd : ℕ) : ImpMsgOp → Option Outcome
  | .register userName => some (registerUser lim db userName connfd)
  | .login userName => loginUser db userName connfd
  | .logout => logoutUser db connfd
  | .friendRequest userName => friendRequest db userName connfd
  | .friendRemove userName => friendRemove db userName connfd
  | .friendList => friendList db connfd
  | .im userName IM => imUser lim db userName IM connfd
  | .connect => some ⟨0, db, []⟩

/-- What the loop body of `processUserStr` does with the result of `impStrToMsg`. -/
def handleMsg (lim : ImpLimits) (db : Db) (connfd : ℕ) : Option ImpMsg → Option Outcome
  | none => some (answerError 1 db connfd .badCommand none)
  | some (.op mop) => handleOp lim db connfd mop
  | some _ => some ⟨1, db, []⟩

/-- What the server handles for a connection : a message, as `impStrToMsg` parsed it, or
the end of the stream. -/
inductive Event
  | msg (connfd : ℕ) (pm : Option ImpMsg)
  | disconnect (connfd : ℕ)
deriving DecidableEq

/-- Handle one event. At the end of the stream `userThread` logs the connection out. -/
def step (lim : ImpLimits) (db : Db) : Event → Option (Db × List Sent)
  | .msg connfd pm => (handleMsg lim db connfd pm).map fun r => (r.db, r.sent)
  | .disconnect connfd => (logoutUser db connfd).map fun r => (r.db, r.sent)

end Ims

end ClassProjects
