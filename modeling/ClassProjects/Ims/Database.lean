import ClassProjects.Ims.Protocol
import ClassProjects.Lib.KeyedList

/-!
# The user database in memory

The structures of `ims.h` and the constructors of `udbase.c`. A linked list is the list
of its nodes after the sentinel. User nodes are only ever added behind the last one and
keep their names, so the node a friend entry points to, the first of its name when the
entry was made, is still the first of its name : the pointer is that name, `none` for
NULL, and `Db.deref` follows it.

A search of a list is `find?`, and an assignment through the node it stopped at rewrites
the first node that satisfies the search's test (`Db.updateUser`).
-/

namespace ClassProjects

namespace Ims

/-- `dbFriend_t` : an entry of a friend list. Only the sentinel carries `FRIEND_NOT`. -/
structure DbFriend where
  /-- The user node pointed to, by name. -/
  friend : Option CStr
  status : ImpFriend
  status_ne : status ≠ .not
deriving DecidableEq

theorem requested_ne : ImpFriend.requested ≠ .not :=
  nofun

theorem toanswer_ne : ImpFriend.toanswer ≠ .not :=
  nofun

theorem yes_ne : ImpFriend.yes ≠ .not :=
  nofun

/-- `dbUser_t`. -/
structure DbUser where
  name : CStr
  active : ImpActive
  connfd : ℤ
  flist : List DbFriend
deriving DecidableEq

/-- `db_t`. -/
structure Db where
  users : List DbUser
  unum : ℕ
deriving DecidableEq

/-- `fcur->status = status`. -/
def DbFriend.setStatus (fcur : DbFriend) (status : ImpFriend) (h : status ≠ .not) : DbFriend :=
  { fcur with status := status, status_ne := h }

namespace Db

variable (db : Db)

/-- The first user node with the name. -/
def findUser (name : CStr) : Option DbUser :=
  db.users.find? fun ucur => ucur.name = name

/-- The first user node with the connection. -/
def findConn (connfd : ℕ) : Option DbUser :=
  db.users.find? fun ucur => ucur.connfd = connfd

/-- Follow the pointer of a friend entry. -/
def deref (friend : Option CStr) : Option DbUser :=
  friend.bind db.findUser

/-- Assign through the first user node that satisfies `p`. -/
def updateUser (p : DbUser → Bool) (f : DbUser → DbUser) : Db :=
  { db with users := KeyedList.updateFirst p f db.users }

/-- Relink the friend list of the first user node that satisfies `p`. -/
def setFlist (p : DbUser → Bool) (flist : List DbFriend) : Db :=
  db.updateUser p fun ucur => { ucur with flist := flist }

/-- `dbFriendInit` : an entry for the first user with the name, NULL if there is none. -/
def dbFriendInit (name : CStr) (status : ImpFriend) (h : status ≠ .not) : DbFriend :=
  ⟨(db.findUser name).map DbUser.name, status, h⟩

end Db

/-- `dbUserInit` of a name. -/
def dbUserInit (name : CStr) : DbUser :=
  ⟨name, .not, -1, []⟩

/-- The search of a friend list for an entry whose friend has the name : the nodes
passed, the last of them `fprev`, and the nodes from `fcur` on. `none` if it reads a
name through a NULL friend. -/
def scanFriend (name : CStr) : List DbFriend → Option (List DbFriend × List DbFriend)
  | [] => some ([], [])
  | fcur :: rest =>
    match fcur.friend with
    | none => none
    | some n =>
      if n = name then some ([], fcur :: rest)
      else (scanFriend name rest).map fun r => (fcur :: r.1, r.2)

/-- What a friend list says about the user with the name. -/
def statusOf (flist : List DbFriend) (name : CStr) : Option ImpFriend :=
  (KeyedList.lookup DbFriend.friend flist (some name)).map DbFriend.status

end Ims

end ClassProjects
