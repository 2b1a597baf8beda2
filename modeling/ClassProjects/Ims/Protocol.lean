import ClassProjects.CString

/-!
# The messages of the IM protocol

The enumerations and message types of `imp.h`, less the `UNKNOWN` and `INVALID` bounds
that only range checks use. An operation carries the arguments the header lists for it;
an ack or error carries a user name where the header says so.

The header leaves the two length limits to whoever compiles it, so they are a parameter
of everything that reads them. `impLimits` has the values in the file.
-/

namespace ClassProjects

namespace Ims

/-- `IMP_NAME_MAXLEN` and `IMP_IM_MAXLEN`. -/
structure ImpLimits where
  /-- Maximum valid `strlen` of a user name. -/
  nameMaxlen : ℕ
  /-- Maximum valid `strlen` of an instant message. -/
  imMaxlen : ℕ

/-- The limits as `imp.h` defines them. -/
def impLimits : ImpLimits :=
  ⟨20, 200⟩

/-- `impOp_t`. `connect` is only acknowledged. -/
inductive ImpOp
  | register | login | logout | friendRequest | friendRemove | friendList | im | connect
deriving DecidableEq

/-- `impFriend_t`. -/
inductive ImpFriend
  | not | requested | toanswer | yes
deriving DecidableEq

/-- `impActive_t`. -/
inductive ImpActive
  | not | yes
deriving DecidableEq

/-- `impError_t`. -/
inductive ImpError
  | userExists | clientBound | badCommand | userDoesNotExist | userAlreadyActive
  | clientNotBound | notFriend | requestedAlready | friendAlready | userNotActive
deriving DecidableEq

/-- `impMsgOp` : an operation with its arguments. -/
inductive ImpMsgOp
  | register (userName : CStr)
  | login (userName : CStr)
  | logout
  | friendRequest (userName : CStr)
  | friendRemove (userName : CStr)
  | friendList
  | im (userName IM : CStr)
  | connect
deriving DecidableEq

/-- `impMsg` with its four subtypes. -/
inductive ImpMsg
  | op (mop : ImpMsgOp)
  | ack (op : ImpOp) (userName : Option CStr)
  | error (et : ImpError) (userName : Option CStr)
  | status (userName : CStr) (status : ImpFriend) (active : ImpActive)
deriving DecidableEq

/-- A message handed to `send` with the descriptor it goes to. -/
structure Sent where
  connfd : ℤ
  msg : ImpMsg
deriving DecidableEq

end Ims

end ClassProjects
