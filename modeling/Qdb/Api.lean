import Qdb.Compact

/-!
# Runs of API calls

An application holds at most one handle to the database and issues calls on it;
a call on the NULL handle is rejected by the first check of every function.
Each call comes with the clock reading it sees.  `Sys.step` executes one call on
the ideal machine and `Sys.run` a whole list of them, starting from an empty
directory.
-/

namespace Qdb

open Lib

/-- Calls of the public API that touch the queue state. -/
inductive Call
  | openDb (leaseTimeoutS : UInt32)
  | close
  | push (queue : Option CString) (data : DataArg)
  | pop (queue : Option CString) (outMsg : Bool)
  | popAny (outMsg : Bool)
  | ack (msgId leaseId : UInt64)
  | nack (msgId leaseId : UInt64)
  | processExpired
  | compact
deriving DecidableEq

/-- What a call returns: a code, a delivered message, or the number of expired
leases as an `int`. -/
inductive Result
  | code (rc : Rc)
  | msg (m : QMsg)
  | count (n : Int32)
deriving DecidableEq

/-- The return code of a call. -/
def Result.rc : Result → Rc
  | .code rc => rc
  | .msg _ => .ok
  | .count _ => .ok

/-- Result of a pop. -/
def Result.ofPop (rc : Rc) : Option QMsg → Result
  | none => .code rc
  | some m => .msg m

/-- Result of `qdb_process_expired_leases`. -/
def Result.ofExpire (rc : Rc) (n : Int32) : Result :=
  if rc = .ok then .count n else .code rc

/-- A call on the handle the application holds, if any. -/
def callCmd (db? : Option Db) (call : Call) :
    Cmd (Result × Option Db) := do
  match call, db? with
  | .openDb t, db? =>
      let (rc, db') ← qdbOpenErr t
      return (.code rc, db'.or db?)
  | .close, none => return (.code .ok, none)
  | .close, some db =>
      qdbClose db
      return (.code .ok, none)
  | _, none => return (.code .errInval, none)
  | .push queue data, some db =>
      let (rc, db) ← qdbPush db queue data
      return (.code rc, some db)
  | .pop queue outMsg, some db =>
      let (rc, db, m) ← qdbPop db queue outMsg
      return (.ofPop rc m, some db)
  | .popAny outMsg, some db =>
      let (rc, db, m) ← qdbPopAny db outMsg
      return (.ofPop rc m, some db)
  | .ack msgId leaseId, some db =>
      let (rc, db) ← qdbAck db msgId leaseId
      return (.code rc, some db)
  | .nack msgId leaseId, some db =>
      let (rc, db) ← qdbNack db msgId leaseId
      return (.code rc, some db)
  | .processExpired, some db =>
      let (rc, db, n) ← qdbProcessExpiredLeases db
      return (.ofExpire rc n, some db)
  | .compact, some db =>
      let (rc, db) ← qdbCompact db
      return (.code rc, some db)

/-- A call with the clock reading it sees. -/
structure Event where
  now : UInt64
  call : Call
deriving DecidableEq

/-- The machine together with the handle the application holds. -/
structure Sys where
  world : World
  db : Option Db

/-- No file exists and nobody holds the lock. -/
def World.empty : World where
  dir := fun _ => none
  files := fun _ => ⟨[], []⟩
  nextIno := 0
  lockOwner := none
  nextLockFd := 0
  now := 0

/-- Before the first call. -/
def Sys.init : Sys := ⟨World.empty, none⟩

/-- One call on the ideal machine; `none` when it gets stuck. -/
def Sys.step (s : Sys) (e : Event) : Option (Result × Sys) :=
  (Prog.run posix (callCmd s.db e.call) { s.world with now := e.now }).map
    fun r => (r.1.1, ⟨r.2, r.1.2⟩)

/-- A list of calls on the ideal machine, with their results. -/
def Sys.run : List Event → Sys → Option (List Result × Sys)
  | [], s => some ([], s)
  | e :: es, s => do
      let (r, s) ← s.step e
      let (rs, s) ← Sys.run es s
      return (r :: rs, s)

end Qdb
