import Qdb.Replay

/-!
# Queue operations

`qdb_push`, `qdb_pop`, `qdb_pop_any`, `qdb_ack`, `qdb_nack` and
`qdb_process_expired_leases` of `qdb.c`, on a non-NULL handle.

Every operation validates its arguments, appends one record, persists the
header and only then updates the tables.  The table updates are definitions of
their own, in the statement order of the source.  A NULL state pointer is
dereferenced before any check, which is undefined behaviour.
-/

namespace Qdb

open Lib

/-- A NUL-terminated string argument. -/
structure CString where
  bytes : Bytes
  noNul : (0 : UInt8) ∉ bytes
deriving DecidableEq, Repr

/-- The `data` and `len` arguments of `qdb_push`. -/
inductive DataArg
  | null (len : Nat)
  | buf (bs : Bytes)
deriving DecidableEq, Repr

/-- `len` -/
def DataArg.len : DataArg → Nat
  | .null len => len
  | .buf bs => bs.length

/-- `!data` -/
def DataArg.isNull : DataArg → Bool
  | .null _ => true
  | .buf _ => false

/-- The bytes behind `data`. -/
def DataArg.bytes : DataArg → Bytes
  | .null _ => []
  | .buf bs => bs

/-- `qdb_msg_t` -/
structure QMsg where
  id : UInt64
  leaseId : UInt64
  queue : QueueName
  data : Bytes
  retryCount : UInt32
deriving DecidableEq, Repr

/-- The strlen check shared by the calls that take a queue name. -/
def queueArg (queue : Option CString) : Option QueueName :=
  match queue with
  | none => none
  | some s =>
      if h : 1 ≤ s.bytes.length ∧ s.bytes.length ≤ queueNameMax then
        some ⟨s.bytes, h.1, h.2⟩
      else none

/-- PUSH payload built by `qdb_push` and `compact_write_push`. -/
def pushPayload (id : UInt64) (name : QueueName) (data : Bytes) : Bytes :=
  putU64le id ++ [name.len] ++ name.bytes ++ data

/-- LEASE payload built by `do_pop` and `compact_write_lease`. -/
def leasePayload (msgId expiryUs leaseId : UInt64) : Bytes :=
  putU64le msgId ++ putU64le expiryUs ++ putU64le leaseId

/-- ACK, NACK and EXPIRE payload. -/
def ackPayload (msgId leaseId : UInt64) : Bytes :=
  putU64le msgId ++ putU64le leaseId

/-- `qdb_push` -/
def qdbPush (db : Db) (queue : Option CString) (data : DataArg) :
    Cmd (Rc × Db) := do
  match queueArg queue with
  | none => return (.errInval, db)
  | some name =>
      if data.len > 0 ∧ data.isNull then return (.errInval, db)
      if data.len > msgMaxLen then return (.errInval, db)
      if ¬ (← alloc) then return (.errNomem, db)
      let msgId := db.nextMsgId
      let recStart := db.logEndOffset
      let (rc, newEnd) ← appendRecord db.fd rtMsgPush
        (pushPayload msgId name data.bytes) recStart
      if rc ≠ .ok then return (rc, db)
      let db := { db with logEndOffset := newEnd, nextMsgId := msgId + 1 }
      if (← headerUpdate db.fd db) ≠ .ok then return (.errIo, db)
      if ¬ (← alloc) then return (.errNomem, db)
      let m := newMsg msgId
        (recStart + recHdrSize + 9 + name.len.toUInt64)
        (UInt32.ofNat data.len) name
      match db.state with
      | none => .stuck
      | some st =>
          let st := st.msgInsert m
          match ← st.queueGetOrCreate name with
          | none => return (.errNomem, { db with state := some st })
          | some (q, st) =>
              return (.ok,
                { db with state := some (st.queuePendingAppend q m) })

/-- State update of `do_pop`. -/
def doPopState (st : State) (q : Queue) (m : Msg)
    (leaseId expiryUs : UInt64) : State :=
  let st := st.queuePendingRemove q m
  let st := st.modifyMsg m.id fun x =>
    { x with state := .leased, leaseId := leaseId, leaseExpiryUs := expiryUs }
  let st := st.modifyQueue q.name fun x =>
    { x with leasedCount := x.leasedCount + 1 }
  st.leaseInsert { leaseId := leaseId, msgId := m.id, expiryUs := expiryUs }

/-- The payload copy of `do_pop`, read from the log. -/
def readData (db : Db) (m : Msg) : Cmd (Except Rc Bytes) := do
  if m.dataLen > 0 then
    if ¬ (← alloc) then return .error .errNomem
    readFull db.fd m.dataLen.toNat m.dataFileOffset
  else return .ok []

/-- `do_pop` -/
def doPop (db : Db) (st : State) (q : Queue) (m : Msg) :
    Cmd (Rc × Db × Option QMsg) := do
  if ¬ (← alloc) then return (.errNomem, db, none)
  match ← readData db m with
  | .error rc => return (rc, db, none)
  | .ok data =>
      if ¬ (← alloc) then return (.errNomem, db, none)
      let leaseId := db.nextLeaseId
      let expiryUs := (← timeUs) + db.leaseTimeoutUs
      let (rc, newEnd) ← appendRecord db.fd rtMsgLease
        (leasePayload m.id expiryUs leaseId) db.logEndOffset
      if rc ≠ .ok then return (rc, db, none)
      let db := { db with logEndOffset := newEnd, nextLeaseId := leaseId + 1 }
      if (← headerUpdate db.fd db) ≠ .ok then return (.errIo, db, none)
      return (.ok,
        { db with state := some (doPopState st q m leaseId expiryUs) },
        some {
          id := m.id
          leaseId := leaseId
          queue := m.queueName
          data := data
          retryCount := m.retryCount })

/-- `qdb_pop`; `outMsg` tells whether the output pointer is not NULL. -/
def qdbPop (db : Db) (queue : Option CString) (outMsg : Bool) :
    Cmd (Rc × Db × Option QMsg) := do
  if ¬ outMsg then return (.errInval, db, none)
  match queueArg queue with
  | none => return (.errInval, db, none)
  | some name =>
      match db.state with
      | none => .stuck
      | some st =>
          match st.queueGet name with
          | none => return (.errEmpty, db, none)
          | some q =>
              if q.pendingCount = 0 ∨ q.pendingHead = 0 then
                return (.errEmpty, db, none)
              match st.msgGet q.pendingHead with
              | none => return (.errCorrupt, db, none)
              | some m => doPop db st q m

/-- The queue scan of `qdb_pop_any`: the best candidate so far and its id. -/
def popAnyScan (st : State) :
    List Queue → Option (Queue × Msg) → UInt64 →
    Except Rc (Option (Queue × Msg))
  | [], best, _ => .ok best
  | q :: qs, best, bestId =>
      if q.pendingCount > 0 ∧ q.pendingHead ≠ 0 then
        match st.msgGet q.pendingHead with
        | none => .error .errCorrupt
        | some m =>
            if m.id < bestId then popAnyScan st qs (some (q, m)) m.id
            else popAnyScan st qs best bestId
      else popAnyScan st qs best bestId

/-- `qdb_pop_any` -/
def qdbPopAny (db : Db) (outMsg : Bool) :
    Cmd (Rc × Db × Option QMsg) := do
  if ¬ outMsg then return (.errInval, db, none)
  match db.state with
  | none => .stuck
  | some st =>
      match popAnyScan st st.queues none 0xFFFFFFFFFFFFFFFF with
      | .error rc => return (rc, db, none)
      | .ok none => return (.errEmpty, db, none)
      | .ok (some (q, m)) => doPop db st q m

/-- State update of `qdb_ack`. -/
def qdbAckState (st : State) (m : Msg) (leaseId : UInt64) : State :=
  let st :=
    match st.queueGet m.queueName with
    | none => st
    | some q => st.modifyQueue q.name fun x =>
        { x with
          leasedCount := x.leasedCount - 1
          ackedCount := x.ackedCount + 1 }
  let st := st.leaseRemove leaseId
  st.modifyMsg m.id fun x =>
    { x with state := .acked, leaseId := 0, leaseExpiryUs := 0 }

/-- State update of `qdb_nack` and `expire_one`. -/
def qdbNackState (st : State) (m : Msg) (leaseId : UInt64) : State :=
  let q? := st.queueGet m.queueName
  let st := st.leaseRemove leaseId
  let st := st.modifyMsg m.id fun x =>
    { x with
      state := .pending
      leaseId := 0
      leaseExpiryUs := 0
      retryCount := x.retryCount + 1 }
  match q? with
  | none => st
  | some q =>
      let st := st.modifyQueue q.name fun x =>
        { x with leasedCount := x.leasedCount - 1 }
      st.queuePendingAppend q m

/-- Append, header update and state update of a lease resolution, as in
`qdb_ack`, `qdb_nack` and `expire_one` once their checks have passed. -/
def resolveLease (type : UInt8) (update : State → Msg → UInt64 → State)
    (db : Db) (st : State) (m : Msg) (msgId leaseId : UInt64) :
    Cmd (Rc × Db) := do
  let (rc, newEnd) ← appendRecord db.fd type
    (ackPayload msgId leaseId) db.logEndOffset
  if rc ≠ .ok then return (rc, db)
  let db := { db with logEndOffset := newEnd }
  if (← headerUpdate db.fd db) ≠ .ok then return (.errIo, db)
  return (.ok, { db with state := some (update st m leaseId) })

/-- The checks of `qdb_ack` and `qdb_nack`, then the resolution. -/
def resolveCall (type : UInt8) (update : State → Msg → UInt64 → State)
    (db : Db) (msgId leaseId : UInt64) : Cmd (Rc × Db) := do
  match db.state with
  | none => .stuck
  | some st =>
      match st.msgGet msgId with
      | none => return (.errNoent, db)
      | some m =>
          if m.state = .acked then return (.errNoent, db)
          if m.state ≠ .leased then return (.errNoent, db)
          if m.leaseId ≠ leaseId then return (.errInval, db)
          resolveLease type update db st m msgId leaseId

/-- `qdb_ack` -/
def qdbAck := resolveCall rtMsgAck qdbAckState

/-- `qdb_nack` -/
def qdbNack := resolveCall rtMsgNack qdbNackState

/-- `expire_one`; a stale entry is skipped without error. -/
def expireOne (db : Db) (st : State) (leaseId msgId : UInt64) :
    Cmd (Rc × Db) :=
  match st.msgGet msgId with
  | none => return (.ok, db)
  | some m =>
      if m.state ≠ .leased ∨ m.leaseId ≠ leaseId then return (.ok, db)
      else resolveLease rtMsgExpire qdbNackState db st m msgId leaseId

/-- The chain loop of `qdb_process_expired_leases`.  The successor is read
before the entry is freed, so the walk follows the chain as it was found; the
count is an `int`. -/
def expireChain (now : UInt64) :
    List Lease → Db → Int32 → Cmd (Rc × Db × Int32)
  | [], db, processed => return (.ok, db, processed)
  | l :: ls, db, processed =>
      if l.expiryUs < now then do
        match db.state with
        | none => .stuck
        | some st =>
            let (rc, db) ← expireOne db st l.leaseId l.msgId
            if rc ≠ .ok then return (rc, db, processed)
            expireChain now ls db (processed + 1)
      else expireChain now ls db processed

/-- The bucket loop of `qdb_process_expired_leases`. -/
def expireBuckets (now : UInt64) :
    List (Fin 1024) → Db → Int32 → Cmd (Rc × Db × Int32)
  | [], db, processed => return (.ok, db, processed)
  | b :: bs, db, processed => do
      match db.state with
      | none => .stuck
      | some st =>
          let (rc, db, processed) ←
            expireChain now (st.leaseBuckets b) db processed
          if rc ≠ .ok then return (rc, db, processed)
          expireBuckets now bs db processed

/-- `qdb_process_expired_leases`: code, handle and number processed. -/
def qdbProcessExpiredLeases (db : Db) : Cmd (Rc × Db × Int32) := do
  let now ← timeUs
  expireBuckets now (List.finRange 1024) db 0

end Qdb
