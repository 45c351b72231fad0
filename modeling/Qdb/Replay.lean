import Qdb.Io

/-!
# Log replay

The record handlers of `qdb_replay.c` and the loop that rebuilds the in-memory
state from the log.  Each handler reads its payload from the file, checks it
against the state rebuilt so far and updates the state; the state updates are
definitions of their own.
-/

namespace Qdb

open Lib

/-- The message `replay_push` and `qdb_push` build. -/
def newMsg (id dataOff : UInt64) (dataLen : UInt32) (name : QueueName) :
    Msg where
  id := id
  dataFileOffset := dataOff
  dataLen := dataLen
  queueName := name
  state := .pending
  leaseId := 0
  leaseExpiryUs := 0
  retryCount := 0
  nextPending := 0
  prevPending := 0

/-- Counter update at the end of `replay_push`. -/
def replayPushIds (db : Db) (msgId : UInt64) : Db :=
  if msgId ≥ db.nextMsgId then { db with nextMsgId := msgId + 1 } else db

/-- `replay_push` -/
def replayPush (db : Db) (st : State) (payloadOff : UInt64)
    (plen : UInt32) : Cmd (Except Rc (Db × State)) := do
  if plen < pushMinPlen then return .error .errCorrupt
  match ← readFull db.fd pushHdrSize payloadOff with
  | .error _ => return .error .errIo
  | .ok fixed =>
      let msgId := getU64le fixed
      let nameLen := fixed.getD 8 0
      if nameLen = 0 then return .error .errCorrupt
      if plen < 9 + nameLen.toUInt32 then return .error .errCorrupt
      if msgId = 0 then return .error .errCorrupt
      match ← readFull db.fd nameLen.toNat (payloadOff + 9) with
      | .error _ => return .error .errIo
      | .ok name =>
          if (st.msgGet msgId).isSome then return .error .errCorrupt
          let dataLen := plen - 9 - nameLen.toUInt32
          let dataOff := payloadOff + 9 + nameLen.toUInt64
          if ¬ (← alloc) then return .error .errNomem
          if h : 1 ≤ name.length ∧ name.length ≤ queueNameMax then
            let m := newMsg msgId dataOff dataLen ⟨name, h.1, h.2⟩
            let st := st.msgInsert m
            match ← st.queueGetOrCreate m.queueName with
            | none => return .error .errNomem
            | some (q, st) =>
                let st := st.queuePendingAppend q m
                return .ok (replayPushIds db msgId, st)
          else
            -- a full read of `name_len` bytes, which is not zero
            .stuck

/-- State update of `replay_lease`. -/
def replayLeaseState (st : State) (q : Queue) (m : Msg)
    (leaseId expiryUs : UInt64) : State :=
  let st := st.queuePendingRemove q m
  let st := st.modifyMsg m.id fun x =>
    { x with state := .leased, leaseId := leaseId, leaseExpiryUs := expiryUs }
  let st := st.modifyQueue q.name fun x =>
    { x with leasedCount := x.leasedCount + 1 }
  st.leaseInsert { leaseId := leaseId, msgId := m.id, expiryUs := expiryUs }

/-- Counter update at the end of `replay_lease`. -/
def replayLeaseIds (db : Db) (leaseId : UInt64) : Db :=
  if leaseId ≥ db.nextLeaseId then { db with nextLeaseId := leaseId + 1 }
  else db

/-- `replay_lease` -/
def replayLease (db : Db) (st : State) (payloadOff : UInt64)
    (plen : UInt32) : Cmd (Except Rc (Db × State)) := do
  if plen ≠ payloadLeaseSize then return .error .errCorrupt
  match ← readFull db.fd 24 payloadOff with
  | .error _ => return .error .errIo
  | .ok buf =>
      let msgId := getU64le buf
      let expiryUs := getU64le (buf.drop 8)
      let leaseId := getU64le (buf.drop 16)
      if leaseId = 0 then return .error .errCorrupt
      match st.msgGet msgId with
      | none => return .error .errCorrupt
      | some m =>
          if m.state ≠ .pending then return .error .errCorrupt
          if (st.leaseGet leaseId).isSome then return .error .errCorrupt
          match st.queueGet m.queueName with
          | none => return .error .errCorrupt
          | some q =>
              if ¬ (← alloc) then return .error .errNomem
              return .ok (replayLeaseIds db leaseId,
                replayLeaseState st q m leaseId expiryUs)

/-- State update of `replay_ack`. -/
def replayAckState (st : State) (q : Queue) (m : Msg)
    (leaseId : UInt64) : State :=
  let st := st.leaseRemove leaseId
  let st := st.modifyMsg m.id fun x =>
    { x with state := .acked, leaseId := 0, leaseExpiryUs := 0 }
  st.modifyQueue q.name fun x =>
    { x with
      leasedCount := x.leasedCount - 1
      ackedCount := x.ackedCount + 1 }

/-- State update of `replay_nack`. -/
def replayNackState (st : State) (q : Queue) (m : Msg)
    (leaseId : UInt64) : State :=
  let st := st.leaseRemove leaseId
  let st := st.modifyMsg m.id fun x =>
    { x with
      state := .pending
      leaseId := 0
      leaseExpiryUs := 0
      retryCount := x.retryCount + 1 }
  let st := st.modifyQueue q.name fun x =>
    { x with leasedCount := x.leasedCount - 1 }
  st.queuePendingAppend q m

/-- The common part of `replay_ack` and `replay_nack`: the payload checks,
then the state update `resolve`. -/
def replayResolve
    (resolve : State → Queue → Msg → UInt64 → State)
    (db : Db) (st : State) (payloadOff : UInt64)
    (plen : UInt32) : Cmd (Except Rc (Db × State)) := do
  if plen ≠ payloadAckSize then return .error .errCorrupt
  match ← readFull db.fd 16 payloadOff with
  | .error _ => return .error .errIo
  | .ok buf =>
      let msgId := getU64le buf
      let leaseId := getU64le (buf.drop 8)
      match st.msgGet msgId with
      | none => return .error .errCorrupt
      | some m =>
          if m.state ≠ .leased then return .error .errCorrupt
          if m.leaseId ≠ leaseId then return .error .errCorrupt
          match st.queueGet m.queueName with
          | none => return .error .errCorrupt
          | some q => return .ok (db, resolve st q m leaseId)

/-- `replay_ack` -/
def replayAck := replayResolve replayAckState

/-- `replay_nack` -/
def replayNack := replayResolve replayNackState

/-- `replay_expire` -/
def replayExpire := replayNack

/-- Counter update of `replay_checkpoint`: only ever advances. -/
def replayCheckpointIds (db : Db) (nextMsgId nextLeaseId : UInt64) : Db :=
  let db := if nextMsgId > db.nextMsgId then
    { db with nextMsgId := nextMsgId } else db
  if nextLeaseId > db.nextLeaseId then
    { db with nextLeaseId := nextLeaseId } else db

/-- `replay_checkpoint` -/
def replayCheckpoint (db : Db) (st : State) (payloadOff : UInt64)
    (plen : UInt32) : Cmd (Except Rc (Db × State)) := do
  if plen ≠ payloadCheckpointSize then return .error .errCorrupt
  match ← readFull db.fd 24 payloadOff with
  | .error _ => return .error .errIo
  | .ok buf =>
      return .ok (replayCheckpointIds db
        (getU64le (buf.drop 8)) (getU64le (buf.drop 16)), st)

/-- The `switch` of `qdb__replay_log`. -/
def replayRecord (type : UInt8) (db : Db) (st : State)
    (payloadOff : UInt64) (plen : UInt32) :
    Cmd (Except Rc (Db × State)) :=
  if type = rtMsgPush then replayPush db st payloadOff plen
  else if type = rtMsgLease then replayLease db st payloadOff plen
  else if type = rtMsgAck then replayAck db st payloadOff plen
  else if type = rtMsgNack then replayNack db st payloadOff plen
  else if type = rtMsgExpire then replayExpire db st payloadOff plen
  else if type = rtCheckpoint then replayCheckpoint db st payloadOff plen
  else if type = rtPadding then pure (.ok (db, st))
  else pure (.error .errCorrupt)

/-- The loop of `qdb__replay_log`. -/
def replayLoop : Nat → Db → State → UInt64 → Cmd (Rc × Db)
  | 0, _, _, _ => .stuck
  | fuel + 1, db, st, offset => do
      if ¬ offset < db.logEndOffset then
        return (.ok, { db with state := some st })
      match ← scanRecord db.fd offset db.logEndOffset with
      | .scanEnd => return (.ok, { db with state := some st })
      | .scanPartial => return (.ok, { db with state := some st })
      | .err rc => return (rc, db)
      | .record type plen next =>
          match ← replayRecord type db st (offset + recHdrSize) plen with
          | .error rc => return (rc, db)
          | .ok (db, st) => replayLoop fuel db st next

/-- `qdb__replay_log` -/
def replayLog (db : Db) : Cmd (Rc × Db) := do
  if ¬ (← alloc) then return (.errNomem, db)
  replayLoop (db.logEndOffset.toNat - db.logStartOffset.toNat + 1)
    db .empty db.logStartOffset

end Qdb
