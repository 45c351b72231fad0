import Qdb.Open
import Qdb.Queue

/-!
# Compaction

The `compact_write_*` helpers, `qdb__reopen_after_compact` and `qdb_compact` of
`qdb.c`.
-/

namespace Qdb

open Lib

/-- Build target: the `_WIN32` code path closes the live descriptor before
the rename. -/
inductive Target
  | posix
  | win32
deriving DecidableEq, Repr

/-- `compact_write_push` -/
def compactWritePush (srcFd dstFd : Fd) (m : Msg) (offset : UInt64) :
    Cmd (Rc × UInt64) := do
  if ¬ (← alloc) then return (.errNomem, offset)
  let mut data : Bytes := []
  if m.dataLen > 0 then
    match ← readFull srcFd m.dataLen.toNat m.dataFileOffset with
    | .error rc => return (rc, offset)
    | .ok bs => data := bs
  appendRecord dstFd rtMsgPush (pushPayload m.id m.queueName data) offset

/-- `compact_write_lease` -/
def compactWriteLease (dstFd : Fd) (m : Msg) (offset : UInt64) :
    Cmd (Rc × UInt64) :=
  appendRecord dstFd rtMsgLease
    (leasePayload m.id m.leaseExpiryUs m.leaseId) offset

/-- CHECKPOINT payload. -/
def checkpointPayload (now nextMsgId nextLeaseId : UInt64) : Bytes :=
  putU64le now ++ putU64le nextMsgId ++ putU64le nextLeaseId

/-- `compact_write_checkpoint` -/
def compactWriteCheckpoint (dstFd : Fd) (db : Db) (offset : UInt64) :
    Cmd (Rc × UInt64) := do
  let now ← timeUs
  appendRecord dstFd rtCheckpoint
    (checkpointPayload now db.nextMsgId db.nextLeaseId) offset

/-- The FIFO walk of `qdb_compact` over one queue. -/
def compactChain (srcFd dstFd : Fd) (st : State) :
    Nat → UInt64 → UInt64 → Cmd (Rc × UInt64)
  | 0, _, _ => .stuck
  | fuel + 1, mId, offset => do
      if mId = 0 then return (.ok, offset)
      match st.msgGet mId with
      | none => return (.errCorrupt, offset)
      | some m =>
          let (rc, offset) ← compactWritePush srcFd dstFd m offset
          if rc ≠ .ok then return (rc, offset)
          compactChain srcFd dstFd st fuel m.nextPending offset

/-- The queue loop of `qdb_compact`. -/
def compactPending (srcFd dstFd : Fd) (st : State) :
    List Queue → UInt64 → Cmd (Rc × UInt64)
  | [], offset => return (.ok, offset)
  | q :: qs, offset => do
      let (rc, offset) ← compactChain srcFd dstFd st
        (st.msgs.length + 1) q.pendingHead offset
      if rc ≠ .ok then return (rc, offset)
      compactPending srcFd dstFd st qs offset

/-- The lease loop of `qdb_compact`. -/
def compactLeased (srcFd dstFd : Fd) (st : State) :
    List Lease → UInt64 → Cmd (Rc × UInt64)
  | [], offset => return (.ok, offset)
  | l :: ls, offset => do
      match st.msgGet l.msgId with
      | none => return (.errCorrupt, offset)
      | some m =>
          let (rc, offset) ← compactWritePush srcFd dstFd m offset
          if rc ≠ .ok then return (rc, offset)
          let (rc, offset) ← compactWriteLease dstFd m offset
          if rc ≠ .ok then return (rc, offset)
          compactLeased srcFd dstFd st ls offset

/-- `cmeta`: the header fields of the staging file. -/
def compactMeta (db : Db) : Db :=
  { Db.zero with
    createTimeUs := db.createTimeUs
    nextMsgId := db.nextMsgId
    nextLeaseId := db.nextLeaseId
    logStartOffset := hdrSize
    logEndOffset := hdrSize
    flags := flagDirty }

/-- The part of `qdb_compact` that fills and syncs the staging file. -/
def compactStage (db : Db) (compactFd : Fd) : Cmd Rc := do
  let cmeta := compactMeta db
  let rc ← headerWrite compactFd cmeta
  if rc ≠ .ok then return rc
  match db.state with
  | none => .stuck
  | some st =>
      let (rc, off) ← compactPending db.fd compactFd st st.queues hdrSize
      if rc ≠ .ok then return rc
      let (rc, off) ← compactLeased db.fd compactFd st st.leases off
      if rc ≠ .ok then return rc
      let (rc, off) ← compactWriteCheckpoint compactFd db off
      if rc ≠ .ok then return rc
      let rc ← headerUpdate compactFd { cmeta with logEndOffset := off }
      if rc ≠ .ok then return rc
      fileSync compactFd

/-- The `fail` exit of `qdb__reopen_after_compact`. -/
def reopenFail (db : Db) (rc : Rc) : Cmd (Rc × Db) := do
  if db.fd ≠ none then fileClose db.fd
  return (rc, { db with fd := none, state := none })

/-- `qdb__reopen_after_compact` -/
def reopenAfterCompact (db : Db) : Cmd (Rc × Db) := do
  if db.fd ≠ none then fileClose db.fd
  let db := { db with fd := none }
  match ← fileOpen .main false with
  | .error rc => reopenFail db rc
  | .ok (fd, _) =>
      let db := { db with fd := fd }
      let (rc, db) ← headerRead db.fd db
      if rc ≠ .ok then return (← reopenFail db rc)
      let (rc, db) ← recover { db with nextLeaseId := 1 }
      if rc ≠ .ok then return (← reopenFail db rc)
      return (.ok, db)

/-- `qdb_compact` for a build target. -/
def qdbCompactOn (target : Target) (db : Db) : Cmd (Rc × Db) := do
  if ¬ (← alloc) then return (.errNomem, db)
  let _ ← fileDelete .compact
  match ← fileOpen .compact true with
  | .error rc =>
      let _ ← fileDelete .compact
      return (rc, db)
  | .ok (compactFd, _) =>
      let rc ← compactStage db compactFd
      fileClose compactFd
      if rc ≠ .ok then
        let _ ← fileDelete .compact
        return (rc, db)
      let mut db := db
      if target = .win32 then
        fileClose db.fd
        db := { db with fd := none }
      let rc ← fileRename .compact .main
      if rc ≠ .ok then
        let _ ← fileDelete .compact
        return (rc, db)
      reopenAfterCompact db

/-- `qdb_compact` -/
def qdbCompact := qdbCompactOn .posix

end Qdb
