import Qdb.Replay

/-!
# Opening and closing a database

WAL replay, log validation, `qdb_open_err` and `qdb_close` of `qdb.c`.
-/

namespace Qdb

open Lib

/-- `qdb__free_db` -/
def freeDb (db : Db) : Cmd Unit := do
  if db.fd ≠ none then fileClose db.fd
  if db.lockFd ≠ none then
    fileUnlock db.lockFd
    lockfileClose db.lockFd

/-- The record loop of `replay_wal`. -/
def replayWalLoop (walFd : Fd) (walSize : UInt64) :
    Nat → Db → UInt64 → Cmd (Rc × Db)
  | 0, _, _ => .stuck
  | fuel + 1, db, walOffset => do
      if ¬ walOffset < walSize then return (.ok, db)
      match ← scanRecord walFd walOffset walSize with
      | .scanEnd => return (.ok, db)
      | .scanPartial => return (.ok, db)
      | .err rc => return (rc, db)
      | .record type plen next =>
          let mut payload : Bytes := []
          if plen > 0 then
            if ¬ (← alloc) then return (.errNomem, db)
            match ← readPayload walFd (walOffset + recHdrSize) plen with
            | .error rc => return (rc, db)
            | .ok bs => payload := bs
          let (rc, logEnd) ← appendRecord db.fd type payload db.logEndOffset
          if rc ≠ .ok then return (rc, db)
          replayWalLoop walFd walSize fuel
            { db with logEndOffset := logEnd } next

/-- Checks of the WAL header in `replay_wal`. -/
def walHeaderValid (hdr : Bytes) : Bool :=
  hdr.take 8 == sWalMagic &&
    getU32le (hdr.drop 20) == crc32 (hdr.take walHdrCrcCover) &&
    !(getU32le (hdr.drop 8) < 1 || getU32le (hdr.drop 8) > formatVersion)

/-- `replay_wal` -/
def replayWal (db : Db) : Cmd (Rc × Db) := do
  match ← fileOpen .wal false with
  | .error _ => return (.ok, db)
  | .ok (walFd, _) =>
      let walSize ← fileSize walFd
      match walSize with
      | .error _ =>
          fileClose walFd
          let _ ← fileDelete .wal
          return (.ok, db)
      | .ok walSize =>
          if walSize < walHdrSize then
            fileClose walFd
            let _ ← fileDelete .wal
            return (.ok, db)
          match ← readFull walFd 64 0 with
          | .error _ =>
              fileClose walFd
              return (.errIo, db)
          | .ok hdr =>
              if ¬ walHeaderValid hdr then
                fileClose walFd
                return (.errCorrupt, db)
              let (rc, db) ← replayWalLoop walFd walSize
                (walSize.toNat + 1) db walHdrSize
              fileClose walFd
              if rc ≠ .ok then return (rc, db)
              let db := { db with flags := db.flags &&& ~~~flagWalPresent }
              if (← headerUpdate db.fd db) ≠ .ok then
                return (.errIo, db)
              let _ ← fileDelete .wal
              return (.ok, db)

/-- The scan loop of `validate_log`. -/
def validateLoop : Nat → Db → UInt64 → Cmd (Rc × Db)
  | 0, _, _ => .stuck
  | fuel + 1, db, offset => do
      if ¬ offset < db.logEndOffset then return (.ok, db)
      match ← scanRecord db.fd offset db.logEndOffset with
      | .scanEnd => return (.ok, db)
      | .scanPartial =>
          if (← fileTruncate db.fd offset) ≠ .ok then
            return (.errIo, db)
          let db := { db with logEndOffset := offset }
          return (← headerUpdate db.fd db, db)
      | .err rc => return (rc, db)
      | .record _ _ next => validateLoop fuel db next

/-- `validate_log` -/
def validateLog (db : Db) : Cmd (Rc × Db) :=
  validateLoop (db.logEndOffset.toNat - db.logStartOffset.toNat + 1)
    db db.logStartOffset

/-- Steps 4 to 8 of `qdb_open_err`, which `qdb__reopen_after_compact`
repeats: WAL replay, truncation, log scan, log replay and header update. -/
def recover (db : Db) : Cmd (Rc × Db) := do
  let (rc, db) ←
    if db.flags &&& flagWalPresent ≠ 0 ∨ db.flags &&& flagDirty ≠ 0 then
      replayWal db
    else pure (.ok, db)
  if rc ≠ .ok then return (rc, db)
  match ← fileSize db.fd with
  | .error rc => return (rc, db)
  | .ok fileSz =>
      if fileSz > db.logEndOffset then
        let rc ← fileTruncate db.fd db.logEndOffset
        if rc ≠ .ok then return (rc, db)
      let (rc, db) ← validateLog db
      if rc ≠ .ok then return (rc, db)
      let (rc, db) ← replayLog { db with state := none }
      if rc ≠ .ok then return (rc, db)
      let db := { db with flags := db.flags ||| flagDirty }
      return (← headerUpdate db.fd db, db)

/-- The lease timeout `qdb_open_err` takes from its options. -/
def leaseTimeoutOf (leaseTimeoutS : UInt32) : UInt64 :=
  if leaseTimeoutS ≠ 0 then leaseTimeoutS.toUInt64 * 1000000
  else defaultLeaseUs

/-- A failure exit of `qdb_open_err`. -/
def openFail (db : Db) (rc : Rc) : Cmd (Rc × Option Db) := do
  freeDb db
  return (rc, none)

/-- The new-file path of `qdb_open_err`. -/
def openNew (db : Db) : Cmd (Rc × Option Db) := do
  let now ← timeUs
  let db := { db with
    nextMsgId := 1
    nextLeaseId := 1
    logStartOffset := hdrSize
    logEndOffset := hdrSize
    createTimeUs := now
    flags := flagDirty }
  if (← headerWrite db.fd db) ≠ .ok then return (← openFail db .errIo)
  if ¬ (← alloc) then return (← openFail db .errNomem)
  return (.ok, some { db with state := some .empty })

/-- The existing-file path of `qdb_open_err` (steps 3 to 8). -/
def openExisting (db : Db) : Cmd (Rc × Option Db) := do
  let (rc, db) ← headerRead db.fd db
  if rc ≠ .ok then return (← openFail db rc)
  let (rc, db) ← recover { db with nextLeaseId := 1 }
  if rc ≠ .ok then return (← openFail db rc)
  return (.ok, some db)

/-- `qdb_open_err`; `leaseTimeoutS` is 0 when no options are given. -/
def qdbOpenErr (leaseTimeoutS : UInt32) : Cmd (Rc × Option Db) := do
  if ¬ (← alloc) then return (.errNomem, none)
  let db := { Db.zero with leaseTimeoutUs := leaseTimeoutOf leaseTimeoutS }
  -- db->path, db->wal_path and db->lock_path
  let okPath ← alloc
  let okWal ← alloc
  let okLock ← alloc
  if ¬ (okPath ∧ okWal ∧ okLock) then return (← openFail db .errNomem)
  match ← lockfileOpen with
  | .error rc => openFail db rc
  | .ok lockFd =>
      let rc ← fileLock lockFd
      if rc ≠ .ok then
        lockfileClose lockFd
        return (← openFail db rc)
      let db := { db with lockFd := lockFd }
      -- stale staging file of an interrupted qdb_compact
      if ← alloc then
        let _ ← fileDelete .compact
      match ← fileOpen .main true with
      | .error rc => openFail db rc
      | .ok (fd, isNew) =>
          let db := { db with fd := fd }
          if isNew then openNew db
          else openExisting db

/-- `qdb_close` on a non-NULL handle. -/
def qdbClose (db : Db) : Cmd Unit := do
  if db.fd ≠ none then
    let db := { db with
      flags := db.flags &&& ~~~(flagDirty ||| flagWalPresent) }
    let _ ← headerUpdate db.fd db
  freeDb db

end Qdb
