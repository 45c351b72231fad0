import Qdb.Crc32
import Qdb.State

/-!
# Record-level I/O

The header codec, the durable append protocol and the record scanner of
`qdb_io.c`.
-/

namespace Qdb

open Lib

/-- `qdb__read_full` -/
def readFull (fd : Fd) (len : Nat) (off : UInt64) :
    Cmd (Except Rc Bytes) := do
  match ← pread fd len off with
  | .error rc => return .error rc
  | .ok bs =>
      if bs.length = len then return .ok bs
      else return .error .errIo

/-- `qdb__write_full` -/
def writeFull (fd : Fd) (bs : Bytes) (off : UInt64) : Cmd Rc :=
  pwrite fd bs off

/-- The checksummed header bytes 0..51. -/
def headerFields (db : Db) : Bytes :=
  kFileMagic ++ putU32le formatVersion ++ putU32le pageSize ++
    putU64le db.createTimeUs ++ putU64le db.nextMsgId ++
    putU64le db.logStartOffset ++ putU64le db.logEndOffset ++
    putU32le db.flags

/-- `header_encode` -/
def headerEncode (db : Db) : Bytes :=
  headerFields db ++ putU32le (crc32 (headerFields db)) ++
    List.replicate 4040 0

/-- `header_decode` -/
def headerDecode (buf : Bytes) (db : Db) : Rc × Db :=
  if buf.take 8 ≠ kFileMagic then (.errCorrupt, db)
  else if crc32 (buf.take hdrCrcCover) ≠ getU32le (buf.drop 52) then
    (.errCorrupt, db)
  else if getU32le (buf.drop 8) < 1 ∨
      getU32le (buf.drop 8) > formatVersion then
    (.errCorrupt, db)
  else if getU32le (buf.drop 12) ≠ pageSize then (.errCorrupt, db)
  else
    let db := { db with
      createTimeUs := getU64le (buf.drop 16)
      nextMsgId := getU64le (buf.drop 24)
      logStartOffset := getU64le (buf.drop 32)
      logEndOffset := getU64le (buf.drop 40)
      flags := getU32le (buf.drop 48) }
    if db.logStartOffset < hdrSize ∨
        db.logEndOffset < db.logStartOffset then
      (.errCorrupt, db)
    else
      (.ok, db)

/-- `qdb__header_write` -/
def headerWrite (fd : Fd) (db : Db) : Cmd Rc := do
  if (← writeFull fd (headerEncode db) 0) ≠ .ok then return .errIo
  fileSync fd

/-- `qdb__header_read` -/
def headerRead (fd : Fd) (db : Db) : Cmd (Rc × Db) := do
  match ← fileSize fd with
  | .error _ => return (.errIo, db)
  | .ok fileSz =>
      if fileSz < hdrSize then return (.errCorrupt, db)
      match ← readFull fd 4096 0 with
      | .error _ => return (.errIo, db)
      | .ok buf => return headerDecode buf db

/-- The 32 bytes `qdb__header_update` writes at offset 24. -/
def headerPatch (db : Db) : Bytes :=
  putU64le db.nextMsgId ++ putU64le db.logStartOffset ++
    putU64le db.logEndOffset ++ putU32le db.flags ++
    putU32le (crc32 (headerFields db))

/-- `qdb__header_update` -/
def headerUpdate (fd : Fd) (db : Db) : Cmd Rc := do
  if (← writeFull fd (headerPatch db) 24) ≠ .ok then return .errIo
  fileSync fd

/-- Record header: type, payload length, payload checksum. -/
def recordHeader (type : UInt8) (payload : Bytes) : Bytes :=
  type :: (putU32le (UInt32.ofNat payload.length) ++ putU32le (crc32 payload))

/-- `qdb__append_record`: code and the advanced offset. -/
def appendRecord (fd : Fd) (type : UInt8) (payload : Bytes)
    (offset : UInt64) : Cmd (Rc × UInt64) := do
  let plen := UInt32.ofNat payload.length
  let payloadOff := offset + recHdrSize
  let markerOff := payloadOff + plen.toUInt64
  if (← writeFull fd (recordHeader type payload) offset) ≠ .ok then
    return (.errIo, offset)
  if plen > 0 then
    if (← writeFull fd payload payloadOff) ≠ .ok then
      return (.errIo, offset)
  if (← fileSync fd) ≠ .ok then return (.errIo, offset)
  if (← writeFull fd [commitMarker] markerOff) ≠ .ok then
    return (.errIo, offset)
  if (← fileSync fd) ≠ .ok then return (.errIo, offset)
  return (.ok, markerOff + 1)

/-- `is_known_type` -/
def isKnownType (type : UInt8) : Bool :=
  type == rtMsgPush || type == rtMsgLease || type == rtMsgAck ||
    type == rtMsgNack || type == rtMsgExpire || type == rtCheckpoint ||
    type == rtPadding

/-- Return codes of `qdb__scan_record` with its output parameters. -/
inductive ScanResult
  | record (type : UInt8) (plen : UInt32) (offset : UInt64)
  | scanEnd
  | scanPartial
  | err (rc : Rc)
deriving DecidableEq, Repr

/-- The checksum loop of `qdb__scan_record`, in chunks of 4096 bytes. -/
def scanChunks (fd : Fd) (payloadOff : UInt64) (plen : UInt32) :
    Nat → UInt32 → UInt32 → Cmd (Except Rc UInt32)
  | 0, _, _ => .stuck
  | fuel + 1, crcState, remaining => do
      if remaining = 0 then return .ok crcState
      let toRead := if remaining < 4096 then remaining else 4096
      let chunkOff := payloadOff + (plen - remaining).toUInt64
      match ← readFull fd toRead.toNat chunkOff with
      | .error _ => return .error .errIo
      | .ok chunk =>
          scanChunks fd payloadOff plen fuel
            (crc32Update crcState chunk) (remaining - toRead)

/-- `qdb__scan_record` -/
def scanRecord (fd : Fd) (offset endOffset : UInt64) :
    Cmd ScanResult := do
  if offset ≥ endOffset then return .scanEnd
  if endOffset - offset < recHdrSize + 1 then return .scanPartial
  match ← readFull fd 9 offset with
  | .error _ => return .err .errIo
  | .ok hdr =>
      let plen := getU32le (hdr.drop 1)
      let storedCrc := getU32le (hdr.drop 5)
      if plen > maxRecordPayload then return .err .errCorrupt
      let payloadOff := offset + recHdrSize
      let markerOff := payloadOff + plen.toUInt64
      let recordEnd := markerOff + 1
      if recordEnd > endOffset then return .scanPartial
      match ← readFull fd 1 markerOff with
      | .error _ => return .err .errIo
      | .ok marker =>
          if marker ≠ [commitMarker] then return .scanPartial
          if ¬ isKnownType (hdr.getD 0 0) then return .err .errCorrupt
          match ← scanChunks fd payloadOff plen (plen.toNat + 1)
              crc32Begin plen with
          | .error _ => return .err .errIo
          | .ok crcState =>
              if crc32End crcState ≠ storedCrc then
                return .err .errCorrupt
              return .record (hdr.getD 0 0) plen recordEnd

/-- `qdb__read_payload` -/
def readPayload (fd : Fd) (payloadOffset : UInt64) (plen : UInt32) :
    Cmd (Except Rc Bytes) :=
  readFull fd plen.toNat payloadOffset

end Qdb
