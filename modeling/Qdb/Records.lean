import Qdb.Updates
import Qdb.Compact

/-!
# Records and their meaning

A log is a list of framed records.  This module gives records a meaning of
their own, away from files: what a payload says (`Entry`), and what replaying a
list of records does to the counters and tables (`replayRecords`), with nothing
where replay reports corruption.
-/

namespace Qdb

open Lib

/-- A framed record: a known type and a payload within the size limit. -/
structure Record where
  type : UInt8
  payload : Bytes
  known : isKnownType type = true
  fits : payload.length ≤ 67109376
deriving DecidableEq

namespace Record

/-- The bytes of a committed record. -/
def encode (r : Record) : Bytes :=
  recordHeader r.type r.payload ++ (r.payload ++ [commitMarker])

/-- Length of a committed record. -/
def size (r : Record) : Nat :=
  10 + r.payload.length

@[simp] theorem length_encode (r : Record) : r.encode.length = r.size := by
  simp [encode, recordHeader, size]
  omega

theorem size_pos (r : Record) : 0 < r.size := by
  unfold size
  omega

end Record

/-- The bytes of a log. -/
def encodeLog (rs : List Record) : Bytes :=
  rs.flatMap Record.encode

@[simp] theorem encodeLog_nil : encodeLog [] = [] := by
  rfl

@[simp] theorem encodeLog_cons (r : Record) (rs : List Record) :
    encodeLog (r :: rs) = r.encode ++ encodeLog rs := by
  rfl

@[simp] theorem encodeLog_append (rs rs' : List Record) :
    encodeLog (rs ++ rs') = encodeLog rs ++ encodeLog rs' := by
  simp [encodeLog]

/-- What a record says. -/
inductive Entry
  | push (id : UInt64) (name : QueueName) (data : Bytes)
  | lease (id expiryUs leaseId : UInt64)
  | ack (id leaseId : UInt64)
  | nack (id leaseId : UInt64)
  | expire (id leaseId : UInt64)
  | checkpoint (nextMsgId nextLeaseId : UInt64)
  | padding
deriving DecidableEq

/-- Payload of a PUSH record: id, name length, name, data. -/
def decodePush (p : Bytes) : Option Entry :=
  let n := (p.getD 8 0).toNat
  let name := (p.drop 9).take n
  if h : 10 ≤ p.length ∧ 1 ≤ n ∧ 9 + n ≤ p.length then
    some (.push (getU64le p)
      ⟨name, by simp [name]; omega, by
        have := (p.getD 8 0).toNat_lt
        change name.length ≤ 255
        simp [name]
        omega⟩
      (p.drop (9 + n)))
  else none

/-- Payload of a LEASE record. -/
def decodeLease (p : Bytes) : Option Entry :=
  if p.length = 24 then
    some (.lease (getU64le p) (getU64le (p.drop 8)) (getU64le (p.drop 16)))
  else none

/-- Payload of an ACK, NACK or EXPIRE record. -/
def decodeResolve (entry : UInt64 → UInt64 → Entry) (p : Bytes) :
    Option Entry :=
  if p.length = 16 then
    some (entry (getU64le p) (getU64le (p.drop 8)))
  else none

/-- Payload of a CHECKPOINT record. -/
def decodeCheckpoint (p : Bytes) : Option Entry :=
  if p.length = 24 then
    some (.checkpoint (getU64le (p.drop 8)) (getU64le (p.drop 16)))
  else none

/-- What a record says, when its payload has the shape its type asks for. -/
def Record.entry (r : Record) : Option Entry :=
  if r.type = rtMsgPush then decodePush r.payload
  else if r.type = rtMsgLease then decodeLease r.payload
  else if r.type = rtMsgAck then decodeResolve .ack r.payload
  else if r.type = rtMsgNack then decodeResolve .nack r.payload
  else if r.type = rtMsgExpire then decodeResolve .expire r.payload
  else if r.type = rtCheckpoint then decodeCheckpoint r.payload
  else some .padding

/-- The part of a handle that replay builds. -/
structure Mem where
  nextMsgId : UInt64
  nextLeaseId : UInt64
  st : State

/-- Store the result of a replay in a handle. -/
def Db.withMem (db : Db) (mem : Mem) : Db :=
  { db with
    nextMsgId := mem.nextMsgId
    nextLeaseId := mem.nextLeaseId
    state := some mem.st }

namespace Mem

/-- The checks and the update of `replay_lease`. -/
def applyLease (mem : Mem) (id e l : UInt64) : Option Mem :=
  if l = 0 then none
  else
    match mem.st.msgGet id with
    | none => none
    | some m =>
        if m.state ≠ .pending then none
        else if (mem.st.leaseGet l).isSome then none
        else
          match mem.st.queueGet m.queueName with
          | none => none
          | some q =>
              some { mem with
                nextLeaseId :=
                  if l ≥ mem.nextLeaseId then l + 1 else mem.nextLeaseId
                st := replayLeaseState mem.st q m l e }

/-- The checks of `replay_ack` and `replay_nack`, then the update. -/
def applyResolve (mem : Mem)
    (resolve : State → Queue → Msg → UInt64 → State) (id l : UInt64) :
    Option Mem :=
  match mem.st.msgGet id with
  | none => none
  | some m =>
      if m.state ≠ .leased then none
      else if m.leaseId ≠ l then none
      else
        match mem.st.queueGet m.queueName with
        | none => none
        | some q => some { mem with st := resolve mem.st q m l }

/-- The effect of one record; nothing when replay reports corruption. -/
def apply (mem : Mem) (payloadOff : UInt64) : Entry → Option Mem
  | .push id name data =>
      if id = 0 then none
      else if (mem.st.msgGet id).isSome then none
      else some { mem with
        nextMsgId := if id ≥ mem.nextMsgId then id + 1 else mem.nextMsgId
        st := mem.st.addMsg
          (newMsg id (payloadOff + 9 + name.len.toUInt64)
            (UInt32.ofNat data.length) name) }
  | .lease id e l => mem.applyLease id e l
  | .ack id l => mem.applyResolve replayAckState id l
  | .nack id l => mem.applyResolve replayNackState id l
  | .expire id l => mem.applyResolve replayNackState id l
  | .checkpoint nm nl =>
      some { mem with
        nextMsgId := if nm > mem.nextMsgId then nm else mem.nextMsgId
        nextLeaseId := if nl > mem.nextLeaseId then nl else mem.nextLeaseId }
  | .padding => some mem

end Mem

/-- Replay of one record whose first byte is at `off`. -/
def Record.replay (r : Record) (off : UInt64) (mem : Mem) : Option Mem :=
  r.entry.bind (mem.apply (off + recHdrSize))

/-- Replay of a list of records that starts at `off`. -/
def replayRecords : UInt64 → List Record → Mem → Option Mem
  | _, [], mem => some mem
  | off, r :: rs, mem =>
      (r.replay off mem).bind
        (replayRecords (off + UInt64.ofNat r.size) rs)

theorem replayRecords_append (rs rs' : List Record) (off : UInt64)
    (mem : Mem) :
    replayRecords off (rs ++ rs') mem =
      (replayRecords off rs mem).bind
        (replayRecords (off + UInt64.ofNat (encodeLog rs).length) rs') := by
  induction rs generalizing off mem with
  | nil =>
      simp [replayRecords]
  | cons r rs ih =>
      simp only [List.cons_append, replayRecords, Option.bind_assoc]
      congr 1
      funext mem'
      rw [ih]
      congr 2
      simp [UInt64.add_assoc]

/-- The state replay starts from. -/
def Mem.start (nextMsgId : UInt64) : Mem where
  nextMsgId := nextMsgId
  nextLeaseId := 1
  st := .empty

section Constructors

/-- Queue name and data of a message, together within the record size. -/
structure Body where
  name : QueueName
  data : Bytes
  fits : 9 + name.bytes.length + data.length ≤ 67109376
deriving DecidableEq

/-- PUSH record of `qdb_push` and `compact_write_push`. -/
def pushRecord (id : UInt64) (b : Body) : Record where
  type := rtMsgPush
  payload := pushPayload id b.name b.data
  known := by decide
  fits := by
    have h := b.fits
    simp [pushPayload]
    omega

/-- LEASE record. -/
def leaseRecord (id e l : UInt64) : Record where
  type := rtMsgLease
  payload := leasePayload id e l
  known := by decide
  fits := by simp [leasePayload]

/-- ACK record. -/
def ackRecord (id l : UInt64) : Record where
  type := rtMsgAck
  payload := ackPayload id l
  known := by decide
  fits := by simp [ackPayload]

/-- NACK record. -/
def nackRecord (id l : UInt64) : Record where
  type := rtMsgNack
  payload := ackPayload id l
  known := by decide
  fits := by simp [ackPayload]

/-- EXPIRE record. -/
def expireRecord (id l : UInt64) : Record where
  type := rtMsgExpire
  payload := ackPayload id l
  known := by decide
  fits := by simp [ackPayload]

/-- CHECKPOINT record. -/
def checkpointRecord (now nm nl : UInt64) : Record where
  type := rtCheckpoint
  payload := checkpointPayload now nm nl
  known := by decide
  fits := by simp [checkpointPayload]

theorem QueueName.toNat_len (n : QueueName) :
    n.len.toNat = n.bytes.length := by
  have hn : n.bytes.length ≤ 255 := n.length_le
  simp [QueueName.len]
  omega

theorem drop_putU64le (v : UInt64) (rest : Bytes) :
    (putU64le v ++ rest).drop 8 = rest := by
  rw [List.drop_append_of_le_length (by simp)]
  simp

theorem getU64le_second (a b : UInt64) (rest : Bytes) :
    getU64le ((putU64le a ++ (putU64le b ++ rest)).drop 8) = b := by
  rw [drop_putU64le, getU64le_putU64le]

theorem getU64le_third (a b c : UInt64) (rest : Bytes) :
    getU64le ((putU64le a ++ (putU64le b ++ (putU64le c ++ rest))).drop 16) =
      c := by
  rw [show 16 = 8 + 8 from rfl, ← List.drop_drop, drop_putU64le,
    drop_putU64le, getU64le_putU64le]

theorem pushPayload_eq (id : UInt64) (name : QueueName) (data : Bytes) :
    pushPayload id name data =
      putU64le id ++ (name.len :: (name.bytes ++ data)) := by
  simp [pushPayload]

theorem leasePayload_eq (id e l : UInt64) :
    leasePayload id e l = putU64le id ++ (putU64le e ++ (putU64le l ++ [])) := by
  simp [leasePayload]

theorem ackPayload_eq (id l : UInt64) :
    ackPayload id l = putU64le id ++ (putU64le l ++ []) := by
  simp [ackPayload]

theorem checkpointPayload_eq (now nm nl : UInt64) :
    checkpointPayload now nm nl =
      putU64le now ++ (putU64le nm ++ (putU64le nl ++ [])) := by
  simp [checkpointPayload]

theorem decodePush_pushPayload (id : UInt64) (name : QueueName)
    (data : Bytes) :
    decodePush (pushPayload id name data) = some (.push id name data) := by
  have hd8 : (pushPayload id name data).drop 8 =
      name.len :: (name.bytes ++ data) := by
    rw [pushPayload_eq, drop_putU64le]
  have h8 : (pushPayload id name data).getD 8 0 = name.len := by
    rw [List.getD_eq_getElem?_getD, ← List.head?_drop, hd8]
    rfl
  have h9 : (pushPayload id name data).drop 9 = name.bytes ++ data := by
    rw [show 9 = 8 + 1 from rfl, ← List.drop_drop, hd8]
    rfl
  have hrest : (pushPayload id name data).drop (9 + name.bytes.length) =
      data := by
    rw [← List.drop_drop, h9, List.drop_left]
  have hid : getU64le (pushPayload id name data) = id := by
    rw [pushPayload_eq, getU64le_putU64le]
  have hlen : (pushPayload id name data).length =
      9 + name.bytes.length + data.length := by
    simp [pushPayload]
    omega
  have hn := name.nonempty
  unfold decodePush
  simp only [h8, name.toNat_len, hid]
  rw [dif_pos (by omega)]
  simp only [h9, hrest, List.take_left]

theorem decodeLease_leasePayload (id e l : UInt64) :
    decodeLease (leasePayload id e l) = some (.lease id e l) := by
  unfold decodeLease
  rw [leasePayload_eq, if_pos (by simp), getU64le_putU64le, getU64le_second,
    getU64le_third]

theorem decodeResolve_ackPayload (entry : UInt64 → UInt64 → Entry)
    (id l : UInt64) :
    decodeResolve entry (ackPayload id l) = some (entry id l) := by
  unfold decodeResolve
  rw [ackPayload_eq, if_pos (by simp), getU64le_putU64le, getU64le_second]

theorem decodeCheckpoint_checkpointPayload (now nm nl : UInt64) :
    decodeCheckpoint (checkpointPayload now nm nl) =
      some (.checkpoint nm nl) := by
  unfold decodeCheckpoint
  rw [checkpointPayload_eq, if_pos (by simp), getU64le_second,
    getU64le_third]

@[simp] theorem entry_pushRecord (id : UInt64) (b : Body) :
    (pushRecord id b).entry = some (.push id b.name b.data) := by
  simp [Record.entry, pushRecord, decodePush_pushPayload]

@[simp] theorem entry_leaseRecord (id e l : UInt64) :
    (leaseRecord id e l).entry = some (.lease id e l) := by
  simp [Record.entry, leaseRecord, decodeLease_leasePayload, rtMsgPush,
    rtMsgLease]

@[simp] theorem entry_ackRecord (id l : UInt64) :
    (ackRecord id l).entry = some (.ack id l) := by
  simp [Record.entry, ackRecord, decodeResolve_ackPayload, rtMsgPush,
    rtMsgLease, rtMsgAck]

@[simp] theorem entry_nackRecord (id l : UInt64) :
    (nackRecord id l).entry = some (.nack id l) := by
  simp [Record.entry, nackRecord, decodeResolve_ackPayload, rtMsgPush,
    rtMsgLease, rtMsgAck, rtMsgNack]

@[simp] theorem entry_expireRecord (id l : UInt64) :
    (expireRecord id l).entry = some (.expire id l) := by
  simp [Record.entry, expireRecord, decodeResolve_ackPayload, rtMsgPush,
    rtMsgLease, rtMsgAck, rtMsgNack, rtMsgExpire]

@[simp] theorem entry_checkpointRecord (now nm nl : UInt64) :
    (checkpointRecord now nm nl).entry = some (.checkpoint nm nl) := by
  simp [Record.entry, checkpointRecord, decodeCheckpoint_checkpointPayload,
    rtMsgPush, rtMsgLease, rtMsgAck, rtMsgNack, rtMsgExpire, rtCheckpoint]

end Constructors

end Qdb
