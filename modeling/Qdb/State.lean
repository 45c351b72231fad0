import Qdb.Lib.ChainedTable
import Qdb.Platform

/-!
# In-memory queue state

The message, queue and lease tables of `qdb_state.c` and the database handle of
`qdb_internal.h`.

A pointer into a table is represented by the node it was found at: functions
that receive a node read its fields from the value and write through its key.
The number of list links, counters and identifiers is the machine's, so
arithmetic on them wraps.
-/

namespace Qdb

open Lib

/-- `qdb_msg_state_t` -/
inductive MsgState
  | pending
  | leased
  | acked
  | dead
deriving DecidableEq, Repr

/-- A queue name with its length byte: between 1 and 255 bytes. -/
structure QueueName where
  bytes : Bytes
  nonempty : 1 ≤ bytes.length
  length_le : bytes.length ≤ queueNameMax
deriving DecidableEq, Repr

/-- `queue_name_len` -/
def QueueName.len (q : QueueName) : UInt8 :=
  UInt8.ofNat q.bytes.length

/-- `struct qdb__msg` -/
structure Msg where
  id : UInt64
  dataFileOffset : UInt64
  dataLen : UInt32
  queueName : QueueName
  state : MsgState
  leaseId : UInt64
  leaseExpiryUs : UInt64
  retryCount : UInt32
  nextPending : UInt64
  prevPending : UInt64
deriving DecidableEq, Repr

/-- `struct qdb__queue` -/
structure Queue where
  name : QueueName
  pendingCount : UInt32
  leasedCount : UInt32
  ackedCount : UInt32
  pendingHead : UInt64
  pendingTail : UInt64
deriving DecidableEq, Repr

/-- `struct qdb__lease` -/
structure Lease where
  leaseId : UInt64
  msgId : UInt64
  expiryUs : UInt64
deriving DecidableEq, Repr

theorem shift_54_lt (h : UInt64) : (h >>> 54).toNat < 1024 := by
  have hh := h.toNat_lt
  simp [Nat.shiftRight_eq_div_pow]
  omega

/-- `msg_bucket`: Fibonacci hashing into `QDB__MSG_BUCKETS`. -/
def msgBucket (id : UInt64) : Fin 1024 :=
  ⟨((id * 11400714819323198485) >>> 54).toNat, shift_54_lt _⟩

/-- `lease_bucket`: Fibonacci hashing into `QDB__LEASE_BUCKETS`. -/
def leaseBucket (id : UInt64) : Fin 1024 :=
  ⟨((id * 11400714819323198485) >>> 54).toNat, shift_54_lt _⟩

theorem and_63_lt (h : UInt32) : (h &&& 63).toNat < 64 := by
  have e : h.toNat &&& 63 = h.toNat % 64 :=
    Nat.and_two_pow_sub_one_eq_mod h.toNat 6
  simp only [UInt32.toNat_and, UInt32.reduceToNat, e]
  omega

/-- `queue_bucket`: FNV-1a over the name bytes into `QDB__QUEUE_BUCKETS`. -/
def queueBucket (name : QueueName) : Fin 64 :=
  ⟨((name.bytes.foldl (fun (h : UInt32) (c : UInt8) => (h ^^^ c.toUInt32) * 16777619)
      2166136261) &&& 63).toNat, and_63_lt _⟩

/-- `struct qdb__state` -/
structure State where
  msgBuckets : Table 1024 Msg
  queueBuckets : Table 64 Queue
  leaseBuckets : Table 1024 Lease
  msgCount : UInt64
  queueCount : UInt64
  leaseCount : UInt64

namespace State

/-- The state `qdb__state_alloc` returns. -/
def empty : State where
  msgBuckets := Table.empty
  queueBuckets := Table.empty
  leaseBuckets := Table.empty
  msgCount := 0
  queueCount := 0
  leaseCount := 0

/-- `qdb__msg_get` -/
def msgGet (st : State) (id : UInt64) : Option Msg :=
  Table.lookup msgBucket Msg.id st.msgBuckets id

/-- `qdb__msg_insert` -/
def msgInsert (st : State) (m : Msg) : State :=
  { st with
    msgBuckets := Table.insert msgBucket Msg.id st.msgBuckets m
    msgCount := st.msgCount + 1 }

/-- Assignments through a `struct qdb__msg` pointer. -/
def modifyMsg (st : State) (id : UInt64) (f : Msg → Msg) : State :=
  { st with msgBuckets := Table.modify msgBucket Msg.id st.msgBuckets id f }

/-- `qdb__queue_get` -/
def queueGet (st : State) (name : QueueName) : Option Queue :=
  Table.lookup queueBucket Queue.name st.queueBuckets name

/-- The entry `qdb__queue_get_or_create` allocates for a new name. -/
def newQueue (name : QueueName) : Queue where
  name := name
  pendingCount := 0
  leasedCount := 0
  ackedCount := 0
  pendingHead := 0
  pendingTail := 0

/-- Linking a new entry in `qdb__queue_get_or_create`. -/
def queueInsert (st : State) (name : QueueName) : State :=
  { st with
    queueBuckets :=
      Table.insert queueBucket Queue.name st.queueBuckets (newQueue name)
    queueCount := st.queueCount + 1 }

/-- Assignments through a `struct qdb__queue` pointer. -/
def modifyQueue (st : State) (name : QueueName) (f : Queue → Queue) : State :=
  { st with
    queueBuckets := Table.modify queueBucket Queue.name st.queueBuckets name f }

/-- `qdb__queue_get_or_create`: the queue and the state holding it, or nothing
when the allocation fails. -/
def queueGetOrCreate (st : State) (name : QueueName) :
    Cmd (Option (Queue × State)) := do
  match st.queueGet name with
  | some q => return some (q, st)
  | none =>
      if ← alloc then
        return some (newQueue name, st.queueInsert name)
      else
        return none

/-- `qdb__queue_pending_append` -/
def queuePendingAppend (st : State) (q : Queue) (m : Msg) : State :=
  let st := st.modifyMsg m.id fun x =>
    { x with nextPending := 0, prevPending := q.pendingTail }
  let st :=
    if q.pendingTail ≠ 0 then
      st.modifyMsg q.pendingTail fun x => { x with nextPending := m.id }
    else
      st.modifyQueue q.name fun x => { x with pendingHead := m.id }
  st.modifyQueue q.name fun x =>
    { x with pendingTail := m.id, pendingCount := x.pendingCount + 1 }

/-- `qdb__queue_pending_remove` -/
def queuePendingRemove (st : State) (q : Queue) (m : Msg) : State :=
  let st :=
    if m.prevPending ≠ 0 then
      st.modifyMsg m.prevPending fun x => { x with nextPending := m.nextPending }
    else
      st.modifyQueue q.name fun x => { x with pendingHead := m.nextPending }
  let st :=
    if m.nextPending ≠ 0 then
      st.modifyMsg m.nextPending fun x => { x with prevPending := m.prevPending }
    else
      st.modifyQueue q.name fun x => { x with pendingTail := m.prevPending }
  let st := st.modifyMsg m.id fun x =>
    { x with nextPending := 0, prevPending := 0 }
  st.modifyQueue q.name fun x => { x with pendingCount := x.pendingCount - 1 }

/-- `qdb__lease_get` -/
def leaseGet (st : State) (leaseId : UInt64) : Option Lease :=
  Table.lookup leaseBucket Lease.leaseId st.leaseBuckets leaseId

/-- `qdb__lease_insert` -/
def leaseInsert (st : State) (l : Lease) : State :=
  { st with
    leaseBuckets := Table.insert leaseBucket Lease.leaseId st.leaseBuckets l
    leaseCount := st.leaseCount + 1 }

/-- `qdb__lease_remove` -/
def leaseRemove (st : State) (leaseId : UInt64) : State :=
  match st.leaseGet leaseId with
  | none => st
  | some _ =>
      { st with
        leaseBuckets :=
          Table.remove leaseBucket Lease.leaseId st.leaseBuckets leaseId
        leaseCount := st.leaseCount - 1 }

/-- Messages in bucket order (`qdb__state_iter_msgs`). -/
def msgs (st : State) : List Msg :=
  Table.toList st.msgBuckets

/-- Queues in bucket order (`qdb__state_iter_queues`). -/
def queues (st : State) : List Queue :=
  Table.toList st.queueBuckets

/-- Leases in bucket order. -/
def leases (st : State) : List Lease :=
  Table.toList st.leaseBuckets

end State

/-- `struct qdb`; its path strings are the names of `Path`. -/
structure Db where
  fd : Fd
  lockFd : Fd
  nextMsgId : UInt64
  nextLeaseId : UInt64
  logStartOffset : UInt64
  logEndOffset : UInt64
  createTimeUs : UInt64
  flags : UInt32
  leaseTimeoutUs : UInt64
  /-- `none` is the NULL pointer. -/
  state : Option State

/-- A zeroed `struct qdb` with invalid descriptors. -/
def Db.zero : Db where
  fd := none
  lockFd := none
  nextMsgId := 0
  nextLeaseId := 0
  logStartOffset := 0
  logEndOffset := 0
  createTimeUs := 0
  flags := 0
  leaseTimeoutUs := 0
  state := none

end Qdb
