import Qdb.Api

/-!
# Statistics and enumeration

`qdb_stats`, `qdb_queue_stats`, `qdb_queue_list` and `qdb_compact_recommended`
of `qdb.c`, on a non-NULL handle.  They change neither the handle nor a file.
The flags tell which output pointers are not NULL.
-/

namespace Qdb

open Lib

/-- `qdb_stats_t` -/
structure Stats where
  queueCount : UInt64
  pendingCount : UInt64
  leasedCount : UInt64
  ackedCount : UInt64
  fileSizeBytes : UInt64
deriving DecidableEq, Repr

/-- `qdb_queue_stats_t` -/
structure QueueStats where
  pendingCount : UInt64
  leasedCount : UInt64
  ackedCount : UInt64
deriving DecidableEq, Repr

/-- The counters of a queue, widened. -/
def Queue.stats (q : Queue) : QueueStats where
  pendingCount := q.pendingCount.toUInt64
  leasedCount := q.leasedCount.toUInt64
  ackedCount := q.ackedCount.toUInt64

/-- The body of the queue loop of `qdb_stats`. -/
def Stats.add (s : Stats) (q : QueueStats) : Stats :=
  { s with
    pendingCount := s.pendingCount + q.pendingCount
    leasedCount := s.leasedCount + q.leasedCount
    ackedCount := s.ackedCount + q.ackedCount }

/-- The queue loop of `qdb_stats`. -/
def statsLoop (qs : List Queue) (s : Stats) : Stats :=
  qs.foldl (fun s q => s.add q.stats) s

/-- `qdb_stats` -/
def qdbStats (db : Db) (out : Bool) : Cmd (Rc × Option Stats) := do
  if ¬ out then return (.errInval, none)
  match db.state with
  | none => .stuck
  | some st =>
      let s := statsLoop st.queues ⟨st.queueCount, 0, 0, 0, 0⟩
      match ← fileSize db.fd with
      | .error _ => return (.ok, some s)
      | .ok n => return (.ok, some { s with fileSizeBytes := n })

/-- `qdb_queue_stats` -/
def qdbQueueStats (db : Db) (queue : Option CString) (out : Bool) :
    Cmd (Rc × Option QueueStats) := do
  if ¬ out then return (.errInval, none)
  match queueArg queue with
  | none => return (.errInval, none)
  | some name =>
      match db.state with
      | none => .stuck
      | some st =>
          match st.queueGet name with
          | none => return (.errNoent, none)
          | some q => return (.ok, some q.stats)

/-- The queue loop of `qdb_queue_list` on the entries of the caller's array:
`memcpy` of the name and its terminator into the entry `out[total]`. -/
def queueListLoop (cap : UInt64) :
    List Queue → Option (List Bytes) → UInt64 → Option (List Bytes) × UInt64
  | [], out, total => (out, total)
  | q :: qs, out, total =>
      let out := out.map fun buf =>
        if total < cap then
          buf.modify total.toNat fun old => overwrite old 0 (q.name.bytes ++ [0])
        else buf
      queueListLoop cap qs out (total + 1)

/-- `qdb_queue_list`: the array as the call leaves it and `*out_count`. -/
def qdbQueueList (db : Db) (out : Option (List Bytes)) (cap : UInt64)
    (outCount : Bool) : Cmd (Rc × Option (List Bytes) × Option UInt64) := do
  if ¬ outCount then return (.errInval, out, none)
  if out.isNone ∧ cap > 0 then return (.errInval, out, none)
  match db.state with
  | none => .stuck
  | some st =>
      let (out, total) := queueListLoop cap st.queues out 0
      return (.ok, out, some total)

/-- `qdb_compact_recommended` -/
def qdbCompactRecommended (db : Db) (out : Bool) : Cmd (Rc × Option Bool) := do
  if ¬ out then return (.errInval, none)
  match ← qdbStats db true with
  | (.ok, some s) => return (.ok, some (s.ackedCount > 0 ∧
      s.ackedCount > s.pendingCount + s.leasedCount))
  | (rc, _) => return (rc, none)

/-- The C string at the start of an entry. -/
def cString (entry : Bytes) : CString where
  bytes := entry.takeWhile (· ≠ 0)
  noNul := by
    intro h
    have hne := List.all_eq_true.mp List.all_takeWhile 0 h
    simp at hne

/-- A call of any function of the API. -/
inductive Request
  | call (c : Call)
  | stats (out : Bool)
  | queueStats (queue : Option CString) (out : Bool)
  | queueList (out : Option (List Bytes)) (cap : UInt64) (outCount : Bool)
  | compactRecommended (out : Bool)

/-- What such a call returns and writes to its output pointers. -/
inductive Answer
  | result (r : Result)
  | stats (rc : Rc) (out : Option Stats)
  | queueStats (rc : Rc) (out : Option QueueStats)
  | queueList (rc : Rc) (out : Option (List Bytes)) (count : Option UInt64)
  | recommended (rc : Rc) (out : Option Bool)

/-- The return code of a call. -/
def Answer.rc : Answer → Rc
  | .result r => r.rc
  | .stats rc _ => rc
  | .queueStats rc _ => rc
  | .queueList rc _ _ => rc
  | .recommended rc _ => rc

/-- A call on the handle the application holds, for a build target. -/
def serve (target : Target) (db? : Option Db) (req : Request) :
    Cmd (Answer × Option Db) := do
  match req, db? with
  | .call .compact, some db =>
      let (rc, db) ← qdbCompactOn target db
      return (.result (.code rc), some db)
  | .call c, db? =>
      let (r, db?) ← callCmd db? c
      return (.result r, db?)
  | .stats _, none => return (.stats .errInval none, none)
  | .stats out, some db =>
      let (rc, x) ← qdbStats db out
      return (.stats rc x, some db)
  | .queueStats _ _, none => return (.queueStats .errInval none, none)
  | .queueStats queue out, some db =>
      let (rc, x) ← qdbQueueStats db queue out
      return (.queueStats rc x, some db)
  | .queueList out _ _, none => return (.queueList .errInval out none, none)
  | .queueList out cap outCount, some db =>
      let (rc, out, n) ← qdbQueueList db out cap outCount
      return (.queueList rc out n, some db)
  | .compactRecommended _, none => return (.recommended .errInval none, none)
  | .compactRecommended out, some db =>
      let (rc, x) ← qdbCompactRecommended db out
      return (.recommended rc x, some db)

end Qdb
