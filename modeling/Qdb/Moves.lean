import Qdb.Session
import Qdb.Api

/-!
# The queue operations on views

What each operation does to the log and the tables, without files: it is
refused with a result, or it logs one record.  A logging operation that fails in
its header update has moved the counters and the log but not the tables, so a
move names both memories.
-/

namespace Qdb

open Lib

/-- What a call does on an open handle. -/
inductive Move
  /-- Nothing changes. -/
  | refuse (res : Result)
  /-- Log `r`; `half` is the memory before the tables are updated. -/
  | log (r : Record) (half full : Mem) (res : Result)

/-- The data of a message, from the log it was pushed to. -/
def dataOf (s : UInt64) (rs : List Record) (m : Msg) : Bytes :=
  slice (encodeLog rs) (m.dataFileOffset.toNat - s.toNat) m.dataLen.toNat

/-- The data of a message is inside the log and fits a record. -/
structure Located (s : UInt64) (rs : List Record) (m : Msg) : Prop where
  start : s.toNat ≤ m.dataFileOffset.toNat
  stop : m.dataFileOffset.toNat + m.dataLen.toNat ≤
    s.toNat + (encodeLog rs).length
  fits : 9 + m.queueName.bytes.length + m.dataLen.toNat ≤ 67109376

namespace Located

variable {s : UInt64} {rs rs' : List Record} {m m' : Msg}

theorem append (h : Located s rs m) (rs' : List Record) :
    Located s (rs ++ rs') m where
  start := h.start
  stop := by
    have := h.stop
    rw [encodeLog_append, List.length_append]
    omega
  fits := h.fits

theorem dataOf_append (h : Located s rs m) (rs' : List Record) :
    dataOf s (rs ++ rs') m = dataOf s rs m := by
  have h1 := h.start
  have h2 := h.stop
  unfold dataOf
  rw [encodeLog_append, slice_append_left _ _ (by omega)]

theorem length_dataOf (h : Located s rs m) :
    (dataOf s rs m).length = m.dataLen.toNat := by
  have h1 := h.start
  have h2 := h.stop
  unfold dataOf
  rw [length_slice]
  omega

theorem reaches {d : DbFile} (h : Located d.start d.rs m) {f : Bytes}
    {Bs : Bytes → Prop} (hb : d.KeptBytes Bs f) (hpos : m.dataLen > 0) :
    d.start.toNat + (encodeLog d.rs).length ≤ f.length := by
  have h1 := h.start
  have h2 := h.stop
  have hlen : 0 < m.dataLen.toNat := hpos
  rcases Begins.reaches hb with h0 | hreach
  · rw [h0] at h2
    simp at h2
    omega
  · exact hreach

/-- Where the data is in a file with the log. -/
theorem slice_data {d : DbFile} (h : Located d.start d.rs m) {f : Bytes}
    {Bs : Bytes → Prop} (hb : d.KeptBytes Bs f) (hpos : m.dataLen > 0) :
    slice f m.dataFileOffset.toNat m.dataLen.toNat =
      dataOf d.start d.rs m := by
  have h2 := h.stop
  obtain ⟨k, hk⟩ := Nat.exists_eq_add_of_le h.start
  obtain ⟨pre, post, hf, hpre, -⟩ := slice_split (h.reaches hb hpos)
  rw [Begins.body hb] at hf
  unfold dataOf
  rw [hf, hk, ← hpre, slice_append_right, Nat.add_sub_cancel_left,
    slice_append_left _ _ (by omega)]

/-- The data is read back from a file with the log. -/
theorem reads_data {d : DbFile} (h : Located d.start d.rs m) {w : World}
    {i : Nat} {Bs : Bytes → Prop} (hb : d.KeptBytes Bs (w.content i))
    (hpos : m.dataLen > 0) :
    CmdReads (readFull (some i) m.dataLen.toNat m.dataFileOffset) w
      (.ok (dataOf d.start d.rs m)) := by
  have h2 := h.stop
  have hreach := h.reaches hb hpos
  rw [← h.slice_data hb hpos]
  exact reads_readFull_slice rfl (Begins.limit hb) (by omega)

end Located

theorem dataOf_of_zero (s : UInt64) (rs : List Record) {m : Msg}
    (h : ¬ m.dataLen > 0) : dataOf s rs m = [] := by
  have hz : m.dataLen.toNat = 0 := by
    rw [gt_iff_lt, UInt32.lt_iff_toNat_lt] at h
    simpa using h
  unfold dataOf slice
  rw [hz, List.take_zero]

/-- Queue name and data of a message. -/
def bodyOf (s : UInt64) (rs : List Record) (m : Msg) : Body :=
  if h : 9 + m.queueName.bytes.length + (dataOf s rs m).length ≤ 67109376 then
    ⟨m.queueName, dataOf s rs m, h⟩
  else
    ⟨m.queueName, [], by
      have h : m.queueName.bytes.length ≤ 255 := m.queueName.length_le
      simp
      omega⟩

@[simp] theorem bodyOf_name (s : UInt64) (rs : List Record) (m : Msg) :
    (bodyOf s rs m).name = m.queueName := by
  unfold bodyOf
  split <;> rfl

theorem Located.bodyOf_data {s : UInt64} {rs : List Record} {m : Msg}
    (h : Located s rs m) : (bodyOf s rs m).data = dataOf s rs m := by
  have hf := h.fits
  unfold bodyOf
  rw [dif_pos (by rw [h.length_dataOf]; exact hf)]

/-- The arguments of `qdb_push` that pass its checks. -/
def pushArg (queue : Option CString) (data : DataArg) : Option Body :=
  match queueArg queue with
  | none => none
  | some name =>
      if data.len > 0 ∧ data.isNull then none
      else if data.len > msgMaxLen then none
      else if h : 9 + name.bytes.length + data.bytes.length ≤ 67109376 then
        some ⟨name, data.bytes, h⟩
      else none

/-- The result of a move that succeeds. -/
def Move.result : Move → Result
  | .refuse res => res
  | .log _ _ _ res => res

namespace View

/-- The memory once the message with the body `b` has been pushed. -/
def pushed (v : View) (b : Body) : Mem :=
  { v.mem with
    nextMsgId := v.mem.nextMsgId + 1
    st := v.mem.st.addMsg (newMsg v.mem.nextMsgId
      (v.logEnd + recHdrSize + 9 + b.name.len.toUInt64)
      (UInt32.ofNat b.data.length) b.name) }

/-- The memory once the message `m` of the queue `q` has been leased. -/
def leased (v : View) (now : UInt64) (q : Queue) (m : Msg) : Mem :=
  { v.mem with
    nextLeaseId := v.mem.nextLeaseId + 1
    st := replayLeaseState v.mem.st q m v.mem.nextLeaseId
      (now + v.leaseTimeoutUs) }

/-- `qdb_push` -/
def push (v : View) (queue : Option CString) (data : DataArg) : Move :=
  match pushArg queue data with
  | none => .refuse (.code .errInval)
  | some b =>
      .log (pushRecord v.mem.nextMsgId b)
        { v.mem with nextMsgId := v.mem.nextMsgId + 1 }
        (v.pushed b) (.code .ok)

/-- `do_pop` at the time `now`. -/
def deliver (v : View) (now : UInt64) (q : Queue) (m : Msg) : Move :=
  .log (leaseRecord m.id (now + v.leaseTimeoutUs) v.mem.nextLeaseId)
    { v.mem with nextLeaseId := v.mem.nextLeaseId + 1 }
    (v.leased now q m)
    (.msg {
      id := m.id
      leaseId := v.mem.nextLeaseId
      queue := m.queueName
      data := dataOf v.start v.rs m
      retryCount := m.retryCount })

/-- `qdb_pop` -/
def pop (v : View) (now : UInt64) (queue : Option CString) (outMsg : Bool) :
    Move :=
  if ¬ outMsg then .refuse (.code .errInval)
  else
    match queueArg queue with
    | none => .refuse (.code .errInval)
    | some name =>
        match v.mem.st.queueGet name with
        | none => .refuse (.code .errEmpty)
        | some q =>
            if q.pendingCount = 0 ∨ q.pendingHead = 0 then
              .refuse (.code .errEmpty)
            else
              match v.mem.st.msgGet q.pendingHead with
              | none => .refuse (.code .errCorrupt)
              | some m => v.deliver now q m

/-- `qdb_pop_any` -/
def popAny (v : View) (now : UInt64) (outMsg : Bool) : Move :=
  if ¬ outMsg then .refuse (.code .errInval)
  else
    match popAnyScan v.mem.st v.mem.st.queues none 0xFFFFFFFFFFFFFFFF with
    | .error rc => .refuse (.code rc)
    | .ok none => .refuse (.code .errEmpty)
    | .ok (some (q, m)) => v.deliver now q m

/-- A resolution of the lease `l` of the message `m`. -/
def resolve (v : View) (r : Record) (update : State → Msg → UInt64 → State)
    (m : Msg) (l : UInt64) : Move :=
  .log r v.mem { v.mem with st := update v.mem.st m l } (.code .ok)

/-- The checks of `qdb_ack` and `qdb_nack`, then the resolution. -/
def resolveCall (v : View) (r : Record)
    (update : State → Msg → UInt64 → State) (id l : UInt64) : Move :=
  match v.mem.st.msgGet id with
  | none => .refuse (.code .errNoent)
  | some m =>
      if m.state ≠ .leased then .refuse (.code .errNoent)
      else if m.leaseId ≠ l then .refuse (.code .errInval)
      else v.resolve r update m l

/-- `qdb_ack` -/
def ack (v : View) (id l : UInt64) : Move :=
  v.resolveCall (ackRecord id l) qdbAckState id l

/-- `qdb_nack` -/
def nack (v : View) (id l : UInt64) : Move :=
  v.resolveCall (nackRecord id l) qdbNackState id l

/-- `expire_one` -/
def expire (v : View) (l id : UInt64) : Move :=
  match v.mem.st.msgGet id with
  | none => .refuse (.code .ok)
  | some m =>
      if m.state ≠ .leased ∨ m.leaseId ≠ l then .refuse (.code .ok)
      else v.resolve (expireRecord id l) qdbNackState m l

/-- The calls that log at most one record. -/
def move (v : View) (now : UInt64) : Call → Option Move
  | .push queue data => some (v.push queue data)
  | .pop queue outMsg => some (v.pop now queue outMsg)
  | .popAny outMsg => some (v.popAny now outMsg)
  | .ack id l => some (v.ack id l)
  | .nack id l => some (v.nack id l)
  | _ => none

/-- The view after a move that succeeds. -/
def after (v : View) : Move → View
  | .refuse _ => v
  | .log r _ full _ => v.log r full

/-- The body of the loops of `qdb_process_expired_leases`. -/
def expireStep (now : UInt64) (v : View) (l : Lease) : View :=
  if l.expiryUs < now then v.after (v.expire l.leaseId l.msgId) else v

/-- Expiry of the leases `ls`, one after the other. -/
def expireAll (now : UInt64) (ls : List Lease) (v : View) : View :=
  ls.foldl (expireStep now) v

@[simp] theorem expireAll_nil (now : UInt64) (v : View) :
    expireAll now [] v = v := by
  rfl

@[simp] theorem expireAll_cons (now : UInt64) (l : Lease) (ls : List Lease)
    (v : View) :
    expireAll now (l :: ls) v = expireAll now ls (v.expireStep now l) := by
  rfl

theorem expireAll_append (now : UInt64) (ls ls' : List Lease) (v : View) :
    expireAll now (ls ++ ls') v = expireAll now ls' (expireAll now ls v) :=
  List.foldl_append

end View

/-- How a move may end; `F` tells whether writes may fail.  Otherwise a record
is refused only when it does not fit into the file. -/
inductive Move.Outcome (F : Prop) (v : View) : Move → Result → View → Prop
  | refuse (res : Result) : Outcome F v (.refuse res) res v
  | io {r : Record} {half full : Mem} {res : Result}
      (hio : F ∨ ¬ Fits v.start (v.rs ++ [r])) :
      Outcome F v (.log r half full res) (.code .errIo) v
  | half {r : Record} {half full : Mem} {res : Result} (hF : F) :
      Outcome F v (.log r half full res) (.code .errIo) (v.log r half)
  | full {r : Record} {half full : Mem} {res : Result}
      (hfit : Fits v.start (v.rs ++ [r])) :
      Outcome F v (.log r half full res) res (v.log r full)

theorem Move.Outcome.inv {F : Prop} {v v' : View} {mv : Move} {res : Result}
    (h : mv.Outcome F v res v') :
    (res = mv.result ∧ v' = v.after mv) ∨
      (res = .code .errIo ∧ ∃ r half full res', mv = .log r half full res' ∧
        (v' = v ∨ (F ∧ v' = v.log r half))) := by
  cases h with
  | refuse =>
      exact Or.inl ⟨rfl, rfl⟩
  | io _ =>
      exact Or.inr ⟨rfl, _, _, _, _, rfl, Or.inl rfl⟩
  | half hF =>
      exact Or.inr ⟨rfl, _, _, _, _, rfl, Or.inr ⟨hF, rfl⟩⟩
  | full _ =>
      exact Or.inl ⟨rfl, rfl⟩

theorem View.expire_result (v : View) (l id : UInt64) :
    (v.expire l id).result = .code .ok := by
  unfold View.expire
  cases v.mem.st.msgGet id with
  | none =>
      rfl
  | some m =>
      dsimp only
      split <;> rfl

/-- The scan of `qdb_pop_any` finds the head of a queue. -/
theorem popAnyScan_mem {st : State} {qs : List Queue}
    {best : Option (Queue × Msg)} {bestId : UInt64} {q : Queue} {m : Msg}
    (h : popAnyScan st qs best bestId = .ok (some (q, m))) :
    best = some (q, m) ∨ (q ∈ qs ∧ q.pendingHead ≠ 0 ∧
      st.msgGet q.pendingHead = some m) := by
  induction qs generalizing best bestId with
  | nil =>
      cases h
      exact Or.inl rfl
  | cons x qs ih =>
      have hrest : ∀ {best bestId},
          popAnyScan st qs best bestId = .ok (some (q, m)) →
          best = some (q, m) ∨ (q ∈ x :: qs ∧ q.pendingHead ≠ 0 ∧
            st.msgGet q.pendingHead = some m) := by
        intro best bestId h
        rcases ih h with h | ⟨h1, h2⟩
        · exact Or.inl h
        · exact Or.inr ⟨List.mem_cons_of_mem _ h1, h2⟩
      unfold popAnyScan at h
      split at h
      · next hx0 =>
        cases hx : st.msgGet x.pendingHead with
        | none =>
            rw [hx] at h
            cases h
        | some y =>
            rw [hx] at h
            dsimp only at h
            split at h
            · rcases hrest h with he | he
              · cases he
                exact Or.inr ⟨List.mem_cons_self, hx0.2, hx⟩
              · exact Or.inr he
            · exact hrest h
      · exact hrest h

/-- The queue shows a message at its head. -/
def State.Candidate (st : State) (q : Queue) (m : Msg) : Prop :=
  q.pendingCount > 0 ∧ q.pendingHead ≠ 0 ∧ st.msgGet q.pendingHead = some m

/-- The scan of `qdb_pop_any` finds the smallest head below the bound. -/
theorem popAnyScan_spec {st : State} {qs : List Queue}
    {best : Option (Queue × Msg)} {bestId : UInt64}
    (hex : ∀ q ∈ qs, q.pendingHead ≠ 0 → (st.msgGet q.pendingHead).isSome)
    (hbest : ∀ q m, best = some (q, m) → bestId = m.id) :
    ∃ r, popAnyScan st qs best bestId = .ok r ∧
      (r = none → best = none ∧ ∀ q ∈ qs, ∀ m, st.Candidate q m →
        bestId ≤ m.id) ∧
      ∀ q m, r = some (q, m) →
        (best = some (q, m) ∨ (q ∈ qs ∧ st.Candidate q m)) ∧
        m.id ≤ bestId ∧
        ∀ q' ∈ qs, ∀ m', st.Candidate q' m' → m.id ≤ m'.id := by
  induction qs generalizing best bestId with
  | nil =>
      refine ⟨best, rfl, fun h => ⟨h, by simp⟩, ?_⟩
      intro q m h
      refine ⟨Or.inl h, ?_, by simp⟩
      rw [hbest q m h]
      exact UInt64.le_refl _
  | cons x qs ih =>
      have hex' : ∀ q ∈ qs, q.pendingHead ≠ 0 →
          (st.msgGet q.pendingHead).isSome :=
        fun q hq => hex q (List.mem_cons_of_mem _ hq)
      unfold popAnyScan
      by_cases hx : x.pendingCount > 0 ∧ x.pendingHead ≠ 0
      · rw [if_pos hx]
        obtain ⟨y, hy⟩ := Option.isSome_iff_exists.mp
          (hex x List.mem_cons_self hx.2)
        have hcand : ∀ m, st.Candidate x m → m = y := by
          rintro m ⟨-, -, hm⟩
          exact Option.some.inj (hm.symm.trans hy)
        rw [hy]
        dsimp only
        by_cases hlt : y.id < bestId
        · rw [if_pos hlt]
          obtain ⟨r, hr, hnone, hsome⟩ := @ih (some (x, y)) y.id hex' (by
            intro q m h
            cases h
            rfl)
          refine ⟨r, hr, fun h => absurd (hnone h).1 (by simp), ?_⟩
          intro q m h
          obtain ⟨hin, hle, hmin⟩ := hsome q m h
          refine ⟨Or.inr ?_, UInt64.le_trans hle (UInt64.le_of_lt hlt), ?_⟩
          · rcases hin with hin | ⟨hin, hc⟩
            · cases hin
              exact ⟨List.mem_cons_self, hx.1, hx.2, hy⟩
            · exact ⟨List.mem_cons_of_mem _ hin, hc⟩
          · intro q' hq' m' hc'
            rcases List.mem_cons.mp hq' with rfl | hq'
            · rw [hcand m' hc']
              exact hle
            · exact hmin q' hq' m' hc'
        · rw [if_neg hlt]
          obtain ⟨r, hr, hnone, hsome⟩ := ih hex' hbest
          refine ⟨r, hr, fun h => ⟨(hnone h).1, ?_⟩, ?_⟩
          · intro q' hq' m' hc'
            rcases List.mem_cons.mp hq' with rfl | hq'
            · rw [hcand m' hc']
              exact UInt64.not_lt.mp hlt
            · exact (hnone h).2 q' hq' m' hc'
          · intro q m h
            obtain ⟨hin, hle, hmin⟩ := hsome q m h
            refine ⟨?_, hle, ?_⟩
            · rcases hin with hin | ⟨hin, hc⟩
              · exact Or.inl hin
              · exact Or.inr ⟨List.mem_cons_of_mem _ hin, hc⟩
            · intro q' hq' m' hc'
              rcases List.mem_cons.mp hq' with rfl | hq'
              · rw [hcand m' hc']
                exact UInt64.le_trans hle (UInt64.not_lt.mp hlt)
              · exact hmin q' hq' m' hc'
      · rw [if_neg hx]
        have hno : ∀ m, ¬ st.Candidate x m := by
          rintro m ⟨h1, h2, -⟩
          exact hx ⟨h1, h2⟩
        obtain ⟨r, hr, hnone, hsome⟩ := ih hex' hbest
        refine ⟨r, hr, fun h => ⟨(hnone h).1, ?_⟩, ?_⟩
        · intro q' hq' m' hc'
          rcases List.mem_cons.mp hq' with rfl | hq'
          · exact absurd hc' (hno m')
          · exact (hnone h).2 q' hq' m' hc'
        · intro q m h
          obtain ⟨hin, hle, hmin⟩ := hsome q m h
          refine ⟨?_, hle, ?_⟩
          · rcases hin with hin | ⟨hin, hc⟩
            · exact Or.inl hin
            · exact Or.inr ⟨List.mem_cons_of_mem _ hin, hc⟩
          · intro q' hq' m' hc'
            rcases List.mem_cons.mp hq' with rfl | hq'
            · exact absurd hc' (hno m')
            · exact hmin q' hq' m' hc'

end Qdb
