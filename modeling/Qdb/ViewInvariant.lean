import Qdb.Moves
import Qdb.ReplayContent

/-!
# Live operations and their replay

Every operation of an open handle changes the tables exactly as the replay of
the record it logs would (`Wf.move_replays`, `Wf.expire_replays`).  What an
operation does to the content of the tables is therefore the effect of its
record.

`View.Wf` is what the operations need of a view: well-formed tables whose
messages have their data inside the log.  `View.Bounded` says that the id
counters are above all ids unless they have wrapped, and `View.Stable` that a
replay from the counter in the header rebuilds the memory.
-/

namespace Qdb

open Lib

section Located

variable {s : UInt64} {rs : List Record} {r : Record} {c c' : Content}

theorem decodePush_inv {p : Bytes} {id : UInt64} {name : QueueName}
    {data : Bytes} (h : decodePush p = some (.push id name data)) :
    p.drop (9 + name.bytes.length) = data ∧
      p.length = 9 + name.bytes.length + data.length := by
  unfold decodePush at h
  dsimp only at h
  split at h
  · next hp =>
    cases h
    have hn : ((p.drop 9).take (p.getD 8 0).toNat).length =
        (p.getD 8 0).toNat := by
      rw [List.length_take, List.length_drop]
      omega
    dsimp only
    rw [hn]
    refine ⟨rfl, ?_⟩
    rw [List.length_drop]
    omega
  · cases h

theorem Record.entry_push {id : UInt64} {name : QueueName} {data : Bytes}
    (h : r.entry = some (.push id name data)) :
    decodePush r.payload = some (.push id name data) := by
  unfold Record.entry at h
  split at h
  · exact h
  split at h
  · unfold decodeLease at h
    split at h <;> cases h
  split at h
  · unfold decodeResolve at h
    split at h <;> cases h
  split at h
  · unfold decodeResolve at h
    split at h <;> cases h
  split at h
  · unfold decodeResolve at h
    split at h <;> cases h
  split at h
  · unfold decodeCheckpoint at h
    split at h <;> cases h
  · cases h

/-- Where the message of a PUSH record has its data. -/
theorem located_push {id : UInt64} {name : QueueName} {data : Bytes}
    (hr : r.entry = some (.push id name data)) (hfit : Fits s (rs ++ [r])) :
    let m := newMsg id (logEndOf s rs + recHdrSize + 9 + name.len.toUInt64)
      (UInt32.ofNat data.length) name
    Located s (rs ++ [r]) m ∧ dataOf s (rs ++ [r]) m = data := by
  have hmx := maxFileSize_eq
  obtain ⟨hdata, hlen⟩ := decodePush_inv (Record.entry_push hr)
  have hfits := r.fits
  have hsize : r.size = 10 + r.payload.length := rfl
  have henc : (encodeLog (rs ++ [r])).length =
      (encodeLog rs).length + r.size := by
    simp
  have hmax : s.toNat + (encodeLog (rs ++ [r])).length ≤ maxFileSize := by
    rcases hfit with h0 | h0
    · simp at h0
    · exact h0
  have hname : name.len.toUInt64.toNat = name.bytes.length := by
    rw [UInt8.toNat_toUInt64, name.toNat_len]
  have hdl : (UInt32.ofNat data.length).toNat = data.length := by
    rw [UInt32.toNat_ofNat']
    omega
  have hoff : (logEndOf s rs + recHdrSize + 9 + name.len.toUInt64).toNat =
      s.toNat + (encodeLog rs).length + 18 + name.bytes.length := by
    rw [UInt64.toNat_add, UInt64.toNat_add, UInt64.toNat_add,
      toNat_logEndOf hfit.of_append, hname,
      show recHdrSize.toNat = 9 from rfl]
    omega
  intro m
  have hmo : m.dataFileOffset.toNat =
      s.toNat + (encodeLog rs).length + 18 + name.bytes.length := hoff
  have hml : m.dataLen.toNat = data.length := hdl
  refine ⟨⟨?_, ?_, ?_⟩, ?_⟩
  · omega
  · rw [hmo, hml, henc]
    omega
  · change 9 + name.bytes.length + _ ≤ _
    omega
  · unfold dataOf
    rw [hmo, hml, encodeLog_append, encodeLog_cons, encodeLog_nil,
      List.append_nil]
    have hk : s.toNat + (encodeLog rs).length + 18 + name.bytes.length -
        s.toNat = (encodeLog rs).length + (18 + name.bytes.length) := by
      omega
    have hpay : r.encode = (recordHeader r.type r.payload ++
        r.payload.take (9 + name.bytes.length)) ++ (data ++ [commitMarker]) := by
      unfold Record.encode
      rw [← hdata, List.append_assoc, ← List.append_assoc (List.take _ _),
        List.take_append_drop]
    rw [hk, slice_append_right, hpay]
    apply slice_at
    · have hhl : (recordHeader r.type r.payload).length = 9 := by
        simp [recordHeader]
      rw [List.length_append, hhl, List.length_take]
      omega
    · rfl

theorem Located.of_fields {m m' : Msg} (h : Located s rs m)
    (ho : m'.dataFileOffset = m.dataFileOffset) (hl : m'.dataLen = m.dataLen)
    (hq : m'.queueName = m.queueName) : Located s rs m' where
  start := by rw [ho]; exact h.start
  stop := by rw [ho, hl]; exact h.stop
  fits := by rw [hl, hq]; exact h.fits

/-- Where a message came from: it was there with the same data, or it is the
message of the record. -/
theorem Content.apply_msg {off : UInt64} {e : Entry}
    (h : c.apply off e = some c') (hkey : ∀ id x, c.msg id = some x → x.id = id)
    {id : UInt64} {x : Msg} (hx : c'.msg id = some x) :
    (∃ y, c.msg id = some y ∧ x.id = y.id ∧ x.queueName = y.queueName ∧
      x.dataFileOffset = y.dataFileOffset ∧ x.dataLen = y.dataLen) ∨
    (∃ name data, e = .push id name data ∧
      x = newMsg id (off + 9 + name.len.toUInt64) (UInt32.ofNat data.length)
        name) := by
  have hold : ∀ {m m' : Msg} {k : UInt64}, c.msg k = some m →
      Function.update c.msg m.id (some m') id = some x →
      m'.id = m.id → m'.queueName = m.queueName →
      m'.dataFileOffset = m.dataFileOffset → m'.dataLen = m.dataLen →
      ∃ y, c.msg id = some y ∧ x.id = y.id ∧ x.queueName = y.queueName ∧
        x.dataFileOffset = y.dataFileOffset ∧ x.dataLen = y.dataLen := by
    intro m m' k hm hu h0 h1 h2 h3
    have hmk := hkey k m hm
    by_cases hid : id = m.id
    · subst hid
      rw [Function.update_self] at hu
      cases hu
      exact ⟨m, by rw [hmk]; exact hm, h0, h1, h2, h3⟩
    · rw [Function.update_of_ne hid] at hu
      exact ⟨x, hu, rfl, rfl, rfl, rfl⟩
  cases e with
  | push id' name data =>
      obtain ⟨-, -, rfl⟩ := Content.apply_push.mp h
      by_cases hid : id = id'
      · subst hid
        right
        refine ⟨name, data, rfl, ?_⟩
        simp only [Content.addMsg, newMsg, Function.update_self,
          Option.some.injEq] at hx
        exact hx.symm
      · left
        have hu : c.msg id = some x :=
          (Function.update_of_ne hid _ _).symm.trans hx
        exact ⟨x, hu, rfl, rfl, rfl, rfl⟩
  | lease id' e l =>
      obtain ⟨m, hm, rfl⟩ := Option.map_eq_some_iff.mp h
      have hm := (Content.leasable_eq_some.mp hm).2.2.1
      exact Or.inl (hold hm hx rfl rfl rfl rfl)
  | ack id' l =>
      obtain ⟨m, hm, rfl⟩ := Option.map_eq_some_iff.mp h
      have hm := (Content.held_eq_some.mp hm).1
      exact Or.inl (hold hm hx rfl rfl rfl rfl)
  | nack id' l =>
      obtain ⟨m, hm, rfl⟩ := Option.map_eq_some_iff.mp h
      have hm := (Content.held_eq_some.mp hm).1
      exact Or.inl (hold hm hx rfl rfl rfl rfl)
  | expire id' l =>
      obtain ⟨m, hm, rfl⟩ := Option.map_eq_some_iff.mp h
      have hm := (Content.held_eq_some.mp hm).1
      exact Or.inl (hold hm hx rfl rfl rfl rfl)
  | checkpoint nm nl =>
      cases h
      exact Or.inl ⟨x, hx, rfl, rfl, rfl, rfl⟩
  | padding =>
      cases h
      exact Or.inl ⟨x, hx, rfl, rfl, rfl, rfl⟩

end Located

/-- The log stays within the file size limit. -/
def View.Fits (v : View) : Prop :=
  Qdb.Fits v.start v.rs

/-- The tables are well formed, say `c`, and have their data in the log. -/
structure View.Wf (v : View) (c : Content) : Prop where
  shows : v.mem.st.Shows c
  located : ∀ id x, c.msg id = some x → Located v.start v.rs x

/-- Neither id counter has wrapped to zero. -/
structure View.Counting (v : View) : Prop where
  msg : v.mem.nextMsgId ≠ 0
  lease : v.mem.nextLeaseId ≠ 0

/-- The id counters are above all ids, unless they have wrapped. -/
structure View.Bounded (v : View) (c : Content) : Prop where
  msg : v.mem.nextMsgId ≠ 0 → ∀ id, (c.msg id).isSome → id < v.mem.nextMsgId
  lease : v.mem.nextLeaseId ≠ 0 →
    ∀ l, (c.lease l).isSome → l < v.mem.nextLeaseId

/-- The id that a call is about to give is nonzero and not in use. -/
def View.Fresh (v : View) : Call → Prop
  | .push _ _ => v.mem.nextMsgId ≠ 0 ∧
      v.mem.st.msgGet v.mem.nextMsgId = none
  | .pop _ _ => v.mem.nextLeaseId ≠ 0 ∧
      v.mem.st.leaseGet v.mem.nextLeaseId = none
  | .popAny _ => v.mem.nextLeaseId ≠ 0 ∧
      v.mem.st.leaseGet v.mem.nextLeaseId = none
  | _ => True

/-- Replay from the counter in the header rebuilds the memory. -/
def View.Stable (v : View) : Prop :=
  replayRecords v.start v.rs (Mem.start v.mem.nextMsgId) = some v.mem

namespace View.Bounded

variable {v : View} {c : Content}

theorem msg_none (hb : v.Bounded c) (hn : v.Counting) :
    c.msg v.mem.nextMsgId = none := by
  cases hc : c.msg v.mem.nextMsgId with
  | none =>
      rfl
  | some x =>
      have hlt := hb.msg hn.msg v.mem.nextMsgId (by rw [hc]; rfl)
      exact absurd hlt (UInt64.lt_irrefl _)

theorem lease_none (hb : v.Bounded c) (hn : v.Counting) :
    c.lease v.mem.nextLeaseId = none := by
  cases hc : c.lease v.mem.nextLeaseId with
  | none =>
      rfl
  | some x =>
      have hlt := hb.lease hn.lease v.mem.nextLeaseId (by rw [hc]; rfl)
      exact absurd hlt (UInt64.lt_irrefl _)

end View.Bounded

namespace View.Wf

variable {v : View} {c c' : Content} {r : Record}

theorem key (h : v.Wf c) {id : UInt64} {x : Msg} (hx : c.msg id = some x) :
    x.id = id := by
  obtain ⟨m, -, rfl, hid⟩ := h.shows.of_msg hx
  exact hid

theorem located_msg (h : v.Wf c) (id : UInt64) (m : Msg)
    (hm : v.mem.st.msgGet id = some m) : Located v.start v.rs m :=
  (h.located id m.core (h.shows.msgGet hm)).of_fields rfl rfl rfl

theorem pend_get (h : v.Wf c) {n : QueueName} {id : UInt64}
    (hid : id ∈ c.pend n) :
    ∃ x, c.msg id = some x ∧ x.id = id ∧ x.queueName = n ∧
      x.state = .pending := by
  obtain ⟨m, hm, rfl⟩ := h.shows.rep.lists.stored n id hid
  have hs := (h.shows.rep.pending_mem id m hm).mp hid
  rw [h.shows.msg] at hm
  exact ⟨m, hm, h.key hm, rfl, hs⟩

theorem pend_nodup (h : v.Wf c) (n : QueueName) : (c.pend n).Nodup :=
  (h.shows.rep.lists.linked n).nodup

theorem pending_mem (h : v.Wf c) {id : UInt64} {x : Msg}
    (hx : c.msg id = some x) : id ∈ c.pend x.queueName ↔ x.state = .pending :=
  h.shows.rep.pending_mem id x (by rw [h.shows.msg]; exact hx)

theorem lease_get (h : v.Wf c) {l : UInt64} {e : Lease}
    (he : c.lease l = some e) :
    ∃ x, c.msg e.msgId = some x ∧ x.state = .leased ∧ x.leaseId = l ∧
      x.leaseExpiryUs = e.expiryUs := by
  rw [← h.shows.lease] at he
  obtain ⟨x, hx, hrest⟩ := h.shows.rep.msg_of_lease l e he
  rw [h.shows.msg] at hx
  exact ⟨x, hx, hrest⟩

theorem lease_key (h : v.Wf c) {l : UInt64} {e : Lease}
    (he : c.lease l = some e) : e.leaseId = l := by
  rw [← h.shows.lease] at he
  exact State.leaseGet_id he

theorem msg_lease (h : v.Wf c) {id : UInt64} {x : Msg}
    (hx : c.msg id = some x) (hs : x.state = .leased) :
    c.lease x.leaseId = some ⟨x.leaseId, id, x.leaseExpiryUs⟩ := by
  rw [← h.shows.lease]
  exact (h.shows.rep.lease_of_msg id x (by rw [h.shows.msg]; exact hx) hs).2

/-- Only one lease is on a message. -/
theorem lease_inj (h : v.Wf c) {l : UInt64} {e : Lease} {x : Msg}
    (he : c.lease l = some e) (hx : c.msg e.msgId = some x) :
    x.leaseId = l := by
  obtain ⟨y, hy, -, hl, -⟩ := h.lease_get he
  rw [hx] at hy
  cases hy
  exact hl

theorem not_pend (h : v.Wf c) {id : UInt64} {x : Msg}
    (hx : c.msg id = some x) (hs : x.state ≠ .pending) (n : QueueName) :
    id ∉ c.pend n := by
  intro hid
  obtain ⟨y, hy, -, -, hp⟩ := h.pend_get hid
  rw [hx] at hy
  cases hy
  exact hs hp

/-- A pending message is in no other list. -/
theorem not_pend_other (h : v.Wf c) {id : UInt64} {x : Msg}
    (hx : c.msg id = some x) {n : QueueName} (hn : n ≠ x.queueName) :
    id ∉ c.pend n := by
  intro hid
  obtain ⟨y, hy, -, hq, -⟩ := h.pend_get hid
  rw [hx] at hy
  cases hy
  exact hn hq.symm

/-- A record that replay accepts keeps the view well formed. -/
theorem logged (h : v.Wf c) {mem : Mem}
    (hr : r.replay v.logEnd v.mem = some mem) (hfit : (v.log r mem).Fits) :
    ∃ c', r.effect v.logEnd c = some c' ∧ (v.log r mem).Wf c' := by
  have hrr := h.shows.replay_record v.logEnd r
  cases hc : r.effect v.logEnd c with
  | none =>
      rw [hc] at hrr
      rw [hrr] at hr
      cases hr
  | some c' =>
      rw [hc] at hrr
      obtain ⟨mem', hm', hs'⟩ := hrr
      rw [hr] at hm'
      cases hm'
      refine ⟨c', rfl, hs', ?_⟩
      intro id x hx
      obtain ⟨e, he, ha⟩ := Option.bind_eq_some_iff.mp hc
      rcases Content.apply_msg ha (fun _ _ => h.key) hx with
        ⟨y, hy, -, hq, ho, hl⟩ | ⟨name, data, rfl, rfl⟩
      · exact ((h.located id y hy).append [r]).of_fields ho hl hq
      · exact (located_push he hfit).1

/-- The head of a queue, as `qdb_pop` and `qdb_pop_any` find it. -/
theorem head (h : v.Wf c) {name : QueueName} {q : Queue} {m : Msg}
    (hq : v.mem.st.queueGet name = some q) (h0 : q.pendingHead ≠ 0)
    (hm : v.mem.st.msgGet q.pendingHead = some m) :
    m.queueName = name ∧ m.state = .pending ∧ m.id = q.pendingHead ∧
      (c.pend name).head? = some m.id := by
  have hid := State.msgGet_id hm
  have hlink := h.shows.rep.lists.linked name
  rw [State.queueOr_of_get hq] at hlink
  have hhead := hlink.head_eq
  have hcore := State.coreGet_of_msgGet hm
  cases hp : c.pend name with
  | nil =>
      rw [hp] at hhead
      exact absurd hhead h0
  | cons x xs =>
      rw [hp, List.headD_cons] at hhead
      have hmem : q.pendingHead ∈ c.pend name := by
        rw [hp, hhead]
        exact List.mem_cons_self
      obtain ⟨y, hy, hyn⟩ := h.shows.rep.lists.stored name _ hmem
      rw [hcore] at hy
      cases hy
      have hn : m.queueName = name := hyn
      refine ⟨hn, ?_, hid, ?_⟩
      · rw [← hn] at hmem
        exact (h.shows.rep.pending_mem _ m.core hcore).mp hmem
      · rw [hid, hhead]
        rfl

theorem head_isSome (h : v.Wf c) {n : QueueName} {q : Queue}
    (hq : v.mem.st.queueGet n = some q) (h0 : q.pendingHead ≠ 0) :
    (v.mem.st.msgGet q.pendingHead).isSome := by
  have hl := h.shows.rep.lists.linked n
  rw [State.queueOr_of_get hq] at hl
  have hmem : q.pendingHead ∈ c.pend n := by
    have := hl.head_eq
    cases hp : c.pend n with
    | nil =>
        rw [hp] at this
        exact absurd this h0
    | cons k ks =>
        rw [hp] at this
        rw [this]
        exact List.mem_cons_self
  obtain ⟨x, hx, -⟩ := h.pend_get hmem
  obtain ⟨m, hm, -⟩ := h.shows.of_msg hx
  rw [hm]
  rfl

/-- A delivery changes the tables as the replay of its LEASE record. -/
theorem deliver_replays {q : Queue} {m : Msg}
    (h0 : v.mem.nextLeaseId ≠ 0)
    (hl : v.mem.st.leaseGet v.mem.nextLeaseId = none)
    (hm : v.mem.st.msgGet m.id = some m) (hs : m.state = .pending)
    (hq : v.mem.st.queueGet m.queueName = some q) (now : UInt64) :
    (leaseRecord m.id (now + v.leaseTimeoutUs) v.mem.nextLeaseId).replay
      v.logEnd v.mem = some (v.leased now q m) := by
  simp only [Record.replay, entry_leaseRecord, Option.bind_some, Mem.apply,
    Mem.applyLease, if_neg h0, hm, hs, hl, hq]
  simp [View.leased]

theorem resolve_replays (h : v.Wf c) {id l : UInt64} {m : Msg}
    (hm : v.mem.st.msgGet id = some m) (hs : m.state = .leased)
    (hl : m.leaseId = l) :
    (ackRecord id l).replay v.logEnd v.mem =
        some { v.mem with st := qdbAckState v.mem.st m l } ∧
      (nackRecord id l).replay v.logEnd v.mem =
        some { v.mem with st := qdbNackState v.mem.st m l } ∧
      (expireRecord id l).replay v.logEnd v.mem =
        some { v.mem with st := qdbNackState v.mem.st m l } := by
  obtain ⟨q, hq, -⟩ := h.shows.rep.queue_get hm
  simp only [Record.replay, entry_ackRecord, entry_nackRecord,
    entry_expireRecord, Option.bind_some, Mem.apply, Mem.applyResolve, hm, hs,
    hl, hq, State.qdbAckState_eq hq, State.qdbNackState_eq hq]
  simp

end View.Wf

/-- What a call can log, and with which effect. -/
inductive View.Logs (v : View) (c : Content) (now : UInt64) :
    Call → Record → Mem → Mem → Result → Prop
  | push {queue : Option CString} {data : DataArg} {b : Body}
      (harg : pushArg queue data = some b) :
      Logs v c now (.push queue data) (pushRecord v.mem.nextMsgId b)
        { v.mem with nextMsgId := v.mem.nextMsgId + 1 } (v.pushed b)
        (.code .ok)
  | deliver {call : Call} {q : Queue} {m : Msg}
      (hcall : (∃ queue, call = .pop queue true ∧
        queueArg queue = some m.queueName) ∨ call = .popAny true)
      (hm : v.mem.st.msgGet m.id = some m) (hs : m.state = .pending)
      (hq : v.mem.st.queueGet m.queueName = some q)
      (hcount : q.pendingCount > 0)
      (hhead : (c.pend m.queueName).head? = some m.id)
      (hmin : call = .popAny true → ∀ q' ∈ v.mem.st.queues, ∀ m',
        v.mem.st.Candidate q' m' → m.id ≤ m'.id) :
      Logs v c now call
        (leaseRecord m.id (now + v.leaseTimeoutUs) v.mem.nextLeaseId)
        { v.mem with nextLeaseId := v.mem.nextLeaseId + 1 }
        (v.leased now q m)
        (.msg ⟨m.id, v.mem.nextLeaseId, m.queueName, dataOf v.start v.rs m,
          m.retryCount⟩)
  | ack {id l : UInt64} {m : Msg} (hm : v.mem.st.msgGet id = some m)
      (hs : m.state = .leased) (hl : m.leaseId = l) :
      Logs v c now (.ack id l) (ackRecord id l) v.mem
        { v.mem with st := qdbAckState v.mem.st m l } (.code .ok)
  | nack {id l : UInt64} {m : Msg} (hm : v.mem.st.msgGet id = some m)
      (hs : m.state = .leased) (hl : m.leaseId = l) :
      Logs v c now (.nack id l) (nackRecord id l) v.mem
        { v.mem with st := qdbNackState v.mem.st m l } (.code .ok)

namespace View.Wf

variable {v : View} {c : Content} {now : UInt64} {call : Call} {r : Record}
variable {half full : Mem} {res : Result}

/-- The scan of `qdb_pop_any` over all queues. -/
theorem popAnyScan (h : v.Wf c) :
    ∃ best, Qdb.popAnyScan v.mem.st v.mem.st.queues none 0xFFFFFFFFFFFFFFFF =
        .ok best ∧
      (best = none → ∀ q ∈ v.mem.st.queues, ∀ m, v.mem.st.Candidate q m →
        0xFFFFFFFFFFFFFFFF ≤ m.id) ∧
      ∀ q m, best = some (q, m) → v.mem.st.queueGet q.name = some q ∧
        v.mem.st.Candidate q m ∧
        ∀ q' ∈ v.mem.st.queues, ∀ m', v.mem.st.Candidate q' m' →
          m.id ≤ m'.id := by
  obtain ⟨best, hp, hnone, hsome⟩ :=
    @popAnyScan_spec v.mem.st v.mem.st.queues none 0xFFFFFFFFFFFFFFFF
      (fun q hq => h.head_isSome (h.shows.rep.mem_queues.mp hq))
      (by simp)
  refine ⟨best, hp, fun hb => (hnone hb).2, ?_⟩
  intro q m hb
  obtain ⟨hin, -, hmin⟩ := hsome q m hb
  rcases hin with hin | ⟨hq, hcand⟩
  · cases hin
  · exact ⟨h.shows.rep.mem_queues.mp hq, hcand, hmin⟩

theorem resolveCall_log {v : View} {r r' : Record}
    {update : State → Msg → UInt64 → State} {id l : UInt64}
    {half full : Mem} {res : Result}
    (h : v.resolveCall r' update id l = .log r half full res) :
    ∃ m, v.mem.st.msgGet id = some m ∧ m.state = .leased ∧ m.leaseId = l ∧
      r = r' ∧ half = v.mem ∧ full = { v.mem with st := update v.mem.st m l } ∧
      res = .code .ok := by
  unfold View.resolveCall at h
  cases hm : v.mem.st.msgGet id with
  | none =>
      rw [hm] at h
      cases h
  | some m =>
      rw [hm] at h
      dsimp only at h
      split at h
      · cases h
      rename_i hs
      split at h
      · cases h
      rename_i hl
      cases h
      exact ⟨m, rfl, not_not.mp hs, not_not.mp hl, rfl, rfl, rfl, rfl⟩

/-- Every logging call is one of these. -/
theorem logs (h : v.Wf c)
    (hmv : v.move now call = some (.log r half full res)) :
    v.Logs c now call r half full res := by
  cases call with
  | push queue data =>
      have hmv := Option.some.inj hmv
      unfold View.push at hmv
      cases harg : pushArg queue data with
      | none =>
          rw [harg] at hmv
          cases hmv
      | some b =>
          rw [harg] at hmv
          cases hmv
          exact .push harg
  | pop queue outMsg =>
      have hmv := Option.some.inj hmv
      unfold View.pop at hmv
      split at hmv
      · cases hmv
      rename_i hout
      cases hqa : queueArg queue with
      | none =>
          rw [hqa] at hmv
          cases hmv
      | some name =>
          rw [hqa] at hmv
          dsimp only at hmv
          cases hq : v.mem.st.queueGet name with
          | none =>
              rw [hq] at hmv
              cases hmv
          | some q =>
              rw [hq] at hmv
              dsimp only at hmv
              split at hmv
              · cases hmv
              rename_i h0
              cases hm : v.mem.st.msgGet q.pendingHead with
              | none =>
                  rw [hm] at hmv
                  cases hmv
              | some m =>
                  rw [hm] at hmv
                  cases hmv
                  obtain ⟨hn, hs, hid, hhead⟩ :=
                    h.head hq (fun hz => h0 (Or.inr hz)) hm
                  have hout : outMsg = true := by simpa using hout
                  subst hout hn
                  refine .deliver (Or.inl ⟨queue, rfl, hqa⟩)
                    (by rw [hid]; exact hm) hs hq ?_ hhead
                    (fun hc => by cases hc)
                  exact UInt32.pos_iff_ne_zero.mpr (fun hz => h0 (Or.inl hz))
  | popAny outMsg =>
      have hmv := Option.some.inj hmv
      unfold View.popAny at hmv
      split at hmv
      · cases hmv
      rename_i hout
      obtain ⟨best, hp, -, hsome⟩ := h.popAnyScan
      rw [hp] at hmv
      cases best with
      | none =>
          cases hmv
      | some qm =>
          obtain ⟨q, m⟩ := qm
          cases hmv
          obtain ⟨hq, hcand, hmin⟩ := hsome q m rfl
          obtain ⟨hn, hs, hid, hhead⟩ := h.head hq hcand.2.1 hcand.2.2
          have hout : outMsg = true := by simpa using hout
          subst hout
          rw [← hn] at hq hhead
          exact .deliver (Or.inr rfl) (by rw [hid]; exact hcand.2.2) hs hq
            hcand.1 hhead (fun _ => hmin)
  | ack id l =>
      obtain ⟨m, hm, hs, hl, rfl, rfl, rfl, rfl⟩ :=
        resolveCall_log (Option.some.inj hmv)
      exact .ack hm hs hl
  | nack id l =>
      obtain ⟨m, hm, hs, hl, rfl, rfl, rfl, rfl⟩ :=
        resolveCall_log (Option.some.inj hmv)
      exact .nack hm hs hl
  | openDb t =>
      cases hmv
  | close =>
      cases hmv
  | processExpired =>
      cases hmv
  | compact =>
      cases hmv

/-- A logging call changes the tables as the replay of its record would. -/
theorem logs_replays (h : v.Wf c) (hf : v.Fresh call)
    (hlog : v.Logs c now call r half full res) :
    r.replay v.logEnd v.mem = some full := by
  cases hlog with
  | @push queue data b harg =>
      simp only [Record.replay, entry_pushRecord, Option.bind_some, Mem.apply,
        if_neg hf.1, hf.2]
      simp [View.pushed]
  | deliver hcall hm hs hq hcount hhead hmin =>
      have hlease : v.mem.nextLeaseId ≠ 0 ∧
          v.mem.st.leaseGet v.mem.nextLeaseId = none := by
        rcases hcall with ⟨queue, rfl, -⟩ | rfl
        · exact hf
        · exact hf
      exact deliver_replays hlease.1 hlease.2 hm hs hq now
  | ack hm hs hl =>
      exact (h.resolve_replays hm hs hl).1
  | nack hm hs hl =>
      exact (h.resolve_replays hm hs hl).2.1

/-- Counters above all ids give fresh ones. -/
theorem fresh (h : v.Wf c) (hb : v.Bounded c) (hn : v.Counting)
    (call : Call) : v.Fresh call := by
  have hmsg : v.mem.st.msgGet v.mem.nextMsgId = none :=
    h.shows.msg_none.mpr (hb.msg_none hn)
  have hlease : v.mem.st.leaseGet v.mem.nextLeaseId = none := by
    rw [h.shows.lease]
    exact hb.lease_none hn
  cases call with
  | push queue data =>
      exact ⟨hn.msg, hmsg⟩
  | pop queue out =>
      exact ⟨hn.lease, hlease⟩
  | popAny out =>
      exact ⟨hn.lease, hlease⟩
  | _ =>
      trivial

/-- So does the expiry of a lease. -/
theorem expire_replays (h : v.Wf c) {l id : UInt64}
    (he : v.expire l id = .log r half full res) :
    r.replay v.logEnd v.mem = some full ∧ r = expireRecord id l ∧
      half = v.mem ∧ full.nextMsgId = v.mem.nextMsgId ∧
      full.nextLeaseId = v.mem.nextLeaseId := by
  unfold View.expire at he
  cases hm : v.mem.st.msgGet id with
  | none =>
      rw [hm] at he
      cases he
  | some m =>
      rw [hm] at he
      dsimp only at he
      split at he
      · cases he
      · next hs =>
        cases he
        rw [not_or, not_not, not_not] at hs
        exact ⟨(h.resolve_replays hm hs.1 hs.2).2.2, rfl, rfl, rfl, rfl⟩

/-- Expiry does not skip a lease of the table. -/
theorem expire_eq (h : v.Wf c) {l : Lease} (hl : c.lease l.leaseId = some l) :
    ∃ m, v.mem.st.msgGet l.msgId = some m ∧ m.state = .leased ∧
      m.leaseId = l.leaseId ∧
      v.expire l.leaseId l.msgId = v.resolve
        (expireRecord l.msgId l.leaseId) qdbNackState m l.leaseId := by
  obtain ⟨x, hx, hs, hlx, -⟩ := h.lease_get hl
  obtain ⟨m, hm, rfl, -⟩ := h.shows.of_msg hx
  have hs' : m.state = .leased := hs
  have hlx' : m.leaseId = l.leaseId := hlx
  refine ⟨m, hm, hs', hlx', ?_⟩
  unfold View.expire
  rw [hm]
  dsimp only
  rw [if_neg]
  rw [not_or, not_not, not_not]
  exact ⟨hs', hlx'⟩

/-- The tables after the expiry of a lease. -/
theorem expire_logged (h : v.Wf c) {l : Lease}
    (hl : c.lease l.leaseId = some l)
    (hfit : (v.after (v.expire l.leaseId l.msgId)).Fits) :
    ∃ x, c.msg l.msgId = some x ∧ x.state = .leased ∧
      x.leaseId = l.leaseId ∧
      (v.after (v.expire l.leaseId l.msgId)).Wf (c.nackMsg x l.leaseId) := by
  obtain ⟨m, hm, hs, hlm, hmv⟩ := h.expire_eq hl
  rw [hmv] at hfit ⊢
  obtain ⟨c', hc', hwf⟩ :=
    h.logged (h.resolve_replays hm hs hlm).2.2 hfit
  rw [Record.effect, entry_expireRecord, Option.bind_some] at hc'
  obtain ⟨x, hheld, rfl⟩ := Option.map_eq_some_iff.mp hc'
  obtain ⟨hx, hsx, hlx⟩ := Content.held_eq_some.mp hheld
  exact ⟨x, hx, hsx, hlx, hwf⟩

end View.Wf

/-- A record does not move the message counter twice. -/
theorem bumpMsg_twice (r : Record) {n y : UInt64}
    (hy : n ≤ r.bumpMsg n → y = r.bumpMsg n) :
    r.bumpMsg y = r.bumpMsg n := by
  unfold Record.bumpMsg at hy ⊢
  generalize r.entry = entry at hy ⊢
  cases entry with
  | none =>
      simpa using hy (UInt64.le_refl _)
  | some e =>
      simp only [Option.map_some, Option.getD_some] at hy ⊢
      cases e with
      | push id name data =>
          simp only [Entry.bumpMsg] at hy ⊢
          by_cases h1 : id ≥ n
          · rw [if_pos h1] at hy ⊢
            by_cases h2 : id ≥ y
            · rw [if_pos h2]
            · rw [if_neg h2]
              apply hy
              grind
          · rw [if_neg h1] at hy ⊢
            rw [hy (UInt64.le_refl _), if_neg h1]
      | checkpoint nm nl =>
          simp only [Entry.bumpMsg] at hy ⊢
          grind
      | lease id e l =>
          exact hy (UInt64.le_refl _)
      | ack id l =>
          exact hy (UInt64.le_refl _)
      | nack id l =>
          exact hy (UInt64.le_refl _)
      | expire id l =>
          exact hy (UInt64.le_refl _)
      | padding =>
          exact hy (UInt64.le_refl _)

/-- Where a lease came from. -/
theorem Content.apply_lease {c c' : Content} {off : UInt64} {e : Entry}
    (h : c.apply off e = some c') {l : UInt64} {x : Lease}
    (hx : c'.lease l = some x) :
    c.lease l = some x ∨ ∃ id t, e = .lease id t l := by
  have hdrop : ∀ {k : UInt64},
      Function.update c.lease k none l = some x → c.lease l = some x := by
    intro k hu
    by_cases hk : l = k
    · subst hk
      rw [Function.update_self] at hu
      cases hu
    · rwa [Function.update_of_ne hk] at hu
  cases e with
  | push id name data =>
      obtain ⟨-, -, rfl⟩ := Content.apply_push.mp h
      exact Or.inl hx
  | lease id t k =>
      obtain ⟨m, -, rfl⟩ := Option.map_eq_some_iff.mp h
      by_cases hk : l = k
      · subst hk
        exact Or.inr ⟨id, t, rfl⟩
      · exact Or.inl ((Function.update_of_ne hk _ _).symm.trans hx)
  | ack id k =>
      obtain ⟨m, hm, rfl⟩ := Option.map_eq_some_iff.mp h
      exact Or.inl (hdrop hx)
  | nack id k =>
      obtain ⟨m, hm, rfl⟩ := Option.map_eq_some_iff.mp h
      exact Or.inl (hdrop hx)
  | expire id k =>
      obtain ⟨m, hm, rfl⟩ := Option.map_eq_some_iff.mp h
      exact Or.inl (hdrop hx)
  | checkpoint nm nl =>
      cases h
      exact Or.inl hx
  | padding =>
      cases h
      exact Or.inl hx

/-- What the operations keep: tables, counters and replay agree. -/
structure View.Inv (v : View) (c : Content) : Prop where
  wf : v.Wf c
  bounded : v.Bounded c
  stable : v.Stable

namespace View.Inv

variable {v : View} {c c' : Content} {r : Record}

theorem bounded_logged (h : v.Inv c) (hn : v.Counting) {mem : Mem}
    (hr : r.replay v.logEnd v.mem = some mem)
    (hc : r.effect v.logEnd c = some c') : (v.log r mem).Bounded c' := by
  obtain ⟨e, he, ha⟩ := Option.bind_eq_some_iff.mp hc
  have hcount := replayRecords_counts
    ((replayRecords_singleton r v.logEnd v.mem).trans hr)
  have hmsg : mem.nextMsgId = e.bumpMsg v.mem.nextMsgId := by
    rw [hcount.1]
    simp [countMsg, Record.bumpMsg, he]
  have hlease : mem.nextLeaseId = e.bumpLease v.mem.nextLeaseId := by
    rw [hcount.2]
    simp [countLease, Record.bumpLease, he]
  have hmold := h.bounded.msg hn.msg
  have hlold := h.bounded.lease hn.lease
  constructor
  · intro h0 id hid
    change mem.nextMsgId ≠ 0 at h0
    change id < mem.nextMsgId
    obtain ⟨x, hx⟩ := Option.isSome_iff_exists.mp hid
    rw [hmsg] at h0 ⊢
    rcases Content.apply_msg ha (fun _ _ => h.wf.key) hx with
      ⟨y, hy, -⟩ | ⟨name, data, rfl, -⟩
    · have hlt := hmold id (by rw [hy]; rfl)
      cases e <;> simp only [Entry.bumpMsg] at h0 ⊢ <;> grind
    · simp only [Entry.bumpMsg] at h0 ⊢
      grind
  · intro h0 l hl
    change mem.nextLeaseId ≠ 0 at h0
    change l < mem.nextLeaseId
    obtain ⟨x, hx⟩ := Option.isSome_iff_exists.mp hl
    rw [hlease] at h0 ⊢
    rcases Content.apply_lease ha hx with hy | ⟨id, t, rfl⟩
    · have hlt := hlold l (by rw [hy]; rfl)
      cases e <;> simp only [Entry.bumpLease] at h0 ⊢ <;> grind
    · simp only [Entry.bumpLease] at h0 ⊢
      grind

theorem stable_logged (h : v.Inv c) (hn : v.Counting) {mem : Mem}
    (hr : r.replay v.logEnd v.mem = some mem) : (v.log r mem).Stable := by
  obtain ⟨c₀, hc₀, hs₀⟩ := State.Shows.start.of_replay h.stable
  have hmsg : c₀.msg = c.msg := hs₀.msg.symm.trans h.wf.shows.msg
  have hcount := replayRecords_counts h.stable
  have hstart : (Mem.start v.mem.nextMsgId).nextMsgId = v.mem.nextMsgId := rfl
  have hfix : countMsg v.rs v.mem.nextMsgId = v.mem.nextMsgId :=
    (hcount.1.trans (by rw [hstart])).symm
  have habove := (countMsg_above hc₀ (a := v.mem.nextMsgId) (by
    intro id hid
    rw [hfix]
    rw [hmsg] at hid
    exact h.bounded.msg hn.msg id hid)).2
  have hbump := replayRecords_counts
    ((replayRecords_singleton r v.logEnd v.mem).trans hr)
  have hnew : mem.nextMsgId = r.bumpMsg v.mem.nextMsgId := hbump.1
  have hnewl : mem.nextLeaseId = r.bumpLease v.mem.nextLeaseId := hbump.2
  -- replay of the old log from the new counter
  have hold := replayRecords_counters h.stable mem.nextMsgId 1
  have hlease : countLease v.rs 1 = v.mem.nextLeaseId := hcount.2.symm
  rw [hlease] at hold
  unfold View.Stable
  change replayRecords v.start (v.rs ++ [r]) ⟨mem.nextMsgId, 1, .empty⟩ =
    some mem
  have hlog : v.start + UInt64.ofNat (encodeLog v.rs).length = v.logEnd := rfl
  rw [replayRecords_append,
    show replayRecords v.start v.rs ⟨mem.nextMsgId, 1, .empty⟩ = _ from hold,
    Option.bind_some, hlog, replayRecords_singleton,
    Record.replay_counters hr]
  have hmsgs : r.bumpMsg (countMsg v.rs mem.nextMsgId) = mem.nextMsgId := by
    rw [hnew]
    apply bumpMsg_twice
    intro hle
    rw [← hnew] at hle ⊢
    exact habove _ (by rw [hfix]; exact hle)
  rw [hmsgs, ← hnewl]

/-- A record that replay accepts keeps the invariant. -/
theorem logged (h : v.Inv c) (hn : v.Counting) {mem : Mem}
    (hr : r.replay v.logEnd v.mem = some mem) (hfit : (v.log r mem).Fits) :
    ∃ c', r.effect v.logEnd c = some c' ∧ (v.log r mem).Inv c' := by
  obtain ⟨c', hc', hwf⟩ := h.wf.logged hr hfit
  exact ⟨c', hc', hwf, h.bounded_logged hn hr hc', h.stable_logged hn hr⟩

end View.Inv

end Qdb
