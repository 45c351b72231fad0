import Qdb.StateView

/-!
# The four state updates

Every operation of the library changes the tables in one of four ways: a new
message is linked in, a pending message is leased, a leased message is
acknowledged, a leased message returns to its queue.  Each change is written
twice in the source, once for the live call and once for replay; the first
section shows that both produce the same tables.  The rest describes each
change on the views of `StateView`.
-/

namespace Qdb

open Lib

namespace Msg

/-- A message under a lease. -/
def leasedAs (m : Msg) (l e : UInt64) : Msg :=
  { m with state := .leased, leaseId := l, leaseExpiryUs := e }

/-- A message after its acknowledgement. -/
def asAcked (m : Msg) : Msg :=
  { m with state := .acked, leaseId := 0, leaseExpiryUs := 0 }

/-- A message after a nack or an expiry. -/
def returned (m : Msg) : Msg :=
  { m with
    state := .pending
    leaseId := 0
    leaseExpiryUs := 0
    retryCount := m.retryCount + 1 }

end Msg

namespace State

/-- Linking a new message in, as `qdb_push` and `replay_push` do when
allocations succeed. -/
def addMsg (st : State) (m : Msg) : State :=
  let st := st.msgInsert m
  match st.queueGet m.queueName with
  | some q => st.queuePendingAppend q m
  | none =>
      (st.queueInsert m.queueName).queuePendingAppend (newQueue m.queueName) m

/-- The entry of a queue; a fresh one when there is none. -/
def queueOr (st : State) (name : QueueName) : Queue :=
  (st.queueGet name).getD (newQueue name)

@[simp] theorem queueOr_name (st : State) (name : QueueName) :
    (st.queueOr name).name = name := by
  unfold queueOr
  cases h : st.queueGet name with
  | none =>
      rfl
  | some q =>
      exact queueGet_name h

theorem queueOr_of_get {st : State} {name : QueueName} {q : Queue}
    (h : st.queueGet name = some q) : st.queueOr name = q := by
  simp [queueOr, h]

section LiveEqualsReplay

theorem doPopState_eq (st : State) (q : Queue) (m : Msg) (l e : UInt64) :
    doPopState st q m l e = replayLeaseState st q m l e := by
  rfl

theorem leaseRemove_modifyQueue (st : State) (n : QueueName)
    (f : Queue → Queue) (l : UInt64) :
    (st.modifyQueue n f).leaseRemove l = (st.leaseRemove l).modifyQueue n f := by
  unfold leaseRemove
  rw [leaseGet_modifyQueue]
  cases st.leaseGet l <;> rfl

/-- `qdb_ack` moves the counters first, `replay_ack` last. -/
theorem qdbAckState_eq {st : State} {q : Queue} {m : Msg}
    (hq : st.queueGet m.queueName = some q) (l : UInt64) :
    qdbAckState st m l = replayAckState st q m l := by
  unfold qdbAckState replayAckState
  simp only [hq, leaseRemove_modifyQueue]
  rfl

theorem qdbNackState_eq {st : State} {q : Queue} {m : Msg}
    (hq : st.queueGet m.queueName = some q) (l : UInt64) :
    qdbNackState st m l = replayNackState st q m l := by
  unfold qdbNackState replayNackState
  rw [hq]

end LiveEqualsReplay

section Views

variable (st : State) (q : Queue) (m : Msg)

/-- Changing state, lease and retry count of a message. -/
@[simp] theorem coreGet_modifyMsg_state (k id : UInt64)
    (a : MsgState) (b c : UInt64) (d : UInt32 → UInt32) :
    (st.modifyMsg k fun x =>
      { x with
        state := a, leaseId := b, leaseExpiryUs := c
        retryCount := d x.retryCount }).coreGet id =
      if id = k then
        (st.coreGet k).map fun x =>
          { x with
            state := a, leaseId := b, leaseExpiryUs := c
            retryCount := d x.retryCount }
      else st.coreGet id := by
  unfold coreGet
  rw [msgGet_modifyMsg_fields]
  by_cases h : id = k
  · rw [if_pos h, if_pos h, Option.map_map, Option.map_map]
    rfl
  · rw [if_neg h, if_neg h]

@[simp] theorem nextOf_modifyMsg_state (k id : UInt64)
    (a : MsgState) (b c : UInt64) (d : UInt32 → UInt32) :
    (st.modifyMsg k fun x =>
      { x with
        state := a, leaseId := b, leaseExpiryUs := c
        retryCount := d x.retryCount }).nextOf id = st.nextOf id := by
  unfold nextOf
  rw [msgGet_modifyMsg_fields]
  by_cases h : id = k
  · rw [if_pos h, Option.map_map, h]
    rfl
  · rw [if_neg h]

@[simp] theorem prevOf_modifyMsg_state (k id : UInt64)
    (a : MsgState) (b c : UInt64) (d : UInt32 → UInt32) :
    (st.modifyMsg k fun x =>
      { x with
        state := a, leaseId := b, leaseExpiryUs := c
        retryCount := d x.retryCount }).prevOf id = st.prevOf id := by
  unfold prevOf
  rw [msgGet_modifyMsg_fields]
  by_cases h : id = k
  · rw [if_pos h, Option.map_map, h]
    rfl
  · rw [if_neg h]

@[simp] theorem coreGet_leaseRemove (l id : UInt64) :
    (st.leaseRemove l).coreGet id = st.coreGet id := by
  simp [coreGet]

@[simp] theorem coreGet_leaseInsert (l : Lease) (id : UInt64) :
    (st.leaseInsert l).coreGet id = st.coreGet id := by
  rfl

theorem coreGet_replayLeaseState (l e id : UInt64) :
    (replayLeaseState st q m l e).coreGet id =
      if id = m.id then
        (st.coreGet m.id).map fun x => x.leasedAs l e
      else st.coreGet id := by
  unfold replayLeaseState
  rw [coreGet_leaseInsert, coreGet_modifyQueue,
    coreGet_modifyMsg_state _ _ _ _ _ _ (fun r => r),
    coreGet_queuePendingRemove, coreGet_queuePendingRemove]
  rfl

theorem coreGet_replayAckState (l id : UInt64) :
    (replayAckState st q m l).coreGet id =
      if id = m.id then
        (st.coreGet m.id).map Msg.asAcked
      else st.coreGet id := by
  unfold replayAckState
  rw [coreGet_modifyQueue, coreGet_modifyMsg_state _ _ _ _ _ _ (fun r => r),
    coreGet_leaseRemove, coreGet_leaseRemove]
  rfl

theorem coreGet_replayNackState (l id : UInt64) :
    (replayNackState st q m l).coreGet id =
      if id = m.id then
        (st.coreGet m.id).map Msg.returned
      else st.coreGet id := by
  unfold replayNackState
  rw [coreGet_queuePendingAppend, coreGet_modifyQueue,
    coreGet_modifyMsg_state _ _ _ _ _ _ (fun r => r + 1),
    coreGet_leaseRemove, coreGet_leaseRemove]
  rfl

end Views

section Queues

variable (st : State) (q : Queue) (m : Msg)

theorem queueGet_replayLeaseState (l e : UInt64) (n : QueueName) :
    (replayLeaseState st q m l e).queueGet n =
      if n = q.name then
        (st.queueGet q.name).map fun x =>
          { removedQueue m x with leasedCount := x.leasedCount + 1 }
      else st.queueGet n := by
  unfold replayLeaseState
  simp only [queueGet_leaseInsert, queueGet_modifyQueue_fields,
    queueGet_modifyMsg, queueGet_queuePendingRemove]
  by_cases h : n = q.name
  · simp only [h, if_true, Option.map_map]
    rfl
  · simp only [h, if_false]

theorem queueGet_replayAckState (l : UInt64) (n : QueueName) :
    (replayAckState st q m l).queueGet n =
      if n = q.name then
        (st.queueGet q.name).map fun x =>
          { x with
            leasedCount := x.leasedCount - 1
            ackedCount := x.ackedCount + 1 }
      else st.queueGet n := by
  unfold replayAckState
  simp only [queueGet_modifyQueue_fields, queueGet_modifyMsg,
    queueGet_leaseRemove]

theorem queueGet_replayNackState (l : UInt64) (n : QueueName) :
    (replayNackState st q m l).queueGet n =
      if n = q.name then
        (st.queueGet q.name).map fun x =>
          appendedQueue q m { x with leasedCount := x.leasedCount - 1 }
      else st.queueGet n := by
  unfold replayNackState
  rw [queueGet_queuePendingAppend]
  simp only [queueGet_modifyQueue_fields, queueGet_modifyMsg,
    queueGet_leaseRemove, if_true, Option.map_map]
  by_cases h : n = q.name
  · simp only [h, if_true]
    rfl
  · simp only [h, if_false]

theorem queueGet_addMsg (n : QueueName) :
    (st.addMsg m).queueGet n =
      if n = m.queueName then
        some (appendedQueue (st.queueOr n) m (st.queueOr n))
      else st.queueGet n := by
  unfold addMsg queueOr
  simp only [queueGet_msgInsert]
  cases hq : st.queueGet m.queueName with
  | none =>
      simp only [queueGet_queuePendingAppend]
      by_cases h : n = m.queueName
      · simp [h, hq, newQueue]
      · simp [h, newQueue, Ne.symm h]
  | some q =>
      have hn := queueGet_name hq
      simp only [queueGet_queuePendingAppend, hn, queueGet_msgInsert]
      by_cases h : n = m.queueName
      · simp [h, hq]
      · simp [h]

end Queues

section Tables

variable (st : State) (q : Queue) (m : Msg)

theorem leaseGet_replayLeaseState (l e id : UInt64) :
    (replayLeaseState st q m l e).leaseGet id =
      if l = id then some ⟨l, m.id, e⟩ else st.leaseGet id := by
  unfold replayLeaseState
  simp only [leaseGet_leaseInsert, leaseGet_modifyQueue, leaseGet_modifyMsg,
    leaseGet_queuePendingRemove]

theorem leaseGet_replayAckState {st : State}
    (hwf : Table.WellPlaced leaseBucket Lease.leaseId st.leaseBuckets)
    (l id : UInt64) :
    (replayAckState st q m l).leaseGet id =
      if id = l then none else st.leaseGet id := by
  unfold replayAckState
  simp only [leaseGet_modifyQueue, leaseGet_modifyMsg]
  exact leaseGet_leaseRemove hwf l id

theorem leaseGet_replayNackState {st : State}
    (hwf : Table.WellPlaced leaseBucket Lease.leaseId st.leaseBuckets)
    (l id : UInt64) :
    (replayNackState st q m l).leaseGet id =
      if id = l then none else st.leaseGet id := by
  unfold replayNackState
  simp only [leaseGet_queuePendingAppend, leaseGet_modifyQueue,
    leaseGet_modifyMsg]
  exact leaseGet_leaseRemove hwf l id

@[simp] theorem leaseGet_addMsg (id : UInt64) :
    (st.addMsg m).leaseGet id = st.leaseGet id := by
  unfold addMsg
  simp only [queueGet_msgInsert]
  cases st.queueGet m.queueName <;> simp

@[simp] theorem leaseBuckets_addMsg :
    (st.addMsg m).leaseBuckets = st.leaseBuckets := by
  unfold addMsg
  simp only [queueGet_msgInsert]
  cases st.queueGet m.queueName with
  | none =>
      exact leaseBuckets_queuePendingAppend ..
  | some q =>
      exact leaseBuckets_queuePendingAppend ..

@[simp] theorem coreGet_msgInsert (id : UInt64) :
    (st.msgInsert m).coreGet id =
      if m.id = id then some m.core else st.coreGet id := by
  unfold coreGet
  rw [msgGet_msgInsert]
  split <;> rfl

@[simp] theorem coreGet_queueInsert (n : QueueName) (id : UInt64) :
    (st.queueInsert n).coreGet id = st.coreGet id := by
  rfl

theorem coreGet_addMsg (id : UInt64) :
    (st.addMsg m).coreGet id =
      if m.id = id then some m.core else st.coreGet id := by
  unfold addMsg
  simp only [queueGet_msgInsert]
  cases st.queueGet m.queueName <;> simp

theorem cores_addMsg_perm :
    (st.addMsg m).cores.Perm (m.core :: st.cores) := by
  unfold addMsg
  simp only [queueGet_msgInsert]
  cases st.queueGet m.queueName <;>
    simpa using cores_msgInsert_perm st m

/-- One message's state fields change. -/
theorem cores_modifyMsg_state_perm {st : State} {k : UInt64} {x : Msg}
    (h : st.coreGet k = some x)
    (a : MsgState) (b c : UInt64) (d : UInt32 → UInt32) :
    ∃ rest, st.cores.Perm (x :: rest) ∧
      (st.modifyMsg k fun x =>
        { x with
          state := a, leaseId := b, leaseExpiryUs := c
          retryCount := d x.retryCount }).cores.Perm
        ({ x with
          state := a, leaseId := b, leaseExpiryUs := c
          retryCount := d x.retryCount } :: rest) := by
  unfold coreGet at h
  obtain ⟨y, hy, rfl⟩ := Option.map_eq_some_iff.mp h
  exact cores_modifyMsg_perm _ hy

theorem cores_replayLeaseState_perm {st : State} {m x : Msg} {l e : UInt64}
    (h : st.coreGet m.id = some x) :
    ∃ rest, st.cores.Perm (x :: rest) ∧
      (replayLeaseState st q m l e).cores.Perm
        (x.leasedAs l e :: rest) := by
  have h' : (st.queuePendingRemove q m).coreGet m.id = some x := by
    rw [coreGet_queuePendingRemove, h]
  obtain ⟨rest, h1, h2⟩ :=
    cores_modifyMsg_state_perm h' .leased l e (fun r => r)
  rw [cores_queuePendingRemove] at h1
  exact ⟨rest, h1, h2⟩

theorem cores_replayAckState_perm {st : State} {m x : Msg} {l : UInt64}
    (h : st.coreGet m.id = some x) :
    ∃ rest, st.cores.Perm (x :: rest) ∧
      (replayAckState st q m l).cores.Perm (x.asAcked :: rest) := by
  have h' : (st.leaseRemove l).coreGet m.id = some x := by
    rw [coreGet_leaseRemove, h]
  obtain ⟨rest, h1, h2⟩ :=
    cores_modifyMsg_state_perm h' .acked 0 0 (fun r => r)
  rw [cores_leaseRemove] at h1
  exact ⟨rest, h1, h2⟩

theorem cores_replayNackState_perm {st : State} {m x : Msg} {l : UInt64}
    (h : st.coreGet m.id = some x) :
    ∃ rest, st.cores.Perm (x :: rest) ∧
      (replayNackState st q m l).cores.Perm (x.returned :: rest) := by
  have h' : (st.leaseRemove l).coreGet m.id = some x := by
    rw [coreGet_leaseRemove, h]
  obtain ⟨rest, h1, h2⟩ :=
    cores_modifyMsg_state_perm h' .pending 0 0 (fun r => r + 1)
  rw [cores_leaseRemove] at h1
  refine ⟨rest, h1, ?_⟩
  unfold replayNackState
  rw [cores_queuePendingAppend]
  exact h2

end Tables

/-- Every entry is in the bucket of its key and no key occurs twice. -/
structure Placed (st : State) : Prop where
  msgs : Table.WellPlaced msgBucket Msg.id st.msgBuckets
  queues : Table.WellPlaced queueBucket Queue.name st.queueBuckets
  leases : Table.WellPlaced leaseBucket Lease.leaseId st.leaseBuckets

namespace Placed

variable {st : State}

theorem empty : Placed State.empty :=
  ⟨Table.wellPlaced_empty, Table.wellPlaced_empty, Table.wellPlaced_empty⟩

theorem msgInsert (h : st.Placed) {m : Msg} (hm : st.msgGet m.id = none) :
    (st.msgInsert m).Placed :=
  ⟨h.msgs.insert hm, h.queues, h.leases⟩

theorem modifyMsg (h : st.Placed) {k : UInt64} {a : Msg → MsgState}
    {b c e f : Msg → UInt64} {d : Msg → UInt32} :
    (st.modifyMsg k fun x =>
      { x with
        state := a x, leaseId := b x, leaseExpiryUs := c x
        retryCount := d x, nextPending := e x, prevPending := f x }).Placed :=
  ⟨h.msgs.modify k _ (fun _ hx => hx), h.queues, h.leases⟩

theorem queueInsert (h : st.Placed) {n : QueueName}
    (hn : st.queueGet n = none) : (st.queueInsert n).Placed :=
  ⟨h.msgs, h.queues.insert hn, h.leases⟩

theorem modifyQueue (h : st.Placed) {n : QueueName}
    {a b c : Queue → UInt32} {d e : Queue → UInt64} :
    (st.modifyQueue n fun x =>
      { x with
        pendingCount := a x, leasedCount := b x, ackedCount := c x
        pendingHead := d x, pendingTail := e x }).Placed :=
  ⟨h.msgs, h.queues.modify n _ (fun _ hx => hx), h.leases⟩

theorem leaseInsert (h : st.Placed) {l : Lease}
    (hl : st.leaseGet l.leaseId = none) : (st.leaseInsert l).Placed :=
  ⟨h.msgs, h.queues, h.leases.insert hl⟩

theorem leaseRemove (h : st.Placed) (l : UInt64) :
    (st.leaseRemove l).Placed := by
  unfold State.leaseRemove
  split
  · exact h
  · exact ⟨h.msgs, h.queues, h.leases.remove l⟩

theorem queuePendingAppend (h : st.Placed) (q : Queue) (m : Msg) :
    (st.queuePendingAppend q m).Placed := by
  unfold State.queuePendingAppend
  refine modifyQueue ?_
  split
  · exact (h.modifyMsg).modifyMsg
  · exact (h.modifyMsg).modifyQueue

theorem queuePendingRemove (h : st.Placed) (q : Queue) (m : Msg) :
    (st.queuePendingRemove q m).Placed := by
  unfold State.queuePendingRemove
  refine modifyQueue (modifyMsg ?_)
  split <;> split
  · exact (h.modifyMsg).modifyMsg
  · exact (h.modifyMsg).modifyQueue
  · exact (h.modifyQueue).modifyMsg
  · exact (h.modifyQueue).modifyQueue

theorem addMsg (h : st.Placed) {m : Msg} (hm : st.msgGet m.id = none) :
    (st.addMsg m).Placed := by
  unfold State.addMsg
  simp only [queueGet_msgInsert]
  cases hq : st.queueGet m.queueName with
  | none =>
      exact ((h.msgInsert hm).queueInsert hq).queuePendingAppend _ _
  | some q =>
      exact (h.msgInsert hm).queuePendingAppend _ _

theorem replayLeaseState (h : st.Placed) (q : Queue) (m : Msg)
    {l : UInt64} (hl : st.leaseGet l = none) (e : UInt64) :
    (replayLeaseState st q m l e).Placed := by
  apply leaseInsert
  · exact ((h.queuePendingRemove q m).modifyMsg).modifyQueue
  · simpa using hl

theorem replayAckState (h : st.Placed) (q : Queue) (m : Msg) (l : UInt64) :
    (replayAckState st q m l).Placed :=
  ((h.leaseRemove l).modifyMsg).modifyQueue

theorem replayNackState (h : st.Placed) (q : Queue) (m : Msg) (l : UInt64) :
    (replayNackState st q m l).Placed :=
  (((h.leaseRemove l).modifyMsg).modifyQueue).queuePendingAppend q m

end Placed

/-- The table counters are the table sizes. -/
structure Sized (st : State) : Prop where
  msgs : st.msgCount = UInt64.ofNat st.msgs.length
  queues : st.queueCount = UInt64.ofNat st.queues.length
  leases : st.leaseCount = UInt64.ofNat st.leases.length

namespace Sized

variable {st : State}

theorem empty : Sized State.empty := by
  constructor <;>
    simp [State.empty, State.msgs, State.queues, State.leases]

theorem ofNat_succ (n : Nat) :
    UInt64.ofNat (n + 1) = UInt64.ofNat n + 1 := by
  simp

theorem ofNat_pred {c : UInt64} {k n : Nat}
    (hc : c = UInt64.ofNat k) (hk : k = n + 1) : c - 1 = UInt64.ofNat n := by
  subst hc hk
  simp

theorem length_insert {n : Nat} {κ α : Type} [DecidableEq κ]
    (bucket : κ → Fin n) (key : α → κ) (t : Table n α) (a : α) :
    (Table.toList (Table.insert bucket key t a)).length =
      (Table.toList t).length + 1 :=
  (Table.toList_insert_perm t a).length_eq

theorem length_remove {n : Nat} {κ α : Type} [DecidableEq κ]
    {bucket : κ → Fin n} {key : α → κ} {t : Table n α} {k : κ} {a : α}
    (h : Table.lookup bucket key t k = some a) :
    (Table.toList t).length =
      (Table.toList (Table.remove bucket key t k)).length + 1 :=
  (Table.toList_remove_perm h).length_eq

theorem msgInsert (h : st.Sized) (m : Msg) : (st.msgInsert m).Sized where
  msgs := by
    have hl := length_insert msgBucket Msg.id st.msgBuckets m
    change st.msgCount + 1 = UInt64.ofNat (st.msgInsert m).msgs.length
    rw [h.msgs, ← ofNat_succ]
    exact congrArg UInt64.ofNat hl.symm
  queues := h.queues
  leases := h.leases

theorem length_modify {n : Nat} {κ α : Type} [DecidableEq κ]
    (bucket : κ → Fin n) (key : α → κ) (t : Table n α) (k : κ)
    (f : α → α) :
    (Table.toList (Table.modify bucket key t k f)).length =
      (Table.toList t).length := by
  cases h : Table.lookup bucket key t k with
  | none =>
      rw [Table.modify_of_lookup_none f h]
  | some a =>
      obtain ⟨rest, h1, h2⟩ := Table.toList_modify_perm f h
      rw [h1.length_eq, h2.length_eq]
      rfl

theorem modifyMsg (h : st.Sized) (k : UInt64) (f : Msg → Msg) :
    (st.modifyMsg k f).Sized where
  msgs := h.msgs.trans (congrArg UInt64.ofNat (length_modify _ _ _ _ _).symm)
  queues := h.queues
  leases := h.leases

theorem queueInsert (h : st.Sized) (n : QueueName) :
    (st.queueInsert n).Sized where
  msgs := h.msgs
  queues := by
    have hl := length_insert queueBucket Queue.name st.queueBuckets
      (newQueue n)
    change st.queueCount + 1 = UInt64.ofNat (st.queueInsert n).queues.length
    rw [h.queues, ← ofNat_succ]
    exact congrArg UInt64.ofNat hl.symm
  leases := h.leases

theorem modifyQueue (h : st.Sized) (n : QueueName) (f : Queue → Queue) :
    (st.modifyQueue n f).Sized where
  msgs := h.msgs
  queues :=
    h.queues.trans (congrArg UInt64.ofNat (length_modify _ _ _ _ _).symm)
  leases := h.leases

theorem leaseInsert (h : st.Sized) (l : Lease) : (st.leaseInsert l).Sized where
  msgs := h.msgs
  queues := h.queues
  leases := by
    have hl := length_insert leaseBucket Lease.leaseId st.leaseBuckets l
    change st.leaseCount + 1 = UInt64.ofNat (st.leaseInsert l).leases.length
    rw [h.leases, ← ofNat_succ]
    exact congrArg UInt64.ofNat hl.symm

theorem leaseRemove (h : st.Sized) (l : UInt64) : (st.leaseRemove l).Sized := by
  unfold State.leaseRemove
  cases hl : st.leaseGet l with
  | none =>
      exact h
  | some x =>
      exact ⟨h.msgs, h.queues, ofNat_pred h.leases (length_remove hl)⟩

theorem queuePendingAppend (h : st.Sized) (q : Queue) (m : Msg) :
    (st.queuePendingAppend q m).Sized := by
  unfold State.queuePendingAppend
  apply modifyQueue
  split
  · exact (h.modifyMsg _ _).modifyMsg _ _
  · exact (h.modifyMsg _ _).modifyQueue _ _

theorem queuePendingRemove (h : st.Sized) (q : Queue) (m : Msg) :
    (st.queuePendingRemove q m).Sized := by
  unfold State.queuePendingRemove
  apply modifyQueue
  apply modifyMsg
  split <;> split
  · exact (h.modifyMsg _ _).modifyMsg _ _
  · exact (h.modifyMsg _ _).modifyQueue _ _
  · exact (h.modifyQueue _ _).modifyMsg _ _
  · exact (h.modifyQueue _ _).modifyQueue _ _

theorem addMsg (h : st.Sized) (m : Msg) : (st.addMsg m).Sized := by
  unfold State.addMsg
  simp only [queueGet_msgInsert]
  cases st.queueGet m.queueName with
  | none =>
      exact ((h.msgInsert m).queueInsert _).queuePendingAppend _ _
  | some q =>
      exact (h.msgInsert m).queuePendingAppend _ _

theorem replayLeaseState (h : st.Sized) (q : Queue) (m : Msg)
    (l e : UInt64) : (replayLeaseState st q m l e).Sized :=
  (((h.queuePendingRemove q m).modifyMsg _ _).modifyQueue _ _).leaseInsert _

theorem replayAckState (h : st.Sized) (q : Queue) (m : Msg) (l : UInt64) :
    (replayAckState st q m l).Sized :=
  ((h.leaseRemove l).modifyMsg _ _).modifyQueue _ _

theorem replayNackState (h : st.Sized) (q : Queue) (m : Msg) (l : UInt64) :
    (replayNackState st q m l).Sized :=
  (((h.leaseRemove l).modifyMsg _ _).modifyQueue _ _).queuePendingAppend q m

end Sized

end State

end Qdb
