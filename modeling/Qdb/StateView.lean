import Qdb.Queue

/-!
# Views of the in-memory state

The tables are read through a few views: messages without their list links
(`coreGet`), the two link maps (`nextOf`, `prevOf`), queues and leases.  The
lemmas of this module say what every primitive table operation does to every
view, so that later proofs never unfold a table.
-/

namespace Qdb

open Lib

/-- A message without its list links. -/
def Msg.core (m : Msg) : Msg :=
  { m with nextPending := 0, prevPending := 0 }

namespace State

/-- A message as found in the table, without its list links. -/
def coreGet (st : State) (id : UInt64) : Option Msg :=
  (st.msgGet id).map Msg.core

/-- Forward link of a message; 0 when there is no such message. -/
def nextOf (st : State) (id : UInt64) : UInt64 :=
  ((st.msgGet id).map Msg.nextPending).getD 0

/-- Backward link of a message; 0 when there is no such message. -/
def prevOf (st : State) (id : UInt64) : UInt64 :=
  ((st.msgGet id).map Msg.prevPending).getD 0

/-- All messages without their list links, in bucket order. -/
def cores (st : State) : List Msg :=
  st.msgs.map Msg.core

section Primitives

variable (st : State)

theorem msgGet_id {st : State} {id : UInt64} {m : Msg}
    (h : st.msgGet id = some m) : m.id = id :=
  Table.lookup_some_key h

theorem queueGet_name {st : State} {name : QueueName} {q : Queue}
    (h : st.queueGet name = some q) : q.name = name :=
  Table.lookup_some_key h

theorem leaseGet_id {st : State} {id : UInt64} {l : Lease}
    (h : st.leaseGet id = some l) : l.leaseId = id :=
  Table.lookup_some_key h

@[simp] theorem msgGet_empty (id : UInt64) :
    empty.msgGet id = none := by
  rfl

@[simp] theorem queueGet_empty (name : QueueName) :
    empty.queueGet name = none := by
  rfl

@[simp] theorem leaseGet_empty (id : UInt64) :
    empty.leaseGet id = none := by
  rfl

@[simp] theorem msgGet_msgInsert (m : Msg) (id : UInt64) :
    (st.msgInsert m).msgGet id =
      if m.id = id then some m else st.msgGet id :=
  Table.lookup_insert _ _ _

@[simp] theorem queueGet_msgInsert (m : Msg) (name : QueueName) :
    (st.msgInsert m).queueGet name = st.queueGet name := by
  rfl

@[simp] theorem leaseGet_msgInsert (m : Msg) (id : UInt64) :
    (st.msgInsert m).leaseGet id = st.leaseGet id := by
  rfl

theorem msgGet_modifyMsg (k id : UInt64) (f : Msg → Msg)
    (hf : ∀ x, (f x).id = x.id) :
    (st.modifyMsg k f).msgGet id =
      if id = k then (st.msgGet k).map f else st.msgGet id := by
  apply Table.lookup_modify
  intro a ha
  rw [hf, ha]

/-- `msgGet_modifyMsg` for an assignment of state, lease and links. -/
@[simp] theorem msgGet_modifyMsg_fields
    (k id : UInt64) (a : Msg → MsgState) (b c e f : Msg → UInt64)
    (d : Msg → UInt32) :
    (st.modifyMsg k fun x =>
      { x with
        state := a x, leaseId := b x, leaseExpiryUs := c x
        retryCount := d x, nextPending := e x, prevPending := f x }).msgGet id =
      if id = k then
        (st.msgGet k).map fun x =>
          { x with
            state := a x, leaseId := b x, leaseExpiryUs := c x
            retryCount := d x, nextPending := e x, prevPending := f x }
      else st.msgGet id :=
  msgGet_modifyMsg st k id _ (fun _ => rfl)

/-- `msgGet_modifyMsg` for an assignment of links, field by field. -/
theorem msgGet_modifyMsg_links (k id : UInt64) (g h : Msg → UInt64) :
    (st.modifyMsg k fun x =>
      { x with nextPending := g x, prevPending := h x }).msgGet id =
      (st.msgGet id).map fun x =>
        { x with
          nextPending := if id = k then g x else x.nextPending
          prevPending := if id = k then h x else x.prevPending } := by
  rw [msgGet_modifyMsg_fields]
  by_cases hk : id = k
  · simp [hk]
  · simp [hk]

@[simp] theorem queueGet_modifyMsg
    (k : UInt64) (f : Msg → Msg) (name : QueueName) :
    (st.modifyMsg k f).queueGet name = st.queueGet name := by
  rfl

@[simp] theorem leaseGet_modifyMsg
    (k : UInt64) (f : Msg → Msg) (id : UInt64) :
    (st.modifyMsg k f).leaseGet id = st.leaseGet id := by
  rfl

@[simp] theorem msgGet_queueInsert (name : QueueName) (id : UInt64) :
    (st.queueInsert name).msgGet id = st.msgGet id := by
  rfl

@[simp] theorem queueGet_queueInsert (name name' : QueueName) :
    (st.queueInsert name).queueGet name' =
      if name = name' then some (newQueue name) else st.queueGet name' :=
  Table.lookup_insert _ _ _

@[simp] theorem leaseGet_queueInsert (name : QueueName) (id : UInt64) :
    (st.queueInsert name).leaseGet id = st.leaseGet id := by
  rfl

@[simp] theorem msgGet_modifyQueue
    (name : QueueName) (f : Queue → Queue) (id : UInt64) :
    (st.modifyQueue name f).msgGet id = st.msgGet id := by
  rfl

theorem queueGet_modifyQueue
    (k name : QueueName) (f : Queue → Queue)
    (hf : ∀ x, (f x).name = x.name) :
    (st.modifyQueue k f).queueGet name =
      if name = k then (st.queueGet k).map f else st.queueGet name := by
  apply Table.lookup_modify
  intro a ha
  rw [hf, ha]

/-- `queueGet_modifyQueue` for an assignment that leaves the name alone. -/
@[simp] theorem queueGet_modifyQueue_fields
    (k name : QueueName) (a b c : Queue → UInt32) (d e : Queue → UInt64) :
    (st.modifyQueue k fun x =>
      { x with
        pendingCount := a x, leasedCount := b x, ackedCount := c x
        pendingHead := d x, pendingTail := e x }).queueGet name =
      if name = k then
        (st.queueGet k).map fun x =>
          { x with
            pendingCount := a x, leasedCount := b x, ackedCount := c x
            pendingHead := d x, pendingTail := e x }
      else st.queueGet name :=
  queueGet_modifyQueue st k name _ (fun _ => rfl)

@[simp] theorem leaseGet_modifyQueue
    (name : QueueName) (f : Queue → Queue) (id : UInt64) :
    (st.modifyQueue name f).leaseGet id = st.leaseGet id := by
  rfl

@[simp] theorem msgGet_leaseInsert (l : Lease) (id : UInt64) :
    (st.leaseInsert l).msgGet id = st.msgGet id := by
  rfl

@[simp] theorem queueGet_leaseInsert (l : Lease) (name : QueueName) :
    (st.leaseInsert l).queueGet name = st.queueGet name := by
  rfl

@[simp] theorem leaseGet_leaseInsert (l : Lease) (id : UInt64) :
    (st.leaseInsert l).leaseGet id =
      if l.leaseId = id then some l else st.leaseGet id :=
  Table.lookup_insert _ _ _

@[simp] theorem msgGet_leaseRemove (l id : UInt64) :
    (st.leaseRemove l).msgGet id = st.msgGet id := by
  unfold leaseRemove
  split <;> rfl

@[simp] theorem queueGet_leaseRemove (l : UInt64) (name : QueueName) :
    (st.leaseRemove l).queueGet name = st.queueGet name := by
  unfold leaseRemove
  split <;> rfl

@[simp] theorem msgBuckets_leaseRemove (l : UInt64) :
    (st.leaseRemove l).msgBuckets = st.msgBuckets := by
  unfold leaseRemove
  split <;> rfl

@[simp] theorem queueBuckets_leaseRemove (l : UInt64) :
    (st.leaseRemove l).queueBuckets = st.queueBuckets := by
  unfold leaseRemove
  split <;> rfl

@[simp] theorem msgCount_leaseRemove (l : UInt64) :
    (st.leaseRemove l).msgCount = st.msgCount := by
  unfold leaseRemove
  split <;> rfl

@[simp] theorem queueCount_leaseRemove (l : UInt64) :
    (st.leaseRemove l).queueCount = st.queueCount := by
  unfold leaseRemove
  split <;> rfl

theorem leaseGet_leaseRemove {st : State}
    (hwf : Table.WellPlaced leaseBucket Lease.leaseId st.leaseBuckets)
    (l id : UInt64) :
    (st.leaseRemove l).leaseGet id =
      if id = l then none else st.leaseGet id := by
  unfold leaseRemove
  cases hl : st.leaseGet l with
  | none =>
      by_cases hid : id = l
      · simp [hid, hl]
      · simp [hid]
  | some x =>
      exact Table.lookup_remove hwf l id

end Primitives

section Cores

/-- Changing only links leaves the cores alone. -/
theorem coreGet_modifyMsg_link (st : State) (k id : UInt64) (f : Msg → Msg)
    (hf : ∀ x, (f x).core = x.core) :
    (st.modifyMsg k f).coreGet id = st.coreGet id := by
  have hid : ∀ x, (f x).id = x.id :=
    fun x => (congrArg Msg.id (hf x) : (f x).core.id = x.core.id)
  unfold coreGet
  rw [msgGet_modifyMsg st k id f hid]
  by_cases h : id = k
  · subst h
    rw [if_pos rfl, Option.map_map]
    congr 1
    funext x
    exact hf x
  · rw [if_neg h]

@[simp] theorem coreGet_modifyMsg_links (st : State) (k id : UInt64)
    (g h : Msg → UInt64) :
    (st.modifyMsg k fun x =>
      { x with nextPending := g x, prevPending := h x }).coreGet id =
      st.coreGet id :=
  coreGet_modifyMsg_link st k id _ (fun _ => rfl)

@[simp] theorem coreGet_modifyQueue (st : State)
    (name : QueueName) (f : Queue → Queue) (id : UInt64) :
    (st.modifyQueue name f).coreGet id = st.coreGet id := by
  rfl

theorem map_modifyFirst {α β : Type} (g : α → β) (p : α → Bool) (f : α → α)
    (hf : ∀ x, g (f x) = g x) :
    ∀ l : List α, (Table.modifyFirst p f l).map g = l.map g
  | [] => rfl
  | a :: l => by
      unfold Table.modifyFirst
      split
      · simp [hf]
      · simp [map_modifyFirst g p f hf l]

theorem cores_modifyMsg_link (st : State) (k : UInt64) (f : Msg → Msg)
    (hf : ∀ x, (f x).core = x.core) :
    (st.modifyMsg k f).cores = st.cores := by
  unfold cores msgs modifyMsg Table.toList Table.modify
  rw [List.map_flatMap, List.map_flatMap]
  apply List.flatMap_congr
  intro b _
  by_cases hb : b = msgBucket k
  · subst hb
    simp only [Function.update_self]
    exact map_modifyFirst _ _ _ hf _
  · simp only [Function.update_of_ne hb]

@[simp] theorem cores_modifyMsg_links (st : State) (k : UInt64)
    (g h : Msg → UInt64) :
    (st.modifyMsg k fun x =>
      { x with nextPending := g x, prevPending := h x }).cores =
      st.cores :=
  cores_modifyMsg_link st k _ (fun _ => rfl)

@[simp] theorem cores_modifyQueue (st : State)
    (name : QueueName) (f : Queue → Queue) :
    (st.modifyQueue name f).cores = st.cores := by
  rfl

@[simp] theorem cores_leaseInsert (st : State) (l : Lease) :
    (st.leaseInsert l).cores = st.cores := by
  rfl

@[simp] theorem cores_leaseRemove (st : State) (l : UInt64) :
    (st.leaseRemove l).cores = st.cores := by
  simp [cores, msgs]

@[simp] theorem cores_queueInsert (st : State) (name : QueueName) :
    (st.queueInsert name).cores = st.cores := by
  rfl

theorem cores_msgInsert_perm (st : State) (m : Msg) :
    (st.msgInsert m).cores.Perm (m.core :: st.cores) :=
  (Table.toList_insert_perm st.msgBuckets m).map Msg.core

/-- Changing one message replaces its core. -/
theorem cores_modifyMsg_perm {st : State} {k : UInt64} {m : Msg}
    (f : Msg → Msg) (h : st.msgGet k = some m) :
    ∃ rest, st.cores.Perm (m.core :: rest) ∧
      (st.modifyMsg k f).cores.Perm ((f m).core :: rest) := by
  obtain ⟨rest, h1, h2⟩ := Table.toList_modify_perm f h
  exact ⟨rest.map Msg.core, h1.map Msg.core, h2.map Msg.core⟩

end Cores

section Pending

variable (st : State) (q : Queue) (m : Msg)

@[simp] theorem coreGet_queuePendingAppend (id : UInt64) :
    (st.queuePendingAppend q m).coreGet id = st.coreGet id := by
  unfold queuePendingAppend
  simp only [coreGet_modifyQueue]
  split <;>
    simp only
      [coreGet_modifyQueue, coreGet_modifyMsg_links]

@[simp] theorem cores_queuePendingAppend :
    (st.queuePendingAppend q m).cores = st.cores := by
  unfold queuePendingAppend
  simp only [cores_modifyQueue]
  split <;>
    simp only
      [cores_modifyQueue, cores_modifyMsg_links]

@[simp] theorem leaseBuckets_queuePendingAppend :
    (st.queuePendingAppend q m).leaseBuckets = st.leaseBuckets := by
  unfold queuePendingAppend
  simp only
  split <;> rfl

@[simp] theorem leaseGet_queuePendingAppend (id : UInt64) :
    (st.queuePendingAppend q m).leaseGet id = st.leaseGet id := by
  simp [leaseGet]

@[simp] theorem msgCount_queuePendingAppend :
    (st.queuePendingAppend q m).msgCount = st.msgCount := by
  unfold queuePendingAppend
  simp only
  split <;> rfl

@[simp] theorem queueCount_queuePendingAppend :
    (st.queuePendingAppend q m).queueCount = st.queueCount := by
  unfold queuePendingAppend
  simp only
  split <;> rfl

@[simp] theorem leaseCount_queuePendingAppend :
    (st.queuePendingAppend q m).leaseCount = st.leaseCount := by
  unfold queuePendingAppend
  simp only
  split <;> rfl

/-- The queue entry after an append. -/
def appendedQueue (q : Queue) (m : Msg) (x : Queue) : Queue :=
  { x with
    pendingHead := if q.pendingTail = 0 then m.id else x.pendingHead
    pendingTail := m.id
    pendingCount := x.pendingCount + 1 }

theorem queueGet_queuePendingAppend (name : QueueName) :
    (st.queuePendingAppend q m).queueGet name =
      if name = q.name then (st.queueGet q.name).map (appendedQueue q m)
      else st.queueGet name := by
  unfold queuePendingAppend
  simp only
  rw [queueGet_modifyQueue_fields]
  by_cases hn : name = q.name
  · subst hn
    rw [if_pos rfl, if_pos rfl]
    by_cases ht : q.pendingTail = 0
    · rw [if_neg (by simpa using ht),
        queueGet_modifyQueue_fields, if_pos rfl,
        queueGet_modifyMsg, Option.map_map]
      congr 1
      funext x
      simp [appendedQueue, ht]
    · rw [if_pos ht, queueGet_modifyMsg, queueGet_modifyMsg]
      congr 1
      funext x
      simp [appendedQueue, ht]
  · rw [if_neg hn, if_neg hn]
    split
    · rfl
    · rw [queueGet_modifyQueue_fields, if_neg hn]
      rfl

theorem msgGet_queuePendingAppend (id : UInt64) :
    (st.queuePendingAppend q m).msgGet id =
      (st.msgGet id).map (fun x =>
        { x with
          nextPending :=
            if q.pendingTail ≠ 0 ∧ id = q.pendingTail then m.id
            else if id = m.id then 0 else x.nextPending
          prevPending :=
            if id = m.id then q.pendingTail else x.prevPending }) := by
  unfold queuePendingAppend
  simp only [msgGet_modifyQueue]
  by_cases ht : q.pendingTail = 0
  · rw [if_neg (by simpa using ht), msgGet_modifyQueue,
      msgGet_modifyMsg_fields]
    by_cases hid : id = m.id
    · simp [hid, ht]
    · simp [hid, ht]
  · rw [if_pos ht, msgGet_modifyMsg_fields,
      msgGet_modifyMsg_fields,
      msgGet_modifyMsg_fields]
    by_cases h1 : id = q.pendingTail
    · subst h1
      by_cases h2 : q.pendingTail = m.id
      · simp [h2]
        cases st.msgGet m.id <;> simp
      · simp [h2, ht]
    · by_cases h2 : id = m.id
      · subst h2
        simp [h1]
      · simp [h1, h2]

@[simp] theorem coreGet_queuePendingRemove (id : UInt64) :
    (st.queuePendingRemove q m).coreGet id = st.coreGet id := by
  unfold queuePendingRemove
  simp only
    [coreGet_modifyQueue, coreGet_modifyMsg_links]
  split <;> split <;>
    simp only
      [coreGet_modifyQueue, coreGet_modifyMsg_links]

@[simp] theorem cores_queuePendingRemove :
    (st.queuePendingRemove q m).cores = st.cores := by
  unfold queuePendingRemove
  simp only
    [cores_modifyQueue, cores_modifyMsg_links]
  split <;> split <;>
    simp only
      [cores_modifyQueue, cores_modifyMsg_links]

@[simp] theorem leaseBuckets_queuePendingRemove :
    (st.queuePendingRemove q m).leaseBuckets = st.leaseBuckets := by
  unfold queuePendingRemove
  simp only
  split <;> split <;> rfl

@[simp] theorem leaseGet_queuePendingRemove (id : UInt64) :
    (st.queuePendingRemove q m).leaseGet id = st.leaseGet id := by
  simp [leaseGet]

@[simp] theorem msgCount_queuePendingRemove :
    (st.queuePendingRemove q m).msgCount = st.msgCount := by
  unfold queuePendingRemove
  simp only
  split <;> split <;> rfl

@[simp] theorem queueCount_queuePendingRemove :
    (st.queuePendingRemove q m).queueCount = st.queueCount := by
  unfold queuePendingRemove
  simp only
  split <;> split <;> rfl

@[simp] theorem leaseCount_queuePendingRemove :
    (st.queuePendingRemove q m).leaseCount = st.leaseCount := by
  unfold queuePendingRemove
  simp only
  split <;> split <;> rfl

/-- The queue entry after a removal. -/
def removedQueue (m : Msg) (x : Queue) : Queue :=
  { x with
    pendingHead := if m.prevPending = 0 then m.nextPending else x.pendingHead
    pendingTail := if m.nextPending = 0 then m.prevPending else x.pendingTail
    pendingCount := x.pendingCount - 1 }

theorem queueGet_queuePendingRemove (name : QueueName) :
    (st.queuePendingRemove q m).queueGet name =
      if name = q.name then (st.queueGet q.name).map (removedQueue m)
      else st.queueGet name := by
  unfold queuePendingRemove
  simp only
  rw [queueGet_modifyQueue_fields]
  by_cases hn : name = q.name
  · subst hn
    rw [if_pos rfl, if_pos rfl]
    by_cases hp : m.prevPending = 0 <;> by_cases hx : m.nextPending = 0 <;>
      simp only [hp, hx, ne_eq, not_true_eq_false, not_false_eq_true,
        if_true, if_false, queueGet_modifyMsg,
        queueGet_modifyQueue_fields, Option.map_map] <;>
      congr 1 <;> funext x <;> simp [removedQueue, hp, hx]
  · rw [if_neg hn, if_neg hn]
    by_cases hp : m.prevPending = 0 <;> by_cases hx : m.nextPending = 0 <;>
      simp only [hp, hx, ne_eq, not_true_eq_false, not_false_eq_true,
        if_true, if_false, queueGet_modifyMsg,
        queueGet_modifyQueue_fields, if_neg hn]

theorem msgGet_queuePendingRemove (id : UInt64) :
    (st.queuePendingRemove q m).msgGet id =
      (st.msgGet id).map (fun x =>
        { x with
          nextPending :=
            if id = m.id then 0
            else if m.prevPending ≠ 0 ∧ id = m.prevPending then m.nextPending
            else x.nextPending
          prevPending :=
            if id = m.id then 0
            else if m.nextPending ≠ 0 ∧ id = m.nextPending then m.prevPending
            else x.prevPending }) := by
  unfold queuePendingRemove
  simp only [msgGet_modifyQueue]
  by_cases hp : m.prevPending = 0 <;> by_cases hx : m.nextPending = 0 <;>
    simp only [hp, hx, ne_eq, not_true_eq_false, not_false_eq_true,
      if_true, if_false, msgGet_modifyQueue, msgGet_modifyMsg_links,
      Option.map_map] <;>
    congr 1 <;> funext x <;>
    simp only [Function.comp_apply, Msg.mk.injEq, true_and] <;>
    split_ifs <;> simp_all

end Pending

end State

end Qdb
