import Qdb.RepInvariant

/-!
# Reading the tables

The pending list of a queue as the links give it, and what lies in the tables
under the representation invariant.  For a single queue over any message table,
`qdb__queue_pending_append` and `qdb__queue_pending_remove` are append and erase
of the represented list, and change no link outside of it.
-/

namespace Qdb

open Lib

namespace State

/-- The ids met by following `next_pending` from the head of a queue. -/
def pendingIds (st : State) (name : QueueName) : List UInt64 :=
  walk st.nextOf 0 st.msgs.length (st.queueOr name).pendingHead

variable {st : State} {pend : PendingLists}

theorem nextOf_of_get {id : UInt64} {m : Msg} (h : st.msgGet id = some m) :
    st.nextOf id = m.nextPending := by
  simp [nextOf, h]

theorem coreGet_eq_none {id : UInt64} :
    st.coreGet id = none ↔ st.msgGet id = none := by
  simp [coreGet]

theorem coreGet_some {id : UInt64} {x : Msg} (h : st.coreGet id = some x) :
    ∃ m, st.msgGet id = some m ∧ x = m.core := by
  obtain ⟨m, hm, hx⟩ := Option.map_eq_some_iff.mp h
  exact ⟨m, hm, hx.symm⟩

namespace Rep

theorem mem_msgs (h : Rep st pend) {m : Msg} :
    m ∈ st.msgs ↔ st.msgGet m.id = some m :=
  h.placed.msgs.mem_iff

theorem mem_queues (h : Rep st pend) {q : Queue} :
    q ∈ st.queues ↔ st.queueGet q.name = some q :=
  h.placed.queues.mem_iff

theorem mem_leases (h : Rep st pend) {l : Lease} :
    l ∈ st.leases ↔ st.leaseGet l.leaseId = some l :=
  h.placed.leases.mem_iff

theorem length_le (h : Rep st pend) (n : QueueName) :
    (pend n).length ≤ st.msgs.length := by
  have hsub : pend n ⊆ st.msgs.map Msg.id := by
    intro id hid
    obtain ⟨x, hx, -⟩ := h.lists.stored n id hid
    obtain ⟨m, hm, -⟩ := coreGet_some hx
    have hk := msgGet_id hm
    exact List.mem_map.mpr ⟨m, h.mem_msgs.mpr (by rw [hk]; exact hm), hk⟩
  have hle := ((h.lists.linked n).nodup.subperm hsub).length_le
  rwa [List.length_map] at hle

/-- The links of a queue give its pending list. -/
theorem pendingIds_eq (h : Rep st pend) (n : QueueName) :
    st.pendingIds n = pend n :=
  (h.lists.linked n).walk_eq (h.length_le n)

end Rep

section Represents

/-- The links of the queue `q` represent the list `xs` of stored messages; the
counter holds its length in 32 bits. -/
structure Represents (st : State) (q : Queue) (xs : List UInt64) : Prop where
  listed : st.queueGet q.name = some q
  linked : Linked st.nextOf st.prevOf 0 q.pendingHead q.pendingTail xs
  count : q.pendingCount = UInt32.ofNat xs.length
  stored : ∀ id ∈ xs, (st.msgGet id).isSome

/-- A message table with distinct nonzero ids. -/
structure DistinctIds (st : State) : Prop where
  placed : Table.WellPlaced msgBucket Msg.id st.msgBuckets
  nonzero : ∀ m ∈ st.msgs, m.id ≠ 0

variable {q : Queue} {xs : List UInt64} {m : Msg}

theorem Represents.core (h : st.Represents q xs) {id : UInt64}
    (hid : id ∈ xs) : ∃ c, st.coreGet id = some c := by
  obtain ⟨x, hx⟩ := Option.isSome_iff_exists.mp (h.stored id hid)
  exact ⟨x.core, coreGet_of_msgGet hx⟩

theorem isSome_msgGet_queuePendingAppend (id : UInt64) :
    ((st.queuePendingAppend q m).msgGet id).isSome =
      (st.msgGet id).isSome := by
  rw [msgGet_queuePendingAppend, Option.isSome_map]

theorem isSome_msgGet_queuePendingRemove (id : UInt64) :
    ((st.queuePendingRemove q m).msgGet id).isSome =
      (st.msgGet id).isSome := by
  rw [msgGet_queuePendingRemove, Option.isSome_map]

/-- Appending a stored message. -/
theorem Represents.append (h : st.Represents q xs)
    (hm : st.msgGet m.id = some m) (hz : m.id ≠ 0) (hmem : m.id ∉ xs) :
    (st.queuePendingAppend q m).Represents (appendedQueue q m q)
      (xs ++ [m.id]) where
  listed := by
    change (st.queuePendingAppend q m).queueGet q.name = _
    rw [queueGet_queuePendingAppend, if_pos rfl, h.listed]
    rfl
  linked := linked_queuePendingAppend h.linked rfl (fun _ => h.core)
    (coreGet_of_msgGet hm) hz hmem
  count := by
    simp [appendedQueue, h.count]
  stored := by
    intro id hid
    rw [isSome_msgGet_queuePendingAppend]
    rcases List.mem_append.mp hid with hid | hid
    · exact h.stored id hid
    · rw [List.mem_singleton.mp hid, hm]
      rfl

/-- Removing a listed message. -/
theorem Represents.remove (h : st.Represents q xs)
    (hm : st.msgGet m.id = some m) (hmem : m.id ∈ xs) :
    (st.queuePendingRemove q m).Represents (removedQueue m q)
      (xs.erase m.id) where
  listed := by
    change (st.queuePendingRemove q m).queueGet q.name = _
    rw [queueGet_queuePendingRemove, if_pos rfl, h.listed]
    rfl
  linked := linked_queuePendingRemove h.linked (fun _ => h.core) hm hmem
  count := by
    have hpos := List.length_pos_of_mem hmem
    refine ofNat32_pred h.count ?_
    rw [List.length_erase_of_mem hmem]
    omega
  stored := by
    intro id hid
    rw [isSome_msgGet_queuePendingRemove]
    exact h.stored id (List.mem_of_mem_erase hid)

/-- An append changes no message outside the new list. -/
theorem Represents.msgGet_append (h : st.Represents q xs) {id : UInt64}
    (hid : id ∉ xs ++ [m.id]) :
    (st.queuePendingAppend q m).msgGet id = st.msgGet id := by
  rw [List.mem_append, List.mem_singleton, not_or] at hid
  obtain ⟨hxs, hne⟩ := hid
  have htail : ¬ (q.pendingTail ≠ 0 ∧ id = q.pendingTail) := by
    rintro ⟨h0, rfl⟩
    exact hxs (h.linked.tail_mem h0)
  rw [msgGet_queuePendingAppend]
  simp [htail, hne]

/-- A removal changes no message outside the old list. -/
theorem Represents.msgGet_remove (h : st.Represents q xs)
    (hm : st.msgGet m.id = some m) (hmem : m.id ∈ xs) {id : UInt64}
    (hid : id ∉ xs) :
    (st.queuePendingRemove q m).msgGet id = st.msgGet id := by
  obtain ⟨hprev, hnext⟩ := h.linked.neighbours hmem
  have hp : st.prevOf m.id = m.prevPending := by
    simp [prevOf, hm]
  have hn : st.nextOf m.id = m.nextPending := nextOf_of_get hm
  rw [hp] at hprev
  rw [hn] at hnext
  have h1 : id ≠ m.id := by
    rintro rfl
    exact hid hmem
  have h2 : ¬ (m.prevPending ≠ 0 ∧ id = m.prevPending) := by
    rintro ⟨h0, rfl⟩
    exact hid (hprev h0).1
  have h3 : ¬ (m.nextPending ≠ 0 ∧ id = m.nextPending) := by
    rintro ⟨h0, rfl⟩
    exact hid (hnext h0).1
  rw [msgGet_queuePendingRemove]
  simp [h1, h2, h3]

/-- The id-linked pending list implements append and erase. -/
theorem pending_list_append_erase (st : State) (q : Queue)
    (xs : List UInt64) (m : Msg) (hids : st.DistinctIds)
    (h : st.Represents q xs) (hm : m ∈ st.msgs) :
    (m.id ∉ xs →
      ∃ q', q'.name = q.name ∧
        (st.queuePendingAppend q m).Represents q' (xs ++ [m.id]) ∧
        ∀ id, id ∉ xs ++ [m.id] →
          (st.queuePendingAppend q m).msgGet id = st.msgGet id) ∧
    (m.id ∈ xs →
      ∃ q', q'.name = q.name ∧
        (st.queuePendingRemove q m).Represents q' (xs.erase m.id) ∧
        (st.queuePendingRemove q m).msgGet m.id =
          some { m with nextPending := 0, prevPending := 0 } ∧
        ∀ id, id ∉ xs →
          (st.queuePendingRemove q m).msgGet id = st.msgGet id) := by
  have hget : st.msgGet m.id = some m := hids.placed.mem_iff.mp hm
  refine ⟨fun hmem => ?_, fun hmem => ?_⟩
  · exact ⟨appendedQueue q m q, rfl,
      h.append hget (hids.nonzero m hm) hmem, fun id => h.msgGet_append⟩
  · refine ⟨removedQueue m q, rfl, h.remove hget hmem, ?_,
      fun id => h.msgGet_remove hget hmem⟩
    rw [msgGet_queuePendingRemove, hget]
    simp

/-- The queue of the three messages 1, 2, 3. -/
def threeQueue : Queue :=
  { newQueue ⟨[116], by decide, by decide⟩ with
    pendingCount := 3, pendingHead := 1, pendingTail := 3 }

/-- A pending message of that queue between its neighbours. -/
def linkedMsg (prev id next : UInt64) : Msg where
  id := id
  dataFileOffset := 0
  dataLen := 0
  queueName := threeQueue.name
  state := .pending
  leaseId := 0
  leaseExpiryUs := 0
  retryCount := 0
  nextPending := next
  prevPending := prev

/-- Three messages in a list. -/
def threeLinked : State :=
  ((((empty.msgInsert (linkedMsg 2 3 0)).msgInsert (linkedMsg 1 2 3)).msgInsert
    (linkedMsg 0 1 2)).queueInsert threeQueue.name).modifyQueue
      threeQueue.name (fun _ => threeQueue)

theorem threeLinked_msgGet (id : UInt64) :
    threeLinked.msgGet id =
      if 1 = id then some (linkedMsg 0 1 2)
      else if 2 = id then some (linkedMsg 1 2 3)
      else if 3 = id then some (linkedMsg 2 3 0) else none := by
  change Table.lookup msgBucket Msg.id (Table.insert msgBucket Msg.id
    (Table.insert msgBucket Msg.id (Table.insert msgBucket Msg.id Table.empty
      (linkedMsg 2 3 0)) (linkedMsg 1 2 3)) (linkedMsg 0 1 2)) id = _
  simp only [Table.lookup_insert, Table.lookup_empty]
  rfl

theorem threeLinked_distinctIds : threeLinked.DistinctIds := by
  have hp : Table.WellPlaced msgBucket Msg.id threeLinked.msgBuckets :=
    ((Table.wellPlaced_empty.insert (Table.lookup_empty _)).insert
      (by decide +kernel)).insert (by decide +kernel)
  refine ⟨hp, fun m hm => ?_⟩
  have hget : threeLinked.msgGet m.id = some m := hp.mem_iff.mp hm
  rw [threeLinked_msgGet] at hget
  split at hget
  · cases hget
    decide
  · split at hget
    · cases hget
      decide
    · split at hget
      · cases hget
        decide
      · cases hget

theorem threeLinked_represents :
    threeLinked.Represents threeQueue [1, 2, 3] where
  listed := by decide +kernel
  linked := by
    refine ⟨rfl, rfl, ?_, by decide, by decide⟩
    simp only [Segment, nextOf, prevOf, threeLinked_msgGet]
    decide
  count := rfl
  stored := by
    intro id hid
    rw [threeLinked_msgGet]
    rcases List.mem_cons.mp hid with rfl | hid
    · rfl
    · rcases List.mem_pair.mp hid with rfl | rfl <;> rfl

/-- The list without its middle message. -/
theorem pending_list_append_erase_middle : ∃ q : Queue,
    (threeLinked.queuePendingRemove threeQueue (linkedMsg 1 2 3)).Represents q
      [1, 3] ∧
    (threeLinked.queuePendingRemove threeQueue (linkedMsg 1 2 3)).msgGet 2 =
      some (linkedMsg 0 2 0) := by
  have hm : linkedMsg 1 2 3 ∈ threeLinked.msgs :=
    threeLinked_distinctIds.placed.mem_iff.mpr (threeLinked_msgGet 2)
  obtain ⟨q, -, hq, hget, -⟩ := (pending_list_append_erase threeLinked
    threeQueue [1, 2, 3] (linkedMsg 1 2 3) threeLinked_distinctIds
    threeLinked_represents hm).2 (by decide)
  exact ⟨q, hq, hget⟩

end Represents

end State

end Qdb
