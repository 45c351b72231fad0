import Qdb.Lib.LinkedIds
import Qdb.Updates

/-!
# The representation invariant

Three tables hold copies of the same facts: the state field of a message, the
links and counters of its queue, and the lease entry.  `Rep st pend` says that
the copies agree, where `pend` gives the pending list of every queue name as a
list of message ids.  Counters are taken modulo their width.

`Lists` is the part about the intrusive lists; it is preserved by the list
operations on their own, and `Rep` by the four state updates.
-/

namespace Qdb

open Lib

/-- Pending lists by queue name. -/
abbrev PendingLists := QueueName → List UInt64

namespace State

/-- The number of messages of a queue in a given state. -/
def tally (st : State) (s : MsgState) (n : QueueName) : Nat :=
  st.cores.countP fun m => decide (m.state = s ∧ m.queueName = n)

/-- The links, heads, tails and counters represent the lists `pend`. -/
structure Lists (st : State) (pend : PendingLists) : Prop where
  linked : ∀ n, Linked st.nextOf st.prevOf 0
    (st.queueOr n).pendingHead (st.queueOr n).pendingTail (pend n)
  count : ∀ n, (st.queueOr n).pendingCount = UInt32.ofNat (pend n).length
  stored : ∀ n id, id ∈ pend n →
    ∃ m, st.coreGet id = some m ∧ m.queueName = n

/-- The representation invariant of the three tables. -/
structure Rep (st : State) (pend : PendingLists) : Prop where
  placed : st.Placed
  sized : st.Sized
  lists : st.Lists pend
  id_ne_zero : ∀ id m, st.coreGet id = some m → id ≠ 0
  queue_exists : ∀ id m, st.coreGet id = some m →
    (st.queueGet m.queueName).isSome
  pending_mem : ∀ id m, st.coreGet id = some m →
    (id ∈ pend m.queueName ↔ m.state = .pending)
  leasedCount : ∀ n,
    (st.queueOr n).leasedCount = UInt32.ofNat (st.tally .leased n)
  ackedCount : ∀ n,
    (st.queueOr n).ackedCount = UInt32.ofNat (st.tally .acked n)
  lease_of_msg : ∀ id m, st.coreGet id = some m → m.state = .leased →
    m.leaseId ≠ 0 ∧
      st.leaseGet m.leaseId = some ⟨m.leaseId, id, m.leaseExpiryUs⟩
  msg_of_lease : ∀ l e, st.leaseGet l = some e →
    ∃ m, st.coreGet e.msgId = some m ∧ m.state = .leased ∧
      m.leaseId = l ∧ m.leaseExpiryUs = e.expiryUs
  unleased : ∀ id m, st.coreGet id = some m → m.state ≠ .leased →
    m.leaseId = 0 ∧ m.leaseExpiryUs = 0
  not_dead : ∀ id m, st.coreGet id = some m → m.state ≠ .dead

section Links

variable {st : State}

theorem coreGet_id {id : UInt64} {m : Msg} (h : st.coreGet id = some m) :
    m.id = id := by
  obtain ⟨x, hx, rfl⟩ := Option.map_eq_some_iff.mp h
  exact (msgGet_id hx : x.id = id)

theorem coreGet_of_msgGet {id : UInt64} {m : Msg}
    (h : st.msgGet id = some m) : st.coreGet id = some m.core := by
  simp [coreGet, h]

theorem nextOf_queuePendingAppend {q : Queue} {m x : Msg} {id : UInt64}
    (h : st.coreGet id = some x) :
    (st.queuePendingAppend q m).nextOf id =
      if q.pendingTail ≠ 0 ∧ id = q.pendingTail then m.id
      else if id = m.id then 0 else st.nextOf id := by
  obtain ⟨y, hy, -⟩ := Option.map_eq_some_iff.mp h
  simp [nextOf, msgGet_queuePendingAppend, hy]

theorem prevOf_queuePendingAppend {q : Queue} {m x : Msg} {id : UInt64}
    (h : st.coreGet id = some x) :
    (st.queuePendingAppend q m).prevOf id =
      if id = m.id then q.pendingTail else st.prevOf id := by
  obtain ⟨y, hy, -⟩ := Option.map_eq_some_iff.mp h
  simp [prevOf, msgGet_queuePendingAppend, hy]

theorem nextOf_queuePendingRemove {q : Queue} {m x : Msg} {id : UInt64}
    (h : st.coreGet id = some x) :
    (st.queuePendingRemove q m).nextOf id =
      if id = m.id then 0
      else if m.prevPending ≠ 0 ∧ id = m.prevPending then m.nextPending
      else st.nextOf id := by
  obtain ⟨y, hy, -⟩ := Option.map_eq_some_iff.mp h
  simp [nextOf, msgGet_queuePendingRemove, hy]

theorem prevOf_queuePendingRemove {q : Queue} {m x : Msg} {id : UInt64}
    (h : st.coreGet id = some x) :
    (st.queuePendingRemove q m).prevOf id =
      if id = m.id then 0
      else if m.nextPending ≠ 0 ∧ id = m.nextPending then m.prevPending
      else st.prevOf id := by
  obtain ⟨y, hy, -⟩ := Option.map_eq_some_iff.mp h
  simp [prevOf, msgGet_queuePendingRemove, hy]

/-- `qdb__queue_pending_append` on the links of one list. -/
theorem linked_queuePendingAppend {q q' : Queue} {m x : Msg}
    {xs : List UInt64}
    (hl : Linked st.nextOf st.prevOf 0 q'.pendingHead q'.pendingTail xs)
    (ht : q'.pendingTail = q.pendingTail)
    (hex : ∀ y ∈ xs, ∃ c, st.coreGet y = some c)
    (hx : st.coreGet m.id = some x) (hz : m.id ≠ 0) (hm : m.id ∉ xs) :
    Linked (st.queuePendingAppend q m).nextOf
      (st.queuePendingAppend q m).prevOf 0
      (if q'.pendingTail = 0 then m.id else q'.pendingHead) m.id
      (xs ++ [m.id]) := by
  have hmne : q'.pendingTail ≠ m.id := by
    intro heq
    exact hm (heq ▸ hl.tail_mem (heq ▸ hz))
  apply hl.append hm hz
  · rw [nextOf_queuePendingAppend hx, if_neg, if_pos rfl]
    rintro ⟨-, heq⟩
    exact hmne (ht.trans heq.symm)
  · rw [prevOf_queuePendingAppend hx, if_pos rfl, ht]
  · intro hne
    obtain ⟨c, hc⟩ := hex _ (hl.tail_mem hne)
    rw [nextOf_queuePendingAppend hc, if_pos ⟨ht ▸ hne, ht⟩]
  · intro y hy hyt
    obtain ⟨c, hc⟩ := hex _ hy
    rw [nextOf_queuePendingAppend hc, if_neg, if_neg]
    · rintro rfl
      exact hm hy
    · rintro ⟨-, heq⟩
      exact hyt (heq.trans ht.symm)
  · intro y hy
    obtain ⟨c, hc⟩ := hex _ hy
    rw [prevOf_queuePendingAppend hc, if_neg]
    rintro rfl
    exact hm hy

/-- `qdb__queue_pending_remove` on the links of one list. -/
theorem linked_queuePendingRemove {q : Queue} {m : Msg} {xs : List UInt64}
    (hl : Linked st.nextOf st.prevOf 0 q.pendingHead q.pendingTail xs)
    (hex : ∀ y ∈ xs, ∃ c, st.coreGet y = some c)
    (hm : st.msgGet m.id = some m) (hmem : m.id ∈ xs) :
    Linked (st.queuePendingRemove q m).nextOf
      (st.queuePendingRemove q m).prevOf 0
      (removedQueue m q).pendingHead (removedQueue m q).pendingTail
      (xs.erase m.id) := by
  have hnext : st.nextOf m.id = m.nextPending := by
    simp [nextOf, hm]
  have hprev : st.prevOf m.id = m.prevPending := by
    simp [prevOf, hm]
  obtain ⟨hpm, hnm⟩ := hl.neighbours hmem
  have hl' : Linked (st.queuePendingRemove q m).nextOf
      (st.queuePendingRemove q m).prevOf 0
      (if st.prevOf m.id = 0 then st.nextOf m.id else q.pendingHead)
      (if st.nextOf m.id = 0 then st.prevOf m.id else q.pendingTail)
      (xs.erase m.id) := by
    apply hl.remove hmem
    · intro hne
      obtain ⟨hp, hpne⟩ := hpm hne
      obtain ⟨c, hc⟩ := hex _ hp
      rw [nextOf_queuePendingRemove hc, if_neg hpne, hnext,
        if_pos ⟨hprev ▸ hne, hprev⟩]
    · intro hne
      obtain ⟨hp, hpne⟩ := hnm hne
      obtain ⟨c, hc⟩ := hex _ hp
      rw [prevOf_queuePendingRemove hc, if_neg hpne, hprev,
        if_pos ⟨hnext ▸ hne, hnext⟩]
    · intro y hy hym hyp
      obtain ⟨c, hc⟩ := hex _ hy
      rw [nextOf_queuePendingRemove hc, if_neg hym, if_neg]
      rintro ⟨-, heq⟩
      exact hyp (heq.trans hprev.symm)
    · intro y hy hym hyp
      obtain ⟨c, hc⟩ := hex _ hy
      rw [prevOf_queuePendingRemove hc, if_neg hym, if_neg]
      rintro ⟨-, heq⟩
      exact hyp (heq.trans hnext.symm)
  simpa [removedQueue, hnext, hprev] using hl'

theorem ofNat32_pred {c : UInt32} {k n : Nat}
    (hc : c = UInt32.ofNat k) (hk : k = n + 1) : c - 1 = UInt32.ofNat n := by
  subst hc hk
  simp

end Links

namespace Lists

variable {st : State} {pend : PendingLists}

/-- Two queues share no pending message. -/
theorem disjoint (h : st.Lists pend) {n n' : QueueName} (hn : n' ≠ n)
    {id : UInt64} (hid : id ∈ pend n) : id ∉ pend n' := by
  intro hid'
  obtain ⟨m, hm, hmn⟩ := h.stored n id hid
  obtain ⟨m', hm', hmn'⟩ := h.stored n' id hid'
  rw [hm] at hm'
  cases hm'
  exact hn (hmn'.symm.trans hmn)

/-- Changes outside links, list ends and pending counters. -/
theorem frame (h : st.Lists pend) {st' : State}
    (hnext : ∀ id, id ≠ 0 → (st'.nextOf id = st.nextOf id))
    (hprev : ∀ id, id ≠ 0 → (st'.prevOf id = st.prevOf id))
    (hq : ∀ n, (st'.queueOr n).pendingHead = (st.queueOr n).pendingHead ∧
      (st'.queueOr n).pendingTail = (st.queueOr n).pendingTail ∧
      (st'.queueOr n).pendingCount = (st.queueOr n).pendingCount)
    (hs : ∀ id m, st.coreGet id = some m →
      ∃ m', st'.coreGet id = some m' ∧ m'.queueName = m.queueName) :
    st'.Lists pend where
  linked n := by
    obtain ⟨h1, h2, -⟩ := hq n
    rw [h1, h2]
    have hz : ∀ x ∈ pend n, x ≠ 0 := by
      intro x hx hx0
      exact (h.linked n).sentinel (hx0 ▸ hx)
    exact (h.linked n).frame
      (fun x hx => hnext x (hz x hx)) (fun x hx => hprev x (hz x hx))
  count n := by
    rw [(hq n).2.2, h.count n]
  stored n id hid := by
    obtain ⟨m, hm, hn⟩ := h.stored n id hid
    obtain ⟨m', hm', hn'⟩ := hs id m hm
    exact ⟨m', hm', hn'.trans hn⟩

/-- `qdb__queue_pending_append` appends to the represented list. -/
theorem append (h : st.Lists pend) {q q' : Queue} {m x : Msg}
    (hq : st.queueGet q.name = some q') (ht : q'.pendingTail = q.pendingTail)
    (hx : st.coreGet m.id = some x) (hxn : x.queueName = q.name)
    (hz : m.id ≠ 0) (hm : ∀ n, m.id ∉ pend n) :
    (st.queuePendingAppend q m).Lists
      (Function.update pend q.name (pend q.name ++ [m.id])) := by
  have hqor : st.queueOr q.name = q' := queueOr_of_get hq
  have htail : q.pendingTail ≠ 0 → q.pendingTail ∈ pend q.name := by
    intro hne
    have hl := h.linked q.name
    rw [hqor, ht] at hl
    exact hl.tail_mem hne
  have hex : ∀ n, ∀ y ∈ pend n, ∃ c, st.coreGet y = some c := by
    intro n y hy
    obtain ⟨c, hc, -⟩ := h.stored n y hy
    exact ⟨c, hc⟩
  have hqo : ∀ n, (st.queuePendingAppend q m).queueOr n =
      if n = q.name then appendedQueue q m q' else st.queueOr n := by
    intro n
    unfold queueOr
    rw [queueGet_queuePendingAppend, hq]
    by_cases hn : n = q.name
    · simp [hn]
    · simp [hn]
  refine ⟨?_, ?_, ?_⟩
  · intro n
    rw [hqo]
    by_cases hn : n = q.name
    · subst hn
      rw [if_pos rfl, Function.update_self]
      have hl := h.linked q.name
      rw [hqor] at hl
      have hl' := linked_queuePendingAppend hl ht (hex q.name) hx hz
        (hm q.name)
      simpa [appendedQueue, ht] using hl'
    · rw [if_neg hn, Function.update_of_ne hn]
      apply (h.linked n).frame
      · intro y hy
        obtain ⟨c, hc⟩ := hex _ _ hy
        rw [nextOf_queuePendingAppend hc, if_neg, if_neg]
        · rintro rfl
          exact hm _ hy
        · rintro ⟨hne, rfl⟩
          exact h.disjoint hn (htail hne) hy
      · intro y hy
        obtain ⟨c, hc⟩ := hex _ _ hy
        rw [prevOf_queuePendingAppend hc, if_neg]
        rintro rfl
        exact hm _ hy
  · intro n
    rw [hqo]
    by_cases hn : n = q.name
    · subst hn
      have hc := h.count q.name
      rw [hqor] at hc
      simp [appendedQueue, hc]
    · rw [if_neg hn, Function.update_of_ne hn, h.count n]
  · intro n id hid
    rw [coreGet_queuePendingAppend]
    by_cases hn : n = q.name
    · subst hn
      rw [Function.update_self, List.mem_append, List.mem_singleton] at hid
      rcases hid with hid | rfl
      · exact h.stored _ id hid
      · exact ⟨x, hx, hxn⟩
    · rw [Function.update_of_ne hn] at hid
      exact h.stored n id hid

/-- `qdb__queue_pending_remove` removes from the represented list. -/
theorem remove (h : st.Lists pend) {q : Queue} {m : Msg}
    (hq : st.queueGet q.name = some q) (hm : st.msgGet m.id = some m)
    (hmem : m.id ∈ pend q.name) :
    (st.queuePendingRemove q m).Lists
      (Function.update pend q.name ((pend q.name).erase m.id)) := by
  have hqor : st.queueOr q.name = q := queueOr_of_get hq
  have hnext : st.nextOf m.id = m.nextPending := by
    simp [nextOf, hm]
  have hprev : st.prevOf m.id = m.prevPending := by
    simp [prevOf, hm]
  have hex : ∀ n, ∀ y ∈ pend n, ∃ c, st.coreGet y = some c := by
    intro n y hy
    obtain ⟨c, hc, -⟩ := h.stored n y hy
    exact ⟨c, hc⟩
  have hqo : ∀ n, (st.queuePendingRemove q m).queueOr n =
      if n = q.name then removedQueue m q else st.queueOr n := by
    intro n
    unfold queueOr
    rw [queueGet_queuePendingRemove, hq]
    by_cases hn : n = q.name
    · simp [hn]
    · simp [hn]
  have hl := h.linked q.name
  rw [hqor] at hl
  obtain ⟨hpm, hnm⟩ := hl.neighbours hmem
  refine ⟨?_, ?_, ?_⟩
  · intro n
    rw [hqo]
    by_cases hn : n = q.name
    · subst hn
      rw [if_pos rfl, Function.update_self]
      exact linked_queuePendingRemove hl (hex q.name) hm hmem
    · rw [if_neg hn, Function.update_of_ne hn]
      apply (h.linked n).frame
      · intro y hy
        obtain ⟨c, hc⟩ := hex _ _ hy
        rw [nextOf_queuePendingRemove hc, if_neg, if_neg]
        · rintro ⟨hne, rfl⟩
          exact h.disjoint hn (hprev ▸ (hpm (hprev ▸ hne)).1) hy
        · rintro rfl
          exact h.disjoint hn hmem hy
      · intro y hy
        obtain ⟨c, hc⟩ := hex _ _ hy
        rw [prevOf_queuePendingRemove hc, if_neg, if_neg]
        · rintro ⟨hne, rfl⟩
          exact h.disjoint hn (hnext ▸ (hnm (hnext ▸ hne)).1) hy
        · rintro rfl
          exact h.disjoint hn hmem hy
  · intro n
    rw [hqo]
    by_cases hn : n = q.name
    · subst hn
      have hc := h.count q.name
      rw [hqor] at hc
      rw [if_pos rfl, Function.update_self]
      have hlen := List.length_pos_of_mem hmem
      exact ofNat32_pred hc (by rw [List.length_erase_of_mem hmem]; omega)
    · rw [if_neg hn, Function.update_of_ne hn, h.count n]
  · intro n id hid
    rw [coreGet_queuePendingRemove]
    by_cases hn : n = q.name
    · subst hn
      rw [Function.update_self] at hid
      exact h.stored _ id (List.mem_of_mem_erase hid)
    · rw [Function.update_of_ne hn] at hid
      exact h.stored n id hid

end Lists

section Tally

variable {st st' : State}

/-- A message counted or not. -/
def tallyOne (m : Msg) (s : MsgState) (n : QueueName) : Nat :=
  if m.state = s ∧ m.queueName = n then 1 else 0

theorem countP_cons_tallyOne (x : Msg) (xs : List Msg)
    (s : MsgState) (n : QueueName) :
    (x :: xs).countP (fun m => decide (m.state = s ∧ m.queueName = n)) =
      xs.countP (fun m => decide (m.state = s ∧ m.queueName = n)) +
        tallyOne x s n := by
  rw [List.countP_cons]
  unfold tallyOne
  simp

theorem tally_of_perm_cons {x : Msg} (h : st'.cores.Perm (x :: st.cores))
    (s : MsgState) (n : QueueName) :
    st'.tally s n = st.tally s n + tallyOne x s n := by
  unfold tally
  rw [h.countP_eq, countP_cons_tallyOne]

theorem tally_replace {x y : Msg} {rest : List Msg}
    (h : st.cores.Perm (x :: rest)) (h' : st'.cores.Perm (y :: rest))
    (s : MsgState) (n : QueueName) :
    st'.tally s n + tallyOne x s n = st.tally s n + tallyOne y s n := by
  unfold tally
  rw [h.countP_eq, h'.countP_eq, countP_cons_tallyOne, countP_cons_tallyOne]
  omega

end Tally

namespace Rep

variable {st : State} {pend : PendingLists}

theorem empty : Rep State.empty (fun _ => []) where
  placed := Placed.empty
  sized := Sized.empty
  lists :=
    { linked := fun _ => Linked.nil _ _ _
      count := fun _ => rfl
      stored := by simp }
  id_ne_zero := by simp [coreGet]
  queue_exists := by simp [coreGet]
  pending_mem := by simp [coreGet]
  leasedCount := by
    intro n
    simp [tally, cores, msgs, State.empty, queueOr, queueGet, newQueue]
  ackedCount := by
    intro n
    simp [tally, cores, msgs, State.empty, queueOr, queueGet, newQueue]
  lease_of_msg := by simp [coreGet]
  msg_of_lease := by simp
  unleased := by simp [coreGet]
  not_dead := by simp [coreGet]

theorem addMsg_of_none {m : Msg} (hq : st.queueGet m.queueName = none) :
    st.addMsg m = ((st.msgInsert m).queueInsert m.queueName).queuePendingAppend
      (newQueue m.queueName) m := by
  unfold addMsg
  simp only [queueGet_msgInsert, hq]

theorem addMsg_of_some {m : Msg} {q : Queue}
    (hq : st.queueGet m.queueName = some q) :
    st.addMsg m = (st.msgInsert m).queuePendingAppend q m := by
  unfold addMsg
  simp only [queueGet_msgInsert, hq]

theorem lists_queueInsert (h : st.Lists pend) {n : QueueName}
    (hn : st.queueGet n = none) : (st.queueInsert n).Lists pend := by
  apply h.frame
  · intro id _
    rfl
  · intro id _
    rfl
  · intro n'
    have hq : (st.queueInsert n).queueOr n' = st.queueOr n' := by
      unfold queueOr
      rw [queueGet_queueInsert]
      by_cases h' : n = n'
      · subst h'
        simp [hn]
      · simp [h']
    rw [hq]
    exact ⟨rfl, rfl, rfl⟩
  · intro id m hm
    exact ⟨m, hm, rfl⟩

theorem lists_msgInsert (h : st.Lists pend) {id off : UInt64} {len : UInt32}
    {n : QueueName} (hid : st.msgGet id = none) :
    (st.msgInsert (newMsg id off len n)).Lists pend := by
  apply h.frame
  · intro id' _
    unfold nextOf
    rw [msgGet_msgInsert]
    by_cases hi : (newMsg id off len n).id = id'
    · have : id = id' := hi
      subst this
      simp [hid, newMsg]
    · rw [if_neg hi]
  · intro id' _
    unfold prevOf
    rw [msgGet_msgInsert]
    by_cases hi : (newMsg id off len n).id = id'
    · have : id = id' := hi
      subst this
      simp [hid, newMsg]
    · rw [if_neg hi]
  · intro n'
    exact ⟨rfl, rfl, rfl⟩
  · intro id' m hm
    refine ⟨m, ?_, rfl⟩
    rw [coreGet_msgInsert, if_neg, hm]
    intro hi
    have : id = id' := hi
    subst this
    simp [coreGet, hid] at hm

theorem lists_addMsg (h : st.Lists pend) {id off : UInt64} {len : UInt32}
    {n : QueueName} (hid : st.msgGet id = none) (hz : id ≠ 0) :
    (st.addMsg (newMsg id off len n)).Lists
      (Function.update pend n (pend n ++ [id])) := by
  have hm : ∀ n', id ∉ pend n' := by
    intro n' hmem
    obtain ⟨x, hx, -⟩ := h.stored n' id hmem
    simp [coreGet, hid] at hx
  have hl : (st.msgInsert (newMsg id off len n)).Lists pend :=
    lists_msgInsert h hid
  have hx : (st.msgInsert (newMsg id off len n)).coreGet id =
      some (newMsg id off len n) := by
    rw [coreGet_msgInsert]
    exact if_pos rfl
  cases hq : st.queueGet n with
  | none =>
      rw [addMsg_of_none (m := newMsg id off len n) hq]
      have hl' : ((st.msgInsert (newMsg id off len n)).queueInsert n).Lists
          pend := lists_queueInsert hl hq
      have hq' : ((st.msgInsert (newMsg id off len n)).queueInsert n).queueGet
          (newQueue n).name = some (newQueue n) := by
        rw [queueGet_queueInsert]
        exact if_pos rfl
      exact hl'.append (m := newMsg id off len n) hq' rfl hx rfl hz hm
  | some q =>
      obtain rfl := queueGet_name hq
      rw [addMsg_of_some (m := newMsg id off len q.name) hq]
      exact hl.append (m := newMsg id off len q.name) hq rfl hx rfl hz hm

/-- Linking a new message in. -/
theorem addMsg (h : Rep st pend) {id off : UInt64} {len : UInt32}
    {n : QueueName} (hid : st.msgGet id = none) (hz : id ≠ 0) :
    Rep (st.addMsg (newMsg id off len n))
      (Function.update pend n (pend n ++ [id])) := by
  have hcore : ∀ id', (st.addMsg (newMsg id off len n)).coreGet id' =
      if id = id' then some (newMsg id off len n) else st.coreGet id' :=
    fun id' => coreGet_addMsg st _ id'
  have hq : ∀ n', (st.addMsg (newMsg id off len n)).queueOr n' =
      if n' = n then appendedQueue (st.queueOr n) (newMsg id off len n)
        (st.queueOr n) else st.queueOr n' := by
    intro n'
    unfold queueOr
    rw [queueGet_addMsg]
    by_cases hn : n' = n
    · subst hn
      simp [newMsg, queueOr]
    · simp [hn, newMsg]
  have htally : ∀ s n', s ≠ .pending →
      (st.addMsg (newMsg id off len n)).tally s n' = st.tally s n' := by
    intro s n' hs
    rw [tally_of_perm_cons (cores_addMsg_perm st _)]
    simp [tallyOne, Msg.core, newMsg, Ne.symm hs]
  have hsome : ∀ n', (st.queueGet n').isSome →
      ((st.addMsg (newMsg id off len n)).queueGet n').isSome := by
    intro n' hn
    rw [queueGet_addMsg]
    split
    · rfl
    · exact hn
  have hmem : ∀ id' n', id' ≠ id →
      (id' ∈ Function.update pend n (pend n ++ [id]) n' ↔ id' ∈ pend n') := by
    intro id' n' hne
    by_cases hn : n' = n
    · subst hn
      simp [hne]
    · rw [Function.update_of_ne hn]
  -- every clause about single messages splits on whether it is the new one
  have hold : ∀ {P : UInt64 → Msg → Prop},
      P id (newMsg id off len n) →
      (∀ id' m, id' ≠ id → st.coreGet id' = some m → P id' m) →
      ∀ id' m, (st.addMsg (newMsg id off len n)).coreGet id' = some m →
        P id' m := by
    intro P hnew hrest id' m hm
    rw [hcore] at hm
    by_cases he : id = id'
    · subst he
      rw [if_pos rfl] at hm
      cases hm
      exact hnew
    · rw [if_neg he] at hm
      exact hrest id' m (Ne.symm he) hm
  refine
    { placed := h.placed.addMsg hid
      sized := h.sized.addMsg _
      lists := lists_addMsg h.lists hid hz
      id_ne_zero := hold hz (fun id' m _ hm => h.id_ne_zero id' m hm)
      queue_exists := ?_
      pending_mem := ?_
      leasedCount := ?_
      ackedCount := ?_
      lease_of_msg := ?_
      msg_of_lease := ?_
      unleased := ?_
      not_dead := ?_ }
  · apply hold
    · rw [queueGet_addMsg]
      simp [newMsg]
    · intro id' m _ hm
      exact hsome _ (h.queue_exists id' m hm)
  · apply hold
    · simp [newMsg]
    · intro id' m hne hm
      rw [hmem id' m.queueName hne]
      exact h.pending_mem id' m hm
  · intro n'
    rw [hq, htally _ _ (by simp)]
    by_cases hn : n' = n
    · subst hn
      rw [if_pos rfl]
      exact h.leasedCount n'
    · rw [if_neg hn]
      exact h.leasedCount n'
  · intro n'
    rw [hq, htally _ _ (by simp)]
    by_cases hn : n' = n
    · subst hn
      rw [if_pos rfl]
      exact h.ackedCount n'
    · rw [if_neg hn]
      exact h.ackedCount n'
  · apply hold
    · intro hs
      simp [newMsg] at hs
    · intro id' m _ hm hs
      rw [leaseGet_addMsg]
      exact h.lease_of_msg id' m hm hs
  · intro l e hl
    rw [leaseGet_addMsg] at hl
    obtain ⟨m, hm, hrest⟩ := h.msg_of_lease l e hl
    refine ⟨m, ?_, hrest⟩
    rw [hcore, if_neg, hm]
    rintro rfl
    simp [coreGet, hid] at hm
  · apply hold
    · intro _
      exact ⟨rfl, rfl⟩
    · intro id' m _ hm
      exact h.unleased id' m hm
  · apply hold
    · simp [newMsg]
    · intro id' m _ hm
      exact h.not_dead id' m hm

/-- One message changes from `x` to `y` within its queue. -/
theorem replace (h : Rep st pend) {st' : State} {pend' : PendingLists}
    (id : UInt64) (y : Msg)
    (hcore : ∀ id', st'.coreGet id' =
      if id' = id then some y else st.coreGet id')
    (hid : id ≠ 0)
    (hplaced : st'.Placed) (hsized : st'.Sized) (hlists : st'.Lists pend')
    (hqueue : ∀ n, (st'.queueGet n).isSome = (st.queueGet n).isSome)
    (hyq : (st.queueGet y.queueName).isSome)
    (hmem : ∀ id' n, id' ≠ id → (id' ∈ pend' n ↔ id' ∈ pend n))
    (hmemy : id ∈ pend' y.queueName ↔ y.state = .pending)
    (hleased : ∀ n,
      (st'.queueOr n).leasedCount = UInt32.ofNat (st'.tally .leased n))
    (hacked : ∀ n,
      (st'.queueOr n).ackedCount = UInt32.ofNat (st'.tally .acked n))
    (hleasey : y.state = .leased → y.leaseId ≠ 0 ∧
      st'.leaseGet y.leaseId = some ⟨y.leaseId, id, y.leaseExpiryUs⟩)
    (hleaseold : ∀ id' m, id' ≠ id → st.coreGet id' = some m →
      m.state = .leased → st'.leaseGet m.leaseId = st.leaseGet m.leaseId)
    (hmsg : ∀ l e, st'.leaseGet l = some e →
      (e.msgId = id ∧ y.state = .leased ∧ y.leaseId = l ∧
        y.leaseExpiryUs = e.expiryUs) ∨
      (e.msgId ≠ id ∧ st.leaseGet l = some e))
    (hun : y.state ≠ .leased → y.leaseId = 0 ∧ y.leaseExpiryUs = 0)
    (hdead : y.state ≠ .dead) : Rep st' pend' := by
  have hsplit : ∀ {P : UInt64 → Msg → Prop}, P id y →
      (∀ id' m, id' ≠ id → st.coreGet id' = some m → P id' m) →
      ∀ id' m, st'.coreGet id' = some m → P id' m := by
    intro P hnew hrest id' m hm
    rw [hcore] at hm
    by_cases he : id' = id
    · subst he
      rw [if_pos rfl] at hm
      cases hm
      exact hnew
    · rw [if_neg he] at hm
      exact hrest id' m he hm
  exact
    { placed := hplaced
      sized := hsized
      lists := hlists
      id_ne_zero := hsplit hid (fun id' m _ hm => h.id_ne_zero id' m hm)
      queue_exists := by
        apply hsplit
        · rw [hqueue]
          exact hyq
        · intro id' m _ hm
          rw [hqueue]
          exact h.queue_exists id' m hm
      pending_mem := by
        apply hsplit
        · exact hmemy
        · intro id' m hne hm
          rw [hmem id' _ hne]
          exact h.pending_mem id' m hm
      leasedCount := hleased
      ackedCount := hacked
      lease_of_msg := by
        apply hsplit
        · exact hleasey
        · intro id' m hne hm hs
          rw [hleaseold id' m hne hm hs]
          exact h.lease_of_msg id' m hm hs
      msg_of_lease := by
        intro l e hl
        rcases hmsg l e hl with ⟨he, hrest⟩ | ⟨he, hl'⟩
        · refine ⟨y, ?_, hrest⟩
          rw [hcore, if_pos he]
        · obtain ⟨m, hm, hrest⟩ := h.msg_of_lease l e hl'
          refine ⟨m, ?_, hrest⟩
          rw [hcore, if_neg he, hm]
      unleased := hsplit hun (fun id' m _ hm => h.unleased id' m hm)
      not_dead := hsplit hdead (fun id' m _ hm => h.not_dead id' m hm) }

/-- The queue of a stored message. -/
theorem queue_get (h : Rep st pend) {id : UInt64} {m : Msg}
    (hm : st.msgGet id = some m) :
    ∃ q, st.queueGet m.queueName = some q ∧ q.name = m.queueName := by
  have hs := h.queue_exists id m.core (coreGet_of_msgGet hm)
  obtain ⟨q, hq⟩ := Option.isSome_iff_exists.mp hs
  exact ⟨q, hq, queueGet_name hq⟩

/-- Two messages do not share a lease. -/
theorem lease_inj (h : Rep st pend) {id id' : UInt64} {m m' : Msg}
    (hm : st.coreGet id = some m) (hm' : st.coreGet id' = some m')
    (hs : m.state = .leased) (hs' : m'.state = .leased)
    (hl : m.leaseId = m'.leaseId) : id = id' := by
  have h1 := (h.lease_of_msg id m hm hs).2
  have h2 := (h.lease_of_msg id' m' hm' hs').2
  rw [hl, h2] at h1
  simp only [Option.some.injEq, Lease.mk.injEq] at h1
  exact h1.2.1.symm

theorem mem_update {n n' : QueueName} {xs : List UInt64} {id : UInt64}
    (hn : n' = n → (id ∈ xs ↔ id ∈ pend n)) :
    id ∈ Function.update pend n xs n' ↔ id ∈ pend n' := by
  by_cases he : n' = n
  · subst he
    rw [Function.update_self]
    exact hn rfl
  · rw [Function.update_of_ne he]

/-- Lists keep their shape when only state fields of a message change. -/
theorem lists_modifyMsg_state (h : st.Lists pend) (k : UInt64)
    (a : MsgState) (b c : UInt64) (d : UInt32 → UInt32) :
    (st.modifyMsg k fun x =>
      { x with
        state := a, leaseId := b, leaseExpiryUs := c
        retryCount := d x.retryCount }).Lists pend := by
  apply h.frame
  · intro id _
    rw [nextOf_modifyMsg_state]
  · intro id _
    rw [prevOf_modifyMsg_state]
  · intro n
    exact ⟨rfl, rfl, rfl⟩
  · intro id m hm
    rw [coreGet_modifyMsg_state]
    by_cases hk : id = k
    · subst hk
      rw [if_pos rfl, hm]
      exact ⟨_, rfl, rfl⟩
    · rw [if_neg hk]
      exact ⟨m, hm, rfl⟩

/-- Lists keep their shape when only the other counters of a queue change. -/
theorem lists_modifyQueue_counts (h : st.Lists pend) (n : QueueName)
    (b c : Queue → UInt32) :
    (st.modifyQueue n fun x =>
      { x with leasedCount := b x, ackedCount := c x }).Lists pend := by
  apply h.frame
  · intro id _
    rfl
  · intro id _
    rfl
  · intro n'
    unfold queueOr
    rw [queueGet_modifyQueue_fields]
    by_cases hn : n' = n
    · subst hn
      rw [if_pos rfl]
      cases st.queueGet n' <;> exact ⟨rfl, rfl, rfl⟩
    · rw [if_neg hn]
      exact ⟨rfl, rfl, rfl⟩
  · intro id m hm
    exact ⟨m, hm, rfl⟩

theorem lists_leaseRemove (h : st.Lists pend) (l : UInt64) :
    (st.leaseRemove l).Lists pend := by
  apply h.frame
  · intro id _
    simp [nextOf]
  · intro id _
    simp [prevOf]
  · intro n
    simp [queueOr]
  · intro id m hm
    rw [coreGet_leaseRemove]
    exact ⟨m, hm, rfl⟩

theorem lists_leaseInsert (h : st.Lists pend) (l : Lease) :
    (st.leaseInsert l).Lists pend :=
  ⟨h.linked, h.count, h.stored⟩

theorem ofNat32_succ (n : Nat) :
    UInt32.ofNat (n + 1) = UInt32.ofNat n + 1 := by
  simp

/-- Leasing a pending message. -/
theorem lease (h : Rep st pend) {q : Queue} {m : Msg} {l e : UInt64}
    (hm : st.msgGet m.id = some m) (hs : m.state = .pending)
    (hq : st.queueGet m.queueName = some q)
    (hl0 : l ≠ 0) (hl : st.leaseGet l = none) :
    Rep (replayLeaseState st q m l e)
      (Function.update pend m.queueName
        ((pend m.queueName).erase m.id)) := by
  have hn := queueGet_name hq
  have hq' : st.queueGet q.name = some q := by rw [hn, hq]
  have hx := coreGet_of_msgGet hm
  have hmem : m.id ∈ pend m.queueName :=
    (h.pending_mem m.id m.core hx).mpr hs
  have hnd := (h.lists.linked m.queueName).nodup
  obtain ⟨rest, hp1, hp2⟩ := cores_replayLeaseState_perm q (l := l) (e := e) hx
  have htally := tally_replace hp1 hp2
  have hqo : ∀ n, (replayLeaseState st q m l e).queueOr n =
      if n = m.queueName then
        { removedQueue m q with leasedCount := q.leasedCount + 1 }
      else st.queueOr n := by
    intro n
    unfold queueOr
    rw [queueGet_replayLeaseState, hq', hn]
    split <;> rfl
  have hlists := h.lists.remove hq' hm (hn ▸ hmem)
  rw [hn] at hlists
  apply h.replace m.id (m.core.leasedAs l e)
  · intro id'
    rw [coreGet_replayLeaseState, hx]
    rfl
  · exact h.id_ne_zero _ _ hx
  · exact h.placed.replayLeaseState q m hl e
  · exact h.sized.replayLeaseState q m l e
  · apply lists_leaseInsert
    apply lists_modifyQueue_counts (c := fun x => x.ackedCount)
    exact lists_modifyMsg_state hlists _ _ _ _ (fun r => r)
  · intro n
    rw [queueGet_replayLeaseState, hq', hn]
    split
    · next he => rw [he, hq]; rfl
    · rfl
  · exact h.queue_exists _ m.core hx
  · intro id' n hne
    apply mem_update
    intro _
    exact List.mem_erase_of_ne hne
  · constructor
    · intro hmem'
      rw [show (m.core.leasedAs l e).queueName = m.queueName from rfl,
        Function.update_self] at hmem'
      exact absurd hmem' hnd.not_mem_erase
    · intro hst
      cases hst
  · intro n
    have ht := htally .leased n
    rw [hqo]
    by_cases he : n = m.queueName
    · have hc := h.leasedCount m.queueName
      rw [queueOr_of_get hq] at hc
      have ht' : (replayLeaseState st q m l e).tally .leased n =
          st.tally .leased n + 1 := by
        simpa [tallyOne, Msg.core, Msg.leasedAs, hs, he] using ht
      rw [if_pos he, ht', ofNat32_succ, he, ← hc]
    · have ht' : (replayLeaseState st q m l e).tally .leased n =
          st.tally .leased n := by
        simpa [tallyOne, Msg.core, Msg.leasedAs, Ne.symm he] using ht
      rw [if_neg he, ht', h.leasedCount n]
  · intro n
    have ht' : (replayLeaseState st q m l e).tally .acked n =
        st.tally .acked n := by
      simpa [tallyOne, Msg.core, Msg.leasedAs, hs] using htally .acked n
    rw [hqo, ht', ← h.ackedCount n]
    by_cases he : n = m.queueName
    · rw [if_pos he, he, queueOr_of_get hq]
      rfl
    · rw [if_neg he]
  · intro _
    refine ⟨hl0, ?_⟩
    rw [leaseGet_replayLeaseState]
    exact if_pos rfl
  · intro id' m' hne hm' hs'
    rw [leaseGet_replayLeaseState, if_neg]
    rintro rfl
    rw [(h.lease_of_msg id' m' hm' hs').2] at hl
    cases hl
  · intro l' e' hl'
    rw [leaseGet_replayLeaseState] at hl'
    by_cases he : l = l'
    · rw [if_pos he] at hl'
      cases hl'
      exact Or.inl ⟨rfl, rfl, he, rfl⟩
    · rw [if_neg he] at hl'
      refine Or.inr ⟨?_, hl'⟩
      intro heq
      obtain ⟨x, hx', hxs, -⟩ := h.msg_of_lease l' e' hl'
      rw [heq, hx] at hx'
      cases hx'
      rw [show m.core.state = m.state from rfl, hs] at hxs
      cases hxs
  · intro hst
    exact absurd rfl hst
  · intro hst
    cases hst

/-- The removal of a lease entry, as the lease clauses see it. -/
theorem leases_after_remove (h : Rep st pend) {st' : State}
    {id l : UInt64} {x : Msg}
    (hx : st.coreGet id = some x) (hs : x.state = .leased)
    (hl : x.leaseId = l)
    (hget : ∀ l', st'.leaseGet l' = if l' = l then none else st.leaseGet l') :
    (∀ id' m, id' ≠ id → st.coreGet id' = some m → m.state = .leased →
      st'.leaseGet m.leaseId = st.leaseGet m.leaseId) ∧
    (∀ l' e, st'.leaseGet l' = some e →
      e.msgId ≠ id ∧ st.leaseGet l' = some e) := by
  constructor
  · intro id' m hne hm hms
    rw [hget, if_neg]
    intro heq
    exact hne (h.lease_inj hm hx hms hs (heq.trans hl.symm))
  · intro l' e he
    rw [hget] at he
    by_cases hll : l' = l
    · rw [if_pos hll] at he
      cases he
    · rw [if_neg hll] at he
      refine ⟨?_, he⟩
      intro heq
      obtain ⟨y, hy, -, hyl, -⟩ := h.msg_of_lease l' e he
      rw [heq, hx] at hy
      cases hy
      exact hll (hyl.symm.trans hl)

/-- Acknowledging a leased message. -/
theorem ack (h : Rep st pend) {q : Queue} {m : Msg} {l : UInt64}
    (hm : st.msgGet m.id = some m) (hs : m.state = .leased)
    (hml : m.leaseId = l)
    (hq : st.queueGet m.queueName = some q) :
    Rep (replayAckState st q m l) pend := by
  have hn := queueGet_name hq
  have hq' : st.queueGet q.name = some q := by rw [hn, hq]
  have hx := coreGet_of_msgGet hm
  obtain ⟨rest, hp1, hp2⟩ := cores_replayAckState_perm q (l := l) hx
  have htally := tally_replace hp1 hp2
  have hqo : ∀ n, (replayAckState st q m l).queueOr n =
      if n = m.queueName then
        { q with
          leasedCount := q.leasedCount - 1
          ackedCount := q.ackedCount + 1 }
      else st.queueOr n := by
    intro n
    unfold queueOr
    rw [queueGet_replayAckState, hq']
    by_cases he : n = m.queueName
    · rw [if_pos (he.trans hn.symm), if_pos he]
      rfl
    · rw [if_neg (fun heq => he (heq.trans hn)), if_neg he]
  obtain ⟨hold, hback⟩ := h.leases_after_remove hx hs hml
    (leaseGet_replayAckState q m h.placed.leases l)
  apply h.replace m.id m.core.asAcked
  · intro id'
    rw [coreGet_replayAckState, hx]
    rfl
  · exact h.id_ne_zero _ _ hx
  · exact h.placed.replayAckState q m l
  · exact h.sized.replayAckState q m l
  · apply lists_modifyQueue_counts
    exact lists_modifyMsg_state (lists_leaseRemove h.lists l) _ _ _ _
      (fun r => r)
  · intro n
    rw [queueGet_replayAckState, hq', hn]
    split
    · next he => rw [he, hq]; rfl
    · rfl
  · exact h.queue_exists _ m.core hx
  · intro id' n _
    rfl
  · rw [show m.core.asAcked.queueName = m.core.queueName from rfl,
      h.pending_mem m.id m.core hx,
      show m.core.state = .leased from hs]
    simp [Msg.asAcked]
  · intro n
    have ht := htally .leased n
    rw [hqo]
    by_cases he : n = m.queueName
    · have hc := h.leasedCount m.queueName
      rw [queueOr_of_get hq, ← he] at hc
      rw [if_pos he]
      apply ofNat32_pred hc
      simpa [tallyOne, Msg.core, Msg.asAcked, hs, he] using ht.symm
    · have ht' : (replayAckState st q m l).tally .leased n =
          st.tally .leased n := by
        simpa [tallyOne, Msg.core, Msg.asAcked, Ne.symm he] using ht
      rw [if_neg he, ht', h.leasedCount n]
  · intro n
    have ht := htally .acked n
    rw [hqo]
    by_cases he : n = m.queueName
    · have hc := h.ackedCount m.queueName
      rw [queueOr_of_get hq] at hc
      have ht' : (replayAckState st q m l).tally .acked n =
          st.tally .acked n + 1 := by
        simpa [tallyOne, Msg.core, Msg.asAcked, hs, he] using ht
      rw [if_pos he, ht', ofNat32_succ, he, ← hc]
    · have ht' : (replayAckState st q m l).tally .acked n =
          st.tally .acked n := by
        simpa [tallyOne, Msg.core, Msg.asAcked, Ne.symm he] using ht
      rw [if_neg he, ht', h.ackedCount n]
  · intro hst
    cases hst
  · exact hold
  · intro l' e he
    exact Or.inr (hback l' e he)
  · intro _
    exact ⟨rfl, rfl⟩
  · intro hst
    cases hst

/-- Returning a leased message to the tail of its queue. -/
theorem nack (h : Rep st pend) {q : Queue} {m : Msg} {l : UInt64}
    (hm : st.msgGet m.id = some m) (hs : m.state = .leased)
    (hml : m.leaseId = l)
    (hq : st.queueGet m.queueName = some q) :
    Rep (replayNackState st q m l)
      (Function.update pend m.queueName (pend m.queueName ++ [m.id])) := by
  have hn := queueGet_name hq
  have hq' : st.queueGet q.name = some q := by rw [hn, hq]
  have hx := coreGet_of_msgGet hm
  have hz := h.id_ne_zero _ _ hx
  have hnot : ∀ n, m.id ∉ pend n := by
    intro n hmem
    obtain ⟨y, hy, hyn⟩ := h.lists.stored n m.id hmem
    rw [hx] at hy
    cases hy
    subst hyn
    have hp := (h.pending_mem m.id m.core hx).mp hmem
    rw [show m.core.state = .leased from hs] at hp
    cases hp
  obtain ⟨rest, hp1, hp2⟩ := cores_replayNackState_perm q (l := l) hx
  have htally := tally_replace hp1 hp2
  have hqo : ∀ n, (replayNackState st q m l).queueOr n =
      if n = m.queueName then
        appendedQueue q m { q with leasedCount := q.leasedCount - 1 }
      else st.queueOr n := by
    intro n
    unfold queueOr
    rw [queueGet_replayNackState, hq']
    by_cases he : n = m.queueName
    · rw [if_pos (he.trans hn.symm), if_pos he]
      rfl
    · rw [if_neg (fun heq => he (heq.trans hn)), if_neg he]
  obtain ⟨hold, hback⟩ := h.leases_after_remove hx hs hml
    (leaseGet_replayNackState q m h.placed.leases l)
  apply h.replace m.id m.core.returned
  · intro id'
    rw [coreGet_replayNackState, hx]
    rfl
  · exact hz
  · exact h.placed.replayNackState q m l
  · exact h.sized.replayNackState q m l
  · rw [← hn]
    apply Lists.append
    · apply lists_modifyQueue_counts (c := fun x => x.ackedCount)
      exact lists_modifyMsg_state (lists_leaseRemove h.lists l) _ _ _ _
        (fun r => r + 1)
    · rw [queueGet_modifyQueue_fields, if_pos rfl, queueGet_modifyMsg,
        queueGet_leaseRemove, hq']
      rfl
    · rfl
    · rw [coreGet_modifyQueue,
        coreGet_modifyMsg_state _ _ _ _ _ _ (fun r => r + 1), if_pos rfl,
        coreGet_leaseRemove, hx]
      rfl
    · exact hn.symm
    · exact hz
    · exact hnot
  · intro n
    rw [queueGet_replayNackState, hq', hn]
    split
    · next he => rw [he, hq]; rfl
    · rfl
  · exact h.queue_exists _ m.core hx
  · intro id' n hne
    apply mem_update
    intro _
    simp [hne]
  · rw [show m.core.returned.queueName = m.queueName from rfl,
      Function.update_self]
    simp [Msg.returned]
  · intro n
    have ht := htally .leased n
    rw [hqo]
    by_cases he : n = m.queueName
    · have hc := h.leasedCount m.queueName
      rw [queueOr_of_get hq, ← he] at hc
      rw [if_pos he]
      apply ofNat32_pred hc
      simpa [tallyOne, Msg.core, Msg.returned, hs, he] using ht.symm
    · have ht' : (replayNackState st q m l).tally .leased n =
          st.tally .leased n := by
        simpa [tallyOne, Msg.core, Msg.returned, Ne.symm he] using ht
      rw [if_neg he, ht', h.leasedCount n]
  · intro n
    have ht' : (replayNackState st q m l).tally .acked n =
        st.tally .acked n := by
      simpa [tallyOne, Msg.core, Msg.returned, hs] using htally .acked n
    rw [hqo, ht', ← h.ackedCount n]
    by_cases he : n = m.queueName
    · rw [if_pos he, he, queueOr_of_get hq]
      rfl
    · rw [if_neg he]
  · intro hst
    cases hst
  · exact hold
  · intro l' e he
    exact Or.inr (hback l' e he)
  · intro _
    exact ⟨rfl, rfl⟩
  · intro hst
    cases hst

end Rep

end State

end Qdb
