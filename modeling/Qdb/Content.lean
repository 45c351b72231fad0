import Qdb.PendingLists
import Qdb.Records

/-!
# What the tables say

`Content` is the meaning of the three tables: messages by id without their
links, leases by id, and the pending list of every queue.  `Content.apply` gives
the effect of one log entry on it.  Under the representation invariant replay
refines it: an entry is accepted by the tables exactly when it is accepted by
their content, and the new tables represent the new content.

The two id counters move on their own; `Entry.bumpMsg` and `Entry.bumpLease`
say how.
-/

namespace Qdb

open Lib

/-- Messages, leases and pending lists. -/
structure Content where
  msg : UInt64 → Option Msg
  lease : UInt64 → Option Lease
  pend : PendingLists

namespace Content

/-- No messages. -/
def empty : Content where
  msg := fun _ => none
  lease := fun _ => none
  pend := fun _ => []

/-- A new message at the tail of its queue. -/
def addMsg (c : Content) (m : Msg) : Content :=
  { c with
    msg := Function.update c.msg m.id (some m)
    pend := Function.update c.pend m.queueName
      (c.pend m.queueName ++ [m.id]) }

/-- The message `m` leaves its queue under the lease `l`. -/
def leaseMsg (c : Content) (m : Msg) (l e : UInt64) : Content where
  msg := Function.update c.msg m.id (some (m.leasedAs l e))
  lease := Function.update c.lease l (some ⟨l, m.id, e⟩)
  pend := Function.update c.pend m.queueName ((c.pend m.queueName).erase m.id)

/-- The message `m` is done with. -/
def ackMsg (c : Content) (m : Msg) (l : UInt64) : Content :=
  { c with
    msg := Function.update c.msg m.id (some m.asAcked)
    lease := Function.update c.lease l none }

/-- The message `m` returns to the tail of its queue. -/
def nackMsg (c : Content) (m : Msg) (l : UInt64) : Content where
  msg := Function.update c.msg m.id (some m.returned)
  lease := Function.update c.lease l none
  pend := Function.update c.pend m.queueName
    (c.pend m.queueName ++ [m.id])

/-- The message `id` if it is held under the lease `l`. -/
def held (c : Content) (id l : UInt64) : Option Msg :=
  (c.msg id).filter fun m => decide (m.state = .leased ∧ m.leaseId = l)

/-- The message `id` if it is pending and `l` is a new lease id. -/
def leasable (c : Content) (id l : UInt64) : Option Msg :=
  if l = 0 ∨ (c.lease l).isSome then none
  else (c.msg id).filter fun m => decide (m.state = .pending)

/-- The effect of one log entry; nothing when it is not allowed. -/
def apply (c : Content) (payloadOff : UInt64) : Entry → Option Content
  | .push id name data =>
      if id = 0 ∨ (c.msg id).isSome then none
      else some (c.addMsg
        (newMsg id (payloadOff + 9 + name.len.toUInt64)
          (UInt32.ofNat data.length) name))
  | .lease id e l => (c.leasable id l).map fun m => c.leaseMsg m l e
  | .ack id l => (c.held id l).map fun m => c.ackMsg m l
  | .nack id l => (c.held id l).map fun m => c.nackMsg m l
  | .expire id l => (c.held id l).map fun m => c.nackMsg m l
  | .checkpoint _ _ => some c
  | .padding => some c

theorem held_eq_some {c : Content} {id l : UInt64} {m : Msg} :
    c.held id l = some m ↔
      c.msg id = some m ∧ m.state = .leased ∧ m.leaseId = l := by
  simp [held]

theorem leasable_eq_some {c : Content} {id l : UInt64} {m : Msg} :
    c.leasable id l = some m ↔
      l ≠ 0 ∧ c.lease l = none ∧ c.msg id = some m ∧ m.state = .pending := by
  unfold leasable
  by_cases h0 : l = 0
  · simp [h0]
  · cases c.lease l with
    | none =>
        simp [h0]
    | some e =>
        simp

theorem apply_push {c c' : Content} {off id : UInt64} {name : QueueName}
    {data : Bytes} :
    c.apply off (.push id name data) = some c' ↔
      id ≠ 0 ∧ c.msg id = none ∧
        c.addMsg (newMsg id (off + 9 + name.len.toUInt64)
          (UInt32.ofNat data.length) name) = c' := by
  simp only [apply]
  by_cases h0 : id = 0
  · simp [h0]
  · cases c.msg id <;> simp [h0]

end Content

/-- `next_msg_id` after an entry. -/
def Entry.bumpMsg (n : UInt64) : Entry → UInt64
  | .push id _ _ => if id ≥ n then id + 1 else n
  | .checkpoint nm _ => if nm > n then nm else n
  | _ => n

/-- `next_lease_id` after an entry. -/
def Entry.bumpLease (n : UInt64) : Entry → UInt64
  | .lease _ _ l => if l ≥ n then l + 1 else n
  | .checkpoint _ nl => if nl > n then nl else n
  | _ => n

/-- The tables of a state are well formed and say `c`. -/
structure State.Shows (st : State) (c : Content) : Prop where
  rep : st.Rep c.pend
  msg : st.coreGet = c.msg
  lease : st.leaseGet = c.lease

/-- What well-formed tables say. -/
def State.content (st : State) (pend : PendingLists) : Content where
  msg := st.coreGet
  lease := st.leaseGet
  pend := pend

theorem State.Rep.shows {st : State} {pend : PendingLists}
    (h : st.Rep pend) : st.Shows (st.content pend) :=
  ⟨h, rfl, rfl⟩

namespace State.Shows

variable {st : State} {c : Content}

theorem start : State.empty.Shows Content.empty where
  rep := Rep.empty
  msg := rfl
  lease := rfl

theorem msgGet (h : st.Shows c) {id : UInt64} {m : Msg}
    (hm : st.msgGet id = some m) : c.msg id = some m.core := by
  rw [← h.msg]
  simp [coreGet, hm]

theorem of_msg (h : st.Shows c) {id : UInt64} {x : Msg}
    (hx : c.msg id = some x) :
    ∃ m, st.msgGet id = some m ∧ x = m.core ∧ m.id = id := by
  rw [← h.msg] at hx
  obtain ⟨m, hm, rfl⟩ := coreGet_some hx
  exact ⟨m, hm, rfl, msgGet_id hm⟩

theorem msg_none (h : st.Shows c) {id : UInt64} :
    st.msgGet id = none ↔ c.msg id = none := by
  rw [← h.msg]
  simp [coreGet]

theorem addMsg (h : st.Shows c) {id off : UInt64} {len : UInt32}
    {n : QueueName} (hid : c.msg id = none) (hz : id ≠ 0) :
    (st.addMsg (newMsg id off len n)).Shows
      (c.addMsg (newMsg id off len n)) where
  rep := h.rep.addMsg (h.msg_none.mpr hid) hz
  msg := by
    funext id'
    rw [coreGet_addMsg, h.msg]
    by_cases he : id = id'
    · subst he
      simp [Content.addMsg, newMsg, Msg.core]
    · simp [Content.addMsg, newMsg, he, Ne.symm he]
  lease := by
    funext l
    rw [leaseGet_addMsg, h.lease]
    rfl

theorem leaseMsg (h : st.Shows c) {q : Queue} {m : Msg} {l e : UInt64}
    (hm : st.msgGet m.id = some m) (hs : m.state = .pending)
    (hq : st.queueGet m.queueName = some q)
    (hl0 : l ≠ 0) (hl : c.lease l = none) :
    (replayLeaseState st q m l e).Shows (c.leaseMsg m.core l e) where
  rep := h.rep.lease hm hs hq hl0 (by rw [h.lease, hl])
  msg := by
    funext id
    rw [coreGet_replayLeaseState, coreGet_of_msgGet hm, h.msg]
    by_cases he : id = m.id
    · subst he
      simp [Content.leaseMsg, Msg.core]
    · rw [if_neg he]
      exact (Function.update_of_ne he _ _).symm
  lease := by
    funext l'
    rw [leaseGet_replayLeaseState, h.lease]
    by_cases he : l = l'
    · subst he
      simp [Content.leaseMsg, Msg.core]
    · rw [if_neg he]
      exact (Function.update_of_ne (Ne.symm he) _ _).symm

theorem ackMsg (h : st.Shows c) {q : Queue} {m : Msg} {l : UInt64}
    (hm : st.msgGet m.id = some m) (hs : m.state = .leased)
    (hml : m.leaseId = l) (hq : st.queueGet m.queueName = some q) :
    (replayAckState st q m l).Shows (c.ackMsg m.core l) where
  rep := h.rep.ack hm hs hml hq
  msg := by
    funext id
    rw [coreGet_replayAckState, coreGet_of_msgGet hm, h.msg]
    by_cases he : id = m.id
    · subst he
      simp [Content.ackMsg, Msg.core]
    · rw [if_neg he]
      exact (Function.update_of_ne he _ _).symm
  lease := by
    funext l'
    rw [leaseGet_replayAckState q m h.rep.placed.leases, h.lease]
    by_cases he : l' = l
    · subst he
      simp [Content.ackMsg]
    · rw [if_neg he]
      exact (Function.update_of_ne he _ _).symm

theorem nackMsg (h : st.Shows c) {q : Queue} {m : Msg} {l : UInt64}
    (hm : st.msgGet m.id = some m) (hs : m.state = .leased)
    (hml : m.leaseId = l) (hq : st.queueGet m.queueName = some q) :
    (replayNackState st q m l).Shows (c.nackMsg m.core l) where
  rep := h.rep.nack hm hs hml hq
  msg := by
    funext id
    rw [coreGet_replayNackState, coreGet_of_msgGet hm, h.msg]
    by_cases he : id = m.id
    · subst he
      simp [Content.nackMsg, Msg.core]
    · rw [if_neg he]
      exact (Function.update_of_ne he _ _).symm
  lease := by
    funext l'
    rw [leaseGet_replayNackState q m h.rep.placed.leases, h.lease]
    by_cases he : l' = l
    · subst he
      simp [Content.nackMsg]
    · rw [if_neg he]
      exact (Function.update_of_ne he _ _).symm

end State.Shows

/-- Tables and counters after an entry. -/
def Mem.bump (mem : Mem) (e : Entry) (st : State) : Mem where
  nextMsgId := e.bumpMsg mem.nextMsgId
  nextLeaseId := e.bumpLease mem.nextLeaseId
  st := st

namespace State.Shows

variable {mem : Mem} {c : Content} {off : UInt64}

theorem applyLease (h : mem.st.Shows c) (id e l : UInt64) :
    match (c.leasable id l).map fun m => c.leaseMsg m l e with
    | none => mem.applyLease id e l = none
    | some c' => ∃ st', mem.applyLease id e l =
        some (mem.bump (.lease id e l) st') ∧ st'.Shows c' := by
  unfold Mem.applyLease
  by_cases h0 : l = 0
  · simp [Content.leasable, h0]
  rw [if_neg h0]
  cases hm : mem.st.msgGet id with
  | none =>
      have hn : c.leasable id l = none := by
        rw [Option.eq_none_iff_forall_not_mem]
        intro x hx
        have hx := (Content.leasable_eq_some.mp hx).2.2.1
        rw [h.msg_none.mp hm] at hx
        cases hx
      rw [hn]
      rfl
  | some m =>
      have hid := msgGet_id hm
      have hx := h.msgGet hm
      have hmm : mem.st.msgGet m.id = some m := by rw [hid]; exact hm
      dsimp only
      by_cases hs : m.state ≠ .pending
      · have hn : c.leasable id l = none := by
          rw [Option.eq_none_iff_forall_not_mem]
          intro x hx'
          obtain ⟨-, -, hx', hs'⟩ := Content.leasable_eq_some.mp hx'
          rw [hx] at hx'
          cases hx'
          exact hs hs'
        rw [hn, if_pos hs]
        rfl
      rw [if_neg hs]
      have hs := not_not.mp hs
      obtain ⟨q, hq', -⟩ := h.rep.queue_get hm
      cases hl : mem.st.leaseGet l with
      | some e' =>
          have hn : c.leasable id l = none := by
            rw [Option.eq_none_iff_forall_not_mem]
            intro x hx'
            have hl' := (Content.leasable_eq_some.mp hx').2.1
            rw [← h.lease, hl] at hl'
            cases hl'
          rw [hn]
          rfl
      | none =>
          have hsome : c.leasable id l = some m.core :=
            Content.leasable_eq_some.mpr
              ⟨h0, by rw [← h.lease, hl], hx, hs⟩
          rw [hsome]
          simp only [Option.map_some, Option.isSome_none, Bool.false_eq_true,
            if_false, hq']
          exact ⟨_, rfl, h.leaseMsg hmm hs hq' h0 (by rw [← h.lease, hl])⟩

theorem applyResolve (h : mem.st.Shows c)
    {resolve : State → Queue → Msg → UInt64 → State}
    {eff : Msg → UInt64 → Content} {e : Entry} {id l : UInt64}
    (he : e.bumpMsg mem.nextMsgId = mem.nextMsgId ∧
      e.bumpLease mem.nextLeaseId = mem.nextLeaseId)
    (heff : ∀ q m, mem.st.msgGet m.id = some m → m.state = .leased →
      m.leaseId = l → mem.st.queueGet m.queueName = some q →
      (resolve mem.st q m l).Shows (eff m.core l)) :
    match (c.held id l).map fun m => eff m l with
    | none => mem.applyResolve resolve id l = none
    | some c' => ∃ st', mem.applyResolve resolve id l =
        some (mem.bump e st') ∧ st'.Shows c' := by
  unfold Mem.applyResolve
  cases hm : mem.st.msgGet id with
  | none =>
      have hn : c.held id l = none := by
        unfold Content.held
        rw [h.msg_none.mp hm]
        rfl
      rw [hn]
      rfl
  | some m =>
      have hid := msgGet_id hm
      have hx := h.msgGet hm
      have hmm : mem.st.msgGet m.id = some m := by rw [hid]; exact hm
      dsimp only
      by_cases hs : m.state = .leased ∧ m.leaseId = l
      swap
      · have hn : c.held id l = none := by
          rw [Option.eq_none_iff_forall_not_mem]
          intro x hx'
          obtain ⟨hx', hs'⟩ := Content.held_eq_some.mp hx'
          rw [hx] at hx'
          cases hx'
          exact hs hs'
        rw [hn]
        dsimp only [Option.map_none]
        by_cases h1 : m.state = .leased
        · rw [if_neg (not_not.mpr h1), if_pos (fun h2 => hs ⟨h1, h2⟩)]
        · rw [if_pos h1]
      obtain ⟨q, hq', -⟩ := h.rep.queue_get hm
      have hsome : c.held id l = some m.core :=
        Content.held_eq_some.mpr ⟨hx, hs⟩
      rw [hsome, if_neg (not_not.mpr hs.1), if_neg (not_not.mpr hs.2)]
      simp only [Option.map_some, hq']
      refine ⟨_, ?_, heff q m hmm hs.1 hs.2 hq'⟩
      unfold Mem.bump
      rw [he.1, he.2]

/-- Replay of an entry refines its effect on the content. -/
theorem apply (h : mem.st.Shows c) (off : UInt64) (e : Entry) :
    match c.apply off e with
    | none => mem.apply off e = none
    | some c' => ∃ st', mem.apply off e = some (mem.bump e st') ∧
        st'.Shows c' := by
  cases e with
  | push id name data =>
      unfold Content.apply Mem.apply
      by_cases h0 : id = 0
      · simp [h0]
      cases hm : mem.st.msgGet id with
      | some m =>
          simp [h.msgGet hm, hm]
      | none =>
          have hx := h.msg_none.mp hm
          simp only [h0, hx, hm, Option.isSome_none, Bool.false_eq_true,
            or_self, if_false]
          exact ⟨_, rfl, h.addMsg hx h0⟩
  | lease id e l =>
      exact h.applyLease id e l
  | ack id l =>
      exact h.applyResolve ⟨rfl, rfl⟩ (fun q m => h.ackMsg)
  | nack id l =>
      exact h.applyResolve ⟨rfl, rfl⟩ (fun q m => h.nackMsg)
  | expire id l =>
      exact h.applyResolve ⟨rfl, rfl⟩ (fun q m => h.nackMsg)
  | checkpoint nm nl =>
      exact ⟨mem.st, rfl, h⟩
  | padding =>
      exact ⟨mem.st, rfl, h⟩

end State.Shows

end Qdb
