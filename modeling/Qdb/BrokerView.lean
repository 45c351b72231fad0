import Qdb.Broker
import Qdb.Compacted
import Qdb.ExpireSpec

/-!
# Views as states of the abstract queue machine

The tables and the log of a view together say what the abstract machine
`Broker` keeps.  Each record that an operation logs has the effect of one
operation of that machine.
-/

namespace Qdb

open Lib

/-- What the application sees of a stored message. -/
def View.message (v : View) (m : Msg) : Message :=
  ⟨m.id, m.queueName, dataOf v.start v.rs m, m.retryCount⟩

/-- The abstract state of a view with the content `c`. -/
def View.broker (v : View) (c : Content) (session : Option UInt64) :
    Broker where
  session := session
  nextMsgId := v.mem.nextMsgId
  nextLeaseId := v.mem.nextLeaseId
  queue := fun n => (c.pend n).filterMap fun id => (c.msg id).map v.message
  lease := fun l => (c.lease l).bind fun x =>
    (c.msg x.msgId).map fun m => ⟨v.message m, x.expiryUs⟩

namespace View.Wf

variable {v : View} {c : Content}

variable {o : Option UInt64}

/-- The messages of a queue, one for each pending id. -/
theorem queue_eq (h : v.Wf c) (n : QueueName) :
    ∃ xs : List Msg, (v.broker c o).queue n = xs.map v.message ∧
      xs.map Msg.id = c.pend n ∧
      ∀ x ∈ xs, c.msg x.id = some x ∧ x.queueName = n ∧
        x.state = .pending := by
  have hall : ∀ id ∈ c.pend n, ∃ x, c.msg id = some x ∧ x.id = id ∧
      x.queueName = n ∧ x.state = .pending := fun id hid => h.pend_get hid
  change ∃ xs : List Msg, (c.pend n).filterMap _ = _ ∧ _
  generalize c.pend n = ids at hall
  induction ids with
  | nil =>
      exact ⟨[], rfl, rfl, by simp⟩
  | cons id ids ih =>
      obtain ⟨xs, h1, h2, h3⟩ :=
        ih (fun k hk => hall k (List.mem_cons_of_mem _ hk))
      obtain ⟨x, hx, rfl, hq, hs⟩ := hall id List.mem_cons_self
      refine ⟨x :: xs, ?_, ?_, ?_⟩
      · rw [List.filterMap_cons, hx, Option.map_some, List.map_cons, h1]
      · rw [List.map_cons, h2]
      · intro y hy
        rcases List.mem_cons.mp hy with rfl | hy
        · exact ⟨hx, hq, hs⟩
        · exact h3 y hy

theorem queue_length (h : v.Wf c) (n : QueueName) :
    ((v.broker c o).queue n).length = (c.pend n).length := by
  obtain ⟨xs, h1, h2, -⟩ := h.queue_eq (o := o) n
  rw [h1, ← h2, List.length_map, List.length_map]

theorem queue_head (h : v.Wf c) {n : QueueName} {m : Message} :
    ((v.broker c o).queue n).head? = some m ↔
      ∃ x, (c.pend n).head? = some x.id ∧ c.msg x.id = some x ∧
        m = v.message x := by
  obtain ⟨xs, h1, h2, h3⟩ := h.queue_eq (o := o) n
  rw [h1, ← h2]
  cases xs with
  | nil =>
      simp
  | cons y ys =>
      obtain ⟨hy, -, -⟩ := h3 y List.mem_cons_self
      simp only [List.map_cons, List.head?_cons, Option.some.injEq]
      constructor
      · rintro rfl
        exact ⟨y, rfl, hy, rfl⟩
      · rintro ⟨x, hid, hx, rfl⟩
        rw [← hid, hy] at hx
        cases hx
        rfl

theorem lease_eq (h : v.Wf c) {l : UInt64} {x : Held} :
    (v.broker c o).lease l = some x ↔
      ∃ m, c.msg m.id = some m ∧ m.state = .leased ∧ m.leaseId = l ∧
        x = ⟨v.message m, m.leaseExpiryUs⟩ := by
  constructor
  · intro hx
    obtain ⟨e, he, hx⟩ := Option.bind_eq_some_iff.mp hx
    obtain ⟨m, hm, hx⟩ := Option.map_eq_some_iff.mp hx
    obtain ⟨y, hy, hs, hl, hexp⟩ := h.lease_get he
    rw [hm] at hy
    cases hy
    have hid := h.key hm
    refine ⟨m, by rw [hid]; exact hm, hs, hl, ?_⟩
    rw [← hx, hexp]
  · rintro ⟨m, hm, hs, rfl, rfl⟩
    have he := h.msg_lease hm hs
    change (c.lease m.leaseId).bind _ = _
    rw [he, Option.bind_some, hm]
    rfl

end View.Wf

section Effects

variable {v : View} {c : Content} {r : Record} {o : Option UInt64}

/-- A longer log says the same of the messages there are. -/
theorem View.message_log {p : Mem} {x : Msg}
    (hx : Located v.start v.rs x) : (v.log r p).message x = v.message x := by
  have hd : dataOf v.start (v.rs ++ [r]) x = dataOf v.start v.rs x :=
    hx.dataOf_append [r]
  change (⟨_, _, dataOf v.start (v.rs ++ [r]) x, _⟩ : Message) = _
  rw [hd]
  rfl

/-- A list whose messages have not changed. -/
theorem filterMap_message_log (h : v.Wf c) {p : Mem} {msg' : UInt64 → Option Msg}
    {ids : List UInt64} (hids : ∀ id ∈ ids, msg' id = c.msg id) :
    ids.filterMap (fun id => (msg' id).map (v.log r p).message) =
      ids.filterMap (fun id => (c.msg id).map v.message) := by
  apply List.filterMap_congr
  intro id hid
  rw [hids id hid]
  cases hx : c.msg id with
  | none =>
      rfl
  | some x =>
      rw [Option.map_some, Option.map_some, v.message_log (h.located id x hx)]

/-- A lease whose message has not changed. -/
theorem lease_message_log (h : v.Wf c) {p : Mem} {msg' : UInt64 → Option Msg}
    {l : UInt64} (hmsg : ∀ e, c.lease l = some e → msg' e.msgId = c.msg e.msgId) :
    ((c.lease l).bind fun x => (msg' x.msgId).map fun m =>
        (⟨(v.log r p).message m, x.expiryUs⟩ : Held)) =
      (c.lease l).bind fun x => (c.msg x.msgId).map fun m =>
        (⟨v.message m, x.expiryUs⟩ : Held) := by
  cases he : c.lease l with
  | none =>
      rfl
  | some e =>
      rw [Option.bind_some, Option.bind_some, hmsg e he]
      cases hx : c.msg e.msgId with
      | none =>
          rfl
      | some x =>
          rw [Option.map_some, Option.map_some,
            v.message_log (h.located _ x hx)]

/-- A PUSH record appends a message. -/
theorem View.Wf.broker_push (h : v.Wf c) {b : Body}
    (hid : c.msg v.mem.nextMsgId = none)
    (hfit : Qdb.Fits v.start (v.rs ++ [pushRecord v.mem.nextMsgId b])) :
    (v.log (pushRecord v.mem.nextMsgId b) (v.pushed b)).broker
      (c.addMsg (newMsg v.mem.nextMsgId
        (v.logEnd + recHdrSize + 9 + b.name.len.toUInt64)
        (UInt32.ofNat b.data.length) b.name)) o =
      (v.broker c o).push b := by
  have hnew : ∀ n, ∀ id ∈ c.pend n, id ≠ v.mem.nextMsgId := by
    rintro n id hin rfl
    obtain ⟨x, hx, -⟩ := h.pend_get hin
    rw [hid] at hx
    cases hx
  have hmsg : ∀ id, id ≠ v.mem.nextMsgId → ∀ m : Option Msg,
      Function.update c.msg v.mem.nextMsgId m id = c.msg id :=
    fun id hne m => Function.update_of_ne hne m c.msg
  ext1
  · rfl
  · rfl
  · rfl
  · funext n
    by_cases hn : n = b.name
    · subst hn
      simp only [View.broker, Content.addMsg, newMsg, Function.update_self,
        List.filterMap_append, Broker.push]
      congr 1
      · exact filterMap_message_log h (fun id hin => hmsg id (hnew _ id hin) _)
      · have hdata := (located_push (entry_pushRecord v.mem.nextMsgId b)
          hfit).2
        simp only [List.filterMap_cons, List.filterMap_nil,
          Function.update_self, Option.map_some, Broker.pushed]
        congr 1
        exact congrArg
          (fun d => (⟨v.mem.nextMsgId, b.name, d, 0⟩ : Message)) hdata
    · simp only [View.broker, Content.addMsg, newMsg,
        Function.update_of_ne hn, Broker.push]
      exact filterMap_message_log h (fun id hin => hmsg id (hnew _ id hin) _)
  · funext l
    refine lease_message_log h (fun e he => hmsg _ ?_ _)
    intro heq
    obtain ⟨x, hx, -⟩ := h.lease_get he
    rw [heq, hid] at hx
    cases hx

/-- A LEASE record takes the head of a queue. -/
theorem View.Wf.broker_deliver (h : v.Wf c) {m : Msg} {p : Mem} {e : UInt64}
    (hm : c.msg m.id = some m) (hs : m.state = .pending)
    (hhead : (c.pend m.queueName).head? = some m.id)
    (hnm : p.nextMsgId = v.mem.nextMsgId)
    (hnl : p.nextLeaseId = v.mem.nextLeaseId + 1) :
    (v.log r p).broker (c.leaseMsg m v.mem.nextLeaseId e) o =
      (v.broker c o).deliver m.queueName (v.message m) e := by
  obtain ⟨ids, hids⟩ : ∃ ids, c.pend m.queueName = m.id :: ids := by
    cases hp : c.pend m.queueName with
    | nil =>
        rw [hp] at hhead
        cases hhead
    | cons k ids =>
        rw [hp] at hhead
        cases hhead
        exact ⟨ids, rfl⟩
  have hnd := h.pend_nodup m.queueName
  rw [hids, List.nodup_cons] at hnd
  ext1
  · rfl
  · exact hnm
  · exact hnl
  · funext n
    by_cases hn : n = m.queueName
    · subst hn
      simp only [View.broker, Content.leaseMsg, Broker.deliver,
        Function.update_self, hids]
      rw [List.erase_cons_head, List.filterMap_cons, hm]
      simp only [Option.map_some, List.tail_cons]
      refine filterMap_message_log h (fun id hin => ?_)
      refine Function.update_of_ne ?_ _ _
      rintro rfl
      exact hnd.1 hin
    · simp only [View.broker, Content.leaseMsg, Broker.deliver,
        Function.update_of_ne hn]
      refine filterMap_message_log h (fun id hin => ?_)
      refine Function.update_of_ne ?_ _ _
      rintro rfl
      exact h.not_pend_other hm hn hin
  · funext l
    by_cases hll : l = v.mem.nextLeaseId
    · subst hll
      have hmsg := v.message_log (r := r) (p := p) (h.located _ _ hm)
      simp only [View.broker, Content.leaseMsg, Broker.deliver,
        Function.update_self, Option.bind_some, Option.map_some]
      exact congrArg (fun y => some (⟨y, e⟩ : Held)) hmsg
    · simp only [View.broker, Content.leaseMsg, Broker.deliver,
        Function.update_of_ne hll]
      refine lease_message_log h (fun x hx => Function.update_of_ne ?_ _ _)
      intro heq
      obtain ⟨y, hy, hsy, -⟩ := h.lease_get hx
      rw [heq, hm] at hy
      cases hy
      exact absurd (hs.symm.trans hsy) (by decide)

/-- The message of a resolved lease is in no list and under no other lease. -/
theorem View.Wf.other_of_leased (h : v.Wf c) {m : Msg} {x : Option Msg}
    (hm : c.msg m.id = some m) (hs : m.state = .leased) :
    (∀ n, ∀ id ∈ c.pend n, Function.update c.msg m.id x id = c.msg id) ∧
      ∀ l, l ≠ m.leaseId → ∀ e, c.lease l = some e →
        Function.update c.msg m.id x e.msgId = c.msg e.msgId := by
  constructor
  · intro n id hid
    refine Function.update_of_ne ?_ _ _
    rintro rfl
    exact h.not_pend hm (by rw [hs]; decide) n hid
  · intro l hl e he
    refine Function.update_of_ne ?_ _ _
    intro heq
    exact hl (h.lease_inj he (heq ▸ hm)).symm

/-- An ACK record drops a lease. -/
theorem View.Wf.broker_ack (h : v.Wf c) {m : Msg} {p : Mem}
    (hm : c.msg m.id = some m) (hs : m.state = .leased)
    (hnm : p.nextMsgId = v.mem.nextMsgId)
    (hnl : p.nextLeaseId = v.mem.nextLeaseId) :
    (v.log r p).broker (c.ackMsg m m.leaseId) o =
      (v.broker c o).drop m.leaseId := by
  obtain ⟨hlist, hother⟩ := h.other_of_leased (x := some m.asAcked) hm hs
  ext1
  · rfl
  · exact hnm
  · exact hnl
  · funext n
    exact filterMap_message_log h (hlist n)
  · funext l
    by_cases hl : l = m.leaseId
    · subst hl
      simp [View.broker, Content.ackMsg, Broker.drop]
    · simp only [Broker.drop, Function.update_of_ne hl]
      change (Function.update c.lease _ _ l).bind _ = _
      rw [Function.update_of_ne hl]
      exact lease_message_log h (hother l hl)

/-- A NACK or EXPIRE record returns a message to its queue. -/
theorem View.Wf.broker_nack (h : v.Wf c) {m : Msg} {p : Mem}
    (hm : c.msg m.id = some m) (hs : m.state = .leased)
    (hnm : p.nextMsgId = v.mem.nextMsgId)
    (hnl : p.nextLeaseId = v.mem.nextLeaseId) :
    (v.log r p).broker (c.nackMsg m m.leaseId) o =
      (v.broker c o).requeue m.leaseId (v.message m) := by
  obtain ⟨hlist, hother⟩ := h.other_of_leased (x := some m.returned) hm hs
  ext1
  · rfl
  · exact hnm
  · exact hnl
  · funext n
    by_cases hn : n = m.queueName
    · subst hn
      have hq : (v.message m).queue = m.queueName := rfl
      simp only [View.broker, Content.nackMsg, Broker.requeue, hq,
        Function.update_self, List.filterMap_append]
      congr 1
      · exact filterMap_message_log h (hlist _)
      · have hmsg := v.message_log (r := r) (p := p) (h.located _ _ hm)
        simp only [List.filterMap_cons, List.filterMap_nil,
          Function.update_self, Option.map_some]
        congr 1
        exact congrArg Message.retried hmsg
    · have hn' : n ≠ (v.message m).queue := hn
      simp only [View.broker, Content.nackMsg, Broker.requeue,
        Function.update_of_ne hn, Function.update_of_ne hn']
      exact filterMap_message_log h (hlist n)
  · funext l
    by_cases hl : l = m.leaseId
    · subst hl
      simp [View.broker, Content.nackMsg, Broker.requeue]
    · simp only [Broker.requeue, Function.update_of_ne hl]
      change (Function.update c.lease _ _ l).bind _ = _
      rw [Function.update_of_ne hl]
      exact lease_message_log h (hother l hl)

end Effects

end Qdb
