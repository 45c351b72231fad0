import Qdb.Consistency

/-!
# Queues are isolated

All queues share one message table, one lease table and one log.  A call on one
queue still leaves every other queue as it is: its entry with the counters, the
order of its pending messages, the messages themselves with their leases and
payloads, and what the next `qdb_pop` on it returns (`queues_isolated`).

This needs the ids that calls give out to be unused.  Once the counter of the
message ids has wrapped around, a push gives out an id that a message of another
queue still has, and that queue then shows the new message
(`queues_not_isolated`).
-/

namespace Qdb

open Lib

/-- The entry concerns a message of the queue `n`. -/
def Entry.On (c : Content) (n : QueueName) : Entry → Prop
  | .push _ name _ => name = n
  | .lease id _ _ => ∃ x, c.msg id = some x ∧ x.queueName = n
  | .ack id _ => ∃ x, c.msg id = some x ∧ x.queueName = n
  | .nack id _ => ∃ x, c.msg id = some x ∧ x.queueName = n
  | .expire id _ => ∃ x, c.msg id = some x ∧ x.queueName = n
  | .checkpoint _ _ => False
  | .padding => False

/-- Both contents say the same of the queue `n`. -/
structure Content.Alike (n : QueueName) (c c' : Content) : Prop where
  pend : c'.pend n = c.pend n
  msg : ∀ id x, x.queueName = n → (c'.msg id = some x ↔ c.msg id = some x)
  lease : ∀ id x, c.msg id = some x → x.queueName = n → x.state = .leased →
    c'.lease x.leaseId = c.lease x.leaseId

section Content

variable {st : State} {c c' : Content} {n : QueueName} {off : UInt64}

/-- A change of one message of another queue. -/
theorem update_msg_other {m m' : Msg} {id k : UInt64} {x : Msg}
    (hm : c.msg id = some m) (hne : m.queueName ≠ n)
    (hne' : m'.queueName ≠ n) (hx : x.queueName = n) :
    Function.update c.msg id (some m') k = some x ↔ c.msg k = some x := by
  by_cases hk : k = id
  · subst hk
    rw [Function.update_self, hm]
    constructor
    · rintro ⟨⟩
      exact absurd hx hne'
    · rintro ⟨⟩
      exact absurd hx hne
  · rw [Function.update_of_ne hk]

/-- A held lease of another queue is not that of a message of `n`. -/
theorem State.Shows.lease_ne (h : st.Shows c) {id k : UInt64} {m x : Msg}
    (hm : c.msg id = some m) (hs : m.state = .leased)
    (hne : m.queueName ≠ n) (hx : c.msg k = some x) (hxn : x.queueName = n)
    (hxs : x.state = .leased) : x.leaseId ≠ m.leaseId := by
  intro heq
  have h1 := (h.rep.lease_of_msg id m (by rw [h.msg]; exact hm) hs).2
  have h2 := (h.rep.lease_of_msg k x (by rw [h.msg]; exact hx) hxs).2
  rw [heq, h1] at h2
  injection h2 with h2
  injection h2 with _ hid
  rw [← hid, hm] at hx
  cases hx
  exact hne hxn

/-- The resolution of a lease of another queue. -/
theorem State.Shows.resolve_alike (h : st.Shows c) {id l : UInt64} {m : Msg}
    (hm : c.held id l = some m) (hne : m.queueName ≠ n) {m' : Msg}
    (hm' : m'.queueName = m.queueName) {pend : PendingLists}
    (hp : pend n = c.pend n) :
    c.Alike n ⟨Function.update c.msg id (some m'),
      Function.update c.lease l none, pend⟩ := by
  obtain ⟨hget, hs, hl⟩ := Content.held_eq_some.mp hm
  refine ⟨hp, ?_, ?_⟩
  · intro k x hx
    exact update_msg_other hget hne (by rw [hm']; exact hne) hx
  · intro k x hx hxn hxs
    have hlne := h.lease_ne hget hs hne hx hxn hxs
    rw [hl] at hlne
    exact Function.update_of_ne hlne _ _

theorem State.Shows.nack_alike (h : st.Shows c) {id l : UInt64} {m : Msg}
    (hm : c.held id l = some m) (hne : m.queueName ≠ n) :
    c.Alike n (c.nackMsg m l) := by
  have hget := (Content.held_eq_some.mp hm).1
  have hid : m.id = id := State.coreGet_id (by rw [h.msg]; exact hget)
  unfold Content.nackMsg
  rw [hid]
  refine h.resolve_alike hm hne ?_ (Function.update_of_ne (Ne.symm hne) _ _)
  rfl

/-- An entry that concerns another queue leaves the queue `n` as it is. -/
theorem State.Shows.apply_alike (h : st.Shows c) {e : Entry}
    (he : c.apply off e = some c') (hn : ¬ e.On c n) : c.Alike n c' := by
  cases e with
  | push id name data =>
      obtain ⟨-, hnone, rfl⟩ := Content.apply_push.mp he
      have hname : name ≠ n := hn
      refine ⟨Function.update_of_ne (Ne.symm hname) _ _, ?_, fun _ _ _ _ _ =>
        rfl⟩
      intro k x hx
      change Function.update c.msg id _ k = _ ↔ _
      by_cases hk : k = id
      · subst hk
        rw [Function.update_self, hnone]
        constructor
        · rintro ⟨⟩
          exact absurd hx hname
        · nofun
      · rw [Function.update_of_ne hk]
  | lease id e l =>
      obtain ⟨m, hm, rfl⟩ := Option.map_eq_some_iff.mp he
      obtain ⟨-, hl, hget, -⟩ := Content.leasable_eq_some.mp hm
      have hne : m.queueName ≠ n := fun heq => hn ⟨m, hget, heq⟩
      have hid : m.id = id := State.coreGet_id (by rw [h.msg]; exact hget)
      refine ⟨Function.update_of_ne (Ne.symm hne) _ _, ?_, ?_⟩
      · intro k x hx
        change Function.update c.msg m.id _ k = _ ↔ _
        rw [hid]
        exact update_msg_other hget hne hne hx
      · intro k x hx hxn hxs
        have hle := (h.rep.lease_of_msg k x (by rw [h.msg]; exact hx) hxs).2
        have hlne : x.leaseId ≠ l := by
          intro heq
          rw [heq, h.lease, hl] at hle
          cases hle
        exact Function.update_of_ne hlne _ _
  | ack id l =>
      obtain ⟨m, hm, rfl⟩ := Option.map_eq_some_iff.mp he
      have hget := (Content.held_eq_some.mp hm).1
      have hid : m.id = id := State.coreGet_id (by rw [h.msg]; exact hget)
      unfold Content.ackMsg
      rw [hid]
      refine h.resolve_alike hm (fun heq => hn ⟨m, hget, heq⟩) ?_ rfl
      rfl
  | nack id l =>
      obtain ⟨m, hm, rfl⟩ := Option.map_eq_some_iff.mp he
      exact h.nack_alike hm fun heq =>
        hn ⟨m, (Content.held_eq_some.mp hm).1, heq⟩
  | expire id l =>
      obtain ⟨m, hm, rfl⟩ := Option.map_eq_some_iff.mp he
      exact h.nack_alike hm fun heq =>
        hn ⟨m, (Content.held_eq_some.mp hm).1, heq⟩
  | checkpoint nm nl =>
      cases he
      exact ⟨rfl, fun _ _ _ => Iff.rfl, fun _ _ _ _ _ => rfl⟩
  | padding =>
      cases he
      exact ⟨rfl, fun _ _ _ => Iff.rfl, fun _ _ _ _ _ => rfl⟩

end Content

/-- The tables hold the same of the queue `n`: its entry with the counters, the
order of its pending messages, its messages and their leases. -/
structure State.SameQueue (n : QueueName) (st st' : State) : Prop where
  queue : st'.queueGet n = st.queueGet n
  order : st'.pendingIds n = st.pendingIds n
  msgs : ∀ id x, x.queueName = n →
    (st'.coreGet id = some x ↔ st.coreGet id = some x)
  leases : ∀ id x, st.coreGet id = some x → x.queueName = n →
    x.state = .leased → st'.leaseGet x.leaseId = st.leaseGet x.leaseId

section Tables

variable {mem mem' : Mem} {c c' : Content} {n : QueueName} {off : UInt64}

theorem State.SameQueue.refl (n : QueueName) (st : State) :
    st.SameQueue n st :=
  ⟨rfl, rfl, fun _ _ _ => Iff.rfl, fun _ _ _ _ _ => rfl⟩

theorem Mem.applyResolve_queueGet
    {resolve : State → Queue → Msg → UInt64 → State} {id l : UInt64}
    (hres : ∀ st q m n, n ≠ q.name →
      (resolve st q m l).queueGet n = st.queueGet n)
    (h : mem.applyResolve resolve id l = some mem')
    (hn : ¬ ∃ x, mem.st.coreGet id = some x ∧ x.queueName = n) :
    mem'.st.queueGet n = mem.st.queueGet n := by
  unfold Mem.applyResolve at h
  cases hm : mem.st.msgGet id with
  | none =>
      rw [hm] at h
      cases h
  | some m =>
      rw [hm] at h
      dsimp only at h
      split at h
      · cases h
      split at h
      · cases h
      split at h
      · cases h
      next q hq =>
      cases h
      refine hres _ _ _ _ ?_
      rintro rfl
      exact hn ⟨m.core, State.coreGet_of_msgGet hm, (State.queueGet_name hq).symm⟩

/-- The entry of the queue `n` is not touched. -/
theorem Mem.apply_queueGet {e : Entry} (hmsg : mem.st.coreGet = c.msg)
    (h : mem.apply off e = some mem') (hn : ¬ e.On c n) :
    mem'.st.queueGet n = mem.st.queueGet n := by
  cases e with
  | push id name data =>
      dsimp only [Mem.apply] at h
      split at h
      · cases h
      split at h
      · cases h
      cases h
      rw [State.queueGet_addMsg, if_neg]
      exact fun heq => hn heq.symm
  | lease id e l =>
      change mem.applyLease id e l = some mem' at h
      unfold Mem.applyLease at h
      split at h
      · cases h
      split at h
      · cases h
      next m hm =>
      split at h
      · cases h
      split at h
      · cases h
      split at h
      · cases h
      next q hq =>
      cases h
      rw [State.queueGet_replayLeaseState, if_neg]
      rintro rfl
      refine hn ⟨m.core, ?_, (State.queueGet_name hq).symm⟩
      rw [← hmsg]
      exact State.coreGet_of_msgGet hm
  | ack id l =>
      refine Mem.applyResolve_queueGet ?_ h (by rw [hmsg]; exact hn)
      intro st q m n hne
      rw [State.queueGet_replayAckState, if_neg hne]
  | nack id l =>
      refine Mem.applyResolve_queueGet ?_ h (by rw [hmsg]; exact hn)
      intro st q m n hne
      rw [State.queueGet_replayNackState, if_neg hne]
  | expire id l =>
      refine Mem.applyResolve_queueGet ?_ h (by rw [hmsg]; exact hn)
      intro st q m n hne
      rw [State.queueGet_replayNackState, if_neg hne]
  | checkpoint nm nl =>
      cases h
      rfl
  | padding =>
      cases h
      rfl

/-- An entry that concerns another queue, on the tables. -/
theorem State.Shows.apply_sameQueue (h : mem.st.Shows c) {e : Entry}
    (hm : mem.apply off e = some mem') (he : c.apply off e = some c')
    (h' : mem'.st.Shows c') (hn : ¬ e.On c n) :
    mem.st.SameQueue n mem'.st := by
  have halike := h.apply_alike he hn
  refine ⟨Mem.apply_queueGet h.msg hm hn, ?_, ?_, ?_⟩
  · rw [h'.rep.pendingIds_eq, h.rep.pendingIds_eq, halike.pend]
  · rw [h'.msg, h.msg]
    exact halike.msg
  · rw [h'.lease, h.lease, h.msg]
    exact halike.lease

end Tables

/-- The calls that work on one queue. -/
def Call.OneQueue : Call → Prop
  | .push _ _ => True
  | .pop _ _ => True
  | .ack _ _ => True
  | .nack _ _ => True
  | _ => False

/-- The queue `n` is the one such a call works on. -/
def Call.On (st : State) (n : QueueName) : Call → Prop
  | .push queue _ => queueArg queue = some n
  | .pop queue _ => queueArg queue = some n
  | .ack id _ => ∃ m, st.msgGet id = some m ∧ m.queueName = n
  | .nack id _ => ∃ m, st.msgGet id = some m ∧ m.queueName = n
  | _ => False

section Views

variable {v v' : View} {c c' : Content} {n : QueueName} {now : UInt64}
variable {call : Call} {res : Result}

theorem pushArg_name {queue : Option CString} {data : DataArg} {b : Body}
    (h : pushArg queue data = some b) : queueArg queue = some b.name := by
  unfold pushArg at h
  split at h
  · cases h
  next name hname =>
  split at h
  · cases h
  split at h
  · cases h
  split at h
  · cases h
    exact hname
  · cases h

/-- What a call on another queue logs does not concern the queue `n`. -/
theorem View.Logs.not_on {r : Record} {half full : Mem} (h : v.Wf c)
    (hlog : v.Logs c now call r half full res) (hone : call.OneQueue)
    (hn : ¬ call.On v.mem.st n) {e : Entry} (he : r.entry = some e) :
    ¬ e.On c n := by
  cases hlog with
  | push harg =>
      rw [entry_pushRecord] at he
      cases he
      intro heq
      exact hn (by rw [← heq]; exact pushArg_name harg)
  | deliver hcall hm hs hq hcount hhead hmin =>
      rw [entry_leaseRecord] at he
      cases he
      rcases hcall with ⟨queue, rfl, harg⟩ | rfl
      · rintro ⟨x, hx, hxn⟩
        rw [← h.shows.msg, State.coreGet_of_msgGet hm] at hx
        cases hx
        exact hn (harg.trans (congrArg some hxn))
      · exact hone.elim
  | ack hm hs hl =>
      rw [entry_ackRecord] at he
      cases he
      rintro ⟨x, hx, hxn⟩
      rw [← h.shows.msg, State.coreGet_of_msgGet hm] at hx
      cases hx
      exact hn ⟨_, hm, hxn⟩
  | nack hm hs hl =>
      rw [entry_nackRecord] at he
      cases he
      rintro ⟨x, hx, hxn⟩
      rw [← h.shows.msg, State.coreGet_of_msgGet hm] at hx
      cases hx
      exact hn ⟨_, hm, hxn⟩

/-- A call on another queue leaves the queue `n` and all payloads as they
are. -/
theorem View.Wf.sameQueue (h : v.Wf c) (hf : v.Fresh call) {mv : Move}
    (hmv : v.move now call = some mv) (ho : mv.Outcome False v res v')
    (hone : call.OneQueue) (hn : ¬ call.On v.mem.st n) :
    v.mem.st.SameQueue n v'.mem.st ∧
      ∀ x, Located v.start v.rs x → v'.message x = v.message x := by
  cases ho with
  | refuse res =>
      exact ⟨.refl _ _, fun _ _ => rfl⟩
  | io hio =>
      exact ⟨.refl _ _, fun _ _ => rfl⟩
  | half hF =>
      exact hF.elim
  | @full r half full res hfit =>
      have hlog := h.logs hmv
      have hrep := h.logs_replays hf hlog
      obtain ⟨c', hc', hwf⟩ := h.logged hrep hfit
      obtain ⟨e, he, hmem⟩ := Option.bind_eq_some_iff.mp hrep
      obtain ⟨e', he', hcon⟩ := Option.bind_eq_some_iff.mp hc'
      rw [he] at he'
      cases he'
      exact ⟨h.shows.apply_sameQueue hmem hcon hwf.shows
        (hlog.not_on h hone hn he), fun x hx => View.message_log hx⟩

/-- What `qdb_pop` does on well-formed tables. -/
theorem View.Wf.pop_cases (h : v.Wf c) {queue : Option CString}
    (hq : queueArg queue = some n) :
    (v.pop now queue true = .refuse (.code .errEmpty) ∧
      ∀ q, v.mem.st.queueGet n = some q →
        q.pendingCount = 0 ∨ q.pendingHead = 0) ∨
    ∃ q m, v.mem.st.queueGet n = some q ∧
      ¬ (q.pendingCount = 0 ∨ q.pendingHead = 0) ∧
      v.mem.st.msgGet q.pendingHead = some m ∧ m.queueName = n ∧
      v.pop now queue true = v.deliver now q m := by
  unfold View.pop
  rw [if_neg (by simp), hq]
  dsimp only
  cases hget : v.mem.st.queueGet n with
  | none =>
      exact Or.inl ⟨rfl, nofun⟩
  | some q =>
      dsimp only
      by_cases h0 : q.pendingCount = 0 ∨ q.pendingHead = 0
      · rw [if_pos h0]
        refine Or.inl ⟨rfl, ?_⟩
        rintro _ ⟨⟩
        exact h0
      · rw [if_neg h0]
        have hhead : q.pendingHead ≠ 0 := fun h => h0 (Or.inr h)
        obtain ⟨m, hm⟩ := Option.isSome_iff_exists.mp (h.head_isSome hget hhead)
        rw [hm]
        exact Or.inr ⟨q, m, rfl, h0, hm, (h.head hget hhead hm).1, rfl⟩

/-- The two results of a pop agree on everything but the lease. -/
structure Result.PopAlike (res res' : Result) : Prop where
  empty : res = .code .errEmpty ↔ res' = .code .errEmpty
  msg : ∀ x x', res = .msg x → res' = .msg x' →
    x'.id = x.id ∧ x'.queue = x.queue ∧ x'.data = x.data ∧
      x'.retryCount = x.retryCount

theorem deliver_result {q : Queue} {m : Msg} {v₁ : View}
    (ho : (v.deliver now q m).Outcome False v res v₁) :
    res = .code .errIo ∨ ∃ x, res = .msg x ∧ x.id = m.id ∧
      x.queue = m.queueName ∧ x.data = dataOf v.start v.rs m ∧
      x.retryCount = m.retryCount := by
  rcases ho.inv with ⟨rfl, -⟩ | ⟨rfl, -⟩
  · exact Or.inr ⟨_, rfl, rfl, rfl, rfl, rfl⟩
  · exact Or.inl rfl

/-- The next pop on a queue that is the same. -/
theorem View.Wf.popAlike (h : v.Wf c) (h' : v'.Wf c')
    (hsame : v.mem.st.SameQueue n v'.mem.st)
    (hmsg : ∀ x, Located v.start v.rs x → v'.message x = v.message x)
    {queue : Option CString} (hq : queueArg queue = some n)
    {res res' : Result} {v₁ v₂ : View}
    (ho : (v.pop now queue true).Outcome False v res v₁)
    (ho' : (v'.pop now queue true).Outcome False v' res' v₂) :
    res.PopAlike res' := by
  rcases h.pop_cases hq with ⟨hp, hall⟩ | ⟨q, m, hget, h0, hm, hname, hp⟩
  · rcases h'.pop_cases hq with ⟨hp', -⟩ | ⟨q', m', hget', h0', -⟩
    · rw [hp] at ho
      rw [hp'] at ho'
      cases ho
      cases ho'
      exact ⟨Iff.rfl, nofun⟩
    · rw [hsame.queue] at hget'
      exact absurd (hall q' hget') h0'
  · rcases h'.pop_cases hq with ⟨-, hall'⟩ | ⟨q', m', hget', -, hm', hname', hp'⟩
    · rw [hsame.queue] at hall'
      exact absurd (hall' q hget) h0
    · rw [hsame.queue, hget] at hget'
      cases hget'
      have hcore := State.coreGet_of_msgGet hm
      have hcore' := (hsame.msgs _ m.core hname).mpr hcore
      rw [State.coreGet_of_msgGet hm'] at hcore'
      injection hcore' with hcore'
      rw [hp] at ho
      rw [hp'] at ho'
      have hloc := h.located q.pendingHead m.core
        (by rw [← h.shows.msg]; exact hcore)
      have hdata : dataOf v'.start v'.rs m' = dataOf v.start v.rs m :=
        (congrArg (fun x => dataOf v'.start v'.rs x) hcore').trans
          (congrArg Message.data (hmsg m.core hloc))
      rcases deliver_result ho with rfl | ⟨x, rfl, h1, h2, h3, h4⟩
      · rcases deliver_result ho' with rfl | ⟨x', rfl, -⟩
        · exact ⟨Iff.rfl, nofun⟩
        · exact ⟨⟨nofun, nofun⟩, nofun⟩
      · rcases deliver_result ho' with rfl | ⟨x', rfl, h1', h2', h3', h4'⟩
        · exact ⟨⟨nofun, nofun⟩, nofun⟩
        · refine ⟨⟨nofun, nofun⟩, ?_⟩
          rintro _ _ ⟨⟩ ⟨⟩
          have hid : m'.core.id = m.core.id := congrArg Msg.id hcore'
          have hretry : m'.core.retryCount = m.core.retryCount :=
            congrArg Msg.retryCount hcore'
          refine ⟨?_, ?_, ?_, ?_⟩
          · rw [h1, h1']
            exact hid
          · rw [h2, h2', hname, hname']
          · rw [h3, h3', hdata]
          · rw [h4, h4']
            exact hretry

end Views

/-- The handles hold the same of the queue `n`, payloads included. -/
def Sys.SameQueue (n : QueueName) (s s' : Sys) : Prop :=
  ∃ db st db' st', s.db = some db ∧ db.state = some st ∧
    s'.db = some db' ∧ db'.state = some st' ∧ st.SameQueue n st' ∧
    ∀ id x, st.coreGet id = some x → x.queueName = n →
      db'.message s'.world x = db.message s.world x

/-- The next pop on the queue `n` returns the same. -/
def Sys.PopsAlike (n : QueueName) (s s' : Sys) : Prop :=
  ∀ now queue res res' t t', queueArg queue = some n →
    s.step ⟨now, .pop queue true⟩ = some (res, t) →
    s'.step ⟨now, .pop queue true⟩ = some (res', t') → res.PopAlike res'

section Systems

variable {s s' : Sys} {v : View} {c : Content} {n : QueueName}

/-- A pop on an open handle. -/
theorem Sys.Is.pop_outcome (his : s.Is (.opened v)) (hwf : v.Wf c)
    {now : UInt64} {queue : Option CString} {res : Result} {t : Sys}
    (h : s.step ⟨now, .pop queue true⟩ = some (res, t)) :
    ∃ v', (v.pop now queue true).Outcome False v res v' := by
  have hph : (Phase.opened v).WellFormed := by
    rintro _ ⟨⟩
    exact ⟨c, hwf⟩
  obtain ⟨res', t', ph', hstep, hst, -⟩ := his.step hph ⟨now, .pop queue true⟩
  rw [h] at hstep
  cases hstep
  cases hst with
  | null hne _ =>
      exact absurd rfl (hne v)
  | @move _ v' _ mv _ hmv ho =>
      cases hmv
      exact ⟨v', ho⟩

/-- A call on one queue leaves every other queue of the open handle as it is,
as long as the ids that are given out are unused. -/
theorem queues_isolated {s₀ : Sys} {as : List Act} (h0 : s₀.Starts)
    (hrun : Run Sys.FreshReturns s₀ as s) {e : Event} {res : Result}
    (hone : e.call.OneQueue) (hf : s.Fresh e.call)
    (hstep : s.step e = some (res, s')) {db : Db} {st : State}
    (hdb : s.db = some db) (hst : db.state = some st)
    (hn : ¬ e.call.On st n) : s.SameQueue n s' ∧ s.PopsAlike n s' := by
  obtain ⟨ph, his, hwf⟩ := h0.run hrun
  obtain ⟨now, call⟩ := e
  cases ph with
  | opened v =>
      have heq := hst.symm.trans (his.state hdb)
      cases heq
      obtain ⟨c, hc⟩ := hwf v rfl
      obtain ⟨res', t, ph', hstep', hs, his'⟩ := his.step hwf ⟨now, call⟩
      rw [hstep] at hstep'
      cases hstep'
      have hv := his.fresh hf
      cases hs with
      | @move _ v' _ mv _ hmv ho =>
          obtain ⟨hsame, hmsg⟩ := hc.sameQueue hv hmv ho hone hn
          obtain ⟨c', hc'⟩ := hc.outcome hv hmv ho
          refine ⟨?_, ?_⟩
          · obtain ⟨db₁, i, hdb₁, hlive⟩ := his
            obtain ⟨db₂, i', hdb₂, hlive'⟩ := his'
            rw [hdb] at hdb₁
            cases hdb₁
            refine ⟨db, _, db₂, _, hdb, hst, hdb₂, hlive'.state, hsame, ?_⟩
            intro id x hx hxn
            have hloc := hc.located id x (by rw [← hc.shows.msg]; exact hx)
            have hloc' := hc'.located id x (by
              rw [← hc'.shows.msg]
              exact (hsame.msgs id x hxn).mpr hx)
            rw [hlive.message hloc, hlive'.message hloc', hmsg x hloc]
          · intro now queue r r' t t' hq hr hr'
            obtain ⟨v₁, ho₁⟩ := his.pop_outcome hc hr
            obtain ⟨v₂, ho₂⟩ := his'.pop_outcome hc' hr'
            exact hc.popAlike hc' hsame hmsg hq ho₁ ho₂
      | null hne _ =>
          exact absurd rfl (hne v)
      | _ =>
          exact hone.elim
  | _ =>
      rw [his.db_none (by simp)] at hdb
      cases hdb

/-- A push next to a queue with one message. -/
theorem queues_isolated_push : ∃ s s' : Sys, ∃ res,
    s.step ⟨0, .push secondQueue (.buf [])⟩ = some (res, s') ∧
      s.SameQueue roundName s' := by
  have hshort : (encodeLog [pushRecord 1 roundBody]).length ≤ 2 ^ 62 :=
    le_trans (length_encodeLog_le _) (by decide)
  obtain ⟨s, hs, his⟩ := logFile_starts hshort (pushedMem_replay roundBody) 0
  have hf : s.Fresh (.push secondQueue (.buf [])) := by
    obtain ⟨db, i, hdb, hlive⟩ := his
    intro db' st hdb' hst
    rw [hdb] at hdb'
    cases hdb'
    have heq := hst.symm.trans hlive.state
    cases heq
    refine ⟨?_, ?_⟩
    · rw [hlive.nextMsgId]
      decide +kernel
    · rw [hlive.nextMsgId]
      decide +kernel
  obtain ⟨res, s', hstep, -⟩ :=
    hs.sound.step (e := ⟨0, .push secondQueue (.buf [])⟩) hf
  obtain ⟨db, i, hdb, hlive⟩ := his
  refine ⟨s, s', res, hstep, (queues_isolated
    (e := ⟨0, .push secondQueue (.buf [])⟩) hs .nil trivial hf hstep hdb
    hlive.state ?_).1⟩
  change ¬ queueArg secondQueue = some roundName
  decide +kernel

/-- A log whose last id is the largest one, so that the counter wraps around to
zero; the checkpoint moves it on to an id that is in use. -/
def wrappedLog : List Record :=
  [pushRecord 1 roundBody, pushRecord 0xFFFFFFFFFFFFFFFF secondBody,
    checkpointRecord 0 1 1]

theorem wrappedLog_replay :
    ∃ mem x, replayRecords hdrSize wrappedLog (Mem.start 0) = some mem ∧
      mem.nextMsgId = 1 ∧ mem.st.coreGet 1 = some x ∧
      x.queueName = roundName := by
  have h : (replayRecords hdrSize wrappedLog (Mem.start 0)).map
      (fun mem => (mem.nextMsgId, (mem.st.coreGet 1).map Msg.queueName)) =
      some (1, some roundName) := by
    decide +kernel
  obtain ⟨mem, hmem, heq⟩ := Option.map_eq_some_iff.mp h
  injection heq with h1 h2
  obtain ⟨x, hx, hn⟩ := Option.map_eq_some_iff.mp h2
  exact ⟨mem, x, hmem, h1, hx, hn⟩

/-- The handle of a file with a short log. -/
theorem shortLog_starts {rs : List Record} {mem : Mem}
    (hlen : (encodeLog rs).length ≤ 2 ^ 29)
    (hrep : replayRecords hdrSize rs (Mem.start 0) = some mem) :
    ∃ s : Sys, ∃ v c, s.Starts ∧ s.Is (.opened v) ∧ v.Wf c ∧ v.mem = mem ∧
      v.start.toNat + (encodeLog v.rs).length ≤ 2 ^ 30 := by
  have hmx := maxFileSize_eq
  obtain ⟨s, hs, his⟩ := logFile_starts (by omega) hrep 0
  have hfit : Fits hdrSize rs := by
    refine Or.inr ?_
    change 4096 + (encodeLog rs).length ≤ maxFileSize
    omega
  obtain ⟨c, hc⟩ := View.wf_of_replay hfit hrep
  refine ⟨s, _, c, hs, his, hc, rfl, ?_⟩
  change 4096 + (encodeLog rs).length ≤ 2 ^ 30
  omega

/-- After the wrap a push on one queue takes over a message of another. -/
theorem queues_not_isolated :
    ¬ ∀ (s₀ s s' : Sys) (as : List Act) (e : Event) (res : Result) (db : Db)
        (st : State) (n : QueueName), s₀.Starts →
      Run Sys.Returns s₀ as s → e.call.OneQueue →
      s.step e = some (res, s') → s.db = some db → db.state = some st →
      ¬ e.call.On st n → s.SameQueue n s' := by
  intro hall
  obtain ⟨mem, x, hrep, hnext, hx, hxn⟩ := wrappedLog_replay
  have hlen : (encodeLog wrappedLog).length ≤ 2 ^ 29 :=
    le_trans (length_encodeLog_le _) (by decide)
  obtain ⟨s, v, c, hs, his, hc, hmem, hroom⟩ := shortLog_starts hlen hrep
  obtain ⟨s', hstep, db', i', hdb', hlive'⟩ := his.push_second hc hroom
  obtain ⟨db, i, hdb, hlive⟩ := his
  have hsame := hall s s s' [] ⟨0, .push secondQueue (.buf [])⟩ _ db _
    roundName hs .nil trivial hstep hdb hlive.state (by
      change ¬ queueArg secondQueue = some roundName
      decide +kernel)
  obtain ⟨db₁, st₁, db₂, st₂, hdb₁, hst₁, hdb₂, hst₂, hq, -⟩ := hsame
  rw [hdb] at hdb₁
  cases hdb₁
  have heq := hst₁.symm.trans hlive.state
  rw [hmem] at heq
  cases heq
  have hkept := (hq.msgs 1 x hxn).mpr hx
  rw [hdb'] at hdb₂
  cases hdb₂
  cases hst₂.symm.trans hlive'.state
  change (v.mem.st.addMsg (newMsg v.mem.nextMsgId _ _ _)).coreGet 1 =
    some x at hkept
  rw [State.coreGet_addMsg, hmem, hnext] at hkept
  cases hkept
  cases hxn

end Systems

end Qdb
