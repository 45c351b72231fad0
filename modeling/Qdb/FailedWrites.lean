import Qdb.CrashSafety
import Qdb.Payload
import Qdb.Reached

/-!
# Failing writes on one handle

An application keeps using its handle while single writes and syncs fail.  A
call whose header update fails has logged its record and moved the end of the
log, but not the tables; from then on the tables and the log disagree about the
message.  As long as every call acts on messages on which they agree, the log
stays one that replay accepts (`failed_writes_openable`); a retry of the failed
call is what breaks it (`failed_ack_unopenable`).
-/

namespace Qdb

open Lib

/-- The calls on a handle that leave it open. -/
def Call.Works : Call → Prop
  | .openDb _ => False
  | .close => False
  | _ => True

/-- A step of an application with one handle: it opens the database, or a call
on its valid handle returns, in which writes and syncs may fail. -/
inductive Sys.Falters (s : Sys) : Act → Sys → Prop
  | opens {now : UInt64} {t : UInt32} {s' : Sys} (hdb : s.db = none)
      (h : s.step ⟨now, .openDb t⟩ = some (.code .ok, s')) :
      Falters s (.call ⟨now, .openDb t⟩ none (.code .ok)) s'
  | call {e : Event} {res : Result} {db : Db} {st : State} {w' : World}
      {db' : Option Db} (hdb : s.db = some db) (hst : db.state = some st)
      (hcall : e.call.Works)
      (h : Prog.Exec (Faulty True) (callCmd (some db) e.call)
        { s.world with now := e.now } (res, db') w') :
      Falters s (.call e s.nextId res) ⟨w', db'⟩

/-- The tables that `qdb__replay_log` builds from the log of the handle. -/
def Sys.logState (s : Sys) : Option State :=
  s.db.bind fun db =>
    (Prog.run posix (replayLog { db with state := none }) s.world).bind
      fun r => if r.1.1 = .ok then r.1.2.state else none

/-- The messages a call acts on, as the tables `st` have them. -/
inductive State.ActsOn (st : State) (now : UInt64) : Call → UInt64 → Prop
  | pop {queue : Option CString} {q : Queue} {m : Msg}
      (hname : queueArg queue = some q.name)
      (hq : st.queueGet q.name = some q) (hc : st.Candidate q m) :
      ActsOn st now (.pop queue true) m.id
  | popAny {q : Queue} {m : Msg} (hq : st.queueGet q.name = some q)
      (hc : st.Candidate q m)
      (hmin : ∀ q' ∈ st.queues, ∀ m', st.Candidate q' m' → m.id ≤ m'.id) :
      ActsOn st now (.popAny true) m.id
  | ack {id l : UInt64} {m : Msg} (hm : st.msgGet id = some m)
      (hs : m.state = .leased) (hl : m.leaseId = l) :
      ActsOn st now (.ack id l) id
  | nack {id l : UInt64} {m : Msg} (hm : st.msgGet id = some m)
      (hs : m.state = .leased) (hl : m.leaseId = l) :
      ActsOn st now (.nack id l) id
  | expire {l : Lease} (hl : l ∈ st.leases) (hlt : l.expiryUs < now) :
      ActsOn st now .processExpired l.msgId

/-- State and lease of a message. -/
def State.holdOf (st : State) (id : UInt64) : Option (MsgState × UInt64) :=
  (st.msgGet id).map fun m => (m.state, m.leaseId)

/-- The tables of the handle and those of its log agree on every message the
call acts on, and the id the call gives out is in neither of them. -/
def Sys.InStep (s : Sys) (e : Event) : Prop :=
  ∀ db st st', s.db = some db → db.state = some st → s.logState = some st' →
    db.Fresh st e.call ∧ db.Fresh st' e.call ∧
      ∀ id, st.ActsOn e.now e.call id → st.holdOf id = st'.holdOf id

/-- A step of the application when its call is in step with the log. -/
def Sys.FaltersInStep (s : Sys) (a : Act) (s' : Sys) : Prop :=
  (∀ e id res, a = .call e id res → s.InStep e) ∧ s.Falters a s'

/-- What the records of a view say. -/
def View.LogSays (v : View) (k : Content) : Prop :=
  replayContent v.start v.rs Content.empty = some k

section Log

variable {v : View} {c k k' : Content} {r : Record} {mem : Mem}

theorem View.LogSays.shown (h : v.LogSays k) : ∃ st : State, st.Shows k := by
  have hs0 : (Mem.start 0).st.Shows Content.empty := State.Shows.start
  obtain ⟨mem, -, hs⟩ := hs0.replay_some h
  exact ⟨mem.st, hs⟩

theorem View.LogSays.key (h : v.LogSays k) {id : UInt64} {x : Msg}
    (hx : k.msg id = some x) : x.id = id := by
  obtain ⟨st, hs⟩ := h.shown
  obtain ⟨m, -, rfl, hid⟩ := hs.of_msg hx
  exact hid

theorem View.LogSays.log (h : v.LogSays k)
    (hr : r.effect v.logEnd k = some k') (mem : Mem) :
    (v.log r mem).LogSays k' := by
  unfold View.LogSays
  change replayContent v.start (v.rs ++ [r]) Content.empty = some k'
  rw [replayContent_append, show replayContent v.start v.rs Content.empty =
    some k from h, Option.bind_some, replayContent_singleton]
  exact hr

theorem View.LogSays.rejects (h : v.LogSays k)
    (hr : r.effect v.logEnd k = none) (n : UInt64) :
    replayRecords v.start (v.rs ++ [r]) (Mem.start n) = none := by
  have hs0 : (Mem.start n).st.Shows Content.empty := State.Shows.start
  have hrep := hs0.replay v.start (v.rs ++ [r])
  rw [replayContent_append, show replayContent v.start v.rs Content.empty =
    some k from h, Option.bind_some, replayContent_singleton] at hrep
  rw [show r.effect (v.start + UInt64.ofNat (encodeLog v.rs).length) k = none
    from hr] at hrep
  exact hrep

end Log

section Handle

variable {F : Prop} {w : World} {db : Db} {v : View} {i : Nat} {k : Content}

/-- The tables that replay of the log of the handle builds. -/
theorem Live.logState_of_replay (h : Live F w db v i) {n : UInt64} {mem : Mem}
    (hrep : replayRecords v.start v.rs (Mem.start n) = some mem) :
    (⟨w, some db⟩ : Sys).logState = some mem.st := by
  have hcount := replayRecords_counters hrep db.nextMsgId db.nextLeaseId
  rw [← h.logStart] at hcount
  have hrun := (h.framed.withoutState.reads_replayLog hcount).run
  rw [Sys.logState, Option.bind_some, hrun]
  rfl

/-- Replay accepts the log of the handle and builds what it says. -/
theorem Live.logState_some (h : Live F w db v i) (hk : v.LogSays k) :
    ∃ st, (⟨w, some db⟩ : Sys).logState = some st ∧ st.Shows k := by
  have hs0 : (Mem.start 1).st.Shows Content.empty := State.Shows.start
  obtain ⟨mem, hmem, hs⟩ := hs0.replay_some hk
  exact ⟨mem.st, h.logState_of_replay hmem, hs⟩

theorem Live.logState_none (h : Live F w db v i)
    (hrep : ∀ n, replayRecords v.start v.rs (Mem.start n) = none) :
    (⟨w, some db⟩ : Sys).logState = none := by
  have hnone : ∀ mem : Mem, mem.st = .empty →
      replayRecords db.logStartOffset v.rs mem = none := by
    intro mem hst
    rw [h.logStart]
    cases hm : replayRecords v.start v.rs mem with
    | none =>
        rfl
    | some mem' =>
        have hc := replayRecords_counters hm 0 1
        rw [hst, show (⟨0, 1, .empty⟩ : Mem) = Mem.start 0 from rfl,
          hrep 0] at hc
        cases hc
  obtain ⟨db', -, -, hr⟩ := h.framed.withoutState.reads_replayLog_corrupt
    (hnone _ rfl)
  rw [Sys.logState, Option.bind_some, hr.run]
  rfl

theorem Live.atTime (h : Live F w db v i) (now : UInt64) :
    Live F { w with now := now } db v i :=
  h.transport rfl rfl rfl (Nat.le_refl _) rfl rfl

theorem Live.weaken {G : Prop} (h : Live F w db v i) (hFG : F → G) :
    Live G w db v i :=
  { h with
    keeps := DbFile.Kept.mono h.keeps fun _ hB => hB.imp hFG id }

/-- A clean close of the handle. -/
theorem Live.closes (h : Live F w db v i) (now : UInt64) :
    ∃ s : Sys, (⟨w, some db⟩ : Sys).step ⟨now, .close⟩ =
        some (.code .ok, s) ∧ s.Is (.closed v.closed) := by
  obtain ⟨u, w', hrun, hrest⟩ :=
    (wp_qdbClose (h.atTime now)).run (faulty_posix False)
  refine ⟨⟨w', none⟩, ?_, hrest.is⟩
  change (Prog.run posix (qdbClose db >>= fun _ =>
    pure (Result.code .ok, none)) { w with now := now }).map _ = _
  rw [Prog.run_bind, hrun]
  rfl

/-- The next open of a closed file whose log replay accepts. -/
theorem Sys.Is.open_ok {s : Sys} {d : DbFile} (h : s.Is (.closed d))
    {mem : Mem} (hrep : d.replay = some mem) (now : UInt64) (t : UInt32) :
    ∃ s', s.step ⟨now, .openDb t⟩ = some (.code .ok, s') := by
  have hwf : (Phase.closed d).WellFormed := by
    intro v hv
    cases hv
  obtain ⟨res, s', ph', hs, hst, -⟩ := h.step hwf ⟨now, .openDb t⟩
  cases hst with
  | null _ hc =>
      exact absurd trivial hc
  | openDb _ _ =>
      exact ⟨s', hs⟩
  | openCorrupt _ hnone =>
      rw [hrep] at hnone
      cases hnone

/-- After a close and an open the database is there again. -/
def Sys.Reopens (s : Sys) : Prop :=
  ∀ now now' t, ∃ s₁ s₂, s.step ⟨now, .close⟩ = some (.code .ok, s₁) ∧
    s₁.step ⟨now', .openDb t⟩ = some (.code .ok, s₂)

theorem Live.reopens (h : Live F w db v i) (hk : v.LogSays k) :
    (⟨w, some db⟩ : Sys).Reopens := by
  intro now now' t
  obtain ⟨s₁, hs, his⟩ := h.closes now
  have hs0 : (Mem.start v.mem.nextMsgId).st.Shows Content.empty :=
    State.Shows.start
  obtain ⟨mem, hmem, -⟩ := hs0.replay_some hk
  obtain ⟨s₂, ho⟩ := his.open_ok hmem now' t
  exact ⟨s₁, s₂, hs, ho⟩

end Handle

section Agreement

variable {v v' : View} {c k : Content} {st' : State} {now : UInt64}
variable {call : Call} {r : Record} {half full : Mem} {res : Result}

/-- The id that a call on the view gives out is not in the log either. -/
def Content.FreshFor (k : Content) (mem : Mem) : Call → Prop
  | .push _ _ => mem.nextMsgId ≠ 0 ∧ k.msg mem.nextMsgId = none
  | .pop _ _ => mem.nextLeaseId ≠ 0 ∧ k.lease mem.nextLeaseId = none
  | .popAny _ => mem.nextLeaseId ≠ 0 ∧ k.lease mem.nextLeaseId = none
  | _ => True

/-- The view and its log are in step for the call. -/
structure View.InStep (v : View) (k : Content) (now : UInt64)
    (call : Call) : Prop where
  fresh : v.Fresh call
  logFresh : k.FreshFor v.mem call
  agree : ∀ id, v.mem.st.ActsOn now call id →
    v.mem.st.holdOf id = (k.msg id).map fun m => (m.state, m.leaseId)

/-- What the tables of the log say of a message. -/
theorem State.Shows.holdOf {st : State} (h : st.Shows k) (id : UInt64) :
    st.holdOf id = (k.msg id).map fun m => (m.state, m.leaseId) := by
  unfold State.holdOf
  cases hm : st.msgGet id with
  | none =>
      rw [h.msg_none.mp hm, Option.map_none]
  | some m =>
      rw [h.msgGet hm]
      rfl

/-- The head of a queue that a delivery takes. -/
theorem View.Wf.candidate (h : v.Wf c) {q : Queue} {m : Msg}
    (hm : v.mem.st.msgGet m.id = some m)
    (hq : v.mem.st.queueGet m.queueName = some q)
    (hcount : q.pendingCount > 0)
    (hhead : (c.pend m.queueName).head? = some m.id) :
    q.name = m.queueName ∧ v.mem.st.Candidate q m := by
  have hlink := h.shows.rep.lists.linked m.queueName
  rw [State.queueOr_of_get hq] at hlink
  have heq : q.pendingHead = m.id := by
    rw [hlink.head_eq, List.headD_eq_head?_getD, hhead]
    rfl
  have h0 := h.shows.rep.id_ne_zero m.id m.core (State.coreGet_of_msgGet hm)
  refine ⟨State.queueGet_name hq, hcount, ?_, ?_⟩
  · rw [heq]
    exact h0
  · rw [heq]
    exact hm

theorem View.InStep.held (h : v.InStep k now call) {id l : UInt64} {m : Msg}
    (hact : v.mem.st.ActsOn now call id) (hm : v.mem.st.msgGet id = some m)
    (hs : m.state = .leased) (hl : m.leaseId = l) :
    ∃ x, k.held id l = some x := by
  have hagree := h.agree id hact
  unfold State.holdOf at hagree
  rw [hm, Option.map_some, hs, hl] at hagree
  obtain ⟨x, hx, heq⟩ := Option.map_eq_some_iff.mp hagree.symm
  exact ⟨x, Content.held_eq_some.mpr
    ⟨hx, congrArg Prod.fst heq, congrArg Prod.snd heq⟩⟩

/-- The log admits the record of a call that is in step with it. -/
theorem View.InStep.effect (h : v.InStep k now call) (hwf : v.Wf c)
    (hlog : v.Logs c now call r half full res) :
    ∃ k', r.effect v.logEnd k = some k' := by
  cases hlog with
  | @push queue data b harg =>
      obtain ⟨h0, hnone⟩ := h.logFresh
      rw [Record.effect, entry_pushRecord, Option.bind_some]
      exact ⟨_, Content.apply_push.mpr ⟨h0, hnone, rfl⟩⟩
  | @deliver call q m hcall hm hs hq hcount hhead hmin =>
      obtain ⟨hn, hcand⟩ := hwf.candidate hm hq hcount hhead
      have hq' : v.mem.st.queueGet q.name = some q := by
        rw [hn]
        exact hq
      have hact : v.mem.st.ActsOn now call m.id := by
        rcases hcall with ⟨queue, rfl, harg⟩ | rfl
        · exact .pop (by rw [hn]; exact harg) hq' hcand
        · exact .popAny hq' hcand (hmin rfl)
      have hfree : v.mem.nextLeaseId ≠ 0 ∧
          k.lease v.mem.nextLeaseId = none := by
        rcases hcall with ⟨queue, rfl, -⟩ | rfl
        · exact h.logFresh
        · exact h.logFresh
      have hagree := h.agree m.id hact
      unfold State.holdOf at hagree
      rw [hm, Option.map_some, hs] at hagree
      obtain ⟨x, hx, heq⟩ := Option.map_eq_some_iff.mp hagree.symm
      have hsx : x.state = .pending := congrArg Prod.fst heq
      refine ⟨k.leaseMsg x v.mem.nextLeaseId (now + v.leaseTimeoutUs), ?_⟩
      rw [Record.effect, entry_leaseRecord, Option.bind_some]
      change (k.leasable m.id v.mem.nextLeaseId).map _ = _
      rw [Content.leasable_eq_some.mpr ⟨hfree.1, hfree.2, hx, hsx⟩]
      rfl
  | @ack id l m hm hs hl =>
      obtain ⟨x, hx⟩ := h.held (.ack hm hs hl) hm hs hl
      refine ⟨k.ackMsg x l, ?_⟩
      rw [Record.effect, entry_ackRecord, Option.bind_some]
      change (k.held _ _).map _ = _
      rw [hx]
      rfl
  | @nack id l m hm hs hl =>
      obtain ⟨x, hx⟩ := h.held (.nack hm hs hl) hm hs hl
      refine ⟨k.nackMsg x l, ?_⟩
      rw [Record.effect, entry_nackRecord, Option.bind_some]
      change (k.held _ _).map _ = _
      rw [hx]
      rfl

/-- A record in the log alone leaves the tables well formed. -/
theorem View.Wf.half_logged (h : v.Wf c) (r : Record) (hst : half.st = v.mem.st) :
    (v.log r half).Wf c where
  shows := by
    change half.st.Shows c
    rw [hst]
    exact h.shows
  located := fun id x hx => (h.located id x hx).append [r]

/-- Tables and log after a move. -/
theorem View.Wf.falters (h : v.Wf c) (hk : v.LogSays k) {k' : Content}
    {res' : Result} (hst : half.st = v.mem.st)
    (hr : r.replay v.logEnd v.mem = some full)
    (he : r.effect v.logEnd k = some k')
    (ho : (Move.log r half full res).Outcome True v res' v') :
    ∃ c' k', v'.Wf c' ∧ v'.LogSays k' := by
  cases ho with
  | io hio =>
      exact ⟨c, k, h, hk⟩
  | half hF =>
      exact ⟨c, k', h.half_logged r hst, hk.log he half⟩
  | full hfit =>
      obtain ⟨c', -, hwf⟩ := h.logged hr hfit
      exact ⟨c', k', hwf, hk.log he full⟩

theorem View.Logs.half_st (h : v.Logs c now call r half full res) :
    half.st = v.mem.st := by
  cases h <;> rfl

/-- A call that logs at most one record. -/
theorem View.Wf.move_falters (h : v.Wf c) (hk : v.LogSays k)
    (hin : v.InStep k now call) {mv : Move}
    (hmv : v.move now call = some mv) (ho : mv.Outcome True v res v') :
    ∃ c' k', v'.Wf c' ∧ v'.LogSays k' := by
  cases mv with
  | refuse res' =>
      cases ho with
      | refuse _ =>
          exact ⟨c, k, h, hk⟩
  | log r half full res' =>
      have hlog := h.logs hmv
      obtain ⟨k', hk'⟩ := hin.effect h hlog
      exact h.falters hk hlog.half_st (h.logs_replays hin.fresh hlog) hk' ho

end Agreement

section Expiry

variable {F : Prop} {v v' : View} {c k : Content} {now : UInt64}
variable {l : Lease} {ls : List Lease} {rc : Rc}

/-- The first lease of an expiry. -/
theorem ExpireEnd.cons_inv (h : ExpireEnd F now v (l :: ls) rc v') :
    ExpireEnd F now (v.expireStep now l) ls rc v' ∨
      (l.expiryUs < now ∧
        (v.expire l.leaseId l.msgId).Outcome F v (.code .errIo) v') := by
  rcases h with ⟨rfl, rfl⟩ | ⟨rfl, ls1, l', ls2, hsplit, hlt, ho⟩
  · exact Or.inl (Or.inl ⟨rfl, rfl⟩)
  · cases ls1 with
    | nil =>
        cases hsplit
        exact Or.inr ⟨hlt, ho⟩
    | cons x ls1 =>
        cases hsplit
        exact Or.inl (Or.inr ⟨rfl, ls1, l', ls2, rfl, hlt, ho⟩)

theorem ExpireEnd.nil_inv (h : ExpireEnd F now v [] rc v') : v' = v := by
  rcases h with ⟨-, rfl⟩ | ⟨-, ls1, l', ls2, hsplit, -⟩
  · rfl
  · simp at hsplit

/-- Tables and log after an expiry whose messages are held in the log. -/
theorem View.Wf.expiry_falters (h : v.Wf c) (hk : v.LogSays k)
    (hnd : (ls.map Lease.leaseId).Nodup)
    (hls : ∀ l ∈ ls, c.lease l.leaseId = some l)
    (hheld : ∀ l ∈ ls, l.expiryUs < now →
      ∃ x, k.held l.msgId l.leaseId = some x)
    (hend : ExpireEnd True now v ls rc v') (hfit : v'.Fits) :
    ∃ c' k', v'.Wf c' ∧ v'.LogSays k' := by
  induction ls generalizing v c k with
  | nil =>
      rw [hend.nil_inv]
      exact ⟨c, k, h, hk⟩
  | cons l ls ih =>
      rw [List.map_cons, List.nodup_cons] at hnd
      have htail : ∀ x ∈ ls, x.leaseId ≠ l.leaseId := by
        intro x hx heq
        exact hnd.1 (List.mem_map.mpr ⟨x, hx, heq⟩)
      have hl := hls l List.mem_cons_self
      by_cases hlt : l.expiryUs < now
      swap
      · have hstep : v.expireStep now l = v := if_neg hlt
        rcases hend.cons_inv with hend | ⟨hlt', -⟩
        · rw [hstep] at hend
          exact ih h hk hnd.2 (fun x hx => hls x (List.mem_cons_of_mem _ hx))
            (fun x hx => hheld x (List.mem_cons_of_mem _ hx)) hend
        · exact absurd hlt' hlt
      -- the record of this lease, in the tables and in the log
      obtain ⟨m, hm, hs, hlm, hmv⟩ := h.expire_eq hl
      have hr := (h.resolve_replays hm hs hlm).2.2
      obtain ⟨y, hy⟩ := hheld l List.mem_cons_self hlt
      have he : (expireRecord l.msgId l.leaseId).effect v.logEnd k =
          some (k.nackMsg y l.leaseId) := by
        rw [Record.effect, entry_expireRecord, Option.bind_some]
        change (k.held _ _).map _ = _
        rw [hy]
        rfl
      rcases hend.cons_inv with hend | ⟨-, ho⟩
      swap
      · rw [hmv] at ho
        exact h.falters hk rfl hr he ho
      have hstep : v.expireStep now l =
          v.after (v.expire l.leaseId l.msgId) := if_pos hlt
      rw [hstep] at hend
      have hfit1 : (v.after (v.expire l.leaseId l.msgId)).Fits := by
        obtain ⟨hs', rest, hrs⟩ := hend.grows
        unfold View.Fits at hfit ⊢
        rw [hs', ← hrs] at hfit
        exact hfit.of_append
      obtain ⟨x, hx, -, hlx, hwf⟩ := h.expire_logged hl hfit1
      have hk1 : (v.after (v.expire l.leaseId l.msgId)).LogSays
          (k.nackMsg y l.leaseId) := by
        rw [hmv]
        exact hk.log he _
      refine ih hwf hk1 hnd.2 ?_ ?_ hend
      · intro z hz
        exact (Function.update_of_ne (htail z hz) _ _).trans
          (hls z (List.mem_cons_of_mem _ hz))
      · -- the other leases are on other messages
        intro z hz hzlt
        obtain ⟨u, hu⟩ := hheld z (List.mem_cons_of_mem _ hz) hzlt
        have hyid : y.id = l.msgId :=
          hk.key (Content.held_eq_some.mp hy).1
        have hne : z.msgId ≠ y.id := by
          rw [hyid]
          intro heq
          have hcz := hls z (List.mem_cons_of_mem _ hz)
          rw [← heq] at hx
          exact htail z hz ((h.lease_inj hcz hx).symm.trans hlx)
        obtain ⟨hum, hus⟩ := Content.held_eq_some.mp hu
        refine ⟨u, Content.held_eq_some.mpr ⟨?_, hus⟩⟩
        exact (Function.update_of_ne hne _ _).trans hum

end Expiry

section Steps

variable {s s' : Sys} {a : Act}

/-- The handle is valid, its tables are well formed, and replay accepts its
log. -/
def Sys.Logging (s : Sys) : Prop :=
  ∃ db i v c k, s.db = some db ∧ Live True s.world db v i ∧ v.Wf c ∧
    v.LogSays k

/-- The handle has lost its tables in a compaction. -/
def Sys.Invalid (s : Sys) : Prop :=
  ∃ db, s.db = some db ∧ db.state = none

/-- The condition on the call, as the view has it. -/
theorem Live.inStep {w : World} {db : Db} {v : View} {i : Nat} {k : Content}
    (h : Live True w db v i) (hk : v.LogSays k) {e : Event}
    (hin : (⟨w, some db⟩ : Sys).InStep e) : v.InStep k e.now e.call := by
  obtain ⟨st', hst', hs⟩ := h.logState_some hk
  obtain ⟨hf, hf', hagree⟩ := hin db v.mem.st st' rfl h.state hst'
  refine ⟨?_, ?_, ?_⟩
  · unfold Db.Fresh at hf
    rw [h.nextMsgId, h.nextLeaseId] at hf
    revert hf
    cases e.call <;> exact fun hf => hf
  · unfold Db.Fresh at hf'
    rw [h.nextMsgId, h.nextLeaseId] at hf'
    revert hf'
    rw [hs.lease]
    cases e.call <;> first
      | exact fun hf => ⟨hf.1, hs.msg_none.mp hf.2⟩
      | exact fun hf => hf
  · intro id hid
    rw [hagree id hid, hs.holdOf]

/-- How a call on a valid handle ends when writes and syncs may fail. -/
theorem Live.falters {w w' : World} {db : Db} {v : View} {i : Nat}
    {c k : Content} (h : Live True w db v i) (hwf : v.Wf c)
    (hk : v.LogSays k) {call : Call} (hcall : call.Works)
    (hin : v.InStep k w.now call) {res : Result} {db' : Option Db}
    (he : Prog.Exec (Faulty True) (callCmd (some db) call) w (res, db') w') :
    (⟨w', db'⟩ : Sys).Logging ∨ (⟨w', db'⟩ : Sys).Invalid := by
  have hmove : ∀ {mv : Move}, v.move w.now call = some mv →
      (⟨w', db'⟩ : Sys).Logging := by
    intro mv hmv
    obtain ⟨db1, hdb1, -, ⟨v', ho, hlive⟩, -⟩ :=
      (wp_move h hwf.located_msg hmv).exec he
    obtain ⟨c', k', hwf', hk'⟩ := hwf.move_falters hk hin hmv ho
    exact ⟨db1, i, v', c', k', hdb1, hlive, hwf', hk'⟩
  cases call with
  | openDb t =>
      exact hcall.elim
  | close =>
      exact hcall.elim
  | processExpired =>
      obtain ⟨-, rc, v', db1, -, hdb1, hend, hlive⟩ :=
        (wp_processExpired h hwf.shows.rep.placed.leases).exec he
      have hget := hwf.leases.2.1
      obtain ⟨c', k', hwf', hk'⟩ := hwf.expiry_falters hk hwf.leases.1 hget
        (by
          intro l hl hlt
          obtain ⟨m, hm, hs, hlm, -⟩ := hwf.expire_eq (hget l hl)
          exact hin.held (.expire hl hlt) hm hs hlm) hend hlive.fits
      exact Or.inl ⟨db1, i, v', c', k', hdb1, hlive, hwf', hk'⟩
  | compact =>
      obtain ⟨mem, d, hmem, hshows, hcomp, -, -⟩ := hwf.compact w.now
      rcases (wp_qdbCompact h hwf.shows.rep.walkable hwf.located_msg hmem).exec
        he with ⟨heq, -, hlive⟩ | ⟨db1, heq, hlive⟩ | ⟨-, db1, heq, -, hst, -⟩
      · cases heq
        exact Or.inl ⟨db, i, v, c, k, rfl, hlive, hwf, hk⟩
      · cases heq
        have hs0 : (Mem.start v.mem.nextMsgId).st.Shows Content.empty :=
          State.Shows.start
        obtain ⟨k', hk', -⟩ := hs0.of_replay hmem
        exact Or.inl ⟨db1, _, _, d, k', rfl, hlive,
          hwf.compacted hshows hcomp hlive.fits, hk'⟩
      · cases heq
        exact Or.inr ⟨db1, rfl, hst⟩
  | _ =>
      exact Or.inl (hmove rfl)

/-- Where the application can be. -/
def Sys.OneHandle (s : Sys) : Prop :=
  s = Sys.init ∨ s.Logging ∨ s.Invalid

/-- The handle of a log that replay has accepted. -/
theorem Live.logging {w : World} {db : Db} {i : Nat} {rs : List Record}
    {mem : Mem} {t ct start n : UInt64} {fl : UInt32}
    (h : Live False w db ⟨rs, mem, t, ct, start, fl⟩ i)
    (hrep : replayRecords start rs (Mem.start n) = some mem) :
    (⟨w, some db⟩ : Sys).Logging := by
  obtain ⟨c, hwf⟩ := View.wf_of_replay h.fits hrep
  have hs0 : (Mem.start n).st.Shows Content.empty := State.Shows.start
  obtain ⟨k, hk, -⟩ := hs0.of_replay hrep
  exact ⟨db, i, _, c, k, rfl, h.weaken False.elim, hwf, hk⟩

theorem Sys.Starts.oneHandle (h : s.Starts) : s.OneHandle := by
  cases h with
  | new =>
      exact Or.inl rfl
  | image h hopen =>
      obtain ⟨m, rs, v, mem, db, -, -, hrep, hdb, hlive⟩ := h.opened hopen
      obtain ⟨w, db?⟩ := s
      cases hdb
      exact Or.inr (Or.inl (hlive.logging hrep))

/-- The creation of the database. -/
theorem Sys.init_opens {now : UInt64} {t : UInt32}
    (h : Sys.init.step ⟨now, .openDb t⟩ = some (.code .ok, s')) :
    s'.Logging := by
  have hwf : Phase.absent.WellFormed := by
    intro v hv
    cases hv
  have his : Sys.init.Is .absent := ⟨rfl, rfl, rfl, rfl⟩
  obtain ⟨res, s₁, ph', hs, hst, his'⟩ := his.step hwf ⟨now, .openDb t⟩
  rw [h] at hs
  cases hs
  obtain ⟨w, db?⟩ := s'
  cases hst with
  | create _ =>
      obtain ⟨db, i, hdb, hlive⟩ := his'
      cases hdb
      exact hlive.logging (n := 1) rfl

theorem Sys.OneHandle.step (h : s.OneHandle) (hs : s.FaltersInStep a s') :
    s'.OneHandle := by
  obtain ⟨hin, hs⟩ := hs
  cases hs with
  | opens hdb hopen =>
      rcases h with rfl | ⟨db, i, v, c, k, hdb', -⟩ | ⟨db, hdb', -⟩
      · exact Or.inr (Or.inl (Sys.init_opens hopen))
      · rw [hdb] at hdb'
        cases hdb'
      · rw [hdb] at hdb'
        cases hdb'
  | @call e res db st w' db' hdb hst hcall hexec =>
      right
      obtain ⟨w, db?⟩ := s
      cases hdb
      rcases h with heq | ⟨db1, i, v, c, k, hdb', hlive, hwf, hk⟩ |
        ⟨db1, hdb', hnone⟩
      · cases heq
      · cases hdb'
        have hstep := hlive.inStep hk (hin e _ _ rfl)
        exact (hlive.atTime e.now).falters hwf hk hcall hstep hexec
      · cases hdb'
        rw [hst] at hnone
        cases hnone

end Steps

/-- As long as tables and log agree on what the calls act on, replay accepts
the log of the handle, and a close and an open succeed, whatever writes and
syncs have failed. -/
theorem failed_writes_openable {s s' : Sys} {as : List Act} (h : s.Starts)
    (hrun : Run Sys.FaltersInStep s as s') {db : Db} {st : State}
    (hdb : s'.db = some db) (hst : db.state = some st) :
    s'.logState.isSome ∧ s'.Reopens := by
  have hone : s'.OneHandle := hrun.invariant
    (P := fun _ t => t.OneHandle) h.oneHandle
    fun _ _ _ _ _ ht hs => ht.step hs
  obtain ⟨w, db?⟩ := s'
  cases hdb
  rcases hone with heq | ⟨db1, i, v, c, k, hdb', hlive, -, hk⟩ |
    ⟨db1, hdb', hnone⟩
  · cases heq
  · cases hdb'
    obtain ⟨st', hst', -⟩ := hlive.logState_some hk
    refine ⟨?_, hlive.reopens hk⟩
    rw [hst']
    rfl
  · cases hdb'
    rw [hst] at hnone
    cases hnone

section Retry

variable {w : World} {db : Db} {v : View} {i : Nat} {id l : UInt64} {m : Msg}

/-- The append of a record that fits may succeed. -/
theorem Live.exec_append (h : Live True w db v i) (r : Record)
    (hfit : Fits v.start (v.rs ++ [r])) :
    ∃ w', Prog.Exec (Faulty True)
        (appendRecord db.fd r.type r.payload db.logEndOffset) w
        (.ok, db.logEndOffset + UInt64.ofNat r.size) w' ∧
      InFile i w (Appended True v r) w' := by
  have hend := h.toNat_logEnd
  obtain ⟨x, w', hrun, hx⟩ := (wp_appendRecord (F := False) r h.keeps
    hend).run (faulty_posix False)
  rw [← h.fd] at hrun
  have hexec : Prog.Exec (Faulty True) _ w x w' :=
    Prog.Exec.of_run (faulty_posix True) hrun
  have hmax : db.logEndOffset.toNat + r.size ≤ maxFileSize := by
    rcases hfit with h0 | hmax
    · simp at h0
    · rw [encodeLog_snoc, List.length_append, Record.length_encode] at hmax
      omega
  rcases hx with ⟨rfl, -, hin⟩ | ⟨-, hF | hlt, -⟩
  · refine ⟨w', hexec, hin.1, ?_⟩
    unfold Appended DbFile.Kept
    rw [encodeLog_snoc]
    exact hin.2
  · exact hF.elim
  · omega

/-- The header update may fail without having written anything. -/
theorem exec_headerUpdate_fails (fd : Fd) (db : Db) (w : World) :
    Prog.Exec (Faulty True) (headerUpdate fd db) w .errIo w := by
  unfold headerUpdate
  rw [Prog.exec_bind]
  refine ⟨.errIo, w, ?_, ?_⟩
  · unfold writeFull
    rw [pwrite, Prog.exec_perform]
    exact Or.inr ⟨trivial, rfl, Or.inl rfl⟩
  · rw [if_pos (by simp)]
    exact ⟨rfl, rfl⟩

/-- It may also succeed. -/
theorem exec_headerUpdate_ok {r : Record} {w₁ : World}
    (h : InFile i w (Appended True v r) w₁) (db₁ : Db) (mem : Mem) :
    ∃ w₂, Prog.Exec (Faulty True) (headerUpdate (some i) db₁) w₁ .ok w₂ ∧
      InFile i w ((v.log r mem).Holds True) w₂ := by
  obtain ⟨rc, w₂, hrun, hx⟩ := (wp_headerUpdate (F := False) db₁ h.2).run
    (faulty_posix False)
  rcases hx with ⟨rfl, hin⟩ | ⟨hF, -⟩
  · exact ⟨w₂, Prog.Exec.of_run (faulty_posix True) hrun, h.1.trans hin.1,
      FileState.Keeps.mono hin.2 fun _ _ => Or.inl trivial⟩
  · exact hF.elim

/-- An acknowledgement of a leased message may fail in its header update, and
it may succeed. -/
theorem Live.exec_ack (h : Live True w db v i)
    (hm : v.mem.st.msgGet id = some m) (hs : m.state = .leased)
    (hl : m.leaseId = l)
    (hfit : Fits v.start (v.rs ++ [ackRecord id l])) :
    (∃ w' db', Prog.Exec (Faulty True) (callCmd (some db) (.ack id l)) w
        (.code .errIo, some db') w' ∧
      Live True w' db' (v.log (ackRecord id l) v.mem) i) ∧
    ∃ w' db', Prog.Exec (Faulty True) (callCmd (some db) (.ack id l)) w
        (.code .ok, some db') w' ∧
      Live True w' db' (v.log (ackRecord id l)
        { v.mem with st := qdbAckState v.mem.st m l }) i := by
  obtain ⟨w₁, happ, h₁⟩ := h.exec_append _ hfit
  obtain ⟨db₁, hdb₁⟩ : ∃ x, x = { db with
      logEndOffset :=
        db.logEndOffset + UInt64.ofNat (ackRecord id l).size } := ⟨_, rfl⟩
  have hfd : db₁.fd = some i := by
    rw [hdb₁]
    exact h.fd
  -- the call up to its header update
  have hcall : ∀ {rc : Rc} {db' : Db} {w' : World} {rch : Rc},
      Prog.Exec (Faulty True) (headerUpdate (some i) db₁) w₁ rch w' →
      (rc, db') = (if rch ≠ .ok then (.errIo, db₁) else (.ok, { db₁ with
        state := some (qdbAckState v.mem.st m l) })) →
      Prog.Exec (Faulty True) (callCmd (some db) (.ack id l)) w
        (.code rc, some db') w' := by
    intro rc db' w' rch hhead heq
    change Prog.Exec _ (qdbAck db id l >>= fun x =>
      pure (Result.code x.1, some x.2)) _ _ _
    rw [Prog.exec_bind]
    refine ⟨(rc, db'), w', ?_, rfl, rfl⟩
    unfold qdbAck resolveCall
    rw [h.state]
    dsimp only
    rw [hm]
    dsimp only
    rw [if_neg (by rw [hs]; decide), if_neg (by rw [hs]; simp),
      if_neg (by rw [hl]; simp)]
    unfold resolveLease
    rw [Prog.exec_bind]
    refine ⟨_, w₁, happ, ?_⟩
    dsimp only
    rw [if_neg (by simp), Prog.exec_bind]
    subst hdb₁
    refine ⟨rch, w', ?_, ?_⟩
    · rw [← h.fd] at hhead
      exact hhead
    · by_cases hok : rch ≠ .ok
      · rw [if_pos hok] at heq ⊢
        exact ⟨heq, rfl⟩
      · rw [if_neg hok] at heq ⊢
        exact ⟨heq, rfl⟩
  constructor
  · refine ⟨w₁, db₁, hcall (exec_headerUpdate_fails _ _ _) rfl, ?_⟩
    refine h.logged ⟨h₁.1, DbFile.Kept.mono h₁.2 fun _ _ =>
      Or.inl trivial⟩ ?_
    rw [hdb₁, ← h.nextMsgId, ← h.nextLeaseId, ← h.state]
  · obtain ⟨w₂, hok, h₂⟩ := exec_headerUpdate_ok h₁ db₁
      { v.mem with st := qdbAckState v.mem.st m l }
    refine ⟨w₂, _, hcall hok rfl, h.logged h₂ ?_⟩
    rw [hdb₁, ← h.nextMsgId, ← h.nextLeaseId]

/-- A second acknowledgement of the message is not admitted by the log. -/
theorem View.LogSays.ack_twice {k k' : Content} {id l : UInt64}
    (hk : v.LogSays k) (he : (ackRecord id l).effect v.logEnd k = some k')
    (mem : Mem) (n : UInt64) :
    replayRecords v.start (v.rs ++ [ackRecord id l] ++ [ackRecord id l])
      (Mem.start n) = none := by
  refine (hk.log he mem).rejects ?_ n
  rw [Record.effect, entry_ackRecord, Option.bind_some] at he ⊢
  obtain ⟨x, hheld, rfl⟩ := Option.map_eq_some_iff.mp he
  have hid := hk.key (Content.held_eq_some.mp hheld).1
  have hnone : (k.ackMsg x l).held id l = none := by
    rw [Option.eq_none_iff_forall_not_mem]
    intro y hy
    obtain ⟨hy, hsy, -⟩ := Content.held_eq_some.mp hy
    change Function.update k.msg x.id (some x.asAcked) id = some y at hy
    rw [hid, Function.update_self] at hy
    cases hy
    cases hsy
  change ((k.ackMsg x l).held id l).map _ = none
  rw [hnone]
  rfl

variable {s s' : Sys} {c : Content} {e : Event} {res : Result}

/-- Without faults the tables and the log always agree. -/
theorem Sys.Is.inStep (h : s.Is (.opened v)) (hinv : v.Inv c)
    (hn : v.Counting) (e : Event) : s.InStep e := by
  intro db st st' hdb hst hst'
  obtain ⟨w, db?⟩ := s
  obtain ⟨db₁, i, hdb₁, hlive⟩ := h
  cases hdb
  cases hdb₁
  have heq := hst.symm.trans hlive.state
  cases heq
  have hs0 : (Mem.start v.mem.nextMsgId).st.Shows Content.empty :=
    State.Shows.start
  obtain ⟨k, hk, hshows⟩ := hs0.of_replay hinv.stable
  obtain ⟨st₁, hst₁, hs₁⟩ := hlive.logState_some hk
  rw [hst'] at hst₁
  cases hst₁
  have hfresh := hinv.wf.fresh hinv.bounded hn e.call
  have hmsg : ∀ id, v.mem.st.msgGet id = none → st'.msgGet id = none :=
    fun id hid => hs₁.msg_none.mpr (hshows.msg_none.mp hid)
  have hlease : st'.leaseGet = v.mem.st.leaseGet :=
    hs₁.lease.trans hshows.lease.symm
  refine ⟨?_, ?_, fun id _ => by rw [hshows.holdOf, hs₁.holdOf]⟩
  · unfold Db.Fresh
    rw [hlive.nextMsgId, hlive.nextLeaseId]
    revert hfresh
    cases e.call <;> exact fun hf => hf
  · unfold Db.Fresh
    rw [hlive.nextMsgId, hlive.nextLeaseId, hlease]
    revert hfresh
    cases e.call <;> first
      | exact fun hf => ⟨hf.1, hmsg _ hf.2⟩
      | exact fun hf => hf

/-- A call without faults is a step of the application. -/
theorem Small.falters {k : Nat} {id : Option UInt64} (h : Small s v c k)
    (hn : v.Counting) (hcall : e.call.Works)
    (hs : s.CountedReturns (.call e id res) s') :
    s.FaltersInStep (.call e id res) s' := by
  obtain ⟨rfl, hstep⟩ := hs.2.inv
  refine ⟨?_, ?_⟩
  · intro e' id' res' heq
    cases heq
    exact h.is.inStep h.inv hn e
  · obtain ⟨db, i, hdb, hlive⟩ := h.is
    obtain ⟨w', db'⟩ := s'
    refine .call hdb hlive.state hcall ?_
    obtain ⟨x, hrun, hx⟩ := Option.map_eq_some_iff.mp hstep
    rw [hdb] at hrun
    cases hx
    exact Prog.Exec.of_run (faulty_posix True) hrun

/-- The acts of an acknowledgement that fails. -/
def failedAckActs : List Act :=
  [.call ⟨0, .openDb 0⟩ none (.code .ok),
    .call ⟨0, .push roundQueue (.buf [])⟩ (some 1) (.code .ok),
    .call ⟨0, .pop roundQueue true⟩ (some 2) (.msg ⟨1, 1, roundName, [], 0⟩),
    .call ⟨0, .ack 1 1⟩ (some 2) (.code .errIo)]

/-- After the failure the call is made again. -/
def retriedAckActs : List Act :=
  failedAckActs ++ [.call ⟨0, .ack 1 1⟩ (some 2) (.code .ok)]

/-- A message is pushed and popped; its acknowledgement fails in the header
update, and a second one succeeds. -/
theorem exists_failed_ack :
    ∃ s₁ s₂ : Sys, Run Sys.FaltersInStep Sys.init failedAckActs s₁ ∧
      (∃ db st, s₁.db = some db ∧ db.state = some st) ∧
      s₁.Falters (.call ⟨0, .ack 1 1⟩ (some 2) (.code .ok)) s₂ ∧
      ∃ w db v i c, s₂ = ⟨w, some db⟩ ∧ Live True w db v i ∧
        (∀ n, replayRecords v.start v.rs (Mem.start n) = none) ∧
        v.Wf c ∧ v.mem.st.jobs = [] ∧ v.mem.nextMsgId = 2 := by
  obtain ⟨sa, hcreate, hidle⟩ := Idle.create 0 0
  obtain ⟨sb, hpush, hpushed⟩ := hidle.push (by decide) (by decide)
  obtain ⟨sc, hpop, hpopped⟩ := hpushed.pop (by decide) (by decide) (by decide)
  obtain ⟨va, ca, hsa, -, hm1, hl1⟩ := hidle
  obtain ⟨vb, cb, hsb, -, -, hm2, hl2⟩ := hpushed
  obtain ⟨v, c, c', m, hsc, hm, hsm, hlm, hm3, hl3, hwf', hempty⟩ :=
    hpopped.acked (by decide)
  have hopen : Sys.init.FaltersInStep
      (.call ⟨0, .openDb 0⟩ none (.code .ok)) sa := by
    refine ⟨?_, .opens rfl hcreate.2.inv.2⟩
    intro e id res _ db st st' hdb
    cases hdb
  have hworks : ∀ q d, (Call.push q d).Works ∧ (Call.pop q true).Works :=
    fun _ _ => ⟨trivial, trivial⟩
  have hpush := hsa.falters ⟨by rw [hm1]; decide, by rw [hl1]; decide⟩
    (hworks roundQueue (.buf [])).1 hpush
  have hpop := hsb.falters ⟨by rw [hm2]; decide, by rw [hl2]; decide⟩
    (hworks roundQueue (.buf [])).2 hpop
  have hnc : v.Counting := ⟨by rw [hm3]; decide, by rw [hl3]; decide⟩
  have hnext : sc.nextId = some 2 := by
    rw [hsc.nextId, hm3]
    rfl
  have hstep := hsc.is.inStep hsc.inv hnc ⟨0, .ack 1 1⟩
  obtain ⟨w, db?⟩ := sc
  obtain ⟨db, i, hdb, hlive⟩ := hsc.is
  cases hdb
  have hlive := (hlive.weaken (G := True) False.elim).atTime 0
  obtain ⟨⟨w₁, db₁, hfail, hlive₁⟩, -⟩ := hlive.exec_ack hm hsm hlm
    (hsc.fits (by decide) _)
  have hlen : (encodeLog (v.rs ++ [ackRecord 1 1])).length ≤ 2 ^ 62 := by
    have h1 := hsc.short
    have h2 := (ackRecord 1 1).size_le
    rw [encodeLog_snoc, List.length_append, Record.length_encode]
    have h3 : maxRecord ≤ 2 ^ 32 := by decide
    omega
  have hfit₁ : Fits v.start (v.rs ++ [ackRecord 1 1] ++ [ackRecord 1 1]) := by
    rw [hsc.start]
    exact fits_snoc hlen _
  obtain ⟨-, w₂, db₂, hok, hlive₂⟩ :=
    (hlive₁.atTime 0).exec_ack hm hsm hlm hfit₁
  have hnext₁ : (⟨w₁, some db₁⟩ : Sys).nextId = some 2 := by
    change some db₁.nextMsgId = some 2
    rw [hlive₁.nextMsgId]
    exact congrArg some hm3
  have hack : (⟨w, some db⟩ : Sys).Falters
      (.call ⟨0, .ack 1 1⟩ (some 2) (.code .errIo)) ⟨w₁, some db₁⟩ := by
    rw [← hnext]
    exact .call rfl hlive.state trivial hfail
  have hretry : (⟨w₁, some db₁⟩ : Sys).Falters
      (.call ⟨0, .ack 1 1⟩ (some 2) (.code .ok)) ⟨w₂, some db₂⟩ := by
    rw [← hnext₁]
    exact .call rfl hlive₁.state trivial hok
  have hs0 : (Mem.start v.mem.nextMsgId).st.Shows Content.empty :=
    State.Shows.start
  obtain ⟨k, hk, hshows⟩ := hs0.of_replay hsc.inv.stable
  have hk : v.LogSays k := hk
  have heff : ∃ k', (ackRecord 1 1).effect v.logEnd k = some k' := by
    refine ⟨k.ackMsg m.core 1, ?_⟩
    rw [Record.effect, entry_ackRecord, Option.bind_some]
    change (k.held _ _).map _ = _
    rw [Content.held_eq_some.mpr ⟨hshows.msgGet hm, hsm, hlm⟩]
    rfl
  obtain ⟨k', hk'⟩ := heff
  -- the tables are those of an acknowledgement that has not failed
  have hwf₁ : (v.log (ackRecord 1 1) v.mem).Wf c :=
    hsc.inv.wf.half_logged _ rfl
  obtain ⟨c₂, -, hwf₂⟩ :=
    hwf₁.logged (hwf₁.resolve_replays hm hsm hlm).1 hfit₁
  refine ⟨⟨w₁, some db₁⟩, ⟨w₂, some db₂⟩, ?_, ⟨db₁, _, rfl, hlive₁.state⟩,
    hretry, w₂, db₂, _, i, c₂, rfl, hlive₂, hk.ack_twice hk' v.mem, hwf₂,
    hwf'.jobs_empty hempty, hm3⟩
  exact (((Run.nil.snoc hopen).snoc hpush).snoc hpop).snoc ⟨by
    intro e id res heq
    cases heq
    exact hstep, hack⟩

/-- After the failed acknowledgement alone the database opens again. -/
theorem failed_writes_openable_ack :
    ∃ s : Sys, Run Sys.FaltersInStep Sys.init failedAckActs s ∧
      s.logState.isSome ∧ s.Reopens := by
  obtain ⟨s, -, hrun, ⟨db, st, hdb, hst⟩, -⟩ := exists_failed_ack
  exact ⟨s, hrun, failed_writes_openable .new hrun hdb hst⟩

/-- A retry of an acknowledgement whose header update failed leaves a log that
replay rejects: the database closes and does not open again. -/
theorem failed_ack_unopenable :
    ∃ s s₁ s₂ : Sys, Run Sys.Falters Sys.init retriedAckActs s ∧
      s.logState = none ∧
      s.step ⟨0, .close⟩ = some (.code .ok, s₁) ∧
      s₁.step ⟨0, .openDb 0⟩ = some (.code .errCorrupt, s₂) := by
  obtain ⟨sa, s, hrun, -, hretry, w, db, v, i, c, rfl, hlive, hrep, -⟩ :=
    exists_failed_ack
  obtain ⟨s₁, hclose, his⟩ := hlive.closes 0
  obtain ⟨s₂, hopen⟩ := his.open_corrupt (hrep _) 0 0
  exact ⟨_, s₁, s₂, (hrun.mono fun _ _ _ h => h.2).snoc hretry,
    hlive.logState_none hrep, hclose, hopen⟩

end Retry

end Qdb
