import Qdb.Reached
import Qdb.Stats

/-!
# The queue table

Whatever the environment answers and whatever the ids are, no call links a
queue name into the table twice, and no call but `qdb_compact` and `qdb_close`
takes a name out of it.  `State.Extends` relates the tables before and after an
update; `Db.Keeps` says it of the handle that a call returns.
-/

namespace Qdb

open Lib

/-- The names of the queue table are distinct and counted. -/
structure State.QueuesOk (st : State) : Prop where
  placed : Table.WellPlaced queueBucket Queue.name st.queueBuckets
  sized : st.Sized

/-- The queues of `st` are still there in `st'`, whose table is as good. -/
structure State.Extends (st st' : State) : Prop where
  kept : ∀ n, (st.queueGet n).isSome → (st'.queueGet n).isSome
  ok : st.QueuesOk → st'.QueuesOk

namespace State.Extends

variable {st st' st'' : State}

theorem refl (st : State) : st.Extends st :=
  ⟨fun _ h => h, fun h => h⟩

theorem trans (h : st.Extends st') (h' : st'.Extends st'') :
    st.Extends st'' :=
  ⟨fun n hn => h'.kept n (h.kept n hn), fun hok => h'.ok (h.ok hok)⟩

theorem msgInsert (st : State) (m : Msg) : st.Extends (st.msgInsert m) :=
  ⟨fun _ h => h, fun h => ⟨h.placed, h.sized.msgInsert m⟩⟩

theorem modifyMsg (st : State) (id : UInt64) (f : Msg → Msg) :
    st.Extends (st.modifyMsg id f) :=
  ⟨fun _ h => h, fun h => ⟨h.placed, h.sized.modifyMsg id f⟩⟩

theorem leaseInsert (st : State) (l : Lease) : st.Extends (st.leaseInsert l) :=
  ⟨fun _ h => h, fun h => ⟨h.placed, h.sized.leaseInsert l⟩⟩

theorem leaseRemove (st : State) (l : UInt64) :
    st.Extends (st.leaseRemove l) where
  kept := by
    intro n hn
    rw [queueGet_leaseRemove]
    exact hn
  ok := by
    intro h
    refine ⟨?_, h.sized.leaseRemove l⟩
    rw [queueBuckets_leaseRemove]
    exact h.placed

theorem queueInsert {n : QueueName} (hn : st.queueGet n = none) :
    st.Extends (st.queueInsert n) where
  kept := by
    intro n' hn'
    rw [queueGet_queueInsert]
    split
    · rfl
    · exact hn'
  ok := fun h => ⟨h.placed.insert hn, h.sized.queueInsert n⟩

theorem modifyQueue (st : State) (n : QueueName)
    {a b c : Queue → UInt32} {d e : Queue → UInt64} :
    st.Extends (st.modifyQueue n fun x =>
      { x with
        pendingCount := a x, leasedCount := b x, ackedCount := c x
        pendingHead := d x, pendingTail := e x }) where
  kept := by
    intro n' hn'
    rw [queueGet_modifyQueue_fields]
    split
    · next heq =>
      rw [Option.isSome_map, ← heq]
      exact hn'
    · exact hn'
  ok := fun h => ⟨h.placed.modify n _ (fun q hq => hq),
    h.sized.modifyQueue n _⟩

theorem queuePendingAppend (st : State) (q : Queue) (m : Msg) :
    st.Extends (st.queuePendingAppend q m) := by
  unfold State.queuePendingAppend
  dsimp only
  refine trans ?_ (modifyQueue _ _)
  split
  · exact (modifyMsg _ _ _).trans (modifyMsg _ _ _)
  · exact (modifyMsg _ _ _).trans (modifyQueue _ _)

theorem queuePendingRemove (st : State) (q : Queue) (m : Msg) :
    st.Extends (st.queuePendingRemove q m) := by
  unfold State.queuePendingRemove
  dsimp only
  refine trans (trans ?_ (modifyMsg _ _ _)) (modifyQueue _ _)
  split <;> split
  · exact (modifyMsg _ _ _).trans (modifyMsg _ _ _)
  · exact (modifyMsg _ _ _).trans (modifyQueue _ _)
  · exact (modifyQueue _ _).trans (modifyMsg _ _ _)
  · exact (modifyQueue _ _).trans (modifyQueue _ _)

theorem replayLeaseState (st : State) (q : Queue) (m : Msg) (l e : UInt64) :
    st.Extends (replayLeaseState st q m l e) :=
  (((queuePendingRemove st q m).trans (modifyMsg _ _ _)).trans
    (modifyQueue _ _)).trans (leaseInsert _ _)

theorem replayAckState (st : State) (q : Queue) (m : Msg) (l : UInt64) :
    st.Extends (replayAckState st q m l) :=
  ((leaseRemove st l).trans (modifyMsg _ _ _)).trans
    (modifyQueue _ _)

theorem replayNackState (st : State) (q : Queue) (m : Msg) (l : UInt64) :
    st.Extends (replayNackState st q m l) :=
  (((leaseRemove st l).trans (modifyMsg _ _ _)).trans
    (modifyQueue _ _)).trans (queuePendingAppend _ q m)

theorem qdbAckState (st : State) (m : Msg) (l : UInt64) :
    st.Extends (qdbAckState st m l) := by
  unfold Qdb.qdbAckState
  dsimp only
  refine trans (trans ?_ (leaseRemove _ _)) (modifyMsg _ _ _)
  split
  · exact refl st
  · exact modifyQueue _ _

theorem qdbNackState (st : State) (m : Msg) (l : UInt64) :
    st.Extends (qdbNackState st m l) := by
  unfold Qdb.qdbNackState
  dsimp only
  have hstart := (leaseRemove st l).trans (modifyMsg (st.leaseRemove l) m.id
    fun x => { x with
      state := .pending
      leaseId := 0
      leaseExpiryUs := 0
      retryCount := x.retryCount + 1 })
  split
  · exact hstart
  · exact (hstart.trans (modifyQueue _ _)).trans
      (queuePendingAppend _ _ _)

/-- `qdb__queue_get_or_create` -/
theorem queueGetOrCreate (st : State) (n : QueueName) :
    Prog.Post (fun x => ∀ q st', x = some (q, st') →
      st.Extends st' ∧ (st'.queueGet n).isSome) (st.queueGetOrCreate n) := by
  unfold State.queueGetOrCreate
  cases hn : st.queueGet n with
  | some q =>
      rintro q' st' heq
      cases heq
      exact ⟨refl st, by rw [hn]; rfl⟩
  | none =>
      intro b
      cases b with
      | false =>
          rintro q' st' heq
          cases heq
      | true =>
          rintro q' st' heq
          cases heq
          refine ⟨queueInsert hn, ?_⟩
          rw [queueGet_queueInsert, if_pos rfl]
          rfl

end State.Extends

/-- The queues of the handle are still there in `db'`. -/
def Db.Keeps (db db' : Db) : Prop :=
  db'.state = db.state ∨ ∃ st st', db.state = some st ∧
    db'.state = some st' ∧ st.Extends st'

/-- The queue table of the handle, if it has one, is well formed. -/
def Db.QueuesOk (db : Db) : Prop :=
  ∀ st, db.state = some st → st.QueuesOk

namespace Db.Keeps

variable {db db' : Db}

theorem of_state (h : db'.state = db.state) : db.Keeps db' :=
  Or.inl h

theorem refl (db : Db) : db.Keeps db :=
  of_state rfl

theorem of_extends {st st' : State} (h : db.state = some st)
    (h' : db'.state = some st') (hext : st.Extends st') : db.Keeps db' :=
  Or.inr ⟨st, st', h, h', hext⟩

theorem trans {db'' : Db} (h : db.Keeps db') (h' : db'.Keeps db'') :
    db.Keeps db'' := by
  rcases h with h | ⟨st, st', hst, hst', hext⟩
  · unfold Db.Keeps at h'
    rw [h] at h'
    exact h'
  · rcases h' with h' | ⟨st1, st'', hst1, hst'', hext'⟩
    · exact of_extends hst (h'.trans hst') hext
    · rw [hst'] at hst1
      cases hst1
      exact of_extends hst hst'' (hext.trans hext')

theorem queuesOk (h : db.Keeps db') (hok : db.QueuesOk) :
    db'.QueuesOk := by
  intro st' hst'
  rcases h with h | ⟨st, st1, hst, hst1, hext⟩
  · exact hok st' (h ▸ hst')
  · rw [hst'] at hst1
    cases hst1
    exact hext.ok (hok st hst)

/-- A queue of the handle is one of the handle that the call returns. -/
theorem kept (h : db.Keeps db') {st : State} (hst : db.state = some st) :
    ∃ st', db'.state = some st' ∧
      ∀ n, (st.queueGet n).isSome → (st'.queueGet n).isSome := by
  rcases h with h | ⟨st1, st', hst1, hst', hext⟩
  · exact ⟨st, h.trans hst, fun _ hn => hn⟩
  · rw [hst] at hst1
    cases hst1
    exact ⟨st', hst', hext.kept⟩

end Db.Keeps

section Calls

variable {db : Db}

/-- The queue that a successful `qdb_push` was called with is there. -/
def Db.Queued (db : Db) (queue : Option CString) : Prop :=
  ∃ n st, queueArg queue = some n ∧ db.state = some st ∧
    (st.queueGet n).isSome

/-- `qdb_push` keeps the queues. -/
theorem post_qdbPush (db : Db) (queue : Option CString) (data : DataArg) :
    Prog.Post (fun x => db.Keeps x.2 ∧ (x.1 = .ok → x.2.Queued queue))
      (qdbPush db queue data) := by
  have hsame : ∀ (rc : Rc) (db' : Db), rc ≠ .ok → db'.state = db.state →
      db.Keeps db' ∧ (rc = .ok → db'.Queued queue) := by
    intro rc db' hrc hst
    exact ⟨.of_state hst, fun h => absurd h hrc⟩
  unfold qdbPush
  cases hq : queueArg queue with
  | none =>
      exact hsame .errInval _ (by simp) rfl
  | some name =>
      dsimp only
      split
      · exact hsame .errInval _ (by simp) rfl
      split
      · exact hsame .errInval _ (by simp) rfl
      refine Prog.post_bind (Prog.post_true _) fun b _ => ?_
      split
      · exact hsame .errNomem _ (by simp) rfl
      refine Prog.post_bind (Prog.post_true _) fun x _ => ?_
      split
      · next hrc =>
        exact hsame x.1 _ hrc rfl
      refine Prog.post_bind (Prog.post_true _) fun rc _ => ?_
      split
      · exact hsame .errIo _ (by simp) rfl
      refine Prog.post_bind (Prog.post_true _) fun b _ => ?_
      split
      · exact hsame .errNomem _ (by simp) rfl
      cases hst : db.state with
      | none =>
          trivial
      | some st =>
          refine Prog.post_bind (State.Extends.queueGetOrCreate _ name)
            fun y hy => ?_
          cases y with
          | none =>
              exact ⟨.of_extends hst rfl (.msgInsert _ _),
                fun h => by cases h⟩
          | some y =>
              obtain ⟨q, st'⟩ := y
              obtain ⟨hext, hsome⟩ := hy q st' rfl
              have happ := State.Extends.queuePendingAppend st' q
              refine ⟨.of_extends hst rfl
                ((State.Extends.msgInsert _ _).trans (hext.trans (happ _))),
                fun _ => ⟨name, _, hq, rfl, (happ _).kept _ hsome⟩⟩

/-- `do_pop` -/
theorem post_doPop {st : State} (hst : db.state = some st) (q : Queue)
    (m : Msg) : Prog.Post (fun x => db.Keeps x.2.1) (doPop db st q m) := by
  unfold doPop
  refine Prog.post_bind (Prog.post_true _) fun b _ => ?_
  split
  · exact .refl db
  refine Prog.post_bind (Prog.post_true _) fun r _ => ?_
  cases r with
  | error rc =>
      exact .refl db
  | ok data =>
      refine Prog.post_bind (Prog.post_true _) fun b _ => ?_
      split
      · exact .refl db
      refine Prog.post_bind (Prog.post_true _) fun now _ => ?_
      refine Prog.post_bind (Prog.post_true _) fun x _ => ?_
      dsimp only
      split
      · exact .refl db
      refine Prog.post_bind (Prog.post_true _) fun rc _ => ?_
      split
      · exact .of_state rfl
      exact .of_extends hst rfl (.replayLeaseState st q m _ _)

/-- `qdb_pop` -/
theorem post_qdbPop (db : Db) (queue : Option CString) (out : Bool) :
    Prog.Post (fun x => db.Keeps x.2.1) (qdbPop db queue out) := by
  unfold qdbPop
  split
  · exact .refl db
  split
  · exact .refl db
  cases hst : db.state with
  | none =>
      trivial
  | some st =>
      dsimp only
      split
      · exact .refl db
      split
      · exact .refl db
      split
      · exact .refl db
      · exact post_doPop hst _ _

/-- `qdb_pop_any` -/
theorem post_qdbPopAny (db : Db) (out : Bool) :
    Prog.Post (fun x => db.Keeps x.2.1) (qdbPopAny db out) := by
  unfold qdbPopAny
  split
  · exact .refl db
  cases hst : db.state with
  | none =>
      trivial
  | some st =>
      dsimp only
      split
      · exact .refl db
      · exact .refl db
      · exact post_doPop hst _ _

/-- The common part of `qdb_ack`, `qdb_nack` and `expire_one`. -/
theorem post_resolveLease {type : UInt8}
    {update : State → Msg → UInt64 → State}
    (hup : ∀ (st : State) (m : Msg) (l : UInt64),
      st.Extends (update st m l)) {st : State}
    (hst : db.state = some st) (m : Msg) (id l : UInt64) :
    Prog.Post (fun x => db.Keeps x.2)
      (resolveLease type update db st m id l) := by
  unfold resolveLease
  refine Prog.post_bind (Prog.post_true _) fun x _ => ?_
  dsimp only
  split
  · exact .refl db
  refine Prog.post_bind (Prog.post_true _) fun rc _ => ?_
  split
  · exact .of_state rfl
  exact .of_extends hst rfl (hup st m l)

theorem post_resolveCall {type : UInt8}
    {update : State → Msg → UInt64 → State}
    (hup : ∀ (st : State) (m : Msg) (l : UInt64),
      st.Extends (update st m l)) (id l : UInt64) :
    Prog.Post (fun x => db.Keeps x.2)
      (resolveCall type update db id l) := by
  unfold resolveCall
  cases hst : db.state with
  | none =>
      trivial
  | some st =>
      dsimp only
      split
      · exact .refl db
      split
      · exact .refl db
      split
      · exact .refl db
      split
      · exact .refl db
      · exact post_resolveLease hup hst _ _ _

/-- `expire_one` -/
theorem post_expireOne {st : State} (hst : db.state = some st)
    (l id : UInt64) :
    Prog.Post (fun x => db.Keeps x.2) (expireOne db st l id) := by
  unfold expireOne
  split
  · exact .refl db
  split
  · exact .refl db
  · exact post_resolveLease .qdbNackState hst _ _ _

/-- The loops of `qdb_process_expired_leases`. -/
theorem post_expireChain (now : UInt64) (ls : List Lease) (db : Db)
    (n : Int32) :
    Prog.Post (fun x => db.Keeps x.2.1) (expireChain now ls db n) := by
  induction ls generalizing db n with
  | nil =>
      exact .refl db
  | cons l ls ih =>
      unfold expireChain
      split
      · cases hst : db.state with
        | none =>
            trivial
        | some st =>
            dsimp only
            refine Prog.post_bind (post_expireOne hst _ _) fun x hx => ?_
            split
            · exact hx
            · exact (ih _ _).mono fun y hy => hx.trans hy
      · exact ih _ _

theorem post_expireBuckets (now : UInt64) (bs : List (Fin 1024)) (db : Db)
    (n : Int32) :
    Prog.Post (fun x => db.Keeps x.2.1) (expireBuckets now bs db n) := by
  induction bs generalizing db n with
  | nil =>
      exact .refl db
  | cons b bs ih =>
      unfold expireBuckets
      cases hst : db.state with
      | none =>
          trivial
      | some st =>
          dsimp only
          refine Prog.post_bind (post_expireChain _ _ _ _) fun x hx => ?_
          split
          · exact hx
          · exact (ih _ _).mono fun y hy => hx.trans hy

end Calls

section Files

variable {db : Db}

theorem Db.QueuesOk.of_state {db' : Db} (h : db.QueuesOk)
    (hst : db'.state = db.state) : db'.QueuesOk := by
  intro st h'
  exact h st (hst ▸ h')

theorem Db.QueuesOk.of_none (h : db.state = none) : db.QueuesOk := by
  intro st hst
  rw [h] at hst
  cases hst

theorem state_headerDecode (buf : Bytes) (db : Db) :
    (headerDecode buf db).2.state = db.state := by
  unfold headerDecode
  dsimp only
  repeat' split
  all_goals rfl

theorem post_headerRead (fd : Fd) (db : Db) :
    Prog.Post (fun x => x.2.state = db.state) (headerRead fd db) := by
  unfold headerRead
  refine Prog.post_bind (Prog.post_true _) fun r _ => ?_
  cases r with
  | error rc =>
      rfl
  | ok sz =>
      dsimp only
      split
      · rfl
      refine Prog.post_bind (Prog.post_true _) fun r _ => ?_
      cases r with
      | error rc =>
          rfl
      | ok buf =>
          exact state_headerDecode buf db

theorem post_replayWalLoop (fd : Fd) (sz : UInt64) (fuel : Nat) (db : Db)
    (off : UInt64) : Prog.Post (fun x => x.2.state = db.state)
      (replayWalLoop fd sz fuel db off) := by
  induction fuel generalizing db off with
  | zero =>
      trivial
  | succ fuel ih =>
      unfold replayWalLoop
      split
      · rfl
      refine Prog.post_bind (Prog.post_true _) fun r _ => ?_
      have hrest : ∀ (type : UInt8) (next : UInt64) (payload : Bytes),
          Prog.Post (fun x => x.2.state = db.state)
            (appendRecord db.fd type payload db.logEndOffset >>= fun r =>
              if r.1 ≠ .ok then pure (r.1, db)
              else replayWalLoop fd sz fuel { db with logEndOffset := r.2 }
                next) := by
        intro type next payload
        refine Prog.post_bind (Prog.post_true _) fun x _ => ?_
        split
        · rfl
        · exact ih { db with logEndOffset := x.2 } next
      cases r with
      | scanEnd =>
          rfl
      | scanPartial =>
          rfl
      | err rc =>
          rfl
      | record type plen next =>
          dsimp only
          split
          · refine Prog.post_bind (Prog.post_true _) fun b _ => ?_
            split
            · rfl
            refine Prog.post_bind (Prog.post_true _) fun r _ => ?_
            cases r with
            | error rc =>
                rfl
            | ok bs =>
                exact hrest type next bs
          · exact hrest type next []

theorem post_replayWal (db : Db) :
    Prog.Post (fun x => x.2.state = db.state) (replayWal db) := by
  unfold replayWal
  refine Prog.post_bind (Prog.post_true _) fun r _ => ?_
  cases r with
  | error rc =>
      rfl
  | ok x =>
      refine Prog.post_bind (Prog.post_true _) fun r _ => ?_
      cases r with
      | error rc =>
          refine Prog.post_bind (Prog.post_true _) fun _ _ => ?_
          exact Prog.post_bind (Prog.post_true _) fun _ _ => rfl
      | ok sz =>
          dsimp only
          split
          · refine Prog.post_bind (Prog.post_true _) fun _ _ => ?_
            exact Prog.post_bind (Prog.post_true _) fun _ _ => rfl
          refine Prog.post_bind (Prog.post_true _) fun r _ => ?_
          cases r with
          | error rc =>
              exact Prog.post_bind (Prog.post_true _) fun _ _ => rfl
          | ok hdr =>
              dsimp only
              split
              · exact Prog.post_bind (Prog.post_true _) fun _ _ => rfl
              refine Prog.post_bind (post_replayWalLoop _ _ _ _ _)
                fun y hy => ?_
              refine Prog.post_bind (Prog.post_true _) fun _ _ => ?_
              split
              · exact hy
              refine Prog.post_bind (Prog.post_true _) fun rc _ => ?_
              split
              · exact hy
              · exact Prog.post_bind (Prog.post_true _) fun _ _ => hy

theorem post_validateLoop (fuel : Nat) (db : Db) (off : UInt64) :
    Prog.Post (fun x => x.2.state = db.state)
      (validateLoop fuel db off) := by
  induction fuel generalizing off with
  | zero =>
      trivial
  | succ fuel ih =>
      unfold validateLoop
      split
      · rfl
      refine Prog.post_bind (Prog.post_true _) fun r _ => ?_
      cases r with
      | scanEnd =>
          rfl
      | scanPartial =>
          refine Prog.post_bind (Prog.post_true _) fun rc _ => ?_
          split
          · rfl
          · exact Prog.post_bind (Prog.post_true _) fun _ _ => rfl
      | err rc =>
          rfl
      | record type plen next =>
          exact ih next

/-- What a record handler leaves: the tables extended, the handle's own state
pointer as it was. -/
def Replayed (db : Db) (st : State) (x : Except Rc (Db × State)) : Prop :=
  ∀ db' st', x = .ok (db', st') → db'.state = db.state ∧ st.Extends st'

theorem replayed_error (st : State) (rc : Rc) :
    Replayed db st (.error rc) := by
  intro db' st' h
  cases h

theorem replayed_ok {st st' : State} {db' : Db} (hdb : db'.state = db.state)
    (hst : st.Extends st') : Replayed db st (.ok (db', st')) := by
  intro db1 st1 h
  cases h
  exact ⟨hdb, hst⟩

theorem post_replayPush (db : Db) (st : State) (off : UInt64)
    (plen : UInt32) :
    Prog.Post (Replayed db st) (replayPush db st off plen) := by
  unfold replayPush
  split
  · exact replayed_error st _
  refine Prog.post_bind (Prog.post_true _) fun r _ => ?_
  cases r with
  | error rc =>
      exact replayed_error st _
  | ok buf =>
      dsimp only
      split
      · exact replayed_error st _
      split
      · exact replayed_error st _
      split
      · exact replayed_error st _
      refine Prog.post_bind (Prog.post_true _) fun r _ => ?_
      cases r with
      | error rc =>
          exact replayed_error st _
      | ok name =>
          dsimp only
          split
          · exact replayed_error st _
          refine Prog.post_bind (Prog.post_true _) fun b _ => ?_
          split
          · exact replayed_error st _
          split
          · refine Prog.post_bind
              (State.Extends.queueGetOrCreate _ _) fun y hy => ?_
            cases y with
            | none =>
                exact replayed_error st _
            | some y =>
                obtain ⟨q, st'⟩ := y
                obtain ⟨hext, -⟩ := hy q st' rfl
                refine replayed_ok ?_ ((State.Extends.msgInsert _ _).trans
                  (hext.trans (.queuePendingAppend _ _ _)))
                unfold replayPushIds
                split <;> rfl
          · trivial

theorem post_replayLease (db : Db) (st : State) (off : UInt64)
    (plen : UInt32) :
    Prog.Post (Replayed db st) (replayLease db st off plen) := by
  unfold replayLease
  split
  · exact replayed_error st _
  refine Prog.post_bind (Prog.post_true _) fun r _ => ?_
  cases r with
  | error rc =>
      exact replayed_error st _
  | ok buf =>
      dsimp only
      split
      · exact replayed_error st _
      split
      · exact replayed_error st _
      split
      · exact replayed_error st _
      split
      · exact replayed_error st _
      split
      · exact replayed_error st _
      refine Prog.post_bind (Prog.post_true _) fun b _ => ?_
      split
      · exact replayed_error st _
      refine replayed_ok ?_ (.replayLeaseState _ _ _ _ _)
      unfold replayLeaseIds
      split <;> rfl

theorem post_replayResolve {resolve : State → Queue → Msg → UInt64 → State}
    (hup : ∀ (st : State) (q : Queue) (m : Msg) (l : UInt64),
      st.Extends (resolve st q m l)) (db : Db) (st : State) (off : UInt64)
    (plen : UInt32) :
    Prog.Post (Replayed db st) (replayResolve resolve db st off plen) := by
  unfold replayResolve
  split
  · exact replayed_error st _
  refine Prog.post_bind (Prog.post_true _) fun r _ => ?_
  cases r with
  | error rc =>
      exact replayed_error st _
  | ok buf =>
      dsimp only
      split
      · exact replayed_error st _
      split
      · exact replayed_error st _
      split
      · exact replayed_error st _
      split
      · exact replayed_error st _
      · exact replayed_ok rfl (hup _ _ _ _)

theorem post_replayCheckpoint (db : Db) (st : State) (off : UInt64)
    (plen : UInt32) :
    Prog.Post (Replayed db st) (replayCheckpoint db st off plen) := by
  unfold replayCheckpoint
  split
  · exact replayed_error st _
  refine Prog.post_bind (Prog.post_true _) fun r _ => ?_
  cases r with
  | error rc =>
      exact replayed_error st _
  | ok buf =>
      refine replayed_ok ?_ (.refl st)
      unfold replayCheckpointIds
      dsimp only
      split <;> split <;> rfl

theorem post_replayRecord (type : UInt8) (db : Db) (st : State)
    (off : UInt64) (plen : UInt32) :
    Prog.Post (Replayed db st) (replayRecord type db st off plen) := by
  unfold replayRecord
  split
  · exact post_replayPush _ _ _ _
  split
  · exact post_replayLease _ _ _ _
  split
  · exact post_replayResolve .replayAckState _ _ _ _
  split
  · exact post_replayResolve .replayNackState _ _ _ _
  split
  · exact post_replayResolve .replayNackState _ _ _ _
  split
  · exact post_replayCheckpoint _ _ _ _
  split
  · exact replayed_ok rfl (.refl st)
  · exact replayed_error st _

/-- The loop of `qdb__replay_log`. -/
theorem post_replayLoop (fuel : Nat) {db : Db} {st : State} (off : UInt64)
    (hdb : db.state = none) (hst : st.QueuesOk) :
    Prog.Post (fun x => x.2.QueuesOk) (replayLoop fuel db st off) := by
  have hdone : ∀ {db : Db} {st : State}, st.QueuesOk →
      ({ db with state := some st } : Db).QueuesOk := by
    intro db st hok st' h
    cases h
    exact hok
  induction fuel generalizing db st off with
  | zero =>
      trivial
  | succ fuel ih =>
      unfold replayLoop
      split
      · exact hdone hst
      refine Prog.post_bind (Prog.post_true _) fun r _ => ?_
      cases r with
      | scanEnd =>
          exact hdone hst
      | scanPartial =>
          exact hdone hst
      | err rc =>
          exact .of_none hdb
      | record type plen next =>
          refine Prog.post_bind (post_replayRecord _ _ _ _ _) fun y hy => ?_
          cases y with
          | error rc =>
              exact .of_none hdb
          | ok y =>
              obtain ⟨hdb', hext⟩ := hy y.1 y.2 rfl
              exact ih next (hdb'.trans hdb) (hext.ok hst)

theorem queuesOk_empty : State.empty.QueuesOk :=
  ⟨Table.wellPlaced_empty, State.Sized.empty⟩

theorem post_replayLog (hdb : db.state = none) :
    Prog.Post (fun x => x.2.QueuesOk) (replayLog db) := by
  unfold replayLog
  refine Prog.post_bind (Prog.post_true _) fun b _ => ?_
  split
  · exact .of_none hdb
  · exact post_replayLoop _ _ hdb queuesOk_empty

theorem post_recoverScan (hdb : db.QueuesOk) :
    Prog.Post (fun x => x.2.QueuesOk) (recoverScan db) := by
  unfold recoverScan
  refine Prog.post_bind (post_validateLoop _ _ _) fun x hx => ?_
  dsimp only
  split
  · exact hdb.of_state hx
  refine Prog.post_bind (post_replayLog rfl) fun y hy => ?_
  split
  · exact hy
  · exact Prog.post_bind (Prog.post_true _) fun _ _ => hy.of_state rfl

theorem post_recoverFile (hdb : db.QueuesOk) :
    Prog.Post (fun x => x.2.QueuesOk) (recoverFile db) := by
  unfold recoverFile
  refine Prog.post_bind (Prog.post_true _) fun r _ => ?_
  cases r with
  | error rc =>
      exact hdb
  | ok sz =>
      dsimp only
      split
      · refine Prog.post_bind (Prog.post_true _) fun rc _ => ?_
        split
        · exact hdb
        · exact post_recoverScan hdb
      · exact post_recoverScan hdb

/-- The recovery of a file. -/
theorem post_recover (hdb : db.QueuesOk) :
    Prog.Post (fun x => x.2.QueuesOk) (recover db) := by
  rw [recover_eq]
  have hwal : Prog.Post (fun x => x.2.QueuesOk)
      (if db.flags &&& flagWalPresent ≠ 0 ∨ db.flags &&& flagDirty ≠ 0 then
        replayWal db else pure (.ok, db)) := by
    split
    · exact (post_replayWal db).mono fun x hx => hdb.of_state hx
    · exact hdb
  refine Prog.post_bind hwal fun x hx => ?_
  split
  · exact hx
  · exact post_recoverFile hx

/-- A step taken only under a condition, in front of the rest. -/
theorem post_first {α β : Type} {Q : β → Prop} {c : Prop} [Decidable c]
    {p : Cmd α} {q : Cmd β} (h : Prog.Post Q q) :
    Prog.Post Q (if c then p >>= fun _ => q else q) := by
  split
  · exact Prog.post_bind (Prog.post_true _) fun _ _ => h
  · exact h

/-- `qdb_open_err` -/
theorem post_qdbOpenErr (t : UInt32) :
    Prog.Post (fun x => ∀ db, x.2 = some db → db.QueuesOk)
      (qdbOpenErr t) := by
  have hfail : ∀ (db : Db) (rc : Rc),
      Prog.Post (fun x => ∀ db, x.2 = some db → db.QueuesOk)
        (openFail db rc) := by
    intro db rc
    refine Prog.post_bind (Prog.post_true _) fun _ _ => ?_
    intro db' h
    cases h
  have hret : ∀ {rc : Rc} {db : Db}, db.QueuesOk →
      ∀ db', ((rc, some db) : Rc × Option Db).2 = some db' →
        db'.QueuesOk := by
    intro rc db hok db' h
    cases h
    exact hok
  have hnew : ∀ db : Db,
      Prog.Post (fun x => ∀ db, x.2 = some db → db.QueuesOk)
        (openNew db) := by
    intro db
    unfold openNew
    refine Prog.post_bind (Prog.post_true _) fun now _ => ?_
    refine Prog.post_bind (Prog.post_true _) fun rc _ => ?_
    split
    · exact hfail _ _
    refine Prog.post_bind (Prog.post_true _) fun b _ => ?_
    split
    · exact hfail _ _
    · apply hret
      intro st hst
      cases hst
      exact queuesOk_empty
  have hold : ∀ db : Db, db.state = none →
      Prog.Post (fun x => ∀ db, x.2 = some db → db.QueuesOk)
        (openExisting db) := by
    intro db hdb
    unfold openExisting
    refine Prog.post_bind (post_headerRead _ _) fun x hx => ?_
    dsimp only
    split
    · exact hfail _ _
    have hnone : ({ x.2 with nextLeaseId := 1 } : Db).QueuesOk :=
      .of_none (hx.trans hdb)
    refine Prog.post_bind (post_recover hnone) fun y hy => ?_
    split
    · exact hfail _ _
    · exact hret hy
  unfold qdbOpenErr
  refine Prog.post_bind (Prog.post_true _) fun b _ => ?_
  split
  · intro db h
    cases h
  refine Prog.post_bind (Prog.post_true _) fun _ _ => ?_
  refine Prog.post_bind (Prog.post_true _) fun _ _ => ?_
  refine Prog.post_bind (Prog.post_true _) fun _ _ => ?_
  split
  · exact hfail _ _
  refine Prog.post_bind (Prog.post_true _) fun r _ => ?_
  cases r with
  | error rc =>
      exact hfail _ _
  | ok lockFd =>
      dsimp only
      refine Prog.post_bind (Prog.post_true _) fun rc _ => ?_
      split
      · exact Prog.post_bind (Prog.post_true _) fun _ _ => hfail _ _
      refine Prog.post_bind (Prog.post_true _) fun b _ => ?_
      refine post_first ?_
      refine Prog.post_bind (Prog.post_true _) fun r _ => ?_
      cases r with
      | error rc =>
          exact hfail _ _
      | ok x =>
          dsimp only
          split
          · exact hnew _
          · exact hold _ rfl

/-- `qdb__reopen_after_compact` -/
theorem post_reopenAfterCompact (hdb : db.QueuesOk) :
    Prog.Post (fun x => x.2.QueuesOk) (reopenAfterCompact db) := by
  have hfail : ∀ (db : Db) (rc : Rc),
      Prog.Post (fun x => x.2.QueuesOk) (reopenFail db rc) := by
    intro db rc
    unfold reopenFail
    split
    · exact Prog.post_bind (Prog.post_true _) fun _ _ => .of_none rfl
    · exact .of_none rfl
  unfold reopenAfterCompact
  refine post_first ?_
  refine Prog.post_bind (Prog.post_true _) fun r _ => ?_
  cases r with
  | error rc =>
      exact hfail _ _
  | ok x =>
      dsimp only
      refine Prog.post_bind (post_headerRead _ _) fun y hy => ?_
      split
      · exact hfail _ _
      have hok : ({ y.2 with nextLeaseId := 1 } : Db).QueuesOk :=
        hdb.of_state hy
      refine Prog.post_bind (post_recover hok) fun z hz => ?_
      split
      · exact hfail _ _
      · exact hz

/-- `qdb_compact` -/
theorem post_qdbCompactOn (target : Target) (hdb : db.QueuesOk) :
    Prog.Post (fun x => x.2.QueuesOk) (qdbCompactOn target db) := by
  unfold qdbCompactOn
  refine Prog.post_bind (Prog.post_true _) fun b _ => ?_
  split
  · exact hdb
  refine Prog.post_bind (Prog.post_true _) fun _ _ => ?_
  refine Prog.post_bind (Prog.post_true _) fun r _ => ?_
  cases r with
  | error rc =>
      exact Prog.post_bind (Prog.post_true _) fun _ _ => hdb
  | ok x =>
      dsimp only
      refine Prog.post_bind (Prog.post_true _) fun rc _ => ?_
      refine Prog.post_bind (Prog.post_true _) fun _ _ => ?_
      split
      · exact Prog.post_bind (Prog.post_true _) fun _ _ => hdb
      have hrename : ∀ db : Db, db.QueuesOk →
          Prog.Post (fun x => x.2.QueuesOk) (do
            let rc ← fileRename .compact .main
            if rc ≠ .ok then
              let _ ← fileDelete .compact
              return (rc, db)
            reopenAfterCompact db) := by
        intro db hok
        refine Prog.post_bind (Prog.post_true _) fun rc _ => ?_
        split
        · exact Prog.post_bind (Prog.post_true _) fun _ _ => hok
        · exact post_reopenAfterCompact hok
      split
      · refine Prog.post_bind (Prog.post_true _) fun _ _ => ?_
        exact hrename { db with fd := none } (hdb.of_state rfl)
      · exact hrename db hdb

end Files

/-- The calls that replace the handle's tables or drop the handle. -/
def Call.Rebuilds : Call → Prop
  | .openDb _ => True
  | .close => True
  | .compact => True
  | _ => False

/-- A call on an open handle that does not rebuild its tables. -/
theorem post_callCmd {db : Db} {call : Call} (hcall : ¬ call.Rebuilds) :
    Prog.Post (fun x => ∃ db', x.2 = some db' ∧ db.Keeps db' ∧
      ∀ queue data, call = .push queue data → x.1.rc = .ok →
        db'.Queued queue) (callCmd (some db) call) := by
  cases call with
  | openDb t =>
      exact absurd trivial hcall
  | close =>
      exact absurd trivial hcall
  | compact =>
      exact absurd trivial hcall
  | push queue data =>
      refine Prog.post_bind (post_qdbPush db queue data) fun x hx => ?_
      refine ⟨x.2, rfl, hx.1, ?_⟩
      intro queue' data' heq hok
      cases heq
      exact hx.2 hok
  | pop queue out =>
      refine Prog.post_bind (post_qdbPop db queue out) fun x hx => ?_
      exact ⟨x.2.1, rfl, hx, fun _ _ h => nomatch h⟩
  | popAny out =>
      refine Prog.post_bind (post_qdbPopAny db out) fun x hx => ?_
      exact ⟨x.2.1, rfl, hx, fun _ _ h => nomatch h⟩
  | ack id l =>
      refine Prog.post_bind (post_resolveCall .qdbAckState id l)
        fun x hx => ?_
      exact ⟨x.2, rfl, hx, fun _ _ h => nomatch h⟩
  | nack id l =>
      refine Prog.post_bind (post_resolveCall .qdbNackState id l)
        fun x hx => ?_
      exact ⟨x.2, rfl, hx, fun _ _ h => nomatch h⟩
  | processExpired =>
      unfold callCmd qdbProcessExpiredLeases
      generalize List.finRange 1024 = bs
      refine Prog.post_bind (Prog.post_bind (Prog.post_true _)
        fun now _ => post_expireBuckets now bs db 0) fun x hx => ?_
      exact ⟨x.2.1, rfl, hx, fun _ _ h => nomatch h⟩

/-- The queue table of the open handle is well formed. -/
def Sys.QueuesOk (s : Sys) : Prop :=
  ∀ db, s.db = some db → db.QueuesOk

section Steps

variable {s s' : Sys} {e : Event} {res : Result}

theorem post_queuesOk {db? : Option Db} (h : ∀ db, db? = some db → db.QueuesOk)
    {call : Call} :
    Prog.Post (fun x => ∀ db, x.2 = some db → db.QueuesOk)
      (callCmd db? call) := by
  have hnone : ∀ {res : Result} (db : Db),
      ((res, none) : Result × Option Db).2 = some db → db.QueuesOk := by
    intro res db hdb
    cases hdb
  by_cases hcall : call.Rebuilds
  · cases call with
    | openDb t =>
        refine Prog.post_bind (post_qdbOpenErr t) fun x hx => ?_
        intro db hdb
        rcases Option.or_eq_some_iff.mp hdb with h1 | ⟨-, h1⟩
        · exact hx db h1
        · exact h db h1
    | close =>
        cases db? with
        | none =>
            exact hnone
        | some db =>
            exact Prog.post_bind (Prog.post_true _) fun _ _ => hnone
    | compact =>
        cases db? with
        | none =>
            exact hnone
        | some db =>
            refine Prog.post_bind (post_qdbCompactOn .posix (h db rfl))
              fun x hx => ?_
            intro db' hdb'
            cases hdb'
            exact hx
    | _ =>
        exact hcall.elim
  · cases db? with
    | none =>
        cases call with
        | openDb t =>
            exact absurd trivial hcall
        | close =>
            exact absurd trivial hcall
        | _ =>
            exact hnone
    | some db =>
        refine (post_callCmd hcall).mono ?_
        rintro x ⟨db', hx, hkeeps, -⟩ db1 hdb1
        rw [hx] at hdb1
        cases hdb1
        exact hkeeps.queuesOk (h db rfl)

theorem Sys.QueuesOk.step (h : s.QueuesOk)
    (hs : s.step e = some (res, s')) : s'.QueuesOk := by
  obtain ⟨x, hrun, hx⟩ := Option.map_eq_some_iff.mp hs
  cases hx
  exact (post_queuesOk h).of_run hrun

/-- It is so in every run, whatever the ids are. -/
theorem Sys.Starts.queuesOk {as : List Act} (h : s.Starts)
    (hrun : Run Sys.Returns s as s') : s'.QueuesOk := by
  have h0 : s.QueuesOk := by
    cases h with
    | new =>
        intro db hdb
        cases hdb
    | image h hopen =>
        refine Sys.QueuesOk.step (s := ⟨_, none⟩) ?_ hopen
        intro db hdb
        cases hdb
  refine hrun.invariant (P := fun _ t => t.QueuesOk) h0 ?_
  rintro as t a u - ht ⟨hstep⟩
  exact ht.step hstep

end Steps

end Qdb
