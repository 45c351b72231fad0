import Qdb.CompactBehaviour
import Qdb.Consistency
import Qdb.FailedWrites

/-!
# Tables behind failed writes

Failed writes can make the log of a handle unreadable (`Qdb.FailedWrites`), but
they never damage the tables: a call that reports the failure leaves them as
they were (`failed_calls_keep_tables`), and since a compaction writes them out,
it also mends the log (`compact_mends_log`).
-/

namespace Qdb

open Lib

section Tables

variable {s s' : Sys} {a : Act} {w w' : World} {db : Db} {v v' : View}
variable {i : Nat} {c : Content} {call : Call} {now : UInt64}

/-- A step of the application whose call gives out an id that is not in the
tables. -/
def Sys.FaltersFresh (s : Sys) (a : Act) (s' : Sys) : Prop :=
  (∀ e id res, a = .call e id res → s.Fresh e.call) ∧ s.Falters a s'

/-- The handle is valid and its tables are well formed. -/
def Sys.Tabled (s : Sys) : Prop :=
  ∃ db i v c, s.db = some db ∧ Live True s.world db v i ∧ v.Wf c

theorem View.Wf.move_keeps (h : v.Wf c) (hf : v.Fresh call) {mv : Move}
    {res : Result} (hmv : v.move now call = some mv)
    (ho : mv.Outcome True v res v') : ∃ c', v'.Wf c' := by
  cases ho with
  | refuse _ =>
      exact ⟨c, h⟩
  | io _ =>
      exact ⟨c, h⟩
  | half _ =>
      exact ⟨c, h.half_logged _ (h.logs hmv).half_st⟩
  | full hfit =>
      obtain ⟨c', -, hwf⟩ := h.logged (h.logs_replays hf (h.logs hmv)) hfit
      exact ⟨c', hwf⟩

theorem View.Wf.expiry_keeps (h : v.Wf c) {rc : Rc}
    (hend : ExpireEnd True now v v.mem.st.leases rc v') (hfit : v'.Fits) :
    ∃ c', v'.Wf c' := by
  obtain ⟨hnd, hget, -⟩ := h.leases
  generalize v.mem.st.leases = ls at hend hnd hget
  rcases hend with ⟨-, rfl⟩ | ⟨-, ls1, l, ls2, rfl, -, ho⟩
  · exact h.expireAll hnd hget hfit
  rw [List.map_append] at hnd
  have hwf : ∀ u : View, (v.expireAll now ls1).start = u.start →
      (v.expireAll now ls1).rs <+: u.rs → u.Fits →
      ∃ c', (v.expireAll now ls1).Wf c' := by
    intro u hs hrs hfit
    obtain ⟨rest, hrs⟩ := hrs
    refine h.expireAll (List.nodup_append.mp hnd).1
      (fun k hk => hget k (List.mem_append_left _ hk)) ?_
    unfold View.Fits at hfit ⊢
    rw [← hs, ← hrs] at hfit
    exact hfit.of_append
  generalize hmv : (v.expireAll now ls1).expire l.leaseId l.msgId = mv at ho
  cases ho with
  | refuse _ =>
      exact hwf _ rfl (List.prefix_refl _) hfit
  | io _ =>
      exact hwf _ rfl (List.prefix_refl _) hfit
  | @half r half full res hF =>
      obtain ⟨c', hc'⟩ := hwf ((v.expireAll now ls1).log r half) rfl
        (List.prefix_append _ _) hfit
      exact ⟨c', hc'.half_logged _
        (congrArg Mem.st (hc'.expire_replays hmv).2.2.1)⟩
  | full _ =>
      have hres := View.expire_result (v.expireAll now ls1) l.leaseId l.msgId
      rw [hmv] at hres
      cases hres

/-- Like `Live.falters`, without a log that replay accepts. -/
theorem Live.falters_tables (h : Live True w db v i) (hwf : v.Wf c)
    (hcall : call.Works) (hf : v.Fresh call) {res : Result}
    {db' : Option Db}
    (he : Prog.Exec (Faulty True) (callCmd (some db) call) w (res, db') w') :
    (⟨w', db'⟩ : Sys).Tabled ∨ (⟨w', db'⟩ : Sys).Invalid := by
  have hmove : ∀ {mv : Move}, v.move w.now call = some mv →
      (⟨w', db'⟩ : Sys).Tabled := by
    intro mv hmv
    obtain ⟨db1, hdb1, -, ⟨v', ho, hlive⟩, -⟩ :=
      (wp_move h hwf.located_msg hmv).exec he
    obtain ⟨c', hwf'⟩ := hwf.move_keeps hf hmv ho
    exact ⟨db1, i, v', c', hdb1, hlive, hwf'⟩
  cases call with
  | openDb t =>
      exact hcall.elim
  | close =>
      exact hcall.elim
  | processExpired =>
      obtain ⟨-, rc, v', db1, -, hdb1, hend, hlive⟩ :=
        (wp_processExpired h hwf.shows.rep.placed.leases).exec he
      obtain ⟨c', hwf'⟩ := hwf.expiry_keeps hend hlive.fits
      exact Or.inl ⟨db1, i, v', c', hdb1, hlive, hwf'⟩
  | compact =>
      obtain ⟨mem, d, hmem, hshows, hcomp, -, -⟩ := hwf.compact w.now
      rcases (wp_qdbCompact h hwf.shows.rep.walkable hwf.located_msg hmem).exec
        he with ⟨heq, -, hlive⟩ | ⟨db1, heq, hlive⟩ | ⟨-, db1, heq, -, hst, -⟩
      · cases heq
        exact Or.inl ⟨db, i, v, c, rfl, hlive, hwf⟩
      · cases heq
        exact Or.inl ⟨db1, _, _, d, rfl, hlive,
          hwf.compacted hshows hcomp hlive.fits⟩
      · cases heq
        exact Or.inr ⟨db1, rfl, hst⟩
  | _ =>
      exact Or.inl (hmove rfl)

theorem Live.freshCall (h : Live True w db v i)
    (hf : (⟨w, some db⟩ : Sys).Fresh call) : v.Fresh call := by
  have hf := hf db _ rfl h.state
  unfold Db.Fresh at hf
  rw [h.nextMsgId, h.nextLeaseId] at hf
  revert hf
  cases call <;> exact fun hf => hf

/-- Where the application can be when tables and log disagree. -/
def Sys.OneTable (s : Sys) : Prop :=
  s = Sys.init ∨ s.Tabled ∨ s.Invalid

theorem Sys.Logging.tabled (h : s.Logging) : s.Tabled := by
  obtain ⟨db, i, v, c, k, hdb, hlive, hwf, -⟩ := h
  exact ⟨db, i, v, c, hdb, hlive, hwf⟩

theorem Sys.OneTable.step (h : s.OneTable) (hs : s.FaltersFresh a s') :
    s'.OneTable := by
  obtain ⟨hf, hs⟩ := hs
  cases hs with
  | opens hdb hopen =>
      rcases h with rfl | ⟨db, i, v, c, hdb', -⟩ | ⟨db, hdb', -⟩
      · exact Or.inr (Or.inl (Sys.init_opens hopen).tabled)
      · rw [hdb] at hdb'
        cases hdb'
      · rw [hdb] at hdb'
        cases hdb'
  | @call e res db st w' db' hdb hst hcall hexec =>
      right
      obtain ⟨w, db?⟩ := s
      cases hdb
      rcases h with heq | ⟨db1, i, v, c, hdb', hlive, hwf⟩ |
        ⟨db1, hdb', hnone⟩
      · cases heq
      · cases hdb'
        exact (hlive.atTime e.now).falters_tables hwf hcall
          (hlive.freshCall (hf e _ _ rfl)) hexec
      · cases hdb'
        rw [hst] at hnone
        cases hnone

/-- The valid handle of a run. -/
theorem Sys.Starts.tabled {as : List Act} (h : s.Starts)
    (hrun : Run Sys.FaltersFresh s as s') {db : Db} {st : State}
    (hdb : s'.db = some db) (hst : db.state = some st) :
    ∃ i v c, Live True s'.world db v i ∧ v.Wf c ∧ v.mem.st = st := by
  have h0 : s.OneTable := h.oneHandle.imp id (Or.imp Sys.Logging.tabled id)
  have hone : s'.OneTable := hrun.invariant
    (P := fun _ t => t.OneTable) h0 fun _ _ _ _ _ ht hs => ht.step hs
  obtain ⟨w, db?⟩ := s'
  cases hdb
  rcases hone with heq | ⟨db1, i, v, c, hdb', hlive, hwf⟩ |
    ⟨db1, hdb', hnone⟩
  · cases heq
  · cases hdb'
    exact ⟨i, v, c, hlive, hwf,
      Option.some.inj (hlive.state.symm.trans hst)⟩
  · cases hdb'
    rw [hst] at hnone
    cases hnone

/-- A run that is in step with its log gives out fresh ids. -/
theorem Sys.Starts.fresh_of_inStep {as : List Act} (h : s.Starts)
    (hrun : Run Sys.FaltersInStep s as s') :
    Run Sys.FaltersFresh s as s' := by
  refine (hrun.strengthen (P := fun t => t.OneHandle) h.oneHandle ?_).1
  intro t a u ht hs
  refine ⟨⟨?_, hs.2⟩, ht.step hs⟩
  intro e id res heq db st hdb hst
  obtain ⟨w, db?⟩ := t
  cases hdb
  rcases ht with heq | ⟨db₁, i, v, c, k, hdb', hlive, -, hk⟩ |
    ⟨db₁, hdb', hnone⟩
  · cases heq
  · cases hdb'
    obtain ⟨st', hst', -⟩ := hlive.logState_some hk
    exact (hs.1 e id res heq db st st' rfl hst hst').1
  · cases hdb'
    rw [hst] at hnone
    cases hnone

/-- The calls that log at most one record. -/
def Call.LogsOne : Call → Prop
  | .push _ _ | .pop _ _ | .popAny _ | .ack _ _ | .nack _ _ => True
  | _ => False

theorem Call.LogsOne.move (h : call.LogsOne) (v : View) (now : UInt64) :
    ∃ mv, v.move now call = some mv := by
  cases call <;> first
    | exact h.elim
    | exact ⟨_, rfl⟩

theorem Call.LogsOne.works (h : call.LogsOne) : call.Works := by
  cases call <;> first
    | exact h.elim
    | trivial

/-- A move that reports a failure has not touched the tables. -/
theorem View.Wf.failed_move (h : v.Wf c) {mv : Move}
    (hmv : v.move now call = some mv)
    (ho : mv.Outcome True v (.code .errIo) v') : v'.mem.st = v.mem.st := by
  cases mv with
  | refuse res =>
      cases ho with
      | refuse _ =>
          rfl
  | log r half full res =>
      have hlog := h.logs hmv
      generalize hres : Result.code .errIo = x at ho
      cases ho with
      | io _ =>
          rfl
      | half _ =>
          exact hlog.half_st
      | full _ =>
          subst hres
          cases hlog

end Tables

/-- Whatever writes and syncs fail, no call gets stuck, the tables of the
handle stay consistent, and a call that returns `QDB_ERR_IO` leaves them as
they were. -/
theorem failed_calls_keep_tables {s s' : Sys} {as : List Act} (h : s.Starts)
    (hrun : Run Sys.FaltersFresh s as s') {db : Db} {st : State}
    (hdb : s'.db = some db) (hst : db.state = some st) :
    (st.msgs.length < 2 ^ 32 → st.queues.length < 2 ^ 32 → st.Consistent) ∧
      ∀ now (call : Call), call.LogsOne →
        Prog.Wp (Faulty True) (fun _ => True) (callCmd (some db) call)
          { s'.world with now := now } fun x _ =>
            x.1 = .code .errIo →
              ∃ db', x.2 = some db' ∧ db'.state = some st := by
  obtain ⟨i, v, c, hlive, hwf, rfl⟩ := h.tabled hrun hdb hst
  refine ⟨hwf.shows.rep.consistent, ?_⟩
  intro now call hcall
  obtain ⟨mv, hmv⟩ := hcall.move v now
  refine (wp_move (hlive.atTime now) hwf.located_msg hmv).mono
    (fun _ _ => trivial) ?_
  rintro ⟨res, db?⟩ w' ⟨db', rfl, -, ⟨v', ho, hlive'⟩, -⟩ rfl
  exact ⟨db', rfl, by rw [hlive'.state, hwf.failed_move hmv ho]⟩

/-- A compaction that succeeds mends the log, whatever has failed before: replay
of the new log builds the tables of the handle, which have the live messages,
pending lists and leases the tables had, and a close and an open succeed. -/
theorem compact_mends_log {s s' t : Sys} {as : List Act} (h : s.Starts)
    (hrun : Run Sys.FaltersFresh s as s') {now : UInt64} {id : Option UInt64}
    (hc : s'.Falters (.call ⟨now, .compact⟩ id (.code .ok)) t) :
    t.Reopens ∧ ∃ db db' st st', s'.db = some db ∧ db.state = some st ∧
      t.db = some db' ∧ db'.state = some st' ∧ t.logState = some st' ∧
      LiveKept s'.world t.world db db' st st' := by
  generalize hact : Act.call ⟨now, .compact⟩ id (.code .ok) = a at hc
  cases hc with
  | opens hdb hopen =>
      cases hact
  | @call e res db st w' db' hdb hst hcall hexec =>
      cases hact
      obtain ⟨i, v, c, hlive, hwf, rfl⟩ := h.tabled hrun hdb hst
      obtain ⟨mem, d, hmem, hshow, hcomp, -, -⟩ := hwf.compact now
      have hend := (wp_qdbCompact (hlive.atTime now) hwf.shows.rep.walkable
        hwf.located_msg hmem).exec hexec
      rcases hend with ⟨heq, -⟩ | ⟨db₁, heq, hlive₁⟩ | ⟨-, db₁, heq, -⟩
      · cases heq
      · cases heq
        have hs0 : (Mem.start v.mem.nextMsgId).st.Shows Content.empty :=
          State.Shows.start
        obtain ⟨k, hk, -⟩ := hs0.of_replay hmem
        exact ⟨hlive₁.reopens (v := v.compacted now mem) hk, db, db₁, _,
          mem.st, hdb, hst, rfl, hlive₁.state,
          hlive₁.logState_of_replay (v := v.compacted now mem) hmem,
          hwf.liveKept hshow hcomp hlive hlive₁⟩
      · cases heq

/-- The handle after an acknowledgement that failed. -/
theorem failed_calls_keep_tables_ack :
    ∃ (s : Sys) (db : Db) (st : State),
      Run Sys.FaltersFresh Sys.init failedAckActs s ∧ s.db = some db ∧
      Prog.Wp (Faulty True) (fun _ => True) (callCmd (some db) (.ack 1 1))
        { s.world with now := 0 } fun x _ =>
          x.1 = .code .errIo →
            ∃ db', x.2 = some db' ∧ db'.state = some st := by
  obtain ⟨s, -, hrun, ⟨db, st, hdb, hst⟩, -⟩ := exists_failed_ack
  have hrun := Sys.Starts.new.fresh_of_inStep hrun
  exact ⟨s, db, st, hrun, hdb,
    (failed_calls_keep_tables .new hrun hdb hst).2 0 (.ack 1 1) trivial⟩

/-- A compaction of tables without live messages may succeed, whatever has
failed before. -/
theorem Live.compacts (h : Live True w db v i) (hwf : v.Wf c)
    (hjobs : v.mem.st.jobs = []) (now : UInt64) :
    ∃ t, (⟨w, some db⟩ : Sys).Falters
      (.call ⟨now, .compact⟩ (some v.mem.nextMsgId) (.code .ok)) t := by
  have hfit : Fits hdrSize (v.compactRecords now) := by
    rw [hwf.compactRecords_jobs hjobs]
    exact fits_checkpoint _ _ _
  obtain ⟨mem, d, hmem, -⟩ := hwf.compact now
  -- on a machine where nothing fails
  obtain ⟨x, w', hrun, hend⟩ := (wp_qdbCompact_from (F := False)
    (h.atTime now) hwf.shows.rep.walkable hwf.located_msg hmem).run
      (faulty_posix False)
  rcases hend with ⟨-, hno, -⟩ | ⟨db', rfl, -⟩ | ⟨hF, -⟩
  · exact absurd hfit (hno.resolve_left id)
  · rw [← h.nextMsgId]
    refine ⟨⟨w', some db'⟩, .call (e := ⟨now, .compact⟩) rfl h.state trivial ?_⟩
    change Prog.Exec _ (qdbCompact db >>= fun x =>
      pure (Result.code x.1, some x.2)) _ _ _
    rw [Prog.exec_bind]
    exact ⟨_, w', Prog.Exec.of_run (faulty_posix True) hrun, rfl, rfl⟩
  · exact hF.elim

/-- After a failed acknowledgement and its retry replay rejects the log; a
compaction mends it. -/
theorem compact_mends_log_retried :
    ∃ s t : Sys, Run Sys.FaltersFresh Sys.init retriedAckActs s ∧
      s.logState = none ∧
      s.Falters (.call ⟨0, .compact⟩ (some 2) (.code .ok)) t ∧
      t.logState.isSome ∧ t.Reopens := by
  obtain ⟨sa, s, hrun, -, hretry, w, db, v, i, c, rfl, hlive, hrep, hwf, hjobs,
    hid⟩ := exists_failed_ack
  have hrun := (Sys.Starts.new.fresh_of_inStep hrun).snoc
    (show Sys.FaltersFresh sa (.call ⟨0, .ack 1 1⟩ (some 2) (.code .ok)) _ from
      ⟨by
        intro e id res heq db st _ _
        cases heq
        trivial, hretry⟩)
  obtain ⟨t, hcompact⟩ := hlive.compacts hwf hjobs 0
  rw [hid] at hcompact
  obtain ⟨hopens, -, db', -, st', -, -, -, -, hlog, -⟩ :=
    compact_mends_log .new hrun hcompact
  exact ⟨_, t, hrun, hlive.logState_none hrep, hcompact, by rw [hlog]; rfl,
    hopens⟩

end Qdb
