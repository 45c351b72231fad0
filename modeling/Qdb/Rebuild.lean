import Qdb.Exhaustion

/-!
# The handle and its file

`rebuild` reads the header of a file, validates its log and replays it, as
`qdb_open` does, without writing anything.  On the file of an open handle it
gives the state of the handle back.
-/

namespace Qdb

open Lib

/-- Header, `validate_log` and `qdb__replay_log` on the file `fd`. -/
def rebuild (fd : Fd) : Cmd (Rc × Db) := do
  let (rc, db) ← headerRead fd { Db.zero with fd := fd }
  if rc ≠ .ok then return (rc, db)
  let (rc, db) ← validateLog { db with nextLeaseId := 1 }
  if rc ≠ .ok then return (rc, db)
  replayLog { db with state := none }

section Rebuild

variable {w : World} {db : Db} {v : View} {i : Nat}

/-- The handle `rebuild` works with. -/
def rebuildDb (v : View) (i : Nat) : Db :=
  { ({ Db.zero with fd := some i } : Db).withHeader v.file.header with
    nextLeaseId := 1 }

theorem rebuild_fresh (v : View) (i : Nat) :
    Fresh (rebuildDb v i) i v.file where
  fd := rfl
  createTime := rfl
  nextMsgId := rfl
  nextLeaseId := rfl
  logStart := rfl
  logEnd := rfl
  flags := rfl

theorem reads_rebuild_of_replay (h : Live False w db v i) {x : Rc × Db}
    (hrep : CmdReads (replayLog (rebuildDb v i)) w x) :
    CmdReads (rebuild db.fd) w x := by
  have hkept : v.file.Kept (fun B => B = v.file.patch) (w.files i) :=
    DbFile.Kept.mono h.keeps (by
      intro B hB
      rcases hB with hF | hB
      · exact hF.elim
      · exact hB)
  unfold rebuild
  rw [h.fd]
  apply Prog.reads_bind (reads_headerRead hkept.content _)
  dsimp only
  rw [if_neg (by simp)]
  apply Prog.reads_bind ((rebuild_fresh v i).framed hkept).reads_validateLog
  dsimp only
  rw [if_neg (by simp)]
  exact hrep

theorem rebuild_framed (h : Live False w db v i) :
    Framed w i (rebuildDb v i) v.rs :=
  (rebuild_fresh v i).framed h.keeps

/-- A log that replay accepts. -/
theorem Live.rebuild_ok (h : Live False w db v i) (hv : v.Stable) :
    CmdReads (rebuild db.fd) w (.ok, (rebuildDb v i).withMem v.mem) :=
  reads_rebuild_of_replay h ((rebuild_framed h).reads_replayLog hv)

/-- A log that replay rejects. -/
theorem Live.rebuild_corrupt (h : Live False w db v i)
    (hv : replayRecords v.start v.rs (Mem.start v.mem.nextMsgId) = none) :
    ∃ db', CmdReads (rebuild db.fd) w (.errCorrupt, db') := by
  obtain ⟨db', -, -, hr⟩ := (rebuild_framed h).reads_replayLog_corrupt hv
  exact ⟨db', reads_rebuild_of_replay h hr⟩

end Rebuild

/-- Replay of the file of the handle rebuilds the handle. -/
def Sys.Replayed (s : Sys) : Prop :=
  ∀ db, s.db = some db → ∃ db',
    Prog.run posix (rebuild db.fd) s.world = some ((.ok, db'), s.world) ∧
      db'.state = db.state ∧ db'.nextMsgId = db.nextMsgId ∧
      db'.nextLeaseId = db.nextLeaseId ∧ db'.logEndOffset = db.logEndOffset

theorem Sys.Shows.replayed {s : Sys} {b : Broker} (h : s.Shows b) :
    s.Replayed := by
  intro db hdb
  obtain ⟨ph, his, hph⟩ := h
  cases ph with
  | absent =>
      rw [his.1] at hdb
      cases hdb
  | broken =>
      exact hph.elim
  | closed d =>
      rw [his.1] at hdb
      cases hdb
  | opened v =>
      obtain ⟨db', i, hdb', hlive⟩ := his
      rw [hdb] at hdb'
      cases hdb'
      obtain ⟨c, hinv, -⟩ := hph
      refine ⟨_, Prog.Reads.run (hlive.rebuild_ok hinv.stable), ?_, ?_, ?_, ?_⟩
      · exact hlive.state.symm
      · exact hlive.nextMsgId.symm
      · exact hlive.nextLeaseId.symm
      · exact hlive.logEnd.symm

/-- Until an id counter wraps, every call returns and leaves a handle that
replay of its file rebuilds. -/
theorem live_state_is_replayed {as : List Act} {s : Sys}
    (hrun : Run Sys.CountedReturns Sys.init as s) :
    s.Replayed ∧ ∀ e, ∃ res s', s.step e = some (res, s') := by
  obtain ⟨b, -, hb⟩ := Sys.Shows.init.run hrun
  exact ⟨hb.replayed, hb.progress⟩

/-- The run that creates a database and makes one round. -/
theorem live_state_is_replayed_round :
    ∃ s : Sys, Run Sys.CountedReturns Sys.init
        (.call ⟨0, .openDb 0⟩ none (.code .ok) :: roundActs 1 1) s ∧
      s.db.isSome ∧ s.Replayed := by
  obtain ⟨s₁, hs, hidle⟩ := Idle.create 0 0
  obtain ⟨s, hround, v, c, hsmall, -⟩ :=
    hidle.round (by decide) (by decide) (by decide) (by decide)
  have hrun := (Run.single hs).trans hround
  obtain ⟨db, i, hdb, -⟩ := hsmall.is
  refine ⟨s, hrun, ?_, (live_state_is_replayed hrun).1⟩
  rw [hdb]
  rfl

theorem replayRecords_push_zero (rs : List Record) (off : UInt64) (b : Body)
    (mem : Mem) :
    replayRecords off (rs ++ [pushRecord 0 b]) mem = none := by
  rw [replayRecords_append]
  cases replayRecords off rs mem with
  | none =>
      rfl
  | some mem' =>
      rw [Option.bind_some, replayRecords_singleton, Record.replay,
        entry_pushRecord, Option.bind_some]
      rfl

/-- Once the message counter has wrapped, the file of the handle can no longer
be replayed. -/
theorem live_state_not_replayed :
    ¬ ∀ as s, Run Sys.Returns Sys.init as s → s.Replayed := by
  intro hall
  obtain ⟨s, v, c, hrun, his, -, -⟩ := exists_zero_push 0 0
  obtain ⟨db, i, hdb, hlive⟩ := his
  obtain ⟨db', hok, -⟩ := hall _ s hrun db hdb
  obtain ⟨db'', hbad⟩ := hlive.rebuild_corrupt
    (replayRecords_push_zero v.rs v.start roundBody _)
  rw [Prog.Reads.run hbad] at hok
  cases hok

end Qdb
