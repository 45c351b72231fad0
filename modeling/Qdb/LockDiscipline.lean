import Qdb.Lib.Protocol
import Qdb.Footprint
import Qdb.Broker

/-!
# The lock discipline

Every call of the library keeps to one protocol: the descriptor of the lock file
is opened once, locked once, unlocked and closed, and the database file, its WAL
and the staging file are touched only in between.  This holds on every path,
whatever the platform layer answers (`obeys_serve`).
-/

namespace Qdb

open Lib

/-- Where a process is with its lock descriptor. -/
inductive LockPhase
  | free
  | opened (l : Nat)
  | held (l : Nat)
  | dropped (l : Nat)
  | done

/-- The operation reads or changes one of the three files or its name. -/
def Op.Touches : Op → Prop
  | .lockfileOpen => False
  | .lockfileClose _ => False
  | .fileLock _ => False
  | .fileUnlock _ => False
  | .timeUs => False
  | .alloc => False
  | _ => True

namespace LockPhase

/-- The operations that are allowed in a phase. -/
def Allows (g : LockPhase) : Op → Prop
  | .lockfileOpen => g = .free
  | .fileLock fd => ∃ l, g = .opened l ∧ fd = some l
  | .fileUnlock fd => ∃ l, g = .held l ∧ fd = some l
  | .lockfileClose fd => ∃ l, g = .dropped l ∧ fd = some l
  | .timeUs => True
  | .alloc => True
  | _ => ∃ l, g = .held l

/-- The phase after a response. -/
def Next : (o : Op) → LockPhase → o.Resp → LockPhase → Prop
  | .lockfileOpen, g, .error _, g' => g' = g
  | .lockfileOpen, _, .ok fd, g' => ∃ l, fd = some l ∧ g' = .opened l
  | .fileLock fd, _, rc, g' => ∃ l, fd = some l ∧
      g' = if rc = .ok then .held l else .dropped l
  | .fileUnlock fd, _, _, g' => ∃ l, fd = some l ∧ g' = .dropped l
  | .lockfileClose _, _, _, g' => g' = .done
  | _, g, _, g' => g' = g

end LockPhase

/-- The program keeps to the protocol of the lock. -/
abbrev Obeys {α : Type} (Q : α → LockPhase → Prop) (p : Cmd α)
    (g : LockPhase) : Prop :=
  Prog.Obeys LockPhase.Allows LockPhase.Next Q p g

/-- Everything but the lock. -/
def fileAccess : Access where
  reads := Same
  writes := Same
  opens := fun _ _ => True
  deletes := fun _ => True
  renames := fun _ _ => True
  locks := False

theorem fileAccess_proper : fileAccess.Proper where
  reads_none := rfl
  writes_none := rfl
  valid := by
    rintro fd _ rfl
    rfl

section Files

variable {α : Type} {l : Nat}

/-- A program that leaves the lock alone may run under it. -/
theorem obeys_file {Q : α → α → Prop} {p : Cmd α}
    (h : Twin fileAccess Q p p) :
    Obeys (fun _ g => g = .held l) p (.held l) := by
  apply Prog.obeys_of_twin h
  · intro o ho
    cases o <;>
      first
        | exact ⟨l, rfl⟩
        | trivial
        | exact ho.elim
        | exact ho.1.elim
  · intro o r g ho hg
    cases o with
    | fileOpen p c =>
        refine ⟨?_, hg⟩
        cases r with
        | error rc =>
            rfl
        | ok x =>
            exact ⟨rfl, rfl, rfl⟩
    | lockfileOpen =>
        exact ho.elim
    | lockfileClose fd =>
        exact ho.1.elim
    | fileLock fd =>
        exact ho.1.elim
    | fileUnlock fd =>
        exact ho.1.elim
    | _ =>
        exact ⟨by first | rfl | trivial, hg⟩

end Files

section LockFd

theorem lockFd_qdbPush (db : Db) (queue : Option CString) (data : DataArg) :
    Prog.Post (fun x => x.2.lockFd = db.lockFd) (qdbPush db queue data) := by
  unfold qdbPush
  repeat' first
    | exact rfl
    | trivial
    | refine Prog.post_bind (Prog.post_true _) fun _ _ => ?_
    | split

theorem lockFd_doPop (db : Db) (st : State) (q : Queue) (m : Msg) :
    Prog.Post (fun x => x.2.1.lockFd = db.lockFd) (doPop db st q m) := by
  unfold doPop
  repeat' first
    | exact rfl
    | refine Prog.post_bind (Prog.post_true _) fun _ _ => ?_
    | split

theorem lockFd_resolveLease (type : UInt8)
    (update : State → Msg → UInt64 → State) (db : Db) (st : State) (m : Msg)
    (id l : UInt64) :
    Prog.Post (fun x => x.2.lockFd = db.lockFd)
      (resolveLease type update db st m id l) := by
  unfold resolveLease
  repeat' first
    | exact rfl
    | refine Prog.post_bind (Prog.post_true _) fun _ _ => ?_
    | split

theorem lockFd_headerDecode (buf : Bytes) (db : Db) :
    (headerDecode buf db).2.lockFd = db.lockFd := by
  unfold headerDecode
  dsimp only
  split_ifs <;> rfl

theorem lockFd_headerRead (fd : Fd) (db : Db) :
    Prog.Post (fun x => x.2.lockFd = db.lockFd) (headerRead fd db) := by
  unfold headerRead
  repeat' first
    | exact rfl
    | exact lockFd_headerDecode _ db
    | refine Prog.post_bind (Prog.post_true _) fun _ _ => ?_
    | split

theorem lockFd_replayWalLoop (fd : Fd) (sz : UInt64) (fuel : Nat) (db : Db)
    (off : UInt64) :
    Prog.Post (fun x => x.2.lockFd = db.lockFd)
      (replayWalLoop fd sz fuel db off) := by
  induction fuel generalizing db off with
  | zero =>
      trivial
  | succ fuel ih =>
      have hrest : ∀ (e next : UInt64),
          Prog.Post (fun x => x.2.lockFd = db.lockFd)
            (replayWalLoop fd sz fuel { db with logEndOffset := e } next) := by
        intro e next
        exact ih { db with logEndOffset := e } next
      unfold replayWalLoop
      repeat' first
        | exact rfl
        | exact hrest _ _
        | refine Prog.post_bind (Prog.post_true _) fun _ _ => ?_
        | split

theorem lockFd_replayWal (db : Db) :
    Prog.Post (fun x => x.2.lockFd = db.lockFd) (replayWal db) := by
  unfold replayWal
  refine Prog.post_bind (Prog.post_true _) fun r _ => ?_
  split
  · exact rfl
  refine Prog.post_bind (Prog.post_true _) fun sz _ => ?_
  split
  · repeat' first
      | exact rfl
      | refine Prog.post_bind (Prog.post_true _) fun _ _ => ?_
  split
  · repeat' first
      | exact rfl
      | refine Prog.post_bind (Prog.post_true _) fun _ _ => ?_
  refine Prog.post_bind (Prog.post_true _) fun hdr _ => ?_
  split
  · exact Prog.post_bind (Prog.post_true _) fun _ _ => rfl
  split
  · exact Prog.post_bind (Prog.post_true _) fun _ _ => rfl
  refine Prog.post_bind (lockFd_replayWalLoop _ _ _ _ _) fun x hx => ?_
  refine Prog.post_bind (Prog.post_true _) fun _ _ => ?_
  split
  · exact hx
  refine Prog.post_bind (Prog.post_true _) fun rc _ => ?_
  split
  · exact hx
  exact Prog.post_bind (Prog.post_true _) fun _ _ => hx

theorem lockFd_validateLoop (fuel : Nat) (db : Db) (off : UInt64) :
    Prog.Post (fun x => x.2.lockFd = db.lockFd) (validateLoop fuel db off) := by
  induction fuel generalizing off with
  | zero =>
      trivial
  | succ fuel ih =>
      unfold validateLoop
      repeat' first
        | exact rfl
        | exact ih _
        | refine Prog.post_bind (Prog.post_true _) fun _ _ => ?_
        | split

/-- The handle of a record handler is on the same lock. -/
def LockKept (db : Db) (x : Except Rc (Db × State)) : Prop :=
  ∀ y, x = .ok y → y.1.lockFd = db.lockFd

theorem LockKept.error (db : Db) (rc : Rc) : LockKept db (.error rc) := by
  rintro _ ⟨⟩

theorem LockKept.ok {db db' : Db} (h : db'.lockFd = db.lockFd) (st : State) :
    LockKept db (.ok (db', st)) := by
  rintro _ ⟨⟩
  exact h

theorem lockFd_replayPush (db : Db) (st : State) (off : UInt64)
    (plen : UInt32) : Prog.Post (LockKept db) (replayPush db st off plen) := by
  have hids : ∀ id, (replayPushIds db id).lockFd = db.lockFd := by
    intro id
    unfold replayPushIds
    split <;> rfl
  unfold replayPush
  repeat' first
    | exact .error db _
    | exact .ok (hids _) _
    | trivial
    | refine Prog.post_bind (Prog.post_true _) fun _ _ => ?_
    | split
    | dsimp only

theorem lockFd_replayLease (db : Db) (st : State) (off : UInt64)
    (plen : UInt32) : Prog.Post (LockKept db) (replayLease db st off plen) := by
  have hids : ∀ id, (replayLeaseIds db id).lockFd = db.lockFd := by
    intro id
    unfold replayLeaseIds
    split <;> rfl
  unfold replayLease
  repeat' first
    | exact .error db _
    | exact .ok (hids _) _
    | refine Prog.post_bind (Prog.post_true _) fun _ _ => ?_
    | split
    | dsimp only

theorem lockFd_replayResolve
    (resolve : State → Queue → Msg → UInt64 → State) (db : Db) (st : State)
    (off : UInt64) (plen : UInt32) :
    Prog.Post (LockKept db) (replayResolve resolve db st off plen) := by
  unfold replayResolve
  repeat' first
    | exact .error db _
    | exact .ok rfl _
    | refine Prog.post_bind (Prog.post_true _) fun _ _ => ?_
    | split
    | dsimp only

theorem lockFd_replayCheckpoint (db : Db) (st : State) (off : UInt64)
    (plen : UInt32) :
    Prog.Post (LockKept db) (replayCheckpoint db st off plen) := by
  have hids : ∀ a b, (replayCheckpointIds db a b).lockFd = db.lockFd := by
    intro a b
    unfold replayCheckpointIds
    dsimp only
    split <;> split <;> rfl
  unfold replayCheckpoint
  repeat' first
    | exact .error db _
    | exact .ok (hids _ _) _
    | refine Prog.post_bind (Prog.post_true _) fun _ _ => ?_
    | split

theorem lockFd_replayRecord (type : UInt8) (db : Db) (st : State)
    (off : UInt64) (plen : UInt32) :
    Prog.Post (LockKept db) (replayRecord type db st off plen) := by
  unfold replayRecord
  split
  · exact lockFd_replayPush db st off plen
  split
  · exact lockFd_replayLease db st off plen
  split
  · exact lockFd_replayResolve _ db st off plen
  split
  · exact lockFd_replayResolve _ db st off plen
  split
  · exact lockFd_replayResolve _ db st off plen
  split
  · exact lockFd_replayCheckpoint db st off plen
  split
  · exact LockKept.ok rfl st
  · exact LockKept.error db _

theorem lockFd_replayLoop (fuel : Nat) (db : Db) (st : State) (off : UInt64) :
    Prog.Post (fun x => x.2.lockFd = db.lockFd)
      (replayLoop fuel db st off) := by
  induction fuel generalizing db st off with
  | zero =>
      trivial
  | succ fuel ih =>
      unfold replayLoop
      split
      · exact rfl
      refine Prog.post_bind (Prog.post_true _) fun r _ => ?_
      split
      · exact rfl
      · exact rfl
      · exact rfl
      refine Prog.post_bind (lockFd_replayRecord _ _ _ _ _) fun x hx => ?_
      split
      · exact rfl
      next db' st' =>
      exact (ih db' st' _).mono fun y hy => hy.trans (hx _ rfl)

theorem lockFd_recoverScan (db : Db) :
    Prog.Post (fun x => x.2.lockFd = db.lockFd) (recoverScan db) := by
  unfold recoverScan
  refine Prog.post_bind (lockFd_validateLoop _ _ _) fun x hx => ?_
  dsimp only
  split
  · exact hx
  have hlog : Prog.Post (fun y : Rc × Db => y.2.lockFd = db.lockFd)
      (replayLog { x.2 with state := none }) := by
    unfold replayLog
    refine Prog.post_bind (Prog.post_true _) fun b _ => ?_
    split
    · exact hx
    · exact (lockFd_replayLoop _ { x.2 with state := none } _ _).mono
        fun y hy => hy.trans hx
  refine Prog.post_bind hlog fun y hy => ?_
  split
  · exact hy
  · exact Prog.post_bind (Prog.post_true _) fun _ _ => hy

theorem lockFd_recover (db : Db) :
    Prog.Post (fun x => x.2.lockFd = db.lockFd) (recover db) := by
  have hwal : Prog.Post (fun x : Rc × Db => x.2.lockFd = db.lockFd)
      (if db.flags &&& flagWalPresent ≠ 0 ∨ db.flags &&& flagDirty ≠ 0 then
        replayWal db else pure (.ok, db)) := by
    split
    · exact lockFd_replayWal db
    · exact rfl
  have hfile : ∀ db' : Db, db'.lockFd = db.lockFd →
      Prog.Post (fun x : Rc × Db => x.2.lockFd = db.lockFd)
        (recoverFile db') := by
    intro db' h
    have hscan := (lockFd_recoverScan db').mono fun x hx => hx.trans h
    unfold recoverFile
    repeat' first
      | exact h
      | exact hscan
      | refine Prog.post_bind (Prog.post_true _) fun _ _ => ?_
      | split
  rw [recover_eq]
  refine Prog.post_bind hwal fun x hx => ?_
  split
  · exact hx
  · exact hfile _ hx

theorem lockFd_reopenAfterCompact (db : Db) :
    Prog.Post (fun x => x.2.lockFd = db.lockFd) (reopenAfterCompact db) := by
  have hfail : ∀ (db' : Db) rc, db'.lockFd = db.lockFd →
      Prog.Post (fun x => x.2.lockFd = db.lockFd) (reopenFail db' rc) := by
    intro db' rc h
    unfold reopenFail
    split
    · exact Prog.post_bind (Prog.post_true _) fun _ _ => h
    · exact h
  have hmain : Prog.Post (fun x => x.2.lockFd = db.lockFd)
      (reopenMain { db with fd := none }) := by
    unfold reopenMain
    refine Prog.post_bind (Prog.post_true _) fun r _ => ?_
    cases r with
    | error rc =>
        exact hfail _ _ rfl
    | ok x =>
        dsimp only
        refine Prog.post_bind (lockFd_headerRead _ _) fun y hy => ?_
        split
        · exact hfail _ _ hy
        refine Prog.post_bind (lockFd_recover _) fun z hz => ?_
        have hz : z.2.lockFd = db.lockFd := hz.trans hy
        split
        · exact hfail _ _ hz
        · exact hz
  rw [reopenAfterCompact_eq]
  split
  · exact Prog.post_bind (Prog.post_true _) fun _ _ => hmain
  · exact hmain

theorem lockFd_qdbCompactOn (target : Target) (db : Db) :
    Prog.Post (fun x => x.2.lockFd = db.lockFd) (qdbCompactOn target db) := by
  have hrename : ∀ db' : Db, db'.lockFd = db.lockFd →
      Prog.Post (fun x : Rc × Db => x.2.lockFd = db.lockFd) (do
        let rc ← fileRename .compact .main
        if rc ≠ .ok then
          let _ ← fileDelete .compact
          return (rc, db')
        reopenAfterCompact db') := by
    intro db' h
    refine Prog.post_bind (Prog.post_true _) fun rc _ => ?_
    split
    · exact Prog.post_bind (Prog.post_true _) fun _ _ => h
    · exact (lockFd_reopenAfterCompact db').mono fun x hx => hx.trans h
  unfold qdbCompactOn
  refine Prog.post_bind (Prog.post_true _) fun b _ => ?_
  split
  · exact rfl
  refine Prog.post_bind (Prog.post_true _) fun _ _ => ?_
  refine Prog.post_bind (Prog.post_true _) fun r _ => ?_
  cases r with
  | error rc =>
      exact Prog.post_bind (Prog.post_true _) fun _ _ => rfl
  | ok x =>
      dsimp only
      refine Prog.post_bind (Prog.post_true _) fun rc _ => ?_
      refine Prog.post_bind (Prog.post_true _) fun _ _ => ?_
      split
      · exact Prog.post_bind (Prog.post_true _) fun _ _ => rfl
      split
      · exact Prog.post_bind (Prog.post_true _) fun _ _ =>
          hrename { db with fd := none } rfl
      · exact hrename db rfl

theorem lockFd_expireChain (now : UInt64) (ls : List Lease) (db : Db)
    (n : Int32) :
    Prog.Post (fun x => x.2.1.lockFd = db.lockFd)
      (expireChain now ls db n) := by
  have hone : ∀ (db : Db) (st : State) (l id : UInt64),
      Prog.Post (fun x => x.2.lockFd = db.lockFd) (expireOne db st l id) := by
    intro db st l id
    unfold expireOne
    repeat' first
      | exact rfl
      | exact lockFd_resolveLease _ _ db st _ id l
      | split
  induction ls generalizing db n with
  | nil =>
      exact rfl
  | cons l ls ih =>
      unfold expireChain
      split
      · split
        · trivial
        refine Prog.post_bind (hone _ _ _ _) fun x hx => ?_
        dsimp only
        split
        · exact hx
        · exact (ih _ _).mono fun y hy => hy.trans hx
      · exact ih _ _

theorem lockFd_expireBuckets (now : UInt64) (bs : List (Fin 1024)) (db : Db)
    (n : Int32) :
    Prog.Post (fun x => x.2.1.lockFd = db.lockFd)
      (expireBuckets now bs db n) := by
  induction bs generalizing db n with
  | nil =>
      exact rfl
  | cons b bs ih =>
      unfold expireBuckets
      split
      · trivial
      refine Prog.post_bind (lockFd_expireChain _ _ _ _) fun x hx => ?_
      dsimp only
      split
      · exact hx
      · exact (ih _ _).mono fun y hy => hy.trans hx

theorem lockFd_qdbPop (db : Db) (queue : Option CString) (out : Bool) :
    Prog.Post (fun x => x.2.1.lockFd = db.lockFd) (qdbPop db queue out) := by
  unfold qdbPop
  repeat' first
    | exact rfl
    | trivial
    | exact lockFd_doPop db _ _ _
    | split

theorem lockFd_qdbPopAny (db : Db) (out : Bool) :
    Prog.Post (fun x => x.2.1.lockFd = db.lockFd) (qdbPopAny db out) := by
  unfold qdbPopAny
  repeat' first
    | exact rfl
    | trivial
    | exact lockFd_doPop db _ _ _
    | split

theorem lockFd_resolveCall (type : UInt8)
    (update : State → Msg → UInt64 → State) (db : Db) (id l : UInt64) :
    Prog.Post (fun x => x.2.lockFd = db.lockFd)
      (resolveCall type update db id l) := by
  unfold resolveCall
  repeat' first
    | exact rfl
    | trivial
    | exact lockFd_resolveLease _ _ db _ _ id l
    | split

end LockFd

/-- How a call leaves the lock: held by the handle it returns, or free. -/
def LockLeft : Option Db → LockPhase → Prop
  | none, g => g = .free ∨ g = .done
  | some db, g => ∃ l, db.lockFd = some l ∧ g = .held l

section Calls

variable {db : Db} {l : Nat}

theorem obeys_alloc {g : LockPhase} : Obeys (fun _ g' => g' = g) alloc g :=
  Prog.obeys_perform trivial fun _ _ hg => hg

/-- `qdb__free_db` on a handle with the lock. -/
theorem obeys_freeDb (hl : db.lockFd = some l) :
    Obeys (fun _ g => g = .done) (freeDb db) (.held l) := by
  have hlock : Obeys (fun _ g => g = .done)
      (if db.lockFd ≠ none then do
        fileUnlock db.lockFd
        lockfileClose db.lockFd
      else pure ()) (.held l) := by
    rw [hl, if_pos (by simp)]
    refine ⟨⟨l, rfl, rfl⟩, ?_⟩
    rintro _ _ ⟨l', hl', rfl⟩
    cases hl'
    exact ⟨⟨l, rfl, rfl⟩, fun _ _ hg => hg⟩
  unfold freeDb
  by_cases hfd : db.fd = none
  · rw [if_neg (not_not.mpr hfd)]
    exact hlock
  · rw [if_pos hfd]
    refine ⟨⟨l, rfl⟩, ?_⟩
    rintro _ _ rfl
    exact hlock

/-- A failure exit of `qdb_open_err` that holds the lock. -/
theorem obeys_openFail (hl : db.lockFd = some l) (rc : Rc) :
    Obeys (fun x g => LockLeft x.2 g) (openFail db rc) (.held l) :=
  Prog.obeys_bind (obeys_freeDb hl) fun _ _ hg => Or.inr hg

/-- A failure exit that does not. -/
theorem obeys_openFail_free (hfd : db.fd = none) (hl : db.lockFd = none)
    (rc : Rc) {g : LockPhase} (hg : g = .free ∨ g = .done) :
    Obeys (fun x g => LockLeft x.2 g) (openFail db rc) g := by
  unfold openFail freeDb
  rw [if_neg (not_not.mpr hfd), if_neg (not_not.mpr hl)]
  exact hg

theorem obeys_openNew (hl : db.lockFd = some l) :
    Obeys (fun x g => LockLeft x.2 g) (openNew db) (.held l) := by
  unfold openNew
  refine Prog.obeys_bind (obeys_file twin_timeUs) ?_
  rintro now _ rfl
  refine Prog.obeys_bind (obeys_file (twin_headerWrite rfl _ rfl)) ?_
  rintro rc _ rfl
  split
  · exact obeys_openFail hl _
  refine Prog.obeys_bind obeys_alloc ?_
  rintro b _ rfl
  split
  · exact obeys_openFail hl _
  · exact ⟨l, hl, rfl⟩

theorem obeys_openExisting (hl : db.lockFd = some l) :
    Obeys (fun x g => LockLeft x.2 g) (openExisting db) (.held l) := by
  have hread : Twin fileAccess (Handled fileAccess) (headerRead db.fd db)
      (headerRead db.fd db) :=
    twin_headerRead ⟨db.fd, rfl, rfl, rfl⟩
  unfold openExisting
  refine Prog.obeys_bind
    ((obeys_file hread).and_post (lockFd_headerRead db.fd db)) ?_
  rintro ⟨rc, db1⟩ _ ⟨rfl, hdb1⟩
  have hl1 : db1.lockFd = some l := hdb1.trans hl
  dsimp only
  split
  · exact obeys_openFail hl1 _
  have hrec : Twin fileAccess (Handled fileAccess)
      (recover { db1 with nextLeaseId := 1 })
      (recover { db1 with nextLeaseId := 1 }) :=
    twin_recover trivial trivial rfl rfl
  refine Prog.obeys_bind
    ((obeys_file hrec).and_post (lockFd_recover _)) ?_
  rintro ⟨rc, db2⟩ _ ⟨rfl, hdb2⟩
  have hl2 : db2.lockFd = some l := hdb2.trans hl1
  dsimp only
  split
  · exact obeys_openFail hl2 _
  · exact ⟨l, hl2, rfl⟩

theorem obeys_openLocked (hl : db.lockFd = some l) :
    Obeys (fun x g => LockLeft x.2 g) (openLocked db) (.held l) := by
  unfold openLocked
  refine Prog.obeys_bind
    (obeys_file (twin_fileOpen trivial)) ?_
  rintro r _ rfl
  cases r with
  | error rc =>
      exact obeys_openFail hl rc
  | ok x =>
      have hl' : ({ db with fd := x.1 } : Db).lockFd = some l := hl
      dsimp only
      split
      · exact obeys_openNew hl'
      · exact obeys_openExisting hl'

/-- `qdb_open_err` keeps to the protocol on every path and holds the lock
exactly if it returns a handle. -/
theorem obeys_qdbOpenErr (t : UInt32) :
    Obeys (fun x g => LockLeft x.2 g) (qdbOpenErr t) .free := by
  unfold qdbOpenErr
  refine Prog.obeys_bind obeys_alloc ?_
  rintro b _ rfl
  split
  · exact Or.inl rfl
  refine Prog.obeys_bind obeys_alloc ?_
  rintro b1 _ rfl
  refine Prog.obeys_bind obeys_alloc ?_
  rintro b2 _ rfl
  refine Prog.obeys_bind obeys_alloc ?_
  rintro b3 _ rfl
  dsimp only
  split
  · exact obeys_openFail_free rfl rfl _ (Or.inl rfl)
  refine ⟨rfl, ?_⟩
  intro r g hg
  cases r with
  | error rc =>
      cases hg
      exact obeys_openFail_free rfl rfl rc (Or.inl rfl)
  | ok fd =>
      obtain ⟨l, rfl, rfl⟩ := hg
      refine ⟨⟨l, rfl, rfl⟩, ?_⟩
      intro rc g hg
      obtain ⟨l', hl', rfl⟩ := hg
      cases hl'
      by_cases hrc : rc = .ok
      · subst hrc
        rw [if_pos rfl]
        dsimp only [Prog.bind]
        rw [if_neg (by simp)]
        refine Prog.obeys_bind obeys_alloc ?_
        rintro b _ rfl
        have hopen : ∀ db : Db, db.lockFd = some l →
            Obeys (fun x g => LockLeft x.2 g) (openLocked db) (.held l) :=
          fun db hl => obeys_openLocked hl
        split
        · refine Prog.obeys_bind (obeys_file (twin_fileDelete trivial)) ?_
          rintro rc _ rfl
          exact hopen _ rfl
        · exact hopen _ rfl
      · rw [if_neg hrc]
        dsimp only [Prog.bind]
        rw [if_pos hrc]
        refine ⟨⟨l, rfl, rfl⟩, ?_⟩
        rintro _ _ rfl
        exact obeys_openFail_free rfl rfl _ (Or.inr rfl)

/-- `qdb_close` -/
theorem obeys_qdbClose (hl : db.lockFd = some l) :
    Obeys (fun _ g => g = .done) (qdbClose db) (.held l) := by
  unfold qdbClose
  split
  · refine Prog.obeys_bind (obeys_file (twin_headerUpdate rfl _ rfl)) ?_
    rintro rc _ rfl
    exact obeys_freeDb hl
  · exact obeys_freeDb hl

/-- A program on the handle that leaves the lock alone. -/
theorem obeys_handle {α : Type} {Q : α → α → Prop} {p : Cmd α} {f : α → Db}
    (hl : db.lockFd = some l) (h : Twin fileAccess Q p p)
    (hpost : Prog.Post (fun x => (f x).lockFd = db.lockFd) p) :
    Obeys (fun x g => LockLeft (some (f x)) g) p (.held l) := by
  apply ((obeys_file h).and_post hpost).mono
  rintro x _ ⟨rfl, hx⟩
  exact ⟨l, hx.trans hl, rfl⟩

/-- A program that only reads the handle. -/
theorem obeys_reading {α : Type} {Q : α → α → Prop} {p : Cmd α}
    (hl : db.lockFd = some l) (h : Twin fileAccess Q p p) :
    Obeys (fun _ g => LockLeft (some db) g) p (.held l) :=
  obeys_handle hl h ((Prog.post_true p).mono fun _ _ => rfl)

/-- `qdb_process_expired_leases` -/
theorem obeys_processExpired (hl : db.lockFd = some l) :
    Obeys (fun x g => LockLeft (some x.2.1) g) (qdbProcessExpiredLeases db)
      (.held l) := by
  unfold qdbProcessExpiredLeases
  generalize List.finRange 1024 = bs
  refine Prog.obeys_bind (obeys_file twin_timeUs) ?_
  rintro now _ rfl
  exact obeys_handle hl (twin_expireBuckets now bs rfl rfl 0)
    (lockFd_expireBuckets now bs db 0)

/-- A call on an open handle. -/
theorem obeys_callCmd (hl : db.lockFd = some l) {call : Call}
    (hopen : ¬ call.Opens) :
    Obeys (fun x g => LockLeft x.2 g) (callCmd (some db) call) (.held l) := by
  cases call with
  | openDb t =>
      exact absurd trivial hopen
  | close =>
      exact Prog.obeys_bind (obeys_qdbClose hl) fun _ _ hg => Or.inr hg
  | push queue data =>
      exact Prog.obeys_bind (obeys_handle hl (twin_qdbPush rfl rfl queue data)
        (lockFd_qdbPush db queue data)) fun _ _ hx => hx
  | pop queue out =>
      exact Prog.obeys_bind (obeys_handle hl (twin_qdbPop rfl rfl queue out)
        (lockFd_qdbPop db queue out)) fun _ _ hx => hx
  | popAny out =>
      exact Prog.obeys_bind (obeys_handle hl (twin_qdbPopAny rfl rfl out)
        (lockFd_qdbPopAny db out)) fun _ _ hx => hx
  | ack id l' =>
      exact Prog.obeys_bind (obeys_handle hl
        (twin_resolveCall _ _ rfl rfl id l')
        (lockFd_resolveCall _ _ db id l')) fun _ _ hx => hx
  | nack id l' =>
      exact Prog.obeys_bind (obeys_handle hl
        (twin_resolveCall _ _ rfl rfl id l')
        (lockFd_resolveCall _ _ db id l')) fun _ _ hx => hx
  | processExpired =>
      exact Prog.obeys_bind (obeys_processExpired hl) fun _ _ hx => hx
  | compact =>
      exact Prog.obeys_bind (obeys_handle hl
        (twin_qdbCompactOn fileAccess_proper (fun _ _ => trivial) trivial
          trivial trivial trivial _ rfl rfl)
        (lockFd_qdbCompactOn _ db)) fun _ _ hx => hx

/-- Every request on an open handle keeps to the protocol. -/
theorem obeys_serve (hl : db.lockFd = some l) (target : Target)
    {req : Request} (hopen : ∀ t, req ≠ .call (.openDb t)) :
    Obeys (fun x g => LockLeft x.2 g) (serve target (some db) req)
      (.held l) := by
  cases req with
  | call c =>
      have hc : ¬ c.Opens := by
        intro h
        cases c with
        | openDb t =>
            exact hopen t rfl
        | _ =>
            exact h
      cases c with
      | openDb t =>
          exact absurd trivial hc
      | compact =>
          exact Prog.obeys_bind (obeys_handle hl
            (twin_qdbCompactOn fileAccess_proper (fun _ _ => trivial) trivial
              trivial trivial trivial target rfl rfl)
            (lockFd_qdbCompactOn target db)) fun _ _ hx => hx
      | _ =>
          exact Prog.obeys_bind (obeys_callCmd hl hc) fun _ _ hx => hx
  | stats out =>
      exact Prog.obeys_bind (obeys_reading hl (twin_qdbStats rfl out))
        fun _ _ hx => hx
  | queueStats queue out =>
      exact Prog.obeys_bind (obeys_reading hl (twin_qdbQueueStats queue out))
        fun _ _ hx => hx
  | queueList out cap outCount =>
      exact Prog.obeys_bind
        (obeys_reading hl (twin_qdbQueueList out cap outCount))
        fun _ _ hx => hx
  | compactRecommended out =>
      exact Prog.obeys_bind
        (obeys_reading hl (twin_qdbCompactRecommended rfl out))
        fun _ _ hx => hx

/-- So does every request without a handle. -/
theorem obeys_serve_none (target : Target) (req : Request) :
    Obeys (fun x g => LockLeft x.2 g) (serve target none req) .free := by
  cases req with
  | call c =>
      cases c with
      | openDb t =>
          refine Prog.obeys_bind (Prog.obeys_bind (obeys_qdbOpenErr t)
            fun x g hx => ?_) fun _ _ hx => hx
          obtain ⟨rc, db'⟩ := x
          cases db' with
          | none =>
              exact hx
          | some db =>
              exact hx
      | _ =>
          exact Or.inl rfl
  | _ =>
      exact Or.inl rfl

end Calls

/-- Only a successful open returns a handle. -/
def OkIfOpen (x : Rc × Option Db) : Prop :=
  x.2.isSome → x.1 = .ok

theorem okIfOpen_none (rc : Rc) : OkIfOpen (rc, none) := by
  intro h
  cases h

theorem post_openFail (db : Db) (rc : Rc) :
    Prog.Post OkIfOpen (openFail db rc) :=
  Prog.post_bind (Prog.post_true _) fun _ _ => okIfOpen_none rc

theorem post_openLocked (db : Db) : Prog.Post OkIfOpen (openLocked db) := by
  unfold openLocked openNew openExisting
  repeat' first
    | exact post_openFail _ _
    | exact fun _ => rfl
    | refine Prog.post_bind (Prog.post_true _) fun _ _ => ?_
    | split

theorem post_openErr_code (t : UInt32) :
    Prog.Post OkIfOpen (qdbOpenErr t) := by
  have hlocked : ∀ db, Prog.Post OkIfOpen (openLocked db) := post_openLocked
  unfold qdbOpenErr
  repeat' first
    | exact okIfOpen_none _
    | exact post_openFail _ _
    | exact hlocked _
    | refine Prog.post_bind (Prog.post_true _) fun _ _ => ?_
    | split

end Qdb
