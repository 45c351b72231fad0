import Qdb.Lib.Twins
import Qdb.OpenSpec
import Qdb.Stats

/-!
# What the programs of the library touch

Every function is its own twin, with its descriptors replaced by related ones:
it reads and writes only the descriptors it was given or has opened, and opens,
deletes and renames only the names its `Access` allows.  What a call does on one
machine it therefore does on every other that looks the same through the
descriptors (`Lib.Prog.Twin.run`), and it leaves everything else alone
(`Lib.Prog.Twin.keeps`).
-/

namespace Qdb

open Lib

/-- What a program may touch, its descriptors next to those of its twin. -/
structure Access where
  reads : Fd → Fd → Prop
  writes : Fd → Fd → Prop
  opens : Path → Bool → Prop
  deletes : Path → Prop
  renames : Path → Path → Prop
  locks : Prop

/-- A valid descriptor is related to valid ones only. -/
structure Access.Proper (A : Access) : Prop where
  reads_none : A.reads none none
  writes_none : A.writes none none
  valid : ∀ fd fd', A.reads fd fd' → (fd' = none ↔ fd = none)

/-- The same operation on related descriptors, allowed by `A`. -/
def Op.Alike (A : Access) : Op → Op → Prop
  | .fileOpen p c, .fileOpen p' c' => A.opens p c ∧ p' = p ∧ c' = c
  | .lockfileOpen, .lockfileOpen => A.locks
  | .fileClose fd, .fileClose fd' => A.reads fd fd'
  | .lockfileClose fd, .lockfileClose fd' => A.locks ∧ fd' = fd
  | .fileSync fd, .fileSync fd' => A.writes fd fd'
  | .fileSize fd, .fileSize fd' => A.reads fd fd'
  | .fileTruncate fd n, .fileTruncate fd' n' => A.writes fd fd' ∧ n' = n
  | .pread fd len off, .pread fd' len' off' =>
      A.reads fd fd' ∧ len' = len ∧ off' = off
  | .pwrite fd bs off, .pwrite fd' bs' off' =>
      A.writes fd fd' ∧ bs' = bs ∧ off' = off
  | .fileLock fd, .fileLock fd' => A.locks ∧ fd' = fd
  | .fileUnlock fd, .fileUnlock fd' => A.locks ∧ fd' = fd
  | .fileDelete p, .fileDelete p' => A.deletes p ∧ p' = p
  | .fileRename p q, .fileRename p' q' => A.renames p q ∧ p' = p ∧ q' = q
  | .timeUs, .timeUs => True
  | .alloc, .alloc => True
  | _, _ => False

/-- The same answer of `qdb__file_open`, up to the descriptor. -/
def OpenAgree (A : Access) :
    Except Rc (Fd × Bool) → Except Rc (Fd × Bool) → Prop
  | .error rc, .error rc' => rc' = rc
  | .ok (fd, isNew), .ok (fd', isNew') =>
      A.reads fd fd' ∧ A.writes fd fd' ∧ isNew' = isNew
  | _, _ => False

/-- The same response, up to the descriptors opened. -/
def Op.Agree (A : Access) : (o o' : Op) → o.Resp → o'.Resp → Prop
  | .fileOpen .., .fileOpen .., r, r' => OpenAgree A r r'
  | .lockfileOpen, .lockfileOpen, r, r' => r' = r
  | .fileClose _, .fileClose _, _, _ => True
  | .lockfileClose _, .lockfileClose _, _, _ => True
  | .fileSync _, .fileSync _, r, r' => r' = r
  | .fileSize _, .fileSize _, r, r' => r' = r
  | .fileTruncate .., .fileTruncate .., r, r' => r' = r
  | .pread .., .pread .., r, r' => r' = r
  | .pwrite .., .pwrite .., r, r' => r' = r
  | .fileLock _, .fileLock _, r, r' => r' = r
  | .fileUnlock _, .fileUnlock _, _, _ => True
  | .fileDelete _, .fileDelete _, r, r' => r' = r
  | .fileRename .., .fileRename .., r, r' => r' = r
  | .timeUs, .timeUs, r, r' => r' = r
  | .alloc, .alloc, r, r' => r' = r
  | _, _, _, _ => False

/-- Twin programs of the library. -/
abbrev Twin {α β : Type} (A : Access) (Q : α → β → Prop) :
    Cmd α → Cmd β → Prop :=
  Prog.Twin (Op.Alike A) (Op.Agree A) Q

/-- The same result. -/
def Same {α : Type} (a a' : α) : Prop := a' = a

/-- The same handle, on a related descriptor. -/
def Db.Alike (A : Access) (db db' : Db) : Prop :=
  ∃ fd, db' = { db with fd := fd } ∧ A.reads db.fd fd ∧ A.writes db.fd fd

/-- The same code and handle. -/
def Handled (A : Access) (x x' : Rc × Db) : Prop :=
  x'.1 = x.1 ∧ x.2.Alike A x'.2

theorem Handled.inv {A : Access} {x x' : Rc × Db} (h : Handled A x x') :
    ∃ rc db fd, x = (rc, db) ∧ x' = (rc, { db with fd := fd }) ∧
      A.reads db.fd fd ∧ A.writes db.fd fd := by
  obtain ⟨hrc, fd, hdb, hr, hw⟩ := h
  exact ⟨x.1, x.2, fd, rfl, Prod.ext hrc hdb, hr, hw⟩

/-- The same code, handle and further result. -/
def HandledWith {α : Type} (A : Access) (x x' : Rc × Db × α) : Prop :=
  x'.1 = x.1 ∧ x.2.1.Alike A x'.2.1 ∧ x'.2.2 = x.2.2

/-- The same outcome of a record handler. -/
def ReplayAlike (A : Access) :
    Except Rc (Db × State) → Except Rc (Db × State) → Prop
  | .error rc, .error rc' => rc' = rc
  | .ok (db, st), .ok (db', st') => db.Alike A db' ∧ st' = st
  | _, _ => False

/-- The operations that change names. -/
def Op.Names : Op → Prop
  | .fileOpen .. | .fileDelete _ | .fileRename .. => True
  | _ => False

/-- The others answer themselves alike. -/
theorem Op.agree_kept {A : Access} {a : Op} (hn : ¬ a.Names) (r : a.Resp) :
    a.Agree A a r r := by
  cases a with
  | fileOpen p create =>
      exact absurd trivial hn
  | fileDelete p =>
      exact absurd trivial hn
  | fileRename p q =>
      exact absurd trivial hn
  | fileClose fd =>
      trivial
  | lockfileClose fd =>
      trivial
  | fileUnlock fd =>
      trivial
  | _ =>
      exact rfl

/-- An operation answers itself alike where every descriptor is related to
itself. -/
theorem Op.agree_self {A : Access} (hA : ∀ fd, A.reads fd fd ∧ A.writes fd fd)
    (o : Op) (r : o.Resp) : o.Agree A o r r := by
  cases o with
  | fileOpen p create =>
      cases r with
      | error rc =>
          exact rfl
      | ok x =>
          exact ⟨(hA x.1).1, (hA x.1).2, rfl⟩
  | fileDelete p =>
      exact rfl
  | fileRename p q =>
      exact rfl
  | _ =>
      exact Op.agree_kept id r

section Operations

variable {A : Access} {fd fd' : Fd}

theorem twin_pread (h : A.reads fd fd') (len : Nat) (off : UInt64) :
    Twin A Same (pread fd len off) (pread fd' len off) :=
  Prog.twin_perform _ _ ⟨h, rfl, rfl⟩ (fun _ _ hr => hr)

theorem twin_pwrite (h : A.writes fd fd') (bs : Bytes) (off : UInt64) :
    Twin A Same (pwrite fd bs off) (pwrite fd' bs off) :=
  Prog.twin_perform _ _ ⟨h, rfl, rfl⟩ (fun _ _ hr => hr)

theorem twin_fileSync (h : A.writes fd fd') :
    Twin A Same (fileSync fd) (fileSync fd') :=
  Prog.twin_perform (Op.fileSync fd) (Op.fileSync fd') h
    (fun _ _ hr => hr)

theorem twin_fileSize (h : A.reads fd fd') :
    Twin A Same (fileSize fd) (fileSize fd') :=
  Prog.twin_perform (Op.fileSize fd) (Op.fileSize fd') h
    (fun _ _ hr => hr)

theorem twin_fileTruncate (h : A.writes fd fd') (n : UInt64) :
    Twin A Same (fileTruncate fd n) (fileTruncate fd' n) :=
  Prog.twin_perform _ _ ⟨h, rfl⟩ (fun _ _ hr => hr)

theorem twin_fileClose (h : A.reads fd fd') :
    Twin A Same (fileClose fd) (fileClose fd') :=
  Prog.twin_perform (Op.fileClose fd) (Op.fileClose fd') h
    (fun _ _ _ => rfl)

theorem twin_alloc : Twin A Same alloc alloc :=
  Prog.twin_perform (Op.alloc) (Op.alloc) trivial
    (fun _ _ hr => hr)

theorem twin_timeUs : Twin A Same timeUs timeUs :=
  Prog.twin_perform (Op.timeUs) (Op.timeUs) trivial
    (fun _ _ hr => hr)

theorem twin_fileOpen {p : Path} {c : Bool} (h : A.opens p c) :
    Twin A (OpenAgree A) (fileOpen p c) (fileOpen p c) :=
  Prog.twin_perform (Op.fileOpen p c) (Op.fileOpen p c)
    ⟨h, rfl, rfl⟩ (fun _ _ hr => hr)

theorem twin_fileDelete {p : Path} (h : A.deletes p) :
    Twin A Same (fileDelete p) (fileDelete p) :=
  Prog.twin_perform (Op.fileDelete p) (Op.fileDelete p)
    ⟨h, rfl⟩ (fun _ _ hr => hr)

theorem twin_fileRename {p q : Path} (h : A.renames p q) :
    Twin A Same (fileRename p q) (fileRename p q) :=
  Prog.twin_perform (Op.fileRename p q) (Op.fileRename p q)
    ⟨h, rfl, rfl⟩ (fun _ _ hr => hr)

theorem twin_lockfileOpen (h : A.locks) :
    Twin A Same lockfileOpen lockfileOpen :=
  Prog.twin_perform Op.lockfileOpen Op.lockfileOpen h (fun _ _ hr => hr)

theorem twin_lockfileClose (h : A.locks) (fd : Fd) :
    Twin A Same (lockfileClose fd) (lockfileClose fd) :=
  Prog.twin_perform (Op.lockfileClose fd) (Op.lockfileClose fd) ⟨h, rfl⟩
    (fun _ _ _ => rfl)

theorem twin_fileLock (h : A.locks) (fd : Fd) :
    Twin A Same (fileLock fd) (fileLock fd) :=
  Prog.twin_perform (Op.fileLock fd) (Op.fileLock fd) ⟨h, rfl⟩
    (fun _ _ hr => hr)

theorem twin_fileUnlock (h : A.locks) (fd : Fd) :
    Twin A Same (fileUnlock fd) (fileUnlock fd) :=
  Prog.twin_perform (Op.fileUnlock fd) (Op.fileUnlock fd) ⟨h, rfl⟩
    (fun _ _ _ => rfl)

end Operations

section Records

variable {A : Access} {fd fd' : Fd}

theorem twin_readFull (h : A.reads fd fd') (len : Nat) (off : UInt64) :
    Twin A Same (readFull fd len off) (readFull fd' len off) := by
  unfold readFull
  refine Prog.twin_bind (twin_pread h len off) ?_
  rintro _ r rfl
  cases r with
  | error rc =>
      exact Prog.twin_pure rfl
  | ok bs =>
      exact Prog.twin_ite (fun _ => Prog.twin_pure rfl)
        (fun _ => Prog.twin_pure rfl)

theorem twin_headerWrite (h : A.writes fd fd') (db : Db) {db' : Db}
    (hdb : headerEncode db' = headerEncode db) :
    Twin A Same (headerWrite fd db) (headerWrite fd' db') := by
  unfold headerWrite
  rw [hdb]
  refine Prog.twin_bind (twin_pwrite h _ _) ?_
  rintro _ r rfl
  exact Prog.twin_ite (fun _ => Prog.twin_pure rfl) (fun _ => twin_fileSync h)

theorem twin_headerUpdate (h : A.writes fd fd') (db : Db) {db' : Db}
    (hdb : headerPatch db' = headerPatch db) :
    Twin A Same (headerUpdate fd db) (headerUpdate fd' db') := by
  unfold headerUpdate
  rw [hdb]
  refine Prog.twin_bind (twin_pwrite h _ _) ?_
  rintro _ r rfl
  exact Prog.twin_ite (fun _ => Prog.twin_pure rfl) (fun _ => twin_fileSync h)

theorem twin_headerRead {db db' : Db} (hdb : db.Alike A db') :
    Twin A (Handled A)
      (headerRead db.fd db) (headerRead db'.fd db') := by
  obtain ⟨fd, rfl, hr, hw⟩ := hdb
  have hdec : ∀ buf, (headerDecode buf { db with fd := fd }).1 =
      (headerDecode buf db).1 ∧ (headerDecode buf db).2.Alike A
        (headerDecode buf { db with fd := fd }).2 := by
    intro buf
    unfold headerDecode
    dsimp only
    split_ifs <;> exact ⟨rfl, fd, rfl, hr, hw⟩
  unfold headerRead
  refine Prog.twin_bind (twin_fileSize hr) ?_
  rintro _ r rfl
  cases r with
  | error rc =>
      exact Prog.twin_pure ⟨rfl, fd, rfl, hr, hw⟩
  | ok fileSz =>
      refine Prog.twin_ite
        (fun _ => Prog.twin_pure ⟨rfl, fd, rfl, hr, hw⟩) (fun _ => ?_)
      refine Prog.twin_bind (twin_readFull hr _ _) ?_
      rintro _ r rfl
      cases r with
      | error rc =>
          exact Prog.twin_pure ⟨rfl, fd, rfl, hr, hw⟩
      | ok buf =>
          exact Prog.twin_pure (hdec buf)

theorem twin_appendRecord (h : A.writes fd fd') (type : UInt8)
    (payload : Bytes) (off : UInt64) :
    Twin A Same (appendRecord fd type payload off)
      (appendRecord fd' type payload off) := by
  have htail : Twin A Same
      (do
        if (← fileSync fd) ≠ .ok then return (Rc.errIo, off)
        if (← writeFull fd [commitMarker] (off + recHdrSize +
            (UInt32.ofNat payload.length).toUInt64)) ≠ .ok then
          return (Rc.errIo, off)
        if (← fileSync fd) ≠ .ok then return (Rc.errIo, off)
        return (Rc.ok, off + recHdrSize +
          (UInt32.ofNat payload.length).toUInt64 + 1))
      (do
        if (← fileSync fd') ≠ .ok then return (Rc.errIo, off)
        if (← writeFull fd' [commitMarker] (off + recHdrSize +
            (UInt32.ofNat payload.length).toUInt64)) ≠ .ok then
          return (Rc.errIo, off)
        if (← fileSync fd') ≠ .ok then return (Rc.errIo, off)
        return (Rc.ok, off + recHdrSize +
          (UInt32.ofNat payload.length).toUInt64 + 1)) := by
    refine Prog.twin_bind (twin_fileSync h) ?_
    rintro _ r rfl
    refine Prog.twin_ite (fun _ => Prog.twin_pure rfl) (fun _ => ?_)
    refine Prog.twin_bind (twin_pwrite h _ _) ?_
    rintro _ r rfl
    refine Prog.twin_ite (fun _ => Prog.twin_pure rfl) (fun _ => ?_)
    refine Prog.twin_bind (twin_fileSync h) ?_
    rintro _ r rfl
    exact Prog.twin_ite (fun _ => Prog.twin_pure rfl)
      (fun _ => Prog.twin_pure rfl)
  unfold appendRecord
  refine Prog.twin_bind (twin_pwrite h _ _) ?_
  rintro _ r rfl
  refine Prog.twin_ite (fun _ => Prog.twin_pure rfl) (fun _ => ?_)
  refine Prog.twin_ite (fun _ => ?_) (fun _ => htail)
  refine Prog.twin_bind (twin_pwrite h _ _) ?_
  rintro _ r rfl
  exact Prog.twin_ite (fun _ => Prog.twin_pure rfl) (fun _ => htail)

theorem twin_scanChunks (h : A.reads fd fd') (off : UInt64) (plen : UInt32)
    (fuel : Nat) (crc remaining : UInt32) :
    Twin A Same (scanChunks fd off plen fuel crc remaining)
      (scanChunks fd' off plen fuel crc remaining) := by
  induction fuel generalizing crc remaining with
  | zero =>
      exact Prog.twin_stuck
  | succ fuel ih =>
      unfold scanChunks
      refine Prog.twin_ite (fun _ => Prog.twin_pure rfl) (fun _ => ?_)
      refine Prog.twin_bind (twin_readFull h _ _) ?_
      rintro _ r rfl
      cases r with
      | error rc =>
          exact Prog.twin_pure rfl
      | ok chunk =>
          exact ih _ _

theorem twin_scanRecord (h : A.reads fd fd') (off stop : UInt64) :
    Twin A Same (scanRecord fd off stop) (scanRecord fd' off stop) := by
  unfold scanRecord
  refine Prog.twin_ite (fun _ => Prog.twin_pure rfl) (fun _ => ?_)
  refine Prog.twin_ite (fun _ => Prog.twin_pure rfl) (fun _ => ?_)
  refine Prog.twin_bind (twin_readFull h _ _) ?_
  rintro _ r rfl
  cases r with
  | error rc =>
      exact Prog.twin_pure rfl
  | ok hdr =>
      refine Prog.twin_ite (fun _ => Prog.twin_pure rfl) (fun _ => ?_)
      refine Prog.twin_ite (fun _ => Prog.twin_pure rfl) (fun _ => ?_)
      refine Prog.twin_bind (twin_readFull h _ _) ?_
      rintro _ r rfl
      cases r with
      | error rc =>
          exact Prog.twin_pure rfl
      | ok marker =>
          refine Prog.twin_ite (fun _ => Prog.twin_pure rfl) (fun _ => ?_)
          refine Prog.twin_ite (fun _ => Prog.twin_pure rfl) (fun _ => ?_)
          refine Prog.twin_bind (twin_scanChunks h _ _ _ _ _) ?_
          rintro _ r rfl
          cases r with
          | error rc =>
              exact Prog.twin_pure rfl
          | ok crc =>
              exact Prog.twin_ite (fun _ => Prog.twin_pure rfl)
                (fun _ => Prog.twin_pure rfl)

end Records

section Replay

variable {A : Access} {db : Db} {fd : Fd}

theorem twin_queueGetOrCreate (st : State) (name : QueueName) :
    Twin A Same (st.queueGetOrCreate name) (st.queueGetOrCreate name) := by
  unfold State.queueGetOrCreate
  cases st.queueGet name with
  | some q =>
      exact Prog.twin_pure rfl
  | none =>
      refine Prog.twin_bind twin_alloc ?_
      rintro _ r rfl
      exact Prog.twin_ite (fun _ => Prog.twin_pure rfl)
        (fun _ => Prog.twin_pure rfl)

theorem twin_replayPush (hr : A.reads db.fd fd) (hw : A.writes db.fd fd)
    (st : State) (off : UInt64) (plen : UInt32) :
    Twin A (ReplayAlike A) (replayPush db st off plen)
      (replayPush { db with fd := fd } st off plen) := by
  unfold replayPush
  refine Prog.twin_ite (fun _ => Prog.twin_pure rfl) (fun _ => ?_)
  refine Prog.twin_bind (twin_readFull hr _ _) ?_
  rintro _ r rfl
  cases r with
  | error rc =>
      exact Prog.twin_pure rfl
  | ok fixed =>
      refine Prog.twin_ite (fun _ => Prog.twin_pure rfl) (fun _ => ?_)
      refine Prog.twin_ite (fun _ => Prog.twin_pure rfl) (fun _ => ?_)
      refine Prog.twin_ite (fun _ => Prog.twin_pure rfl) (fun _ => ?_)
      refine Prog.twin_bind (twin_readFull hr _ _) ?_
      rintro _ r rfl
      cases r with
      | error rc =>
          exact Prog.twin_pure rfl
      | ok name =>
          refine Prog.twin_ite (fun _ => Prog.twin_pure rfl) (fun _ => ?_)
          refine Prog.twin_bind twin_alloc ?_
          rintro _ r rfl
          refine Prog.twin_ite (fun _ => Prog.twin_pure rfl) (fun _ => ?_)
          by_cases hname : 1 ≤ name.length ∧ name.length ≤ queueNameMax
          · rw [dif_pos hname, dif_pos hname]
            refine Prog.twin_bind (twin_queueGetOrCreate _ _) ?_
            rintro _ r rfl
            cases r with
            | none =>
                exact Prog.twin_pure rfl
            | some x =>
                refine Prog.twin_pure ⟨?_, rfl⟩
                unfold replayPushIds
                dsimp only
                split_ifs <;> exact ⟨fd, rfl, hr, hw⟩
          · rw [dif_neg hname, dif_neg hname]
            exact Prog.twin_stuck

theorem twin_replayLease (hr : A.reads db.fd fd) (hw : A.writes db.fd fd)
    (st : State) (off : UInt64) (plen : UInt32) :
    Twin A (ReplayAlike A) (replayLease db st off plen)
      (replayLease { db with fd := fd } st off plen) := by
  unfold replayLease
  refine Prog.twin_ite (fun _ => Prog.twin_pure rfl) (fun _ => ?_)
  refine Prog.twin_bind (twin_readFull hr _ _) ?_
  rintro _ r rfl
  cases r with
  | error rc =>
      exact Prog.twin_pure rfl
  | ok buf =>
      refine Prog.twin_ite (fun _ => Prog.twin_pure rfl) (fun _ => ?_)
      cases st.msgGet (getU64le buf) with
      | none =>
          exact Prog.twin_pure rfl
      | some m =>
          refine Prog.twin_ite (fun _ => Prog.twin_pure rfl) (fun _ => ?_)
          refine Prog.twin_ite (fun _ => Prog.twin_pure rfl) (fun _ => ?_)
          cases st.queueGet m.queueName with
          | none =>
              exact Prog.twin_pure rfl
          | some q =>
              refine Prog.twin_bind twin_alloc ?_
              rintro _ r rfl
              refine Prog.twin_ite (fun _ => Prog.twin_pure rfl) (fun _ => ?_)
              refine Prog.twin_pure ⟨?_, rfl⟩
              unfold replayLeaseIds
              dsimp only
              split_ifs <;> exact ⟨fd, rfl, hr, hw⟩

theorem twin_replayResolve
    (resolve : State → Queue → Msg → UInt64 → State)
    (hr : A.reads db.fd fd) (hw : A.writes db.fd fd)
    (st : State) (off : UInt64) (plen : UInt32) :
    Twin A (ReplayAlike A) (replayResolve resolve db st off plen)
      (replayResolve resolve { db with fd := fd } st off plen) := by
  unfold replayResolve
  refine Prog.twin_ite (fun _ => Prog.twin_pure rfl) (fun _ => ?_)
  refine Prog.twin_bind (twin_readFull hr _ _) ?_
  rintro _ r rfl
  cases r with
  | error rc =>
      exact Prog.twin_pure rfl
  | ok buf =>
      dsimp only
      cases st.msgGet (getU64le buf) with
      | none =>
          exact Prog.twin_pure rfl
      | some m =>
          refine Prog.twin_ite (fun _ => Prog.twin_pure rfl) (fun _ => ?_)
          refine Prog.twin_ite (fun _ => Prog.twin_pure rfl) (fun _ => ?_)
          cases st.queueGet m.queueName with
          | none =>
              exact Prog.twin_pure rfl
          | some q =>
              exact Prog.twin_pure ⟨⟨fd, rfl, hr, hw⟩, rfl⟩

theorem twin_replayCheckpoint (hr : A.reads db.fd fd)
    (hw : A.writes db.fd fd) (st : State) (off : UInt64) (plen : UInt32) :
    Twin A (ReplayAlike A) (replayCheckpoint db st off plen)
      (replayCheckpoint { db with fd := fd } st off plen) := by
  unfold replayCheckpoint
  refine Prog.twin_ite (fun _ => Prog.twin_pure rfl) (fun _ => ?_)
  refine Prog.twin_bind (twin_readFull hr _ _) ?_
  rintro _ r rfl
  cases r with
  | error rc =>
      exact Prog.twin_pure rfl
  | ok buf =>
      refine Prog.twin_pure ⟨?_, rfl⟩
      unfold replayCheckpointIds
      dsimp only
      split_ifs <;> exact ⟨fd, rfl, hr, hw⟩

theorem twin_replayRecord (type : UInt8) (hr : A.reads db.fd fd)
    (hw : A.writes db.fd fd) (st : State) (off : UInt64) (plen : UInt32) :
    Twin A (ReplayAlike A) (replayRecord type db st off plen)
      (replayRecord type { db with fd := fd } st off plen) := by
  unfold replayRecord
  refine Prog.twin_ite (fun _ => twin_replayPush hr hw _ _ _) (fun _ => ?_)
  refine Prog.twin_ite (fun _ => twin_replayLease hr hw _ _ _) (fun _ => ?_)
  refine Prog.twin_ite (fun _ => twin_replayResolve _ hr hw _ _ _)
    (fun _ => ?_)
  refine Prog.twin_ite (fun _ => twin_replayResolve _ hr hw _ _ _)
    (fun _ => ?_)
  refine Prog.twin_ite (fun _ => twin_replayResolve _ hr hw _ _ _)
    (fun _ => ?_)
  refine Prog.twin_ite (fun _ => twin_replayCheckpoint hr hw _ _ _)
    (fun _ => ?_)
  exact Prog.twin_ite
    (fun _ => Prog.twin_pure ⟨⟨fd, rfl, hr, hw⟩, rfl⟩)
    (fun _ => Prog.twin_pure rfl)

theorem twin_replayLoop (fuel : Nat) (hr : A.reads db.fd fd)
    (hw : A.writes db.fd fd) (st : State) (off : UInt64) :
    Twin A (Handled A) (replayLoop fuel db st off)
      (replayLoop fuel { db with fd := fd } st off) := by
  induction fuel generalizing db fd st off with
  | zero =>
      exact Prog.twin_stuck
  | succ fuel ih =>
      unfold replayLoop
      refine Prog.twin_ite
        (fun _ => Prog.twin_pure ⟨rfl, fd, rfl, hr, hw⟩) (fun _ => ?_)
      refine Prog.twin_bind (twin_scanRecord hr _ _) ?_
      rintro _ r rfl
      cases r with
      | record type plen next =>
          refine Prog.twin_bind (twin_replayRecord type hr hw _ _ _) ?_
          intro x x' hx
          cases x with
          | error rc =>
              cases x' with
              | error rc' =>
                  cases hx
                  exact Prog.twin_pure ⟨rfl, fd, rfl, hr, hw⟩
              | ok y' =>
                  exact hx.elim
          | ok y =>
              cases x' with
              | error rc' =>
                  exact hx.elim
              | ok y' =>
                  obtain ⟨⟨fd1, hdb, hr1, hw1⟩, hst⟩ := hx
                  obtain ⟨db', st'⟩ := y'
                  cases hdb
                  cases hst
                  exact ih hr1 hw1 _ _
      | _ =>
          exact Prog.twin_pure ⟨rfl, fd, rfl, hr, hw⟩

theorem twin_replayLog (hr : A.reads db.fd fd) (hw : A.writes db.fd fd) :
    Twin A (Handled A) (replayLog db) (replayLog { db with fd := fd }) := by
  unfold replayLog
  refine Prog.twin_bind twin_alloc ?_
  rintro _ r rfl
  exact Prog.twin_ite (fun _ => Prog.twin_pure ⟨rfl, fd, rfl, hr, hw⟩)
    (fun _ => twin_replayLoop _ hr hw _ _)

end Replay

section Recovery

variable {A : Access} {db : Db} {fd : Fd}

theorem twin_replayWalLoop {walFd walFd' : Fd} (hwal : A.reads walFd walFd')
    (walSize : UInt64) (fuel : Nat) (hr : A.reads db.fd fd)
    (hw : A.writes db.fd fd) (off : UInt64) :
    Twin A (Handled A) (replayWalLoop walFd walSize fuel db off)
      (replayWalLoop walFd' walSize fuel { db with fd := fd } off) := by
  induction fuel generalizing db off with
  | zero =>
      exact Prog.twin_stuck
  | succ fuel ih =>
      have hcopy : ∀ (type : UInt8) (payload : Bytes) (next : UInt64),
          Twin A (Handled A)
            (appendRecord db.fd type payload db.logEndOffset >>= fun r =>
              if r.1 ≠ .ok then pure (r.1, db)
              else replayWalLoop walFd walSize fuel
                { db with logEndOffset := r.2 } next)
            (appendRecord fd type payload db.logEndOffset >>= fun r =>
              if r.1 ≠ .ok then pure (r.1, { db with fd := fd })
              else replayWalLoop walFd' walSize fuel
                { db with fd := fd, logEndOffset := r.2 } next) := by
        intro type payload next
        refine Prog.twin_bind (twin_appendRecord hw _ _ _) ?_
        rintro _ r rfl
        refine Prog.twin_ite
          (fun _ => Prog.twin_pure ⟨rfl, fd, rfl, hr, hw⟩) (fun _ => ?_)
        exact @ih { db with logEndOffset := r.2 } hr hw next
      unfold replayWalLoop
      refine Prog.twin_ite
        (fun _ => Prog.twin_pure ⟨rfl, fd, rfl, hr, hw⟩) (fun _ => ?_)
      refine Prog.twin_bind (twin_scanRecord hwal _ _) ?_
      rintro _ r rfl
      cases r with
      | record type plen next =>
          refine Prog.twin_ite (fun _ => ?_) (fun _ => hcopy _ _ _)
          refine Prog.twin_bind twin_alloc ?_
          rintro _ r rfl
          refine Prog.twin_ite
            (fun _ => Prog.twin_pure ⟨rfl, fd, rfl, hr, hw⟩) (fun _ => ?_)
          refine Prog.twin_bind (twin_readFull hwal _ _) ?_
          rintro _ r rfl
          cases r with
          | error rc =>
              exact Prog.twin_pure ⟨rfl, fd, rfl, hr, hw⟩
          | ok bs =>
              exact hcopy _ _ _
      | _ =>
          exact Prog.twin_pure ⟨rfl, fd, rfl, hr, hw⟩

theorem twin_replayWal (hopen : A.opens .wal false) (hdel : A.deletes .wal)
    (hr : A.reads db.fd fd) (hw : A.writes db.fd fd) :
    Twin A (Handled A) (replayWal db) (replayWal { db with fd := fd }) := by
  unfold replayWal
  refine Prog.twin_bind (twin_fileOpen hopen) ?_
  intro x x' hx
  match x, x', hx with
  | .error rc, .error _, rfl =>
      exact Prog.twin_pure ⟨rfl, fd, rfl, hr, hw⟩
  | .ok (walFd, isNew), .ok (walFd', isNew'), ⟨hwal, _, _⟩ =>
      refine Prog.twin_bind (twin_fileSize hwal) ?_
      rintro _ r rfl
      cases r with
      | error rc =>
          refine Prog.twin_bind (twin_fileClose hwal) ?_
          rintro _ r rfl
          refine Prog.twin_bind (twin_fileDelete hdel) ?_
          rintro _ r rfl
          exact Prog.twin_pure ⟨rfl, fd, rfl, hr, hw⟩
      | ok walSize =>
          refine Prog.twin_ite (fun _ => ?_) (fun _ => ?_)
          · refine Prog.twin_bind (twin_fileClose hwal) ?_
            rintro _ r rfl
            refine Prog.twin_bind (twin_fileDelete hdel) ?_
            rintro _ r rfl
            exact Prog.twin_pure ⟨rfl, fd, rfl, hr, hw⟩
          refine Prog.twin_bind (twin_readFull hwal _ _) ?_
          rintro _ r rfl
          cases r with
          | error rc =>
              refine Prog.twin_bind (twin_fileClose hwal) ?_
              rintro _ r rfl
              exact Prog.twin_pure ⟨rfl, fd, rfl, hr, hw⟩
          | ok hdr =>
              refine Prog.twin_ite (fun _ => ?_) (fun _ => ?_)
              · refine Prog.twin_bind (twin_fileClose hwal) ?_
                rintro _ r rfl
                exact Prog.twin_pure ⟨rfl, fd, rfl, hr, hw⟩
              refine Prog.twin_bind (twin_replayWalLoop hwal _ _ hr hw _) ?_
              intro x x' hx
              obtain ⟨rc, db1, fd1, rfl, rfl, hr1, hw1⟩ := hx.inv
              refine Prog.twin_bind (twin_fileClose hwal) ?_
              rintro _ r rfl
              refine Prog.twin_ite
                (fun _ => Prog.twin_pure ⟨rfl, fd1, rfl, hr1, hw1⟩)
                (fun _ => ?_)
              refine Prog.twin_bind (twin_headerUpdate hw1 _ rfl) ?_
              rintro _ r rfl
              refine Prog.twin_ite
                (fun _ => Prog.twin_pure ⟨rfl, fd1, rfl, hr1, hw1⟩)
                (fun _ => ?_)
              refine Prog.twin_bind (twin_fileDelete hdel) ?_
              rintro _ r rfl
              exact Prog.twin_pure ⟨rfl, fd1, rfl, hr1, hw1⟩

theorem twin_validateLoop (fuel : Nat) (hr : A.reads db.fd fd)
    (hw : A.writes db.fd fd) (off : UInt64) :
    Twin A (Handled A) (validateLoop fuel db off)
      (validateLoop fuel { db with fd := fd } off) := by
  induction fuel generalizing off with
  | zero =>
      exact Prog.twin_stuck
  | succ fuel ih =>
      unfold validateLoop
      refine Prog.twin_ite
        (fun _ => Prog.twin_pure ⟨rfl, fd, rfl, hr, hw⟩) (fun _ => ?_)
      refine Prog.twin_bind (twin_scanRecord hr _ _) ?_
      rintro _ r rfl
      cases r with
      | record type plen next =>
          exact ih next
      | scanPartial =>
          refine Prog.twin_bind (twin_fileTruncate hw _) ?_
          rintro _ r rfl
          refine Prog.twin_ite
            (fun _ => Prog.twin_pure ⟨rfl, fd, rfl, hr, hw⟩) (fun _ => ?_)
          refine Prog.twin_bind (twin_headerUpdate hw _ rfl) ?_
          rintro _ r rfl
          exact Prog.twin_pure ⟨rfl, fd, rfl, hr, hw⟩
      | _ =>
          exact Prog.twin_pure ⟨rfl, fd, rfl, hr, hw⟩

theorem twin_recoverScan (hr : A.reads db.fd fd) (hw : A.writes db.fd fd) :
    Twin A (Handled A) (recoverScan db) (recoverScan { db with fd := fd }) := by
  unfold recoverScan
  refine Prog.twin_bind (twin_validateLoop _ hr hw _) ?_
  intro x x' hx
  obtain ⟨rc, db1, fd1, rfl, rfl, hr1, hw1⟩ := hx.inv
  refine Prog.twin_ite
    (fun _ => Prog.twin_pure ⟨rfl, fd1, rfl, hr1, hw1⟩) (fun _ => ?_)
  have hreplay : Twin A (Handled A) (replayLog { db1 with state := none })
      (replayLog { db1 with fd := fd1, state := none }) :=
    twin_replayLog hr1 hw1
  refine Prog.twin_bind hreplay ?_
  intro x x' hx
  obtain ⟨rc, db2, fd2, rfl, rfl, hr2, hw2⟩ := hx.inv
  refine Prog.twin_ite
    (fun _ => Prog.twin_pure ⟨rfl, fd2, rfl, hr2, hw2⟩) (fun _ => ?_)
  refine Prog.twin_bind (twin_headerUpdate hw2 _ rfl) ?_
  rintro _ r rfl
  exact Prog.twin_pure ⟨rfl, fd2, rfl, hr2, hw2⟩

theorem twin_recoverFile (hr : A.reads db.fd fd) (hw : A.writes db.fd fd) :
    Twin A (Handled A) (recoverFile db) (recoverFile { db with fd := fd }) := by
  unfold recoverFile
  refine Prog.twin_bind (twin_fileSize hr) ?_
  rintro _ r rfl
  cases r with
  | error rc =>
      exact Prog.twin_pure ⟨rfl, fd, rfl, hr, hw⟩
  | ok fileSz =>
      refine Prog.twin_ite (fun _ => ?_) (fun _ => twin_recoverScan hr hw)
      refine Prog.twin_bind (twin_fileTruncate hw _) ?_
      rintro _ r rfl
      exact Prog.twin_ite
        (fun _ => Prog.twin_pure ⟨rfl, fd, rfl, hr, hw⟩)
        (fun _ => twin_recoverScan hr hw)

theorem twin_recover (hopen : A.opens .wal false) (hdel : A.deletes .wal)
    (hr : A.reads db.fd fd) (hw : A.writes db.fd fd) :
    Twin A (Handled A) (recover db) (recover { db with fd := fd }) := by
  have hwal : Twin A (Handled A)
      (if db.flags &&& flagWalPresent ≠ 0 ∨ db.flags &&& flagDirty ≠ 0 then
        replayWal db else pure (.ok, db))
      (if db.flags &&& flagWalPresent ≠ 0 ∨ db.flags &&& flagDirty ≠ 0 then
        replayWal { db with fd := fd } else pure (.ok, { db with fd := fd })) :=
    Prog.twin_ite (fun _ => twin_replayWal hopen hdel hr hw)
      (fun _ => Prog.twin_pure ⟨rfl, fd, rfl, hr, hw⟩)
  rw [recover_eq, recover_eq]
  refine Prog.twin_bind hwal ?_
  intro x x' hx
  obtain ⟨rc, db1, fd1, rfl, rfl, hr1, hw1⟩ := hx.inv
  exact Prog.twin_ite
    (fun _ => Prog.twin_pure ⟨rfl, fd1, rfl, hr1, hw1⟩)
    (fun _ => twin_recoverFile hr1 hw1)

end Recovery

section Queues

variable {A : Access} {db : Db} {fd : Fd}

theorem twin_qdbPush (hr : A.reads db.fd fd) (hw : A.writes db.fd fd)
    (queue : Option CString) (data : DataArg) :
    Twin A (Handled A) (qdbPush db queue data)
      (qdbPush { db with fd := fd } queue data) := by
  unfold qdbPush
  cases queueArg queue with
  | none =>
      exact Prog.twin_pure ⟨rfl, fd, rfl, hr, hw⟩
  | some name =>
      refine Prog.twin_ite
        (fun _ => Prog.twin_pure ⟨rfl, fd, rfl, hr, hw⟩) (fun _ => ?_)
      refine Prog.twin_ite
        (fun _ => Prog.twin_pure ⟨rfl, fd, rfl, hr, hw⟩) (fun _ => ?_)
      refine Prog.twin_bind twin_alloc ?_
      rintro _ r rfl
      refine Prog.twin_ite
        (fun _ => Prog.twin_pure ⟨rfl, fd, rfl, hr, hw⟩) (fun _ => ?_)
      refine Prog.twin_bind (twin_appendRecord hw _ _ _) ?_
      rintro _ r rfl
      refine Prog.twin_ite
        (fun _ => Prog.twin_pure ⟨rfl, fd, rfl, hr, hw⟩) (fun _ => ?_)
      refine Prog.twin_bind (twin_headerUpdate hw _ rfl) ?_
      rintro _ r rfl
      refine Prog.twin_ite
        (fun _ => Prog.twin_pure ⟨rfl, fd, rfl, hr, hw⟩) (fun _ => ?_)
      refine Prog.twin_bind twin_alloc ?_
      rintro _ r rfl
      refine Prog.twin_ite
        (fun _ => Prog.twin_pure ⟨rfl, fd, rfl, hr, hw⟩) (fun _ => ?_)
      dsimp only
      cases db.state with
      | none =>
          exact Prog.twin_stuck
      | some st =>
          refine Prog.twin_bind (twin_queueGetOrCreate _ _) ?_
          rintro _ r rfl
          cases r with
          | none =>
              exact Prog.twin_pure ⟨rfl, fd, rfl, hr, hw⟩
          | some x =>
              exact Prog.twin_pure ⟨rfl, fd, rfl, hr, hw⟩

theorem twin_readData (hr : A.reads db.fd fd) (m : Msg) :
    Twin A Same (readData db m) (readData { db with fd := fd } m) := by
  unfold readData
  refine Prog.twin_ite (fun _ => ?_) (fun _ => Prog.twin_pure rfl)
  refine Prog.twin_bind twin_alloc ?_
  rintro _ r rfl
  exact Prog.twin_ite (fun _ => Prog.twin_pure rfl)
    (fun _ => twin_readFull hr _ _)

theorem twin_doPop (hr : A.reads db.fd fd) (hw : A.writes db.fd fd)
    (st : State) (q : Queue) (m : Msg) :
    Twin A (HandledWith A) (doPop db st q m)
      (doPop { db with fd := fd } st q m) := by
  unfold doPop
  refine Prog.twin_bind twin_alloc ?_
  rintro _ r rfl
  refine Prog.twin_ite
    (fun _ => Prog.twin_pure ⟨rfl, ⟨fd, rfl, hr, hw⟩, rfl⟩) (fun _ => ?_)
  refine Prog.twin_bind (twin_readData hr m) ?_
  rintro _ r rfl
  cases r with
  | error rc =>
      exact Prog.twin_pure ⟨rfl, ⟨fd, rfl, hr, hw⟩, rfl⟩
  | ok data =>
      refine Prog.twin_bind twin_alloc ?_
      rintro _ r rfl
      refine Prog.twin_ite
        (fun _ => Prog.twin_pure ⟨rfl, ⟨fd, rfl, hr, hw⟩, rfl⟩) (fun _ => ?_)
      refine Prog.twin_bind twin_timeUs ?_
      rintro _ now rfl
      refine Prog.twin_bind (twin_appendRecord hw _ _ _) ?_
      rintro _ r rfl
      refine Prog.twin_ite
        (fun _ => Prog.twin_pure ⟨rfl, ⟨fd, rfl, hr, hw⟩, rfl⟩) (fun _ => ?_)
      refine Prog.twin_bind (twin_headerUpdate hw _ rfl) ?_
      rintro _ r rfl
      exact Prog.twin_ite
        (fun _ => Prog.twin_pure ⟨rfl, ⟨fd, rfl, hr, hw⟩, rfl⟩)
        (fun _ => Prog.twin_pure ⟨rfl, ⟨fd, rfl, hr, hw⟩, rfl⟩)

theorem twin_qdbPop (hr : A.reads db.fd fd) (hw : A.writes db.fd fd)
    (queue : Option CString) (outMsg : Bool) :
    Twin A (HandledWith A) (qdbPop db queue outMsg)
      (qdbPop { db with fd := fd } queue outMsg) := by
  obtain ⟨fd0, lk, n1, n2, so, eo, ct, fl, lt, st?⟩ := db
  unfold qdbPop
  refine Prog.twin_ite
    (fun _ => Prog.twin_pure ⟨rfl, ⟨fd, rfl, hr, hw⟩, rfl⟩) (fun _ => ?_)
  cases queueArg queue with
  | none =>
      exact Prog.twin_pure ⟨rfl, ⟨fd, rfl, hr, hw⟩, rfl⟩
  | some name =>
      dsimp only
      cases st? with
      | none =>
          exact Prog.twin_stuck
      | some st =>
          dsimp only
          cases st.queueGet name with
          | none =>
              exact Prog.twin_pure ⟨rfl, ⟨fd, rfl, hr, hw⟩, rfl⟩
          | some q =>
              refine Prog.twin_ite
                (fun _ => Prog.twin_pure ⟨rfl, ⟨fd, rfl, hr, hw⟩, rfl⟩)
                (fun _ => ?_)
              cases st.msgGet q.pendingHead with
              | none =>
                  exact Prog.twin_pure ⟨rfl, ⟨fd, rfl, hr, hw⟩, rfl⟩
              | some m =>
                  exact twin_doPop hr hw st q m

theorem twin_qdbPopAny (hr : A.reads db.fd fd) (hw : A.writes db.fd fd)
    (outMsg : Bool) :
    Twin A (HandledWith A) (qdbPopAny db outMsg)
      (qdbPopAny { db with fd := fd } outMsg) := by
  obtain ⟨fd0, lk, n1, n2, so, eo, ct, fl, lt, st?⟩ := db
  unfold qdbPopAny
  refine Prog.twin_ite
    (fun _ => Prog.twin_pure ⟨rfl, ⟨fd, rfl, hr, hw⟩, rfl⟩) (fun _ => ?_)
  dsimp only
  cases st? with
  | none =>
      exact Prog.twin_stuck
  | some st =>
      dsimp only
      cases popAnyScan st st.queues none 0xFFFFFFFFFFFFFFFF with
      | error rc =>
          exact Prog.twin_pure ⟨rfl, ⟨fd, rfl, hr, hw⟩, rfl⟩
      | ok best =>
          cases best with
          | none =>
              exact Prog.twin_pure ⟨rfl, ⟨fd, rfl, hr, hw⟩, rfl⟩
          | some x =>
              exact twin_doPop hr hw st x.1 x.2

theorem twin_resolveLease (type : UInt8)
    (update : State → Msg → UInt64 → State) (hr : A.reads db.fd fd)
    (hw : A.writes db.fd fd) (st : State) (m : Msg) (msgId leaseId : UInt64) :
    Twin A (Handled A) (resolveLease type update db st m msgId leaseId)
      (resolveLease type update { db with fd := fd } st m msgId leaseId) := by
  unfold resolveLease
  refine Prog.twin_bind (twin_appendRecord hw _ _ _) ?_
  rintro _ r rfl
  refine Prog.twin_ite
    (fun _ => Prog.twin_pure ⟨rfl, fd, rfl, hr, hw⟩) (fun _ => ?_)
  refine Prog.twin_bind (twin_headerUpdate hw _ rfl) ?_
  rintro _ r rfl
  exact Prog.twin_ite
    (fun _ => Prog.twin_pure ⟨rfl, fd, rfl, hr, hw⟩)
    (fun _ => Prog.twin_pure ⟨rfl, fd, rfl, hr, hw⟩)

theorem twin_resolveCall (type : UInt8)
    (update : State → Msg → UInt64 → State) (hr : A.reads db.fd fd)
    (hw : A.writes db.fd fd) (msgId leaseId : UInt64) :
    Twin A (Handled A) (resolveCall type update db msgId leaseId)
      (resolveCall type update { db with fd := fd } msgId leaseId) := by
  obtain ⟨fd0, lk, n1, n2, so, eo, ct, fl, lt, st?⟩ := db
  unfold resolveCall
  dsimp only
  cases st? with
  | none =>
      exact Prog.twin_stuck
  | some st =>
      dsimp only
      cases st.msgGet msgId with
      | none =>
          exact Prog.twin_pure ⟨rfl, fd, rfl, hr, hw⟩
      | some m =>
          refine Prog.twin_ite
            (fun _ => Prog.twin_pure ⟨rfl, fd, rfl, hr, hw⟩) (fun _ => ?_)
          refine Prog.twin_ite
            (fun _ => Prog.twin_pure ⟨rfl, fd, rfl, hr, hw⟩) (fun _ => ?_)
          exact Prog.twin_ite
            (fun _ => Prog.twin_pure ⟨rfl, fd, rfl, hr, hw⟩)
            (fun _ => twin_resolveLease type update hr hw st m msgId leaseId)

theorem twin_expireOne (hr : A.reads db.fd fd) (hw : A.writes db.fd fd)
    (st : State) (leaseId msgId : UInt64) :
    Twin A (Handled A) (expireOne db st leaseId msgId)
      (expireOne { db with fd := fd } st leaseId msgId) := by
  unfold expireOne
  cases st.msgGet msgId with
  | none =>
      exact Prog.twin_pure ⟨rfl, fd, rfl, hr, hw⟩
  | some m =>
      exact Prog.twin_ite
        (fun _ => Prog.twin_pure ⟨rfl, fd, rfl, hr, hw⟩)
        (fun _ => twin_resolveLease _ _ hr hw st m msgId leaseId)

theorem twin_expireChain (now : UInt64) (ls : List Lease)
    (hr : A.reads db.fd fd) (hw : A.writes db.fd fd) (processed : Int32) :
    Twin A (HandledWith A) (expireChain now ls db processed)
      (expireChain now ls { db with fd := fd } processed) := by
  induction ls generalizing db fd processed with
  | nil =>
      exact Prog.twin_pure ⟨rfl, ⟨fd, rfl, hr, hw⟩, rfl⟩
  | cons l ls ih =>
      obtain ⟨fd0, lk, n1, n2, so, eo, ct, fl, lt, st?⟩ := db
      unfold expireChain
      refine Prog.twin_ite (fun _ => ?_) (fun _ => ih hr hw processed)
      dsimp only
      cases st? with
      | none =>
          exact Prog.twin_stuck
      | some st =>
          refine Prog.twin_bind (twin_expireOne hr hw st _ _) ?_
          intro x x' hx
          obtain ⟨rc, db1, fd1, rfl, rfl, hr1, hw1⟩ := hx.inv
          exact Prog.twin_ite
            (fun _ => Prog.twin_pure ⟨rfl, ⟨fd1, rfl, hr1, hw1⟩, rfl⟩)
            (fun _ => ih hr1 hw1 _)

theorem twin_expireBuckets (now : UInt64) (bs : List (Fin 1024))
    (hr : A.reads db.fd fd) (hw : A.writes db.fd fd) (processed : Int32) :
    Twin A (HandledWith A) (expireBuckets now bs db processed)
      (expireBuckets now bs { db with fd := fd } processed) := by
  induction bs generalizing db fd processed with
  | nil =>
      exact Prog.twin_pure ⟨rfl, ⟨fd, rfl, hr, hw⟩, rfl⟩
  | cons b bs ih =>
      obtain ⟨fd0, lk, n1, n2, so, eo, ct, fl, lt, st?⟩ := db
      unfold expireBuckets
      dsimp only
      cases st? with
      | none =>
          exact Prog.twin_stuck
      | some st =>
          refine Prog.twin_bind (twin_expireChain now _ hr hw _) ?_
          rintro ⟨rc, db1, n⟩ x' ⟨hrc, ⟨fd1, hdb, hr1, hw1⟩, hn⟩
          obtain ⟨rc', db1', n'⟩ := x'
          cases hrc
          cases hn
          change db1' = _ at hdb
          subst hdb
          exact Prog.twin_ite
            (fun _ => Prog.twin_pure ⟨rfl, ⟨fd1, rfl, hr1, hw1⟩, rfl⟩)
            (fun _ => ih hr1 hw1 _)

theorem twin_processExpired (hr : A.reads db.fd fd)
    (hw : A.writes db.fd fd) :
    Twin A (HandledWith A) (qdbProcessExpiredLeases db)
      (qdbProcessExpiredLeases { db with fd := fd }) := by
  unfold qdbProcessExpiredLeases
  refine Prog.twin_bind twin_timeUs ?_
  rintro _ now rfl
  generalize List.finRange 1024 = bs
  exact twin_expireBuckets now bs hr hw 0

end Queues

section Compaction

variable {A : Access} {db : Db} {fd src src' dst dst' : Fd}

theorem twin_compactWritePush (hs : A.reads src src')
    (hd : A.writes dst dst') (m : Msg) (off : UInt64) :
    Twin A Same (compactWritePush src dst m off)
      (compactWritePush src' dst' m off) := by
  unfold compactWritePush
  refine Prog.twin_bind twin_alloc ?_
  rintro _ r rfl
  refine Prog.twin_ite (fun _ => Prog.twin_pure rfl) (fun _ => ?_)
  refine Prog.twin_ite (fun _ => ?_) (fun _ => twin_appendRecord hd _ _ _)
  refine Prog.twin_bind (twin_readFull hs _ _) ?_
  rintro _ r rfl
  cases r with
  | error rc =>
      exact Prog.twin_pure rfl
  | ok bs =>
      exact twin_appendRecord hd _ _ _

theorem twin_compactChain (hs : A.reads src src') (hd : A.writes dst dst')
    (st : State) (fuel : Nat) (mId off : UInt64) :
    Twin A Same (compactChain src dst st fuel mId off)
      (compactChain src' dst' st fuel mId off) := by
  induction fuel generalizing mId off with
  | zero =>
      exact Prog.twin_stuck
  | succ fuel ih =>
      unfold compactChain
      refine Prog.twin_ite (fun _ => Prog.twin_pure rfl) (fun _ => ?_)
      cases st.msgGet mId with
      | none =>
          exact Prog.twin_pure rfl
      | some m =>
          refine Prog.twin_bind (twin_compactWritePush hs hd m off) ?_
          rintro _ r rfl
          exact Prog.twin_ite (fun _ => Prog.twin_pure rfl)
            (fun _ => ih _ _)

theorem twin_compactPending (hs : A.reads src src') (hd : A.writes dst dst')
    (st : State) (qs : List Queue) (off : UInt64) :
    Twin A Same (compactPending src dst st qs off)
      (compactPending src' dst' st qs off) := by
  induction qs generalizing off with
  | nil =>
      exact Prog.twin_pure rfl
  | cons q qs ih =>
      unfold compactPending
      refine Prog.twin_bind (twin_compactChain hs hd st _ _ _) ?_
      rintro _ r rfl
      exact Prog.twin_ite (fun _ => Prog.twin_pure rfl) (fun _ => ih _)

theorem twin_compactLeased (hs : A.reads src src') (hd : A.writes dst dst')
    (st : State) (ls : List Lease) (off : UInt64) :
    Twin A Same (compactLeased src dst st ls off)
      (compactLeased src' dst' st ls off) := by
  induction ls generalizing off with
  | nil =>
      exact Prog.twin_pure rfl
  | cons l ls ih =>
      unfold compactLeased
      cases st.msgGet l.msgId with
      | none =>
          exact Prog.twin_pure rfl
      | some m =>
          refine Prog.twin_bind (twin_compactWritePush hs hd m off) ?_
          rintro _ r rfl
          refine Prog.twin_ite (fun _ => Prog.twin_pure rfl) (fun _ => ?_)
          refine Prog.twin_bind (twin_appendRecord hd _ _ _) ?_
          rintro _ r rfl
          exact Prog.twin_ite (fun _ => Prog.twin_pure rfl) (fun _ => ih _)

theorem twin_compactWriteCheckpoint (hd : A.writes dst dst') (fd : Fd)
    (off : UInt64) :
    Twin A Same (compactWriteCheckpoint dst db off)
      (compactWriteCheckpoint dst' { db with fd := fd } off) := by
  unfold compactWriteCheckpoint
  refine Prog.twin_bind twin_timeUs ?_
  rintro _ now rfl
  exact twin_appendRecord hd _ _ _

/-- Filling the staging file reads the database and writes only the staging
file. -/
theorem twin_compactStage (hs : A.reads db.fd fd) (hd : A.writes dst dst') :
    Twin A Same (compactStage db dst)
      (compactStage { db with fd := fd } dst') := by
  have hmeta : compactMeta { db with fd := fd } = compactMeta db := rfl
  have hwrite : Twin A Same (headerWrite dst (compactMeta db))
      (headerWrite dst' (compactMeta { db with fd := fd })) := by
    rw [hmeta]
    exact twin_headerWrite hd _ rfl
  obtain ⟨fd0, lk, n1, n2, so, eo, ct, fl, lt, st?⟩ := db
  unfold compactStage
  refine Prog.twin_bind hwrite ?_
  rintro _ r rfl
  refine Prog.twin_ite (fun _ => Prog.twin_pure rfl) (fun _ => ?_)
  cases st? with
  | none =>
      exact Prog.twin_stuck
  | some st =>
      dsimp only
      generalize st.leases = ls
      refine Prog.twin_bind (twin_compactPending hs hd st _ _) ?_
      rintro _ r rfl
      refine Prog.twin_ite (fun _ => Prog.twin_pure rfl) (fun _ => ?_)
      refine Prog.twin_bind (twin_compactLeased hs hd st _ _) ?_
      rintro _ r rfl
      refine Prog.twin_ite (fun _ => Prog.twin_pure rfl) (fun _ => ?_)
      refine Prog.twin_bind (twin_compactWriteCheckpoint hd _ _) ?_
      rintro _ r rfl
      refine Prog.twin_ite (fun _ => Prog.twin_pure rfl) (fun _ => ?_)
      refine Prog.twin_bind (twin_headerUpdate hd _ rfl) ?_
      rintro _ r rfl
      exact Prog.twin_ite (fun _ => Prog.twin_pure rfl)
        (fun _ => twin_fileSync hd)

/-- `qdb_compact` from the created staging file up to the rename; an error
carries what the call returns. -/
def compactReplace (target : Target) (db : Db) (compactFd : Fd) :
    Cmd (Except (Rc × Db) Db) := do
  let rc ← compactStage db compactFd
  fileClose compactFd
  if rc ≠ .ok then
    let _ ← fileDelete .compact
    return .error (rc, db)
  let mut db := db
  if target = .win32 then
    fileClose db.fd
    db := { db with fd := none }
  let rc ← fileRename .compact .main
  if rc ≠ .ok then
    let _ ← fileDelete .compact
    return .error (rc, db)
  return .ok db

/-- The end of `qdb_compact`. -/
def compactReopen : Except (Rc × Db) Db → Cmd (Rc × Db)
  | .error x => return x
  | .ok db => reopenAfterCompact db

theorem qdbCompactOn_eq (target : Target) (db : Db) :
    qdbCompactOn target db = (do
      if ¬ (← alloc) then return (.errNomem, db)
      let _ ← fileDelete .compact
      match ← fileOpen .compact true with
      | .error rc =>
          let _ ← fileDelete .compact
          return (rc, db)
      | .ok (compactFd, _) =>
          compactReplace target db compactFd >>= compactReopen) := by
  have hrest : ∀ compactFd, (do
      let rc ← compactStage db compactFd
      fileClose compactFd
      if rc ≠ .ok then
        let _ ← fileDelete .compact
        return (rc, db)
      let mut db := db
      if target = .win32 then
        fileClose db.fd
        db := { db with fd := none }
      let rc ← fileRename .compact .main
      if rc ≠ .ok then
        let _ ← fileDelete .compact
        return (rc, db)
      reopenAfterCompact db) =
      compactReplace target db compactFd >>= compactReopen := by
    intro compactFd
    unfold compactReplace
    simp only [bind_assoc]
    refine bind_congr (fun rc => ?_)
    refine bind_congr (fun _ => ?_)
    by_cases hrc : rc ≠ .ok
    · simp only [if_pos hrc, bind_assoc, pure_bind, compactReopen]
    · simp only [if_neg hrc]
      by_cases ht : target = .win32
      · simp only [if_pos ht, bind_assoc]
        refine bind_congr (fun _ => ?_)
        refine bind_congr (fun rc => ?_)
        by_cases hrc : rc ≠ .ok
        · simp only [if_pos hrc, bind_assoc, pure_bind, compactReopen]
        · simp only [if_neg hrc, pure_bind, compactReopen]
      · simp only [if_neg ht, bind_assoc]
        refine bind_congr (fun rc => ?_)
        by_cases hrc : rc ≠ .ok
        · simp only [if_pos hrc, bind_assoc, pure_bind, compactReopen]
        · simp only [if_neg hrc, pure_bind, compactReopen]
  simp only [← hrest]
  rfl

/-- The same outcome of `compactReplace`. -/
def Replaced (A : Access) :
    Except (Rc × Db) Db → Except (Rc × Db) Db → Prop
  | .error x, .error x' => Handled A x x'
  | .ok db, .ok db' => db.Alike A db'
  | _, _ => False

theorem twin_compactReplace (hA : A.Proper) (target : Target)
    (hdel : A.deletes .compact) (hren : A.renames .compact .main)
    (hr : A.reads db.fd fd) (hw : A.writes db.fd fd)
    (hs : A.reads dst dst') (hd : A.writes dst dst') :
    Twin A (Replaced A) (compactReplace target db dst)
      (compactReplace target { db with fd := fd } dst') := by
  have hrename : ∀ {db : Db} {fd : Fd}, A.reads db.fd fd → A.writes db.fd fd →
      Twin A (Replaced A)
        (do
          let rc ← fileRename .compact .main
          if rc ≠ .ok then
            let _ ← fileDelete .compact
            return .error (rc, db)
          return .ok db)
        (do
          let rc ← fileRename .compact .main
          if rc ≠ .ok then
            let _ ← fileDelete .compact
            return .error (rc, { db with fd := fd })
          return .ok { db with fd := fd }) := by
    intro db fd hr hw
    refine Prog.twin_bind (twin_fileRename hren) ?_
    rintro _ r rfl
    refine Prog.twin_ite (fun _ => ?_)
      (fun _ => Prog.twin_pure ⟨fd, rfl, hr, hw⟩)
    refine Prog.twin_bind (twin_fileDelete hdel) ?_
    rintro _ r rfl
    exact Prog.twin_pure ⟨rfl, fd, rfl, hr, hw⟩
  unfold compactReplace
  refine Prog.twin_bind (twin_compactStage hr hd) ?_
  rintro _ r rfl
  refine Prog.twin_bind (twin_fileClose hs) ?_
  rintro _ r rfl
  refine Prog.twin_ite (fun _ => ?_) (fun _ => ?_)
  · refine Prog.twin_bind (twin_fileDelete hdel) ?_
    rintro _ r rfl
    exact Prog.twin_pure ⟨rfl, fd, rfl, hr, hw⟩
  refine Prog.twin_ite (fun _ => ?_) (fun _ => hrename hr hw)
  refine Prog.twin_bind (twin_fileClose hr) ?_
  rintro _ r rfl
  exact @hrename { db with fd := none } none hA.reads_none hA.writes_none

theorem twin_reopenFail (hA : A.Proper) (hr : A.reads db.fd fd) (rc : Rc) :
    Twin A (Handled A) (reopenFail db rc)
      (reopenFail { db with fd := fd } rc) := by
  have hend : Twin A (Handled A)
      (pure (rc, { db with fd := none, state := none }))
      (pure (rc, { db with fd := none, state := none })) :=
    Prog.twin_pure ⟨rfl, none, rfl, hA.reads_none, hA.writes_none⟩
  unfold reopenFail
  by_cases hfd : db.fd = none
  · have hfd' : fd = none := (hA.valid _ _ hr).mpr hfd
    rw [if_neg (not_not.mpr hfd), if_neg (not_not.mpr hfd')]
    exact hend
  · have hfd' : fd ≠ none := fun h => hfd ((hA.valid _ _ hr).mp h)
    rw [if_pos hfd, if_pos hfd']
    refine Prog.twin_bind (twin_fileClose hr) ?_
    rintro _ r rfl
    exact hend

/-- The steps of `qdb__reopen_after_compact` behind its first close. -/
def reopenMain (db : Db) : Cmd (Rc × Db) := do
  match ← fileOpen .main false with
  | .error rc => reopenFail db rc
  | .ok (fd, _) =>
      let db := { db with fd := fd }
      let (rc, db) ← headerRead db.fd db
      if rc ≠ .ok then return (← reopenFail db rc)
      let (rc, db) ← recover { db with nextLeaseId := 1 }
      if rc ≠ .ok then return (← reopenFail db rc)
      return (.ok, db)

theorem reopenAfterCompact_eq (db : Db) :
    reopenAfterCompact db =
      if db.fd ≠ none then do
        fileClose db.fd
        reopenMain { db with fd := none }
      else reopenMain { db with fd := none } := by
  rfl

theorem twin_reopenMain (hA : A.Proper) (hmain : A.opens .main false)
    (hwal : A.opens .wal false) (hdel : A.deletes .wal) (hfd : db.fd = none) :
    Twin A (Handled A) (reopenMain db) (reopenMain db) := by
  have hnone : A.reads db.fd none := by
    rw [hfd]
    exact hA.reads_none
  unfold reopenMain
  refine Prog.twin_bind (twin_fileOpen hmain) ?_
  intro x x' hx
  match x, x', hx with
  | .error rc, .error _, rfl =>
      have hfail := twin_reopenFail hA hnone rc
      rwa [show { db with fd := none } = db by rw [← hfd]] at hfail
  | .ok (fd, isNew), .ok (fd', isNew'), ⟨hr, hw, _⟩ =>
      have hdb : Db.Alike A { db with fd := fd } { db with fd := fd' } :=
        ⟨fd', rfl, hr, hw⟩
      have hread : Twin A (Handled A) (headerRead fd { db with fd := fd })
          (headerRead fd' { db with fd := fd' }) :=
        twin_headerRead hdb
      refine Prog.twin_bind hread ?_
      intro x x' hx
      obtain ⟨rc, db1, fd1, rfl, rfl, hr1, hw1⟩ := hx.inv
      refine Prog.twin_ite (fun _ => ?_) (fun _ => ?_)
      · exact twin_reopenFail hA hr1 rc
      have hrec : Twin A (Handled A) (recover { db1 with nextLeaseId := 1 })
          (recover { db1 with fd := fd1, nextLeaseId := 1 }) :=
        twin_recover hwal hdel hr1 hw1
      refine Prog.twin_bind hrec ?_
      intro x x' hx
      obtain ⟨rc, db2, fd2, rfl, rfl, hr2, hw2⟩ := hx.inv
      refine Prog.twin_ite (fun _ => ?_) (fun _ => ?_)
      · exact twin_reopenFail hA hr2 rc
      exact Prog.twin_pure ⟨rfl, fd2, rfl, hr2, hw2⟩

theorem twin_reopenAfterCompact (hA : A.Proper) (hmain : A.opens .main false)
    (hwal : A.opens .wal false) (hdel : A.deletes .wal)
    (hr : A.reads db.fd fd) :
    Twin A (Handled A) (reopenAfterCompact db)
      (reopenAfterCompact { db with fd := fd }) := by
  have hrest : Twin A (Handled A) (reopenMain { db with fd := none })
      (reopenMain { db with fd := none }) :=
    twin_reopenMain hA hmain hwal hdel rfl
  rw [reopenAfterCompact_eq, reopenAfterCompact_eq]
  by_cases hfd : db.fd = none
  · have hfd' : fd = none := (hA.valid _ _ hr).mpr hfd
    rw [if_neg (not_not.mpr hfd), if_neg (not_not.mpr hfd')]
    exact hrest
  · have hfd' : fd ≠ none := fun h => hfd ((hA.valid _ _ hr).mp h)
    rw [if_pos hfd, if_pos hfd']
    refine Prog.twin_bind (twin_fileClose hr) ?_
    rintro _ r rfl
    exact hrest

theorem twin_compactReopen (hA : A.Proper) (hmain : A.opens .main false)
    (hwal : A.opens .wal false) (hdel : A.deletes .wal)
    {x x' : Except (Rc × Db) Db} (hx : Replaced A x x') :
    Twin A (Handled A) (compactReopen x) (compactReopen x') := by
  match x, x', hx with
  | .error x, .error x', hx =>
      exact Prog.twin_pure hx
  | .ok db, .ok _, ⟨fd, rfl, hr, _⟩ =>
      exact twin_reopenAfterCompact hA hmain hwal hdel hr

end Compaction

section Handles

variable {A : Access} {db : Db} {fd : Fd}

/-- `qdb_compact` with whatever descriptors the staging file gets. -/
theorem twin_qdbCompactOn (hA : A.Proper) (hdel : ∀ p, p ≠ .main → A.deletes p)
    (hmain : A.opens .main false) (hwal : A.opens .wal false)
    (hopen : A.opens .compact true) (hren : A.renames .compact .main)
    (target : Target) (hr : A.reads db.fd fd) (hw : A.writes db.fd fd) :
    Twin A (Handled A) (qdbCompactOn target db)
      (qdbCompactOn target { db with fd := fd }) := by
  have hdelc := hdel .compact nofun
  rw [qdbCompactOn_eq, qdbCompactOn_eq]
  refine Prog.twin_bind twin_alloc ?_
  rintro _ b rfl
  refine Prog.twin_ite (fun _ => Prog.twin_pure ⟨rfl, fd, rfl, hr, hw⟩)
    (fun _ => ?_)
  refine Prog.twin_bind (twin_fileDelete hdelc) ?_
  rintro _ rc rfl
  refine Prog.twin_bind (twin_fileOpen hopen) ?_
  intro x x' hx
  match x, x', hx with
  | .error rc, .error _, rfl =>
      refine Prog.twin_bind (twin_fileDelete hdelc) ?_
      rintro _ rc' rfl
      exact Prog.twin_pure ⟨rfl, fd, rfl, hr, hw⟩
  | .ok (dst, isNew), .ok (dst', isNew'), ⟨hs, hd, _⟩ =>
      exact Prog.twin_bind (twin_compactReplace hA target hdelc hren hr hw
        hs hd) (fun _ _ hx => twin_compactReopen hA hmain hwal
          (hdel .wal nofun) hx)

theorem twin_freeDb (hA : A.Proper) (hlock : A.locks)
    (hr : A.reads db.fd fd) :
    Twin A Same (freeDb db) (freeDb { db with fd := fd }) := by
  have hlocks : Twin A Same
      (if db.lockFd ≠ none then do
        fileUnlock db.lockFd
        lockfileClose db.lockFd
      else pure ())
      (if db.lockFd ≠ none then do
        fileUnlock db.lockFd
        lockfileClose db.lockFd
      else pure ()) := by
    refine Prog.twin_ite (fun _ => ?_) (fun _ => Prog.twin_pure rfl)
    refine Prog.twin_bind (twin_fileUnlock hlock _) ?_
    rintro _ r rfl
    exact twin_lockfileClose hlock _
  unfold freeDb
  by_cases hfd : db.fd = none
  · have hfd' : fd = none := (hA.valid _ _ hr).mpr hfd
    rw [if_neg (not_not.mpr hfd), if_neg (not_not.mpr hfd')]
    exact hlocks
  · have hfd' : fd ≠ none := fun h => hfd ((hA.valid _ _ hr).mp h)
    rw [if_pos hfd, if_pos hfd']
    refine Prog.twin_bind (twin_fileClose hr) ?_
    rintro _ r rfl
    exact hlocks

theorem twin_qdbClose (hA : A.Proper) (hlock : A.locks)
    (hr : A.reads db.fd fd) (hw : A.writes db.fd fd) :
    Twin A Same (qdbClose db) (qdbClose { db with fd := fd }) := by
  unfold qdbClose
  by_cases hfd : db.fd = none
  · have hfd' : fd = none := (hA.valid _ _ hr).mpr hfd
    rw [if_neg (not_not.mpr hfd), if_neg (not_not.mpr hfd')]
    exact twin_freeDb hA hlock hr
  · have hfd' : fd ≠ none := fun h => hfd ((hA.valid _ _ hr).mp h)
    rw [if_pos hfd, if_pos hfd']
    refine Prog.twin_bind (twin_headerUpdate hw _ rfl) ?_
    rintro _ r rfl
    exact twin_freeDb hA hlock hr

/-- The same result of `qdb_open_err`. -/
def Opened (A : Access) (x x' : Rc × Option Db) : Prop :=
  x'.1 = x.1 ∧ Option.Rel (Db.Alike A) x.2 x'.2

theorem twin_openFail (hA : A.Proper) (hlock : A.locks)
    (hr : A.reads db.fd fd) (rc : Rc) :
    Twin A (Opened A) (openFail db rc) (openFail { db with fd := fd } rc) := by
  unfold openFail
  refine Prog.twin_bind (twin_freeDb hA hlock hr) ?_
  rintro _ r rfl
  exact Prog.twin_pure ⟨rfl, .none⟩

theorem twin_openExisting (hA : A.Proper) (hlock : A.locks)
    (hwal : A.opens .wal false) (hdel : A.deletes .wal)
    (hr : A.reads db.fd fd) (hw : A.writes db.fd fd) :
    Twin A (Opened A) (openExisting db)
      (openExisting { db with fd := fd }) := by
  have hread : Twin A (Handled A) (headerRead db.fd db)
      (headerRead fd { db with fd := fd }) :=
    twin_headerRead ⟨fd, rfl, hr, hw⟩
  unfold openExisting
  refine Prog.twin_bind hread ?_
  intro x x' hx
  obtain ⟨rc, db1, fd1, rfl, rfl, hr1, hw1⟩ := hx.inv
  refine Prog.twin_ite (fun _ => twin_openFail hA hlock hr1 rc) (fun _ => ?_)
  have hrec : Twin A (Handled A) (recover { db1 with nextLeaseId := 1 })
      (recover { db1 with fd := fd1, nextLeaseId := 1 }) :=
    twin_recover hwal hdel hr1 hw1
  refine Prog.twin_bind hrec ?_
  intro x x' hx
  obtain ⟨rc, db2, fd2, rfl, rfl, hr2, hw2⟩ := hx.inv
  exact Prog.twin_ite (fun _ => twin_openFail hA hlock hr2 rc)
    (fun _ => Prog.twin_pure ⟨rfl, .some ⟨fd2, rfl, hr2, hw2⟩⟩)

theorem twin_openNew (hA : A.Proper) (hlock : A.locks)
    (hr : A.reads db.fd fd) (hw : A.writes db.fd fd) :
    Twin A (Opened A) (openNew db) (openNew { db with fd := fd }) := by
  have hfail : ∀ (db : Db) (rc : Rc), A.reads db.fd fd → Twin A (Opened A)
      (openFail db rc) (openFail { db with fd := fd } rc) :=
    fun db rc hr => twin_openFail hA hlock hr rc
  unfold openNew
  refine Prog.twin_bind twin_timeUs ?_
  rintro _ now rfl
  refine Prog.twin_bind (twin_headerWrite hw _ (by
    unfold headerEncode headerFields
    rfl)) ?_
  rintro _ r rfl
  refine Prog.twin_ite (fun _ => hfail { db with
    nextMsgId := 1, nextLeaseId := 1, logStartOffset := hdrSize
    logEndOffset := hdrSize, createTimeUs := now, flags := flagDirty }
    .errIo hr) (fun _ => ?_)
  refine Prog.twin_bind twin_alloc ?_
  rintro _ r rfl
  exact Prog.twin_ite (fun _ => hfail { db with
    nextMsgId := 1, nextLeaseId := 1, logStartOffset := hdrSize
    logEndOffset := hdrSize, createTimeUs := now, flags := flagDirty }
    .errNomem hr) (fun _ => Prog.twin_pure ⟨rfl, .some ⟨fd, rfl, hr, hw⟩⟩)

/-- `qdb_open_err` once it holds the lock. -/
def openLocked (db : Db) : Cmd (Rc × Option Db) := do
  match ← fileOpen .main true with
  | .error rc => openFail db rc
  | .ok (fd, isNew) =>
      let db := { db with fd := fd }
      if isNew then openNew db
      else openExisting db

theorem twin_qdbOpenErr (hA : A.Proper) (hlock : A.locks)
    (hdelc : A.deletes .compact) (hmain : A.opens .main true)
    (hwal : A.opens .wal false) (hdel : A.deletes .wal) (t : UInt32) :
    Twin A (Opened A) (qdbOpenErr t) (qdbOpenErr t) := by
  have hfail : ∀ (db : Db) (rc : Rc), db.fd = none → Twin A (Opened A)
      (openFail db rc) (openFail db rc) := by
    intro db rc hfd
    have hr : A.reads db.fd none := by
      rw [hfd]
      exact hA.reads_none
    have h := twin_openFail hA hlock hr rc
    rwa [show { db with fd := none } = db by rw [← hfd]] at h
  have hlocked : ∀ db : Db, db.fd = none → Twin A (Opened A)
      (openLocked db) (openLocked db) := by
    intro db hfd
    unfold openLocked
    refine Prog.twin_bind (twin_fileOpen hmain) ?_
    intro x x' hx
    match x, x', hx with
    | .error rc, .error _, rfl =>
        exact hfail db rc hfd
    | .ok (fd, isNew), .ok (fd', _), ⟨hr, hw, rfl⟩ =>
        have hnew : Twin A (Opened A) (openNew { db with fd := fd })
            (openNew { db with fd := fd' }) :=
          twin_openNew hA hlock hr hw
        have hold : Twin A (Opened A) (openExisting { db with fd := fd })
            (openExisting { db with fd := fd' }) :=
          twin_openExisting hA hlock hwal hdel hr hw
        exact Prog.twin_ite (fun _ => hnew) (fun _ => hold)
  unfold qdbOpenErr
  refine Prog.twin_bind twin_alloc ?_
  rintro _ r rfl
  refine Prog.twin_ite (fun _ => Prog.twin_pure ⟨rfl, .none⟩) (fun _ => ?_)
  refine Prog.twin_bind twin_alloc ?_
  rintro _ r1 rfl
  refine Prog.twin_bind twin_alloc ?_
  rintro _ r2 rfl
  refine Prog.twin_bind twin_alloc ?_
  rintro _ r3 rfl
  refine Prog.twin_ite (fun _ => hfail _ _ rfl) (fun _ => ?_)
  refine Prog.twin_bind (twin_lockfileOpen hlock) ?_
  rintro _ r rfl
  cases r with
  | error rc =>
      exact hfail _ rc rfl
  | ok lockFd =>
      refine Prog.twin_bind (twin_fileLock hlock _) ?_
      rintro _ rc rfl
      refine Prog.twin_ite (fun _ => ?_) (fun _ => ?_)
      · refine Prog.twin_bind (twin_lockfileClose hlock _) ?_
        rintro _ r rfl
        exact hfail _ rc rfl
      refine Prog.twin_bind twin_alloc ?_
      rintro _ r rfl
      refine Prog.twin_ite (fun _ => ?_) (fun _ => hlocked _ rfl)
      refine Prog.twin_bind (twin_fileDelete hdelc) ?_
      rintro _ r rfl
      exact hlocked _ rfl

end Handles

section Statistics

variable {A : Access} {db : Db} {fd : Fd}

theorem twin_qdbStats (hr : A.reads db.fd fd) (out : Bool) :
    Twin A Same (qdbStats db out) (qdbStats { db with fd := fd } out) := by
  obtain ⟨fd0, lk, n1, n2, so, eo, ct, fl, lt, st?⟩ := db
  unfold qdbStats
  refine Prog.twin_ite (fun _ => Prog.twin_pure rfl) (fun _ => ?_)
  cases st? with
  | none =>
      exact Prog.twin_stuck
  | some st =>
      refine Prog.twin_bind (twin_fileSize hr) ?_
      rintro _ r rfl
      cases r with
      | error rc =>
          exact Prog.twin_pure rfl
      | ok n =>
          exact Prog.twin_pure rfl

theorem twin_qdbQueueStats (queue : Option CString) (out : Bool) :
    Twin A Same (qdbQueueStats db queue out)
      (qdbQueueStats { db with fd := fd } queue out) := by
  obtain ⟨fd0, lk, n1, n2, so, eo, ct, fl, lt, st?⟩ := db
  unfold qdbQueueStats
  refine Prog.twin_ite (fun _ => Prog.twin_pure rfl) (fun _ => ?_)
  cases queueArg queue with
  | none =>
      exact Prog.twin_pure rfl
  | some name =>
      cases st? with
      | none =>
          exact Prog.twin_stuck
      | some st =>
          dsimp only
          cases st.queueGet name with
          | none =>
              exact Prog.twin_pure rfl
          | some q =>
              exact Prog.twin_pure rfl

theorem twin_qdbQueueList (out : Option (List Bytes)) (cap : UInt64)
    (outCount : Bool) :
    Twin A Same (qdbQueueList db out cap outCount)
      (qdbQueueList { db with fd := fd } out cap outCount) := by
  obtain ⟨fd0, lk, n1, n2, so, eo, ct, fl, lt, st?⟩ := db
  unfold qdbQueueList
  refine Prog.twin_ite (fun _ => Prog.twin_pure rfl) (fun _ => ?_)
  refine Prog.twin_ite (fun _ => Prog.twin_pure rfl) (fun _ => ?_)
  cases st? with
  | none =>
      exact Prog.twin_stuck
  | some st =>
      exact Prog.twin_pure rfl

theorem twin_qdbCompactRecommended (hr : A.reads db.fd fd) (out : Bool) :
    Twin A Same (qdbCompactRecommended db out)
      (qdbCompactRecommended { db with fd := fd } out) := by
  unfold qdbCompactRecommended
  refine Prog.twin_ite (fun _ => Prog.twin_pure rfl) (fun _ => ?_)
  refine Prog.twin_bind (twin_qdbStats hr true) ?_
  rintro _ ⟨rc, s⟩ rfl
  cases rc <;> cases s <;> exact Prog.twin_pure rfl

end Statistics

end Qdb
