import Qdb.CompactContract
import Qdb.Lib.FailStop

/-!
# Opening a database among other processes

Any operation of a `qdb_open` may fail, and the files it finds may hold changes
that are not synced.  An open that succeeds nevertheless has the tables of the
log (`World.Tidy.restores`): once it has the file it stops at the first failure
(`failStop_openExisting`), so that it has run as on a machine without failures,
and there it answers as on the synced files (`World.Tidy.run_settled`), where
the result is known (`Image.accepted`).
-/

namespace Qdb

open Lib

/-- The platform as several processes see it: any operation may fail, and the
clock shows any time. -/
def Shared : (o : Op) → World → o.Resp → World → Prop
  | .timeUs, w, _, w' => w' = w
  | o, w, r, w' => Failing (fun _ => True) o w r w'

/-- The response of an operation that has done its work.  There is no WAL file,
and the other files are not opened by name. -/
def Op.Good : (o : Op) → o.Resp → Prop
  | .fileOpen .wal false, r => r = .error .errIo
  | .fileClose _, _ => True
  | .lockfileClose _, _ => True
  | .fileUnlock _, _ => True
  | .fileSync _, r => r = .ok
  | .fileSize _, r => ∃ n, r = .ok n
  | .fileTruncate .., r => r = .ok
  | .pread .., r => ∃ bs, r = .ok bs
  | .pwrite .., r => r = .ok
  | .alloc, r => r = true
  | _, _ => False

/-- The response of an operation that has failed, or is not to be issued. -/
def Op.Bad : (o : Op) → o.Resp → Prop
  | .fileOpen .wal false, _ => False
  | .fileClose _, _ => False
  | .lockfileClose _, _ => False
  | .fileUnlock _, _ => False
  | .fileSync _, r => r = .errIo
  | .fileSize _, r => r = .error .errIo
  | .fileTruncate .., r => r = .errIo
  | .pread .., r => r = .error .errIo
  | .pwrite .., r => r = .errIo
  | .alloc, r => r = false
  | _, _ => True

/-- The program stops at a failure. -/
abbrev FailStop {α : Type} (ok : α → Prop) (p : Cmd α) : Prop :=
  Prog.FailStop Op.Good Op.Bad ok p

/-- The result is no error. -/
def Fine {ε α : Type} (r : Except ε α) : Prop :=
  ∃ a, r = .ok a

/-- The result reports no failure. -/
def Passes {α : Type} (r : Except Rc α) : Prop :=
  ∀ rc, r = .error rc → rc = .ok

/-- The scan reports no failure. -/
def ScanResult.Passes (v : ScanResult) : Prop :=
  ∀ rc, v = .err rc → rc = .ok

section Stops

variable {db : Db}

theorem Fine.ok {ε α : Type} (a : α) : Fine (.ok a : Except ε α) :=
  ⟨a, rfl⟩

theorem not_fine {ε α : Type} (e : ε) : ¬ Fine (.error e : Except ε α) := by
  rintro ⟨a, ha⟩
  cases ha

theorem not_passes {α : Type} {rc : Rc} (h : rc ≠ .ok) :
    ¬ Passes (.error rc : Except Rc α) :=
  fun hp => h (hp rc rfl)

/-- The code of a result decides. -/
theorem failStop_bind_rc {β : Type} {ok : β → Prop} {p : Cmd Rc}
    {f : Rc → Cmd β} (hp : FailStop (· = .ok) p) (hok : FailStop ok (f .ok))
    (hno : ∀ rc, rc ≠ .ok → Prog.Post (fun b => ¬ ok b) (f rc)) :
    FailStop ok (p >>= f) := by
  refine Prog.failStop_bind hp ?_ hno
  rintro _ rfl
  exact hok

theorem failStop_bind_except {α β ε : Type} {ok : β → Prop}
    {p : Cmd (Except ε α)} {f : Except ε α → Cmd β} (hp : FailStop Fine p)
    (hok : ∀ a, FailStop ok (f (.ok a)))
    (hno : ∀ e, Prog.Post (fun b => ¬ ok b) (f (.error e))) :
    FailStop ok (p >>= f) := by
  refine Prog.failStop_bind hp ?_ ?_
  · rintro _ ⟨a, rfl⟩
    exact hok a
  · intro r hr
    cases r with
    | error e =>
        exact hno e
    | ok a =>
        exact absurd (Fine.ok a) hr

/-- The error code of a result is passed on. -/
theorem failStop_bind_code {α β : Type} {ok : β → Prop}
    {p : Cmd (Except Rc α)} {f : Except Rc α → Cmd β} (hp : FailStop Passes p)
    (hok : ∀ a, FailStop ok (f (.ok a))) (hpass : FailStop ok (f (.error .ok)))
    (hno : ∀ rc, rc ≠ .ok → Prog.Post (fun b => ¬ ok b) (f (.error rc))) :
    FailStop ok (p >>= f) := by
  refine Prog.failStop_bind hp ?_ ?_
  · intro r hr
    cases r with
    | error rc =>
        rw [hr rc rfl]
        exact hpass
    | ok a =>
        exact hok a
  · intro r hr
    cases r with
    | error rc =>
        refine hno rc fun hrc => hr ?_
        rintro _ ⟨⟩
        exact hrc
    | ok a =>
        exact absurd (fun rc h => nomatch h) hr

theorem failStop_bind_alloc {β : Type} {ok : β → Prop} {f : Bool → Cmd β}
    (hok : FailStop ok (f true))
    (hno : Prog.Post (fun b => ¬ ok b) (f false)) :
    FailStop ok (alloc >>= f) := by
  refine Prog.failStop_bind (P := (· = true))
    (Prog.failStop_perform (o := Op.alloc) fun _ h => by
      rw [h]
      exact Bool.false_ne_true) ?_ ?_
  · rintro _ rfl
    exact hok
  · intro b hb
    rw [Bool.not_eq_true] at hb
    rw [hb]
    exact hno

theorem failStop_readFull (fd : Fd) (len : Nat) (off : UInt64) :
    FailStop Fine (readFull fd len off) := by
  unfold readFull
  refine failStop_bind_except
    (Prog.failStop_perform (o := Op.pread fd len off) fun _ h => by
      rw [h]
      exact not_fine _) ?_ ?_
  · intro bs
    dsimp only
    split <;> trivial
  · exact not_fine

theorem failStop_fileSize (fd : Fd) : FailStop Passes (fileSize fd) :=
  Prog.failStop_perform (o := Op.fileSize fd) fun _ h => by
    rw [h]
    exact not_passes (by simp)

theorem errIo_ne_ok {r : Rc} (h : r = .errIo) : ¬ r = .ok := by
  rw [h]
  simp

theorem failStop_headerUpdate (fd : Fd) (db : Db) :
    FailStop (· = .ok) (headerUpdate fd db) := by
  unfold headerUpdate
  refine failStop_bind_rc
    (Prog.failStop_perform (o := Op.pwrite fd (headerPatch db) 24)
      fun _ => errIo_ne_ok) ?_ ?_
  · rw [if_neg (by simp)]
    exact Prog.failStop_perform (o := Op.fileSync fd) fun _ => errIo_ne_ok
  · intro rc hrc
    rw [if_pos hrc]
    simp

theorem failStop_headerRead (fd : Fd) (db : Db) :
    FailStop (fun x => x.1 = .ok) (headerRead fd db) := by
  unfold headerRead
  refine failStop_bind_code (failStop_fileSize fd) ?_ trivial (by simp)
  intro n
  dsimp only
  split
  · trivial
  refine failStop_bind_except (failStop_readFull _ _ _) ?_ (by simp)
  intro buf
  trivial

theorem failStop_scanChunks (fd : Fd) (off : UInt64) (plen : UInt32)
    (fuel : Nat) (c r : UInt32) :
    FailStop Fine (scanChunks fd off plen fuel c r) := by
  induction fuel generalizing c r with
  | zero =>
      trivial
  | succ fuel ih =>
      unfold scanChunks
      split
      · trivial
      refine failStop_bind_except (failStop_readFull _ _ _) ?_ ?_
      · intro chunk
        exact ih _ _
      · intro rc
        exact not_fine _

theorem failStop_scanRecord (fd : Fd) (off stop : UInt64) :
    FailStop ScanResult.Passes (scanRecord fd off stop) := by
  have hno : ∀ rc : Rc, Prog.Post (fun v => ¬ ScanResult.Passes v)
      (pure (.err .errIo) : Cmd ScanResult) := by
    intro rc h
    cases h _ rfl
  unfold scanRecord
  split
  · trivial
  split
  · trivial
  refine failStop_bind_except (failStop_readFull _ _ _) ?_ hno
  intro hdr
  dsimp only
  split
  · trivial
  split
  · trivial
  refine failStop_bind_except (failStop_readFull _ _ _) ?_ hno
  intro marker
  dsimp only
  split
  · trivial
  split
  · trivial
  refine failStop_bind_except (failStop_scanChunks _ _ _ _ _ _) ?_ hno
  intro c
  dsimp only
  split <;> trivial

theorem failStop_queueGetOrCreate (st : State) (name : QueueName) :
    FailStop (fun x => x.isSome) (st.queueGetOrCreate name) := by
  unfold State.queueGetOrCreate
  split
  · trivial
  refine failStop_bind_alloc ?_ ?_
  · rw [if_pos rfl]
    trivial
  · simp

theorem failStop_replayPush (st : State) (off : UInt64) (plen : UInt32) :
    FailStop Passes (replayPush db st off plen) := by
  unfold replayPush
  split
  · trivial
  refine failStop_bind_except (failStop_readFull _ _ _) ?_ fun _ =>
    not_passes (by simp)
  intro fixed
  dsimp only
  split
  · trivial
  split
  · trivial
  split
  · trivial
  refine failStop_bind_except (failStop_readFull _ _ _) ?_ fun _ =>
    not_passes (by simp)
  intro name
  dsimp only
  split
  · trivial
  refine failStop_bind_alloc ?_ ?_
  swap
  · rw [if_pos (by simp)]
    exact not_passes (by simp)
  rw [if_neg (by simp)]
  split
  swap
  · trivial
  refine Prog.failStop_bind (failStop_queueGetOrCreate _ _) ?_ ?_
  · intro x hx
    obtain ⟨y, rfl⟩ := Option.isSome_iff_exists.mp hx
    trivial
  · intro x hx
    rw [Option.not_isSome_iff_eq_none] at hx
    subst hx
    exact not_passes (by simp)

theorem failStop_replayLease (st : State) (off : UInt64) (plen : UInt32) :
    FailStop Passes (replayLease db st off plen) := by
  unfold replayLease
  split
  · trivial
  refine failStop_bind_except (failStop_readFull _ _ _) ?_ fun _ =>
    not_passes (by simp)
  intro buf
  dsimp only
  split
  · trivial
  split
  · trivial
  split
  · trivial
  split
  · trivial
  split
  · trivial
  refine failStop_bind_alloc ?_ ?_
  · rw [if_neg (by simp)]
    trivial
  · rw [if_pos (by simp)]
    exact not_passes (by simp)

theorem failStop_replayResolve
    (resolve : State → Queue → Msg → UInt64 → State) (st : State)
    (off : UInt64) (plen : UInt32) :
    FailStop Passes (replayResolve resolve db st off plen) := by
  unfold replayResolve
  split
  · trivial
  refine failStop_bind_except (failStop_readFull _ _ _) ?_ fun _ =>
    not_passes (by simp)
  intro buf
  dsimp only
  repeat' first
    | trivial
    | split

theorem failStop_replayCheckpoint (st : State) (off : UInt64)
    (plen : UInt32) : FailStop Passes (replayCheckpoint db st off plen) := by
  unfold replayCheckpoint
  split
  · trivial
  refine failStop_bind_except (failStop_readFull _ _ _) ?_ fun _ =>
    not_passes (by simp)
  intro buf
  trivial

theorem failStop_replayRecord (type : UInt8) (st : State) (off : UInt64)
    (plen : UInt32) : FailStop Passes (replayRecord type db st off plen) := by
  unfold replayRecord
  split
  · exact failStop_replayPush st off plen
  split
  · exact failStop_replayLease st off plen
  split
  · exact failStop_replayResolve _ st off plen
  split
  · exact failStop_replayResolve _ st off plen
  split
  · exact failStop_replayResolve _ st off plen
  split
  · exact failStop_replayCheckpoint st off plen
  split <;> trivial

theorem failStop_replayLoop (fuel : Nat) (db : Db) (st : State)
    (off : UInt64) :
    FailStop (fun x => x.1 = .ok) (replayLoop fuel db st off) := by
  induction fuel generalizing db st off with
  | zero =>
      trivial
  | succ fuel ih =>
      unfold replayLoop
      split
      · trivial
      refine Prog.failStop_bind (failStop_scanRecord _ _ _) ?_ ?_
      · intro v hv
        split
        · trivial
        · trivial
        · trivial
        exact failStop_bind_code (failStop_replayRecord _ _ _ _)
          (fun x => ih x.1 x.2 _) trivial fun rc hrc => hrc
      · intro v hv
        split
        · exact absurd (fun rc h => nomatch h) hv
        · exact absurd (fun rc h => nomatch h) hv
        · next rc =>
          intro hrc
          refine hv ?_
          rintro _ ⟨⟩
          exact hrc
        · exact absurd (fun rc h => nomatch h) hv

theorem failStop_replayLog (db : Db) :
    FailStop (fun x => x.1 = .ok) (replayLog db) := by
  unfold replayLog
  refine failStop_bind_alloc ?_ ?_
  · rw [if_neg (by simp)]
    exact failStop_replayLoop _ _ _ _
  · rw [if_pos (by simp)]
    simp

theorem failStop_validateLoop (fuel : Nat) (db : Db) (off : UInt64) :
    FailStop (fun x => x.1 = .ok) (validateLoop fuel db off) := by
  induction fuel generalizing off with
  | zero =>
      trivial
  | succ fuel ih =>
      unfold validateLoop
      split
      · trivial
      refine Prog.failStop_bind (failStop_scanRecord _ _ _) ?_ ?_
      · intro v hv
        split
        · trivial
        · refine failStop_bind_rc
            (Prog.failStop_perform (o := Op.fileTruncate db.fd off)
              fun _ => errIo_ne_ok) ?_ ?_
          · rw [if_neg (by simp)]
            exact Prog.failStop_bind (failStop_headerUpdate _ _)
              (fun _ _ => trivial) fun rc hrc => hrc
          · intro rc hrc
            rw [if_pos hrc]
            simp
        · trivial
        · exact ih _
      · intro v hv
        split
        · exact absurd (fun rc h => nomatch h) hv
        · exact absurd (fun rc h => nomatch h) hv
        · next rc =>
          intro hrc
          refine hv ?_
          rintro _ ⟨⟩
          exact hrc
        · exact absurd (fun rc h => nomatch h) hv

/-- Without a WAL file there is nothing to replay. -/
theorem failStop_replayWal (db : Db) :
    FailStop (fun _ => True) (replayWal db) := by
  unfold replayWal
  constructor
  · rintro r rfl
    trivial
  · exact fun _ h => h.elim

theorem failStop_recoverScan (db : Db) :
    FailStop (fun x => x.1 = .ok) (recoverScan db) := by
  unfold recoverScan
  refine Prog.failStop_bind (failStop_validateLoop _ _ _) ?_ ?_
  · rintro ⟨rc, db1⟩ rfl
    dsimp only
    rw [if_neg (by simp)]
    refine Prog.failStop_bind (failStop_replayLog _) ?_ ?_
    · rintro ⟨rc, db2⟩ rfl
      dsimp only
      rw [if_neg (by simp)]
      exact Prog.failStop_bind (failStop_headerUpdate _ _)
        (fun _ _ => trivial) fun rc hrc => hrc
    · rintro ⟨rc, db2⟩ hrc
      dsimp only at hrc ⊢
      rw [if_pos hrc]
      exact hrc
  · rintro ⟨rc, db1⟩ hrc
    dsimp only at hrc ⊢
    rw [if_pos hrc]
    exact hrc

theorem failStop_recover (db : Db) :
    FailStop (fun x => x.1 = .ok) (recover db) := by
  have hfile : ∀ db, FailStop (fun x : Rc × Db => x.1 = .ok)
      (recoverFile db) := by
    intro db
    unfold recoverFile
    refine failStop_bind_code (failStop_fileSize db.fd) ?_ trivial
      fun rc hrc => hrc
    intro n
    dsimp only
    split
    swap
    · exact failStop_recoverScan db
    refine failStop_bind_rc
      (Prog.failStop_perform (o := Op.fileTruncate db.fd db.logEndOffset)
        fun _ => errIo_ne_ok) ?_ ?_
    · rw [if_neg (by simp)]
      exact failStop_recoverScan db
    · intro rc hrc
      rw [if_pos hrc]
      exact hrc
  have hwal : FailStop (fun _ => True)
      (if db.flags &&& flagWalPresent ≠ 0 ∨ db.flags &&& flagDirty ≠ 0 then
        replayWal db else pure (.ok, db)) := by
    split
    · exact failStop_replayWal db
    · trivial
  rw [recover_eq]
  refine Prog.failStop_seq hwal fun x => ?_
  split
  · trivial
  · exact hfile _

theorem post_openFail_rc {rc : Rc} (hrc : rc ≠ .ok) (db : Db) :
    Prog.Post (fun x => ¬ x.1 = .ok) (openFail db rc) := by
  unfold openFail
  exact Prog.post_bind (Prog.post_true _) fun _ _ => hrc

/-- The existing-file path of `qdb_open_err` stops at the first failure. -/
theorem failStop_openExisting (db : Db) :
    FailStop (fun x => x.1 = .ok) (openExisting db) := by
  unfold openExisting
  refine Prog.failStop_bind (failStop_headerRead _ _) ?_ ?_
  · rintro ⟨rc, db1⟩ rfl
    dsimp only
    rw [if_neg (by simp)]
    refine Prog.failStop_bind (failStop_recover _) ?_ ?_
    · rintro ⟨rc, db2⟩ rfl
      dsimp only
      rw [if_neg (by simp)]
      trivial
    · rintro ⟨rc, db2⟩ hrc
      dsimp only at hrc ⊢
      rw [if_pos hrc]
      exact post_openFail_rc hrc db2
  · rintro ⟨rc, db1⟩ hrc
    dsimp only at hrc ⊢
    rw [if_pos hrc]
    exact post_openFail_rc hrc db1

end Stops

section Platform

variable {o : Op} {r : o.Resp} {w w' : World}

/-- Every operation is good or bad on the machine without failures. -/
theorem posix_good_or_bad (hwal : w.dir .wal = none) (o : Op) :
    (o.Good (posix o w).1 ∧ (posix o w).2.dir .wal = none) ∨
      o.Bad (posix o w).1 := by
  cases o with
  | fileOpen p create =>
      cases p <;> cases create <;> try exact Or.inr trivial
      left
      simp [posix, hwal, Op.Good]
  | lockfileClose fd =>
      refine Or.inl ⟨trivial, ?_⟩
      simp only [posix, World.unlock]
      split <;> exact hwal
  | fileUnlock fd =>
      refine Or.inl ⟨trivial, ?_⟩
      simp only [posix, World.unlock]
      split <;> exact hwal
  | fileSync fd =>
      cases fd with
      | none =>
          exact Or.inr rfl
      | some i =>
          exact Or.inl ⟨rfl, hwal⟩
  | fileSize fd =>
      cases fd with
      | none =>
          exact Or.inr rfl
      | some i =>
          exact Or.inl ⟨⟨_, rfl⟩, hwal⟩
  | fileTruncate fd size =>
      cases fd with
      | none =>
          exact Or.inr rfl
      | some i =>
          simp only [posix]
          split
          · exact Or.inl ⟨rfl, hwal⟩
          · exact Or.inr rfl
  | pread fd len off =>
      simp only [posix]
      split
      · exact Or.inl ⟨⟨_, rfl⟩, hwal⟩
      cases fd with
      | none =>
          exact Or.inr rfl
      | some i =>
          dsimp only
          split
          · exact Or.inl ⟨⟨_, rfl⟩, hwal⟩
          · exact Or.inr rfl
  | pwrite fd bs off =>
      simp only [posix]
      split
      · exact Or.inl ⟨rfl, hwal⟩
      cases fd with
      | none =>
          exact Or.inr rfl
      | some i =>
          dsimp only
          split
          · exact Or.inl ⟨rfl, hwal⟩
          · split <;> exact Or.inr rfl
  | fileClose fd =>
      exact Or.inl ⟨trivial, hwal⟩
  | alloc =>
      exact Or.inl ⟨rfl, hwal⟩
  | _ =>
      exact Or.inr trivial

/-- A failure is reported; the open of the WAL file reports that there is
none. -/
theorem Op.Breaks.good_or_bad (hwal : w.dir .wal = none)
    (h : o.Breaks w r w') :
    (o.Good r ∧ posix o w = (r, w') ∧ w'.dir .wal = none) ∨ o.Bad r := by
  cases o with
  | fileOpen p create =>
      cases p <;> cases create <;> try exact Or.inr trivial
      obtain ⟨rfl, rfl⟩ := h
      left
      simp [posix, hwal, Op.Good]
  | fileClose fd =>
      exact h.elim
  | lockfileClose fd =>
      exact h.elim
  | fileUnlock fd =>
      exact h.elim
  | pread fd len off =>
      exact Or.inr h.1
  | fileSync fd =>
      exact Or.inr h.1
  | fileSize fd =>
      exact Or.inr h.1
  | fileTruncate fd size =>
      exact Or.inr h.1
  | pwrite fd bs off =>
      exact Or.inr h.1
  | alloc =>
      exact Or.inr h.1
  | _ =>
      exact Or.inr trivial

/-- Where no WAL file is, an operation does its work as on the machine without
failures, or reports a failure. -/
theorem Shared.good_or_bad (hwal : w.dir .wal = none) (h : Shared o w r w') :
    (o.Good r ∧ posix o w = (r, w') ∧ w'.dir .wal = none) ∨ o.Bad r := by
  have hf : Failing (fun _ => True) o w r w' →
      (o.Good r ∧ posix o w = (r, w') ∧ w'.dir .wal = none) ∨ o.Bad r := by
    rintro (hp | ⟨-, hb⟩)
    · have hgood := posix_good_or_bad hwal o
      rw [← hp] at hgood
      exact hgood.imp_left fun hg => ⟨hg.1, hp.symm, hg.2⟩
    · exact hb.good_or_bad hwal
  cases o <;> first | exact Or.inr trivial | exact hf h
end Platform

/-- Every name is bound to a file of its own, no file is longer than a file can
be, and there is no WAL file. -/
structure World.Tidy (w : World) : Prop where
  named : w.Named
  bounded : w.Bounded

section Tidy

variable {w w' : World} {o : Op} {r : o.Resp}

/-- Only the files count. -/
theorem World.Tidy.congr (h : w.Tidy) (hdir : w'.dir = w.dir)
    (hfiles : w'.files = w.files) (hino : w'.nextIno = w.nextIno) :
    w'.Tidy where
  named := h.named.congr hdir hino
  bounded i := by
    unfold World.content
    rw [hfiles]
    exact h.bounded i

/-- The operations of the library keep the file system in order. -/
theorem Shared.tidy (h : Shared o w r w') (ho : o.Alike namedAccess o)
    (hw : w.Tidy) : w'.Tidy := by
  have hf : Failing (fun _ => True) o w r w' → w'.Tidy := by
    rintro (hp | ⟨-, hb⟩)
    · have hkept : World.Tidy (posix o w).2 :=
        ⟨hw.named.op ho, bounded_posix o w hw.bounded⟩
      rw [← hp] at hkept
      exact hkept
    · cases o with
      | pwrite fd bs off =>
          obtain ⟨-, rfl | ⟨i, k, -, hk, hoff, rfl⟩⟩ := hb
          · exact hw
          · refine ⟨hw.named.congr rfl rfl, hw.bounded.issue i ?_⟩
            change (overwrite _ _ _).length ≤ _
            rw [length_overwrite, List.length_take]
            exact max_le (hw.bounded i) (by omega)
      | _ =>
          first
            | exact hb.elim
            | exact hb.2 ▸ hw
  cases o with
  | timeUs =>
      cases h
      exact hw
  | _ =>
      exact hf h

end Tidy

section Restored

variable {w w' : World} {db : Db} {t : UInt32} {i : Nat}

/-- The handle has the tables and counters that the bytes of the main file
give, those of a new database if there is no such file. -/
def World.Restores (w : World) (db : Db) : Prop :=
  match w.dir .main with
  | none => db.state = some .empty ∧ db.nextMsgId = 1 ∧ db.nextLeaseId = 1
  | some i => ∃ m rs v mem, Scanned (w.content i) m rs v ∧ Settles m rs v ∧
      replayRecords m.logStartOffset rs (Mem.start m.nextMsgId) = some mem ∧
      db.state = some mem.st ∧ db.nextMsgId = mem.nextMsgId ∧
      db.nextLeaseId = mem.nextLeaseId

/-- The machine with every issued change synced. -/
def World.settled (w : World) : World :=
  { w with files := fun j => ⟨w.content j, []⟩ }

/-- With the lock in hand, `qdb_open_err` opens the file. -/
theorem run_qdbOpenErr (hlock : w.lockOwner = none) :
    Prog.run posix (qdbOpenErr t) w =
      Prog.run posix (openLocked (Db.opened t w.nextLockFd none)) w.locked := by
  obtain ⟨dir, files, ino, lock, next, now⟩ := w
  cases hlock
  rfl

theorem run_openLocked (hi : w.dir .main = some i) :
    Prog.run posix (openLocked db) w =
      Prog.run posix (openExisting { db with fd := some i }) w := by
  unfold openLocked
  rw [Prog.run_bind]
  have hopen : Prog.run posix (fileOpen .main true) w =
      some (.ok (some i, false), w) := by
    change some (posix (.fileOpen .main true) w) = _
    simp only [posix, hi]
  rw [hopen]
  rfl

/-- A response of the platform to a request for memory. -/
theorem Shared.alloc {b : Bool} (h : Shared .alloc w b w') : w' = w := by
  rcases h with h | ⟨-, -, h⟩
  · cases h
    rfl
  · exact h

/-- An open that succeeds has taken the lock; the staging file may be left. -/
theorem exec_qdbOpenErr (hlock : w.lockOwner = none) {x : Rc × Option Db}
    (h : Prog.Exec Shared (qdbOpenErr t) w x w') (hx : x.1 = .ok) :
    ∃ w1, (w1 = w.locked ∨ w1 = { w.locked with dir := w.dir }) ∧
      Prog.Exec Shared (openLocked (Db.opened t w.nextLockFd none)) w1 x w' := by
  have hfail : ∀ {db : Db} {rc : Rc} {w1 : World}, rc ≠ .ok →
      ¬ Prog.Exec Shared (openFail db rc) w1 x w' := by
    intro db rc w1 hrc hfail
    exact (post_openFail_rc hrc db).of_exec hfail hx
  unfold qdbOpenErr at h
  obtain ⟨b, w1, hb, h⟩ := Prog.exec_bind.mp h
  cases Shared.alloc (Prog.exec_perform.mp hb)
  split at h
  · obtain ⟨rfl, -⟩ := h
    cases hx
  obtain ⟨b1, w1, hb, h⟩ := Prog.exec_bind.mp h
  cases Shared.alloc (Prog.exec_perform.mp hb)
  obtain ⟨b2, w1, hb, h⟩ := Prog.exec_bind.mp h
  cases Shared.alloc (Prog.exec_perform.mp hb)
  obtain ⟨b3, w1, hb, h⟩ := Prog.exec_bind.mp h
  cases Shared.alloc (Prog.exec_perform.mp hb)
  by_cases hall : ¬ (b1 ∧ b2 ∧ b3)
  · rw [if_pos hall] at h
    exact absurd h (hfail (by simp))
  rw [if_neg hall] at h
  obtain ⟨r, w1, hr, hrest⟩ := Prog.exec_bind.mp h
  rcases Prog.exec_perform.mp hr with hr | ⟨-, rfl, rfl⟩
  swap
  · exact absurd hrest (hfail (by simp))
  cases hr
  obtain ⟨r, w1, hr, h⟩ := Prog.exec_bind.mp hrest
  by_cases hrc : r ≠ .ok
  · rw [if_pos hrc] at h
    obtain ⟨-, w2, -, h⟩ := Prog.exec_bind.mp h
    exact absurd h (hfail hrc)
  rw [if_neg hrc] at h
  have hw1 : w1 = { w with
      nextLockFd := w.nextLockFd + 1, lockOwner := some w.nextLockFd } := by
    rcases Prog.exec_perform.mp hr with hr | ⟨-, hbad, -⟩
    · simp only [posix] at hr
      rw [if_pos (Or.inl hlock)] at hr
      exact congrArg Prod.snd hr
    · rw [hbad] at hrc
      exact absurd (by simp) hrc
  obtain ⟨b4, w2, hb, h⟩ := Prog.exec_bind.mp h
  cases Shared.alloc (Prog.exec_perform.mp hb)
  cases b4 with
  | false =>
      exact ⟨w1, Or.inr hw1, h⟩
  | true =>
      obtain ⟨r4, w2, hdel, h⟩ := Prog.exec_bind.mp h
      refine ⟨w2, ?_, h⟩
      rcases Prog.exec_perform.mp hdel with hdel | ⟨-, -, rfl⟩
      · left
        cases hdel
        rw [hw1]
        rfl
      · exact Or.inr hw1

/-- A new database is empty. -/
theorem post_openNew (db : Db) : Prog.Post (fun x => ∀ db', x.2 = some db' →
    db'.state = some .empty ∧ db'.nextMsgId = 1 ∧ db'.nextLeaseId = 1)
    (openNew db) := by
  have hfail : ∀ (db : Db) (rc : Rc), Prog.Post (fun x => ∀ db',
      x.2 = some db' → db'.state = some .empty ∧ db'.nextMsgId = 1 ∧
        db'.nextLeaseId = 1) (openFail db rc) := by
    intro db rc
    exact Prog.post_bind (Prog.post_true _) fun _ _ _ h => nomatch h
  unfold openNew
  refine Prog.post_bind (Prog.post_true _) fun now _ => ?_
  refine Prog.post_bind (Prog.post_true _) fun rc _ => ?_
  split
  · exact hfail _ _
  refine Prog.post_bind (Prog.post_true _) fun b _ => ?_
  split
  · exact hfail _ _
  · rintro _ ⟨⟩
    exact ⟨rfl, rfl, rfl⟩

/-- Through the descriptor of the main file the synced machine looks the
same. -/
theorem World.Tidy.twins {w1 : World} (h : w.Tidy)
    (hi : w.dir .main = some i)
    (hw1 : w1 = w.locked ∨ w1 = { w.locked with dir := w.dir }) :
    w1.Twins (pairOf i i) False w.settled.locked := by
  have hmain : w.settled.locked.dir .main = some i :=
    (locked_main _).trans hi
  have hwal : w.settled.locked.dir .wal = none :=
    (locked_wal _).trans h.named.wal
  have hpair : ∀ {a b : Nat}, pairOf i i (some a) (some b) → a = i ∧ b = i := by
    rintro a b (⟨ha, -⟩ | ⟨ha, hb⟩)
    · cases ha
    · exact ⟨Option.some.inj ha, Option.some.inj hb⟩
  have hino := h.named.below .main i hi
  rcases hw1 with rfl | rfl
  · exact
      { main := ⟨i, i, (locked_main w).trans hi, hmain, Or.inr ⟨rfl, rfl⟩⟩
        wal := ⟨(locked_wal w).trans h.named.wal, hwal⟩
        compact := False.elim
        content := by
          intro a b hab
          obtain ⟨rfl, rfl⟩ := hpair hab
          rfl
        below := by
          intro a b hab
          obtain ⟨rfl, rfl⟩ := hpair hab
          exact ⟨hino, hino⟩
        lockOwner := rfl
        nextLockFd := rfl
        now := rfl }
  · exact
      { main := ⟨i, i, hi, hmain, Or.inr ⟨rfl, rfl⟩⟩
        wal := ⟨h.named.wal, hwal⟩
        compact := False.elim
        content := by
          intro a b hab
          obtain ⟨rfl, rfl⟩ := hpair hab
          rfl
        below := by
          intro a b hab
          obtain ⟨rfl, rfl⟩ := hpair hab
          exact ⟨hino, hino⟩
        lockOwner := rfl
        nextLockFd := rfl
        now := rfl }

/-- The synced machine is opened as well, with the same tables and counters. -/
theorem World.Tidy.run_settled {w1 : World} (h : w.Tidy)
    (hi : w.dir .main = some i)
    (hw1 : w1 = w.locked ∨ w1 = { w.locked with dir := w.dir })
    (hlock : w.lockOwner = none)
    (hrun : Prog.run posix (openExisting (Db.opened t w.nextLockFd (some i)))
      w1 = some ((.ok, some db), w')) :
    ∃ db' w3, Prog.run posix (qdbOpenErr t) w.settled =
        some ((.ok, some db'), w3) ∧ db'.state = db.state ∧
      db'.nextMsgId = db.nextMsgId ∧ db'.nextLeaseId = db.nextLeaseId := by
  have hA := (matching_pairOf i i).serves False
  have htwin : Twin (handleAccess (pairOf i i) False) (Opened _)
      (openExisting (Db.opened t w.nextLockFd (some i)))
      (openExisting { Db.opened t w.nextLockFd (some i) with
        fd := some i }) :=
    twin_openExisting hA.proper hA.locks hA.wal (hA.deletes .wal nofun)
      (Or.inr ⟨rfl, rfl⟩) (Or.inr ⟨rfl, rfl⟩)
  have hrel := (h.twins hi hw1).run (matching_pairOf i i) htwin
  rw [hrun] at hrel
  have hsettled := run_qdbOpenErr (w := w.settled) (t := t) hlock
  rw [run_openLocked ((locked_main w.settled).trans hi)] at hsettled
  change _ = Prog.run posix (openExisting { Db.opened t w.nextLockFd (some i)
    with fd := some i }) w.settled.locked at hsettled
  rw [hsettled]
  generalize Prog.run posix (openExisting { Db.opened t w.nextLockFd (some i)
    with fd := some i }) w.settled.locked = y at hrel
  cases hrel with
  | @some _ x hx =>
      obtain ⟨⟨rc, db?⟩, w3⟩ := x
      obtain ⟨⟨rfl, hdb⟩, -⟩ := hx
      cases hdb with
      | some hdb =>
          obtain ⟨fd, rfl, -⟩ := hdb
          exact ⟨_, w3, rfl, rfl, rfl, rfl⟩

/-- An open that succeeds, whatever fails on the way, has the tables of the
log. -/
theorem World.Tidy.restores (h : w.Tidy) (hlock : w.lockOwner = none)
    (hexec : Prog.Exec Shared (qdbOpenErr t) w (.ok, some db) w') :
    w.Restores db := by
  obtain ⟨w1, hw1, hrest⟩ := exec_qdbOpenErr hlock hexec rfl
  have hmain : w1.dir .main = w.dir .main := by
    rcases hw1 with rfl | rfl
    · exact locked_main w
    · rfl
  have hwal : w1.dir .wal = none := by
    rw [← h.named.wal]
    rcases hw1 with rfl | rfl
    · exact locked_wal w
    · rfl
  obtain ⟨r, w2, hr, hgo⟩ := Prog.exec_bind.mp hrest
  have hfail : ∀ {db' : Db} {w2 : World},
      ¬ Prog.Exec Shared (openFail db' .errIo) w2 (.ok, some db) w' :=
    fun h => (post_openFail_rc (by decide) _).of_exec h rfl
  rcases Prog.exec_perform.mp hr with hr | ⟨-, rfl, rfl⟩
  swap
  · exact absurd hgo hfail
  unfold World.Restores
  cases hi : w.dir .main with
  | none =>
      simp only [posix, hmain, hi] at hr
      cases hr
      exact (post_openNew _).of_exec hgo db rfl
  | some i =>
      simp only [posix, hmain, hi] at hr
      cases hr
      have hopen : Prog.Exec Shared
          (openExisting (Db.opened t w.nextLockFd (some i))) w1
          (.ok, some db) w' := hgo
      -- no operation has failed
      have hrun := (failStop_openExisting _).run
        (I := fun w => w.dir .wal = none)
        (fun o s r t hs hr => Shared.good_or_bad hs hr) hwal hopen rfl
      -- nor does it show that some changes are not synced
      obtain ⟨db', w3, hsettled, hst, hmsg, hlease⟩ :=
        h.run_settled hi hw1 hlock hrun
      have himg : Image w.settled i (w.content i) :=
        ⟨⟨hi, h.named.wal, h.named.below .main i hi, rfl⟩, h.bounded i, hlock⟩
      obtain ⟨db'', m, rs, v, mem, heq, hs, hset, hrep, hlive⟩ :=
        himg.accepted hsettled rfl
      cases heq
      exact ⟨m, rs, v, mem, hs, hset, hrep, hst.symm.trans hlive.state,
        hmsg.symm.trans hlive.nextMsgId, hlease.symm.trans hlive.nextLeaseId⟩

end Restored

end Qdb
