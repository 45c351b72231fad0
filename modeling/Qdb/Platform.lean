import Qdb.Lib.Program
import Qdb.Format

/-!
# Platform operations

The library touches its environment only through the functions of
`qdb_platform.c`, the allocator and the clock; they are the operations of our
programs.  All file names derive from the database path, so a path is one of
the four sidecar suffixes.

`posix` answers the operations on an ideal machine: nothing fails except that
file offsets are signed 64-bit numbers, so a read or write beyond `maxFileSize`
is refused as `pread` and `pwrite` refuse it.  A file keeps the content that
was last synced apart from the writes issued since, which is what a crash can
lose; every read sees both.
-/

namespace Qdb

open Lib

/-- The database file and its sidecar files. -/
inductive Path
  | main
  | wal
  | compact
deriving DecidableEq, Repr

/-- A descriptor: the inode it is open on, or `QDB__INVALID_FD`. -/
abbrev Fd := Option Nat

/-- The platform layer, the allocator and the clock. -/
inductive Op
  | fileOpen (path : Path) (create : Bool)
  | lockfileOpen
  | fileClose (fd : Fd)
  | lockfileClose (fd : Fd)
  | fileSync (fd : Fd)
  | fileSize (fd : Fd)
  | fileTruncate (fd : Fd) (size : UInt64)
  | pread (fd : Fd) (len : Nat) (off : UInt64)
  | pwrite (fd : Fd) (bs : Bytes) (off : UInt64)
  | fileLock (fd : Fd)
  | fileUnlock (fd : Fd)
  | fileDelete (path : Path)
  | fileRename (old new : Path)
  | timeUs
  | alloc

/-- What each operation reports. -/
@[reducible] def Op.Resp : Op → Type
  | .fileOpen .. => Except Rc (Fd × Bool)
  | .lockfileOpen => Except Rc Fd
  | .fileClose _ => Unit
  | .lockfileClose _ => Unit
  | .fileSync _ => Rc
  | .fileSize _ => Except Rc UInt64
  | .fileTruncate .. => Rc
  | .pread .. => Except Rc Bytes
  | .pwrite .. => Rc
  | .fileLock _ => Rc
  | .fileUnlock _ => Unit
  | .fileDelete _ => Rc
  | .fileRename .. => Rc
  | .timeUs => UInt64
  | .alloc => Bool

/-- Programs of the library. -/
abbrev Cmd (α : Type) := Prog Op Op.Resp α

/-- `qdb__file_open`: descriptor and whether the file was just created. -/
def fileOpen (path : Path) (create : Bool) : Cmd (Except Rc (Fd × Bool)) :=
  Prog.perform (Op.fileOpen path create)

/-- `qdb__lockfile_open` -/
def lockfileOpen : Cmd (Except Rc Fd) := Prog.perform Op.lockfileOpen

/-- `qdb__file_close` -/
def fileClose (fd : Fd) : Cmd Unit := Prog.perform (Op.fileClose fd)

/-- `qdb__file_close` on the descriptor of the lock file. -/
def lockfileClose (fd : Fd) : Cmd Unit := Prog.perform (Op.lockfileClose fd)

/-- `qdb__file_sync` -/
def fileSync (fd : Fd) : Cmd Rc := Prog.perform (Op.fileSync fd)

/-- `qdb__file_size` -/
def fileSize (fd : Fd) : Cmd (Except Rc UInt64) := Prog.perform (Op.fileSize fd)

/-- `qdb__file_truncate` -/
def fileTruncate (fd : Fd) (size : UInt64) : Cmd Rc :=
  Prog.perform (Op.fileTruncate fd size)

/-- `qdb__pread`: the bytes read, fewer than `len` at the end of the file. -/
def pread (fd : Fd) (len : Nat) (off : UInt64) : Cmd (Except Rc Bytes) :=
  Prog.perform (Op.pread fd len off)

/-- `qdb__pwrite` -/
def pwrite (fd : Fd) (bs : Bytes) (off : UInt64) : Cmd Rc :=
  Prog.perform (Op.pwrite fd bs off)

/-- `qdb__file_lock` -/
def fileLock (fd : Fd) : Cmd Rc := Prog.perform (Op.fileLock fd)

/-- `qdb__file_unlock` -/
def fileUnlock (fd : Fd) : Cmd Unit := Prog.perform (Op.fileUnlock fd)

/-- `qdb__file_delete` -/
def fileDelete (path : Path) : Cmd Rc := Prog.perform (Op.fileDelete path)

/-- `qdb__file_rename` -/
def fileRename (old new : Path) : Cmd Rc := Prog.perform (Op.fileRename old new)

/-- `qdb__time_us` -/
def timeUs : Cmd UInt64 := Prog.perform Op.timeUs

/-- `malloc` and `calloc`: whether memory was available. -/
def alloc : Cmd Bool := Prog.perform Op.alloc

/-- A change of a file that has been issued and not yet synced. -/
inductive Pending
  | write (off : Nat) (bs : Bytes)
  | truncate (size : Nat)
deriving DecidableEq, Repr

/-- Effect of an issued change on the file content. -/
def Pending.apply : Pending → Bytes → Bytes
  | .write off bs, f => overwrite f off bs
  | .truncate size, f => resize f size

/-- A file: its synced content and the changes issued since. -/
structure FileState where
  durable : Bytes
  pending : List Pending
deriving DecidableEq, Repr

namespace FileState

/-- What a read of the file sees. -/
def content (s : FileState) : Bytes :=
  s.pending.foldl (fun f p => p.apply f) s.durable

/-- Issue a change. -/
def issue (s : FileState) (p : Pending) : FileState :=
  { s with pending := s.pending ++ [p] }

/-- Make every issued change durable. -/
def sync (s : FileState) : FileState :=
  ⟨s.content, []⟩

@[simp] theorem content_issue (s : FileState) (p : Pending) :
    (s.issue p).content = p.apply s.content := by
  simp [content, issue]

@[simp] theorem content_sync (s : FileState) :
    s.sync.content = s.content := by
  simp [content, sync]

end FileState

/-- Files, directory, lock and clock as one process sees them. -/
structure World where
  /-- Inode bound to each name. -/
  dir : Path → Option Nat
  /-- Files by inode. -/
  files : Nat → FileState
  nextIno : Nat
  /-- Lock descriptor that holds the exclusive lock. -/
  lockOwner : Option Nat
  nextLockFd : Nat
  /-- The clock reading of the call in progress. -/
  now : UInt64

/-- Largest offset a file can reach (`off_t` is a signed 64-bit type). -/
abbrev maxFileSize : Nat := 2 ^ 63 - 1

namespace World

/-- Content of the file with inode `i`. -/
def content (w : World) (i : Nat) : Bytes :=
  (w.files i).content

/-- Replace the file with inode `i`. -/
def setFile (w : World) (i : Nat) (s : FileState) : World :=
  { w with files := Function.update w.files i s }

/-- Issue a change of the file with inode `i`. -/
def issue (w : World) (i : Nat) (p : Pending) : World :=
  w.setFile i ((w.files i).issue p)

/-- Bind or unbind a name. -/
def setDir (w : World) (p : Path) (i : Option Nat) : World :=
  { w with dir := Function.update w.dir p i }

/-- A fresh empty file under the name `p`. -/
def create (w : World) (p : Path) : World :=
  { (w.setFile w.nextIno ⟨[], []⟩).setDir p (some w.nextIno) with
    nextIno := w.nextIno + 1 }

/-- Release the lock when `fd` holds it. -/
def unlock (w : World) (fd : Fd) : World :=
  if w.lockOwner = fd then { w with lockOwner := none } else w

end World

/-- The ideal machine. -/
def posix : (o : Op) → World → o.Resp × World
  | .fileOpen path create, w =>
      match w.dir path with
      | some i => (.ok (some i, false), w)
      | none =>
          if create then (.ok (some w.nextIno, true), w.create path)
          else (.error .errIo, w)
  | .lockfileOpen, w =>
      (.ok (some w.nextLockFd), { w with nextLockFd := w.nextLockFd + 1 })
  | .fileClose _, w => ((), w)
  | .lockfileClose fd, w => ((), w.unlock fd)
  | .fileSync fd, w =>
      match fd with
      | none => (.errIo, w)
      | some i => (.ok, w.setFile i (w.files i).sync)
  | .fileSize fd, w =>
      match fd with
      | none => (.error .errIo, w)
      | some i => (.ok (UInt64.ofNat (w.content i).length), w)
  | .fileTruncate fd size, w =>
      match fd with
      | none => (.errIo, w)
      | some i =>
          if size.toNat ≤ maxFileSize then
            (.ok, w.issue i (.truncate size.toNat))
          else (.errIo, w)
  | .pread fd len off, w =>
      if len = 0 then (.ok [], w)
      else
        match fd with
        | none => (.error .errIo, w)
        | some i =>
            if off.toNat ≤ maxFileSize then
              (.ok (slice (w.content i) off.toNat len), w)
            else (.error .errIo, w)
  | .pwrite fd bs off, w =>
      if bs = [] then (.ok, w)
      else
        match fd with
        | none => (.errIo, w)
        | some i =>
            if off.toNat + bs.length ≤ maxFileSize then
              (.ok, w.issue i (.write off.toNat bs))
            else if off.toNat < maxFileSize then
              (.errIo,
                w.issue i (.write off.toNat (bs.take (maxFileSize - off.toNat))))
            else (.errIo, w)
  | .fileLock fd, w =>
      if w.lockOwner = none ∨ w.lockOwner = fd then
        (.ok, { w with lockOwner := fd })
      else (.errLocked, w)
  | .fileUnlock fd, w => ((), w.unlock fd)
  | .fileDelete path, w => (.ok, w.setDir path none)
  | .fileRename old new, w =>
      match w.dir old with
      | none => (.errIo, w)
      | some i => (.ok, (w.setDir new (some i)).setDir old none)
  | .timeUs, w => (w.now, w)
  | .alloc, w => (true, w)

end Qdb
