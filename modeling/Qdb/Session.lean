import Qdb.ReplaySpec
import Qdb.WriteSpec

/-!
# Databases at rest and open handles

`DbFile` is what a database file says: the header fields and the records of the
log.  `View` is what an open handle and its file say together: the same, with
the counters and tables in memory.  `Live` relates a handle in a world to its
view, `Rest` describes a database file that nobody holds open.  Both fix the
file up to the bytes outside the header and the log.
-/

namespace Qdb

open Lib

theorem encodeLog_eq_nil {rs : List Record} (h : encodeLog rs = []) :
    rs = [] := by
  have := length_le_encodeLog rs
  rw [h] at this
  exact List.length_eq_zero_iff.mp (Nat.le_zero.mp this)

theorem encodeLog_snoc (rs : List Record) (r : Record) :
    encodeLog (rs ++ [r]) = encodeLog rs ++ r.encode := by
  rw [encodeLog_append, encodeLog_cons, encodeLog_nil, List.append_nil]

/-- Where the log `rs` ends that starts at `s`. -/
def logEndOf (s : UInt64) (rs : List Record) : UInt64 :=
  s + UInt64.ofNat (encodeLog rs).length

/-- The log is empty or inside the file size limit. -/
def Fits (s : UInt64) (rs : List Record) : Prop :=
  rs = [] ∨ s.toNat + (encodeLog rs).length ≤ maxFileSize

theorem Fits.of_append {s : UInt64} {rs rs' : List Record}
    (h : Fits s (rs ++ rs')) : Fits s rs := by
  rcases h with h | h
  · exact Or.inl (List.append_eq_nil_iff.mp h).1
  · right
    rw [encodeLog_append, List.length_append] at h
    omega

theorem toNat_logEndOf {s : UInt64} {rs : List Record} (h : Fits s rs) :
    (logEndOf s rs).toNat = s.toNat + (encodeLog rs).length := by
  have := maxFileSize_eq
  have := s.toNat_lt
  rcases h with rfl | h
  · simp [logEndOf]
  · simp [logEndOf]
    omega

theorem logEndOf_nil (s : UInt64) : logEndOf s [] = s := by
  simp [logEndOf]

theorem logEndOf_snoc (s : UInt64) (rs : List Record) (r : Record) :
    logEndOf s (rs ++ [r]) = logEndOf s rs + UInt64.ofNat r.size := by
  simp [logEndOf, UInt64.add_assoc]

/-- What a database file says. -/
structure DbFile where
  createTimeUs : UInt64
  nextMsgId : UInt64
  start : UInt64
  rs : List Record
  flags : UInt32

namespace DbFile

/-- The header fields. -/
def header (d : DbFile) : Db :=
  { Db.zero with
    createTimeUs := d.createTimeUs
    nextMsgId := d.nextMsgId
    logStartOffset := d.start
    logEndOffset := logEndOf d.start d.rs
    flags := d.flags }

/-- The header patch. -/
def patch (d : DbFile) : Bytes :=
  headerPatch d.header

theorem headerPatch_eq {d : DbFile} {db : Db}
    (hs : db.logStartOffset = d.start)
    (he : db.logEndOffset = logEndOf d.start d.rs)
    (hct : db.createTimeUs = d.createTimeUs)
    (hnm : db.nextMsgId = d.nextMsgId)
    (hfl : db.flags = d.flags) : headerPatch db = d.patch := by
  simp [patch, header, headerPatch, headerFields, hs, he, hct, hnm, hfl]

/-- A file with the log of `d` under a header patch out of `Bs`. -/
def Kept (Bs : Bytes → Prop) (d : DbFile) (s : FileState) : Prop :=
  s.Keeps Bs (headerPrefix24 d.createTimeUs) d.start.toNat (encodeLog d.rs)

/-- A file that says `d`. -/
def Stored (d : DbFile) (s : FileState) : Prop :=
  d.Kept (fun B => B = d.patch) s

theorem Kept.mono {Bs Bs' : Bytes → Prop} {d : DbFile} {s : FileState}
    (h : d.Kept Bs s) (hBs : ∀ B, Bs B → Bs' B) : d.Kept Bs' s :=
  FileState.Keeps.mono h hBs

/-- What `Kept` says of the bytes a read sees. -/
def KeptBytes (Bs : Bytes → Prop) (d : DbFile) (f : Bytes) : Prop :=
  Begins Bs (headerPrefix24 d.createTimeUs) d.start.toNat (encodeLog d.rs) f

theorem Kept.content {Bs : Bytes → Prop} {d : DbFile} {s : FileState}
    (h : d.Kept Bs s) : d.KeptBytes Bs s.content :=
  FileState.Keeps.content h

theorem KeptBytes.fits {Bs : Bytes → Prop} {d : DbFile} {f : Bytes}
    (h : d.KeptBytes Bs f) : Fits d.start d.rs := by
  rcases Begins.reaches h with h0 | hreach
  · exact Or.inl (encodeLog_eq_nil h0)
  · have := Begins.limit h
    right
    omega

end DbFile

/-- What an open handle and its file say. -/
structure View where
  rs : List Record
  mem : Mem
  leaseTimeoutUs : UInt64
  createTimeUs : UInt64
  start : UInt64
  flags : UInt32

namespace View

/-- Where the log ends. -/
def logEnd (v : View) : UInt64 :=
  logEndOf v.start v.rs

/-- The view after one more record. -/
def log (v : View) (r : Record) (mem : Mem) : View :=
  { v with rs := v.rs ++ [r], mem := mem }

/-- What the file says once the header is up to date. -/
def file (v : View) : DbFile where
  createTimeUs := v.createTimeUs
  nextMsgId := v.mem.nextMsgId
  start := v.start
  rs := v.rs
  flags := v.flags

/-- What the file says after a clean close. -/
def closed (v : View) : DbFile :=
  { v.file with flags := v.flags &&& ~~~(flagDirty ||| flagWalPresent) }

/-- The header patch an open handle writes. -/
def patch (v : View) : Bytes :=
  v.file.patch

/-- The file of an open handle; `F` tells whether writes may fail. -/
def Holds (F : Prop) (v : View) (s : FileState) : Prop :=
  v.file.Kept (fun B => F ∨ B = v.patch) s

end View

/-- The view of a handle that has opened the file `d`. -/
def DbFile.opened (d : DbFile) (mem : Mem) (leaseTimeoutUs : UInt64) :
    View where
  rs := d.rs
  mem := mem
  leaseTimeoutUs := leaseTimeoutUs
  createTimeUs := d.createTimeUs
  start := d.start
  flags := d.flags ||| flagDirty

/-- An open handle with the view `v`; `F` tells whether writes may fail. -/
structure Live (F : Prop) (w : World) (db : Db) (v : View) (i : Nat) :
    Prop where
  fd : db.fd = some i
  main : w.dir .main = some i
  wal : w.dir .wal = none
  ino : i < w.nextIno
  lock : ∃ l, db.lockFd = some l ∧ w.lockOwner = some l ∧ l < w.nextLockFd
  keeps : v.Holds F (w.files i)
  logStart : db.logStartOffset = v.start
  logEnd : db.logEndOffset = v.logEnd
  flags : db.flags = v.flags
  createTime : db.createTimeUs = v.createTimeUs
  timeout : db.leaseTimeoutUs = v.leaseTimeoutUs
  nextMsgId : db.nextMsgId = v.mem.nextMsgId
  nextLeaseId : db.nextLeaseId = v.mem.nextLeaseId
  state : db.state = some v.mem.st

/-- The database file is `i`, there is no WAL file, and `P` holds of it. -/
structure OnDisk (i : Nat) (P : FileState → Prop) (w : World) : Prop where
  main : w.dir .main = some i
  wal : w.dir .wal = none
  ino : i < w.nextIno
  file : P (w.files i)

theorem OnDisk.inFile {i : Nat} {P P' : FileState → Prop} {w w' : World}
    (h : OnDisk i P w) (hw : InFile i w P' w') : OnDisk i P' w' where
  main := by rw [hw.1.dir, h.main]
  wal := by rw [hw.1.dir, h.wal]
  ino := by rw [hw.1.nextIno]; exact h.ino
  file := hw.2

theorem OnDisk.mono {i : Nat} {P P' : FileState → Prop} {w : World}
    (h : OnDisk i P w) (hP : P (w.files i) → P' (w.files i)) :
    OnDisk i P' w :=
  { h with file := hP h.file }

/-- A database file that nobody holds open. -/
structure Rest (w : World) (d : DbFile) (i : Nat) : Prop where
  disk : OnDisk i d.Stored w
  lock : w.lockOwner = none

namespace Live

variable {F : Prop} {w : World} {db : Db} {v : View} {i : Nat}

theorem onDisk (h : Live F w db v i) : OnDisk i (v.Holds F) w :=
  ⟨h.main, h.wal, h.ino, h.keeps⟩

theorem content (h : Live F w db v i) :
    v.file.KeptBytes (fun B => F ∨ B = v.patch) (w.content i) :=
  DbFile.Kept.content h.keeps

theorem fits (h : Live F w db v i) : Fits v.start v.rs :=
  h.content.fits

theorem toNat_logEnd (h : Live F w db v i) :
    db.logEndOffset.toNat = v.start.toNat + (encodeLog v.rs).length := by
  rw [h.logEnd]
  exact toNat_logEndOf h.fits

/-- The handle when its file has changed behind the log only. -/
theorem inFile (h : Live F w db v i) {w' : World}
    (hw : InFile i w (v.Holds F) w') : Live F w' db v i :=
  { h with
    main := by rw [hw.1.dir, h.main]
    wal := by rw [hw.1.dir, h.wal]
    ino := by rw [hw.1.nextIno]; exact h.ino
    lock := by rw [hw.1.lockOwner, hw.1.nextLockFd]; exact h.lock
    keeps := hw.2 }

/-- The handle after a record and a new header. -/
theorem logged (h : Live F w db v i) {w' : World} {db' : Db} {r : Record}
    {mem : Mem} (hw : InFile i w ((v.log r mem).Holds F) w')
    (hdb : db' = { db with
      logEndOffset := db.logEndOffset + UInt64.ofNat r.size
      nextMsgId := mem.nextMsgId
      nextLeaseId := mem.nextLeaseId
      state := some mem.st }) :
    Live F w' db' (v.log r mem) i := by
  subst hdb
  exact
    { fd := h.fd
      main := by rw [hw.1.dir, h.main]
      wal := by rw [hw.1.dir, h.wal]
      ino := by rw [hw.1.nextIno]; exact h.ino
      lock := by rw [hw.1.lockOwner, hw.1.nextLockFd]; exact h.lock
      keeps := hw.2
      logStart := h.logStart
      logEnd := by
        change db.logEndOffset + _ = logEndOf v.start (v.rs ++ [r])
        rw [h.logEnd, logEndOf_snoc]
        rfl
      flags := h.flags
      createTime := h.createTime
      timeout := h.timeout
      nextMsgId := rfl
      nextLeaseId := rfl
      state := rfl }

end Live

end Qdb
