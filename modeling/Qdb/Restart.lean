import Qdb.Recovery

/-!
# Restarting an interrupted recovery

Recovery cuts the file and rewrites its header twice.  A crash between the cut at
a partial record and the header that goes with it leaves a file that ends in
front of the end its header gives.  The next scan reads the missing bytes only if
there is room for a record in them, so the interrupted recovery can be repeated
exactly when there is none.
-/

namespace Qdb

open Lib

section Counters

/-- The counter `n`, raised to `k`. -/
def raiseTo (k n : UInt64) : UInt64 :=
  if k ≤ n then n else k

theorem raiseTo_zero (n : UInt64) : raiseTo 0 n = n := by
  unfold raiseTo
  rw [if_pos (UInt64.le_iff_toNat_le.mpr (Nat.zero_le _))]

theorem raiseTo_raiseTo (j k n : UInt64) :
    raiseTo k (raiseTo j n) = raiseTo (raiseTo k j) n := by
  unfold raiseTo
  grind

/-- A record raises the message counter or, if it wraps, clears it. -/
theorem bumpMsg_eq (r : Record) :
    (∃ k, ∀ n, r.bumpMsg n = raiseTo k n) ∨ ∀ n, r.bumpMsg n = 0 := by
  unfold Record.bumpMsg
  cases r.entry with
  | none =>
      exact Or.inl ⟨0, fun n => (raiseTo_zero n).symm⟩
  | some e =>
      simp only [Option.map_some, Option.getD_some]
      cases e with
      | push id name data =>
          by_cases hmax : id + 1 = 0
          · right
            intro n
            have hid : id = 0xFFFFFFFFFFFFFFFF := by
              apply UInt64.toNat_inj.mp
              have h0 := congrArg UInt64.toNat hmax
              have := id.toNat_lt
              rw [UInt64.toNat_add] at h0
              simp at h0
              change id.toNat = 18446744073709551615
              omega
            have hge : id ≥ n := by
              rw [hid, ge_iff_le, UInt64.le_iff_toNat_le]
              have := n.toNat_lt
              change n.toNat ≤ 18446744073709551615
              omega
            simp only [Entry.bumpMsg]
            rw [if_pos hge, hmax]
          · left
            refine ⟨id + 1, fun n => ?_⟩
            have hsucc : (id + 1).toNat = id.toNat + 1 := by
              have h0 : (id + 1).toNat ≠ 0 := fun h0 =>
                hmax (UInt64.toNat_inj.mp h0)
              have := id.toNat_lt
              rw [UInt64.toNat_add] at h0 ⊢
              simp at h0 ⊢
              omega
            simp only [Entry.bumpMsg, raiseTo, ge_iff_le,
              UInt64.le_iff_toNat_le, hsucc]
            grind
      | checkpoint nm nl =>
          left
          refine ⟨nm, fun n => ?_⟩
          simp only [Entry.bumpMsg, raiseTo]
          grind
      | _ =>
          exact Or.inl ⟨0, fun n => (raiseTo_zero n).symm⟩

/-- So does a log. -/
theorem countMsg_eq (rs : List Record) :
    (∃ k, ∀ n, countMsg rs n = raiseTo k n) ∨
      ∃ k, ∀ n, countMsg rs n = k := by
  induction rs with
  | nil =>
      exact Or.inl ⟨0, fun n => (raiseTo_zero n).symm⟩
  | cons r rs ih =>
      have hcons : ∀ n, countMsg (r :: rs) n = countMsg rs (r.bumpMsg n) :=
        fun _ => rfl
      rcases ih with ⟨k, hk⟩ | ⟨k, hk⟩
      · rcases bumpMsg_eq r with ⟨j, hj⟩ | h0
        · left
          refine ⟨raiseTo k j, fun n => ?_⟩
          rw [hcons, hk, hj, raiseTo_raiseTo]
        · right
          refine ⟨raiseTo k 0, fun n => ?_⟩
          rw [hcons, hk, h0]
      · right
        exact ⟨k, fun n => (hcons n).trans (hk _)⟩

/-- A log does not move the message counter twice. -/
theorem countMsg_twice (rs : List Record) (n : UInt64) :
    countMsg rs (countMsg rs n) = countMsg rs n := by
  rcases countMsg_eq rs with ⟨k, hk⟩ | ⟨k, hk⟩
  · simp only [hk, raiseTo]
    grind
  · rw [hk, hk]

/-- Replay from the counter that replay ends with. -/
theorem replay_again {off : UInt64} {rs : List Record} {n : UInt64} {mem : Mem}
    (h : replayRecords off rs (Mem.start n) = some mem) :
    replayRecords off rs (Mem.start mem.nextMsgId) = some mem := by
  obtain ⟨hmsg, hlease⟩ := replayRecords_counts h
  have hagain := replayRecords_counters h mem.nextMsgId 1
  have hm : countMsg rs mem.nextMsgId = mem.nextMsgId := by
    rw [hmsg, countMsg_twice]
  rw [hm, show countLease rs 1 = mem.nextLeaseId from hlease.symm] at hagain
  exact hagain

end Counters

section Reopen

variable {w w' : World} {i : Nat} {f : Bytes} {m : Db} {rs : List Record}
variable {v : ScanResult} {mem : Mem} {db : Db}

/-- Every later `qdb_open` succeeds and rebuilds the state of the handle. -/
def Reopens (w : World) (db : Db) : Prop :=
  ∀ now t, ∃ db' w', (⟨w, none⟩ : Sys).step ⟨now, .openDb t⟩ =
      some (.code .ok, ⟨w', some db'⟩) ∧
    db'.state = db.state ∧ db'.nextMsgId = db.nextMsgId ∧
    db'.nextLeaseId = db.nextLeaseId

/-- The handle has the tables and counters of `mem`. -/
structure Db.Has (db : Db) (mem : Mem) : Prop where
  state : db.state = some mem.st
  nextMsgId : db.nextMsgId = mem.nextMsgId
  nextLeaseId : db.nextLeaseId = mem.nextLeaseId

theorem Live.has {F : Prop} {u : View} (h : Live F w db u i) :
    db.Has u.mem where
  state := h.state
  nextMsgId := h.nextMsgId
  nextLeaseId := h.nextLeaseId

/-- Opening a file that the scan settles. -/
theorem Image.open_step (h : Image w i f) (hs : Scanned f m rs v)
    (hset : Settles m rs v)
    (hrep : replayRecords m.logStartOffset rs (Mem.start m.nextMsgId) =
      some mem) (now : UInt64) (t : UInt32) :
    ∃ db' w', (⟨w, none⟩ : Sys).step ⟨now, .openDb t⟩ =
        some (.code .ok, ⟨w', some db'⟩) ∧
      Live False w' db' ((m.fileOf rs).opened mem (leaseTimeoutOf t)) i := by
  have himg : Image { w with now := now } i f :=
    ⟨⟨h.disk.main, h.disk.wal, h.disk.ino, h.disk.file⟩, h.limit, h.lock⟩
  obtain ⟨x, w', hrun, db', rfl, hlive⟩ :=
    (wp_open_accepted (t := t) himg hs hset hrep).run (faulty_posix False)
  refine ⟨db', w', ?_, hlive⟩
  unfold Sys.step callCmd
  dsimp only
  rw [Prog.run_bind, hrun]
  rfl

theorem Image.reopens (h : Image w i f) (hs : Scanned f m rs v)
    (hset : Settles m rs v)
    (hrep : replayRecords m.logStartOffset rs (Mem.start m.nextMsgId) =
      some mem) (hdb : db.Has mem) : Reopens w db := by
  intro now t
  obtain ⟨db', w', hs, hlive⟩ := h.open_step hs hset hrep now t
  exact ⟨db', w', hs, hlive.state.trans hdb.state.symm,
    hlive.nextMsgId.trans hdb.nextMsgId.symm,
    hlive.nextLeaseId.trans hdb.nextLeaseId.symm⟩

/-- A file whose log ends where its header says. -/
theorem Sys.Is.reopens {d : DbFile} (h : (⟨w, none⟩ : Sys).Is (.closed d))
    (hrep : d.replay = some mem) (hdb : db.Has mem) : Reopens w db := by
  intro now t
  obtain ⟨res, s', ph', hs, hst, his⟩ :=
    h.step (fun v hv => nomatch hv) ⟨now, .openDb t⟩
  cases hst with
  | null _ hcall =>
      exact absurd trivial hcall
  | openCorrupt t h =>
      rw [hrep] at h
      cases h
  | openDb t h =>
      rw [hrep] at h
      cases h
      obtain ⟨db', i, hdb', hlive⟩ := his
      obtain ⟨w', db?⟩ := s'
      dsimp only at hdb'
      subst hdb'
      exact ⟨db', w', hs, hlive.state.trans hdb.state.symm,
        hlive.nextMsgId.trans hdb.nextMsgId.symm,
        hlive.nextLeaseId.trans hdb.nextLeaseId.symm⟩

/-- Behind a partial record there is no room for another one. -/
def ShortTail (m : Db) (rs : List Record) : Prop :=
  m.logEndOffset.toNat < (logEndOf m.logStartOffset rs).toNat + 10

/-- A short tail is partial whatever its bytes are. -/
theorem scanImage_short {off endOff : UInt64} (hlt : off.toNat < endOff.toNat)
    (hshort : endOff.toNat < off.toNat + 10) :
    scanImage f off endOff = .scanPartial := by
  unfold scanImage
  rw [if_neg (by
    rw [ge_iff_le, UInt64.le_iff_toNat_le]
    omega), if_pos (by
    rw [UInt64.lt_iff_toNat_lt, UInt64.toNat_sub_of_le _ _
      (UInt64.le_iff_toNat_le.mpr (by omega)),
      show (recHdrSize + 1).toNat = 10 from rfl]
    omega)]

theorem Scanned.stop_lt (hs : Scanned f m rs .scanPartial) :
    (logEndOf m.logStartOffset rs).toNat < m.logEndOffset.toNat := by
  have hle := hs.inside
  rw [← hs.toNat_stop] at hle
  rcases Nat.lt_or_eq_of_le hle with hlt | heq
  · exact hlt
  · exact absurd (UInt64.toNat_inj.mp heq) hs.stop_ne

/-- A file with the same header and records, and a short tail. -/
theorem Scanned.of_begins {f' : Bytes} (hs : Scanned f m rs .scanPartial)
    (hshort : ShortTail m rs)
    (hb : Begins (· = headerPatch m) (headerPrefix24 m.createTimeUs)
      m.logStartOffset.toNat (encodeLog rs) f') :
    Scanned f' m rs .scanPartial where
  limit := hb.limit
  header :=
    { page := hb.page
      head := hb.head
      patch := hb.patch
      lower := hs.header.lower
      order := hs.header.order }
  scans :=
    { bytes := by
        rcases hb.reaches with h0 | hreach
        · rw [h0]
          simp [slice]
        · have hin := hs.inside
          have hle : m.logStartOffset.toNat + (encodeLog rs).length ≤
              (f'.take m.logEndOffset.toNat).length := by
            rw [List.length_take]
            omega
          rw [← slice_append_left _ (f'.drop m.logEndOffset.toNat) hle,
            List.take_append_drop]
          exact hb.body
      inside := Or.inr hs.inside
      verdict := scanImage_short hs.stop_lt hshort
      stops := nofun }

theorem Image.is_closed {d : DbFile} (h : Image w i f)
    (hb : d.KeptBytes (fun B => B = d.patch) f) :
    (⟨w, none⟩ : Sys).Is (.closed d) := by
  have hfile : w.files i = ⟨f, []⟩ := h.disk.file
  refine ⟨rfl, i, ⟨h.disk.main, h.disk.wal, h.disk.ino, ?_⟩, h.lock⟩
  rw [hfile]
  exact ⟨hb, by simp⟩

/-- What a crash leaves of a file that is being validated. -/
theorem OnDisk.crash_repairing (h : OnDisk i (Repairing f m rs v) w)
    (hs : Scanned f m rs v) (hset : Settles m rs v) (hc : w.Crash w') :
    (⟨w', none⟩ : Sys).Is (.closed (m.fileOf rs)) ∨
      ∃ f', Image w' i f' ∧ Begins (· = headerPatch m)
        (headerPrefix24 m.createTimeUs) m.logStartOffset.toNat
        (encodeLog rs) f' := by
  obtain ⟨f', himg, hfile⟩ := hc.files i
  have hb := FileState.Keeps.crash (hs.keeps_repairing hset h.file) himg
  have himg' : Image w' i f' :=
    ⟨⟨hc.main.trans h.main, hc.wal.trans h.wal,
      by rw [hc.nextIno]; exact h.ino, hfile⟩, hb.limit, hc.lockOwner⟩
  rcases hb.patch with hp | hp
  · exact Or.inr ⟨f', himg', { hb with patch := hp }⟩
  · exact Or.inl (himg'.is_closed { hb with patch := hp })

/-- A crash during the validation of a log without a long partial tail. -/
theorem OnDisk.reopens_repairing (h : OnDisk i (Repairing f m rs v) w)
    (hs : Scanned f m rs v) (hset : Settles m rs v) (hc : w.Crash w')
    (hshort : v = .scanPartial → ShortTail m rs)
    (hrep : replayRecords m.logStartOffset rs (Mem.start m.nextMsgId) =
      some mem) (hdb : db.Has mem) : Reopens w' db := by
  rcases h.crash_repairing hs hset hc with his | ⟨f', himg, hb⟩
  · exact his.reopens hrep hdb
  · rcases id hset with rfl | ⟨rfl, -⟩
    · have hp : slice f' 24 32 = headerPatch m := hb.patch
      rw [hs.patch_stop] at hp
      have hkept : (m.fileOf rs).KeptBytes
          (fun B => B = (m.fileOf rs).patch) f' :=
        ⟨hb.limit, hb.page, hb.lower, hb.head, hp, hb.body⟩
      exact (himg.is_closed hkept).reopens hrep hdb
    · exact himg.reopens (hs.of_begins (hshort rfl) hb) hset hrep hdb

end Reopen

section Interrupted

variable {α β : Type} {P : World → Prop} {w w' : World} {i : Nat} {f : Bytes}
variable {m db : Db} {rs : List Record} {t : UInt32}

theorem reaches_reads {p : Cmd α} {k : α → Cmd β} {a : α}
    (hp : CmdReads p w a) (h : Prog.Reaches posix P (k a) w) :
    Prog.Reaches posix P (p >>= k) w :=
  Prog.reaches_bind_of_run posix hp.run h

theorem reaches_op {o : Op} {k : o.Resp → Cmd β}
    (h : Prog.Reaches posix P (k (posix o w).1) (posix o w).2) :
    Prog.Reaches posix P (Prog.perform o >>= k) w :=
  Prog.reaches_bind_of_run posix (Prog.run_perform posix o w) h

/-- `qdb_open_err` gets to the recovery of a file with a header. -/
theorem reaches_open (h : Image w i f) (hm : HasHeader f m)
    (hr : Prog.Reaches posix P
      (recoverFile (imageDb t w.nextLockFd i m)) w.locked) :
    Prog.Reaches posix P (qdbOpenErr t) w := by
  have hcontent : w.locked.content i = f := by
    rw [World.content, show w.locked.files i = ⟨f, []⟩ from h.disk.file]
    rfl
  have hread := reads_headerRead_any hcontent h.limit
    (Db.opened t w.nextLockFd (some i))
  rw [if_neg (Nat.not_lt.mpr hm.page), hm.decode] at hread
  have hwal : CmdReads
      (if (imageDb t w.nextLockFd i m).flags &&& flagWalPresent ≠ 0 ∨
          (imageDb t w.nextLockFd i m).flags &&& flagDirty ≠ 0 then
        replayWal (imageDb t w.nextLockFd i m)
        else pure (.ok, imageDb t w.nextLockFd i m)) w.locked
      (.ok, imageDb t w.nextLockFd i m) := by
    split
    · exact reads_replayWal (by rw [locked_wal]; exact h.disk.wal) _
    · exact Prog.reads_pure
  unfold qdbOpenErr
  apply reaches_reads (reads_alloc w)
  rw [if_neg (by simp)]
  apply reaches_reads (reads_alloc w)
  apply reaches_reads (reads_alloc w)
  apply reaches_reads (reads_alloc w)
  rw [if_neg (by simp)]
  refine reaches_op ?_
  refine reaches_op ?_
  dsimp only [posix]
  rw [if_pos (Or.inl h.lock)]
  dsimp only
  rw [if_neg (by simp)]
  apply reaches_reads (reads_alloc _)
  rw [if_pos rfl]
  refine reaches_op ?_
  change Prog.Reaches posix P _ w.locked
  refine reaches_op ?_
  simp only [posix, locked_main, h.disk.main]
  rw [if_neg (by simp)]
  unfold openExisting
  apply reaches_reads hread
  dsimp only
  rw [if_neg (by simp)]
  apply Prog.reaches_bind
  rw [recover_eq]
  apply reaches_reads hwal
  rw [if_neg (by simp)]
  exact hr

/-- The recovery gets to the scan of the log. -/
theorem reaches_recoverFile {s : FileState} (hfd : db.fd = some i)
    (hfile : w.files i = s) (hmax : s.content.length ≤ maxFileSize)
    (h : ∀ w', InFile i w (· = s.cutTo db.logEndOffset.toNat) w' →
      Prog.Reaches posix P (recoverScan db) w') :
    Prog.Reaches posix P (recoverFile db) w := by
  have hmx := maxFileSize_eq
  have hcontent : w.content i = s.content := congrArg _ hfile
  have hlt : UInt64.ofNat (w.content i).length > db.logEndOffset ↔
      db.logEndOffset.toNat < s.content.length := by
    rw [gt_iff_lt, UInt64.lt_iff_toNat_lt, UInt64.toNat_ofNat', hcontent]
    omega
  unfold recoverFile
  rw [hfd]
  apply reaches_reads (reads_fileSize i w)
  dsimp only
  unfold FileState.cutTo at h
  by_cases hlong : db.logEndOffset.toNat < s.content.length
  · rw [if_pos (hlt.mpr hlong)]
    rw [if_pos hlong] at h
    refine reaches_op ?_
    have hres : posix (.fileTruncate (some i) db.logEndOffset) w =
        (.ok, w.issue i (.truncate db.logEndOffset.toNat)) := by
      simp only [posix]
      rw [if_pos (by omega)]
    rw [hres]
    dsimp only
    rw [if_neg (by simp)]
    exact h _ ((InFile.refl (P := (· = s)) hfile).exact _)
  · rw [if_neg (fun hgt => hlong (hlt.mp hgt))]
    rw [if_neg hlong] at h
    exact h w (InFile.refl hfile)

/-- The scan gets to its verdict. -/
theorem reaches_validateLoop {off : UInt64} {v : ScanResult}
    (hfd : db.fd = some i) (hmax : (w.content i).length ≤ maxFileSize)
    (hs : Scans (w.content i) off db.logEndOffset rs v) (fuel : Nat)
    (hlt : logEndOf off rs < db.logEndOffset) (hfuel : rs.length < fuel)
    (h : Prog.Reaches posix P (validateEnd db (logEndOf off rs) v) w) :
    Prog.Reaches posix P (validateLoop fuel db off) w := by
  have hread : ∀ off, CmdReads (scanRecord db.fd off db.logEndOffset) w
      (scanImage (w.content i) off db.logEndOffset) := by
    intro off
    rw [hfd]
    exact reads_scanImage rfl hmax
  induction rs generalizing off fuel with
  | nil =>
      obtain ⟨fuel, rfl⟩ := Nat.exists_eq_add_of_lt hfuel
      rw [logEndOf_nil] at h hlt
      have hv := hs.verdict
      rw [logEndOf_nil] at hv
      unfold validateLoop
      rw [if_neg (not_not.mpr hlt)]
      apply reaches_reads (hread off)
      rw [hv]
      cases v with
      | record ty plen next =>
          exact absurd rfl (hs.stops ty plen next)
      | _ =>
          exact h
  | cons r rs ih =>
      obtain ⟨fuel, rfl⟩ := Nat.exists_eq_add_of_lt hfuel
      obtain ⟨hr, hend, hrest⟩ := hs.head hmax
      have hoff : off < db.logEndOffset := by
        have := r.size_pos
        rw [UInt64.lt_iff_toNat_lt]
        omega
      unfold validateLoop
      rw [if_neg (not_not.mpr hoff)]
      apply reaches_reads (hread off)
      rw [scanImage_encode hr hmax hend]
      rw [Scans.logEndOf_cons] at h hlt
      refine ih hrest _ hlt ?_ h
      rw [List.length_cons]
      omega

/-- There is a moment when the file has been cut at the partial record and its
header has not been touched. -/
theorem Image.reaches_shortened (h : Image w i f)
    (hs : Scanned f m rs .scanPartial)
    (hfit : (logEndOf m.logStartOffset rs).toNat ≤ maxFileSize) :
    Prog.Reaches posix (OnDisk i
      (· = (imageCut f m).shortened (logEndOf m.logStartOffset rs)))
      (qdbOpenErr t) w := by
  have hfd : (imageDb t w.nextLockFd i m).fd = some i := rfl
  have hfile : w.locked.files i = ⟨f, []⟩ := h.disk.file
  apply reaches_open h hs.header
  apply reaches_recoverFile hfd hfile h.limit
  intro w1 h1
  have hcut : InFile i w.locked (· = imageCut f m) w1 := h1
  have hcontent := content_of_cut hcut
  rw [recoverScan_eq]
  apply Prog.reaches_bind
  unfold validateLog
  have hscan : Scans (w1.content i) (imageDb t w.nextLockFd i m).logStartOffset
      (imageDb t w.nextLockFd i m).logEndOffset rs .scanPartial := by
    rw [hcontent]
    exact hs.scans
  apply reaches_validateLoop hfd (by rw [hcontent]; exact hs.limit_cut) hscan
  · rw [UInt64.lt_iff_toNat_lt]
    exact hs.stop_lt
  · have hlen := length_le_encodeLog rs
    have hin := hs.inside
    change rs.length < m.logEndOffset.toNat - m.logStartOffset.toNat + 1
    omega
  · unfold validateEnd
    refine reaches_op ?_
    have hres : posix (.fileTruncate (some i)
        (logEndOf m.logStartOffset rs)) w1 = (.ok,
          w1.issue i (.truncate (logEndOf m.logStartOffset rs).toNat)) := by
      simp only [posix]
      rw [if_pos hfit]
    apply Prog.reaches_start
    change OnDisk i _ (posix (.fileTruncate (some i)
      (logEndOf m.logStartOffset rs)) w1).2
    rw [hres]
    exact h.inFile (hcut.exact _)

end Interrupted

section Restart

variable {w w' : World} {i : Nat} {f : Bytes} {m db : Db} {rs : List Record}
variable {t : UInt32}

/-- The file that has been cut without its header is too short for its log. -/
theorem Scanned.shortened (hs : Scanned f m rs .scanPartial)
    (hfit : (logEndOf m.logStartOffset rs).toNat ≤ maxFileSize)
    (hlong : ¬ ShortTail m rs) :
    Scanned ((imageCut f m).shortened (logEndOf m.logStartOffset rs)).content
      m rs (.err .errIo) := by
  have hk : ((imageCut f m).shortened (logEndOf m.logStartOffset rs)).Keeps
      (· = headerPatch m) (headerPrefix24 m.createTimeUs)
      m.logStartOffset.toNat (encodeLog rs) :=
    hs.keeps_cut.issue (Or.inl ⟨Nat.le_of_eq hs.toNat_stop.symm, hfit⟩)
  have hb := hk.content
  have hlen : ((imageCut f m).shortened
      (logEndOf m.logStartOffset rs)).content.length =
      (logEndOf m.logStartOffset rs).toNat := by
    unfold FileState.shortened
    rw [FileState.content_issue]
    simp [Pending.apply]
  have htake := List.take_of_length_le
    (l := ((imageCut f m).shortened (logEndOf m.logStartOffset rs)).content)
    (i := m.logEndOffset.toNat) (by rw [hlen]; exact hs.stop_lt.le)
  refine ⟨hb.limit, ⟨hb.page, hb.head, hb.patch, hs.header.lower,
    hs.header.order⟩, ?_⟩
  rw [htake]
  refine ⟨hb.body, Or.inr hs.inside, ?_, by simp⟩
  have hlt := hs.stop_lt
  have hlong : (logEndOf m.logStartOffset rs).toNat + 10 ≤
      m.logEndOffset.toNat := Nat.not_lt.mp hlong
  unfold scanImage
  rw [if_neg (by
    rw [ge_iff_le, UInt64.le_iff_toNat_le]
    omega), if_neg (by
    rw [UInt64.lt_iff_toNat_lt, UInt64.toNat_sub_of_le _ _
      (UInt64.le_iff_toNat_le.mpr (by omega)),
      show (recHdrSize + 1).toNat = 10 from rfl]
    omega), if_pos (by
    rw [hlen]
    omega)]

/-- Such a file cannot be opened. -/
theorem Image.not_reopens (h : Image w i f) (hs : Scanned f m rs (.err .errIo)) :
    ¬ Reopens w db := by
  intro hre
  obtain ⟨db', w', hstep, -⟩ := hre w.now 0
  obtain ⟨x, w'', hrun, rfl, -⟩ :=
    (wp_open_scanError (t := 0) h hs (by simp)).run (faulty_posix False)
  have hcall : (⟨w, none⟩ : Sys).step ⟨w.now, .openDb 0⟩ =
      some (.code .errIo, ⟨w'', none⟩) := by
    unfold Sys.step callCmd
    dsimp only
    rw [Prog.run_bind, hrun]
    rfl
  rw [hcall] at hstep
  cases hstep

theorem Scanned.unique {m' : Db} {rs' : List Record} {v v' : ScanResult}
    (hs : Scanned f m rs v) (hs' : Scanned f m' rs' v') :
    m.logStartOffset = m'.logStartOffset ∧
      m.logEndOffset = m'.logEndOffset ∧ rs = rs' ∧ v = v' := by
  have heq := hs.header.withHeader_eq hs'.header Db.zero
  have hstart := congrArg Db.logStartOffset heq
  have hend := congrArg Db.logEndOffset heq
  change m.logStartOffset = m'.logStartOffset at hstart
  change m.logEndOffset = m'.logEndOffset at hend
  have hscans := hs'.scans
  rw [← hstart, ← hend] at hscans
  obtain ⟨hrs, hv⟩ := hs.scans.unique hscans hs.limit_cut
  exact ⟨hstart, hend, hrs, hv⟩

/-- With a long partial tail some crash leaves a file that cannot be opened. -/
theorem Image.restart_fails (h : Image w i f)
    (hs : Scanned f m rs .scanPartial)
    (hfit : (logEndOf m.logStartOffset rs).toNat ≤ maxFileSize)
    (hlong : ¬ ShortTail m rs) (db : Db) :
    ∃ n w', (Prog.after posix n (callCmd none (.openDb t)) w).Crash w' ∧
      ¬ Reopens w' db := by
  have hreach : Prog.Reaches posix (OnDisk i (· =
      (imageCut f m).shortened (logEndOf m.logStartOffset rs)))
      (callCmd none (.openDb t)) w :=
    Prog.reaches_bind posix (h.reaches_shortened hs hfit)
  obtain ⟨n, hn⟩ := hreach
  have hshort := hs.shortened hfit hlong
  have himg : Image (World.crashed
      (Prog.after posix n (callCmd none (.openDb t)) w)) i
      ((imageCut f m).shortened (logEndOf m.logStartOffset rs)).content :=
    { disk := ⟨hn.main, hn.wal, hn.ino, by
        change (⟨((Prog.after posix n (callCmd none (.openDb t)) w).files
          i).content, []⟩ : FileState) = _
        rw [hn.file]⟩
      limit := hshort.limit
      lock := rfl }
  exact ⟨n, _, World.crash_crashed _, himg.not_reopens hshort⟩

/-- An interrupted `qdb_open` can be repeated from every crash point exactly when
the log has no partial record with room for a whole one behind it. -/
theorem recovery_restartable_iff {w₁ : World} (h : Image w i f)
    (hopen : Prog.run posix (callCmd none (.openDb t)) w =
      some ((.code .ok, some db), w₁)) :
    (∀ n w', (Prog.after posix n (callCmd none (.openDb t)) w).Crash w' →
      Reopens w' db) ↔
    ∀ m rs, Scanned f m rs .scanPartial → ShortTail m rs := by
  have hrun : Prog.run posix (qdbOpenErr t) w = some ((.ok, some db), w₁) := by
    unfold callCmd at hopen
    dsimp only at hopen
    rw [Prog.run_bind] at hopen
    obtain ⟨⟨⟨rc, x⟩, w₂⟩, hr, hrest⟩ := Option.bind_eq_some_iff.mp hopen
    cases x with
    | none =>
        cases hrest
    | some db' =>
        cases hrest
        exact hr
  obtain ⟨db', m, rs, v, mem, hx, hs, hset, hrep, hlive⟩ :=
    h.accepted hrun rfl
  cases hx
  have hdb : db.Has mem := hlive.has
  constructor
  · intro hall m' rs' hs'
    by_contra hlong
    have hv := (hs.unique hs').2.2.2
    subst hv
    have hfit : (logEndOf m'.logStartOffset rs').toNat ≤ maxFileSize := by
      obtain ⟨hstart, -, hrs, -⟩ := hs.unique hs'
      rw [← hstart, ← hrs]
      rcases hset with hv | ⟨-, hfit⟩
      · cases hv
      · exact hfit
    obtain ⟨n, w', hc, hno⟩ := h.restart_fails hs' hfit hlong db
    exact hno (hall n w' hc)
  · intro hshort n w' hc
    have hwp := Prog.wp_seq (f := fun x : Rc × Option Db =>
        (pure (.code x.1, x.2.or none) : Cmd (Result × Option Db)))
      (Q := fun _ _ => True) (wp_open_accepted (t := t) h hs hset hrep)
      (fun a u hu _ => Prog.wp_pure hu trivial)
    have hI := hwp.always (faulty_posix False) n
    have hdisk : OnDisk i (fun s => Repairing f m rs v s ∨ Recovering False
        (m.fileOf rs) ((m.fileOf rs).opened mem (leaseTimeoutOf t)) s)
        (Prog.after posix n (callCmd none (.openDb t)) w) := hI
    rcases hdisk.file with hr | hr
    · have hd : OnDisk i (Repairing f m rs v) _ :=
        ⟨hdisk.main, hdisk.wal, hdisk.ino, hr⟩
      apply hd.reopens_repairing hs hset hc _ hrep hdb
      rintro rfl
      exact hshort m rs hs
    · have hd : OnDisk i (Recovering False (m.fileOf rs)
          ((m.fileOf rs).opened mem (leaseTimeoutOf t))) _ :=
        ⟨hdisk.main, hdisk.wal, hdisk.ino, hr⟩
      rcases hd.crash_recovering hc rfl rfl rfl with his | his
      · exact his.reopens hrep hdb
      · exact his.reopens (replay_again hrep) hdb

/-- The header of an empty log with `n` more bytes behind it. -/
def tailDb (n : UInt64) : Db :=
  { Db.zero with logStartOffset := 4096, logEndOffset := 4096 + n }

/-- A file with that header and `n` zero bytes. -/
def zeroTail (n : UInt64) : Bytes :=
  headerEncode (tailDb n) ++ List.replicate n.toNat 0

theorem length_zeroTail (n : UInt64) :
    (zeroTail n).length = 4096 + n.toNat := by
  unfold zeroTail
  rw [List.length_append, length_headerEncode, List.length_replicate]

/-- The scan of such a file stops behind its header. -/
theorem zeroTail_scanned {n : UInt64} (hpos : 0 < n.toNat)
    (hn : n.toNat ≤ 4096) :
    Image (World.ofFile (zeroTail n)) 0 (zeroTail n) ∧
      Scanned (zeroTail n) (tailDb n) [] .scanPartial ∧
      Settles (tailDb n) [] .scanPartial := by
  have hmx := maxFileSize_eq
  have hlen := length_zeroTail n
  have hend : (tailDb n).logEndOffset.toNat = 4096 + n.toNat := by
    change ((4096 : UInt64) + n).toNat = _
    rw [UInt64.toNat_add]
    change (4096 + n.toNat) % 18446744073709551616 = _
    omega
  have horder : (tailDb n).logStartOffset ≤ (tailDb n).logEndOffset := by
    rw [UInt64.le_iff_toNat_le, hend]
    exact Nat.le_add_right 4096 _
  have hslice : slice (zeroTail n) (tailDb n).logStartOffset.toNat
      (List.replicate n.toNat (0 : UInt8)).length =
      List.replicate n.toNat 0 := by
    have hmid := slice_mid (headerEncode (tailDb n))
      (List.replicate n.toNat 0) []
    rw [List.append_nil, length_headerEncode] at hmid
    exact hmid
  refine ⟨image_ofFile (by omega), ⟨by omega,
    hasHeader_encode _ _ (UInt64.le_refl 4096) horder, ?_⟩, Or.inr ⟨rfl, ?_⟩⟩
  · rw [List.take_of_length_le (by omega)]
    refine Scans.nil ?_ nofun
    exact (TornTail.zeros n.toNat hpos).scanImage (by omega) hslice
      (by rw [hend, List.length_replicate]; rfl)
  · rw [logEndOf_nil]
    change 4096 ≤ maxFileSize
    omega

/-- A file with one stray byte behind its log. -/
theorem recovery_restartable_byte : ∃ db w₁,
    Prog.run posix (callCmd none (.openDb 0)) (World.ofFile (zeroTail 1)) =
      some ((.code .ok, some db), w₁) ∧
    ∀ n w', (Prog.after posix n (callCmd none (.openDb 0))
      (World.ofFile (zeroTail 1))).Crash w' → Reopens w' db := by
  obtain ⟨himg, hs, hset⟩ := zeroTail_scanned (n := 1) (by decide) (by decide)
  obtain ⟨x, w₁, hrun, db, rfl, -⟩ :=
    (wp_open_accepted (t := 0) himg hs hset rfl).run (faulty_posix False)
  have hcall : Prog.run posix (callCmd none (.openDb 0))
      (World.ofFile (zeroTail 1)) = some ((.code .ok, some db), w₁) := by
    unfold callCmd
    dsimp only
    rw [Prog.run_bind, hrun]
    rfl
  refine ⟨db, w₁, hcall, (recovery_restartable_iff himg hcall).mpr ?_⟩
  intro m rs hs'
  obtain ⟨hstart, hend, hrs, -⟩ := hs.unique hs'
  unfold ShortTail
  rw [← hstart, ← hend, ← hrs]
  decide

/-- A crash between the cut of a partial record and the new header can leave a
file that no `qdb_open` accepts. -/
theorem recovery_not_restartable :
    ¬ ∀ (w w₁ w' : World) (i n : Nat) (f : Bytes) (t : UInt32) (db : Db),
      Image w i f →
      Prog.run posix (callCmd none (.openDb t)) w =
        some ((.code .ok, some db), w₁) →
      (Prog.after posix n (callCmd none (.openDb t)) w).Crash w' →
      Reopens w' db := by
  intro hall
  obtain ⟨himg, hs, hset⟩ := zeroTail_scanned (n := 10) (by decide) (by decide)
  obtain ⟨x, w₁, hrun, db, rfl, -⟩ :=
    (wp_open_accepted (t := 0) himg hs hset rfl).run (faulty_posix False)
  have hcall : Prog.run posix (callCmd none (.openDb 0))
      (World.ofFile (zeroTail 10)) = some ((.code .ok, some db), w₁) := by
    unfold callCmd
    dsimp only
    rw [Prog.run_bind, hrun]
    rfl
  have hfit : (logEndOf (tailDb 10).logStartOffset []).toNat ≤ maxFileSize := by
    rcases hset with hv | ⟨-, hfit⟩
    · cases hv
    · exact hfit
  obtain ⟨n, w', hc, hno⟩ := himg.restart_fails hs hfit
    (show ¬ ShortTail (tailDb 10) [] from by unfold ShortTail; decide) db
  exact hno (hall _ w₁ w' 0 n (zeroTail 10) 0 db himg hcall hc)

end Restart

end Qdb
