import Qdb.Session
import Qdb.Api

/-!
# Opening and closing

The header is decoded to what was written.  Opening a file replays its log from
the counter in the header; the header is then rewritten with the counter the
replay ends with.  Closing leaves the log and the counter.
-/

namespace Qdb

open Lib

section Header

/-- The header page of a file. -/
theorem headerEncode_eq (m : Db) :
    headerEncode m = headerPrefix24 m.createTimeUs ++
      (headerPatch m ++ List.replicate 4040 0) := by
  unfold headerEncode
  rw [headerFields_eq, List.append_assoc]

/-- The handle with the header fields of `m`. -/
def Db.withHeader (db m : Db) : Db :=
  { db with
    createTimeUs := m.createTimeUs
    nextMsgId := m.nextMsgId
    logStartOffset := m.logStartOffset
    logEndOffset := m.logEndOffset
    flags := m.flags }

theorem drop_putU32le (v : UInt32) (rest : Bytes) :
    (putU32le v ++ rest).drop 4 = rest := by
  rw [List.drop_append_of_le_length (by simp)]
  simp

/-- A header page is decoded to the fields it was made from; the code says
whether its log offsets are in order. -/
theorem headerDecode_page (m db : Db) (zs : Bytes) :
    headerDecode (headerFields m ++ putU32le (crc32 (headerFields m)) ++ zs)
      db = (if m.logStartOffset < hdrSize ∨
          m.logEndOffset < m.logStartOffset then .errCorrupt else .ok,
        db.withHeader m) := by
  generalize hf : headerFields m = fields
  have hlen : fields.length = 52 := by
    rw [← hf]
    rfl
  generalize hcrc : putU32le (crc32 fields) = c
  have h52 : (fields ++ c ++ zs).drop 52 = c ++ zs := by
    rw [List.append_assoc, ← hlen, List.drop_left]
  have htake : (fields ++ c ++ zs).take 52 = fields := by
    rw [List.append_assoc, ← hlen, List.take_left]
  generalize hbuf : fields ++ c ++ zs = buf at *
  have hb : buf = kFileMagic ++ (putU32le formatVersion ++
      (putU32le pageSize ++ (putU64le m.createTimeUs ++
      (putU64le m.nextMsgId ++ (putU64le m.logStartOffset ++
      (putU64le m.logEndOffset ++ (putU32le m.flags ++ (c ++ zs)))))))) := by
    rw [← hbuf, ← hf]
    simp only [headerFields, List.append_assoc]
  have h8 : buf.take 8 = kFileMagic := by
    rw [hb]
    rfl
  have d8 : buf.drop 8 = putU32le formatVersion ++
      (putU32le pageSize ++ (putU64le m.createTimeUs ++
      (putU64le m.nextMsgId ++ (putU64le m.logStartOffset ++
      (putU64le m.logEndOffset ++ (putU32le m.flags ++ (c ++ zs))))))) := by
    rw [hb]
    rfl
  have d12 := congrArg (List.drop 4) d8
  rw [drop_putU32le, List.drop_drop] at d12
  have d16 := congrArg (List.drop 4) d12
  rw [drop_putU32le, List.drop_drop] at d16
  have d24 := congrArg (List.drop 8) d16
  rw [drop_putU64le, List.drop_drop] at d24
  have d32 := congrArg (List.drop 8) d24
  rw [drop_putU64le, List.drop_drop] at d32
  have d40 := congrArg (List.drop 8) d32
  rw [drop_putU64le, List.drop_drop] at d40
  have d48 := congrArg (List.drop 8) d40
  rw [drop_putU64le, List.drop_drop] at d48
  simp only [Nat.reduceAdd] at d12 d16 d24 d32 d40 d48
  unfold headerDecode
  rw [h8, htake, h52, d8, d12, d16, d24, d32, d40, d48, ← hcrc]
  simp only [getU32le_putU32le, getU64le_putU64le]
  rw [if_neg (by simp), if_neg (by simp), if_neg (by decide),
    if_neg (by simp)]
  by_cases hbad : m.logStartOffset < hdrSize ∨
      m.logEndOffset < m.logStartOffset
  · rw [if_pos hbad, if_pos hbad]
    rfl
  · rw [if_neg hbad, if_neg hbad]
    rfl

theorem headerDecode_fields (m db : Db) (zs : Bytes)
    (hstart : hdrSize ≤ m.logStartOffset)
    (hend : m.logStartOffset ≤ m.logEndOffset) :
    headerDecode (headerFields m ++ putU32le (crc32 (headerFields m)) ++ zs)
      db = (.ok, db.withHeader m) := by
  rw [headerDecode_page, if_neg]
  rintro (h | h)
  · exact absurd h (UInt64.not_lt.mpr hstart)
  · exact absurd h (UInt64.not_lt.mpr hend)

theorem length_headerEncode (m : Db) : (headerEncode m).length = 4096 := by
  rw [headerEncode_eq, List.length_append, List.length_append,
    length_headerPrefix24, length_headerPatch, List.length_replicate]

/-- The header fields of a file that says `d`. -/
theorem reads_headerRead {w : World} {i : Nat} {d : DbFile}
    (h : d.KeptBytes (fun B => B = d.patch) (w.content i)) (db : Db) :
    CmdReads (headerRead (some i) db) w (.ok, db.withHeader d.header) := by
  have hmx := maxFileSize_eq
  have hend := toNat_logEndOf h.fits
  have hpage := Begins.page h
  have hlimit := Begins.limit h
  have hlower := Begins.lower h
  unfold headerRead
  apply Prog.reads_bind (reads_fileSize i w)
  dsimp only
  rw [if_neg (by
    rw [UInt64.lt_iff_toNat_lt, show hdrSize.toNat = 4096 from rfl]
    simp
    omega)]
  apply Prog.reads_bind (reads_readFull_slice rfl hlimit
    (by simpa using hpage))
  dsimp only
  have hbuf : slice (w.content i) (0 : UInt64).toNat 4096 =
      headerFields d.header ++ putU32le (crc32 (headerFields d.header)) ++
        slice (w.content i) 56 4040 := by
    change slice (w.content i) 0 (24 + 32 + 4040) = _
    rw [slice_add, slice_add, Begins.head h, Begins.patch h, headerFields_eq]
    rfl
  rw [hbuf, headerDecode_fields]
  · exact Prog.reads_pure
  · rw [UInt64.le_iff_toNat_le]
    exact hlower
  · rw [UInt64.le_iff_toNat_le]
    change d.start.toNat ≤ (logEndOf d.start d.rs).toNat
    omega

end Header

section Recover

variable {F : Prop} {w : World} {db : Db} {i : Nat} {d : DbFile}

/-- Without a WAL file its replay does nothing. -/
theorem reads_replayWal (hwal : w.dir .wal = none) (db : Db) :
    CmdReads (replayWal db) w (.ok, db) := by
  have hres : posix (.fileOpen .wal false) w = (.error .errIo, w) := by
    simp only [posix, hwal]
    rfl
  have hopen : CmdReads (fileOpen .wal false) w (.error .errIo) := by
    have hr : Prog.IsRead posix (Faulty True) (.fileOpen .wal false) w :=
      isRead_of (by rw [hres]) (fun _ _ h => h)
    have h := Prog.reads_perform hr
    rw [hres] at h
    exact h
  unfold replayWal
  apply Prog.reads_bind hopen
  exact Prog.reads_pure

/-- The handle `recover` starts with. -/
structure Fresh (db : Db) (i : Nat) (d : DbFile) : Prop where
  fd : db.fd = some i
  createTime : db.createTimeUs = d.createTimeUs
  nextMsgId : db.nextMsgId = d.nextMsgId
  nextLeaseId : db.nextLeaseId = 1
  logStart : db.logStartOffset = d.start
  logEnd : db.logEndOffset = logEndOf d.start d.rs
  flags : db.flags = d.flags

/-- The file while it is recovered: the old header, or that of the view. -/
def Recovering (F : Prop) (d : DbFile) (v : View) (s : FileState) : Prop :=
  d.Kept (fun B => F ∨ B = d.patch ∨ B = v.patch) s

theorem DbFile.Stored.recovering {s : FileState} (h : d.Stored s) (F : Prop)
    (v : View) : Recovering F d v s :=
  DbFile.Kept.mono h (fun _ hB => Or.inr (Or.inl hB))

/-- The truncation behind the log. -/
theorem wp_truncate {ro : Rc → Cmd (Rc × Db)} {I : World → Prop}
    {Q : Rc × Db → World → Prop} {Bs : Bytes → Prop}
    (hfd : db.fd = some i) (hend : db.logEndOffset = logEndOf d.start d.rs)
    (hk : d.Kept Bs (w.files i))
    (hlimit : db.logEndOffset.toNat ≤ maxFileSize)
    (hI : ∀ w', InFile i w (d.Kept Bs) w' → I w')
    (hok : ∀ w', InFile i w (d.Kept Bs) w' →
      Prog.Wp (Faulty F) I (ro .ok) w' Q) :
    Prog.Wp (Faulty F) I (fileTruncate db.fd db.logEndOffset >>= ro) w Q := by
  have he := toNat_logEndOf hk.content.fits
  rw [hend] at hlimit
  rw [hfd, hend]
  have hw' : InFile i w (d.Kept Bs)
      (w.issue i (.truncate (logEndOf d.start d.rs).toNat)) := by
    apply (InFile.refl hk).setFile
    apply FileState.Keeps.issue hk
    exact Or.inl ⟨Nat.le_of_eq he.symm, hlimit⟩
  refine wp_op (fun _ _ h => h) (hI w (InFile.refl hk)) ?_
  have hres : posix (.fileTruncate (some i) (logEndOf d.start d.rs)) w =
      (.ok, w.issue i (.truncate (logEndOf d.start d.rs).toNat)) := by
    simp only [posix]
    rw [if_pos hlimit]
  rw [hres]
  exact hok _ hw'

/-- Log scan, log replay and header update, the last steps of `recover`. -/
def recoverScan (db : Db) : Cmd (Rc × Db) := do
  let (rc, db) ← validateLog db
  if rc ≠ .ok then return (rc, db)
  let (rc, db) ← replayLog { db with state := none }
  if rc ≠ .ok then return (rc, db)
  let db := { db with flags := db.flags ||| flagDirty }
  return (← headerUpdate db.fd db, db)

/-- The steps of `recover` behind the WAL replay. -/
def recoverFile (db : Db) : Cmd (Rc × Db) := do
  match ← fileSize db.fd with
  | .error rc => return (rc, db)
  | .ok fileSz =>
      if fileSz > db.logEndOffset then
        let rc ← fileTruncate db.fd db.logEndOffset
        if rc ≠ .ok then return (rc, db)
        recoverScan db
      else recoverScan db

theorem recover_eq (db : Db) :
    recover db =
      (if db.flags &&& flagWalPresent ≠ 0 ∨ db.flags &&& flagDirty ≠ 0 then
        replayWal db else pure (.ok, db)) >>= fun x =>
      if x.1 ≠ .ok then pure x else recoverFile x.2 := by
  unfold recover
  split <;> rfl

/-- Without a WAL file the recovery starts with the file itself. -/
theorem wp_recover_of_file {I : World → Prop} {Q : Rc × Db → World → Prop}
    (hwal : w.dir .wal = none)
    (h : Prog.Wp (Faulty F) I (recoverFile db) w Q) :
    Prog.Wp (Faulty F) I (recover db) w Q := by
  rw [recover_eq]
  have hread : CmdReads
      (if db.flags &&& flagWalPresent ≠ 0 ∨ db.flags &&& flagDirty ≠ 0 then
        replayWal db else pure (.ok, db)) w (.ok, db) := by
    split
    · exact reads_replayWal hwal db
    · exact Prog.reads_pure
  apply wp_reads hread
  rw [if_neg (by simp)]
  exact h

/-- What stands behind the log is cut off before the log is scanned. -/
theorem wp_recoverFile_of_scan {I : World → Prop}
    {Q : Rc × Db → World → Prop} {Bs : Bytes → Prop}
    (hfd : db.fd = some i) (hend : db.logEndOffset = logEndOf d.start d.rs)
    (hk : d.Kept Bs (w.files i))
    (hI : ∀ w', InFile i w (d.Kept Bs) w' → I w')
    (hok : ∀ w', InFile i w (d.Kept Bs) w' →
      Prog.Wp (Faulty F) I (recoverScan db) w' Q) :
    Prog.Wp (Faulty F) I (recoverFile db) w Q := by
  have hmx := maxFileSize_eq
  have hlimit := Begins.limit hk.content
  unfold recoverFile
  rw [hfd]
  apply wp_reads (reads_fileSize i w)
  dsimp only
  split
  · next hgt =>
    rw [← hfd]
    refine wp_truncate hfd hend hk ?_ hI hok
    change (w.content i).length ≤ maxFileSize at hlimit
    rw [gt_iff_lt, UInt64.lt_iff_toNat_lt] at hgt
    simp only [UInt64.toNat_ofNat'] at hgt
    omega
  · exact hok w (InFile.refl hk)

theorem Fresh.framed (hdb : Fresh db i d) {Bs : Bytes → Prop}
    (hk : d.Kept Bs (w.files i)) : Framed w i db d.rs where
  fd := hdb.fd
  limit := Begins.limit hk.content
  bytes := by
    rw [hdb.logStart]
    exact Begins.body hk.content
  stop := by
    rw [hdb.logStart, hdb.logEnd]
    exact toNat_logEndOf hk.content.fits

/-- The log region of an open handle. -/
theorem Live.framed {F : Prop} {v : View} (h : Live F w db v i) :
    Framed w i db v.rs where
  fd := h.fd
  limit := Begins.limit h.content
  bytes := by
    rw [h.logStart]
    exact Begins.body h.content
  stop := by
    rw [h.logStart]
    exact h.toNat_logEnd

/-- Log replay and header update, behind the log scan. -/
def recoverReplay (db : Db) : Cmd (Rc × Db) := do
  let (rc, db) ← replayLog { db with state := none }
  if rc ≠ .ok then return (rc, db)
  let db := { db with flags := db.flags ||| flagDirty }
  return (← headerUpdate db.fd db, db)

theorem recoverScan_eq (db : Db) :
    recoverScan db = validateLog db >>= fun x =>
      if x.1 ≠ .ok then pure x else recoverReplay x.2 := by
  rfl

/-- A log that ends where the header says is replayed as it is. -/
theorem wp_recoverScan_of_replay {I : World → Prop}
    {Q : Rc × Db → World → Prop} {rs : List Record}
    (hfr : Framed w i db rs)
    (h : Prog.Wp (Faulty F) I (recoverReplay db) w Q) :
    Prog.Wp (Faulty F) I (recoverScan db) w Q := by
  rw [recoverScan_eq]
  apply wp_reads hfr.reads_validateLog
  dsimp only
  rw [if_neg (by simp)]
  exact h

theorem Fresh.memOf (hdb : Fresh db i d) :
    memOf { db with state := none } .empty = Mem.start d.nextMsgId := by
  simp only [Qdb.memOf, Mem.start, hdb.nextMsgId, hdb.nextLeaseId]

theorem Framed.withoutState {rs : List Record} (h : Framed w i db rs) :
    Framed w i { db with state := none } rs where
  fd := h.fd
  limit := h.limit
  bytes := h.bytes
  stop := h.stop

/-- Replay of a log that is accepted, and the header behind it. -/
theorem wp_recoverReplay {mem : Mem} {t : UInt64} (hdb : Fresh db i d)
    (hk : d.Stored (w.files i))
    (hrep : replayRecords d.start d.rs (Mem.start d.nextMsgId) = some mem) :
    Prog.Wp (Faulty F) (InFile i w (Recovering F d (d.opened mem t)))
      (recoverReplay db) w (fun x w' =>
        (x = (.ok, { db.withMem mem with flags := d.flags ||| flagDirty }) ∧
          InFile i w (d.opened mem t).file.Stored w') ∨
        (F ∧ x.1 = .errIo ∧ x.2.fd = some i ∧
          InFile i w (d.Kept (fun _ => True)) w')) := by
  have hfr := (hdb.framed hk).withoutState
  unfold recoverReplay
  apply wp_reads (hfr.reads_replayLog (by
    rw [hdb.memOf, show ({ db with state := none } : Db).logStartOffset =
      db.logStartOffset from rfl, hdb.logStart]
    exact hrep))
  dsimp only
  rw [if_neg (by simp)]
  have hpatch : headerPatch
      { db.withMem mem with flags := d.flags ||| flagDirty } =
      (d.opened mem t).patch :=
    DbFile.headerPatch_eq hdb.logStart hdb.logEnd hdb.createTime rfl rfl
  change Prog.Wp (Faulty F) _ (headerUpdate db.fd
    { db.withMem mem with flags := db.flags ||| flagDirty } >>= fun rc =>
      pure (rc, { db.withMem mem with flags := db.flags ||| flagDirty })) w _
  rw [hdb.flags, hdb.fd]
  apply Prog.wp_seq ((wp_headerUpdate _ hk).mono
    (J := InFile i w (Recovering F d (d.opened mem t))) ?_
    (fun _ _ hq => hq))
  · rintro rc w2 hi2 (⟨rfl, h2⟩ | ⟨hF, rfl, h2⟩)
    · rw [hpatch] at h2
      exact Prog.wp_pure hi2 (Or.inl ⟨rfl, h2⟩)
    · exact Prog.wp_pure hi2 (Or.inr ⟨hF, rfl, hdb.fd, h2⟩)
  · rw [hpatch]
    exact fun _ hw' => hw'

/-- Replay of a log that is rejected. -/
theorem wp_recoverReplay_corrupt {I : World → Prop}
    {Q : Rc × Db → World → Prop} (hdb : Fresh db i d)
    (hk : d.Stored (w.files i))
    (hrep : replayRecords d.start d.rs (Mem.start d.nextMsgId) = none)
    (hw : I w) (hQ : ∀ db', db'.fd = some i → db'.lockFd = db.lockFd →
      Q (.errCorrupt, db') w) :
    Prog.Wp (Faulty F) I (recoverReplay db) w Q := by
  have hfr := (hdb.framed hk).withoutState
  obtain ⟨db', hfd', hl', hr⟩ := hfr.reads_replayLog_corrupt (by
    rw [hdb.memOf, show ({ db with state := none } : Db).logStartOffset =
      db.logStartOffset from rfl, hdb.logStart]
    exact hrep)
  unfold recoverReplay
  apply wp_reads hr
  dsimp only
  rw [if_pos (by simp)]
  exact Prog.wp_pure hw (hQ db' hfd' hl')

/-- Recovery of a file whose log replay accepts. -/
theorem wp_recover {mem : Mem} {t : UInt64} (hdb : Fresh db i d)
    (hwal : w.dir .wal = none) (hk : d.Stored (w.files i))
    (hrep : replayRecords d.start d.rs (Mem.start d.nextMsgId) = some mem) :
    Prog.Wp (Faulty F) (InFile i w (Recovering F d (d.opened mem t)))
      (recover db) w (fun x w' =>
        (x = (.ok, { db.withMem mem with flags := d.flags ||| flagDirty }) ∧
          InFile i w (d.opened mem t).file.Stored w') ∨
        (F ∧ x.1 = .errIo ∧ x.2.fd = some i ∧
          InFile i w (d.Kept (fun _ => True)) w')) := by
  have hI : ∀ w', InFile i w d.Stored w' →
      InFile i w (Recovering F d (d.opened mem t)) w' :=
    fun w' hw' => hw'.mono (fun h => h.recovering F _)
  apply wp_recover_of_file hwal
  apply wp_recoverFile_of_scan hdb.fd hdb.logEnd hk hI
  intro w1 h1
  apply wp_recoverScan_of_replay (hdb.framed h1.2)
  refine (wp_recoverReplay hdb h1.2 hrep).mono
    (fun w' hw' => ⟨h1.1.trans hw'.1, hw'.2⟩) ?_
  rintro x w' (⟨hx, hw'⟩ | ⟨hF, hx, hfd, hw'⟩)
  · exact Or.inl ⟨hx, h1.1.trans hw'.1, hw'.2⟩
  · exact Or.inr ⟨hF, hx, hfd, h1.1.trans hw'.1, hw'.2⟩

/-- Recovery of a file whose log replay rejects. -/
theorem wp_recover_corrupt (hdb : Fresh db i d)
    (hwal : w.dir .wal = none) (hk : d.Stored (w.files i))
    (hrep : replayRecords d.start d.rs (Mem.start d.nextMsgId) = none) :
    Prog.Wp (Faulty F) (InFile i w d.Stored)
      (recover db) w (fun x w' =>
        x.1 = .errCorrupt ∧ x.2.fd = some i ∧ x.2.lockFd = db.lockFd ∧
          InFile i w d.Stored w') := by
  apply wp_recover_of_file hwal
  apply wp_recoverFile_of_scan hdb.fd hdb.logEnd hk (fun _ hw' => hw')
  intro w1 h1
  apply wp_recoverScan_of_replay (hdb.framed h1.2)
  exact wp_recoverReplay_corrupt hdb h1.2 hrep h1
    (fun db' hfd hl => ⟨rfl, hfd, hl, h1⟩)

end Recover

section Create

variable {F : Prop} {w : World} {m : Db} {j : Nat} {d : DbFile}

/-- A file in the course of its creation: nothing durable and at most a torn
header issued, or the whole header. -/
def DbFile.Created (d : DbFile) (s : FileState) : Prop :=
  (s.durable = [] ∧ (s.pending = [] ∨
    ∃ k, s.pending = [.write 0 ((headerEncode d.header).take k)])) ∨
  d.Stored s

theorem keptBytes_headerEncode (hs : d.start = hdrSize) (hrs : d.rs = []) :
    d.KeptBytes (fun B => B = d.patch) (headerEncode d.header) := by
  have hmx := maxFileSize_eq
  have hlen := length_headerEncode d.header
  have henc := headerEncode_eq d.header
  have h24 := length_headerPrefix24 d.createTimeUs
  have h32 : d.patch.length = 32 := length_headerPatch _
  exact
    { limit := by omega
      page := by omega
      lower := by rw [hs]; exact Nat.le_refl _
      head := by
        rw [henc]
        change slice (headerPrefix24 d.createTimeUs ++ _) 0 24 = _
        rw [← h24]
        exact slice_zero_left _ _
      patch := by
        rw [henc]
        exact slice_at (headerPrefix24 d.createTimeUs) d.patch _ h24.symm
          h32.symm
      body := by
        rw [hrs]
        simp [slice] }

/-- What a crash leaves of a file in the course of its creation. -/
theorem DbFile.Created.crash (hs : d.start = hdrSize) (hrs : d.rs = [])
    {s : FileState} {f : Bytes} (h : d.Created s) (hf : s.CrashImage f) :
    f.length < 4096 ∨ d.Stored ⟨f, []⟩ := by
  have hlen := length_headerEncode d.header
  have hstored : ∀ {f}, d.KeptBytes (fun B => B = d.patch) f →
      d.Stored ⟨f, []⟩ := fun h => ⟨h, by simp⟩
  rcases h with ⟨hd, hp⟩ | h
  swap
  · exact Or.inr (hstored (FileState.Keeps.crash h hf))
  obtain ⟨qs, hqs, rfl⟩ := hf
  rw [hd]
  rcases hp with hp | ⟨k, hp⟩
  · rw [hp] at hqs
    cases hqs
    exact Or.inl (by simp [applyRemains])
  · rw [hp] at hqs
    rcases hqs with _ | ⟨hq, hrest⟩
    cases hrest
    rcases hq with rfl | ⟨n, hn, rfl, -⟩
    · exact Or.inl (by simp [applyRemains])
    · simp only [applyRemains, Pending.apply, overwrite_zero, List.drop_nil,
        List.append_nil, List.take_take]
      by_cases hshort : min n k < 4096
      · left
        rw [List.length_take]
        omega
      · right
        rw [List.take_of_length_le (by omega)]
        exact hstored (keptBytes_headerEncode hs hrs)

/-- `qdb__header_write` on a fresh file. -/
theorem wp_headerWrite (hfile : w.files j = ⟨[], []⟩)
    (hm : headerEncode m = headerEncode d.header)
    (hs : d.start = hdrSize) (hrs : d.rs = []) :
    Prog.Wp (Faulty F) (InFile j w d.Created) (headerWrite (some j) m) w
      (fun rc w' => (rc = .ok ∧ InFile j w d.Stored w') ∨
        (F ∧ rc = .errIo ∧ w.SameBut j w')) := by
  have hmx := maxFileSize_eq
  have hlen := length_headerEncode m
  have h0 : (0 : UInt64).toNat = 0 := rfl
  have hrefl : InFile j w d.Created w :=
    InFile.refl (Or.inl ⟨by rw [hfile], Or.inl (by rw [hfile])⟩)
  have hissue : ∀ k, InFile j w d.Created
      (w.issue j (.write 0 ((headerEncode m).take k))) := by
    intro k
    apply hrefl.setFile
    refine Or.inl ⟨by rw [hfile]; rfl, Or.inr ⟨k, ?_⟩⟩
    rw [hfile, hm]
    rfl
  have hfull := hissue 4096
  rw [List.take_of_length_le (by omega)] at hfull
  unfold headerWrite
  apply Prog.wp_bind
    (P := fun rc w' =>
      (rc = .ok ∧ w' = w.issue j (.write 0 (headerEncode m))) ∨
      (F ∧ rc = .errIo ∧ InFile j w d.Created w'))
  · apply wp_writeFull
    · intro hnil
      rw [hnil] at hlen
      simp at hlen
    · exact hrefl
    · intro _
      exact ⟨hfull, Or.inl ⟨rfl, rfl⟩⟩
    · rintro (hF | hmax)
      · exact Or.inr ⟨hF, rfl, hrefl⟩
      · omega
    · rintro k - - (hF | hmax)
      · exact ⟨hissue k, Or.inr ⟨hF, rfl, hissue k⟩⟩
      · omega
  · rintro rc w1 (⟨rfl, rfl⟩ | ⟨hF, rfl, h1⟩)
    · rw [if_neg (by simp)]
      apply wp_fileSync hfull
      · have hc : ((w.issue j (.write 0 (headerEncode m))).files j).content =
            headerEncode m := by
          rw [World.issue_files_self, FileState.content_issue, hfile]
          change overwrite [] 0 (headerEncode m) = _
          rw [overwrite_zero, List.drop_nil, List.append_nil]
        have hk : d.Stored
            ((w.issue j (.write 0 (headerEncode m))).files j).sync := by
          apply FileState.Keeps.sync
          rw [hc, hm]
          exact keptBytes_headerEncode hs hrs
        have hin : InFile j w d.Stored
            ((w.issue j (.write 0 (headerEncode m))).setFile j
              ((w.issue j (.write 0 (headerEncode m))).files j).sync) :=
          hfull.setFile hk
        exact ⟨hin.mono Or.inr, Or.inl ⟨rfl, hin⟩⟩
      · intro hF
        exact Or.inr ⟨hF, rfl, hfull.1⟩
    · rw [if_pos (by simp)]
      exact Prog.wp_pure h1 (Or.inr ⟨hF, rfl, h1.1⟩)

end Create

section Close

variable {F : Prop} {w : World} {db : Db} {v : View} {i : Nat}

/-- `qdb__free_db` on an open handle releases the lock. -/
theorem wp_freeDb {R : (o : Op) → World → o.Resp → World → Prop}
    {I : World → Prop} {Q : Unit → World → Prop} {l : Nat}
    (hR : ∀ o w r w', R o w r w' → Faulty True o w r w')
    (hfd : db.fd = some i) (hl : db.lockFd = some l)
    (hlock : w.lockOwner = some l) (hw : I w)
    (hw' : I { w with lockOwner := none })
    (hQ : Q () { w with lockOwner := none }) :
    Prog.Wp R I (freeDb db) w Q := by
  unfold freeDb
  rw [hfd, hl, if_pos (by simp), if_pos (by simp)]
  refine wp_op_on hR (fun _ _ h => h) hw ?_
  refine wp_op_on hR (fun _ _ h => h) hw ?_
  have hu : w.unlock (some l) = { w with lockOwner := none } :=
    if_pos hlock
  have hu' : ({ w with lockOwner := none } : World).unlock (some l) =
      { w with lockOwner := none } := if_neg (by simp)
  refine ⟨by simpa only [posix, hu] using hw', ?_⟩
  intro r t hr
  rcases hR _ _ r t hr with h | ⟨-, h⟩
  · simp only [posix, hu, hu'] at h
    cases h
    exact ⟨hw', hQ⟩
  · exact h.elim

/-- `qdb_close`: the log and the counter stay, the header is clean. -/
theorem wp_qdbClose (h : Live F w db v i) :
    Prog.Wp (Faulty False)
      (OnDisk i (v.file.Kept fun B => (F ∨ B = v.patch) ∨ B = v.closed.patch))
      (qdbClose db) w (fun _ w' => Rest w' v.closed i) := by
  obtain ⟨l, hl, hlock, -⟩ := h.lock
  have hpatch : headerPatch { db with
      flags := db.flags &&& ~~~(flagDirty ||| flagWalPresent) } =
      v.closed.patch :=
    DbFile.headerPatch_eq h.logStart h.logEnd h.createTime h.nextMsgId
      (by rw [h.flags]; rfl)
  unfold qdbClose
  rw [if_pos (by rw [h.fd]; simp)]
  dsimp only
  rw [h.fd]
  apply Prog.wp_seq ((wp_headerUpdate { db with
      flags := db.flags &&& ~~~(flagDirty ||| flagWalPresent) }
      h.keeps).mono
    (J := OnDisk i (v.file.Kept fun B =>
      (F ∨ B = v.patch) ∨ B = v.closed.patch)) ?_ (fun _ _ hq => hq))
  · rintro rc w1 hi1 (⟨-, h1⟩ | ⟨hF, -⟩)
    · rw [hpatch] at h1
      apply wp_freeDb Faulty.weaken h.fd hl (by rw [h1.1.lockOwner, hlock]) hi1
      · exact { main := hi1.main, wal := hi1.wal, ino := hi1.ino,
                file := hi1.file }
      · exact
          { disk :=
              { main := hi1.main, wal := hi1.wal, ino := hi1.ino,
                file := h1.2 }
            lock := rfl }
    · exact hF.elim
  · intro w' hw'
    rw [hpatch] at hw'
    apply h.onDisk.inFile
    refine ⟨hw'.1, FileState.Keeps.mono hw'.2 ?_⟩
    rintro B (hF | hB)
    · exact hF.elim
    · exact hB

end Close

section Open

variable {w : World} {i : Nat} {d : DbFile} {t : UInt32}

/-- The machine after the lock has been taken and the staging name removed. -/
def World.locked (w : World) : World :=
  { w with
    nextLockFd := w.nextLockFd + 1
    lockOwner := some w.nextLockFd
    dir := Function.update w.dir .compact none }

/-- The handle `qdb_open_err` opens the file with. -/
def Db.opened (t : UInt32) (lockFd : Nat) (fd : Fd) : Db :=
  { Db.zero with
    leaseTimeoutUs := leaseTimeoutOf t
    lockFd := some lockFd
    fd := fd }

/-- The steps of `qdb_open_err` before the file is opened. -/
theorem wp_open_of_locked {R : (o : Op) → World → o.Resp → World → Prop}
    {I : World → Prop} {Q : Rc × Option Db → World → Prop}
    (hR : ∀ o w r w', R o w r w' → Faulty True o w r w')
    (hlock : w.lockOwner = none)
    (hI : ∀ w', w'.dir .main = w.dir .main → w'.dir .wal = w.dir .wal →
      w'.files = w.files → w'.nextIno = w.nextIno → I w')
    (h : Prog.Wp R I (fileOpen .main true >>= fun x =>
      match x with
      | .error rc => openFail { Db.zero with
          leaseTimeoutUs := leaseTimeoutOf t
          lockFd := some w.nextLockFd } rc
      | .ok (fd, isNew) =>
          if isNew then openNew (Db.opened t w.nextLockFd fd)
          else openExisting (Db.opened t w.nextLockFd fd)) w.locked Q) :
    Prog.Wp R I (qdbOpenErr t) w Q := by
  have hw : I w := hI w rfl rfl rfl rfl
  unfold qdbOpenErr
  apply Prog.wp_bind_reads hR (reads_alloc w)
  rw [if_neg (by simp)]
  apply Prog.wp_bind_reads hR (reads_alloc w)
  apply Prog.wp_bind_reads hR (reads_alloc w)
  apply Prog.wp_bind_reads hR (reads_alloc w)
  rw [if_neg (by simp)]
  refine wp_op_on hR (fun _ _ h => h) hw ?_
  refine wp_op_on hR (fun _ _ h => h) (hI _ rfl rfl rfl rfl) ?_
  dsimp only [posix]
  rw [if_pos (Or.inl hlock)]
  dsimp only
  rw [if_neg (by simp)]
  apply Prog.wp_bind_reads hR (reads_alloc _)
  rw [if_pos rfl]
  refine wp_op_on hR (fun _ _ h => h) (hI _ rfl rfl rfl rfl) ?_
  exact h

theorem locked_main (w : World) : w.locked.dir .main = w.dir .main := by
  simp [World.locked]

theorem locked_wal (w : World) : w.locked.dir .wal = w.dir .wal := by
  simp [World.locked]

/-- The handle `recover` gets when an existing file is opened. -/
theorem opened_fresh (t : UInt32) (l : Nat) :
    Fresh { (Db.opened t l (some i)).withHeader d.header with
      nextLeaseId := 1 } i d where
  fd := rfl
  createTime := rfl
  nextMsgId := rfl
  nextLeaseId := rfl
  logStart := rfl
  logEnd := rfl
  flags := rfl

/-- Opening a database whose log replay accepts. -/
theorem wp_openDb {mem : Mem} (h : Rest w d i)
    (hrep : replayRecords d.start d.rs (Mem.start d.nextMsgId) = some mem) :
    Prog.Wp (Faulty False)
      (OnDisk i (Recovering False d (d.opened mem (leaseTimeoutOf t))))
      (callCmd none (.openDb t)) w (fun x w' => ∃ db,
        x = (.code .ok, some db) ∧
        Live False w' db (d.opened mem (leaseTimeoutOf t)) i) := by
  generalize hv : d.opened mem (leaseTimeoutOf t) = v
  have hdisk : ∀ {P : FileState → Prop} (w' : World),
      w'.dir .main = w.dir .main → w'.dir .wal = w.dir .wal →
      w'.nextIno = w.nextIno → P (w'.files i) → OnDisk i P w' := by
    intro P w' h1 h2 h3 h4
    exact ⟨h1.trans h.disk.main, h2.trans h.disk.wal,
      by rw [h3]; exact h.disk.ino, h4⟩
  have hopen : Prog.Wp (Faulty False) (OnDisk i (Recovering False d v))
      (qdbOpenErr t) w (fun x w' => ∃ db, x = (.ok, some db) ∧
        Live False w' db v i) := by
    apply wp_open_of_locked Faulty.weaken h.lock
    · intro w' h1 h2 h3 h4
      apply hdisk w' h1 h2 h4
      rw [h3]
      exact DbFile.Stored.recovering h.disk.file _ _
    have hk : d.Stored (w.locked.files i) := h.disk.file
    have hw1 : OnDisk i (Recovering False d v) w.locked :=
      hdisk _ (locked_main w) (locked_wal w) rfl (hk.recovering _ _)
    refine wp_op (fun _ _ h => h) hw1 ?_
    simp only [posix, locked_main, h.disk.main]
    rw [if_neg (by simp)]
    unfold openExisting
    apply wp_reads (reads_headerRead (DbFile.Kept.content hk) _)
    dsimp only
    rw [if_neg (by simp)]
    subst hv
    apply Prog.wp_seq ((wp_recover (t := leaseTimeoutOf t)
      (opened_fresh t w.nextLockFd)
      (by rw [locked_wal]; exact h.disk.wal) hk hrep).mono
      (fun w' hw' => hw1.inFile hw') (fun _ _ hq => hq))
    rintro ⟨rc, db1⟩ w2 hi2 (⟨heq, h2⟩ | ⟨hF, -⟩)
    swap
    · exact hF.elim
    cases heq
    rw [if_neg (by simp)]
    refine Prog.wp_pure hi2 ⟨_, rfl, ?_⟩
    exact
      { fd := rfl
        main := hi2.main
        wal := hi2.wal
        ino := hi2.ino
        lock := by
          refine ⟨w.nextLockFd, rfl, h2.1.lockOwner, ?_⟩
          rw [h2.1.nextLockFd]
          exact Nat.lt_succ_self _
        keeps := DbFile.Kept.mono h2.2 (fun B hB => Or.inr hB)
        logStart := rfl
        logEnd := rfl
        flags := rfl
        createTime := rfl
        timeout := rfl
        nextMsgId := rfl
        nextLeaseId := rfl
        state := rfl }
  apply Prog.wp_seq hopen
  rintro x w' hi ⟨db, rfl, hlive⟩
  exact Prog.wp_pure hi ⟨db, rfl, hlive⟩

/-- Opening a database whose log replay rejects. -/
theorem wp_openDb_corrupt (h : Rest w d i)
    (hrep : replayRecords d.start d.rs (Mem.start d.nextMsgId) = none) :
    Prog.Wp (Faulty False) (OnDisk i d.Stored)
      (callCmd none (.openDb t)) w (fun x w' =>
        x = (.code .errCorrupt, none) ∧ Rest w' d i) := by
  have hdisk : ∀ (w' : World),
      w'.dir .main = w.dir .main → w'.dir .wal = w.dir .wal →
      w'.nextIno = w.nextIno → w'.files = w.files →
      OnDisk i d.Stored w' := by
    intro w' h1 h2 h3 h4
    exact ⟨h1.trans h.disk.main, h2.trans h.disk.wal,
      by rw [h3]; exact h.disk.ino, by rw [h4]; exact h.disk.file⟩
  have hopen : Prog.Wp (Faulty False) (OnDisk i d.Stored)
      (qdbOpenErr t) w (fun x w' =>
        x = (.errCorrupt, none) ∧ Rest w' d i) := by
    apply wp_open_of_locked Faulty.weaken h.lock
    · intro w' h1 h2 h3 h4
      exact hdisk w' h1 h2 h4 h3
    have hw1 : OnDisk i d.Stored w.locked :=
      hdisk _ (locked_main w) (locked_wal w) rfl rfl
    refine wp_op (fun _ _ h => h) hw1 ?_
    simp only [posix, locked_main, h.disk.main]
    rw [if_neg (by simp)]
    unfold openExisting
    apply wp_reads (reads_headerRead (DbFile.Kept.content hw1.file) _)
    dsimp only
    rw [if_neg (by simp)]
    apply Prog.wp_seq ((wp_recover_corrupt (opened_fresh t w.nextLockFd)
      (by rw [locked_wal]; exact h.disk.wal) hw1.file hrep).mono
      (fun w' hw' => hw1.inFile hw') (fun _ _ hq => hq))
    rintro ⟨rc, db1⟩ w2 hi2 ⟨rfl, hfd, hl, h2⟩
    dsimp only at hfd hl ⊢
    rw [if_pos (by simp)]
    unfold openFail
    have hfinal : OnDisk i d.Stored { w2 with lockOwner := none } :=
      ⟨hi2.main, hi2.wal, hi2.ino, hi2.file⟩
    apply Prog.wp_seq (wp_freeDb Faulty.weaken hfd hl h2.1.lockOwner hi2 hfinal
      (Q := fun _ w' => w' = { w2 with lockOwner := none }) rfl)
    rintro _ w' hi rfl
    exact Prog.wp_pure hi ⟨rfl, hfinal, rfl⟩
  apply Prog.wp_seq hopen
  rintro x w' hi ⟨rfl, hrest⟩
  exact Prog.wp_pure hi ⟨rfl, hrest⟩

/-- Opening a file that is too short for a header. -/
theorem wp_openDb_short (hmain : w.dir .main = some i)
    (hlock : w.lockOwner = none) (hshort : (w.content i).length < 4096) :
    Prog.Wp (Faulty False)
      (fun w' => w'.dir .main = some i ∧ w'.dir .wal = w.dir .wal ∧
        w'.files = w.files ∧ w'.nextIno = w.nextIno)
      (callCmd none (.openDb t)) w (fun x w' =>
        x = (.code .errCorrupt, none) ∧ w'.lockOwner = none) := by
  have hopen : Prog.Wp (Faulty False)
      (fun w' => w'.dir .main = some i ∧ w'.dir .wal = w.dir .wal ∧
        w'.files = w.files ∧ w'.nextIno = w.nextIno)
      (qdbOpenErr t) w (fun x w' =>
        x = (.errCorrupt, none) ∧ w'.lockOwner = none) := by
    apply wp_open_of_locked Faulty.weaken hlock
    · intro w' h1 h2 h3 h4
      exact ⟨h1.trans hmain, h2, h3, h4⟩
    have hw1 : w.locked.dir .main = some i ∧
        w.locked.dir .wal = w.dir .wal ∧ w.locked.files = w.files ∧
        w.locked.nextIno = w.nextIno :=
      ⟨by rw [locked_main, hmain], locked_wal w, rfl, rfl⟩
    refine wp_op (fun _ _ h => h) hw1 ?_
    simp only [posix, locked_main, hmain]
    rw [if_neg (by simp)]
    unfold openExisting
    have hread : CmdReads (headerRead (Db.opened t w.nextLockFd (some i)).fd
        (Db.opened t w.nextLockFd (some i))) w.locked
        (.errCorrupt, Db.opened t w.nextLockFd (some i)) := by
      unfold headerRead
      apply Prog.reads_bind (reads_fileSize i w.locked)
      dsimp only
      have hlen : (w.locked.content i).length < 4096 := hshort
      rw [if_pos (by
        rw [UInt64.lt_iff_toNat_lt, show hdrSize.toNat = 4096 from rfl]
        simp
        omega)]
      exact Prog.reads_pure
    apply wp_reads hread
    dsimp only
    rw [if_pos (by simp)]
    unfold openFail
    apply Prog.wp_seq (wp_freeDb Faulty.weaken rfl rfl rfl hw1 hw1
      (Q := fun _ w' => w'.lockOwner = none) rfl)
    intro _ w' hi hl
    exact Prog.wp_pure hi ⟨rfl, hl⟩
  apply Prog.wp_seq hopen
  rintro x w' hi ⟨rfl, hl⟩
  exact Prog.wp_pure hi ⟨rfl, hl⟩

/-- Opening a database that is open. -/
theorem wp_openDb_locked {F : Prop} {db : Db} {v : View}
    (h : Live F w db v i) :
    Prog.Wp (Faulty False) (OnDisk i (v.Holds F))
      (callCmd (some db) (.openDb t)) w (fun x w' =>
        x = (.code .errLocked, some db) ∧ Live F w' db v i) := by
  obtain ⟨l, hl, hlock, hlt⟩ := h.lock
  have hdisk : OnDisk i (v.Holds F)
      { w with nextLockFd := w.nextLockFd + 1 } :=
    ⟨h.main, h.wal, h.ino, h.keeps⟩
  have hne : (some l : Option Nat) ≠ some w.nextLockFd := by
    intro he
    cases he
    omega
  have hheld : ¬ (w.lockOwner = none ∨
      w.lockOwner = some w.nextLockFd) := by
    rintro (he | he)
    · rw [hlock] at he
      cases he
    · exact hne (hlock.symm.trans he)
  unfold callCmd qdbOpenErr
  apply Prog.wp_seq
    (P := fun x w' => x = (.errLocked, none) ∧
      w' = { w with nextLockFd := w.nextLockFd + 1 })
  · apply wp_reads (reads_alloc w)
    rw [if_neg (by simp)]
    apply wp_reads (reads_alloc w)
    apply wp_reads (reads_alloc w)
    apply wp_reads (reads_alloc w)
    rw [if_neg (by simp)]
    refine wp_op (fun _ _ h => h) h.onDisk ?_
    refine wp_op (fun _ _ h => h) hdisk ?_
    dsimp only [posix]
    rw [if_neg hheld]
    dsimp only
    rw [if_pos (by simp)]
    refine wp_op (fun _ _ h => h) hdisk ?_
    have hu : ({ w with nextLockFd := w.nextLockFd + 1 } : World).unlock
        (some w.nextLockFd) = { w with nextLockFd := w.nextLockFd + 1 } :=
      if_neg (fun he => hne (hlock.symm.trans he))
    dsimp only [posix]
    rw [hu]
    exact Prog.wp_pure hdisk ⟨rfl, rfl⟩
  · rintro x w' hi ⟨rfl, rfl⟩
    refine Prog.wp_pure hi ⟨rfl, ?_⟩
    exact
      { h with
        lock := ⟨l, hl, hlock, Nat.lt_succ_of_lt hlt⟩ }

/-- What a new database file says. -/
def newFile (now : UInt64) : DbFile where
  createTimeUs := now
  nextMsgId := 1
  start := hdrSize
  rs := []
  flags := flagDirty

theorem newFile_opened (now t : UInt64) :
    ((newFile now).opened (Mem.start 1) t).file = newFile now := by
  have hflags : flagDirty ||| flagDirty = flagDirty := by decide
  simp only [DbFile.opened, View.file, newFile, Mem.start, hflags]

/-- The file while a database is created. -/
def Creating (w₀ w : World) : Prop :=
  w.dir .wal = none ∧ (w.dir .main = none ∨
    ∃ i, w.dir .main = some i ∧ i < w.nextIno ∧
      (newFile w₀.now).Created (w.files i))

/-- Creating a database. -/
theorem wp_openDb_new (hmain : w.dir .main = none) (hwal : w.dir .wal = none)
    (hlock : w.lockOwner = none) :
    Prog.Wp (Faulty False) (Creating w)
      (callCmd none (.openDb t)) w (fun x w' => ∃ db i,
        x = (.code .ok, some db) ∧
        Live False w' db
          ((newFile w.now).opened (Mem.start 1) (leaseTimeoutOf t)) i) := by
  have hopen : Prog.Wp (Faulty False) (Creating w) (qdbOpenErr t) w
      (fun x w' => ∃ db i, x = (.ok, some db) ∧
        Live False w' db
          ((newFile w.now).opened (Mem.start 1) (leaseTimeoutOf t)) i) := by
    have hbefore : ∀ w', w'.dir .main = w.dir .main →
        w'.dir .wal = w.dir .wal → Creating w w' :=
      fun w' h1 h2 => ⟨h2.trans hwal, Or.inl (h1.trans hmain)⟩
    apply wp_open_of_locked Faulty.weaken hlock (fun w' h1 h2 _ _ => hbefore w' h1 h2)
    refine wp_op (fun _ _ h => h)
      (hbefore _ (locked_main w) (locked_wal w)) ?_
    simp only [posix, locked_main, hmain, if_true]
    unfold openNew
    apply wp_reads (reads_timeUs _)
    dsimp only
    have hfile : (w.locked.create .main).files w.locked.nextIno =
        ⟨[], []⟩ := by
      simp [World.create, World.setFile, World.setDir]
    have hafter : ∀ w', InFile w.nextIno (w.locked.create .main)
        (newFile w.now).Created w' → Creating w w' := by
      intro w' hw'
      refine ⟨?_, Or.inr ⟨w.nextIno, ?_, ?_, hw'.2⟩⟩
      · rw [hw'.1.dir]
        simp [World.create, World.setFile, World.setDir, World.locked, hwal]
      · rw [hw'.1.dir]
        simp [World.create, World.setFile, World.setDir, World.locked]
      · rw [hw'.1.nextIno]
        exact Nat.lt_succ_self _
    apply Prog.wp_bind ((wp_headerWrite (F := False) (d := newFile w.now)
      hfile rfl rfl rfl).mono hafter (fun _ _ hq => hq))
    rintro rc w1 (⟨rfl, h1⟩ | ⟨hF, -⟩)
    swap
    · exact hF.elim
    have hw1 : Creating w w1 := hafter w1 (h1.mono Or.inr)
    rw [if_neg (by simp)]
    apply wp_reads (reads_alloc _)
    rw [if_neg (by simp)]
    refine Prog.wp_pure hw1 ⟨_, w.nextIno, rfl, ?_⟩
    exact
      { fd := rfl
        main := by
          rw [h1.1.dir]
          simp [World.create, World.setFile, World.setDir, World.locked]
        wal := hw1.1
        ino := by
          rw [h1.1.nextIno]
          exact Nat.lt_succ_self _
        lock := by
          refine ⟨w.nextLockFd, rfl, h1.1.lockOwner, ?_⟩
          rw [h1.1.nextLockFd]
          exact Nat.lt_succ_self _
        keeps := by
          unfold View.Holds View.patch
          rw [newFile_opened]
          exact DbFile.Kept.mono h1.2 (fun B hB => Or.inr hB)
        logStart := rfl
        logEnd := (logEndOf_nil hdrSize).symm
        flags := by
          change flagDirty = flagDirty ||| flagDirty
          decide
        createTime := rfl
        timeout := rfl
        nextMsgId := rfl
        nextLeaseId := rfl
        state := rfl }
  apply Prog.wp_seq hopen
  rintro x w' hi ⟨db, i, rfl, hlive⟩
  exact Prog.wp_pure hi ⟨db, i, rfl, hlive⟩

end Open

end Qdb
