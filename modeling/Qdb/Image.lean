import Qdb.OpenSpec
import Qdb.Scan

/-!
# Opening any file

What `qdb_open` does with a main file whose bytes are arbitrary.  A header that
is accepted is the encoding of its fields; the scan of the log region then
decides whether the file is refused, cut at a partial record, or taken as it
is.  The states the file goes through on the way are listed exactly.
-/

namespace Qdb

open Lib

section Header

theorem putU64le_getU64le {bs : Bytes} (h : 8 ≤ bs.length) :
    putU64le (getU64le bs) = bs.take 8 := by
  match bs, h with
  | a :: b :: c :: d :: x :: y :: z :: u :: rest, _ =>
      have hlo := putU32le_getU32le a b c d (x :: y :: z :: u :: rest)
      have hhi := putU32le_getU32le x y z u rest
      have h64 := toNat_getU64le (a :: b :: c :: d :: x :: y :: z :: u :: rest)
      simp only [List.drop_succ_cons, List.drop_zero] at h64
      generalize hg : getU64le (a :: b :: c :: d :: x :: y :: z :: u ::
        rest) = g at h64 ⊢
      generalize getU32le (a :: b :: c :: d :: x :: y :: z :: u :: rest) = lo
        at hlo h64
      generalize getU32le (x :: y :: z :: u :: rest) = hi at hhi h64
      have h1 := lo.toNat_lt
      have h2 := hi.toNat_lt
      have e1 : (g &&& 0xFFFFFFFF).toUInt32 = lo := by
        apply UInt32.toNat_inj.mp
        simp [h64, and_4294967295]
      have e2 : (g >>> 32).toUInt32 = hi := by
        apply UInt32.toNat_inj.mp
        simp [h64, Nat.shiftRight_eq_div_pow]
        omega
      unfold putU64le
      rw [e1, e2, hlo, hhi]
      rfl

theorem putU32le_getU32le_take {bs : Bytes} (h : 4 ≤ bs.length) :
    putU32le (getU32le bs) = bs.take 4 := by
  match bs, h with
  | a :: b :: c :: d :: rest, _ =>
      exact putU32le_getU32le a b c d rest

/-- The first page of the file is the header `m`. -/
structure HasHeader (f : Bytes) (m : Db) : Prop where
  page : 4096 ≤ f.length
  head : slice f 0 24 = headerPrefix24 m.createTimeUs
  patch : slice f 24 32 = headerPatch m
  lower : hdrSize ≤ m.logStartOffset
  order : m.logStartOffset ≤ m.logEndOffset

theorem HasHeader.decode {f : Bytes} {m : Db} (h : HasHeader f m) (db : Db) :
    headerDecode (slice f 0 4096) db = (.ok, db.withHeader m) := by
  have hbuf : slice f 0 4096 =
      headerFields m ++ putU32le (crc32 (headerFields m)) ++
        slice f 56 4040 := by
    change slice f 0 (24 + 32 + 4040) = _
    rw [slice_add, slice_add, h.head, h.patch, headerFields_eq]
  rw [hbuf, headerDecode_fields _ _ _ h.lower h.order]

/-- A header page that is accepted is the encoding of its fields. -/
theorem headerDecode_inv {f : Bytes} (hpage : 4096 ≤ f.length) (db : Db) :
    (∃ m, HasHeader f m) ∨
      ∃ db', headerDecode (slice f 0 4096) db = (.errCorrupt, db') ∧
        db'.fd = db.fd ∧ db'.lockFd = db.lockFd := by
  generalize hb : slice f 0 4096 = buf
  have hlen : buf.length = 4096 := by
    rw [← hb, length_slice]
    omega
  unfold headerDecode
  by_cases hmagic : buf.take 8 ≠ kFileMagic
  · rw [if_pos hmagic]
    exact Or.inr ⟨db, rfl, rfl, rfl⟩
  rw [if_neg hmagic]
  by_cases hcrc : crc32 (buf.take hdrCrcCover) ≠ getU32le (buf.drop 52)
  · rw [if_pos hcrc]
    exact Or.inr ⟨db, rfl, rfl, rfl⟩
  rw [if_neg hcrc]
  by_cases hver : getU32le (buf.drop 8) < 1 ∨
      getU32le (buf.drop 8) > formatVersion
  · rw [if_pos hver]
    exact Or.inr ⟨db, rfl, rfl, rfl⟩
  rw [if_neg hver]
  by_cases hps : getU32le (buf.drop 12) ≠ pageSize
  · rw [if_pos hps]
    exact Or.inr ⟨db, rfl, rfl, rfl⟩
  rw [if_neg hps]
  dsimp only
  split
  · exact Or.inr ⟨_, rfl, rfl, rfl⟩
  rename_i hbounds
  left
  rw [not_not] at hmagic hcrc hps
  have hver : getU32le (buf.drop 8) = formatVersion := by
    rw [not_or, UInt32.not_lt, gt_iff_lt, UInt32.not_lt] at hver
    exact UInt32.le_antisymm hver.2 hver.1
  let m : Db := { Db.zero with
    createTimeUs := getU64le (buf.drop 16)
    nextMsgId := getU64le (buf.drop 24)
    logStartOffset := getU64le (buf.drop 32)
    logEndOffset := getU64le (buf.drop 40)
    flags := getU32le (buf.drop 48) }
  have hslice : ∀ off len, off + len ≤ 4096 →
      slice f off len = (buf.drop off).take len := by
    intro off len hle
    rw [← hb]
    unfold slice
    rw [List.drop_zero, List.drop_take, List.take_take, min_eq_left (by omega)]
  have h64 : ∀ off, off + 8 ≤ 4096 →
      slice f off 8 = putU64le (getU64le (buf.drop off)) := by
    intro off hle
    rw [hslice off 8 hle,
      putU64le_getU64le (by rw [List.length_drop]; omega)]
  have h32 : ∀ off, off + 4 ≤ 4096 →
      slice f off 4 = putU32le (getU32le (buf.drop off)) := by
    intro off hle
    rw [hslice off 4 hle,
      putU32le_getU32le_take (by rw [List.length_drop]; omega)]
  have hhead : slice f 0 24 = headerPrefix24 m.createTimeUs := by
    change slice f 0 (8 + 4 + 4 + 8) = _
    rw [slice_add, slice_add, slice_add, hslice 0 8 (by omega),
      List.drop_zero, hmagic, h32 (0 + 8) (by omega),
      h32 (0 + (8 + 4)) (by omega), h64 (0 + (8 + 4 + 4)) (by omega)]
    simp only [Nat.zero_add, Nat.reduceAdd, hver, hps]
    rfl
  have hrest : slice f 24 28 = putU64le m.nextMsgId ++
      putU64le m.logStartOffset ++ putU64le m.logEndOffset ++
      putU32le m.flags := by
    change slice f 24 (8 + 8 + 8 + 4) = _
    rw [slice_add, slice_add, slice_add, h64 24 (by omega),
      h64 (24 + 8) (by omega), h64 (24 + (8 + 8)) (by omega),
      h32 (24 + (8 + 8 + 8)) (by omega)]
  have hfields : buf.take hdrCrcCover = headerFields m := by
    have h52 : buf.take 52 = slice f 0 (24 + 28) := by
      rw [hslice 0 (24 + 28) (by omega), List.drop_zero]
    rw [show hdrCrcCover = 52 from rfl, h52, slice_add, hhead, Nat.zero_add,
      hrest]
    simp only [headerFields, headerPrefix24, List.append_assoc]
  refine ⟨m, hpage, hhead, ?_, ?_, ?_⟩
  · change slice f 24 (28 + 4) = _
    rw [slice_add, hrest, h32 (24 + 28) (by omega), ← hcrc, hfields]
    rfl
  · exact UInt64.not_lt.mp (fun hlt => hbounds (Or.inl hlt))
  · exact UInt64.not_lt.mp (fun hlt => hbounds (Or.inr hlt))

/-- The header read on any file. -/
theorem reads_headerRead_any {w : World} {i : Nat} {f : Bytes}
    (hf : w.content i = f) (hmax : f.length ≤ maxFileSize) (db : Db) :
    CmdReads (headerRead (some i) db) w
      (if f.length < 4096 then (.errCorrupt, db)
        else headerDecode (slice f 0 4096) db) := by
  have hmx := maxFileSize_eq
  unfold headerRead
  apply Prog.reads_bind (reads_fileSize i w)
  dsimp only
  rw [hf]
  have hlt : UInt64.ofNat f.length < hdrSize ↔ f.length < 4096 := by
    rw [UInt64.lt_iff_toNat_lt, show hdrSize.toNat = 4096 from rfl,
      UInt64.toNat_ofNat']
    omega
  by_cases hshort : f.length < 4096
  · rw [if_pos (hlt.mpr hshort), if_pos hshort]
    exact Prog.reads_pure
  · rw [if_neg (fun h => hshort (hlt.mp h)), if_neg hshort]
    apply Prog.reads_bind (reads_readFull_slice hf hmax
      (by simpa using Nat.not_lt.mp hshort))
    exact Prog.reads_pure

end Header

section Validate

variable {F : Prop} {w : World} {i : Nat} {db : Db} {rs : List Record}
variable {I : World → Prop} {Q : Rc × Db → World → Prop}

/-- What `validate_log` does where the scan has stopped. -/
def validateEnd (db : Db) (stop : UInt64) : ScanResult → Cmd (Rc × Db)
  | .scanEnd => return (.ok, db)
  | .scanPartial => do
      if (← fileTruncate db.fd stop) ≠ .ok then return (.errIo, db)
      let db := { db with logEndOffset := stop }
      return (← headerUpdate db.fd db, db)
  | .err rc => return (rc, db)
  | .record .. => .stuck

/-- `validate_log` runs over the records and ends with the verdict. -/
theorem wp_validateLoop {off : UInt64} {v : ScanResult}
    (hfd : db.fd = some i) (hmax : (w.content i).length ≤ maxFileSize)
    (hs : Scans (w.content i) off db.logEndOffset rs v) (fuel : Nat)
    (hfuel : rs.length < fuel)
    (h : Prog.Wp (Faulty F) I (validateEnd db (logEndOf off rs) v) w Q) :
    Prog.Wp (Faulty F) I (validateLoop fuel db off) w Q := by
  have hread : ∀ off, CmdReads (scanRecord db.fd off db.logEndOffset) w
      (scanImage (w.content i) off db.logEndOffset) := by
    intro off
    rw [hfd]
    exact reads_scanImage rfl hmax
  induction rs generalizing off fuel with
  | nil =>
      obtain ⟨fuel, rfl⟩ := Nat.exists_eq_add_of_lt hfuel
      rw [logEndOf_nil] at h
      have hv := hs.verdict
      rw [logEndOf_nil] at hv
      unfold validateLoop
      by_cases hlt : off < db.logEndOffset
      · rw [if_neg (not_not.mpr hlt)]
        apply wp_reads (hread off)
        rw [hv]
        cases v with
        | record ty plen next =>
            exact absurd rfl (hs.stops ty plen next)
        | scanEnd =>
            exact h
        | scanPartial =>
            exact h
        | err rc =>
            exact h
      · rw [if_pos hlt]
        rw [Scans.scanImage_past hlt] at hv
        subst hv
        exact h
  | cons r rs ih =>
      obtain ⟨fuel, rfl⟩ := Nat.exists_eq_add_of_lt hfuel
      obtain ⟨hr, hend, hrest⟩ := hs.head hmax
      have hlt : off < db.logEndOffset := by
        have := r.size_pos
        rw [UInt64.lt_iff_toNat_lt]
        omega
      unfold validateLoop
      rw [if_neg (not_not.mpr hlt)]
      apply wp_reads (hread off)
      rw [scanImage_encode hr hmax hend]
      rw [Scans.logEndOf_cons] at h
      refine ih hrest _ ?_ h
      rw [List.length_cons]
      omega

/-- `validate_log` on any file. -/
theorem wp_validateLog {v : ScanResult} (hfd : db.fd = some i)
    (hmax : (w.content i).length ≤ maxFileSize)
    (hs : Scans (w.content i) db.logStartOffset db.logEndOffset rs v)
    (h : Prog.Wp (Faulty F) I
      (validateEnd db (logEndOf db.logStartOffset rs) v) w Q) :
    Prog.Wp (Faulty F) I (validateLog db) w Q := by
  apply wp_validateLoop hfd hmax hs _ _ h
  have hlen := length_le_encodeLog rs
  rcases hs.inside with rfl | hin
  · simp
  · omega

end Validate

section Exact

variable {w : World} {i : Nat} {s : FileState} {db : Db} {rs : List Record}
variable {I : World → Prop} {Q : Rc × Db → World → Prop}

theorem InFile.exact {w₀ : World} (h : InFile i w₀ (· = s) w)
    (q : Pending) : InFile i w₀ (· = s.issue q) (w.issue i q) := by
  apply h.setFile
  rw [h.2]

/-- `qdb__header_update` on any file. -/
theorem wp_headerUpdate_exact {w₀ : World} {m : Db} {R : Rc → World → Prop}
    (h : InFile i w₀ (· = s) w) (hw : I w)
    (hissue : ∀ w', InFile i w₀
      (· = s.issue (.write 24 (headerPatch m))) w' → I w')
    (hsync : ∀ w', InFile i w₀
      (· = (s.issue (.write 24 (headerPatch m))).sync) w' →
        I w' ∧ R .ok w') :
    Prog.Wp (Faulty False) I (headerUpdate (some i) m) w R := by
  have hmx := maxFileSize_eq
  have hlen := length_headerPatch m
  have h24 : (24 : UInt64).toNat = 24 := rfl
  have h1 := h.exact (.write 24 (headerPatch m))
  unfold headerUpdate
  apply Prog.wp_bind
    (P := fun rc w' => rc = .ok ∧ w' = w.issue i (.write 24 (headerPatch m)))
  · apply wp_writeFull
    · intro hnil
      rw [hnil] at hlen
      simp at hlen
    · exact hw
    · intro _
      exact ⟨hissue _ h1, rfl, rfl⟩
    · rintro (hF | hmax)
      · exact hF.elim
      · rw [hlen, h24] at hmax
        omega
    · rintro n hn - (hF | hmax)
      · exact hF.elim
      · rw [hlen, h24] at hmax
        omega
  · rintro rc w1 ⟨rfl, rfl⟩
    rw [if_neg (by simp)]
    have h2 : InFile i w₀ (· = (s.issue (.write 24 (headerPatch m))).sync)
        ((w.issue i (.write 24 (headerPatch m))).setFile i
          ((w.issue i (.write 24 (headerPatch m))).files i).sync) := by
      apply h1.setFile
      rw [h1.2]
    apply wp_fileSync (hissue _ h1) (hsync _ h2)
    exact False.elim

/-- A file that is longer than its log is cut. -/
def FileState.cutTo (s : FileState) (n : Nat) : FileState :=
  if n < s.content.length then s.issue (.truncate n) else s

theorem FileState.content_cutTo (s : FileState) (n : Nat) :
    (s.cutTo n).content = s.content.take n := by
  unfold FileState.cutTo
  split
  · next h =>
    rw [FileState.content_issue]
    simp [Pending.apply, resize, Nat.sub_eq_zero_of_le h.le]
  · next h =>
    rw [List.take_of_length_le (Nat.not_lt.mp h)]

/-- The start of the recovery on any file. -/
theorem wp_recoverFile_exact (hfd : db.fd = some i) (hfile : w.files i = s)
    (hmax : s.content.length ≤ maxFileSize) (hw : I w)
    (h : ∀ w', InFile i w (· = s.cutTo db.logEndOffset.toNat) w' →
      Prog.Wp (Faulty False) I (recoverScan db) w' Q) :
    Prog.Wp (Faulty False) I (recoverFile db) w Q := by
  have hmx := maxFileSize_eq
  have hcontent : w.content i = s.content := congrArg _ hfile
  have hlt : UInt64.ofNat (w.content i).length > db.logEndOffset ↔
      db.logEndOffset.toNat < s.content.length := by
    rw [gt_iff_lt, UInt64.lt_iff_toNat_lt, UInt64.toNat_ofNat', hcontent]
    omega
  unfold recoverFile
  rw [hfd]
  apply wp_reads (reads_fileSize i w)
  dsimp only
  unfold FileState.cutTo at h
  by_cases hlong : db.logEndOffset.toNat < s.content.length
  · rw [if_pos (hlt.mpr hlong)]
    rw [if_pos hlong] at h
    refine wp_op (fun _ _ h => h) hw ?_
    have hres : posix (.fileTruncate (some i) db.logEndOffset) w =
        (.ok, w.issue i (.truncate db.logEndOffset.toNat)) := by
      simp only [posix]
      rw [if_pos (by omega)]
    rw [hres]
    dsimp only
    rw [if_neg (by simp)]
    exact h _ ((InFile.refl (P := (· = s)) hfile).exact _)
  · rw [if_neg (fun hgt => hlong (hlt.mp hgt))]
    rw [if_neg hlong] at h
    exact h w (InFile.refl hfile)

/-- The file cut at a partial record. -/
def FileState.shortened (s : FileState) (stop : UInt64) : FileState :=
  s.issue (.truncate stop.toNat)

/-- The cut file under the header of `m`, as issued. -/
def FileState.relabelled (s : FileState) (stop : UInt64) (m : Db) :
    FileState :=
  (s.shortened stop).issue
    (.write 24 (headerPatch { m with logEndOffset := stop }))

/-- `validate_log` at a partial record. -/
theorem wp_validateLog_torn (hfd : db.fd = some i) (hfile : w.files i = s)
    (hmax : s.content.length ≤ maxFileSize)
    (hs : Scans s.content db.logStartOffset db.logEndOffset rs .scanPartial)
    {stop : UInt64} (hstop : stop = logEndOf db.logStartOffset rs)
    (hfit : stop.toNat ≤ maxFileSize) (hw : I w)
    (hshort : ∀ w', InFile i w (· = s.shortened stop) w' → I w')
    (hlabel : ∀ w', InFile i w (· = s.relabelled stop db) w' → I w')
    (hsync : ∀ w', InFile i w (· = (s.relabelled stop db).sync) w' →
      I w' ∧ Q (.ok, { db with logEndOffset := stop }) w') :
    Prog.Wp (Faulty False) I (validateLog db) w Q := by
  have hcontent : w.content i = s.content := congrArg _ hfile
  rw [← hcontent] at hmax hs
  subst hstop
  apply wp_validateLog hfd hmax hs
  unfold validateEnd
  rw [hfd]
  refine wp_op (fun _ _ h => h) hw ?_
  have hres : posix
      (.fileTruncate (some i) (logEndOf db.logStartOffset rs)) w = (.ok,
        w.issue i (.truncate (logEndOf db.logStartOffset rs).toNat)) := by
    simp only [posix]
    rw [if_pos hfit]
  rw [hres]
  dsimp only
  rw [if_neg (by simp)]
  have h1 := (InFile.refl (P := (· = s)) hfile).exact
    (.truncate (logEndOf db.logStartOffset rs).toNat)
  apply Prog.wp_seq (P := fun rc w' => rc = .ok ∧ Q (.ok,
    { db with logEndOffset := logEndOf db.logStartOffset rs }) w')
  · exact wp_headerUpdate_exact h1 (hshort _ h1) hlabel
      (fun w' hw' => ⟨(hsync w' hw').1, rfl, (hsync w' hw').2⟩)
  · rintro rc w' hi ⟨rfl, hq⟩
    rw [hfd] at hq
    exact Prog.wp_pure hi hq

/-- A partial record behind every possible file size. -/
theorem wp_validateLog_far (hfd : db.fd = some i)
    (hmax : (w.content i).length ≤ maxFileSize)
    (hs : Scans (w.content i) db.logStartOffset db.logEndOffset rs
      .scanPartial)
    (hfar : ¬ (logEndOf db.logStartOffset rs).toNat ≤ maxFileSize) (hw : I w)
    (hQ : Q (.errIo, db) w) :
    Prog.Wp (Faulty False) I (validateLog db) w Q := by
  apply wp_validateLog hfd hmax hs
  unfold validateEnd
  rw [hfd]
  refine wp_op (fun _ _ h => h) hw ?_
  have hres : posix
      (.fileTruncate (some i) (logEndOf db.logStartOffset rs)) w =
        (.errIo, w) := by
    simp only [posix]
    rw [if_neg hfar]
  rw [hres]
  dsimp only
  rw [if_pos (by simp)]
  exact Prog.wp_pure hw hQ

end Exact

section Open

variable {w : World} {i : Nat} {f : Bytes} {m : Db} {rs : List Record}
variable {v : ScanResult} {t : UInt32}

/-- A database file with the bytes `f` that nobody holds open. -/
structure Image (w : World) (i : Nat) (f : Bytes) : Prop where
  disk : OnDisk i (· = ⟨f, []⟩) w
  limit : f.length ≤ maxFileSize
  lock : w.lockOwner = none

/-- What a file says in whose log the scan has found `rs`. -/
def Db.fileOf (m : Db) (rs : List Record) : DbFile where
  createTimeUs := m.createTimeUs
  nextMsgId := m.nextMsgId
  start := m.logStartOffset
  rs := rs
  flags := m.flags

/-- The file has the header `m`; the scan of its log, cut at the end the header
gives, finds `rs` and stops with the verdict `v`. -/
structure Scanned (f : Bytes) (m : Db) (rs : List Record) (v : ScanResult) :
    Prop where
  limit : f.length ≤ maxFileSize
  header : HasHeader f m
  scans : Scans (f.take m.logEndOffset.toNat) m.logStartOffset
    m.logEndOffset rs v

/-- The file before its log is scanned. -/
def imageCut (f : Bytes) (m : Db) : FileState :=
  FileState.cutTo ⟨f, []⟩ m.logEndOffset.toNat

theorem content_imageCut (f : Bytes) (m : Db) :
    (imageCut f m).content = f.take m.logEndOffset.toNat :=
  FileState.content_cutTo _ _

/-- The handle the recovery of the file works with. -/
def imageDb (t : UInt32) (l i : Nat) (m : Db) : Db :=
  { (Db.opened t l (some i)).withHeader m with nextLeaseId := 1 }

/-- The steps of `qdb_open_err` around the recovery of a file with a header. -/
theorem wp_open_of_recover {I : World → Prop}
    {Q : Rc × Option Db → World → Prop} (h : Image w i f)
    (hm : HasHeader f m) (hI : ∀ w', OnDisk i (· = ⟨f, []⟩) w' → I w')
    (hrec : Prog.Wp (Faulty False) I
      (recoverFile (imageDb t w.nextLockFd i m)) w.locked (fun x w' =>
        (x.1 = .ok ∧ Q (.ok, some x.2) w') ∨
        (x.1 ≠ .ok ∧ x.2.fd = some i ∧ x.2.lockFd = some w.nextLockFd ∧
          w'.lockOwner = some w.nextLockFd ∧
          I { w' with lockOwner := none } ∧
          Q (x.1, none) { w' with lockOwner := none }))) :
    Prog.Wp (Faulty False) I (qdbOpenErr t) w Q := by
  have hdisk : ∀ w', w'.dir .main = w.dir .main → w'.dir .wal = w.dir .wal →
      w'.files = w.files → w'.nextIno = w.nextIno → I w' := by
    intro w' h1 h2 h3 h4
    exact hI w' ⟨h1.trans h.disk.main, h2.trans h.disk.wal,
      by rw [h4]; exact h.disk.ino, by rw [h3]; exact h.disk.file⟩
  apply wp_open_of_locked Faulty.weaken h.lock hdisk
  refine wp_op (fun _ _ h => h)
    (hdisk _ (locked_main w) (locked_wal w) rfl rfl) ?_
  simp only [posix, locked_main, h.disk.main]
  rw [if_neg (by simp)]
  unfold openExisting
  have hcontent : w.locked.content i = f := by
    rw [World.content, show w.locked.files i = ⟨f, []⟩ from h.disk.file]
    rfl
  have hread := reads_headerRead_any hcontent h.limit
    (Db.opened t w.nextLockFd (some i))
  rw [if_neg (Nat.not_lt.mpr hm.page), hm.decode] at hread
  apply wp_reads hread
  dsimp only
  rw [if_neg (by simp)]
  apply Prog.wp_seq (wp_recover_of_file
    (by rw [locked_wal]; exact h.disk.wal) hrec)
  rintro ⟨rc, db⟩ w' hi (⟨hok, hq⟩ | ⟨hne, hfd, hl, hlock, hi', hq⟩)
  · rw [if_neg (not_not.mpr hok)]
    exact Prog.wp_pure hi hq
  · rw [if_pos hne]
    unfold openFail
    apply Prog.wp_seq (wp_freeDb Faulty.weaken hfd hl hlock hi hi'
      (Q := fun _ w'' => w'' = { w' with lockOwner := none }) rfl)
    rintro _ w'' hi'' rfl
    exact Prog.wp_pure hi'' hq

/-- Opening a file without a header. -/
theorem wp_open_headless (h : Image w i f) (hno : ∀ m, ¬ HasHeader f m) :
    Prog.Wp (Faulty False) (OnDisk i (· = ⟨f, []⟩)) (qdbOpenErr t) w
      (fun x w' => x = (.errCorrupt, none) ∧ Image w' i f) := by
  have hdisk : ∀ w', w'.dir .main = w.dir .main → w'.dir .wal = w.dir .wal →
      w'.files = w.files → w'.nextIno = w.nextIno →
      OnDisk i (· = ⟨f, []⟩) w' := by
    intro w' h1 h2 h3 h4
    exact ⟨h1.trans h.disk.main, h2.trans h.disk.wal,
      by rw [h4]; exact h.disk.ino, by rw [h3]; exact h.disk.file⟩
  have hl := hdisk w.locked (locked_main w) (locked_wal w) rfl rfl
  apply wp_open_of_locked Faulty.weaken h.lock hdisk
  refine wp_op (fun _ _ h => h) hl ?_
  simp only [posix, locked_main, h.disk.main]
  rw [if_neg (by simp)]
  unfold openExisting
  have hcontent : w.locked.content i = f := by
    rw [World.content, hl.file]
    rfl
  have hread := reads_headerRead_any hcontent h.limit
    (Db.opened t w.nextLockFd (some i))
  have hbad : ∃ db', (if f.length < 4096 then
      (.errCorrupt, Db.opened t w.nextLockFd (some i))
      else headerDecode (slice f 0 4096)
        (Db.opened t w.nextLockFd (some i))) = (.errCorrupt, db') ∧
      db'.fd = some i ∧ db'.lockFd = some w.nextLockFd := by
    by_cases hshort : f.length < 4096
    · rw [if_pos hshort]
      exact ⟨_, rfl, rfl, rfl⟩
    · rw [if_neg hshort]
      rcases headerDecode_inv (Nat.not_lt.mp hshort)
        (Db.opened t w.nextLockFd (some i)) with ⟨m, hm⟩ | hbad
      · exact absurd hm (hno m)
      · exact hbad
  obtain ⟨db', hres, hfd, hlfd⟩ := hbad
  rw [hres] at hread
  apply wp_reads hread
  dsimp only
  rw [if_pos (by simp)]
  unfold openFail
  have hfinal : OnDisk i (· = ⟨f, []⟩)
      { w.locked with lockOwner := none } :=
    ⟨hl.main, hl.wal, hl.ino, hl.file⟩
  apply Prog.wp_seq (wp_freeDb Faulty.weaken hfd hlfd rfl hl hfinal
    (Q := fun _ w' => w' = { w.locked with lockOwner := none }) rfl)
  rintro _ w' hi rfl
  exact Prog.wp_pure hi ⟨rfl, hfinal, h.limit, rfl⟩

/-- The scan has reached the end of the log, or a partial record that can be
cut off. -/
def Settles (m : Db) (rs : List Record) (v : ScanResult) : Prop :=
  v = .scanEnd ∨ (v = .scanPartial ∧
    (logEndOf m.logStartOffset rs).toNat ≤ maxFileSize)

/-- The file once its log has been validated. -/
def imageSettled (f : Bytes) (m : Db) (rs : List Record) :
    ScanResult → FileState
  | .scanPartial =>
      ((imageCut f m).relabelled (logEndOf m.logStartOffset rs) m).sync
  | _ => imageCut f m

/-- The file while its log is validated. -/
def Repairing (f : Bytes) (m : Db) (rs : List Record) (v : ScanResult)
    (s : FileState) : Prop :=
  s = ⟨f, []⟩ ∨ s = imageCut f m ∨
    (v = .scanPartial ∧
      (s = (imageCut f m).shortened (logEndOf m.logStartOffset rs) ∨
        s = (imageCut f m).relabelled (logEndOf m.logStartOffset rs) m)) ∨
    s = imageSettled f m rs v

namespace Scanned

theorem length_cut (h : Scanned f m rs v) :
    (imageCut f m).content.length ≤ maxFileSize := by
  have := h.limit
  rw [content_imageCut, List.length_take]
  omega

theorem limit_cut (h : Scanned f m rs v) :
    (f.take m.logEndOffset.toNat).length ≤ maxFileSize := by
  rw [← content_imageCut]
  exact h.length_cut

theorem stop_eq (h : Scanned f m rs .scanEnd) :
    logEndOf m.logStartOffset rs = m.logEndOffset :=
  h.scans.stop_eq h.limit_cut h.header.order

theorem lower (h : Scanned f m rs v) : 4096 ≤ m.logStartOffset.toNat :=
  UInt64.le_iff_toNat_le.mp h.header.lower

theorem order (h : Scanned f m rs v) :
    m.logStartOffset.toNat ≤ m.logEndOffset.toNat :=
  UInt64.le_iff_toNat_le.mp h.header.order

theorem toNat_stop (h : Scanned f m rs v) :
    (logEndOf m.logStartOffset rs).toNat =
      m.logStartOffset.toNat + (encodeLog rs).length :=
  h.scans.toNat_stop h.limit_cut

theorem inside (h : Scanned f m rs v) :
    m.logStartOffset.toNat + (encodeLog rs).length ≤
      m.logEndOffset.toNat := by
  rcases h.scans.inside with h0 | hin
  · rw [h0]
    exact h.order
  · exact hin

/-- The records are in the file. -/
theorem begins (h : Scanned f m rs v) :
    Begins (· = headerPatch m) (headerPrefix24 m.createTimeUs)
      m.logStartOffset.toNat (encodeLog rs) f where
  limit := h.limit
  page := h.header.page
  lower := h.lower
  head := h.header.head
  patch := h.header.patch
  body := by
    rcases slice_full h.scans.bytes with h0 | hreach
    · rw [h0]
      simp [slice]
    · conv_lhs => rw [← List.take_append_drop m.logEndOffset.toNat f]
      rw [slice_append_left _ _ hreach]
      exact h.scans.bytes

theorem keeps_cut (h : Scanned f m rs v) :
    (imageCut f m).Keeps (· = headerPatch m) (headerPrefix24 m.createTimeUs)
      m.logStartOffset.toNat (encodeLog rs) := by
  have hinside := h.inside
  unfold imageCut FileState.cutTo
  split
  · next hlong =>
    have hlong : m.logEndOffset.toNat < f.length := hlong
    have hlimit := h.limit
    refine ⟨h.begins, ?_⟩
    intro q hq
    simp only [FileState.issue, List.nil_append, List.mem_singleton] at hq
    subst hq
    exact Or.inl ⟨hinside, by omega⟩
  · exact ⟨h.begins, by simp⟩

theorem patch_stop (h : Scanned f m rs .scanEnd) :
    headerPatch m = (m.fileOf rs).patch :=
  DbFile.headerPatch_eq rfl h.stop_eq.symm rfl rfl rfl

theorem patch_fileOf (m : Db) (rs : List Record) :
    headerPatch { m with logEndOffset := logEndOf m.logStartOffset rs } =
      (m.fileOf rs).patch :=
  DbFile.headerPatch_eq rfl rfl rfl rfl rfl

/-- The two headers of a file that is being validated. -/
def Headers (m : Db) (rs : List Record) (B : Bytes) : Prop :=
  B = headerPatch m ∨ B = (m.fileOf rs).patch

/-- The cut at the partial record keeps the records. -/
theorem keeps_shortened (h : Scanned f m rs v)
    (hfit : (logEndOf m.logStartOffset rs).toNat ≤ maxFileSize) :
    ((imageCut f m).shortened (logEndOf m.logStartOffset rs)).Keeps
      (Headers m rs) (headerPrefix24 m.createTimeUs) m.logStartOffset.toNat
      (encodeLog rs) := by
  have hk : (imageCut f m).Keeps (Headers m rs)
      (headerPrefix24 m.createTimeUs) m.logStartOffset.toNat (encodeLog rs) :=
    h.keeps_cut.mono (fun _ hB => Or.inl hB)
  exact hk.issue (Or.inl ⟨Nat.le_of_eq h.toNat_stop.symm, hfit⟩)

theorem keeps_relabelled (h : Scanned f m rs v)
    (hfit : (logEndOf m.logStartOffset rs).toNat ≤ maxFileSize) :
    ((imageCut f m).relabelled (logEndOf m.logStartOffset rs) m).Keeps
      (Headers m rs) (headerPrefix24 m.createTimeUs) m.logStartOffset.toNat
      (encodeLog rs) :=
  (h.keeps_shortened hfit).issue (Or.inr ⟨rfl, Or.inl
    ⟨length_headerPatch _, Or.inr (patch_fileOf m rs)⟩⟩)

/-- The validated file says what the scan has found. -/
theorem stored (h : Scanned f m rs v) (hset : Settles m rs v) :
    (m.fileOf rs).Stored (imageSettled f m rs v) := by
  rcases hset with rfl | ⟨rfl, hfit⟩
  · have hk := h.keeps_cut
    rw [h.patch_stop] at hk
    exact hk
  · have hk := h.keeps_relabelled hfit
    refine FileState.Keeps.sync { hk.content with patch := ?_ }
    unfold FileState.relabelled
    rw [FileState.content_issue]
    change slice (overwrite _ 24 _) 24 32 = _
    rw [← length_headerPatch { m with
      logEndOffset := logEndOf m.logStartOffset rs }, slice_overwrite_self,
      patch_fileOf]

/-- At every moment of its validation the file has one of the two headers. -/
theorem keeps_repairing (h : Scanned f m rs v) (hset : Settles m rs v)
    {s : FileState} (hr : Repairing f m rs v s) :
    s.Keeps (Headers m rs) (headerPrefix24 m.createTimeUs)
      m.logStartOffset.toNat (encodeLog rs) := by
  rcases hr with rfl | rfl | ⟨rfl, hr⟩ | rfl
  · exact ⟨h.begins.mono (fun _ hB => Or.inl hB), by simp⟩
  · exact h.keeps_cut.mono (fun _ hB => Or.inl hB)
  · rcases hset with hv | ⟨-, hfit⟩
    · cases hv
    · rcases hr with rfl | rfl
      · exact h.keeps_shortened hfit
      · exact h.keeps_relabelled hfit
  · exact FileState.Keeps.mono (h.stored hset) (fun _ hB => Or.inr hB)

end Scanned

/-- Validation of a log that settles. -/
theorem wp_recoverScan_settled {I : World → Prop}
    {Q : Rc × Db → World → Prop} {l : Nat} (hs : Scanned f m rs v)
    (hset : Settles m rs v) (hfile : w.files i = imageCut f m)
    (hI : ∀ w', InFile i w (Repairing f m rs v) w' → I w')
    (h : ∀ w', InFile i w (· = imageSettled f m rs v) w' →
      Prog.Wp (Faulty False) I (recoverReplay { imageDb t l i m with
        logEndOffset := logEndOf m.logStartOffset rs }) w' Q) :
    Prog.Wp (Faulty False) I (recoverScan (imageDb t l i m)) w Q := by
  have hcut : InFile i w (· = imageCut f m) w := InFile.refl hfile
  rcases hset with rfl | ⟨rfl, hfit⟩
  · have hdb : { imageDb t l i m with
        logEndOffset := logEndOf m.logStartOffset rs } =
        imageDb t l i m := by
      rw [hs.stop_eq]
      rfl
    have h := h w hcut
    rw [hdb] at h
    have hfr : Framed w i (imageDb t l i m) rs :=
      { fd := rfl
        limit := by rw [World.content, hfile]; exact hs.length_cut
        bytes := by
          rw [World.content, hfile, content_imageCut]
          exact hs.scans.bytes
        stop := by
          rw [show (imageDb t l i m).logEndOffset = m.logEndOffset from rfl,
            ← hs.stop_eq]
          exact hs.toNat_stop }
    exact wp_recoverScan_of_replay hfr h
  · rw [recoverScan_eq]
    apply Prog.wp_seq (P := fun x w' => x = (.ok, { imageDb t l i m with
        logEndOffset := logEndOf m.logStartOffset rs }) ∧
        InFile i w (· = imageSettled f m rs .scanPartial) w')
    · refine wp_validateLog_torn rfl hfile hs.length_cut
        (by rw [content_imageCut]; exact hs.scans) rfl hfit ?_ ?_ ?_ ?_
      · exact hI w (hcut.mono (fun h => Or.inr (Or.inl h)))
      · exact fun w' hw' => hI w'
          (hw'.mono (fun h => Or.inr (Or.inr (Or.inl ⟨rfl, Or.inl h⟩))))
      · exact fun w' hw' => hI w'
          (hw'.mono (fun h => Or.inr (Or.inr (Or.inl ⟨rfl, Or.inr h⟩))))
      · exact fun w' hw' => ⟨hI w'
          (hw'.mono (fun h => Or.inr (Or.inr (Or.inr h)))), rfl, hw'⟩
    · rintro x w' - ⟨rfl, hw'⟩
      dsimp only
      rw [if_neg (by simp)]
      exact h w' hw'

theorem imageDb_fresh (t : UInt32) (l : Nat) (m : Db) (rs : List Record) :
    Fresh { imageDb t l i m with
      logEndOffset := logEndOf m.logStartOffset rs } i (m.fileOf rs) where
  fd := rfl
  createTime := rfl
  nextMsgId := rfl
  nextLeaseId := rfl
  logStart := rfl
  logEnd := rfl
  flags := rfl

/-- The disk while the file is worked on behind the lock. -/
theorem Image.inFile (h : Image w i f) {P : FileState → Prop} {w' : World}
    (hw' : InFile i w.locked P w') : OnDisk i P w' where
  main := by rw [hw'.1.dir, locked_main]; exact h.disk.main
  wal := by rw [hw'.1.dir, locked_wal]; exact h.disk.wal
  ino := by rw [hw'.1.nextIno]; exact h.disk.ino
  file := hw'.2

/-- The steps of `qdb_open_err` around the scan of the log. -/
theorem wp_open_of_scan {I : World → Prop}
    {Q : Rc × Option Db → World → Prop} (h : Image w i f)
    (hm : HasHeader f m) (hI : ∀ w', OnDisk i (· = ⟨f, []⟩) w' → I w')
    (hscan : ∀ w', InFile i w.locked (· = imageCut f m) w' →
      Prog.Wp (Faulty False) I (recoverScan (imageDb t w.nextLockFd i m)) w'
        (fun x w' => (x.1 = .ok ∧ Q (.ok, some x.2) w') ∨
          (x.1 ≠ .ok ∧ x.2.fd = some i ∧ x.2.lockFd = some w.nextLockFd ∧
            w'.lockOwner = some w.nextLockFd ∧
            I { w' with lockOwner := none } ∧
            Q (x.1, none) { w' with lockOwner := none }))) :
    Prog.Wp (Faulty False) I (qdbOpenErr t) w Q := by
  have hfile : w.locked.files i = ⟨f, []⟩ := h.disk.file
  apply wp_open_of_recover h hm hI
  have hfd : (imageDb t w.nextLockFd i m).fd = some i := rfl
  apply wp_recoverFile_exact hfd hfile h.limit
  · exact hI _ ⟨by rw [locked_main]; exact h.disk.main,
      by rw [locked_wal]; exact h.disk.wal, h.disk.ino, hfile⟩
  · exact hscan

/-- Opening a file whose log is refused. -/
theorem wp_open_refused {rc : Rc} (h : Image w i f) (hm : HasHeader f m)
    (hrc : rc ≠ .ok)
    (hval : ∀ w', InFile i w.locked (· = imageCut f m) w' →
      ∀ I : World → Prop, I w' → Prog.Wp (Faulty False) I
        (validateLog (imageDb t w.nextLockFd i m)) w' (fun x w'' =>
          x = (rc, imageDb t w.nextLockFd i m) ∧ w'' = w')) :
    Prog.Wp (Faulty False)
      (OnDisk i (fun s => s = ⟨f, []⟩ ∨ s = imageCut f m)) (qdbOpenErr t) w
      (fun x w' => x = (rc, none) ∧ OnDisk i (· = imageCut f m) w' ∧
        w'.lockOwner = none) := by
  apply wp_open_of_scan h hm (fun w' hw' => hw'.mono Or.inl)
  intro w' hw'
  have hi : OnDisk i (fun s => s = ⟨f, []⟩ ∨ s = imageCut f m) w' :=
    (h.inFile hw').mono Or.inr
  rw [recoverScan_eq]
  apply Prog.wp_bind (hval w' hw' _ hi)
  rintro x w'' ⟨rfl, rfl⟩
  dsimp only
  rw [if_pos hrc]
  exact Prog.wp_pure hi (Or.inr ⟨hrc, rfl, rfl, hw'.1.lockOwner,
    ⟨hi.main, hi.wal, hi.ino, hi.file⟩, rfl,
    ⟨hi.main, hi.wal, hi.ino, hw'.2⟩, rfl⟩)

theorem content_of_cut {w₀ : World} (h : InFile i w₀ (· = imageCut f m) w) :
    w.content i = f.take m.logEndOffset.toNat := by
  rw [World.content, h.2, content_imageCut]

/-- Opening a file whose scan fails. -/
theorem wp_open_scanError {rc : Rc} (h : Image w i f)
    (hs : Scanned f m rs (.err rc)) (hrc : rc ≠ .ok) :
    Prog.Wp (Faulty False)
      (OnDisk i (fun s => s = ⟨f, []⟩ ∨ s = imageCut f m)) (qdbOpenErr t) w
      (fun x w' => x = (rc, none) ∧ OnDisk i (· = imageCut f m) w' ∧
        w'.lockOwner = none) := by
  apply wp_open_refused h hs.header hrc
  intro w' hw' I hi
  have hcontent := content_of_cut hw'
  apply wp_validateLog rfl (by rw [hcontent]; exact hs.limit_cut)
    (by rw [hcontent]; exact hs.scans)
  exact Prog.wp_pure hi ⟨rfl, rfl⟩

/-- Opening a file with a partial record that cannot be cut off. -/
theorem wp_open_far (h : Image w i f) (hs : Scanned f m rs .scanPartial)
    (hfar : ¬ (logEndOf m.logStartOffset rs).toNat ≤ maxFileSize) :
    Prog.Wp (Faulty False)
      (OnDisk i (fun s => s = ⟨f, []⟩ ∨ s = imageCut f m)) (qdbOpenErr t) w
      (fun x w' => x = (.errIo, none) ∧ OnDisk i (· = imageCut f m) w' ∧
        w'.lockOwner = none) := by
  apply wp_open_refused h hs.header (by simp)
  intro w' hw' I hi
  have hcontent := content_of_cut hw'
  exact wp_validateLog_far rfl (by rw [hcontent]; exact hs.limit_cut)
    (by rw [hcontent]; exact hs.scans) hfar hi ⟨rfl, rfl⟩

/-- Opening a file whose log replay rejects. -/
theorem wp_open_rejected (h : Image w i f) (hs : Scanned f m rs v)
    (hset : Settles m rs v)
    (hrep : replayRecords m.logStartOffset rs (Mem.start m.nextMsgId) =
      none) :
    Prog.Wp (Faulty False) (OnDisk i (Repairing f m rs v)) (qdbOpenErr t) w
      (fun x w' => x = (.errCorrupt, none) ∧
        OnDisk i (· = imageSettled f m rs v) w' ∧ w'.lockOwner = none) := by
  apply wp_open_of_scan h hs.header (fun w' hw' => hw'.mono Or.inl)
  intro w1 h1
  have hI : ∀ w', InFile i w1 (Repairing f m rs v) w' →
      OnDisk i (Repairing f m rs v) w' :=
    fun w' hw' => h.inFile ⟨h1.1.trans hw'.1, hw'.2⟩
  apply wp_recoverScan_settled hs hset h1.2 hI
  intro w2 h2
  have hi2 := hI w2 (h2.mono (fun h => Or.inr (Or.inr (Or.inr h))))
  have hk : (m.fileOf rs).Stored (w2.files i) := by
    rw [h2.2]
    exact hs.stored hset
  refine wp_recoverReplay_corrupt (imageDb_fresh t w.nextLockFd m rs) hk hrep
    hi2 ?_
  intro db' hfd hl
  exact Or.inr ⟨by simp, hfd, hl, by rw [h2.1.lockOwner, h1.1.lockOwner]; rfl,
    ⟨hi2.main, hi2.wal, hi2.ino, hi2.file⟩, rfl,
    ⟨hi2.main, hi2.wal, hi2.ino, h2.2⟩, rfl⟩

/-- Opening a file whose log replay accepts. -/
theorem wp_open_accepted {mem : Mem} (h : Image w i f)
    (hs : Scanned f m rs v) (hset : Settles m rs v)
    (hrep : replayRecords m.logStartOffset rs (Mem.start m.nextMsgId) =
      some mem) :
    Prog.Wp (Faulty False)
      (OnDisk i (fun s => Repairing f m rs v s ∨ Recovering False
        (m.fileOf rs) ((m.fileOf rs).opened mem (leaseTimeoutOf t)) s))
      (qdbOpenErr t) w (fun x w' => ∃ db, x = (.ok, some db) ∧
        Live False w' db ((m.fileOf rs).opened mem (leaseTimeoutOf t)) i) := by
  apply wp_open_of_scan h hs.header
    (fun w' hw' => hw'.mono (fun h => Or.inl (Or.inl h)))
  intro w1 h1
  apply wp_recoverScan_settled hs hset h1.2
    (fun w' hw' => h.inFile ⟨h1.1.trans hw'.1, Or.inl hw'.2⟩)
  intro w2 h2
  have hk : (m.fileOf rs).Stored (w2.files i) := by
    rw [h2.2]
    exact hs.stored hset
  have h12 := h1.1.trans h2.1
  refine (wp_recoverReplay (F := False) (t := leaseTimeoutOf t)
    (imageDb_fresh t w.nextLockFd m rs) hk hrep).mono
    (fun w' hw' => h.inFile ⟨h12.trans hw'.1, Or.inr hw'.2⟩) ?_
  rintro x w3 (⟨rfl, h3⟩ | ⟨hF, -⟩)
  swap
  · exact hF.elim
  have hin : InFile i w.locked _ w3 := ⟨h12.trans h3.1, h3.2⟩
  have hdisk := h.inFile hin
  refine Or.inl ⟨rfl, _, rfl, ?_⟩
  exact
    { fd := rfl
      main := hdisk.main
      wal := hdisk.wal
      ino := hdisk.ino
      lock := by
        refine ⟨w.nextLockFd, rfl, (h12.trans h3.1).lockOwner, ?_⟩
        rw [(h12.trans h3.1).nextLockFd]
        exact Nat.lt_succ_self _
      keeps := DbFile.Kept.mono h3.2 (fun B hB => Or.inr hB)
      logStart := rfl
      logEnd := rfl
      flags := rfl
      createTime := rfl
      timeout := rfl
      nextMsgId := rfl
      nextLeaseId := rfl
      state := rfl }

/-- The bytes of the main file. -/
def World.mainFile (w : World) : Option Bytes :=
  (w.dir .main).map w.content

/-- A machine with nothing but the database file `f`. -/
def World.ofFile (f : Bytes) : World :=
  { World.empty with
    dir := fun p => if p = .main then some 0 else none
    files := fun _ => ⟨f, []⟩
    nextIno := 1 }

theorem image_ofFile (h : f.length ≤ maxFileSize) :
    Image (World.ofFile f) 0 f where
  disk := ⟨rfl, rfl, Nat.zero_lt_one, rfl⟩
  limit := h
  lock := rfl

theorem OnDisk.mainFile {s : FileState} (h : OnDisk i (· = s) w) :
    w.mainFile = some s.content := by
  unfold World.mainFile World.content
  rw [h.main, Option.map_some, h.file]

theorem Image.mainFile (h : Image w i f) : w.mainFile = some f :=
  h.disk.mainFile

/-- A file with a header is scanned. -/
theorem HasHeader.scanned (hm : HasHeader f m)
    (hlimit : f.length ≤ maxFileSize) : ∃ rs v, Scanned f m rs v := by
  obtain ⟨rs, v, hs⟩ := exists_scans (f.take m.logEndOffset.toNat)
    m.logStartOffset m.logEndOffset (by rw [List.length_take]; omega)
  exact ⟨rs, v, hlimit, hm, hs⟩

/-- The header of a file is determined by its bytes. -/
theorem HasHeader.withHeader_eq {m' : Db} (h : HasHeader f m)
    (h' : HasHeader f m') (db : Db) : db.withHeader m = db.withHeader m' := by
  have heq := (h.decode db).symm.trans (h'.decode db)
  exact congrArg Prod.snd heq

/-- The scanner reports a damaged record or a failed read. -/
theorem scanImage_err {off endOff : UInt64} {rc : Rc}
    (h : scanImage f off endOff = .err rc) :
    rc = .errCorrupt ∨ rc = .errIo := by
  unfold scanImage at h
  simp only at h
  repeat' split at h
  all_goals cases h
  all_goals simp

/-- What the scan says of a file: no header, a damaged record or a partial one
that cannot be cut off, or a log to be replayed. -/
theorem Image.classify (h : Image w i f) :
    (∀ m, ¬ HasHeader f m) ∨ ∃ m rs v, Scanned f m rs v ∧
      ((∃ rc, v = .err rc ∧ (rc = .errCorrupt ∨ rc = .errIo)) ∨
        (v = .scanPartial ∧
          ¬ (logEndOf m.logStartOffset rs).toNat ≤ maxFileSize) ∨
        Settles m rs v) := by
  by_cases hm : ∃ m, HasHeader f m
  swap
  · exact Or.inl (fun m hm' => hm ⟨m, hm'⟩)
  obtain ⟨m, hm⟩ := hm
  obtain ⟨rs, v, hs⟩ := hm.scanned h.limit
  refine Or.inr ⟨m, rs, v, hs, ?_⟩
  cases v with
  | scanEnd =>
      exact Or.inr (Or.inr (Or.inl rfl))
  | scanPartial =>
      by_cases hfit : (logEndOf m.logStartOffset rs).toNat ≤ maxFileSize
      · exact Or.inr (Or.inr (Or.inr ⟨rfl, hfit⟩))
      · exact Or.inr (Or.inl ⟨rfl, hfit⟩)
  | err rc =>
      exact Or.inl ⟨rc, rfl, scanImage_err hs.scans.verdict⟩
  | record ty plen next =>
      exact absurd rfl (hs.scans.stops ty plen next)

/-- A file that is opened has a log that replay accepts. -/
theorem Image.accepted (h : Image w i f) {x : Rc × Option Db} {w' : World}
    (hrun : Prog.run posix (qdbOpenErr t) w = some (x, w'))
    (hok : x.1 = .ok) :
    ∃ db m rs v mem, x = (.ok, some db) ∧ Scanned f m rs v ∧
      Settles m rs v ∧
      replayRecords m.logStartOffset rs (Mem.start m.nextMsgId) = some mem ∧
      Live False w' db ((m.fileOf rs).opened mem (leaseTimeoutOf t)) i := by
  have hfinal : ∀ {I : World → Prop} {Q : Rc × Option Db → World → Prop},
      Prog.Wp (Faulty False) I (qdbOpenErr t) w Q → Q x w' := by
    intro I Q hwp
    exact hwp.exec (Prog.Exec.of_run (faulty_posix False) hrun)
  rcases h.classify with hno | ⟨m, rs, v, hs, ⟨rc, rfl, hrc⟩ |
    ⟨rfl, hfar⟩ | hset⟩
  · obtain ⟨rfl, -⟩ := hfinal (wp_open_headless h hno)
    cases hok
  · have hne : rc ≠ .ok := by
      rcases hrc with rfl | rfl <;> simp
    obtain ⟨rfl, -⟩ := hfinal (wp_open_scanError h hs hne)
    exact absurd hok hne
  · obtain ⟨rfl, -⟩ := hfinal (wp_open_far h hs hfar)
    cases hok
  · cases hrep : replayRecords m.logStartOffset rs
        (Mem.start m.nextMsgId) with
    | none =>
        obtain ⟨rfl, -⟩ := hfinal (wp_open_rejected h hs hset hrep)
        cases hok
    | some mem =>
        obtain ⟨db, hx, hlive⟩ := hfinal (wp_open_accepted h hs hset hrep)
        exact ⟨db, m, rs, v, mem, hx, hs, hset, hrep, hlive⟩

end Open

end Qdb
