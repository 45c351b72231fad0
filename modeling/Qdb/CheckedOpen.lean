import Qdb.Lib.Paired
import Qdb.HeaderPage
import Qdb.Image

/-!
# Opening a file with every sum checked

A copy of `qdb_open` whose scan and replay loops check what they compute: a
64-bit sum that wraps, a 32-bit difference that underflows, a record that does
not advance the offset, message data outside the log region, a record in the
replay that the validation has not seen and a partial or damaged frame in the
replay all get it stuck.  On every file below 2^63 bytes the copy runs as the
original does, and both end.
-/

namespace Qdb

open Lib

section Programs

/-- A sum that must not wrap. -/
def add64 (a b : UInt64) : Cmd UInt64 := do
  Prog.require (a.toNat + b.toNat < 2 ^ 64)
  return a + b

/-- A difference that must not underflow. -/
def sub32 (a b : UInt32) : Cmd UInt32 := do
  Prog.require (b.toNat ≤ a.toNat)
  return a - b

/-- `scanChunks` with its offsets and lengths checked. -/
def scanChunksChecked (fd : Fd) (payloadOff : UInt64) (plen : UInt32) :
    Nat → UInt32 → UInt32 → Cmd (Except Rc UInt32)
  | 0, _, _ => .stuck
  | fuel + 1, crcState, remaining => do
      if remaining = 0 then return .ok crcState
      let toRead := if remaining < 4096 then remaining else 4096
      let done ← sub32 plen remaining
      let chunkOff ← add64 payloadOff done.toUInt64
      match ← readFull fd toRead.toNat chunkOff with
      | .error _ => return .error .errIo
      | .ok chunk =>
          let remaining' ← sub32 remaining toRead
          scanChunksChecked fd payloadOff plen fuel
            (crc32Update crcState chunk) remaining'

/-- `scanRecord` with its offsets checked. -/
def scanRecordChecked (fd : Fd) (offset endOffset : UInt64) :
    Cmd ScanResult := do
  if offset ≥ endOffset then return .scanEnd
  if endOffset - offset < recHdrSize + 1 then return .scanPartial
  match ← readFull fd 9 offset with
  | .error _ => return .err .errIo
  | .ok hdr =>
      let plen := getU32le (hdr.drop 1)
      let storedCrc := getU32le (hdr.drop 5)
      if plen > maxRecordPayload then return .err .errCorrupt
      let payloadOff ← add64 offset recHdrSize
      let markerOff ← add64 payloadOff plen.toUInt64
      let recordEnd ← add64 markerOff 1
      if recordEnd > endOffset then return .scanPartial
      match ← readFull fd 1 markerOff with
      | .error _ => return .err .errIo
      | .ok marker =>
          if marker ≠ [commitMarker] then return .scanPartial
          if ¬ isKnownType (hdr.getD 0 0) then return .err .errCorrupt
          match ← scanChunksChecked fd payloadOff plen (plen.toNat + 1)
              crc32Begin plen with
          | .error _ => return .err .errIo
          | .ok crcState =>
              if crc32End crcState ≠ storedCrc then
                return .err .errCorrupt
              -- an accepted record advances the offset
              Prog.require (offset.toNat + 10 ≤ recordEnd.toNat)
              return .record (hdr.getD 0 0) plen recordEnd

/-- Type, payload length and end of a record the scanner has accepted. -/
abbrev Frame := UInt8 × UInt32 × UInt64

/-- `validateLoop`, which also returns the records it has seen. -/
def validateLoopChecked : Nat → Db → UInt64 → Cmd ((Rc × Db) × List Frame)
  | 0, _, _ => .stuck
  | fuel + 1, db, offset => do
      if ¬ offset < db.logEndOffset then return ((.ok, db), [])
      match ← scanRecordChecked db.fd offset db.logEndOffset with
      | .scanEnd => return ((.ok, db), [])
      | .scanPartial =>
          if (← fileTruncate db.fd offset) ≠ .ok then
            return ((.errIo, db), [])
          let db := { db with logEndOffset := offset }
          return ((← headerUpdate db.fd db, db), [])
      | .err rc => return ((rc, db), [])
      | .record type plen next =>
          let (x, seen) ← validateLoopChecked fuel db next
          return (x, (type, plen, next) :: seen)

/-- `validateLog` with the records it has seen. -/
def validateLogChecked (db : Db) : Cmd ((Rc × Db) × List Frame) :=
  validateLoopChecked (db.logEndOffset.toNat - db.logStartOffset.toNat + 1)
    db db.logStartOffset

theorem readName_nonempty {name : Bytes}
    (h : 1 ≤ name.length ∧ name.length ≤ queueNameMax) : 1 ≤ name.length :=
  h.1

theorem readName_length_le {name : Bytes}
    (h : 1 ≤ name.length ∧ name.length ≤ queueNameMax) :
    name.length ≤ queueNameMax :=
  h.2

/-- `replayPush` with its offsets and lengths checked, and the range of the
data of the message it accepts. -/
def replayPushChecked (db : Db) (st : State) (payloadOff : UInt64)
    (plen : UInt32) : Cmd (Except Rc (Db × State)) := do
  if plen < pushMinPlen then return .error .errCorrupt
  match ← readFull db.fd pushHdrSize payloadOff with
  | .error _ => return .error .errIo
  | .ok fixed =>
      let msgId := getU64le fixed
      let nameLen := fixed.getD 8 0
      if nameLen = 0 then return .error .errCorrupt
      if plen < 9 + nameLen.toUInt32 then return .error .errCorrupt
      if msgId = 0 then return .error .errCorrupt
      let nameOff ← add64 payloadOff 9
      match ← readFull db.fd nameLen.toNat nameOff with
      | .error _ => return .error .errIo
      | .ok name =>
          if (st.msgGet msgId).isSome then return .error .errCorrupt
          let bodyLen ← sub32 plen 9
          let dataLen ← sub32 bodyLen nameLen.toUInt32
          let dataOff ← add64 nameOff nameLen.toUInt64
          if ¬ (← alloc) then return .error .errNomem
          if h : 1 ≤ name.length ∧ name.length ≤ queueNameMax then
            let m := newMsg msgId dataOff dataLen
              ⟨name, readName_nonempty h, readName_length_le h⟩
            Prog.require (db.logStartOffset.toNat ≤ m.dataFileOffset.toNat ∧
              m.dataFileOffset.toNat + m.dataLen.toNat <
                db.logEndOffset.toNat)
            let st := st.msgInsert m
            match ← st.queueGetOrCreate m.queueName with
            | none => return .error .errNomem
            | some (q, st) =>
                let st := st.queuePendingAppend q m
                return .ok (replayPushIds db msgId, st)
          else
            .stuck

/-- `replayRecord` with the handler of a push checked; the other handlers
compute no offset. -/
def replayRecordChecked (type : UInt8) (db : Db) (st : State)
    (payloadOff : UInt64) (plen : UInt32) :
    Cmd (Except Rc (Db × State)) :=
  if type = rtMsgPush then replayPushChecked db st payloadOff plen
  else replayRecord type db st payloadOff plen

/-- `replayLoop` over the records `seen` by the validation: it gets stuck on
any other record, on a partial and on a damaged one, and when a record that has
been seen is missing. -/
def replayLoopChecked :
    Nat → Db → State → UInt64 → List Frame → Cmd (Rc × Db)
  | 0, _, _, _, _ => .stuck
  | fuel + 1, db, st, offset, seen => do
      if ¬ offset < db.logEndOffset then
        Prog.require (seen = [])
        return (.ok, { db with state := some st })
      match ← scanRecordChecked db.fd offset db.logEndOffset with
      | .scanEnd => .stuck
      | .scanPartial => .stuck
      | .err _ => .stuck
      | .record type plen next =>
          Prog.require (seen.head? = some (type, plen, next))
          let payloadOff ← add64 offset recHdrSize
          match ← replayRecordChecked type db st payloadOff plen with
          | .error rc => return (rc, db)
          | .ok (db, st) => replayLoopChecked fuel db st next seen.tail

/-- `replayLog` over the records `seen` by the validation. -/
def replayLogChecked (db : Db) (seen : List Frame) : Cmd (Rc × Db) := do
  if ¬ (← alloc) then return (.errNomem, db)
  replayLoopChecked (db.logEndOffset.toNat - db.logStartOffset.toNat + 1)
    db .empty db.logStartOffset seen

/-- `recoverScan` with the checked loops. -/
def recoverScanChecked (db : Db) : Cmd (Rc × Db) := do
  let ((rc, db), seen) ← validateLogChecked db
  if rc ≠ .ok then return (rc, db)
  let (rc, db) ← replayLogChecked { db with state := none } seen
  if rc ≠ .ok then return (rc, db)
  let db := { db with flags := db.flags ||| flagDirty }
  return (← headerUpdate db.fd db, db)

/-- `recoverFile` with the checked loops. -/
def recoverFileChecked (db : Db) : Cmd (Rc × Db) := do
  match ← fileSize db.fd with
  | .error rc => return (rc, db)
  | .ok fileSz =>
      if fileSz > db.logEndOffset then
        let rc ← fileTruncate db.fd db.logEndOffset
        if rc ≠ .ok then return (rc, db)
        recoverScanChecked db
      else recoverScanChecked db

/-- `recover` with the checked loops. -/
def recoverChecked (db : Db) : Cmd (Rc × Db) := do
  let x ← (if db.flags &&& flagWalPresent ≠ 0 ∨ db.flags &&& flagDirty ≠ 0
    then replayWal db else pure (.ok, db))
  if x.1 ≠ .ok then return x
  recoverFileChecked x.2

/-- `openExisting` with the checked loops. -/
def openExistingChecked (db : Db) : Cmd (Rc × Option Db) := do
  let (rc, db) ← headerRead db.fd db
  if rc ≠ .ok then return (← openFail db rc)
  let (rc, db) ← recoverChecked { db with nextLeaseId := 1 }
  if rc ≠ .ok then return (← openFail db rc)
  return (.ok, some db)

/-- `qdbOpenErr` with the checked loops. -/
def qdbOpenErrChecked (leaseTimeoutS : UInt32) : Cmd (Rc × Option Db) := do
  if ¬ (← alloc) then return (.errNomem, none)
  let db := { Db.zero with leaseTimeoutUs := leaseTimeoutOf leaseTimeoutS }
  let okPath ← alloc
  let okWal ← alloc
  let okLock ← alloc
  if ¬ (okPath ∧ okWal ∧ okLock) then return (← openFail db .errNomem)
  match ← lockfileOpen with
  | .error rc => openFail db rc
  | .ok lockFd =>
      let rc ← fileLock lockFd
      if rc ≠ .ok then
        lockfileClose lockFd
        return (← openFail db rc)
      let db := { db with lockFd := lockFd }
      if ← alloc then
        let _ ← fileDelete .compact
      match ← fileOpen .main true with
      | .error rc => openFail db rc
      | .ok (fd, isNew) =>
          let db := { db with fd := fd }
          if isNew then openNew db
          else openExistingChecked db

end Programs

section Steps

variable {w : World} {i : Nat} {f : Bytes} {off endOff : UInt64}

theorem run_add64 {a b : UInt64} (h : a.toNat + b.toNat < 2 ^ 64) :
    Prog.run posix (add64 a b) w = some (a + b, w) := by
  unfold add64
  rw [Prog.run_bind, Prog.run_require h]
  rfl

theorem run_sub32 {a b : UInt32} (h : b.toNat ≤ a.toNat) :
    Prog.run posix (sub32 a b) w = some (a - b, w) := by
  unfold sub32
  rw [Prog.run_bind, Prog.run_require h]
  rfl

/-- A full read changes nothing; what it returns has the length asked for. -/
theorem paired_readFull (fd : Fd) (len : Nat) (off : UInt64) (w : World) :
    Prog.Paired posix (readFull fd len off) (readFull fd len off) w
      (fun a a' w' => a' = a ∧ w' = w ∧
        ∀ bs, a = .ok bs → bs.length = len) := by
  have hrun : Prog.run posix (pread fd len off) w =
      some ((posix (.pread fd len off) w).1, w) :=
    (Prog.reads_perform (isRead_pread fd len off w)).run
  unfold readFull
  refine Prog.paired_bind (Prog.paired_self hrun) ?_
  rintro _ a _ ⟨rfl, -, rfl⟩
  cases a with
  | error rc =>
      exact Prog.paired_pure ⟨rfl, rfl, nofun⟩
  | ok bs =>
      refine Prog.paired_ite (fun hlen => ?_) (fun _ => ?_)
      · refine Prog.paired_pure ⟨rfl, rfl, ?_⟩
        rintro _ ⟨⟩
        exact hlen
      · exact Prog.paired_pure ⟨rfl, rfl, nofun⟩

/-- The chunk loop ends, and neither its offsets nor its lengths leave their
range. -/
theorem paired_scanChunks (fd : Fd) (w : World) {plen : UInt32}
    (hoff : off.toNat + plen.toNat < 2 ^ 64) (fuel : Nat) (crc rem : UInt32)
    (hrem : rem.toNat ≤ plen.toNat) (hfuel : rem.toNat < fuel) :
    Prog.Paired posix (scanChunksChecked fd off plen fuel crc rem)
      (scanChunks fd off plen fuel crc rem) w
      (fun a a' w' => a' = a ∧ w' = w) := by
  induction fuel generalizing crc rem with
  | zero =>
      exact absurd hfuel (Nat.not_lt_zero _)
  | succ fuel ih =>
      unfold scanChunksChecked scanChunks
      refine Prog.paired_ite (fun _ => Prog.paired_pure ⟨rfl, rfl⟩) ?_
      intro h0
      have hpos : 0 < rem.toNat := by
        rcases Nat.eq_zero_or_pos rem.toNat with h | h
        · exact absurd (UInt32.toNat_inj.mp h) h0
        · exact h
      have hread : (if rem < 4096 then rem else 4096).toNat ≤ rem.toNat ∧
          0 < (if rem < 4096 then rem else 4096).toNat := by
        split
        · exact ⟨Nat.le_refl _, hpos⟩
        · next h => exact ⟨Nat.le_of_not_lt h, by decide⟩
      dsimp only
      generalize (if rem < 4096 then rem else 4096) = toRead at hread
      have hdone : (plen - rem).toNat = plen.toNat - rem.toNat :=
        UInt32.toNat_sub_of_le _ _ (UInt32.le_iff_toNat_le.mpr hrem)
      have hleft : (rem - toRead).toNat = rem.toNat - toRead.toNat :=
        UInt32.toNat_sub_of_le _ _ (UInt32.le_iff_toNat_le.mpr hread.1)
      refine Prog.paired_left (run_sub32 hrem) ?_
      refine Prog.paired_left (run_add64 ?_) ?_
      · rw [UInt32.toNat_toUInt64, hdone]
        omega
      refine Prog.paired_bind (paired_readFull _ _ _ _) ?_
      rintro _ a _ ⟨rfl, rfl, -⟩
      cases a with
      | error rc =>
          exact Prog.paired_pure ⟨rfl, rfl⟩
      | ok bs =>
          refine Prog.paired_left (run_sub32 hread.1) ?_
          exact ih _ _ (by omega) (by omega)

/-- The scanner on any file: no sum wraps and an accepted record is at least
ten bytes long. -/
theorem paired_scanRecord (hf : w.content i = f)
    (hmax : f.length ≤ maxFileSize) :
    Prog.Paired posix (scanRecordChecked (some i) off endOff)
      (scanRecord (some i) off endOff) w
      (fun a a' w' => a' = a ∧ w' = w ∧ a = scanImage f off endOff) := by
  have hmx := maxFileSize_eq
  suffices h : Prog.Paired posix (scanRecordChecked (some i) off endOff)
      (scanRecord (some i) off endOff) w (fun a a' w' => a' = a ∧ w' = w) by
    obtain ⟨_, a, w', ha, ha', rfl, rfl⟩ := h
    refine ⟨a, a, _, ha, ha', rfl, rfl, ?_⟩
    rw [(reads_scanImage hf hmax).run] at ha'
    injection ha' with ha'
    exact (congrArg Prod.fst ha').symm
  unfold scanRecordChecked scanRecord
  refine Prog.paired_ite (fun _ => Prog.paired_pure ⟨rfl, rfl⟩) (fun _ => ?_)
  refine Prog.paired_ite (fun _ => Prog.paired_pure ⟨rfl, rfl⟩) (fun _ => ?_)
  have hrun : Prog.run posix (readFull (some i) 9 off) w =
      some (readAt f off.toNat 9, w) := (reads_readFull_any hf hmax).run
  refine Prog.paired_bind (Prog.paired_self hrun) ?_
  rintro _ a _ ⟨rfl, rfl, rfl⟩
  by_cases hin : off.toNat + 9 ≤ f.length
  · rw [readAt, if_neg (by omega), if_pos hin]
    dsimp only
    generalize getU32le ((slice f off.toNat 9).drop 1) = plen
    refine Prog.paired_ite (fun _ => Prog.paired_pure ⟨rfl, rfl⟩)
      (fun hlimit => ?_)
    have hp : plen.toNat ≤ 67109376 := by
      rw [gt_iff_lt, UInt32.lt_iff_toNat_lt] at hlimit
      exact Nat.not_lt.mp hlimit
    have h9 : (off + recHdrSize).toNat = off.toNat + 9 := by
      rw [UInt64.toNat_add, show recHdrSize.toNat = 9 from rfl]
      omega
    have hm : (off + recHdrSize + plen.toUInt64).toNat =
        off.toNat + 9 + plen.toNat := by
      rw [UInt64.toNat_add, h9, UInt32.toNat_toUInt64]
      omega
    have hend : (off + recHdrSize + plen.toUInt64 + 1).toNat =
        off.toNat + 9 + plen.toNat + 1 := by
      rw [UInt64.toNat_add, hm, show (1 : UInt64).toNat = 1 from rfl]
      omega
    refine Prog.paired_left (run_add64 ?_) ?_
    · rw [show recHdrSize.toNat = 9 from rfl]
      omega
    refine Prog.paired_left (run_add64 ?_) ?_
    · rw [h9, UInt32.toNat_toUInt64]
      omega
    refine Prog.paired_left (run_add64 ?_) ?_
    · rw [hm, show (1 : UInt64).toNat = 1 from rfl]
      omega
    refine Prog.paired_ite (fun _ => Prog.paired_pure ⟨rfl, rfl⟩) (fun _ => ?_)
    refine Prog.paired_bind (paired_readFull _ _ _ _) ?_
    rintro _ a _ ⟨rfl, rfl, -⟩
    cases a with
    | error rc =>
        exact Prog.paired_pure ⟨rfl, rfl⟩
    | ok marker =>
        refine Prog.paired_ite (fun _ => Prog.paired_pure ⟨rfl, rfl⟩)
          (fun _ => ?_)
        refine Prog.paired_ite (fun _ => Prog.paired_pure ⟨rfl, rfl⟩)
          (fun _ => ?_)
        refine Prog.paired_bind (paired_scanChunks _ _ ?_ _ _ _
          (Nat.le_refl _) (Nat.lt_succ_self _)) ?_
        · rw [h9]
          omega
        rintro _ a _ ⟨rfl, rfl⟩
        cases a with
        | error rc =>
            exact Prog.paired_pure ⟨rfl, rfl⟩
        | ok crcState =>
            refine Prog.paired_ite (fun _ => Prog.paired_pure ⟨rfl, rfl⟩)
              (fun _ => ?_)
            refine Prog.paired_left (Prog.run_require ?_ _) ?_
            · rw [hend]
              omega
            · exact Prog.paired_pure ⟨rfl, rfl⟩
  · rw [readAt, if_neg (by omega), if_neg hin]
    exact Prog.paired_pure ⟨rfl, rfl⟩

end Steps

section Validation

variable {w : World} {i : Nat} {f : Bytes} {off endOff : UInt64} {db : Db}
variable {rs : List Record} {v : ScanResult}

/-- The records of a scan as the scanner reports them. -/
def framesOf : UInt64 → List Record → List Frame
  | _, [] => []
  | off, r :: rs =>
      (r.type, UInt32.ofNat r.payload.length, off + UInt64.ofNat r.size) ::
        framesOf (off + UInt64.ofNat r.size) rs

theorem lt_end_of_head {r : Record} {endOff : UInt64}
    (hend : off.toNat + r.size ≤ endOff.toNat) : off < endOff := by
  have hpos := r.size_pos
  rw [UInt64.lt_iff_toNat_lt]
  omega

/-- The scanners on a file of the machine. -/
theorem run_scanRecordChecked (hmax : (w.content i).length ≤ maxFileSize)
    (off endOff : UInt64) :
    Prog.run posix (scanRecordChecked (some i) off endOff) w =
      some (scanImage (w.content i) off endOff, w) := by
  have h : Prog.Paired posix (scanRecordChecked (some i) off endOff)
      (scanRecord (some i) off endOff) w _ := paired_scanRecord rfl hmax
  obtain ⟨a, _, w', ha, -, rfl, rfl, rfl⟩ := h
  exact ha

theorem validateEnd_torn (db : Db) (stop : UInt64) :
    (do
      if (← fileTruncate db.fd stop) ≠ .ok then return ((.errIo, db), [])
      let db := { db with logEndOffset := stop }
      return ((← headerUpdate db.fd db, db), [])) =
    ((do return (← validateEnd db stop .scanPartial, [])) :
      Cmd ((Rc × Db) × List Frame)) := by
  unfold validateEnd
  rw [bind_assoc]
  congr 1
  funext rc
  split
  · rfl
  · rw [bind_assoc]
    rfl

/-- The checked validation loop runs over the records and ends with the
verdict. -/
theorem run_validateLoopChecked (hfd : db.fd = some i)
    (hmax : (w.content i).length ≤ maxFileSize)
    (hs : Scans (w.content i) off db.logEndOffset rs v) (fuel : Nat)
    (hfuel : rs.length < fuel) :
    Prog.run posix (validateLoopChecked fuel db off) w =
      Prog.run posix (do
        return (← validateEnd db (logEndOf off rs) v, framesOf off rs)) w := by
  induction rs generalizing off fuel with
  | nil =>
      obtain ⟨fuel, rfl⟩ := Nat.exists_eq_add_of_lt hfuel
      have hv := hs.verdict
      rw [logEndOf_nil] at hv ⊢
      unfold validateLoopChecked
      by_cases hlt : off < db.logEndOffset
      · rw [if_neg (not_not.mpr hlt), Prog.run_bind]
        nth_rewrite 1 [hfd]
        rw [run_scanRecordChecked hmax, Option.bind_some, hv]
        cases v with
        | record ty plen next =>
            exact absurd rfl (hs.stops ty plen next)
        | scanEnd =>
            rfl
        | scanPartial =>
            exact congrArg (fun p => Prog.run posix p w)
              (validateEnd_torn db off)
        | err rc =>
            rfl
      · rw [if_pos hlt]
        rw [Scans.scanImage_past hlt] at hv
        subst hv
        rfl
  | cons r rs ih =>
      obtain ⟨fuel, rfl⟩ := Nat.exists_eq_add_of_lt hfuel
      obtain ⟨hr, hend, hrest⟩ := hs.head hmax
      have hlen : rs.length < (r :: rs).length + fuel := by
        rw [List.length_cons]
        omega
      unfold validateLoopChecked
      rw [if_neg (not_not.mpr (lt_end_of_head hend)), Prog.run_bind]
      nth_rewrite 1 [hfd]
      rw [run_scanRecordChecked hmax, Option.bind_some,
        scanImage_encode hr hmax hend]
      dsimp only
      rw [Prog.run_bind, ih hrest _ hlen, Scans.logEndOf_cons]
      simp only [Prog.run_bind, Option.bind_assoc]
      rfl

/-- The validation loop runs over the records and ends with the verdict. -/
theorem run_validateLoop (hfd : db.fd = some i)
    (hmax : (w.content i).length ≤ maxFileSize)
    (hs : Scans (w.content i) off db.logEndOffset rs v) (fuel : Nat)
    (hfuel : rs.length < fuel) :
    Prog.run posix (validateLoop fuel db off) w =
      Prog.run posix (validateEnd db (logEndOf off rs) v) w := by
  induction rs generalizing off fuel with
  | nil =>
      obtain ⟨fuel, rfl⟩ := Nat.exists_eq_add_of_lt hfuel
      have hv := hs.verdict
      rw [logEndOf_nil] at hv ⊢
      unfold validateLoop
      by_cases hlt : off < db.logEndOffset
      · rw [if_neg (not_not.mpr hlt), Prog.run_bind]
        nth_rewrite 1 [hfd]
        rw [(reads_scanImage rfl hmax).run, Option.bind_some, hv]
        cases v with
        | record ty plen next =>
            exact absurd rfl (hs.stops ty plen next)
        | scanEnd =>
            rfl
        | scanPartial =>
            rfl
        | err rc =>
            rfl
      · rw [if_pos hlt]
        rw [Scans.scanImage_past hlt] at hv
        subst hv
        rfl
  | cons r rs ih =>
      obtain ⟨fuel, rfl⟩ := Nat.exists_eq_add_of_lt hfuel
      obtain ⟨hr, hend, hrest⟩ := hs.head hmax
      have hlen : rs.length < (r :: rs).length + fuel := by
        rw [List.length_cons]
        omega
      unfold validateLoop
      rw [if_neg (not_not.mpr (lt_end_of_head hend)), Prog.run_bind]
      nth_rewrite 1 [hfd]
      rw [(reads_scanImage rfl hmax).run, Option.bind_some,
        scanImage_encode hr hmax hend, Scans.logEndOf_cons]
      exact ih hrest _ hlen

/-- A log of committed records, and the frames the validation has seen. -/
structure Validated (w : World) (i : Nat) (db : Db) (seen : List Frame)
    (rs : List Record) : Prop where
  fd : db.fd = some i
  scans : Scans (w.content i) db.logStartOffset db.logEndOffset rs .scanEnd
  seen : seen = framesOf db.logStartOffset rs

/-- The records are still there after the cut and the header update. -/
theorem slice_cut {stop : UInt64} {bs : Bytes}
    (hs : Scans f off endOff rs v) (hmax : f.length ≤ maxFileSize)
    (hlow : 4096 ≤ off.toNat) (hstop : stop = logEndOf off rs)
    (hbs : bs.length = 32) :
    slice (overwrite (resize f stop.toNat) 24 bs) off.toNat
      (encodeLog rs).length = encodeLog rs := by
  rcases slice_full hs.bytes with h0 | hreach
  · rw [encodeLog_eq_nil h0]
    simp [slice]
  have hnat := hs.toNat_stop hmax
  rw [slice_overwrite_right (by omega) (by rw [length_resize, hstop]; omega),
    slice_resize_left (by rw [hstop]; omega) hreach]
  exact hs.bytes

theorem run_fileTruncate {size : UInt64} (h : size.toNat ≤ maxFileSize) :
    Prog.run posix (fileTruncate (some i) size) w =
      some (.ok, w.issue i (.truncate size.toNat)) := by
  unfold fileTruncate
  rw [Prog.run_perform]
  simp only [posix, if_pos h]

theorem run_truncate_far {size : UInt64} (h : ¬ size.toNat ≤ maxFileSize) :
    Prog.run posix (fileTruncate (some i) size) w = some (.errIo, w) := by
  unfold fileTruncate
  rw [Prog.run_perform]
  simp only [posix, if_neg h]

/-- The end of the validation: when it succeeds the log is validated. -/
theorem paired_validateEnd (hfd : db.fd = some i)
    (hmax : (w.content i).length ≤ maxFileSize)
    (hlow : 4096 ≤ db.logStartOffset.toNat)
    (hs : Scans (w.content i) db.logStartOffset db.logEndOffset rs v)
    {stop : UInt64} (hstop : stop = logEndOf db.logStartOffset rs) :
    Prog.Paired posix (validateEnd db stop v) (validateEnd db stop v) w
      (fun x x' w' => x' = x ∧ (x.1 = .ok → Validated w' i x.2
        (framesOf db.logStartOffset rs) rs)) := by
  have hmx := maxFileSize_eq
  cases v with
  | record ty plen next =>
      exact absurd rfl (hs.stops ty plen next)
  | scanEnd =>
      exact Prog.paired_pure ⟨rfl, fun _ => ⟨hfd, hs, rfl⟩⟩
  | err rc =>
      refine Prog.paired_pure ⟨rfl, ?_⟩
      rintro rfl
      rcases scanImage_err hs.verdict with h | h <;> cases h
  | scanPartial =>
      unfold validateEnd
      rw [hfd]
      by_cases hfit : stop.toNat ≤ maxFileSize
      · refine Prog.paired_bind
          (Prog.paired_self (run_fileTruncate hfit)) ?_
        rintro _ _ _ ⟨rfl, rfl, rfl⟩
        rw [if_neg (by simp)]
        obtain ⟨w', hrun, hcontent⟩ := run_headerUpdate (i := i)
          { db with logEndOffset := stop, fd := some i }
          (w.issue i (.truncate stop.toNat))
        refine Prog.paired_bind (Prog.paired_self hrun) ?_
        rintro _ _ w' ⟨rfl, rfl, rfl⟩
        refine Prog.paired_pure ⟨rfl, fun _ => ⟨rfl, ?_, rfl⟩⟩
        have hissue : (w.issue i (.truncate stop.toNat)).content i =
            resize (w.content i) stop.toNat := by
          simp [World.issue, World.setFile, World.content, Pending.apply]
        have hlen : (w'.content i).length ≤ maxFileSize := by
          rw [hcontent, hissue, length_overwrite, length_resize,
            length_headerPatch]
          omega
        have hkept := slice_cut hs hmax hlow hstop (length_headerPatch
          { db with logEndOffset := stop, fd := some i })
        rw [← hissue, ← hcontent] at hkept
        have := Scans.of_encodeLog hlen hkept
        rw [← hstop] at this
        exact this
      · refine Prog.paired_bind (Prog.paired_self (run_truncate_far hfit)) ?_
        rintro _ _ _ ⟨rfl, rfl, rfl⟩
        rw [if_pos (by simp)]
        refine Prog.paired_pure ⟨rfl, ?_⟩
        intro hok
        cases hok

/-- `validate_log` on any file. -/
theorem paired_validateLog (hfd : db.fd = some i)
    (hmax : (w.content i).length ≤ maxFileSize)
    (hlow : 4096 ≤ db.logStartOffset.toNat) :
    Prog.Paired posix (validateLogChecked db) (validateLog db) w
      (fun x x' w' => x' = x.1 ∧ (x.1.1 = .ok →
        ∃ rs, Validated w' i x.1.2 x.2 rs)) := by
  obtain ⟨rs, v, hs⟩ := exists_scans (w.content i) db.logStartOffset
    db.logEndOffset hmax
  have hfuel : rs.length <
      db.logEndOffset.toNat - db.logStartOffset.toNat + 1 := by
    have hlen := length_le_encodeLog rs
    rcases hs.inside with rfl | hin
    · simp
    · omega
  obtain ⟨_, x, w', hx, hx', rfl, hv⟩ :=
    paired_validateEnd hfd hmax hlow hs rfl
  refine ⟨(x, framesOf db.logStartOffset rs), x, w', ?_, ?_, rfl,
    fun hok => ⟨rs, hv hok⟩⟩
  · unfold validateLogChecked
    rw [run_validateLoopChecked hfd hmax hs _ hfuel, Prog.run_bind, hx]
    rfl
  · unfold validateLog
    rw [run_validateLoop hfd hmax hs _ hfuel, hx]

end Validation

section Replaying

variable {w : World} {i : Nat} {off : UInt64} {plen : UInt32}
variable {db : Db} {st : State} {rs : List Record} {seen : List Frame}

/-- `replay_push` on a payload inside the log: no sum wraps, no difference
underflows and the data of the message is inside the log. -/
theorem paired_replayPush (w : World) (st : State)
    (hstart : db.logStartOffset.toNat ≤ off.toNat)
    (hend : off.toNat + plen.toNat < db.logEndOffset.toNat) :
    Prog.Paired posix (replayPushChecked db st off plen)
      (replayPush db st off plen) w (fun a a' _ => a' = a) := by
  have hlimit := db.logEndOffset.toNat_lt
  unfold replayPushChecked replayPush
  refine Prog.paired_ite (fun _ => Prog.paired_pure rfl) (fun _ => ?_)
  refine Prog.paired_bind (paired_readFull _ _ _ _) ?_
  rintro _ a _ ⟨rfl, rfl, -⟩
  cases a with
  | error rc =>
      exact Prog.paired_pure rfl
  | ok fixed =>
      dsimp only
      generalize fixed.getD 8 0 = nameLen
      have hname := nameLen.toNat_lt
      refine Prog.paired_ite (fun _ => Prog.paired_pure rfl) (fun h0 => ?_)
      have hpos : 1 ≤ nameLen.toNat := by
        rcases Nat.eq_zero_or_pos nameLen.toNat with h | h
        · exact absurd (UInt8.toNat_inj.mp h) h0
        · exact h
      refine Prog.paired_ite (fun _ => Prog.paired_pure rfl) (fun hlen => ?_)
      have hlen : 9 + nameLen.toNat ≤ plen.toNat := by
        rw [UInt32.lt_iff_toNat_lt, UInt32.toNat_add,
          UInt8.toNat_toUInt32] at hlen
        change ¬ _ < (9 + nameLen.toNat) % 2 ^ 32 at hlen
        omega
      refine Prog.paired_ite (fun _ => Prog.paired_pure rfl) (fun _ => ?_)
      have h9 : (off + 9).toNat = off.toNat + 9 := by
        rw [UInt64.toNat_add]
        change (off.toNat + 9) % 2 ^ 64 = _
        omega
      have hbody : (plen - 9).toNat = plen.toNat - 9 := by
        rw [UInt32.toNat_sub_of_le _ _ (UInt32.le_iff_toNat_le.mpr ?_)]
        · rfl
        · change 9 ≤ _
          omega
      have hdata : (plen - 9 - nameLen.toUInt32).toNat =
          plen.toNat - 9 - nameLen.toNat := by
        rw [UInt32.toNat_sub_of_le _ _ (UInt32.le_iff_toNat_le.mpr ?_), hbody,
          UInt8.toNat_toUInt32]
        rw [UInt8.toNat_toUInt32, hbody]
        omega
      have hoff : (off + 9 + nameLen.toUInt64).toNat =
          off.toNat + 9 + nameLen.toNat := by
        rw [UInt64.toNat_add, h9, UInt8.toNat_toUInt64]
        omega
      refine Prog.paired_left (run_add64 ?_) ?_
      · change off.toNat + 9 < _
        omega
      refine Prog.paired_bind (paired_readFull _ _ _ _) ?_
      rintro _ a _ ⟨rfl, rfl, hread⟩
      cases a with
      | error rc =>
          exact Prog.paired_pure rfl
      | ok name =>
          have hnl : name.length = nameLen.toNat := hread name rfl
          refine Prog.paired_ite (fun _ => Prog.paired_pure rfl)
            (fun _ => ?_)
          refine Prog.paired_left (run_sub32 ?_) ?_
          · change 9 ≤ _
            omega
          refine Prog.paired_left (run_sub32 ?_) ?_
          · rw [UInt8.toNat_toUInt32, hbody]
            omega
          refine Prog.paired_left (run_add64 ?_) ?_
          · rw [h9, UInt8.toNat_toUInt64]
            omega
          refine Prog.paired_bind (Prog.paired_self (reads_alloc _).run) ?_
          rintro _ _ _ ⟨rfl, rfl, rfl⟩
          refine Prog.paired_ite (fun _ => Prog.paired_pure rfl)
            (fun _ => ?_)
          have hbound : 1 ≤ name.length ∧ name.length ≤ queueNameMax := by
            refine ⟨by omega, ?_⟩
            change name.length ≤ 255
            omega
          rw [dif_pos hbound, dif_pos hbound]
          refine Prog.paired_left (Prog.run_require ?_ _) ?_
          · change _ ≤ (off + 9 + nameLen.toUInt64).toNat ∧
              (off + 9 + nameLen.toUInt64).toNat +
                (plen - 9 - nameLen.toUInt32).toNat < _
            rw [hoff, hdata]
            omega
          refine Prog.paired_bind
            (Prog.paired_self (reads_queueGetOrCreate _ _ _).run) ?_
          rintro _ a _ ⟨rfl, rfl, rfl⟩
          exact Prog.paired_pure rfl

/-- A record of the log is replayed alike, with every check. -/
theorem paired_replayRecord {r : Record} (hfd : db.fd = some i)
    (hmax : (w.content i).length ≤ maxFileSize)
    (hr : slice (w.content i) off.toNat r.size = r.encode)
    (hstart : db.logStartOffset.toNat ≤ off.toNat)
    (hend : off.toNat + r.size ≤ db.logEndOffset.toNat) :
    Prog.Paired posix
      (replayRecordChecked r.type db st (off + recHdrSize)
        (UInt32.ofNat r.payload.length))
      (replayRecord r.type db st (off + recHdrSize)
        (UInt32.ofNat r.payload.length)) w
      (fun a a' w' => a' = a ∧ w' = w ∧
        a = replayResult db (r.replay off (memOf db st))) := by
  have hmx := maxFileSize_eq
  have hpos := r.size_pos
  have hsize : r.size = 10 + r.payload.length := rfl
  have hin : off.toNat + r.size ≤ (w.content i).length := by
    have hlen := congrArg List.length hr
    rw [length_slice, Record.length_encode] at hlen
    omega
  obtain ⟨pre, post, hf, hpre, -⟩ := slice_split hin
  rw [hr] at hf
  have hrun : Prog.run posix (replayRecord r.type db st (off + recHdrSize)
      (UInt32.ofNat r.payload.length)) w =
      some (replayResult db (r.replay off (memOf db st)), w) :=
    (reads_replayRecord hf hpre.symm (by omega) hfd).run
  by_cases hpush : r.type = rtMsgPush
  · have h9 : (off + recHdrSize).toNat = off.toNat + 9 := by
      rw [UInt64.toNat_add, show recHdrSize.toNat = 9 from rfl]
      omega
    have hplen := r.toNat_plen
    have hpair : Prog.Paired posix
        (replayPushChecked db st (off + recHdrSize)
          (UInt32.ofNat r.payload.length))
        (replayPush db st (off + recHdrSize)
          (UInt32.ofNat r.payload.length)) w _ :=
      paired_replayPush w st (by rw [h9]; omega)
        (by rw [h9, hplen]; omega)
    obtain ⟨a, _, w', ha, ha', rfl⟩ := hpair
    have hsame : replayRecord r.type db st (off + recHdrSize)
        (UInt32.ofNat r.payload.length) = replayPush db st
        (off + recHdrSize) (UInt32.ofNat r.payload.length) := by
      unfold replayRecord
      rw [if_pos hpush]
    refine ⟨_, _, w, ?_, hrun, rfl, rfl, rfl⟩
    unfold replayRecordChecked
    rw [if_pos hpush, ha, ← ha', ← hsame, hrun]
  · unfold replayRecordChecked
    rw [if_neg hpush]
    exact (Prog.paired_self hrun).mono
      (fun a a' w' h => ⟨h.1, h.2.2, h.2.1⟩)

/-- The replay of a validated log sees the records the validation has seen and
nothing else. -/
theorem paired_replayLoop (hfd : db.fd = some i)
    (hmax : (w.content i).length ≤ maxFileSize)
    (hs : Scans (w.content i) off db.logEndOffset rs .scanEnd)
    (hstart : db.logStartOffset.toNat ≤ off.toNat)
    (fuel : Nat) (hfuel : rs.length < fuel) :
    Prog.Paired posix (replayLoopChecked fuel db st off (framesOf off rs))
      (replayLoop fuel db st off) w (fun a a' _ => a' = a) := by
  induction rs generalizing off fuel db st with
  | nil =>
      obtain ⟨fuel, rfl⟩ := Nat.exists_eq_add_of_lt hfuel
      have hle := Scans.le_of_scanImage_end hs.verdict
      rw [logEndOf_nil] at hle
      unfold replayLoopChecked replayLoop
      rw [if_pos (UInt64.not_lt.mpr hle), if_pos (UInt64.not_lt.mpr hle)]
      refine Prog.paired_left (Prog.run_require rfl _) ?_
      exact Prog.paired_pure rfl
  | cons r rs ih =>
      obtain ⟨fuel, rfl⟩ := Nat.exists_eq_add_of_lt hfuel
      obtain ⟨hr, hend, hrest⟩ := hs.head hmax
      have hnext := Scans.toNat_next hmax hr
      have hlt := lt_end_of_head hend
      have hpos := r.size_pos
      unfold replayLoopChecked replayLoop
      rw [if_neg (not_not.mpr hlt), if_neg (not_not.mpr hlt), hfd]
      refine Prog.paired_bind (paired_scanRecord rfl hmax) ?_
      rintro _ a _ ⟨rfl, rfl, ha⟩
      rw [scanImage_encode hr hmax hend] at ha
      subst ha
      refine Prog.paired_left (Prog.run_require rfl _) ?_
      refine Prog.paired_left (run_add64 ?_) ?_
      · have := db.logEndOffset.toNat_lt
        have hsize : r.size = 10 + r.payload.length := rfl
        rw [show recHdrSize.toNat = 9 from rfl]
        omega
      refine Prog.paired_bind
        (paired_replayRecord hfd hmax hr hstart hend) ?_
      rintro _ a _ ⟨rfl, rfl, ha⟩
      cases hrep : r.replay off (memOf db st) with
      | none =>
          rw [hrep] at ha
          subst ha
          exact Prog.paired_pure rfl
      | some mem =>
          rw [hrep] at ha
          subst ha
          dsimp only [replayResult]
          refine ih ?_ ?_ ?_ _ ?_
          · exact hfd
          · exact hrest
          · rw [hnext]
            exact le_trans hstart (Nat.le_add_right _ _)
          · rw [List.length_cons]
            omega

end Replaying

section Bounded

variable {w : World}

/-- What follows an operation that both programs issue. -/
theorem paired_op {α : Type} {o : Op} {p p' : o.Resp → Cmd α}
    {Q : α → α → World → Prop} (hw : w.Bounded)
    (h : ∀ r w', w'.Bounded → posix o w = (r, w') →
      Prog.Paired posix (p r) (p' r) w' Q) :
    Prog.Paired posix ((Prog.perform o : Cmd o.Resp) >>= p)
      (Prog.perform o >>= p') w Q := by
  refine Prog.paired_bind (Prog.paired_self (Prog.run_perform _ _ _)) ?_
  rintro _ _ _ ⟨rfl, rfl, rfl⟩
  exact h _ _ (bounded_posix o w hw) rfl

/-- A program that always ends, and what follows it. -/
theorem paired_total {α β : Type} {c : Cmd α} {P : α → Prop}
    {p p' : α → Cmd β} {Q : β → β → World → Prop} (hw : w.Bounded)
    (hc : Prog.Total P c)
    (h : ∀ r w', w'.Bounded → P r → Prog.Paired posix (p r) (p' r) w' Q) :
    Prog.Paired posix (c >>= p) (c >>= p') w Q := by
  refine Prog.paired_bind ((hc.paired w).keeps bounded_posix hw) ?_
  rintro _ _ _ ⟨⟨rfl, hr⟩, hw'⟩
  exact h _ _ hw' hr

end Bounded

section Total

theorem total_readFull (fd : Fd) (len : Nat) (off : UInt64) :
    Prog.Total (fun _ => True) (readFull fd len off) := by
  refine Prog.total_op (fun r => ?_)
  cases r with
  | error rc =>
      trivial
  | ok bs =>
      dsimp only
      split <;> trivial

theorem total_headerUpdate (fd : Fd) (db : Db) :
    Prog.Total (fun _ => True) (headerUpdate fd db) := by
  refine Prog.total_op (fun r => ?_)
  split
  · trivial
  · exact Prog.total_perform _

theorem total_appendRecord (fd : Fd) (type : UInt8) (payload : Bytes)
    (off : UInt64) :
    Prog.Total (fun _ => True) (appendRecord fd type payload off) := by
  have hmarker : ∀ x : UInt64, Prog.Total (fun _ => True) (do
      if (← fileSync fd) ≠ .ok then return (Rc.errIo, off)
      if (← writeFull fd [commitMarker] x) ≠ .ok then return (Rc.errIo, off)
      if (← fileSync fd) ≠ .ok then return (Rc.errIo, off)
      return (Rc.ok, x + 1) : Cmd (Rc × UInt64)) := by
    intro x
    refine Prog.total_op (fun r => ?_)
    split
    · trivial
    refine Prog.total_op (fun r => ?_)
    split
    · trivial
    refine Prog.total_op (fun r => ?_)
    split <;> trivial
  refine Prog.total_op (fun r => ?_)
  dsimp only
  split
  · trivial
  split
  · refine Prog.total_op (fun r => ?_)
    split
    · trivial
    · exact hmarker _
  · exact hmarker _

theorem total_freeDb (db : Db) :
    Prog.Total (fun _ => True) (freeDb db) := by
  have hlock : Prog.Total (fun _ => True) (do
      if db.lockFd ≠ none then
        fileUnlock db.lockFd
        lockfileClose db.lockFd : Cmd Unit) := by
    split
    · exact Prog.total_op (fun r => Prog.total_perform _)
    · trivial
  unfold freeDb
  dsimp only
  by_cases hfd : db.fd ≠ none
  · rw [if_pos hfd]
    exact Prog.total_op (fun r => hlock)
  · rw [if_neg hfd]
    exact hlock

theorem total_openFail (db : Db) (rc : Rc) :
    Prog.Total (fun _ => True) (openFail db rc) :=
  Prog.total_bind (total_freeDb db) (fun _ _ => trivial)

theorem total_openNew (db : Db) :
    Prog.Total (fun _ => True) (openNew db) := by
  refine Prog.total_op (fun now => ?_)
  have hwrite : ∀ m : Db, Prog.Total (fun _ => True) (headerWrite m.fd m) := by
    intro m
    refine Prog.total_op (fun rc => ?_)
    split
    · trivial
    · exact Prog.total_perform _
  refine Prog.total_bind (hwrite _) (fun rc _ => ?_)
  split
  · exact total_openFail _ _
  refine Prog.total_op (fun ok => ?_)
  split
  · exact total_openFail _ _
  · trivial

/-- An accepted header keeps the descriptor and leaves the header page out of
the log. -/
theorem headerDecode_ok {buf : Bytes} {db db' : Db}
    (h : headerDecode buf db = (.ok, db')) :
    db'.fd = db.fd ∧ 4096 ≤ db'.logStartOffset.toNat := by
  unfold headerDecode at h
  split at h
  · cases h
  split at h
  · cases h
  split at h
  · cases h
  split at h
  · cases h
  dsimp only at h
  split at h
  · cases h
  next hbounds =>
  injection h with _ h
  subst h
  exact ⟨rfl, UInt64.le_iff_toNat_le.mp
    (UInt64.not_lt.mp (fun hlt => hbounds (Or.inl hlt)))⟩

theorem total_headerRead (db : Db) :
    Prog.Total (fun x => x.1 = .ok →
        x.2.fd = db.fd ∧ 4096 ≤ x.2.logStartOffset.toNat)
      (headerRead db.fd db) := by
  refine Prog.total_op (fun r => ?_)
  cases r with
  | error rc =>
      exact Prog.total_pure nofun
  | ok size =>
      dsimp only
      split
      · exact Prog.total_pure nofun
      refine Prog.total_bind (total_readFull _ _ _) (fun r _ => ?_)
      cases r with
      | error rc =>
          exact Prog.total_pure nofun
      | ok buf =>
          refine Prog.total_pure (fun hok => ?_)
          have h : headerDecode buf db = (.ok, (headerDecode buf db).2) :=
            Prod.ext hok rfl
          exact headerDecode_ok h

end Total

section Wal

variable {w : World} {db : Db}

/-- The handle a WAL replay returns is on the same file and log. -/
def SameLog (db : Db) (a a' : Rc × Db) : Prop :=
  a' = a ∧ a.2.fd = db.fd ∧ a.2.logStartOffset = db.logStartOffset

/-- The record loop of `replay_wal` ends. -/
theorem paired_replayWalLoop {j : Nat} {walSize : UInt64} (fuel : Nat)
    {off : UInt64} (hw : w.Bounded)
    (hfuel : walSize.toNat - off.toNat < fuel) :
    Prog.Paired posix (replayWalLoop (some j) walSize fuel db off)
      (replayWalLoop (some j) walSize fuel db off) w
      (fun a a' _ => SameLog db a a') := by
  induction fuel generalizing db off w with
  | zero =>
      exact absurd hfuel (Nat.not_lt_zero _)
  | succ fuel ih =>
      unfold replayWalLoop
      refine Prog.paired_ite (fun _ => Prog.paired_pure ⟨rfl, rfl, rfl⟩) ?_
      intro hlt
      refine Prog.paired_bind
        (Prog.paired_self (reads_scanImage rfl (hw j)).run) ?_
      rintro _ r _ ⟨rfl, hr, rfl⟩
      cases r with
      | record type plen next =>
          obtain ⟨x, -, -, hnext, hend, hx⟩ := scanImage_record (hw j) hr.symm
          have hadv := Scans.toNat_next (hw j) hx
          have hpos := x.size_pos
          rw [← hnext] at hadv
          have hcopy : ∀ (payload : Bytes) (w' : World), w'.Bounded →
              Prog.Paired posix
                (appendRecord db.fd type payload db.logEndOffset >>= fun r =>
                  if r.1 ≠ .ok then pure (r.1, db)
                  else replayWalLoop (some j) walSize fuel
                    { db with logEndOffset := r.2 } next)
                (appendRecord db.fd type payload db.logEndOffset >>= fun r =>
                  if r.1 ≠ .ok then pure (r.1, db)
                  else replayWalLoop (some j) walSize fuel
                    { db with logEndOffset := r.2 } next) w'
                (fun a a' _ => SameLog db a a') := by
            intro payload w' hw'
            refine paired_total hw' (total_appendRecord _ _ _ _) ?_
            intro r w'' hw'' _
            refine Prog.paired_ite
              (fun _ => Prog.paired_pure ⟨rfl, rfl, rfl⟩) (fun _ => ?_)
            exact @ih w'' { db with logEndOffset := r.2 } next hw''
              (by omega)
          refine Prog.paired_ite (fun _ => ?_) (fun _ => hcopy _ _ hw)
          refine paired_op hw ?_
          intro r w' hw' _
          refine Prog.paired_ite
            (fun _ => Prog.paired_pure ⟨rfl, rfl, rfl⟩) (fun _ => ?_)
          refine paired_total hw' (total_readFull _ _ _) ?_
          intro r w'' hw'' _
          cases r with
          | error rc =>
              exact Prog.paired_pure ⟨rfl, rfl, rfl⟩
          | ok bs =>
              exact hcopy _ _ hw''
      | _ =>
          exact Prog.paired_pure ⟨rfl, rfl, rfl⟩

/-- `replay_wal` ends, whatever the sidecar file holds. -/
theorem paired_replayWal (hw : w.Bounded) :
    Prog.Paired posix (replayWal db) (replayWal db) w
      (fun a a' _ => SameLog db a a') := by
  unfold replayWal
  refine paired_op hw ?_
  intro r w₁ hw₁ hr
  cases r with
  | error rc =>
      exact Prog.paired_pure ⟨rfl, rfl, rfl⟩
  | ok x =>
      obtain ⟨j, hj⟩ : ∃ j, x.1 = some j := by
        simp only [posix] at hr
        split at hr
        · cases hr
          exact ⟨_, rfl⟩
        · cases hr
      obtain ⟨walFd, isNew⟩ := x
      cases hj
      dsimp only
      refine paired_op hw₁ ?_
      intro r w₂ hw₂ _
      cases r with
      | error rc =>
          refine paired_op hw₂ (fun _ w₃ hw₃ _ => ?_)
          refine paired_op hw₃ (fun _ w₄ hw₄ _ => ?_)
          exact Prog.paired_pure ⟨rfl, rfl, rfl⟩
      | ok walSize =>
          refine Prog.paired_ite (fun _ => ?_) (fun hlen => ?_)
          · refine paired_op hw₂ (fun _ w₃ hw₃ _ => ?_)
            refine paired_op hw₃ (fun _ w₄ hw₄ _ => ?_)
            exact Prog.paired_pure ⟨rfl, rfl, rfl⟩
          refine paired_total hw₂ (total_readFull _ _ _) ?_
          intro r w₃ hw₃ _
          cases r with
          | error rc =>
              refine paired_op hw₃ (fun _ w₄ hw₄ _ => ?_)
              exact Prog.paired_pure ⟨rfl, rfl, rfl⟩
          | ok hdr =>
              refine Prog.paired_ite (fun _ => ?_) (fun _ => ?_)
              · refine paired_op hw₃ (fun _ w₄ hw₄ _ => ?_)
                exact Prog.paired_pure ⟨rfl, rfl, rfl⟩
              refine Prog.paired_bind ((paired_replayWalLoop _ hw₃
                (by omega)).keeps bounded_posix hw₃) ?_
              rintro _ ⟨rc, db'⟩ w₄ ⟨⟨rfl, hfd, hstart⟩, hw₄⟩
              dsimp only at hfd hstart ⊢
              refine paired_op hw₄ (fun _ w₅ hw₅ _ => ?_)
              refine Prog.paired_ite
                (fun _ => Prog.paired_pure ⟨rfl, hfd, hstart⟩) (fun _ => ?_)
              refine paired_total hw₅ (total_headerUpdate _ _) ?_
              intro rc w₆ hw₆ _
              refine Prog.paired_ite
                (fun _ => Prog.paired_pure ⟨rfl, hfd, hstart⟩) (fun _ => ?_)
              refine paired_op hw₆ (fun _ w₇ hw₇ _ => ?_)
              exact Prog.paired_pure ⟨rfl, hfd, hstart⟩

end Wal

section Open

variable {w : World} {i : Nat} {db : Db}

/-- `qdb__replay_log` on a validated log. -/
theorem paired_replayLog {seen : List Frame} {rs : List Record}
    (hw : w.Bounded) (h : Validated w i db seen rs) :
    Prog.Paired posix (replayLogChecked db seen) (replayLog db) w
      (fun a a' _ => a' = a) := by
  obtain ⟨hfd, hs, rfl⟩ := h
  unfold replayLogChecked replayLog
  refine Prog.paired_bind (Prog.paired_self (reads_alloc w).run) ?_
  rintro _ _ _ ⟨rfl, rfl, rfl⟩
  refine Prog.paired_ite (fun _ => Prog.paired_pure rfl) (fun _ => ?_)
  refine paired_replayLoop hfd (hw i) hs (Nat.le_refl _) _ ?_
  have hlen := length_le_encodeLog rs
  rcases hs.inside with rfl | hin
  · simp
  · omega

/-- Log scan, log replay and header update on any file. -/
theorem paired_recoverScan (hw : w.Bounded) (hfd : db.fd = some i)
    (hlow : 4096 ≤ db.logStartOffset.toNat) :
    Prog.Paired posix (recoverScanChecked db) (recoverScan db) w
      (fun a a' _ => a' = a) := by
  unfold recoverScanChecked recoverScan
  refine Prog.paired_bind ((paired_validateLog hfd (hw i) hlow).keeps
    bounded_posix hw) ?_
  rintro ⟨⟨rc, db⟩, seen⟩ _ w₁ ⟨⟨rfl, hvalid⟩, hw₁⟩
  dsimp only at hvalid ⊢
  refine Prog.paired_ite (fun _ => Prog.paired_pure rfl) (fun hok => ?_)
  obtain ⟨rs, hv⟩ := hvalid (not_not.mp hok)
  have hv' : Validated w₁ i { db with state := none } seen rs :=
    ⟨hv.fd, hv.scans, hv.seen⟩
  refine Prog.paired_bind ((paired_replayLog hw₁ hv').keeps
    bounded_posix hw₁) ?_
  rintro _ ⟨rc, db⟩ w₂ ⟨rfl, hw₂⟩
  dsimp only
  refine Prog.paired_ite (fun _ => Prog.paired_pure rfl) (fun _ => ?_)
  refine paired_total hw₂ (total_headerUpdate _ _) ?_
  intro rc w₃ _ _
  exact Prog.paired_pure rfl

/-- WAL replay and recovery on any file. -/
theorem paired_recover (hw : w.Bounded) (hfd : db.fd = some i)
    (hlow : 4096 ≤ db.logStartOffset.toNat) :
    Prog.Paired posix (recoverChecked db) (recover db) w
      (fun a a' _ => a' = a) := by
  have hwal : Prog.Paired posix
      (if db.flags &&& flagWalPresent ≠ 0 ∨ db.flags &&& flagDirty ≠ 0 then
        replayWal db else pure (.ok, db))
      (if db.flags &&& flagWalPresent ≠ 0 ∨ db.flags &&& flagDirty ≠ 0 then
        replayWal db else pure (.ok, db)) w (fun a a' _ => SameLog db a a') :=
    Prog.paired_ite (fun _ => paired_replayWal hw)
      (fun _ => Prog.paired_pure ⟨rfl, rfl, rfl⟩)
  rw [recover_eq]
  refine Prog.paired_bind (hwal.keeps bounded_posix hw) ?_
  rintro _ ⟨rc, db'⟩ w₁ ⟨⟨rfl, hfd', hlow'⟩, hw₁⟩
  dsimp only at hfd' hlow' ⊢
  rw [hfd] at hfd'
  rw [← hlow'] at hlow
  refine Prog.paired_ite (fun _ => Prog.paired_pure rfl) (fun _ => ?_)
  unfold recoverFileChecked recoverFile
  refine paired_op hw₁ ?_
  intro r w₂ hw₂ _
  cases r with
  | error rc =>
      exact Prog.paired_pure rfl
  | ok fileSz =>
      refine Prog.paired_ite (fun _ => ?_)
        (fun _ => paired_recoverScan hw₂ hfd' hlow)
      refine paired_op hw₂ (fun rc w₃ hw₃ _ => ?_)
      exact Prog.paired_ite (fun _ => Prog.paired_pure rfl)
        (fun _ => paired_recoverScan hw₃ hfd' hlow)

theorem paired_openFail (db : Db) (rc : Rc) (w : World) :
    Prog.Paired posix (openFail db rc) (openFail db rc) w
      (fun a a' _ => a' = a) :=
  ((total_openFail db rc).paired w).mono (fun _ _ _ h => h.1)

/-- The existing-file path on any file. -/
theorem paired_openExisting (hw : w.Bounded) (hfd : db.fd = some i) :
    Prog.Paired posix (openExistingChecked db) (openExisting db) w
      (fun a a' _ => a' = a) := by
  unfold openExistingChecked openExisting
  refine paired_total hw (total_headerRead db) ?_
  rintro ⟨rc, db'⟩ w₁ hw₁ hok
  dsimp only at hok ⊢
  refine Prog.paired_ite (fun _ => paired_openFail _ _ _) (fun hrc => ?_)
  obtain ⟨hfd', hlow⟩ := hok (not_not.mp hrc)
  have hrec : Prog.Paired posix (recoverChecked { db' with nextLeaseId := 1 })
      (recover { db' with nextLeaseId := 1 }) w₁ _ :=
    paired_recover hw₁ (hfd'.trans hfd) hlow
  refine Prog.paired_bind hrec ?_
  rintro _ ⟨rc, db''⟩ w₂ rfl
  dsimp only
  exact Prog.paired_ite (fun _ => paired_openFail _ _ _)
    (fun _ => Prog.paired_pure rfl)

/-- With every file below 2^63 bytes, and whatever they hold, `qdb_open` ends
and does what its checked copy does: no check of the copy fails. -/
theorem open_any_file (leaseTimeoutS : UInt32) (w : World) (hw : w.Bounded) :
    ∃ x w', Prog.run posix (qdbOpenErrChecked leaseTimeoutS) w = some (x, w') ∧
      Prog.run posix (qdbOpenErr leaseTimeoutS) w = some (x, w') := by
  suffices h : Prog.Paired posix (qdbOpenErrChecked leaseTimeoutS)
      (qdbOpenErr leaseTimeoutS) w (fun a a' _ => a' = a) by
    obtain ⟨_, x, w', hx, hx', rfl⟩ := h
    exact ⟨x, w', hx, hx'⟩
  unfold qdbOpenErrChecked qdbOpenErr
  refine paired_op hw (fun ok₀ w₀ hw₀ _ => ?_)
  refine Prog.paired_ite (fun _ => Prog.paired_pure rfl) (fun _ => ?_)
  refine paired_op hw₀ (fun ok₁ w₁ hw₁ _ => ?_)
  refine paired_op hw₁ (fun ok₂ w₂ hw₂ _ => ?_)
  refine paired_op hw₂ (fun ok₃ w₃ hw₃ _ => ?_)
  refine Prog.paired_ite (fun _ => paired_openFail _ _ _) (fun _ => ?_)
  refine paired_op hw₃ (fun r w₄ hw₄ _ => ?_)
  cases r with
  | error rc =>
      exact paired_openFail _ _ _
  | ok lockFd =>
      refine paired_op hw₄ (fun rc w₅ hw₅ _ => ?_)
      refine Prog.paired_ite (fun _ => ?_) (fun _ => ?_)
      · exact paired_op hw₅ (fun _ w₆ _ _ => paired_openFail _ _ _)
      have hmain : ∀ w₇ : World, w₇.Bounded → Prog.Paired posix
          (do
            let db := { Db.zero with
              leaseTimeoutUs := leaseTimeoutOf leaseTimeoutS
              lockFd := lockFd }
            match ← fileOpen .main true with
            | .error rc => openFail db rc
            | .ok (fd, isNew) =>
                let db := { db with fd := fd }
                if isNew then openNew db else openExistingChecked db)
          (do
            let db := { Db.zero with
              leaseTimeoutUs := leaseTimeoutOf leaseTimeoutS
              lockFd := lockFd }
            match ← fileOpen .main true with
            | .error rc => openFail db rc
            | .ok (fd, isNew) =>
                let db := { db with fd := fd }
                if isNew then openNew db else openExisting db)
          w₇ (fun a a' _ => a' = a) := by
        intro w₇ hw₇
        refine paired_op hw₇ (fun r w₈ hw₈ hr => ?_)
        obtain ⟨j, isNew, rfl⟩ : ∃ j isNew, r = .ok (some j, isNew) := by
          simp only [posix] at hr
          split at hr <;> cases hr <;> exact ⟨_, _, rfl⟩
        refine Prog.paired_ite (fun _ => ?_)
          (fun _ => paired_openExisting hw₈ rfl)
        exact ((total_openNew _).paired w₈).mono (fun _ _ _ h => h.1)
      refine paired_op hw₅ (fun ok₄ w₆ hw₆ _ => ?_)
      refine Prog.paired_ite (fun _ => ?_) (fun _ => hmain _ hw₆)
      exact paired_op hw₆ (fun _ w₇ hw₇ _ => hmain _ hw₇)

/-- A file whose header puts the end of the log at the last offset. -/
def hostileFile : Bytes :=
  headerEncode { Db.zero with
    logStartOffset := hdrSize, logEndOffset := 0xFFFFFFFFFFFFFFFF } ++
    [1, 255, 255, 255, 255, 0, 0, 0, 0, 204]

theorem open_any_file_hostile : ∃ x w',
    Prog.run posix (qdbOpenErrChecked 0) (World.ofFile hostileFile) =
      some (x, w') ∧
    Prog.run posix (qdbOpenErr 0) (World.ofFile hostileFile) =
      some (x, w') := by
  refine open_any_file 0 (World.ofFile hostileFile) (fun i => ?_)
  have hmx := maxFileSize_eq
  change hostileFile.length ≤ maxFileSize
  unfold hostileFile
  rw [List.length_append, length_headerEncode]
  change 4096 + 10 ≤ _
  omega

end Open

end Qdb
