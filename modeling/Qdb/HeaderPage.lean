import Qdb.Image
import Qdb.RoundTrip

/-!
# The header page

`header_encode` and `qdb__header_update` fill two buffers by stores at the field
offsets: the first one zeroed, the second one left as the stack had it.  Both
buffers come out as the byte strings of the model.  Patching a header page with
the 32 bytes of later field values, any number of times, gives the page that a
full write of the last values gives, and reading it returns these values.
-/

namespace Qdb

open Lib

section Buffers

/-- Store bytes in a buffer, as `memcpy` and the `qdb__put` helpers do. -/
def store (buf : Bytes) (off : Nat) (bs : Bytes) : Bytes :=
  overwrite buf off bs

/-- The stores of both functions at the offsets `QDB_HDR_OFF_*`. -/
def storeFields (db : Db) (buf : Bytes) : Bytes :=
  let buf := store buf 0 kFileMagic
  let buf := store buf 8 (putU32le formatVersion)
  let buf := store buf 12 (putU32le pageSize)
  let buf := store buf 16 (putU64le db.createTimeUs)
  let buf := store buf 24 (putU64le db.nextMsgId)
  let buf := store buf 32 (putU64le db.logStartOffset)
  let buf := store buf 40 (putU64le db.logEndOffset)
  store buf 48 (putU32le db.flags)

/-- The buffer of `header_encode`. -/
def headerBuffer (db : Db) : Bytes :=
  let buf := storeFields db (List.replicate 4096 0)
  store buf 52 (putU32le (crc32 (buf.take hdrCrcCover)))

/-- The buffer `patch` of `qdb__header_update`, where `stack` and `patch` are
what its two buffers hold at entry. -/
def patchBuffer (db : Db) (stack patch : Bytes) : Bytes :=
  let crc := crc32 ((storeFields db stack).take hdrCrcCover)
  let patch := store patch 0 (putU64le db.nextMsgId)
  let patch := store patch 8 (putU64le db.logStartOffset)
  let patch := store patch 16 (putU64le db.logEndOffset)
  let patch := store patch 24 (putU32le db.flags)
  store patch 28 (putU32le crc)

/-- A store right behind the bytes stored so far. -/
theorem store_next {a t bs : Bytes} {off n : Nat} (ha : a.length = off)
    (hn : bs.length = n) : store (a ++ t) off bs = (a ++ bs) ++ t.drop n := by
  subst ha hn
  unfold store
  rw [overwrite_at_end, List.append_assoc]

theorem length_headerFields (db : Db) : (headerFields db).length = 52 := by
  simp [headerFields, kFileMagic]

/-- The stores give the checksummed bytes, whatever the buffer held. -/
theorem storeFields_eq (db : Db) (buf : Bytes) :
    storeFields db buf = headerFields db ++ buf.drop 52 := by
  have h0 : store buf 0 kFileMagic = kFileMagic ++ buf.drop 8 :=
    overwrite_zero buf kFileMagic
  unfold storeFields
  dsimp only
  rw [h0, store_next (by simp [kFileMagic]) (length_putU32le _),
    store_next (by simp [kFileMagic]) (length_putU32le _),
    store_next (by simp [kFileMagic]) (length_putU64le _),
    store_next (by simp [kFileMagic]) (length_putU64le _),
    store_next (by simp [kFileMagic]) (length_putU64le _),
    store_next (by simp [kFileMagic]) (length_putU64le _),
    store_next (by simp [kFileMagic]) (length_putU32le _)]
  simp only [List.drop_drop, Nat.reduceAdd]
  rfl

theorem take_storeFields (db : Db) (buf : Bytes) :
    (storeFields db buf).take hdrCrcCover = headerFields db := by
  rw [storeFields_eq]
  exact List.take_left' (length_headerFields db)

/-- The page `header_encode` fills. -/
theorem headerBuffer_eq (db : Db) : headerBuffer db = headerEncode db := by
  unfold headerBuffer
  dsimp only
  rw [take_storeFields, storeFields_eq,
    store_next (length_headerFields db) (length_putU32le _),
    List.drop_drop, List.drop_replicate]
  rfl

/-- The patch `qdb__header_update` fills. -/
theorem patchBuffer_eq (db : Db) (stack : Bytes) {patch : Bytes}
    (hlen : patch.length = 32) :
    patchBuffer db stack patch = headerPatch db := by
  have h0 : store patch 0 (putU64le db.nextMsgId) =
      putU64le db.nextMsgId ++ patch.drop 8 :=
    overwrite_zero patch _
  unfold patchBuffer
  dsimp only
  rw [take_storeFields, h0, store_next (by simp) (length_putU64le _),
    store_next (by simp) (length_putU64le _),
    store_next (by simp) (length_putU32le _),
    store_next (by simp) (length_putU32le _)]
  simp only [List.drop_drop, Nat.reduceAdd]
  rw [List.drop_eq_nil_of_le (by omega), List.append_nil]
  rfl

end Buffers

section Updates

variable {w : World} {i : Nat}

/-- One `qdb__header_update` after the other. -/
def headerUpdates (fd : Fd) : List Db → Cmd Rc
  | [] => return .ok
  | m :: ms => do
      if (← headerUpdate fd m) ≠ .ok then return .errIo
      headerUpdates fd ms

theorem run_headerWrite (m : Db) (w : World) :
    ∃ w', Prog.run posix (headerWrite (some i) m) w = some (.ok, w') ∧
      w'.content i = headerEncode m ++ (w.content i).drop 4096 := by
  have hlen := length_headerEncode m
  have hmx := maxFileSize_eq
  refine ⟨(w.issue i (.write 0 (headerEncode m))).synced i, ?_, ?_⟩
  · unfold headerWrite
    rw [Prog.run_bind, run_writeFull (List.ne_nil_of_length_pos (by omega))
      (by rw [hlen]; change 0 + 4096 ≤ _; omega), Option.bind_some,
      if_neg (by simp)]
    exact run_fileSync
  · rw [content_synced, content_issue_write, overwrite_zero, hlen]

theorem run_headerUpdate (m : Db) (w : World) :
    ∃ w', Prog.run posix (headerUpdate (some i) m) w = some (.ok, w') ∧
      w'.content i = overwrite (w.content i) 24 (headerPatch m) := by
  have hlen := length_headerPatch m
  have hmx := maxFileSize_eq
  refine ⟨(w.issue i (.write 24 (headerPatch m))).synced i, ?_, ?_⟩
  · unfold headerUpdate
    rw [Prog.run_bind, run_writeFull (List.ne_nil_of_length_pos (by omega))
      (by rw [hlen]; change 24 + 32 ≤ _; omega), Option.bind_some,
      if_neg (by simp)]
    exact run_fileSync
  · rw [content_synced, content_issue_write]

/-- A patch turns the page of one assignment into the page of another. -/
theorem overwrite_headerPatch {m m' : Db} (t : Bytes)
    (h : m'.createTimeUs = m.createTimeUs) :
    overwrite (headerEncode m ++ t) 24 (headerPatch m') =
      headerEncode m' ++ t := by
  have hmid := overwrite_mid (headerPrefix24 m.createTimeUs) (headerPatch m)
    (List.replicate 4040 0 ++ t) (headerPatch m') (by simp)
  rw [length_headerPrefix24] at hmid
  rw [headerEncode_eq, headerEncode_eq, h]
  simp only [List.append_assoc] at hmid ⊢
  exact hmid

/-- Any number of patches leaves the page of the last assignment. -/
theorem run_headerUpdates {t : Bytes} (ms : List Db) :
    ∀ {m : Db} {w : World}, w.content i = headerEncode m ++ t →
      (∀ x ∈ ms, x.createTimeUs = m.createTimeUs) →
      ∃ w', Prog.run posix (headerUpdates (some i) ms) w = some (.ok, w') ∧
        w'.content i = headerEncode (ms.getLastD m) ++ t := by
  induction ms with
  | nil =>
      intro m w hw _
      exact ⟨w, rfl, hw⟩
  | cons x ms ih =>
      intro m w hw hct
      have hx := hct x (List.mem_cons_self ..)
      obtain ⟨w1, hrun, hc⟩ := run_headerUpdate (i := i) x w
      rw [hw, overwrite_headerPatch t hx] at hc
      obtain ⟨w2, hrun2, hc2⟩ := ih hc (fun y hy =>
        (hct y (List.mem_cons_of_mem _ hy)).trans hx.symm)
      refine ⟨w2, ?_, ?_⟩
      · unfold headerUpdates
        rw [Prog.run_bind, hrun, Option.bind_some, if_neg (by simp)]
        exact hrun2
      · rw [List.getLastD_cons]
        exact hc2

/-- What `qdb__header_read` makes of a page of `header_encode`. -/
theorem reads_headerRead_page {m : Db} {t : Bytes}
    (hw : w.content i = headerEncode m ++ t)
    (hmax : (w.content i).length ≤ maxFileSize) (db : Db) :
    CmdReads (headerRead (some i) db) w
      (if hdrSize ≤ m.logStartOffset ∧ m.logStartOffset ≤ m.logEndOffset
        then .ok else .errCorrupt, db.withHeader m) := by
  have hlen := length_headerEncode m
  have hread := reads_headerRead_any rfl hmax db
  rw [hw, if_neg (by rw [List.length_append]; omega)] at hread
  have hpage : slice (headerEncode m ++ t) 0 4096 = headerEncode m := by
    rw [← hlen, slice_zero_left]
  rw [hpage] at hread
  unfold headerEncode at hread
  have hbad : (m.logStartOffset < hdrSize ∨
      m.logEndOffset < m.logStartOffset) ↔
      ¬ (hdrSize ≤ m.logStartOffset ∧
        m.logStartOffset ≤ m.logEndOffset) := by
    rw [not_and_or, UInt64.not_le, UInt64.not_le]
  rw [headerDecode_page] at hread
  simpa only [hbad, ite_not] using hread

/-- A header that was written and then updated any number of times is the page
a full write of the last field values gives, the two buffers being filled as the
code fills them; it is read back as these values, or refused when their log
offsets are not in order. -/
theorem header_updates_write_last (w : World) (i : Nat) (db m : Db)
    (ms : List Db) (hct : ∀ x ∈ ms, x.createTimeUs = m.createTimeUs)
    (hmax : (w.content i).length ≤ maxFileSize) :
    (∀ x, headerBuffer x = headerEncode x ∧
      ∀ stack patch, stack.length = 56 → patch.length = 32 →
        patchBuffer x stack patch = headerPatch x) ∧
    ∃ w1 w2 w3,
      Prog.run posix (headerWrite (some i) m) w = some (.ok, w1) ∧
      Prog.run posix (headerUpdates (some i) ms) w1 = some (.ok, w2) ∧
      Prog.run posix (headerWrite (some i) (ms.getLastD m)) w =
        some (.ok, w3) ∧
      slice (w2.content i) 0 4096 = headerEncode (ms.getLastD m) ∧
      w2.content i = w3.content i ∧
      Prog.run posix (headerRead (some i) db) w2 = some
        ((if hdrSize ≤ (ms.getLastD m).logStartOffset ∧
            (ms.getLastD m).logStartOffset ≤ (ms.getLastD m).logEndOffset
          then .ok else .errCorrupt, db.withHeader (ms.getLastD m)), w2) := by
  have hmx := maxFileSize_eq
  refine ⟨fun x => ⟨headerBuffer_eq x, fun stack patch _ hp =>
    patchBuffer_eq x stack hp⟩, ?_⟩
  obtain ⟨w1, hrun1, hc1⟩ := run_headerWrite (i := i) m w
  obtain ⟨w2, hrun2, hc2⟩ := run_headerUpdates ms hc1 hct
  obtain ⟨w3, hrun3, hc3⟩ := run_headerWrite (i := i) (ms.getLastD m) w
  have hlen := length_headerEncode (ms.getLastD m)
  refine ⟨w1, w2, w3, hrun1, hrun2, hrun3, ?_, hc2.trans hc3.symm, ?_⟩
  · rw [hc2, ← hlen, slice_zero_left]
  · refine (reads_headerRead_page hc2 ?_ db).run
    rw [hc2, List.length_append, List.length_drop]
    omega

/-- A header of a new file and two updates, the second one with a log end in
front of the log start. -/
theorem header_updates_write_last_refused :
    ∃ w1 w2 : World, ∃ db : Db,
      Prog.run posix (headerUpdates (some 0)
        [{ Db.zero with logStartOffset := 4096, logEndOffset := 4096 },
          { Db.zero with logStartOffset := 4096, logEndOffset := 5 }])
        w1 = some (.ok, w2) ∧
      Prog.run posix (headerRead (some 0) Db.zero) w2 =
        some ((.errCorrupt, db), w2) := by
  obtain ⟨-, w1, w2, -, -, hrun, -, -, -, hread⟩ := header_updates_write_last
    (World.ofFile []) 0 Db.zero Db.zero
    [{ Db.zero with logStartOffset := 4096, logEndOffset := 4096 },
      { Db.zero with logStartOffset := 4096, logEndOffset := 5 }]
    (by simp) (Nat.zero_le _)
  exact ⟨w1, w2, _, hrun, hread⟩

end Updates

end Qdb
