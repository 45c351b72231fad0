import Qdb.Api
import Qdb.Image

/-!
# Torn tails

What an interrupted append leaves behind the last committed record: a part of a
record, a record whose commit marker is missing, or zero bytes.  `validate_log`
cuts the file exactly in front of it and the replay that follows sees the
committed records.
-/

namespace Qdb

open Lib

/-- What may stand behind the last committed record. -/
inductive TornTail : Bytes → Prop
  /-- A part of a record. -/
  | cut (r : Record) (n : Nat) (hpos : 0 < n) (hlt : n < r.encode.length) :
      TornTail (r.encode.take n)
  /-- A record with another byte in place of its commit marker. -/
  | unmarked (r : Record) (b : UInt8) (hb : b ≠ commitMarker) :
      TornTail (recordHeader r.type r.payload ++ (r.payload ++ [b]))
  /-- Zero bytes. -/
  | zeros (n : Nat) (hpos : 0 < n) : TornTail (List.replicate n 0)

section Scanner

variable {f t : Bytes} {off endOff : UInt64}

/-- A record that reaches behind the log or has no commit marker. -/
theorem scanAt_partial {plen : UInt32}
    (hoff : off.toNat + 10 ≤ endOff.toNat) (hmax : off.toNat ≤ maxFileSize)
    (hplen : getU32le ((slice f off.toNat 9).drop 1) = plen)
    (hlimit : plen ≤ maxRecordPayload)
    (h : endOff.toNat < off.toNat + 10 + plen.toNat ∨
      slice f (off.toNat + 9 + plen.toNat) 1 ≠ [commitMarker]) :
    scanAt f off endOff = .scanPartial := by
  have hmx := maxFileSize_eq
  have hp := plen.toNat_lt
  have hend : (off + recHdrSize + plen.toUInt64 + 1).toNat =
      off.toNat + 10 + plen.toNat := by
    rw [UInt64.toNat_add, UInt64.toNat_add, UInt64.toNat_add,
      UInt32.toNat_toUInt64, show recHdrSize.toNat = 9 from rfl,
      show (1 : UInt64).toNat = 1 from rfl]
    omega
  unfold scanAt
  dsimp only
  rw [hplen, if_neg (by
    rw [ge_iff_le, UInt64.le_iff_toNat_le]
    omega), if_neg (by
    rw [UInt64.lt_iff_toNat_lt, UInt64.toNat_sub_of_le _ _
      (UInt64.le_iff_toNat_le.mpr (by omega)),
      show (recHdrSize + 1).toNat = 10 from rfl]
    omega), if_neg (UInt32.not_lt.mpr hlimit)]
  by_cases hbehind : off + recHdrSize + plen.toUInt64 + 1 > endOff
  · rw [if_pos hbehind]
  · rw [if_neg hbehind]
    rw [gt_iff_lt, UInt64.lt_iff_toNat_lt, hend] at hbehind
    rcases h with h | h
    · exact absurd h hbehind
    · rw [if_pos h]

/-- Less than a record header and a commit marker. -/
theorem scanAt_short (hlt : off.toNat < endOff.toNat)
    (hshort : endOff.toNat < off.toNat + 10) :
    scanAt f off endOff = .scanPartial := by
  unfold scanAt
  rw [if_neg (by
    rw [ge_iff_le, UInt64.le_iff_toNat_le]
    omega), if_pos (by
    rw [UInt64.lt_iff_toNat_lt, UInt64.toNat_sub_of_le _ _
      (UInt64.le_iff_toNat_le.mpr (by omega)),
      show (recHdrSize + 1).toNat = 10 from rfl]
    omega)]

theorem getU32le_recordHeader (r : Record) :
    getU32le ((recordHeader r.type r.payload).drop 1) =
      UInt32.ofNat r.payload.length := by
  simp [recordHeader]

theorem Record.plen_le (r : Record) :
    UInt32.ofNat r.payload.length ≤ maxRecordPayload := by
  rw [UInt32.le_iff_toNat_le, r.toNat_plen]
  exact r.fits

/-- A part of a slice that is known. -/
theorem slice_of_slice {k n a len : Nat} (h : slice f k n = t)
    (ha : a + len ≤ n) : slice f (k + a) len = slice t a len := by
  rw [← h]
  unfold slice
  rw [List.drop_take, List.take_take, List.drop_drop, min_eq_left (by omega)]

/-- The scanner takes a torn tail for a partial record. -/
theorem TornTail.scanImage (h : TornTail t)
    (hmax : f.length ≤ maxFileSize)
    (ht : slice f off.toNat t.length = t)
    (hend : endOff.toNat = off.toNat + t.length) :
    Qdb.scanImage f off endOff = .scanPartial := by
  have hne : 0 < t.length := by
    cases h with
    | cut r n hpos hlt =>
        rw [List.length_take]
        omega
    | unmarked r b hb =>
        simp
    | zeros n hpos =>
        simpa using hpos
  have hin : off.toNat + t.length ≤ f.length := by
    rcases slice_full ht with h0 | hin
    · rw [h0] at hne
      exact absurd hne (Nat.lt_irrefl 0)
    · exact hin
  rw [scanImage_eq_scanAt hmax (by omega)]
  by_cases hshort : t.length < 10
  · exact scanAt_short (by omega) (by omega)
  have hhdr : slice f off.toNat 9 = slice t 0 9 :=
    slice_of_slice (a := 0) ht (by omega)
  cases h with
  | cut r n hpos hlt =>
      rw [Record.length_encode] at hlt
      have hsize : r.size = 10 + r.payload.length := rfl
      rw [List.length_take, Record.length_encode] at hend hshort
      have hhead : slice (r.encode.take n) 0 9 =
          recordHeader r.type r.payload := by
        have hn : 9 ≤ n := by omega
        unfold slice
        rw [List.drop_zero, List.take_take, min_eq_left hn]
        exact slice_at [] (recordHeader r.type r.payload)
          (r.payload ++ [commitMarker]) rfl (by simp [recordHeader])
      have hplen : getU32le ((slice f off.toNat 9).drop 1) =
          UInt32.ofNat r.payload.length := by
        rw [hhdr, hhead, getU32le_recordHeader]
      apply scanAt_partial (by omega) (by omega) hplen r.plen_le
      left
      rw [r.toNat_plen]
      omega
  | unmarked r b hb =>
      have hhl : (recordHeader r.type r.payload).length = 9 := by
        simp [recordHeader]
      have hlen : (recordHeader r.type r.payload ++
          (r.payload ++ [b])).length = 10 + r.payload.length := by
        simp only [List.length_append, hhl, List.length_singleton]
        omega
      have hhead : slice (recordHeader r.type r.payload ++
          (r.payload ++ [b])) 0 9 = recordHeader r.type r.payload :=
        slice_at [] _ _ rfl hhl.symm
      have hmark : slice f (off.toNat + 9 + r.payload.length) 1 = [b] := by
        rw [Nat.add_assoc, slice_of_slice ht (by omega),
          ← List.append_assoc]
        exact slice_at (recordHeader r.type r.payload ++ r.payload) [b] []
          (by rw [List.length_append, hhl]) rfl
      rw [hlen] at hend hshort
      have hplen : getU32le ((slice f off.toNat 9).drop 1) =
          UInt32.ofNat r.payload.length := by
        rw [hhdr, hhead, getU32le_recordHeader]
      apply scanAt_partial (by omega) (by omega) hplen r.plen_le
      right
      rw [r.toNat_plen, hmark]
      simpa using hb
  | zeros n hpos =>
      rw [List.length_replicate] at hend hshort ht
      have hzeros : ∀ a len, a + len ≤ n →
          slice (List.replicate n (0 : UInt8)) a len =
            List.replicate len 0 := by
        intro a len hle
        unfold slice
        rw [List.drop_replicate, List.take_replicate, min_eq_left (by omega)]
      have hplen : getU32le ((slice f off.toNat 9).drop 1) = 0 := by
        rw [hhdr, hzeros 0 9 (by omega)]
        rfl
      have hmark : slice f (off.toNat + 9) 1 = [0] := by
        rw [slice_of_slice ht (by omega), hzeros 9 1 (by omega)]
        rfl
      apply scanAt_partial (by omega) (by omega) hplen (by decide)
      right
      rw [show (0 : UInt32).toNat = 0 from rfl, Nat.add_zero, hmark]
      decide

end Scanner

section Validate

variable {w : World} {i : Nat} {db : Db} {rs : List Record} {t : Bytes}
variable {e : UInt64}

/-- The records `rs` fill the log region of the handle up to `e`, and `t` fills
the rest of it. -/
structure Tailed (w : World) (i : Nat) (db : Db) (rs : List Record)
    (e : UInt64) (t : Bytes) : Prop where
  fd : db.fd = some i
  limit : (w.content i).length ≤ maxFileSize
  lower : hdrSize ≤ db.logStartOffset
  log : slice (w.content i) db.logStartOffset.toNat (encodeLog rs).length =
    encodeLog rs
  stop : e.toNat = db.logStartOffset.toNat + (encodeLog rs).length
  tail : slice (w.content i) e.toNat t.length = t
  logEnd : db.logEndOffset.toNat = e.toNat + t.length

/-- `qdb__replay_log` builds the state of exactly the records `rs`, or refuses
them. -/
def ReplaysAs (w : World) (db : Db) (rs : List Record) : Prop :=
  match replayRecords db.logStartOffset rs (memOf db .empty) with
  | some mem =>
      Prog.run posix (replayLog db) w = some ((.ok, db.withMem mem), w)
  | none =>
      ∃ db', Prog.run posix (replayLog db) w = some ((.errCorrupt, db'), w)

theorem Framed.replaysAs (h : Framed w i db rs) : ReplaysAs w db rs := by
  unfold ReplaysAs
  cases hrep : replayRecords db.logStartOffset rs (memOf db .empty) with
  | some mem =>
      exact (h.reads_replayLog hrep).run
  | none =>
      obtain ⟨db', -, -, hr⟩ := h.reads_replayLog_corrupt hrep
      exact ⟨db', hr.run⟩

namespace Tailed

theorem fits (h : Tailed w i db rs e t) : Fits db.logStartOffset rs := by
  rcases slice_full h.log with h0 | hreach
  · exact Or.inl (encodeLog_eq_nil h0)
  · have := h.limit
    right
    omega

theorem stop_eq (h : Tailed w i db rs e t) :
    e = logEndOf db.logStartOffset rs := by
  apply UInt64.toNat_inj.mp
  rw [h.stop, toNat_logEndOf h.fits]

/-- Without a tail the log is in order. -/
theorem framed (h : Tailed w i db rs e []) : Framed w i db rs where
  fd := h.fd
  limit := h.limit
  bytes := h.log
  stop := h.logEnd.trans h.stop

/-- The scan stops in front of a torn tail. -/
theorem scans (h : Tailed w i db rs e t) (ht : TornTail t) :
    Scans (w.content i) db.logStartOffset db.logEndOffset rs
      .scanPartial where
  bytes := h.log
  inside := by
    right
    rw [h.logEnd, h.stop]
    omega
  verdict := by
    rw [← h.stop_eq]
    exact ht.scanImage h.limit h.tail h.logEnd
  stops := nofun

theorem reach (h : Tailed w i db rs e t) (ht : TornTail t) :
    4096 ≤ e.toNat ∧ e.toNat ≤ (w.content i).length := by
  have hlower := UInt64.le_iff_toNat_le.mp h.lower
  rw [show hdrSize.toNat = 4096 from rfl] at hlower
  have hstop := h.stop
  refine ⟨by omega, ?_⟩
  rcases slice_full h.tail with rfl | hreach
  · have hv := (h.scans ht).verdict
    rw [← h.stop_eq, Scans.scanImage_past] at hv
    · cases hv
    · rw [UInt64.lt_iff_toNat_lt, h.logEnd]
      simp
  · omega

end Tailed

/-- The bytes the file has once it is cut at `e`. -/
def cutBytes (f : Bytes) (e : UInt64) (db : Db) : Bytes :=
  overwrite (f.take e.toNat) 24 (headerPatch { db with logEndOffset := e })

theorem content_relabelled {s : FileState} (h : e.toNat ≤ s.content.length) :
    (s.relabelled e db).content = cutBytes s.content e db := by
  unfold FileState.relabelled FileState.shortened cutBytes
  rw [FileState.content_issue, FileState.content_issue]
  simp [Pending.apply, resize, Nat.sub_eq_zero_of_le h]

theorem length_cutBytes {f : Bytes} (hpage : 4096 ≤ e.toNat)
    (h : e.toNat ≤ f.length) : (cutBytes f e db).length = e.toNat := by
  unfold cutBytes
  rw [length_overwrite, length_headerPatch, List.length_take]
  omega

/-- The log in front of the cut is kept. -/
theorem slice_cutBytes {f : Bytes} {k len : Nat} (hk : 4096 ≤ k)
    (hle : k + len ≤ e.toNat) (h : e.toNat ≤ f.length) :
    slice (cutBytes f e db) k len = slice f k len := by
  unfold cutBytes
  rw [slice_overwrite_right (by rw [length_headerPatch]; omega)
    (by rw [List.length_take]; omega)]
  exact (slice_append_left _ (f.drop e.toNat)
    (by rw [List.length_take]; omega)).symm.trans
    (by rw [List.take_append_drop])

/-- The header says where the file was cut. -/
theorem HasHeader.cutBytes {f : Bytes} (hh : HasHeader f db)
    (hle : db.logStartOffset ≤ e) (h : e.toNat ≤ f.length) :
    HasHeader (cutBytes f e db) { db with logEndOffset := e } where
  page := by
    have hlower := UInt64.le_iff_toNat_le.mp hh.lower
    have hle := UInt64.le_iff_toNat_le.mp hle
    rw [show hdrSize.toNat = 4096 from rfl] at hlower
    rw [length_cutBytes (by omega) h]
    omega
  head := by
    have hlower := UInt64.le_iff_toNat_le.mp hh.lower
    have hle := UInt64.le_iff_toNat_le.mp hle
    rw [show hdrSize.toNat = 4096 from rfl] at hlower
    unfold Qdb.cutBytes
    rw [slice_overwrite_left _ (by omega) (by rw [List.length_take]; omega),
      ← slice_append_left _ (f.drop e.toNat)
        (by rw [List.length_take]; omega), List.take_append_drop]
    exact hh.head
  patch := by
    unfold Qdb.cutBytes
    rw [← length_headerPatch { db with logEndOffset := e }]
    exact slice_overwrite_self _ _ _
  lower := hh.lower
  order := hle

/-- A torn tail is cut exactly behind the last committed record, the new end is
in the header on the disk, and the replay that follows builds the state of the
committed records.  Without a tail nothing changes. -/
theorem torn_tail_is_cut (h : Tailed w i db rs e t) :
    (t = [] →
      Prog.run posix (validateLog db) w = some ((.ok, db), w) ∧
      ReplaysAs w { db with state := none } rs) ∧
    (TornTail t → ∃ w',
      Prog.run posix (validateLog db) w =
        some ((.ok, { db with logEndOffset := e }), w') ∧
      w.SameBut i w' ∧ w'.files i = ⟨cutBytes (w.content i) e db, []⟩ ∧
      (w'.content i).length = e.toNat ∧
      (HasHeader (w.content i) db →
        HasHeader (w'.content i) { db with logEndOffset := e }) ∧
      ReplaysAs w' { db with logEndOffset := e, state := none } rs) := by
  refine ⟨?_, ?_⟩
  · rintro rfl
    exact ⟨h.framed.reads_validateLog.run, h.framed.withoutState.replaysAs⟩
  · intro ht
    obtain ⟨hpage, hreach⟩ := h.reach ht
    have hlimit := h.limit
    have hlower := UInt64.le_iff_toNat_le.mp h.lower
    rw [show hdrSize.toNat = 4096 from rfl] at hlower
    obtain ⟨x, w', hrun, rfl, hw'⟩ := (wp_validateLog_torn
      (I := fun _ => True) (Q := fun x w' =>
        x = (.ok, { db with logEndOffset := e }) ∧
        InFile i w (· = ((w.files i).relabelled e db).sync) w')
      h.fd rfl h.limit (h.scans ht) h.stop_eq (by omega) trivial
      (fun _ _ => trivial) (fun _ _ => trivial)
      (fun _ hw' => ⟨trivial, rfl, hw'⟩)).run (faulty_posix False)
    have hfile : w'.files i = ⟨cutBytes (w.content i) e db, []⟩ := by
      rw [hw'.2, FileState.sync, content_relabelled hreach]
      rfl
    have hcontent : w'.content i = cutBytes (w.content i) e db := by
      rw [World.content, hfile]
      rfl
    refine ⟨w', hrun, hw'.1, hfile, ?_, ?_, ?_⟩
    · rw [hcontent, length_cutBytes hpage hreach]
    · intro hh
      rw [hcontent]
      apply hh.cutBytes _ hreach
      rw [UInt64.le_iff_toNat_le, h.stop]
      omega
    · have hstop := h.stop
      exact Framed.replaysAs (i := i)
        { fd := h.fd
          limit := by
            rw [hcontent, length_cutBytes hpage hreach]
            omega
          bytes := by
            rw [hcontent]
            exact (slice_cutBytes hlower (by omega) hreach).trans h.log
          stop := h.stop }

/-- The header of a log with one acknowledgement and one more byte. -/
def tornDb : Db :=
  { Db.zero with fd := some 0, logStartOffset := 4096, logEndOffset := 4123 }

/-- A file with that header and that log. -/
def tornFile : Bytes :=
  headerEncode tornDb ++ ((ackRecord 1 1).encode ++ [0])

theorem length_tornFile : tornFile.length = 4123 := by
  have hpage := length_headerEncode tornDb
  have hsize : (ackRecord 1 1).encode.length = 26 := by
    simp [Record.size, ackRecord, ackPayload]
  unfold tornFile
  rw [List.length_append, List.length_append, hpage, hsize]
  rfl

theorem tornFile_image : Image (World.ofFile tornFile) 0 tornFile := by
  apply image_ofFile
  have := maxFileSize_eq
  rw [length_tornFile]
  omega

theorem tornFile_tailed :
    Tailed (World.ofFile tornFile) 0 tornDb [ackRecord 1 1] 4122 [0] := by
  have hmx := maxFileSize_eq
  have hpage := length_headerEncode tornDb
  have hsize : (ackRecord 1 1).encode.length = 26 := by
    simp [Record.size, ackRecord, ackPayload]
  have hlog : encodeLog [ackRecord 1 1] = (ackRecord 1 1).encode := by
    rw [encodeLog_cons, encodeLog_nil, List.append_nil]
  have hcontent : (World.ofFile tornFile).content 0 =
      headerEncode tornDb ++ ((ackRecord 1 1).encode ++ [0]) := rfl
  exact
    { fd := rfl
      limit := tornFile_image.limit
      lower := by decide
      log := by
        rw [hcontent, hlog]
        exact slice_at _ _ _ hpage.symm rfl
      stop := by
        rw [hlog, hsize]
        rfl
      tail := by
        have hk : (4122 : UInt64).toNat =
            (headerEncode tornDb ++ (ackRecord 1 1).encode).length := by
          rw [List.length_append, hpage, hsize]
          rfl
        rw [hcontent, ← List.append_assoc]
        have hmid := slice_mid
          (headerEncode tornDb ++ (ackRecord 1 1).encode) [0] []
        rw [List.append_nil, ← hk] at hmid
        exact hmid
      logEnd := rfl }

/-- A log with a zero byte behind its only record. -/
theorem torn_tail_is_cut_zero : ∃ w',
    Prog.run posix (validateLog tornDb) (World.ofFile tornFile) =
      some ((.ok, { tornDb with logEndOffset := 4122 }), w') ∧
    (w'.content 0).length = 4122 := by
  obtain ⟨w', hrun, -, -, hlen, -⟩ :=
    (torn_tail_is_cut tornFile_tailed).2 (.zeros 1 (by decide))
  exact ⟨w', hrun, hlen⟩

end Validate

end Qdb
