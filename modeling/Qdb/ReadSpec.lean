import Qdb.Disk
import Qdb.Records

/-!
# What reading a well-formed file returns

Every function of the library that only reads is specified by its result on a
file whose bytes are known: full reads, the header, a committed record.  The
specifications are statements about `Prog.Reads`, so they hold for the ideal
machine, for the machine with failing writes, and at every crash point.
-/

namespace Qdb

open Lib

/-- The program only reads in `w` and returns `a`, on either machine. -/
abbrev CmdReads {α : Type} (p : Cmd α) (w : World) (a : α) : Prop :=
  Prog.Reads posix (Faulty True) p w a

section Head

variable {R : (o : Op) → World → o.Resp → World → Prop}

/-- An operation that does not fail, at the head of a program. -/
theorem wp_op_on {β : Type} {I : World → Prop} {o : Op}
    {f : o.Resp → Cmd β} {w : World} {Q : β → World → Prop}
    (hR : ∀ o w r w', R o w r w' → Faulty True o w r w')
    (hfail : ∀ r w', ¬ o.Fails w r w') (hw : I w)
    (hf : Prog.Wp R I (f (posix o w).1) (posix o w).2 Q) :
    Prog.Wp R I (Prog.perform o >>= f) w Q := by
  refine ⟨hw, fun r t hr => ?_⟩
  rcases hR o w r t hr with h | ⟨-, h⟩
  · rw [show r = (posix o w).1 from congrArg Prod.fst h,
      show t = (posix o w).2 from congrArg Prod.snd h]
    exact hf
  · exact absurd h (hfail r t)

end Head

/-- A read at the head of a composition. -/
theorem wp_reads {α β : Type} {F : Prop} {I : World → Prop} {p : Cmd α}
    {f : α → Cmd β} {w : World} {a : α} {Q : β → World → Prop}
    (hp : CmdReads p w a) (hf : Prog.Wp (Faulty F) I (f a) w Q) :
    Prog.Wp (Faulty F) I (p >>= f) w Q :=
  Prog.wp_bind_reads Faulty.weaken hp hf

theorem isRead_of {o : Op} {w : World} (hw : (posix o w).2 = w)
    (hf : ∀ r w', ¬ o.Fails w r w') : Prog.IsRead posix (Faulty True) o w := by
  refine ⟨hw, ?_⟩
  rintro r w' (h | ⟨-, h⟩)
  · exact ⟨congrArg Prod.fst h, (congrArg Prod.snd h).trans hw⟩
  · exact absurd h (hf r w')

/-- Such an operation on the machine with failing writes. -/
theorem wp_op {β : Type} {F : Prop} {I : World → Prop} {o : Op}
    {f : o.Resp → Cmd β} {w : World} {Q : β → World → Prop}
    (hfail : ∀ r w', ¬ o.Fails w r w') (hw : I w)
    (hf : Prog.Wp (Faulty F) I (f (posix o w).1) (posix o w).2 Q) :
    Prog.Wp (Faulty F) I (Prog.perform o >>= f) w Q :=
  wp_op_on Faulty.weaken hfail hw hf

theorem isRead_pread (fd : Fd) (len : Nat) (off : UInt64) (w : World) :
    Prog.IsRead posix (Faulty True) (.pread fd len off) w := by
  apply isRead_of
  · simp only [posix]
    split
    · rfl
    · cases fd with
      | none =>
          rfl
      | some i =>
          dsimp only
          split <;> rfl
  · exact fun _ _ h => h

theorem isRead_fileSize (fd : Fd) (w : World) :
    Prog.IsRead posix (Faulty True) (.fileSize fd) w := by
  apply isRead_of
  · cases fd <;> rfl
  · exact fun _ _ h => h

theorem isRead_alloc (w : World) : Prog.IsRead posix (Faulty True) .alloc w :=
  isRead_of rfl (fun _ _ h => h)

theorem isRead_timeUs (w : World) : Prog.IsRead posix (Faulty True) .timeUs w :=
  isRead_of rfl (fun _ _ h => h)

theorem reads_alloc (w : World) : CmdReads alloc w true :=
  Prog.reads_perform (isRead_alloc w)

theorem reads_timeUs (w : World) : CmdReads timeUs w w.now :=
  Prog.reads_perform (isRead_timeUs w)

theorem reads_fileSize (i : Nat) (w : World) :
    CmdReads (fileSize (some i)) w
      (.ok (UInt64.ofNat (w.content i).length)) :=
  Prog.reads_perform (isRead_fileSize (some i) w)

section ReadFull

variable {w : World} {i : Nat} {pre bs post : Bytes} {off : UInt64}

/-- A full read of bytes that are there. -/
theorem reads_readFull {len : Nat}
    (hf : w.content i = pre ++ (bs ++ post))
    (hoff : off.toNat = pre.length) (hlen : bs.length = len)
    (hmax : pre.length ≤ maxFileSize) :
    CmdReads (readFull (some i) len off) w (.ok bs) := by
  have hread : CmdReads (pread (some i) len off) w (.ok bs) := by
    have h := Prog.reads_perform (isRead_pread (some i) len off w)
    have hr : (posix (.pread (some i) len off) w).1 = .ok bs := by
      simp only [posix]
      subst hlen
      by_cases h0 : bs.length = 0
      · rw [if_pos h0, List.length_eq_zero_iff.mp h0]
      · rw [if_neg h0, if_pos (hoff ▸ hmax), hf, hoff, slice_mid]
    rw [hr] at h
    exact h
  unfold readFull
  apply Prog.reads_bind hread
  simp only [hlen, if_true]
  exact Prog.reads_pure

/-- The checksum loop over bytes that are there. -/
theorem reads_scanChunks {plen : UInt32}
    (hf : w.content i = pre ++ (bs ++ post))
    (hoff : off.toNat = pre.length) (hlen : bs.length = plen.toNat)
    (hmax : (pre ++ bs).length ≤ maxFileSize)
    (fuel : Nat) (crc rem : UInt32)
    (hrem : rem.toNat ≤ plen.toNat) (hfuel : rem.toNat < fuel) :
    CmdReads (scanChunks (some i) off plen fuel crc rem) w
      (.ok (crc32Update crc (bs.drop (plen - rem).toNat))) := by
  induction fuel generalizing crc rem with
  | zero =>
      omega
  | succ fuel ih =>
      have hsub : (plen - rem).toNat = plen.toNat - rem.toNat :=
        UInt32.toNat_sub_of_le _ _ (UInt32.le_iff_toNat_le.mpr hrem)
      unfold scanChunks
      by_cases h0 : rem = 0
      · subst h0
        rw [if_pos rfl]
        have hd : bs.drop (plen - 0).toNat = [] := by
          simp [hlen]
        rw [hd]
        exact Prog.reads_pure
      · rw [if_neg h0]
        have hpos : 0 < rem.toNat := by
          rcases Nat.eq_zero_or_pos rem.toNat with h | h
          · exact absurd (UInt32.toNat_inj.mp h) h0
          · exact h
        obtain ⟨toRead, htr⟩ :
            ∃ k, k = if rem < 4096 then rem else 4096 := ⟨_, rfl⟩
        have htr' : toRead.toNat ≤ rem.toNat ∧ 0 < toRead.toNat := by
          rw [htr]
          split
          · exact ⟨Nat.le_refl _, hpos⟩
          · next h => exact ⟨Nat.le_of_not_lt h, by decide⟩
        have hrem' : (rem - toRead).toNat = rem.toNat - toRead.toNat :=
          UInt32.toNat_sub_of_le _ _ (UInt32.le_iff_toNat_le.mpr htr'.1)
        have hsub' : (plen - (rem - toRead)).toNat =
            plen.toNat - (rem - toRead).toNat := by
          apply UInt32.toNat_sub_of_le
          apply UInt32.le_iff_toNat_le.mpr
          omega
        -- the bytes done, the next chunk and the bytes still to come
        obtain ⟨a, b, hbs, ha⟩ : ∃ a b, bs = a ++ b ∧
            a.length = (plen - rem).toNat :=
          ⟨_, _, (List.take_append_drop (plen - rem).toNat bs).symm, by
            rw [List.length_take]
            omega⟩
        obtain ⟨c, d, rfl, hc⟩ : ∃ c d, b = c ++ d ∧
            c.length = toRead.toNat :=
          ⟨_, _, (List.take_append_drop toRead.toNat b).symm, by
            rw [List.length_take]
            rw [hbs, List.length_append] at hlen
            omega⟩
        have hblen : bs.length = a.length + (c.length + d.length) := by
          rw [hbs, List.length_append, List.length_append]
        have hfile : w.content i = (pre ++ a) ++ (c ++ (d ++ post)) := by
          rw [hf, hbs]
          simp only [List.append_assoc]
        rw [List.length_append] at hmax
        have hread : CmdReads (readFull (some i) toRead.toNat
            (off + (plen - rem).toUInt64)) w (.ok c) := by
          apply reads_readFull hfile
          · rw [UInt64.toNat_add, UInt32.toNat_toUInt64, hoff, ← ha,
              List.length_append]
            have := maxFileSize_eq
            omega
          · exact hc
          · rw [List.length_append]
            omega
        have hd1 : bs.drop (plen - rem).toNat = c ++ d := by
          rw [hbs, ← ha, List.drop_left]
        have hd2 : bs.drop (plen - (rem - toRead)).toNat = d := by
          rw [hbs, ← List.append_assoc,
            show (plen - (rem - toRead)).toNat = (a ++ c).length by
              rw [List.length_append]
              omega,
            List.drop_left]
        rw [← htr, hd1, crc32Update_append]
        apply Prog.reads_bind hread
        rw [← hd2]
        exact ih (crc32Update crc c) (rem - toRead) (by omega) (by omega)

end ReadFull

section ScanRecord

/-- `qdb__scan_record` on the bytes of a file. -/
def scanAt (f : Bytes) (off endOff : UInt64) : ScanResult :=
  if off ≥ endOff then .scanEnd
  else if endOff - off < recHdrSize + 1 then .scanPartial
  else
    let hdr := slice f off.toNat 9
    let plen := getU32le (hdr.drop 1)
    let recordEnd := off + recHdrSize + plen.toUInt64 + 1
    if plen > maxRecordPayload then .err .errCorrupt
    else if recordEnd > endOff then .scanPartial
    else if slice f (off.toNat + 9 + plen.toNat) 1 ≠ [commitMarker] then
      .scanPartial
    else if ¬ isKnownType (hdr.getD 0 0) then .err .errCorrupt
    else if crc32 (slice f (off.toNat + 9) plen.toNat) ≠
        getU32le (hdr.drop 5) then
      .err .errCorrupt
    else .record (hdr.getD 0 0) plen recordEnd

variable {w : World} {i : Nat} {f pre post : Bytes} {off endOff : UInt64}
variable {r : Record}

theorem slice_split {k len : Nat} (h : k + len ≤ f.length) :
    ∃ a c, f = a ++ (slice f k len ++ c) ∧ a.length = k ∧
      (slice f k len).length = len := by
  refine ⟨f.take k, f.drop (k + len), ?_, ?_, ?_⟩
  · unfold slice
    rw [← List.drop_drop, List.take_append_drop, List.take_append_drop]
  · rw [List.length_take]
    omega
  · rw [length_slice]
    omega

theorem reads_readFull_slice {len : Nat}
    (hf : w.content i = f) (hmax : f.length ≤ maxFileSize)
    (h : off.toNat + len ≤ f.length) :
    CmdReads (readFull (some i) len off) w (.ok (slice f off.toNat len)) := by
  obtain ⟨a, c, hs, ha, hl⟩ := slice_split h
  exact reads_readFull (hf.trans hs) ha.symm hl (by omega)

/-- A full read of `len` bytes at `off`, wherever that is. -/
def readAt (f : Bytes) (off len : Nat) : Except Rc Bytes :=
  if len = 0 then .ok []
  else if off + len ≤ f.length then .ok (slice f off len)
  else .error .errIo

theorem reads_readFull_any {len : Nat} (hf : w.content i = f)
    (hmax : f.length ≤ maxFileSize) :
    CmdReads (readFull (some i) len off) w (readAt f off.toNat len) := by
  by_cases h0 : len = 0
  · subst h0
    unfold readFull readAt
    apply Prog.reads_bind (Prog.reads_perform (isRead_pread (some i) 0 off w))
    exact Prog.reads_pure
  by_cases hin : off.toNat + len ≤ f.length
  · rw [readAt, if_neg h0, if_pos hin]
    exact reads_readFull_slice hf hmax hin
  · rw [readAt, if_neg h0, if_neg hin]
    unfold readFull
    apply Prog.reads_bind
      (Prog.reads_perform (isRead_pread (some i) len off w))
    by_cases hm : off.toNat ≤ maxFileSize
    · -- a short read
      have hlen : (slice f off.toNat len).length ≠ len := by
        rw [length_slice]
        omega
      simp only [posix, if_neg h0, hf, if_pos hm, if_neg hlen]
      exact Prog.reads_pure
    · simp only [posix, if_neg h0, if_neg hm]
      exact Prog.reads_pure

/-- `qdb__scan_record` on the bytes of a file that may end before the log
does. -/
def scanImage (f : Bytes) (off endOff : UInt64) : ScanResult :=
  if off ≥ endOff then .scanEnd
  else if endOff - off < recHdrSize + 1 then .scanPartial
  else if f.length < off.toNat + 9 then .err .errIo
  else
    let hdr := slice f off.toNat 9
    let plen := getU32le (hdr.drop 1)
    let recordEnd := off + recHdrSize + plen.toUInt64 + 1
    if plen > maxRecordPayload then .err .errCorrupt
    else if recordEnd > endOff then .scanPartial
    else if f.length < off.toNat + 9 + plen.toNat + 1 then .err .errIo
    else if slice f (off.toNat + 9 + plen.toNat) 1 ≠ [commitMarker] then
      .scanPartial
    else if ¬ isKnownType (hdr.getD 0 0) then .err .errCorrupt
    else if crc32 (slice f (off.toNat + 9) plen.toNat) ≠
        getU32le (hdr.drop 5) then
      .err .errCorrupt
    else .record (hdr.getD 0 0) plen recordEnd

/-- The scanner on any file. -/
theorem reads_scanImage (hf : w.content i = f) (hmax : f.length ≤ maxFileSize) :
    CmdReads (scanRecord (some i) off endOff) w (scanImage f off endOff) := by
  have hmx := maxFileSize_eq
  unfold scanRecord scanImage
  by_cases h1 : off ≥ endOff
  · rw [if_pos h1, if_pos h1]
    exact Prog.reads_pure
  rw [if_neg h1, if_neg h1]
  by_cases h2 : endOff - off < recHdrSize + 1
  · rw [if_pos h2, if_pos h2]
    exact Prog.reads_pure
  rw [if_neg h2, if_neg h2]
  apply Prog.reads_bind (reads_readFull_any hf hmax)
  by_cases hin : f.length < off.toNat + 9
  · rw [if_pos hin, readAt, if_neg (by omega), if_neg (by omega)]
    exact Prog.reads_pure
  rw [if_neg hin, readAt, if_neg (by omega), if_pos (by omega)]
  dsimp only
  generalize hplen : getU32le ((slice f off.toNat 9).drop 1) = plen
  have hp := plen.toNat_lt
  have hoff9 : (off + recHdrSize).toNat = off.toNat + 9 := by
    rw [UInt64.toNat_add, show recHdrSize.toNat = 9 from rfl]
    omega
  have hoffm : (off + recHdrSize + plen.toUInt64).toNat =
      off.toNat + 9 + plen.toNat := by
    rw [UInt64.toNat_add, hoff9, UInt32.toNat_toUInt64]
    omega
  by_cases h3 : plen > maxRecordPayload
  · rw [if_pos h3, if_pos h3]
    exact Prog.reads_pure
  rw [if_neg h3, if_neg h3]
  by_cases h4 : off + recHdrSize + plen.toUInt64 + 1 > endOff
  · rw [if_pos h4, if_pos h4]
    exact Prog.reads_pure
  rw [if_neg h4, if_neg h4]
  apply Prog.reads_bind (reads_readFull_any hf hmax)
  rw [hoffm]
  by_cases hin' : f.length < off.toNat + 9 + plen.toNat + 1
  · rw [if_pos hin', readAt, if_neg (by omega), if_neg (by omega)]
    exact Prog.reads_pure
  rw [if_neg hin', readAt, if_neg (by omega), if_pos (by omega)]
  dsimp only
  by_cases h5 : slice f (off.toNat + 9 + plen.toNat) 1 ≠ [commitMarker]
  · rw [if_pos h5, if_pos h5]
    exact Prog.reads_pure
  rw [if_neg h5, if_neg h5]
  by_cases h6 : ¬ isKnownType ((slice f off.toNat 9).getD 0 0)
  · rw [if_pos h6, if_pos h6]
    exact Prog.reads_pure
  rw [if_neg h6, if_neg h6]
  have hpay : off.toNat + 9 + plen.toNat ≤ f.length := by omega
  obtain ⟨a, c, hs, ha, hl⟩ := slice_split hpay
  apply Prog.reads_bind (reads_scanChunks (hf.trans hs) (hoff9.trans ha.symm)
    hl (by rw [List.length_append, ha, hl]; omega) _ _ _ (Nat.le_refl _)
    (Nat.lt_succ_self _))
  have hcrc : crc32End (crc32Update crc32Begin
      (List.drop (plen - plen).toNat
        (slice f (off.toNat + 9) plen.toNat))) =
      crc32 (slice f (off.toNat + 9) plen.toNat) := by
    rw [UInt32.sub_self]
    rfl
  dsimp only
  rw [hcrc]
  by_cases h7 : crc32 (slice f (off.toNat + 9) plen.toNat) ≠
      getU32le ((slice f off.toNat 9).drop 5)
  · rw [if_pos h7, if_pos h7]
    exact Prog.reads_pure
  · rw [if_neg h7, if_neg h7]
    exact Prog.reads_pure

/-- Inside the file the scanner reads within the log region only. -/
theorem scanImage_eq_scanAt (hmax : f.length ≤ maxFileSize)
    (hend : endOff.toNat ≤ f.length) :
    scanImage f off endOff = scanAt f off endOff := by
  have hmx := maxFileSize_eq
  unfold scanImage scanAt
  by_cases h1 : off ≥ endOff
  · rw [if_pos h1, if_pos h1]
  rw [if_neg h1, if_neg h1]
  have h1' : off.toNat < endOff.toNat := by
    rw [ge_iff_le, UInt64.le_iff_toNat_le] at h1
    omega
  by_cases h2 : endOff - off < recHdrSize + 1
  · rw [if_pos h2, if_pos h2]
  rw [if_neg h2, if_neg h2]
  have h2' : off.toNat + 10 ≤ endOff.toNat := by
    rw [UInt64.lt_iff_toNat_lt, UInt64.toNat_sub_of_le _ _
      (UInt64.le_iff_toNat_le.mpr (by omega)),
      show (recHdrSize + 1).toNat = 10 from rfl] at h2
    omega
  rw [if_neg (by omega)]
  dsimp only
  generalize hplen : getU32le ((slice f off.toNat 9).drop 1) = plen
  have hp := plen.toNat_lt
  by_cases h3 : plen > maxRecordPayload
  · rw [if_pos h3, if_pos h3]
  rw [if_neg h3, if_neg h3]
  by_cases h4 : off + recHdrSize + plen.toUInt64 + 1 > endOff
  · rw [if_pos h4, if_pos h4]
  rw [if_neg h4, if_neg h4, if_neg ?_]
  have hoffe : (off + recHdrSize + plen.toUInt64 + 1).toNat =
      off.toNat + 9 + plen.toNat + 1 := by
    rw [UInt64.toNat_add, UInt64.toNat_add, UInt64.toNat_add,
      UInt32.toNat_toUInt64, show recHdrSize.toNat = 9 from rfl,
      show (1 : UInt64).toNat = 1 from rfl]
    omega
  rw [gt_iff_lt, UInt64.lt_iff_toNat_lt, hoffe] at h4
  omega

theorem reads_scanRecord
    (hf : w.content i = f) (hmax : f.length ≤ maxFileSize)
    (hend : endOff.toNat ≤ f.length) :
    CmdReads (scanRecord (some i) off endOff) w (scanAt f off endOff) := by
  rw [← scanImage_eq_scanAt hmax hend]
  exact reads_scanImage hf hmax

theorem Record.toNat_plen (r : Record) :
    (UInt32.ofNat r.payload.length).toNat = r.payload.length := by
  have := r.fits
  simp
  omega

/-- Where a record ends. -/
theorem toNat_add_size (r : Record) (off : UInt64)
    (h : off.toNat + r.size ≤ maxFileSize) :
    (off + UInt64.ofNat r.size).toNat = off.toNat + r.size := by
  have := maxFileSize_eq
  simp
  omega

theorem slice_at (a b c : Bytes) {k len : Nat}
    (hk : k = a.length) (hl : len = b.length) :
    slice (a ++ (b ++ c)) k len = b := by
  subst hk hl
  exact slice_mid a b c

/-- A committed record is scanned as what it is. -/
theorem scanAt_encode
    (hoff : off.toNat = pre.length)
    (hmax : pre.length + r.size ≤ maxFileSize)
    (hend : pre.length + r.size ≤ endOff.toNat) :
    scanAt (pre ++ (r.encode ++ post)) off endOff =
      .record r.type (UInt32.ofNat r.payload.length)
        (off + UInt64.ofNat r.size) := by
  have hmx := maxFileSize_eq
  have hfits := r.fits
  have hsize : r.size = 10 + r.payload.length := rfl
  have hplen := r.toNat_plen
  have hhl : (recordHeader r.type r.payload).length = 9 := by
    simp [recordHeader]
  -- the parts of the record in the file
  have hhdr : slice (pre ++ (r.encode ++ post)) off.toNat 9 =
      recordHeader r.type r.payload := by
    rw [Record.encode, List.append_assoc]
    exact slice_at _ _ _ hoff hhl.symm
  have hpay : slice (pre ++ (r.encode ++ post)) (off.toNat + 9)
      r.payload.length = r.payload := by
    rw [Record.encode, List.append_assoc, ← List.append_assoc pre,
      List.append_assoc r.payload]
    exact slice_at _ _ _ (by rw [List.length_append, hhl, hoff]) rfl
  have hmark : slice (pre ++ (r.encode ++ post))
      (off.toNat + 9 + r.payload.length) 1 = [commitMarker] := by
    rw [Record.encode, List.append_assoc, ← List.append_assoc pre,
      List.append_assoc r.payload, ← List.append_assoc (pre ++ _)]
    exact slice_at _ _ _
      (by rw [List.length_append, List.length_append, hhl, hoff]) rfl
  have hg1 : getU32le ((recordHeader r.type r.payload).drop 1) =
      UInt32.ofNat r.payload.length := by
    simp [recordHeader]
  have hg5 : getU32le ((recordHeader r.type r.payload).drop 5) =
      crc32 r.payload := by
    have hd : (recordHeader r.type r.payload).drop 5 =
        putU32le (crc32 r.payload) ++ [] := by
      simp [recordHeader, putU32le]
    rw [hd, getU32le_putU32le]
  have hg0 : (recordHeader r.type r.payload).getD 0 0 = r.type := by
    rfl
  have hend' : off + recHdrSize +
      (UInt32.ofNat r.payload.length).toUInt64 + 1 =
      off + UInt64.ofNat r.size := by
    apply UInt64.toNat_inj.mp
    rw [toNat_add_size r off (by omega), UInt64.toNat_add, UInt64.toNat_add,
      UInt64.toNat_add, UInt32.toNat_toUInt64, hplen,
      show recHdrSize.toNat = 9 from rfl,
      show (1 : UInt64).toNat = 1 from rfl]
    omega
  unfold scanAt
  simp only [hhdr, hg1, hg5, hg0, hplen, hpay, hmark, hend']
  rw [if_neg (by
    rw [ge_iff_le, UInt64.le_iff_toNat_le]
    omega)]
  rw [if_neg (by
    rw [UInt64.lt_iff_toNat_lt, UInt64.toNat_sub_of_le _ _
      (UInt64.le_iff_toNat_le.mpr (by omega)),
      show (recHdrSize + 1).toNat = 10 from rfl]
    omega)]
  rw [if_neg (by
    rw [gt_iff_lt, UInt32.lt_iff_toNat_lt, hplen]
    exact Nat.not_lt.mpr hfits)]
  rw [if_neg (by
    rw [gt_iff_lt, UInt64.lt_iff_toNat_lt, toNat_add_size r off (by omega)]
    omega)]
  simp [r.known]

end ScanRecord

end Qdb
