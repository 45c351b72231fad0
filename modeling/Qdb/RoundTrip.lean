import Qdb.Api
import Qdb.Scan

/-!
# Round trip of a log

A list of records that is appended one by one to any file is scanned back as
that list, and every region that scans to its end is the encoding of the records
found.
-/

namespace Qdb

open Lib

/-- Append records one after the other. -/
def appendAll (fd : Fd) : List Record → UInt64 → Cmd (Rc × UInt64)
  | [], off => return (.ok, off)
  | r :: rs, off => do
      let (rc, next) ← appendRecord fd r.type r.payload off
      if rc ≠ .ok then return (rc, next)
      appendAll fd rs next

/-- Scan records and read their payloads until the scanner stops: what was
found, the verdict and where the scan stopped. -/
def scanAll (fd : Fd) (endOff : UInt64) :
    Nat → UInt64 →
    Cmd (List (UInt8 × UInt32 × Bytes) × ScanResult × UInt64)
  | 0, _ => .stuck
  | fuel + 1, off => do
      match ← scanRecord fd off endOff with
      | .record type plen next =>
          match ← readPayload fd (off + recHdrSize) plen with
          | .error rc => return ([], .err rc, off)
          | .ok payload =>
              let (rest, v, stop) ← scanAll fd endOff fuel next
              return ((type, plen, payload) :: rest, v, stop)
      | v => return ([], v, off)

/-- What a scan reports of a record. -/
def Record.fields (r : Record) : UInt8 × UInt32 × Bytes :=
  (r.type, UInt32.ofNat r.payload.length, r.payload)

section Append

variable {w : World} {i : Nat}

theorem run_writeFull {bs : Bytes} {off : UInt64} (hbs : bs ≠ [])
    (hmax : off.toNat + bs.length ≤ maxFileSize) :
    Prog.run posix (writeFull (some i) bs off) w =
      some (.ok, w.issue i (.write off.toNat bs)) := by
  unfold writeFull pwrite
  rw [Prog.run_perform]
  simp only [posix, if_neg hbs, if_pos hmax]

theorem run_fileSync :
    Prog.run posix (fileSync (some i)) w = some (.ok, w.synced i) := by
  unfold fileSync
  rw [Prog.run_perform]
  rfl

/-- The second half of `qdb__append_record`: the commit marker. -/
theorem run_appendMarker (off off' : UInt64) (r : Cmd (Rc × UInt64))
    (hmax : off'.toNat + 1 ≤ maxFileSize) :
    ∃ w', Prog.run posix (show Cmd (Rc × UInt64) from do
        if (← fileSync (some i)) ≠ .ok then return (.errIo, off)
        if (← writeFull (some i) [commitMarker] off') ≠ .ok then
          return (.errIo, off)
        if (← fileSync (some i)) ≠ .ok then return (.errIo, off)
        r) w = Prog.run posix r w' ∧
      w'.content i = overwrite (w.content i) off'.toNat [commitMarker] := by
  refine ⟨((w.synced i).issue i (.write off'.toNat [commitMarker])).synced i,
    ?_, ?_⟩
  · dsimp only
    rw [Prog.run_bind, run_fileSync, Option.bind_some, if_neg (by simp),
      Prog.run_bind, run_writeFull (by simp) hmax, Option.bind_some,
      if_neg (by simp), Prog.run_bind, run_fileSync, Option.bind_some,
      if_neg (by simp)]
  · rw [content_synced, content_issue_write, content_synced]

/-- `qdb__append_record` on any file. -/
theorem run_appendRecord (r : Record) (off : UInt64)
    (hmax : off.toNat + r.size ≤ maxFileSize) :
    ∃ w', Prog.run posix (appendRecord (some i) r.type r.payload off) w =
        some ((.ok, off + UInt64.ofNat r.size), w') ∧
      w'.content i = overwrite (w.content i) off.toNat r.encode := by
  have hmx := maxFileSize_eq
  have hsize : r.size = 10 + r.payload.length := rfl
  have hhl : (recordHeader r.type r.payload).length = 9 := by
    simp [recordHeader]
  have hoff9 : (off + recHdrSize).toNat = off.toNat + 9 := by
    rw [UInt64.toNat_add, show recHdrSize.toNat = 9 from rfl]
    omega
  have hoffm : (off + recHdrSize +
      (UInt32.ofNat r.payload.length).toUInt64).toNat =
      off.toNat + 9 + r.payload.length := by
    rw [UInt64.toNat_add, hoff9, UInt32.toNat_toUInt64, r.toNat_plen]
    omega
  have hend : off + recHdrSize +
      (UInt32.ofNat r.payload.length).toUInt64 + 1 =
      off + UInt64.ofNat r.size := by
    apply UInt64.toNat_inj.mp
    rw [toNat_add_size r off hmax, UInt64.toNat_add, hoffm,
      show (1 : UInt64).toNat = 1 from rfl]
    omega
  have henc : r.encode = recordHeader r.type r.payload ++ r.payload ++
      [commitMarker] := by
    rw [Record.encode, List.append_assoc]
  unfold appendRecord
  rw [Prog.run_bind, run_writeFull (by simp [recordHeader]) (by omega),
    Option.bind_some, ← hend, henc]
  by_cases hp : UInt32.ofNat r.payload.length > 0
  · have hne : r.payload ≠ [] := by
      intro h0
      rw [h0] at hp
      simp at hp
    simp only [ne_eq, not_true_eq_false, if_false, if_pos hp]
    rw [Prog.run_bind, run_writeFull hne (by rw [hoff9]; omega),
      Option.bind_some]
    simp only [not_true_eq_false, if_false]
    obtain ⟨w', hrun, hc⟩ := run_appendMarker
      (w := (w.issue i (.write off.toNat (recordHeader r.type r.payload))).issue
        i (.write (off + recHdrSize).toNat r.payload)) (i := i) off
      (off + recHdrSize + (UInt32.ofNat r.payload.length).toUInt64)
      (pure (.ok, off + recHdrSize +
        (UInt32.ofNat r.payload.length).toUInt64 + 1))
      (by omega)
    refine ⟨w', hrun, ?_⟩
    rw [hc, content_issue_write, content_issue_write, hoffm, hoff9, ← hhl,
      overwrite_overwrite, overwrite_overwrite, List.append_assoc]
  · have hnil : r.payload = [] := by
      rw [gt_iff_lt, UInt32.lt_iff_toNat_lt, r.toNat_plen] at hp
      exact List.length_eq_zero_iff.mp (by simpa using hp)
    simp only [ne_eq, not_true_eq_false, if_false, if_neg hp]
    obtain ⟨w', hrun, hc⟩ := run_appendMarker
      (w := w.issue i (.write off.toNat (recordHeader r.type r.payload)))
      (i := i) off
      (off + recHdrSize + (UInt32.ofNat r.payload.length).toUInt64)
      (pure (.ok, off + recHdrSize +
        (UInt32.ofNat r.payload.length).toUInt64 + 1))
      (by omega)
    refine ⟨w', hrun, ?_⟩
    rw [hc, content_issue_write, hoffm, ← hhl, hnil, List.append_nil,
      List.length_nil, Nat.add_zero, overwrite_overwrite]

/-- Appending a list of records writes their encodings. -/
theorem run_appendAll (r : Record) (rs : List Record) (off : UInt64)
    (hmax : off.toNat + (encodeLog (r :: rs)).length ≤ maxFileSize) :
    ∃ w', Prog.run posix (appendAll (some i) (r :: rs) off) w =
        some ((.ok, logEndOf off (r :: rs)), w') ∧
      w'.content i =
        overwrite (w.content i) off.toNat (encodeLog (r :: rs)) := by
  rw [encodeLog_cons, List.length_append, Record.length_encode] at hmax
  obtain ⟨w₁, hrun, hc⟩ := run_appendRecord (w := w) (i := i) r off (by omega)
  have hnext := toNat_add_size r off (by omega)
  induction rs generalizing r off w w₁ with
  | nil =>
      refine ⟨w₁, ?_, ?_⟩
      · unfold appendAll
        rw [Prog.run_bind, hrun, Option.bind_some, Scans.logEndOf_cons,
          logEndOf_nil]
        rfl
      · rw [hc, encodeLog_cons, encodeLog_nil, List.append_nil]
  | cons r' rs ih =>
      rw [encodeLog_cons, List.length_append, Record.length_encode] at hmax
      obtain ⟨w₂, hrun₂, hc₂⟩ := run_appendRecord (w := w₁) (i := i) r'
        (off + UInt64.ofNat r.size) (by omega)
      obtain ⟨w', hrun', hc'⟩ := ih r' (off + UInt64.ofNat r.size) (w := w₁)
        (by omega) w₂ hrun₂ hc₂ (toNat_add_size r' _ (by omega))
      refine ⟨w', ?_, ?_⟩
      · unfold appendAll
        rw [Prog.run_bind, hrun, Option.bind_some, Scans.logEndOf_cons]
        exact hrun'
      · rw [hc', hc, hnext, ← Record.length_encode, overwrite_overwrite,
          encodeLog_cons r]

end Append

/-- The payload of a record in the file. -/
theorem Scans.slice_payload {f : Bytes} {k : Nat} {r : Record}
    (h : slice f k r.size = r.encode) :
    slice f (k + 9) r.payload.length = r.payload ∧
      k + 9 + r.payload.length ≤ f.length := by
  have hhl : (recordHeader r.type r.payload).length = 9 := by
    simp [recordHeader]
  have hlen := congrArg List.length h
  have hsize : r.size = 10 + r.payload.length := rfl
  rw [length_slice, Record.length_encode] at hlen
  rw [← Record.length_encode, Record.encode] at h
  have h2 := (slice_append_iff.mp h).2
  rw [hhl] at h2
  exact ⟨(slice_append_iff.mp h2).1, by omega⟩

section ScanAll

variable {w : World} {i : Nat} {f : Bytes} {off endOff : UInt64}

theorem run_readPayload {r : Record} (hf : w.content i = f)
    (hmax : f.length ≤ maxFileSize)
    (hr : slice f off.toNat r.size = r.encode) :
    Prog.run posix (readPayload (some i) (off + recHdrSize)
      (UInt32.ofNat r.payload.length)) w = some (.ok r.payload, w) := by
  obtain ⟨hslice, hlen⟩ := Scans.slice_payload hr
  have hoff9 : (off + recHdrSize).toNat = off.toNat + 9 := by
    have := maxFileSize_eq
    rw [UInt64.toNat_add, show recHdrSize.toNat = 9 from rfl]
    omega
  have hreads : CmdReads (readFull (some i) r.payload.length
      (off + recHdrSize)) w
      (.ok (slice f (off + recHdrSize).toNat r.payload.length)) :=
    reads_readFull_slice hf hmax (by omega)
  have hread := hreads.run
  rw [hoff9, hslice] at hread
  unfold readPayload
  rw [r.toNat_plen]
  exact hread

/-- The scan loop reports what the scanner finds. -/
theorem run_scanAll {rs : List Record} {v : ScanResult}
    (hf : w.content i = f) (hmax : f.length ≤ maxFileSize)
    (h : Scans f off endOff rs v) {fuel : Nat} (hfuel : rs.length < fuel) :
    Prog.run posix (scanAll (some i) endOff fuel off) w =
      some ((rs.map Record.fields, v, logEndOf off rs), w) := by
  induction rs generalizing off fuel with
  | nil =>
      obtain ⟨fuel, rfl⟩ := Nat.exists_eq_succ_of_ne_zero (by omega : fuel ≠ 0)
      have hv := h.verdict
      rw [logEndOf_nil] at hv
      unfold scanAll
      rw [Prog.run_bind, (reads_scanImage hf hmax).run, Option.bind_some, hv,
        logEndOf_nil]
      cases hcase : v with
      | record ty plen next =>
          exact absurd hcase (h.stops ty plen next)
      | _ =>
          rfl
  | cons r rs ih =>
      obtain ⟨fuel, rfl⟩ := Nat.exists_eq_succ_of_ne_zero (by omega : fuel ≠ 0)
      obtain ⟨hr, hend, hrest⟩ := h.head hmax
      have hpay := run_readPayload hf hmax hr
      unfold scanAll
      rw [Prog.run_bind, (reads_scanImage hf hmax).run, Option.bind_some,
        scanImage_encode hr hmax hend]
      dsimp only
      rw [Prog.run_bind, hpay, Option.bind_some]
      dsimp only
      rw [Prog.run_bind, ih hrest (by simp at hfuel; omega), Option.bind_some,
        Scans.logEndOf_cons]
      rfl

/-- A scan that returns has found all there is. -/
theorem scans_of_run {fuel : Nat} {xs : List (UInt8 × UInt32 × Bytes)}
    {v : ScanResult} {stop : UInt64} {w' : World}
    (hmax : (w.content i).length ≤ maxFileSize)
    (hrun : Prog.run posix (scanAll (some i) endOff fuel off) w =
      some ((xs, v, stop), w')) :
    ∃ rs, Scans (w.content i) off endOff rs v ∧ xs = rs.map Record.fields ∧
      stop = logEndOf off rs := by
  induction fuel generalizing off xs v stop w' with
  | zero =>
      cases hrun
  | succ fuel ih =>
      unfold scanAll at hrun
      rw [Prog.run_bind, (reads_scanImage rfl hmax).run,
        Option.bind_some] at hrun
      cases hv : scanImage (w.content i) off endOff with
      | record ty plen next =>
          obtain ⟨r, rfl, rfl, rfl, hend, hr⟩ := scanImage_record hmax hv
          have hpay := run_readPayload rfl hmax hr
          rw [hv] at hrun
          dsimp only at hrun
          rw [Prog.run_bind, hpay, Option.bind_some] at hrun
          dsimp only at hrun
          rw [Prog.run_bind] at hrun
          obtain ⟨⟨⟨ys, v', stop'⟩, w₁⟩, hrest, hlast⟩ :=
            Option.bind_eq_some_iff.mp hrun
          obtain ⟨rs, hs, rfl, rfl⟩ := ih hrest
          cases hlast
          refine ⟨r :: rs, Scans.cons hmax hr hend hs, rfl, ?_⟩
          rw [Scans.logEndOf_cons]
      | _ =>
          rw [hv] at hrun
          cases hrun
          exact ⟨[], Scans.nil hv nofun, rfl, (logEndOf_nil _).symm⟩

end ScanAll

/-- Records that are appended to any file are scanned back as they are, a region
that scans to its end is the encoding of what was found, and the records the
library writes are within the limit of the scanner. -/
theorem log_round_trip :
    (∀ (w : World) (i : Nat) (rs : List Record) (off : UInt64),
      (w.content i).length ≤ maxFileSize →
      off.toNat + (encodeLog rs).length ≤ maxFileSize →
      ∃ w' endOff,
        Prog.run posix (appendAll (some i) rs off) w =
          some ((.ok, endOff), w') ∧
        endOff.toNat = off.toNat + (encodeLog rs).length ∧
        ∀ fuel, rs.length < fuel →
          Prog.run posix (scanAll (some i) endOff fuel off) w' =
            some ((rs.map Record.fields, .scanEnd, endOff), w')) ∧
    (∀ (w : World) (i fuel : Nat) (off endOff stop : UInt64)
      (xs : List (UInt8 × UInt32 × Bytes)) (w' : World),
      (w.content i).length ≤ maxFileSize → off ≤ endOff →
      Prog.run posix (scanAll (some i) endOff fuel off) w =
        some ((xs, .scanEnd, stop), w') →
      ∃ rs, xs = rs.map Record.fields ∧ stop = endOff ∧
        slice (w.content i) off.toNat (endOff.toNat - off.toNat) =
          encodeLog rs) ∧
    (∀ (id : UInt64) (name : QueueName) (data : Bytes),
      data.length ≤ msgMaxLen →
      (pushPayload id name data).length ≤ maxRecordPayload.toNat) ∧
    (∀ a b c : UInt64, (leasePayload a b c).length ≤ maxRecordPayload.toNat ∧
      (ackPayload a b).length ≤ maxRecordPayload.toNat ∧
      (checkpointPayload a b c).length ≤ maxRecordPayload.toNat) := by
  refine ⟨?_, ?_, ?_, ?_⟩
  · intro w i rs off hlen hmax
    obtain ⟨w', hrun, hbytes, hlen'⟩ : ∃ w', Prog.run posix
        (appendAll (some i) rs off) w = some ((.ok, logEndOf off rs), w') ∧
        slice (w'.content i) off.toNat (encodeLog rs).length = encodeLog rs ∧
        (w'.content i).length ≤ maxFileSize := by
      cases rs with
      | nil =>
          refine ⟨w, ?_, by simp [slice], hlen⟩
          rw [logEndOf_nil]
          rfl
      | cons r rs =>
          obtain ⟨w', hrun, hc⟩ := run_appendAll (w := w) (i := i) r rs off hmax
          refine ⟨w', hrun, ?_, ?_⟩
          · rw [hc]
            exact slice_overwrite_self _ _ _
          · rw [hc, length_overwrite]
            omega
    refine ⟨w', logEndOf off rs, hrun, toNat_logEndOf (Or.inr hmax), ?_⟩
    intro fuel hfuel
    exact run_scanAll rfl hlen' (Scans.of_encodeLog hlen' hbytes) hfuel
  · intro w i fuel off endOff stop xs w' hmax hle hrun
    obtain ⟨rs, hs, rfl, rfl⟩ := scans_of_run hmax hrun
    have hstop := hs.toNat_stop hmax
    have heq : logEndOf off rs = endOff := hs.stop_eq hmax hle
    refine ⟨rs, rfl, heq, ?_⟩
    rw [← heq, hstop, Nat.add_sub_cancel_left]
    exact hs.bytes
  · intro id name data hdata
    have hname : name.bytes.length ≤ 255 := name.length_le
    have hdata : data.length ≤ 67108864 := hdata
    change _ ≤ 67109376
    simp only [pushPayload, List.length_append, length_putU64le,
      List.length_singleton]
    omega
  · intro a b c
    change _ ≤ 67109376 ∧ _ ≤ 67109376 ∧ _ ≤ 67109376
    simp [leasePayload, ackPayload, checkpointPayload]

/-- An acknowledgement appended to an empty file behind its header page. -/
theorem log_round_trip_ack : ∃ w' endOff,
    Prog.run posix (appendAll (some 0) [ackRecord 1 1] 4096) World.empty =
      some ((.ok, endOff), w') ∧
    endOff.toNat = 4096 + (encodeLog [ackRecord 1 1]).length ∧
    Prog.run posix (scanAll (some 0) endOff 2 4096) w' =
      some (([ackRecord 1 1].map Record.fields, .scanEnd, endOff), w') := by
  have hsize : (encodeLog [ackRecord 1 1]).length = 26 := by
    simp [Record.size, ackRecord, ackPayload]
  obtain ⟨w', endOff, hrun, hend, hscan⟩ := log_round_trip.1 World.empty 0
    [ackRecord 1 1] 4096 (Nat.zero_le _) (by
      have := maxFileSize_eq
      rw [hsize]
      change 4096 + 26 ≤ maxFileSize
      omega)
  exact ⟨w', endOff, hrun, hend, hscan 2 (by simp)⟩

end Qdb
