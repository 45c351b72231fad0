import Qdb.Session

/-!
# Scanning any file

The record scanner on a file whose bytes are arbitrary: it finds a list of
committed records and then stops with a verdict.  A record it finds is byte for
byte the encoding of that record, so the list is determined by the file.
-/

namespace Qdb

open Lib

section Frame

variable {f : Bytes} {off endOff : UInt64}

/-- Nine bytes as the fields of a record header. -/
theorem header_fields {bs : Bytes} (h : bs.length = 9) :
    bs = bs.getD 0 0 :: (putU32le (getU32le (bs.drop 1)) ++
      putU32le (getU32le (bs.drop 5))) := by
  match bs, h with
  | [t, a, b, c, d, x, y, z, u], _ =>
      simp only [List.drop_succ_cons, List.drop_zero, putU32le_getU32le]
      rfl

/-- Once its reads are inside the file, the scanner looks at nothing else. -/
theorem scanImage_eq_of_reads (h9 : off.toNat + 9 ≤ f.length)
    (hm : off.toNat + 9 +
      (getU32le ((slice f off.toNat 9).drop 1)).toNat + 1 ≤ f.length) :
    scanImage f off endOff = scanAt f off endOff := by
  unfold scanImage scanAt
  dsimp only
  rw [if_neg (Nat.not_lt.mpr h9), if_neg (Nat.not_lt.mpr hm)]

/-- A committed record in the file. -/
theorem scanImage_encode {r : Record}
    (hs : slice f off.toNat r.size = r.encode)
    (hmax : f.length ≤ maxFileSize)
    (hend : off.toNat + r.size ≤ endOff.toNat) :
    scanImage f off endOff = .record r.type (UInt32.ofNat r.payload.length)
      (off + UInt64.ofNat r.size) := by
  have hsize : r.size = 10 + r.payload.length := rfl
  have hin : off.toNat + r.size ≤ f.length := by
    have hlen := congrArg List.length hs
    rw [length_slice, Record.length_encode] at hlen
    omega
  obtain ⟨pre, post, hf, hpre, -⟩ := slice_split hin
  rw [hs] at hf
  have hhl : (recordHeader r.type r.payload).length = 9 := by
    simp [recordHeader]
  have hhdr : slice f off.toNat 9 = recordHeader r.type r.payload := by
    rw [hf, Record.encode, List.append_assoc]
    exact slice_at _ _ _ hpre.symm hhl.symm
  rw [scanImage_eq_of_reads (by omega) ?_]
  · rw [hf]
    exact scanAt_encode hpre.symm (by omega) (by omega)
  · rw [hhdr]
    have hg : getU32le ((recordHeader r.type r.payload).drop 1) =
        UInt32.ofNat r.payload.length := by
      simp [recordHeader]
    rw [hg, r.toNat_plen]
    omega

/-- Whatever the scanner accepts is a committed record. -/
theorem scanImage_record {ty : UInt8} {plen : UInt32} {next : UInt64}
    (hmax : f.length ≤ maxFileSize)
    (h : scanImage f off endOff = .record ty plen next) :
    ∃ r : Record, ty = r.type ∧ plen = UInt32.ofNat r.payload.length ∧
      next = off + UInt64.ofNat r.size ∧
      off.toNat + r.size ≤ endOff.toNat ∧
      slice f off.toNat r.size = r.encode := by
  have hmx := maxFileSize_eq
  unfold scanImage at h
  split at h
  · cases h
  split at h
  · cases h
  split at h
  · cases h
  rename_i h9
  dsimp only at h
  generalize hplen : getU32le ((slice f off.toNat 9).drop 1) = p at h
  split at h
  · cases h
  rename_i hlimit
  split at h
  · cases h
  rename_i hend
  split at h
  · cases h
  rename_i hm
  split at h
  · cases h
  rename_i hmark
  split at h
  · cases h
  rename_i hknown
  split at h
  · cases h
  rename_i hcrc
  injection h with hty hpl hnext
  rw [not_not] at hmark hknown hcrc
  have hpayload : (slice f (off.toNat + 9) p.toNat).length = p.toNat := by
    rw [length_slice]
    omega
  have hfits : (slice f (off.toNat + 9) p.toNat).length ≤ 67109376 := by
    rw [hpayload]
    rw [gt_iff_lt, UInt32.lt_iff_toNat_lt] at hlimit
    exact Nat.not_lt.mp hlimit
  have hp : UInt32.ofNat p.toNat = p := by
    simp
  have hrec : (off + recHdrSize + p.toUInt64 + 1).toNat =
      off.toNat + 9 + p.toNat + 1 := by
    rw [UInt64.toNat_add, UInt64.toNat_add, UInt64.toNat_add,
      UInt32.toNat_toUInt64, show recHdrSize.toNat = 9 from rfl,
      show (1 : UInt64).toNat = 1 from rfl]
    omega
  refine ⟨⟨(slice f off.toNat 9).getD 0 0, slice f (off.toNat + 9) p.toNat,
    hknown, hfits⟩, hty.symm, ?_, ?_, ?_, ?_⟩
  · rw [hpayload, hp]
    exact hpl.symm
  · rw [← hnext]
    apply UInt64.toNat_inj.mp
    change _ = (off + UInt64.ofNat (10 + (slice f _ _).length)).toNat
    rw [hrec, hpayload, UInt64.toNat_add, UInt64.toNat_ofNat']
    omega
  · change off.toNat + (10 + (slice f _ _).length) ≤ _
    rw [gt_iff_lt, UInt64.lt_iff_toNat_lt, hrec] at hend
    rw [hpayload]
    omega
  · change slice f off.toNat (10 + (slice f _ _).length) =
      recordHeader ((slice f off.toNat 9).getD 0 0)
        (slice f (off.toNat + 9) p.toNat) ++ _
    have hhdr : recordHeader ((slice f off.toNat 9).getD 0 0)
        (slice f (off.toNat + 9) p.toNat) = slice f off.toNat 9 := by
      unfold recordHeader
      rw [hpayload, hp, hcrc, ← hplen]
      exact (header_fields (by rw [length_slice]; omega)).symm
    rw [hhdr, hpayload, show 10 + p.toNat = 9 + (p.toNat + 1) by omega,
      slice_add, slice_add, hmark]

end Frame

/-- From `off` on the scanner finds the records `rs` and then stops with the
verdict `v`. -/
structure Scans (f : Bytes) (off endOff : UInt64) (rs : List Record)
    (v : ScanResult) : Prop where
  bytes : slice f off.toNat (encodeLog rs).length = encodeLog rs
  inside : rs = [] ∨ off.toNat + (encodeLog rs).length ≤ endOff.toNat
  verdict : scanImage f (logEndOf off rs) endOff = v
  stops : ∀ ty plen next, v ≠ .record ty plen next

namespace Scans

variable {f : Bytes} {off endOff : UInt64} {rs rs' : List Record}
variable {v v' : ScanResult}

/-- The records are in the file. -/
theorem fits (h : Scans f off endOff rs v) (hmax : f.length ≤ maxFileSize) :
    Fits off rs := by
  rcases slice_full h.bytes with h0 | hreach
  · exact Or.inl (encodeLog_eq_nil h0)
  · right
    omega

theorem toNat_stop (h : Scans f off endOff rs v)
    (hmax : f.length ≤ maxFileSize) :
    (logEndOf off rs).toNat = off.toNat + (encodeLog rs).length :=
  toNat_logEndOf (h.fits hmax)

theorem nil (hv : scanImage f off endOff = v)
    (hstop : ∀ ty plen next, v ≠ .record ty plen next) :
    Scans f off endOff [] v where
  bytes := by simp [slice]
  inside := Or.inl rfl
  verdict := by rw [logEndOf_nil]; exact hv
  stops := hstop

theorem toNat_next {r : Record} (hmax : f.length ≤ maxFileSize)
    (hr : slice f off.toNat r.size = r.encode) :
    (off + UInt64.ofNat r.size).toNat = off.toNat + r.size := by
  have hin : off.toNat + r.size ≤ f.length := by
    have hlen := congrArg List.length hr
    have := r.size_pos
    rw [length_slice, Record.length_encode] at hlen
    omega
  exact toNat_add_size r off (by omega)

theorem logEndOf_cons (off : UInt64) (r : Record) (rs : List Record) :
    logEndOf off (r :: rs) = logEndOf (off + UInt64.ofNat r.size) rs := by
  simp [logEndOf, UInt64.add_assoc]

/-- One record in front. -/
theorem cons {r : Record} (hmax : f.length ≤ maxFileSize)
    (hr : slice f off.toNat r.size = r.encode)
    (hend : off.toNat + r.size ≤ endOff.toNat)
    (h : Scans f (off + UInt64.ofNat r.size) endOff rs v) :
    Scans f off endOff (r :: rs) v where
  bytes := by
    rw [encodeLog_cons, List.length_append, Record.length_encode, slice_add,
      hr, ← toNat_next hmax hr, h.bytes]
  inside := by
    right
    rw [encodeLog_cons, List.length_append, Record.length_encode]
    rcases h.inside with h0 | hin
    · rw [h0]
      simpa using hend
    · rw [toNat_next hmax hr] at hin
      omega
  verdict := by
    rw [logEndOf_cons]
    exact h.verdict
  stops := h.stops

/-- What a scan finds first. -/
theorem head {r : Record} (h : Scans f off endOff (r :: rs) v)
    (hmax : f.length ≤ maxFileSize) :
    slice f off.toNat r.size = r.encode ∧
      off.toNat + r.size ≤ endOff.toNat ∧
      Scans f (off + UInt64.ofNat r.size) endOff rs v := by
  have hb := h.bytes
  rw [encodeLog_cons, List.length_append, Record.length_encode] at hb
  have hr : slice f off.toNat r.size = r.encode := by
    have := (slice_append_iff (a := r.encode) (b := encodeLog rs)).mp
      (by rw [List.length_append, Record.length_encode]; exact hb)
    rw [Record.length_encode] at this
    exact this.1
  have hrest : slice f (off.toNat + r.size) (encodeLog rs).length =
      encodeLog rs := by
    have := (slice_append_iff (a := r.encode) (b := encodeLog rs)).mp
      (by rw [List.length_append, Record.length_encode]; exact hb)
    rw [Record.length_encode] at this
    exact this.2
  have hin : off.toNat + (r.size + (encodeLog rs).length) ≤ endOff.toNat := by
    rcases h.inside with h0 | hin
    · cases h0
    · rw [encodeLog_cons, List.length_append, Record.length_encode] at hin
      exact hin
  refine ⟨hr, by omega, ?_⟩
  exact
    { bytes := by rw [toNat_next hmax hr]; exact hrest
      inside := by
        right
        rw [toNat_next hmax hr]
        omega
      verdict := by rw [← logEndOf_cons]; exact h.verdict
      stops := h.stops }

end Scans

/-- The scanner stops on every file. -/
theorem exists_scans (f : Bytes) (off endOff : UInt64)
    (hmax : f.length ≤ maxFileSize) : ∃ rs v, Scans f off endOff rs v := by
  induction hn : endOff.toNat - off.toNat using Nat.strong_induction_on
    generalizing off with
  | _ n ih =>
      cases hv : scanImage f off endOff with
      | record ty plen next =>
          obtain ⟨r, -, -, -, hend, hr⟩ := scanImage_record hmax hv
          have hpos := r.size_pos
          have hnext := Scans.toNat_next hmax hr
          obtain ⟨rs, v, h⟩ := ih
            (endOff.toNat - (off + UInt64.ofNat r.size).toNat)
            (by omega) (off + UInt64.ofNat r.size) rfl
          exact ⟨r :: rs, v, Scans.cons hmax hr hend h⟩
      | scanEnd =>
          exact ⟨[], _, Scans.nil hv nofun⟩
      | scanPartial =>
          exact ⟨[], _, Scans.nil hv nofun⟩
      | err rc =>
          exact ⟨[], _, Scans.nil hv nofun⟩

theorem Record.encode_inj {r r' : Record} {f : Bytes} {off : UInt64}
    (hmax : f.length ≤ maxFileSize)
    (hr : slice f off.toNat r.size = r.encode)
    (hr' : slice f off.toNat r'.size = r'.encode) : r = r' := by
  have hfull := maxFileSize_eq
  have h1 : scanImage f off 0xFFFFFFFFFFFFFFFF = _ := scanImage_encode hr hmax
    (by
    have := Scans.toNat_next hmax hr
    have := (off + UInt64.ofNat r.size).toNat_lt
    change _ ≤ 18446744073709551615
    omega)
  have h2 : scanImage f off 0xFFFFFFFFFFFFFFFF = _ := scanImage_encode hr' hmax
    (by
    have := Scans.toNat_next hmax hr'
    have := (off + UInt64.ofNat r'.size).toNat_lt
    change _ ≤ 18446744073709551615
    omega)
  rw [h1] at h2
  injection h2 with hty hlen _
  have hlen : r.payload.length = r'.payload.length := by
    rw [← r.toNat_plen, ← r'.toNat_plen, hlen]
  have hsize : r.size = r'.size := by
    unfold Record.size
    rw [hlen]
  have henc : r.encode = r'.encode := by
    rw [← hr, ← hr', hsize]
  have hpay : r.payload = r'.payload := by
    unfold Record.encode at henc
    have h3 := (List.append_inj henc (by simp [recordHeader])).2
    exact (List.append_inj h3 hlen).1
  cases r
  cases r'
  simp_all

namespace Scans

variable {f : Bytes} {off endOff : UInt64} {rs rs' : List Record}
variable {v v' : ScanResult}

/-- The file determines what is found. -/
theorem unique (h : Scans f off endOff rs v) (h' : Scans f off endOff rs' v')
    (hmax : f.length ≤ maxFileSize) : rs = rs' ∧ v = v' := by
  have hstop : ∀ {r : Record} {off : UInt64} {rs : List Record}
      {v v' : ScanResult}, Scans f off endOff [] v →
      ¬ Scans f off endOff (r :: rs) v' := by
    intro r off rs v v' hn hc
    obtain ⟨hr, hend, -⟩ := hc.head hmax
    have hv := hn.verdict
    rw [logEndOf_nil, scanImage_encode hr hmax hend] at hv
    exact hn.stops _ _ _ hv.symm
  induction rs generalizing rs' off with
  | nil =>
      cases rs' with
      | nil =>
          exact ⟨rfl, h.verdict.symm.trans h'.verdict⟩
      | cons r rs' =>
          exact absurd h' (hstop h)
  | cons r rs ih =>
      cases rs' with
      | nil =>
          exact absurd h (hstop h')
      | cons r' rs' =>
          obtain ⟨hr, -, hrest⟩ := h.head hmax
          obtain ⟨hr', -, hrest'⟩ := h'.head hmax
          have heq := Record.encode_inj hmax hr hr'
          subst heq
          obtain ⟨rfl, hv⟩ := ih hrest hrest'
          exact ⟨rfl, hv⟩

theorem scanImage_past (h : ¬ off < endOff) :
    scanImage f off endOff = .scanEnd := by
  unfold scanImage
  rw [if_pos (UInt64.not_lt.mp h)]

/-- Only the end of the region is reported as its end. -/
theorem le_of_scanImage_end (h : scanImage f off endOff = .scanEnd) :
    endOff ≤ off := by
  unfold scanImage at h
  by_contra hlt
  rw [if_neg hlt] at h
  simp only at h
  repeat' split at h
  all_goals cases h

/-- A scan that reaches the end of the region. -/
theorem stop_eq (h : Scans f off endOff rs .scanEnd)
    (hmax : f.length ≤ maxFileSize) (hle : off ≤ endOff) :
    logEndOf off rs = endOff := by
  apply UInt64.le_antisymm _ (le_of_scanImage_end h.verdict)
  rw [UInt64.le_iff_toNat_le, h.toNat_stop hmax]
  rcases h.inside with rfl | hin
  · simpa using UInt64.le_iff_toNat_le.mp hle
  · exact hin

/-- A region that holds the encoding of a log. -/
theorem of_encodeLog (hmax : f.length ≤ maxFileSize)
    (h : slice f off.toNat (encodeLog rs).length = encodeLog rs) :
    Scans f off (logEndOf off rs) rs .scanEnd where
  bytes := h
  inside := by
    rcases slice_full h with h0 | hreach
    · exact Or.inl (encodeLog_eq_nil h0)
    · right
      rw [toNat_logEndOf (Or.inr (by omega))]
  verdict := scanImage_past (UInt64.lt_irrefl _)
  stops := nofun

end Scans

end Qdb
