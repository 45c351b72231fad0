import Qdb.TornTail

/-!
# What the checksum computes and detects

`isoHdlc` is the definition of CRC-32/ISO-HDLC on a list of bits: the remainder
of the reflected division by the polynomial, one message bit at a time.  The
table-driven checksum computes it, however the data is cut into chunks
(`chunked_crc32_is_isoHdlc`).

Up to 32 message bits only add their value to the remainder before it is
shifted, and no shift loses information, so an error burst of up to 32 bits
changes the checksum (`burst_is_detected`).
-/

namespace Qdb

open Lib

namespace Crc32

/-- The bits of a byte, least significant first. -/
def byteBits (p : UInt8) : List Bool :=
  (List.range 8).map p.toNat.testBit

/-- The bits of the data in message order. -/
def bitsOf (data : Bytes) : List Bool :=
  data.flatMap byteBits

/-- One message bit of the reflected division: the polynomial is subtracted
when the bit and the low bit of the remainder differ. -/
def divideBit (r : UInt32) (b : Bool) : UInt32 :=
  if r.toNat.testBit 0 ^^ b then (r >>> 1) ^^^ 0xEDB88320 else r >>> 1

/-- CRC-32/ISO-HDLC of a list of bits. -/
def isoHdlc (bits : List Bool) : UInt32 :=
  bits.foldl divideBit 0xFFFFFFFF ^^^ 0xFFFFFFFF

/-- A message bit as a number. -/
def bitValue (b : Bool) : UInt32 :=
  if b then 1 else 0

/-- The number with the given bits, least significant first. -/
def valueOf : List Bool → UInt32
  | [] => 0
  | b :: bs => bitValue b ^^^ (valueOf bs <<< 1)

/-- A message bit is added to the remainder before it is shifted. -/
theorem divideBit_eq (r : UInt32) (b : Bool) :
    divideBit r b = bitStep (r ^^^ bitValue b) := by
  have hlow : r.toNat.testBit 0 = decide (r.toNat % 2 = 1) :=
    Nat.testBit_zero r.toNat
  have hshift : (1 : UInt32) >>> 1 = 0 := by decide
  unfold divideBit bitStep bitValue
  simp only [and_one_ne_zero_iff, xor_toNat_mod_two, UInt32.shiftRight_xor,
    hlow]
  have hr := Nat.mod_two_eq_zero_or_one r.toNat
  cases b with
  | false =>
      rcases hr with hr | hr <;> simp [hr]
  | true =>
      rcases hr with hr | hr <;> simp [hr, hshift, Nat.add_mod]

theorem toNat_bitValue (b : Bool) : (bitValue b).toNat = b.toNat := by
  cases b <;> rfl

theorem toNat_shiftLeft_one {v : UInt32} (h : v.toNat < 2 ^ 31) :
    (v <<< 1).toNat = 2 * v.toNat := by
  rw [UInt32.toNat_shiftLeft]
  have h1 : (1 : UInt32).toNat % 32 = 1 := by decide
  rw [h1, Nat.shiftLeft_eq, pow_one, Nat.mul_comm]
  omega

theorem xor_bit (b : Bool) (n : Nat) : b.toNat ^^^ (2 * n) = b.toNat + 2 * n := by
  cases b with
  | false =>
      simp
  | true =>
      apply Nat.eq_of_testBit_eq
      intro i
      cases i with
      | zero =>
          simp [Nat.testBit_zero]
      | succ i =>
          rw [Nat.testBit_xor, Nat.testBit_succ, Nat.testBit_succ,
            Nat.testBit_succ]
          have h1 : Bool.toNat true / 2 = 0 := rfl
          have h2 : (Bool.toNat true + 2 * n) / 2 = n := by
            simp
            omega
          have h3 : 2 * n / 2 = n := by omega
          rw [h1, h2, h3]
          simp

/-- The value of up to 32 bits, without wrap. -/
theorem toNat_valueOf {b : Bool} {bs : List Bool} (h : bs.length < 32)
    (hbs : (valueOf bs).toNat < 2 ^ bs.length) :
    (valueOf (b :: bs)).toNat = b.toNat + 2 * (valueOf bs).toNat := by
  have hlt : (valueOf bs).toNat < 2 ^ 31 :=
    lt_of_lt_of_le hbs (Nat.pow_le_pow_right (by decide) (by omega))
  rw [valueOf, UInt32.toNat_xor, toNat_bitValue, toNat_shiftLeft_one hlt,
    xor_bit]

theorem valueOf_lt {bits : List Bool} (h : bits.length ≤ 32) :
    (valueOf bits).toNat < 2 ^ bits.length := by
  induction bits with
  | nil =>
      decide
  | cons b bs ih =>
      have hlen : bs.length < 32 := by
        rw [List.length_cons] at h
        omega
      have hbs := ih (Nat.le_of_lt hlen)
      rw [toNat_valueOf hlen hbs, List.length_cons, pow_succ]
      have hb : b.toNat ≤ 1 := Bool.toNat_le b
      omega

/-- Only zeros have the value 0. -/
theorem forall_false_of_valueOf {bits : List Bool} (h : bits.length ≤ 32)
    (hv : valueOf bits = 0) : true ∉ bits := by
  induction bits with
  | nil =>
      simp
  | cons b bs ih =>
      have hlen : bs.length < 32 := by
        rw [List.length_cons] at h
        omega
      have hnat := toNat_valueOf (b := b) hlen (valueOf_lt (Nat.le_of_lt hlen))
      rw [hv, UInt32.toNat_zero] at hnat
      have hb : b = false := by
        cases b with
        | false =>
            rfl
        | true =>
            simp at hnat
            omega
      have hbs : valueOf bs = 0 := by
        apply UInt32.toNat_inj.mp
        rw [UInt32.toNat_zero]
        omega
      subst hb
      simpa using ih (Nat.le_of_lt hlen) hbs

/-- A shift of an even number without wrap. -/
theorem bitStep_shiftLeft {v : UInt32} (h : v.toNat < 2 ^ 31) :
    bitStep (v <<< 1) = v := by
  have hnat := toNat_shiftLeft_one h
  have heven : ¬ ((v <<< 1) &&& 1 ≠ 0) := by
    rw [and_one_ne_zero_iff, hnat]
    omega
  apply UInt32.toNat_inj.mp
  rw [bitStep, if_neg heven, toNat_shiftRight_one, hnat]
  omega

/-- Up to 32 message bits add their value to the remainder first. -/
theorem foldl_divideBit {bits : List Bool} (h : bits.length ≤ 32)
    (r : UInt32) :
    bits.foldl divideBit r = bitSteps bits.length (r ^^^ valueOf bits) := by
  induction bits generalizing r with
  | nil =>
      simp [valueOf, bitSteps]
  | cons b bs ih =>
      have hlen : bs.length < 32 := by
        rw [List.length_cons] at h
        omega
      have hlt : (valueOf bs).toNat < 2 ^ 31 :=
        lt_of_lt_of_le (valueOf_lt (Nat.le_of_lt hlen))
          (Nat.pow_le_pow_right (by decide) (by omega))
      have hstep : bitStep (r ^^^ valueOf (b :: bs)) =
          bitStep (r ^^^ bitValue b) ^^^ valueOf bs := by
        rw [valueOf, ← UInt32.xor_assoc, bitStep_xor, bitStep_shiftLeft hlt]
      rw [List.foldl_cons, ih (Nat.le_of_lt hlen), divideBit_eq,
        List.length_cons, bitSteps, hstep]

theorem length_byteBits (p : UInt8) : (byteBits p).length = 8 := by
  simp [byteBits]

theorem valueOf_byteBits (p : UInt8) : valueOf (byteBits p) = p.toUInt32 := by
  have hall : ∀ n, n < 256 →
      (valueOf ((List.range 8).map n.testBit)).toNat = n := by
    decide +kernel
  apply UInt32.toNat_inj.mp
  rw [byteBits, hall _ p.toNat_lt]
  simp

/-- The table-driven byte step is the division by eight message bits. -/
theorem foldl_byteBits (r : UInt32) (p : UInt8) :
    (byteBits p).foldl divideBit r = byteStep r p := by
  rw [foldl_divideBit (by rw [length_byteBits]; decide), length_byteBits,
    valueOf_byteBits, byteStep_eq]

/-- `qdb__crc32_update` divides by the bits of its data. -/
theorem crc32Update_eq (r : UInt32) (data : Bytes) :
    crc32Update r data = (bitsOf data).foldl divideBit r := by
  induction data generalizing r with
  | nil =>
      rfl
  | cons p data ih =>
      change crc32Update (byteStep r p) data =
        (byteBits p ++ bitsOf data).foldl divideBit r
      rw [List.foldl_append, foldl_byteBits, ih]

/-- The remainder is linear in the bits and in what it starts from. -/
theorem foldl_divideBit_xor {a e : List Bool} (h : e.length = a.length)
    (r t : UInt32) :
    (List.zipWith xor a e).foldl divideBit (r ^^^ t) =
      a.foldl divideBit r ^^^ e.foldl divideBit t := by
  induction a generalizing e r t with
  | nil =>
      rw [List.length_eq_zero_iff.mp h]
      rfl
  | cons x a ih =>
      cases e with
      | nil =>
          simp at h
      | cons y e =>
          have hbit : bitValue (x ^^ y) = bitValue x ^^^ bitValue y := by
            cases x <;> cases y <;> decide
          have hswap : r ^^^ t ^^^ (bitValue x ^^^ bitValue y) =
              (r ^^^ bitValue x) ^^^ (t ^^^ bitValue y) := by
            rw [UInt32.xor_assoc, UInt32.xor_assoc, ← UInt32.xor_assoc t,
              UInt32.xor_comm t, UInt32.xor_assoc (bitValue x)]
          have hstep : divideBit (r ^^^ t) (x ^^ y) =
              divideBit r x ^^^ divideBit t y := by
            rw [divideBit_eq, divideBit_eq, divideBit_eq, hbit, hswap,
              bitStep_xor]
          rw [List.zipWith_cons_cons, List.foldl_cons, List.foldl_cons,
            List.foldl_cons, hstep]
          exact ih (by simpa using h) _ _

/-- Zeros keep the remainder 0. -/
theorem foldl_falses_zero {bits : List Bool} (h : true ∉ bits) :
    bits.foldl divideBit 0 = 0 := by
  induction bits with
  | nil =>
      rfl
  | cons b bs ih =>
      rw [List.mem_cons, not_or] at h
      have hb : b = false := by
        cases b with
        | false =>
            rfl
        | true =>
            exact absurd rfl h.1
      subst hb
      have hzero : divideBit 0 false = 0 := by decide
      rw [List.foldl_cons, hzero]
      exact ih h.2

/-- No message bits turn a remainder into 0 by themselves. -/
theorem foldl_falses_ne_zero {bits : List Bool} (h : true ∉ bits)
    {r : UInt32} (hr : r ≠ 0) : bits.foldl divideBit r ≠ 0 := by
  induction bits generalizing r with
  | nil =>
      exact hr
  | cons b bs ih =>
      rw [List.mem_cons, not_or] at h
      have hb : b = false := by
        cases b with
        | false =>
            rfl
        | true =>
            exact absurd rfl h.1
      subst hb
      refine ih h.2 ?_
      intro hstep
      have hzero : divideBit 0 false = 0 := by decide
      rw [← hzero, divideBit_eq, divideBit_eq] at hstep
      exact hr (xor_left_cancel (bitStep_injective hstep))

/-- Set bits within 32 positions leave a remainder. -/
theorem foldl_burst {bits : List Bool} {k : Nat} (hset : true ∈ bits)
    (hwin : ∀ j, bits[j]? = some true → k ≤ j ∧ j < k + 32) :
    bits.foldl divideBit 0 ≠ 0 := by
  have hsplit : bits =
      bits.take k ++ ((bits.drop k).take 32 ++ (bits.drop k).drop 32) := by
    rw [List.take_append_drop, List.take_append_drop]
  have hfront : true ∉ bits.take k := by
    intro hmem
    obtain ⟨j, hj, hget⟩ := List.mem_iff_getElem.mp hmem
    have hjk : j < k := by
      rw [List.length_take] at hj
      omega
    have := hwin j (by
      rw [List.getElem?_eq_getElem (by rw [List.length_take] at hj; omega)]
      rw [List.getElem_take] at hget
      rw [hget])
    omega
  have hback : true ∉ (bits.drop k).drop 32 := by
    intro hmem
    obtain ⟨j, hj, hget⟩ := List.mem_iff_getElem.mp hmem
    rw [List.getElem_drop, List.getElem_drop] at hget
    have := hwin (k + (32 + j)) (by
      rw [List.length_drop, List.length_drop] at hj
      rw [List.getElem?_eq_getElem (by omega), hget])
    omega
  have hmid : true ∈ (bits.drop k).take 32 := by
    rw [hsplit, List.mem_append, List.mem_append] at hset
    rcases hset with h | h | h
    · exact absurd h hfront
    · exact h
    · exact absurd h hback
  have hlen : ((bits.drop k).take 32).length ≤ 32 := by
    rw [List.length_take]
    omega
  have hzeros : ∀ n, bitSteps n 0 = 0 := by
    intro n
    induction n with
    | zero =>
        rfl
    | succ n ih =>
        rw [bitSteps, show bitStep 0 = 0 by decide, ih]
  rw [hsplit, List.foldl_append, List.foldl_append, foldl_falses_zero hfront,
    foldl_divideBit hlen]
  refine foldl_falses_ne_zero hback ?_
  intro hwindow
  rw [UInt32.zero_xor, ← hzeros ((bits.drop k).take 32).length] at hwindow
  exact forall_false_of_valueOf hlen (bitSteps_injective _ hwindow) hmid

end Crc32

open Crc32

/-- `qdb__crc32_update` on a pointer that may be NULL. -/
def crc32UpdateArg (state : UInt32) : Option Bytes → UInt32
  | none => state
  | some data => crc32Update state data

/-- Chunk by chunk or at once, the checksum is the one of the bitwise
definition. -/
theorem chunked_crc32_is_isoHdlc (chunks : List (Option Bytes)) :
    crc32End (chunks.foldl crc32UpdateArg crc32Begin) =
        crc32 (chunks.flatMap (·.getD [])) ∧
      crc32 (chunks.flatMap (·.getD [])) =
        isoHdlc (bitsOf (chunks.flatMap (·.getD []))) := by
  have hfold : ∀ r, chunks.foldl crc32UpdateArg r =
      crc32Update r (chunks.flatMap (·.getD [])) := by
    induction chunks with
    | nil =>
        intro r
        rfl
    | cons c chunks ih =>
        intro r
        rw [List.foldl_cons, ih, List.flatMap_cons, crc32Update_append]
        cases c with
        | none =>
            rfl
        | some data =>
            rfl
  constructor
  · rw [hfold, crc32]
  · rw [crc32, crc32Update_eq]
    rfl

/-- The payload `p` with the bits of `e` flipped. -/
def damage (p e : Bytes) : Bytes :=
  List.zipWith (· ^^^ ·) p e

/-- Some bits are set, and all of them within 32 consecutive positions. -/
structure Burst (e : Bytes) : Prop where
  set : true ∈ bitsOf e
  window : ∃ k, ∀ j, (bitsOf e)[j]? = some true → k ≤ j ∧ j < k + 32

theorem bitsOf_damage {p e : Bytes} (h : e.length = p.length) :
    bitsOf (damage p e) = List.zipWith xor (bitsOf p) (bitsOf e) := by
  induction p generalizing e with
  | nil =>
      rw [List.length_eq_zero_iff.mp h]
      rfl
  | cons x p ih =>
      cases e with
      | nil =>
          simp at h
      | cons y e =>
          have hbyte : byteBits (x ^^^ y) =
              List.zipWith xor (byteBits x) (byteBits y) := by
            simp [byteBits, List.zipWith_map, List.zipWith_self,
              Nat.testBit_xor]
          change byteBits (x ^^^ y) ++ bitsOf (damage p e) =
            List.zipWith xor (byteBits x ++ bitsOf p) (byteBits y ++ bitsOf e)
          rw [ih (by simpa using h), hbyte, List.zipWith_append
            (by rw [length_byteBits, length_byteBits])]

theorem length_bitsOf (data : Bytes) : (bitsOf data).length = 8 * data.length := by
  induction data with
  | nil =>
      rfl
  | cons p data ih =>
      change (byteBits p ++ bitsOf data).length = _
      rw [List.length_append, ih, length_byteBits, List.length_cons]
      omega

theorem crc32_damage_ne {p e : Bytes} (hlen : e.length = p.length)
    (he : Burst e) : crc32 (damage p e) ≠ crc32 p := by
  obtain ⟨k, hk⟩ := he.window
  have hbits : (bitsOf e).length = (bitsOf p).length := by
    rw [length_bitsOf, length_bitsOf, hlen]
  have hlin := foldl_divideBit_xor hbits crc32Begin 0
  rw [UInt32.xor_zero, ← bitsOf_damage hlen, ← crc32Update_eq,
    ← crc32Update_eq] at hlin
  intro heq
  have hsame := xor_left_cancel heq
  rw [hlin] at hsame
  have hzero : (bitsOf e).foldl divideBit 0 = 0 := by
    have h := congrArg (fun x => crc32Update crc32Begin p ^^^ x) hsame
    simpa [← UInt32.xor_assoc] using h
  exact foldl_burst he.set hk hzero

/-- A record with a damaged payload in the file. -/
theorem scanImage_damaged {r : Record} {e f : Bytes} {off endOff : UInt64}
    (hlen : e.length = r.payload.length) (he : Burst e)
    (hmax : f.length ≤ maxFileSize)
    (hs : slice f off.toNat r.size = recordHeader r.type r.payload ++
      (damage r.payload e ++ [commitMarker]))
    (hend : off.toNat + r.size ≤ endOff.toNat) :
    scanImage f off endOff = .err .errCorrupt := by
  have hsize : r.size = 10 + r.payload.length := rfl
  have hmx := maxFileSize_eq
  have hplen : (damage r.payload e).length = r.payload.length := by
    simp [damage, hlen]
  have hhl : (recordHeader r.type r.payload).length = 9 := by
    simp [recordHeader]
  have hin : off.toNat + r.size ≤ f.length := by
    have h := congrArg List.length hs
    rw [length_slice, List.length_append, List.length_append, hplen, hhl,
      List.length_singleton] at h
    omega
  obtain ⟨pre, post, hf, hpre, -⟩ := slice_split hin
  rw [hs] at hf
  have hhdr : slice f off.toNat 9 = recordHeader r.type r.payload := by
    rw [hf, List.append_assoc]
    exact slice_at _ _ _ hpre.symm hhl.symm
  have hpay : slice f (off.toNat + 9) r.payload.length =
      damage r.payload e := by
    rw [hf, show pre ++ ((recordHeader r.type r.payload ++
      (damage r.payload e ++ [commitMarker])) ++ post) =
      (pre ++ recordHeader r.type r.payload) ++ (damage r.payload e ++
        ([commitMarker] ++ post)) by simp]
    exact slice_at _ _ _ (by rw [List.length_append, hhl, hpre]) hplen.symm
  have hmark : slice f (off.toNat + 9 + r.payload.length) 1 =
      [commitMarker] := by
    rw [hf, show pre ++ ((recordHeader r.type r.payload ++
      (damage r.payload e ++ [commitMarker])) ++ post) =
      (pre ++ (recordHeader r.type r.payload ++ damage r.payload e)) ++
        ([commitMarker] ++ post) by simp]
    exact slice_at _ _ _ (by
      rw [List.length_append, List.length_append, hhl, hplen, hpre]
      omega) rfl
  have hg : getU32le ((recordHeader r.type r.payload).drop 1) =
      UInt32.ofNat r.payload.length := by
    simp [recordHeader]
  have hcrc : getU32le ((recordHeader r.type r.payload).drop 5) =
      crc32 r.payload := by
    have hd : (recordHeader r.type r.payload).drop 5 =
        putU32le (crc32 r.payload) ++ [] := by
      simp [recordHeader, putU32le]
    rw [hd, getU32le_putU32le]
  have htype : (recordHeader r.type r.payload).getD 0 0 = r.type := rfl
  have hstop : off + recHdrSize +
      (UInt32.ofNat r.payload.length).toUInt64 + 1 =
      off + UInt64.ofNat r.size := by
    apply UInt64.toNat_inj.mp
    rw [toNat_add_size r off (by omega), UInt64.toNat_add, UInt64.toNat_add,
      UInt64.toNat_add, UInt32.toNat_toUInt64, r.toNat_plen]
    have hrec : recHdrSize.toNat = 9 := rfl
    have hone : (1 : UInt64).toNat = 1 := rfl
    omega
  have hnext := toNat_add_size r off (by omega)
  have hroom : ¬ endOff - off < recHdrSize + 1 := by
    rw [UInt64.lt_iff_toNat_lt, UInt64.toNat_sub_of_le _ _ (by
      rw [UInt64.le_iff_toNat_le]
      omega)]
    have hrec : (recHdrSize + 1).toNat = 10 := rfl
    omega
  have hin9 : off.toNat + 9 ≤ f.length := by omega
  rw [scanImage_eq_of_reads hin9 (by rw [hhdr, hg, r.toNat_plen]; omega)]
  unfold scanAt
  dsimp only
  rw [if_neg (by rw [ge_iff_le, UInt64.le_iff_toNat_le]; omega), if_neg hroom,
    hhdr, hg, hcrc, htype, hstop, r.toNat_plen, hpay, hmark,
    if_neg (show ¬ UInt32.ofNat r.payload.length > maxRecordPayload from
      UInt32.not_lt.mpr r.plen_le),
    if_neg (by rw [gt_iff_lt, UInt64.lt_iff_toNat_lt, hnext]; omega),
    if_neg (by simp), if_neg (by simp [r.known]),
    if_pos (crc32_damage_ne hlen he)]

/-- A burst of up to 32 damaged bits in the payload changes its checksum, and
the scanner reports the record as corrupt. -/
theorem burst_is_detected {p e : Bytes} (hlen : e.length = p.length)
    (he : Burst e) :
    crc32 (damage p e) ≠ crc32 p ∧
      ∀ (r : Record) (w : World) (i : Nat) (off endOff : UInt64),
        r.payload = p → (w.content i).length ≤ maxFileSize →
        slice (w.content i) off.toNat r.size = recordHeader r.type p ++
          (damage p e ++ [commitMarker]) →
        off.toNat + r.size ≤ endOff.toNat →
        Prog.run posix (scanRecord (some i) off endOff) w =
          some (.err .errCorrupt, w) := by
  refine ⟨crc32_damage_ne hlen he, ?_⟩
  rintro r w i off endOff rfl hmax hs hend
  rw [(reads_scanImage rfl hmax).run, scanImage_damaged hlen he hmax hs hend]

/-- One flipped bit of an ACK payload. -/
def flippedBit : Bytes :=
  1 :: List.replicate 15 0

theorem flippedBit_burst : Burst flippedBit := by
  refine ⟨by decide, 0, ?_⟩
  intro j hj
  refine ⟨Nat.zero_le j, ?_⟩
  by_contra hge
  have hzero : ∀ j, 1 ≤ j → j < 128 →
      (bitsOf flippedBit)[j]? ≠ some true := by
    decide +kernel
  have hlen : (bitsOf flippedBit).length = 128 := by
    rw [length_bitsOf]
    rfl
  by_cases hj' : j < 128
  · exact hzero j (by omega) hj' hj
  · rw [List.getElem?_eq_none (by omega)] at hj
    cases hj

/-- A file with a damaged ACK record. -/
def damagedAck : World :=
  World.empty.issue 0 (.write 0 (recordHeader rtMsgAck (ackPayload 1 1) ++
    (damage (ackPayload 1 1) flippedBit ++ [commitMarker])))

/-- The damaged record as the scanner meets it. -/
theorem burst_is_detected_bit :
    crc32 (damage (ackPayload 1 1) flippedBit) ≠ crc32 (ackPayload 1 1) ∧
      Prog.run posix (scanRecord (some 0) 0 26) damagedAck =
        some (.err .errCorrupt, damagedAck) := by
  have hcontent : damagedAck.content 0 =
      recordHeader rtMsgAck (ackPayload 1 1) ++
        (damage (ackPayload 1 1) flippedBit ++ [commitMarker]) := by
    decide +kernel
  obtain ⟨hcrc, hscan⟩ := burst_is_detected
    (by decide : flippedBit.length = (ackPayload 1 1).length) flippedBit_burst
  refine ⟨hcrc, hscan (ackRecord 1 1) damagedAck 0 0 26 rfl ?_ ?_ ?_⟩
  · rw [hcontent, maxFileSize_eq]
    decide
  · rw [hcontent]
    decide +kernel
  · decide

end Qdb
