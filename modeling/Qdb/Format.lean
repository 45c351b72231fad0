import Qdb.Lib.Bytes

/-!
# Format constants, return codes and little-endian fields

This module holds the constants of `qdb_internal.h` and `qdb.h`: the header and
record layout, the record types, the size limits and the return codes, together
with the little-endian helpers every encoder and decoder of the library is
built from.

The codec lemmas at the end say that a 32- or 64-bit field written to a byte
buffer is read back unchanged, and that four bytes read as a field are written
back unchanged.
-/

namespace Qdb

open Lib

/-- `QDB_OK` and the `QDB_ERR_*` codes. -/
inductive Rc
  | ok
  | errIo
  | errCorrupt
  | errInval
  | errEmpty
  | errNoent
  | errNomem
  | errLocked
deriving DecidableEq, Repr

/-- `QDB_QUEUE_NAME_MAX` -/
abbrev queueNameMax : Nat := 255

/-- `QDB_MSG_MAX_LEN` -/
abbrev msgMaxLen : Nat := 64 * 1024 * 1024

/-- `QDB_FORMAT_VERSION` and `QDB_MAX_FORMAT_VERSION` -/
abbrev formatVersion : UInt32 := 1

/-- `QDB_PAGE_SIZE` -/
abbrev pageSize : UInt32 := 4096

/-- `QDB_HDR_SIZE` -/
abbrev hdrSize : UInt64 := 4096

/-- `QDB_HDR_CRC_COVER`: the header bytes covered by the header checksum. -/
abbrev hdrCrcCover : Nat := 52

/-- `QDB_FLAG_WAL_PRESENT` -/
abbrev flagWalPresent : UInt32 := 1

/-- `QDB_FLAG_DIRTY` -/
abbrev flagDirty : UInt32 := 2

/-- `QDB_RT_MSG_PUSH` -/
abbrev rtMsgPush : UInt8 := 0x01

/-- `QDB_RT_MSG_LEASE` -/
abbrev rtMsgLease : UInt8 := 0x02

/-- `QDB_RT_MSG_ACK` -/
abbrev rtMsgAck : UInt8 := 0x03

/-- `QDB_RT_MSG_NACK` -/
abbrev rtMsgNack : UInt8 := 0x04

/-- `QDB_RT_MSG_EXPIRE` -/
abbrev rtMsgExpire : UInt8 := 0x05

/-- `QDB_RT_CHECKPOINT` -/
abbrev rtCheckpoint : UInt8 := 0x10

/-- `QDB_RT_PADDING` -/
abbrev rtPadding : UInt8 := 0xFF

/-- `QDB_REC_HDR_SIZE`: type, payload length and payload checksum. -/
abbrev recHdrSize : UInt64 := 9

/-- `QDB_COMMIT_MARKER` -/
abbrev commitMarker : UInt8 := 0xAB

/-- `QDB_WAL_HDR_SIZE` -/
abbrev walHdrSize : UInt64 := 64

/-- `QDB_WAL_HDR_CRC_COVER` -/
abbrev walHdrCrcCover : Nat := 20

/-- `QDB_PUSH_HDR_SIZE`: message id and name length. -/
abbrev pushHdrSize : Nat := 9

/-- `QDB_PUSH_MIN_PLEN` -/
abbrev pushMinPlen : UInt32 := 10

/-- `QDB_PAYLOAD_LEASE_SIZE` -/
abbrev payloadLeaseSize : UInt32 := 24

/-- `QDB_PAYLOAD_ACK_SIZE`, also the size of NACK and EXPIRE payloads. -/
abbrev payloadAckSize : UInt32 := 16

/-- `QDB_PAYLOAD_CHECKPOINT_SIZE` -/
abbrev payloadCheckpointSize : UInt32 := 24

/-- `QDB_MAX_RECORD_PAYLOAD` -/
abbrev maxRecordPayload : UInt32 := 67109376

/-- `QDB_DEFAULT_LEASE_US` -/
abbrev defaultLeaseUs : UInt64 := 30000000

/-- The file magic `k_file_magic`. -/
def kFileMagic : Bytes :=
  [0x51, 0x44, 0x42, 0x0D, 0x0A, 0x1A, 0x0A, 0x00]

/-- The WAL magic `s_wal_magic`. -/
def sWalMagic : Bytes :=
  [0x51, 0x44, 0x42, 0x57, 0x41, 0x4C, 0x00, 0x00]

/-- `qdb__put_u32le` -/
def putU32le (v : UInt32) : Bytes :=
  [(v &&& 0xFF).toUInt8, ((v >>> 8) &&& 0xFF).toUInt8,
    ((v >>> 16) &&& 0xFF).toUInt8, ((v >>> 24) &&& 0xFF).toUInt8]

/-- `qdb__get_u32le` on the bytes at `p`. -/
def getU32le (p : Bytes) : UInt32 :=
  (p.getD 0 0).toUInt32 |||
    ((p.getD 1 0).toUInt32 <<< 8) |||
    ((p.getD 2 0).toUInt32 <<< 16) |||
    ((p.getD 3 0).toUInt32 <<< 24)

/-- `qdb__put_u64le` -/
def putU64le (v : UInt64) : Bytes :=
  putU32le (v &&& 0xFFFFFFFF).toUInt32 ++ putU32le (v >>> 32).toUInt32

/-- `qdb__get_u64le` on the bytes at `p`. -/
def getU64le (p : Bytes) : UInt64 :=
  (getU32le p).toUInt64 ||| ((getU32le (p.drop 4)).toUInt64 <<< 32)

@[simp] theorem length_putU32le (v : UInt32) :
    (putU32le v).length = 4 := by
  rfl

@[simp] theorem length_putU64le (v : UInt64) :
    (putU64le v).length = 8 := by
  rfl

theorem or_shift (a b k : Nat) (h : a < 2 ^ k) :
    a ||| (b <<< k) = a + b * 2 ^ k := by
  rw [Nat.or_comm, ← Nat.shiftLeft_add_eq_or_of_lt h,
    Nat.shiftLeft_eq, Nat.add_comm]

theorem and_255 (n : Nat) : n &&& 255 = n % 256 :=
  Nat.and_two_pow_sub_one_eq_mod n 8

theorem and_4294967295 (n : Nat) :
    n &&& 4294967295 = n % 4294967296 :=
  Nat.and_two_pow_sub_one_eq_mod n 32

/-- Value of a 32-bit field in terms of its bytes. -/
theorem toNat_getU32le (a b c d : UInt8) (rest : Bytes) :
    (getU32le (a :: b :: c :: d :: rest)).toNat =
      a.toNat + b.toNat * 2 ^ 8 + c.toNat * 2 ^ 16 + d.toNat * 2 ^ 24 := by
  have ha := a.toNat_lt
  have hb := b.toNat_lt
  have hc := c.toNat_lt
  have hd := d.toNat_lt
  have e8 : (b.toNat <<< 8) % 2 ^ 32 = b.toNat <<< 8 := by
    rw [Nat.shiftLeft_eq]
    omega
  have e16 : (c.toNat <<< 16) % 2 ^ 32 = c.toNat <<< 16 := by
    rw [Nat.shiftLeft_eq]
    omega
  have e24 : (d.toNat <<< 24) % 2 ^ 32 = d.toNat <<< 24 := by
    rw [Nat.shiftLeft_eq]
    omega
  simp only [getU32le, List.getD_cons_zero, List.getD_cons_succ,
    UInt32.toNat_or, UInt32.toNat_shiftLeft, UInt8.toNat_toUInt32]
  simp only [show (8 : UInt32).toNat % 32 = 8 from rfl,
    show (16 : UInt32).toNat % 32 = 16 from rfl,
    show (24 : UInt32).toNat % 32 = 24 from rfl, e8, e16, e24]
  rw [or_shift _ _ 8 (by omega), or_shift _ _ 16 (by omega),
    or_shift _ _ 24 (by omega)]

/-- A 32-bit field is read back as it was written. -/
@[simp] theorem getU32le_putU32le (v : UInt32) (rest : Bytes) :
    getU32le (putU32le v ++ rest) = v := by
  apply UInt32.toNat_inj.mp
  have hv := v.toNat_lt
  simp only [putU32le, List.cons_append, List.nil_append, toNat_getU32le]
  simp [Nat.shiftRight_eq_div_pow, and_255]
  omega

/-- Four bytes read as a field are written back unchanged. -/
theorem putU32le_getU32le (a b c d : UInt8) (rest : Bytes) :
    putU32le (getU32le (a :: b :: c :: d :: rest)) = [a, b, c, d] := by
  have ha := a.toNat_lt
  have hb := b.toNat_lt
  have hc := c.toNat_lt
  have hd := d.toNat_lt
  have h := toNat_getU32le a b c d rest
  simp only [putU32le, List.cons.injEq, and_true]
  refine ⟨?_, ?_, ?_, ?_⟩ <;> apply UInt8.toNat_inj.mp <;>
    simp [Nat.shiftRight_eq_div_pow, h, and_255] <;> omega

theorem toNat_getU64le (p : Bytes) :
    (getU64le p).toNat =
      (getU32le p).toNat + (getU32le (p.drop 4)).toNat * 2 ^ 32 := by
  have h1 := (getU32le p).toNat_lt
  have h2 := (getU32le (p.drop 4)).toNat_lt
  have e : ((getU32le (p.drop 4)).toNat <<< 32) % 2 ^ 64 =
      (getU32le (p.drop 4)).toNat <<< 32 := by
    rw [Nat.shiftLeft_eq]
    omega
  simp only [getU64le, UInt64.toNat_or, UInt64.toNat_shiftLeft,
    UInt32.toNat_toUInt64]
  simp only [show (32 : UInt64).toNat % 64 = 32 from rfl, e]
  rw [or_shift _ _ 32 (by omega)]

/-- A 64-bit field is read back as it was written. -/
@[simp] theorem getU64le_putU64le (v : UInt64) (rest : Bytes) :
    getU64le (putU64le v ++ rest) = v := by
  have h : (putU64le v ++ rest).drop 4 =
      putU32le (v >>> 32).toUInt32 ++ rest := by
    simp [putU64le, putU32le]
  have hv := v.toNat_lt
  apply UInt64.toNat_inj.mp
  rw [toNat_getU64le, h, getU32le_putU32le, putU64le, List.append_assoc,
    getU32le_putU32le]
  simp [Nat.shiftRight_eq_div_pow, and_4294967295]
  omega

end Qdb
