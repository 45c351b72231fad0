import Qdb.Format

/-!
# CRC-32/ISO-HDLC

The table-driven checksum of `qdb_crc32.c`.  The lookup table is filled by
`table_init` before its first use; `sTable i` is the entry it holds at `i`.

One table-driven byte step equals eight bit steps of the reflected polynomial
division, because a bit step is linear over exclusive or.  A bit step is also
injective, so the checksum changes whenever a single byte of the data does.
-/

namespace Qdb

open Lib

namespace Crc32

/-- One iteration of the inner loop of `table_init`. -/
def bitStep (v : UInt32) : UInt32 :=
  if v &&& 1 ≠ 0 then (v >>> 1) ^^^ 0xEDB88320 else v >>> 1

/-- `n` iterations of the inner loop of `table_init`. -/
def bitSteps : Nat → UInt32 → UInt32
  | 0, v => v
  | n + 1, v => bitSteps n (bitStep v)

/-- `s_table[i]` as `table_init` fills it. -/
def sTable (i : UInt32) : UInt32 :=
  bitSteps 8 i

/-- The loop body of `qdb__crc32_update`. -/
def byteStep (state : UInt32) (p : UInt8) : UInt32 :=
  (state >>> 8) ^^^ sTable ((state ^^^ p.toUInt32) &&& 0xFF)

end Crc32

open Crc32

/-- `qdb__crc32_begin` -/
def crc32Begin : UInt32 := 0xFFFFFFFF

/-- `qdb__crc32_update`; a NULL pointer comes with length 0 and is `[]`. -/
def crc32Update (state : UInt32) (data : Bytes) : UInt32 :=
  data.foldl byteStep state

/-- `qdb__crc32_end` -/
def crc32End (state : UInt32) : UInt32 :=
  state ^^^ 0xFFFFFFFF

/-- `qdb__crc32` -/
def crc32 (data : Bytes) : UInt32 :=
  crc32End (crc32Update crc32Begin data)

theorem crc32Update_append (s : UInt32) (a b : Bytes) :
    crc32Update s (a ++ b) = crc32Update (crc32Update s a) b := by
  simp [crc32Update]

namespace Crc32

theorem and_one_ne_zero_iff (v : UInt32) :
    v &&& 1 ≠ 0 ↔ v.toNat % 2 = 1 := by
  rw [Ne, ← UInt32.toNat_inj]
  have h : v.toNat &&& 1 = v.toNat % 2 := Nat.and_one_is_mod v.toNat
  simp only [UInt32.toNat_and, UInt32.toNat_zero, UInt32.toNat_one, h]
  omega

theorem toNat_shiftRight_one (v : UInt32) :
    (v >>> 1).toNat = v.toNat / 2 := by
  simp [Nat.shiftRight_eq_div_pow]

theorem xor_toNat_mod_two (x y : UInt32) :
    (x ^^^ y).toNat % 2 = (x.toNat + y.toNat) % 2 := by
  have h := Nat.xor_mod_two_pow (a := x.toNat) (b := y.toNat) (n := 1)
  simp only [pow_one] at h
  rw [UInt32.toNat_xor, h]
  have hx := Nat.mod_two_eq_zero_or_one x.toNat
  have hy := Nat.mod_two_eq_zero_or_one y.toNat
  rcases hx with hx | hx <;> rcases hy with hy | hy <;>
    simp [hx, hy, Nat.add_mod]

/-- A bit step is linear over exclusive or. -/
theorem bitStep_xor (x y : UInt32) :
    bitStep (x ^^^ y) = bitStep x ^^^ bitStep y := by
  unfold bitStep
  simp only [and_one_ne_zero_iff, xor_toNat_mod_two,
    UInt32.shiftRight_xor]
  have hx := Nat.mod_two_eq_zero_or_one x.toNat
  have hy := Nat.mod_two_eq_zero_or_one y.toNat
  rcases hx with hx | hx <;> rcases hy with hy | hy <;>
    simp only [hx, hy, Nat.add_mod, Nat.reduceAdd, Nat.reduceMod,
      if_true, if_false, zero_ne_one]
  · rw [UInt32.xor_assoc]
  · rw [UInt32.xor_assoc, UInt32.xor_assoc, UInt32.xor_comm (y >>> 1)]
  · rw [UInt32.xor_assoc, UInt32.xor_comm 0xEDB88320, UInt32.xor_assoc,
      UInt32.xor_self, UInt32.xor_zero]

theorem bitSteps_xor (n : Nat) (x y : UInt32) :
    bitSteps n (x ^^^ y) = bitSteps n x ^^^ bitSteps n y := by
  induction n generalizing x y with
  | zero =>
      rfl
  | succ n ih =>
      simp only [bitSteps, bitStep_xor, ih]

theorem toNat_bitSteps_of_dvd (n : Nat) (w : UInt32)
    (hw : w.toNat % 2 ^ n = 0) :
    (bitSteps n w).toNat = w.toNat / 2 ^ n := by
  induction n generalizing w with
  | zero =>
      simp [bitSteps]
  | succ n ih =>
      obtain ⟨k, hk⟩ := Nat.dvd_of_mod_eq_zero hw
      have hk' : w.toNat = 2 * (2 ^ n * k) := by
        rw [hk]
        ring
      have heven : ¬ (w &&& 1 ≠ 0) := by
        rw [and_one_ne_zero_iff, hk']
        omega
      have hstep : bitStep w = w >>> 1 := by
        simp only [bitStep, if_neg heven]
      have hhalf : (w >>> 1).toNat = 2 ^ n * k := by
        rw [toNat_shiftRight_one, hk']
        omega
      rw [bitSteps, hstep, ih _ (by rw [hhalf]; simp), hhalf, hk]
      rw [Nat.mul_div_cancel_left _ (by positivity),
        Nat.mul_div_cancel_left _ (by positivity)]

theorem xor_split (n : Nat) : n = (n / 256 * 256) ^^^ (n % 256) := by
  apply Nat.eq_of_testBit_eq
  intro i
  have h1 : (n / 256 * 256).testBit i = (decide (8 ≤ i) && n.testBit i) := by
    rw [show n / 256 * 256 = (n >>> 8) <<< 8 by
      rw [Nat.shiftRight_eq_div_pow, Nat.shiftLeft_eq]]
    rw [Nat.testBit_shiftLeft, Nat.testBit_shiftRight]
    by_cases hi : 8 ≤ i
    · simp [hi]
    · simp [hi]
  have h2 : (n % 256).testBit i = (decide (i < 8) && n.testBit i) :=
    Nat.testBit_mod_two_pow n 8 i
  rw [Nat.testBit_xor, h1, h2]
  by_cases hi : 8 ≤ i
  · simp [hi, show ¬ i < 8 by omega]
  · simp [hi, show i < 8 by omega]

/-- The table-driven byte step is eight bit steps. -/
theorem byteStep_eq (s : UInt32) (p : UInt8) :
    byteStep s p = bitSteps 8 (s ^^^ p.toUInt32) := by
  have hp := p.toNat_lt
  obtain ⟨v, hv⟩ : ∃ v, v = s ^^^ p.toUInt32 := ⟨_, rfl⟩
  have hlt := v.toNat_lt
  have hhi : (v >>> 8 <<< 8).toNat = v.toNat / 256 * 256 := by
    simp [Nat.shiftRight_eq_div_pow, Nat.shiftLeft_eq]
    omega
  have hlo : (v &&& 0xFF).toNat = v.toNat % 256 := by
    simp [and_255]
  have hsplit : v = (v >>> 8 <<< 8) ^^^ (v &&& 0xFF) := by
    apply UInt32.toNat_inj.mp
    rw [UInt32.toNat_xor, hhi, hlo]
    exact xor_split v.toNat
  have hshift : bitSteps 8 (v >>> 8 <<< 8) = v >>> 8 := by
    apply UInt32.toNat_inj.mp
    rw [toNat_bitSteps_of_dvd 8 _ (by rw [hhi]; omega), hhi]
    simp [Nat.shiftRight_eq_div_pow]
  have hps : p.toUInt32 >>> 8 = 0 := by
    apply UInt32.toNat_inj.mp
    simp [Nat.shiftRight_eq_div_pow]
    omega
  have hvs : v >>> 8 = s >>> 8 := by
    rw [hv, UInt32.shiftRight_xor, hps, UInt32.xor_zero]
  calc byteStep s p
      = (v >>> 8) ^^^ bitSteps 8 (v &&& 0xFF) := by
        rw [byteStep, sTable, ← hv, hvs]
    _ = bitSteps 8 (v >>> 8 <<< 8) ^^^ bitSteps 8 (v &&& 0xFF) := by
        rw [hshift]
    _ = bitSteps 8 v := by
        rw [← bitSteps_xor, ← hsplit]
    _ = bitSteps 8 (s ^^^ p.toUInt32) := by
        rw [hv]

theorem xor_left_cancel {a b c : UInt32} (h : a ^^^ c = b ^^^ c) :
    a = b := by
  have h' := congrArg (fun x => x ^^^ c) h
  simpa [UInt32.xor_assoc] using h'

/-- A bit step can be undone: the top bit of the result tells which branch
was taken. -/
theorem bitStep_injective {x y : UInt32} (h : bitStep x = bitStep y) :
    x = y := by
  have hx := x.toNat_lt
  have hy := y.toNat_lt
  have hmixed : ∀ a b : UInt32,
      ¬ ((a >>> 1) ^^^ (0xEDB88320 : UInt32) = b >>> 1) := by
    intro a b hab
    have ha := a.toNat_lt
    have hb := b.toNat_lt
    have hpoly : (0xEDB88320 : UInt32) = (b >>> 1) ^^^ (a >>> 1) := by
      rw [← hab, UInt32.xor_comm (a >>> 1), UInt32.xor_assoc,
        UInt32.xor_self, UInt32.xor_zero]
    have hlt : ((b >>> 1) ^^^ (a >>> 1)).toNat < 2 ^ 31 := by
      rw [UInt32.toNat_xor, toNat_shiftRight_one, toNat_shiftRight_one]
      exact Nat.xor_lt_two_pow (by omega) (by omega)
    rw [← hpoly] at hlt
    exact absurd hlt (by decide)
  have hhalf : ∀ a b : UInt32, a >>> 1 = b >>> 1 →
      a.toNat % 2 = b.toNat % 2 → a = b := by
    intro a b hab hmod
    have h2 := congrArg UInt32.toNat hab
    rw [toNat_shiftRight_one, toNat_shiftRight_one] at h2
    apply UInt32.toNat_inj.mp
    omega
  unfold bitStep at h
  simp only [and_one_ne_zero_iff] at h
  split at h <;> split at h
  · exact hhalf x y (xor_left_cancel h) (by omega)
  · exact absurd h (hmixed x y)
  · exact absurd h.symm (hmixed y x)
  · exact hhalf x y h (by omega)

theorem bitSteps_injective (n : Nat) {x y : UInt32}
    (h : bitSteps n x = bitSteps n y) : x = y := by
  induction n generalizing x y with
  | zero =>
      exact h
  | succ n ih =>
      exact bitStep_injective (ih h)

end Crc32

end Qdb
