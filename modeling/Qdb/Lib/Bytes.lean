import Mathlib.Tactic

/-!
# Byte files

A file is a finite byte string.  A positional read returns a slice, shorter at
the end of the file; a positional write overwrites, filling a gap behind the
end with zero bytes; a resize cuts or zero-extends.

The lemmas move each operation across a known prefix of the file, so that an
argument about appending to a log never looks below the append position.
-/

namespace Qdb
namespace Lib

/-- Byte strings. -/
abbrev Bytes := List UInt8

/-- The bytes of `f` in `[off, off + len)`, as far as `f` reaches. -/
def slice (f : Bytes) (off len : Nat) : Bytes :=
  (f.drop off).take len

/-- Write `bs` at `off`, zero-filling a gap behind the end. -/
def overwrite (f : Bytes) (off : Nat) (bs : Bytes) : Bytes :=
  f.take off ++ List.replicate (off - f.length) 0 ++
    bs ++ f.drop (off + bs.length)

/-- Cut or zero-extend to exactly `n` bytes. -/
def resize (f : Bytes) (n : Nat) : Bytes :=
  f.take n ++ List.replicate (n - f.length) 0

@[simp] theorem length_slice (f : Bytes) (off len : Nat) :
    (slice f off len).length = min len (f.length - off) := by
  simp [slice]

@[simp] theorem length_overwrite (f : Bytes) (off : Nat) (bs : Bytes) :
    (overwrite f off bs).length = max f.length (off + bs.length) := by
  simp [overwrite]
  omega

@[simp] theorem length_resize (f : Bytes) (n : Nat) :
    (resize f n).length = n := by
  simp [resize]
  omega

theorem slice_append_right (p t : Bytes) (k len : Nat) :
    slice (p ++ t) (p.length + k) len = slice t k len := by
  unfold slice
  rw [← List.drop_drop, List.drop_left]

/-- A slice that ends inside a known prefix. -/
theorem slice_append_left
    (p t : Bytes) {off len : Nat} (h : off + len ≤ p.length) :
    slice (p ++ t) off len = slice p off len := by
  unfold slice
  rw [List.drop_append_of_le_length (by omega),
    List.take_append_of_le_length (by simp; omega)]

@[simp] theorem slice_zero_left (p t : Bytes) :
    slice (p ++ t) 0 p.length = p := by
  simp [slice]

theorem slice_mid (a b c : Bytes) :
    slice (a ++ (b ++ c)) a.length b.length = b := by
  have h := slice_append_right a (b ++ c) 0 b.length
  rw [Nat.add_zero] at h
  rw [h, slice_zero_left]

theorem overwrite_append_right (p t : Bytes) (k : Nat) (bs : Bytes) :
    overwrite (p ++ t) (p.length + k) bs = p ++ overwrite t k bs := by
  unfold overwrite
  have h1 : (p ++ t).take (p.length + k) = p ++ t.take k := by
    rw [List.take_length_add_append]
  have h2 : (p ++ t).drop (p.length + k + bs.length) =
      t.drop (k + bs.length) := by
    rw [Nat.add_assoc, List.drop_length_add_append]
  have h3 : p.length + k - (p ++ t).length = k - t.length := by
    simp
    omega
  rw [h1, h2, h3]
  simp [List.append_assoc]

@[simp] theorem overwrite_zero (t bs : Bytes) :
    overwrite t 0 bs = bs ++ t.drop bs.length := by
  simp [overwrite]

/-- Writing right behind a known prefix. -/
theorem overwrite_at_end (p t bs : Bytes) :
    overwrite (p ++ t) p.length bs = p ++ (bs ++ t.drop bs.length) := by
  have h := overwrite_append_right p t 0 bs
  rw [Nat.add_zero] at h
  rw [h, overwrite_zero]

/-- Two writes, the second one right behind the first. -/
theorem overwrite_overwrite (f a b : Bytes) (k : Nat) :
    overwrite (overwrite f k a) (k + a.length) b = overwrite f k (a ++ b) := by
  have hk : (f.take k ++ List.replicate (k - f.length) 0 ++ a).length =
      k + a.length := by
    simp
    omega
  unfold overwrite
  rw [← hk]
  change overwrite _ _ b = _
  rw [overwrite_at_end]
  simp [List.append_assoc]
  omega

/-- Replacing a middle part by one of the same length. -/
theorem overwrite_mid (a b c bs : Bytes) (h : bs.length = b.length) :
    overwrite (a ++ (b ++ c)) a.length bs = a ++ (bs ++ c) := by
  rw [overwrite_at_end, h, List.drop_left]

@[simp] theorem resize_length (p t : Bytes) :
    resize (p ++ t) p.length = p := by
  simp [resize]

/-- Two adjacent slices. -/
theorem slice_add (f : Bytes) (off m n : Nat) :
    slice f off (m + n) = slice f off m ++ slice f (off + m) n := by
  unfold slice
  rw [List.take_add, List.drop_drop]

theorem slice_append_iff {f a b : Bytes} {off : Nat} :
    slice f off (a ++ b).length = a ++ b ↔
      slice f off a.length = a ∧ slice f (off + a.length) b.length = b := by
  rw [List.length_append, slice_add]
  constructor
  · intro h
    have hl := congrArg List.length h
    rw [List.length_append, List.length_append, length_slice,
      length_slice] at hl
    exact List.append_inj h (by rw [length_slice]; omega)
  · rintro ⟨ha, hb⟩
    rw [ha, hb]

/-- A slice that is there in full. -/
theorem slice_full {f b : Bytes} {off : Nat} (h : slice f off b.length = b) :
    b = [] ∨ off + b.length ≤ f.length := by
  have hl := congrArg List.length h
  rw [length_slice] at hl
  rcases Nat.eq_zero_or_pos b.length with h0 | h0
  · exact Or.inl (List.length_eq_zero_iff.mp h0)
  · right
    omega

/-- What has just been written is read back. -/
theorem slice_overwrite_self (f : Bytes) (off : Nat) (bs : Bytes) :
    slice (overwrite f off bs) off bs.length = bs := by
  unfold overwrite
  rw [List.append_assoc]
  have hl : (f.take off ++ List.replicate (off - f.length) 0).length = off := by
    simp
    omega
  have h := slice_mid (f.take off ++ List.replicate (off - f.length) 0) bs
    (f.drop (off + bs.length))
  rwa [hl] at h

/-- A write leaves the bytes in front of it alone. -/
theorem slice_overwrite_left {f : Bytes} {off off' len : Nat} (bs : Bytes)
    (h : off' + len ≤ off) (hf : off' + len ≤ f.length) :
    slice (overwrite f off bs) off' len = slice f off' len := by
  have hf' : f = f.take (off' + len) ++ f.drop (off' + len) :=
    (List.take_append_drop _ _).symm
  have hl : (f.take (off' + len)).length = off' + len := by
    rw [List.length_take]
    omega
  obtain ⟨k, rfl⟩ := Nat.exists_eq_add_of_le h
  have ho := overwrite_append_right (f.take (off' + len))
    (f.drop (off' + len)) k bs
  rw [hl, List.take_append_drop] at ho
  rw [ho, slice_append_left _ _ (by omega)]
  conv_rhs => rw [hf']
  rw [slice_append_left _ _ (by omega)]

/-- A write leaves the bytes behind it alone. -/
theorem slice_overwrite_right {f : Bytes} {off off' : Nat} {bs : Bytes}
    (h : off + bs.length ≤ off') (hf : off ≤ f.length) (len : Nat) :
    slice (overwrite f off bs) off' len = slice f off' len := by
  obtain ⟨k, rfl⟩ := Nat.exists_eq_add_of_le h
  unfold overwrite
  have h0 : off - f.length = 0 := by omega
  have hl : (f.take off ++ List.replicate (off - f.length) 0 ++ bs).length =
      off + bs.length := by
    simp
    omega
  have hr := slice_append_right
    (f.take off ++ List.replicate (off - f.length) 0 ++ bs)
    (f.drop (off + bs.length)) k len
  rw [hl] at hr
  rw [hr]
  unfold slice
  rw [List.drop_drop]

/-- A resize leaves the bytes in front alone. -/
theorem slice_resize_left {f : Bytes} {n off len : Nat}
    (h : off + len ≤ n) (hf : off + len ≤ f.length) :
    slice (resize f n) off len = slice f off len := by
  unfold resize
  have hl : off + len ≤ (f.take n).length := by
    rw [List.length_take]
    omega
  rw [slice_append_left _ _ hl]
  conv_rhs => rw [← List.take_append_drop n f]
  rw [slice_append_left _ _ hl]

end Lib
end Qdb
