import Qdb.Lib.Bytes

/-!
# JSON string literals

The string literals of RFC 8259, section 7, over bytes: the grammar `Literal`
and a reader `readString` that decodes the escapes and returns what follows the
closing quote.  A byte from 0x20 on that is neither a quote nor a backslash
stands for itself; an escaped code point stands for its UTF-8 bytes.

A text is put together from pieces, each read as one character;
`Pieces.literal` and `Pieces.read` say what such a text is and how it is read.
-/

namespace Qdb
namespace Lib

/-- Value of a hexadecimal digit of either case. -/
def hexVal (c : UInt8) : Option Nat :=
  if 48 ≤ c ∧ c ≤ 57 then some (c.toNat - 48)
  else if 97 ≤ c ∧ c ≤ 102 then some (c.toNat - 87)
  else if 65 ≤ c ∧ c ≤ 70 then some (c.toNat - 55)
  else none

/-- The UTF-8 bytes of a code point. -/
def utf8 (n : Nat) : Bytes :=
  if n < 0x80 then [UInt8.ofNat n]
  else if n < 0x800 then
    [UInt8.ofNat (0xC0 + n / 64), UInt8.ofNat (0x80 + n % 64)]
  else if n < 0x10000 then
    [UInt8.ofNat (0xE0 + n / 4096), UInt8.ofNat (0x80 + n / 64 % 64),
      UInt8.ofNat (0x80 + n % 64)]
  else
    [UInt8.ofNat (0xF0 + n / 262144), UInt8.ofNat (0x80 + n / 4096 % 64),
      UInt8.ofNat (0x80 + n / 64 % 64), UInt8.ofNat (0x80 + n % 64)]

/-- Four hexadecimal digits. -/
def readHex4 : Bytes → Option (Nat × Bytes)
  | a :: b :: c :: d :: rest => do
      let a ← hexVal a
      let b ← hexVal b
      let c ← hexVal c
      let d ← hexVal d
      return (a * 4096 + b * 256 + c * 16 + d, rest)
  | _ => none

/-- The part of a `\u` escape behind the `u`; a high surrogate takes the low
one with it. -/
def readUnicode (bs : Bytes) : Option (Bytes × Bytes) := do
  let (u, rest) ← readHex4 bs
  if 0xD800 ≤ u ∧ u < 0xDC00 then
    match rest with
    | x :: y :: rest =>
        if x ≠ 92 ∨ y ≠ 117 then none
        else
          let (l, rest) ← readHex4 rest
          if 0xDC00 ≤ l ∧ l < 0xE000 then
            return (utf8 (0x10000 + (u - 0xD800) * 1024 + (l - 0xDC00)), rest)
          else none
    | _ => none
  else if 0xDC00 ≤ u ∧ u < 0xE000 then none
  else return (utf8 u, rest)

/-- The part of an escape behind the backslash. -/
def readEscape : Bytes → Option (Bytes × Bytes)
  | [] => none
  | e :: rest =>
      if e = 34 ∨ e = 92 ∨ e = 47 then some ([e], rest)
      else if e = 98 then some ([8], rest)
      else if e = 102 then some ([12], rest)
      else if e = 110 then some ([10], rest)
      else if e = 114 then some ([13], rest)
      else if e = 116 then some ([9], rest)
      else if e = 117 then readUnicode rest
      else none

/-- One character or escape inside a literal. -/
def readChar : Bytes → Option (Bytes × Bytes)
  | [] => none
  | c :: rest =>
      if c = 92 then readEscape rest
      else if c < 32 ∨ c = 34 then none
      else some ([c], rest)

/-- The characters up to the closing quote, and what follows it. -/
def readChars : Nat → Bytes → Option (Bytes × Bytes)
  | 0, _ => none
  | _ + 1, [] => none
  | fuel + 1, c :: rest =>
      if c = 34 then some ([], rest)
      else do
        let (x, rest) ← readChar (c :: rest)
        let (xs, rest) ← readChars fuel rest
        return (x ++ xs, rest)

/-- A string literal at the front of a text. -/
def readString : Bytes → Option (Bytes × Bytes)
  | [] => none
  | c :: rest =>
      if c = 34 then readChars (rest.length + 1) rest else none

/-- The characters between the quotes of a literal. -/
inductive Body : Bytes → Prop
  | nil : Body []
  /-- A byte that stands for itself. -/
  | plain {c : UInt8} {bs : Bytes} (hctrl : 32 ≤ c) (hquote : c ≠ 34)
      (hback : c ≠ 92) (h : Body bs) : Body (c :: bs)
  /-- A two-character escape. -/
  | short {e : UInt8} {bs : Bytes}
      (he : e ∈ [34, 92, 47, 98, 102, 110, 114, 116]) (h : Body bs) :
      Body (92 :: e :: bs)
  /-- A `\u` escape. -/
  | unicode {a b c d : UInt8} {bs : Bytes}
      (hhex : ∀ x ∈ [a, b, c, d], (hexVal x).isSome) (h : Body bs) :
      Body (92 :: 117 :: a :: b :: c :: d :: bs)

/-- A string literal. -/
inductive Literal : Bytes → Prop
  | quoted {body : Bytes} (h : Body body) : Literal (34 :: (body ++ [34]))

/-- A text that is read as one byte of the string, whatever follows. -/
structure Piece (x : UInt8) (bs : Bytes) : Prop where
  body : ∀ {t : Bytes}, Body t → Body (bs ++ t)
  head : ∃ c t, bs = c :: t ∧ c ≠ 34
  read : ∀ rest, readChar (bs ++ rest) = some ([x], rest)

/-- The bytes `xs` written with the pieces `f`. -/
def pieces (f : UInt8 → Bytes) (xs : Bytes) : Bytes :=
  xs.flatMap f

section Pieces

variable {f : UInt8 → Bytes} {xs : Bytes}

theorem Pieces.body (h : ∀ x ∈ xs, Piece x (f x)) : Body (pieces f xs) := by
  induction xs with
  | nil =>
      exact Body.nil
  | cons x xs ih =>
      have hx := h x (List.mem_cons_self ..)
      exact hx.body (ih fun y hy => h y (List.mem_cons_of_mem x hy))

/-- Pieces between quotes are a literal. -/
theorem Pieces.literal (h : ∀ x ∈ xs, Piece x (f x)) :
    Literal (34 :: (pieces f xs ++ [34])) :=
  Literal.quoted (Pieces.body h)

theorem Pieces.readChars (h : ∀ x ∈ xs, Piece x (f x)) (rest : Bytes) :
    ∀ fuel, xs.length < fuel →
      Lib.readChars fuel (pieces f xs ++ 34 :: rest) = some (xs, rest) := by
  induction xs with
  | nil =>
      intro fuel hfuel
      obtain ⟨k, rfl⟩ := Nat.exists_eq_succ_of_ne_zero (by omega : fuel ≠ 0)
      rfl
  | cons x xs ih =>
      intro fuel hfuel
      obtain ⟨k, rfl⟩ := Nat.exists_eq_succ_of_ne_zero (by omega : fuel ≠ 0)
      have hx := h x (List.mem_cons_self ..)
      have hk : xs.length < k := by
        rw [List.length_cons] at hfuel
        omega
      obtain ⟨c, t, hc, hne⟩ := hx.head
      have hcons : pieces f (x :: xs) ++ 34 :: rest =
          f x ++ (pieces f xs ++ 34 :: rest) := by
        rw [pieces, List.flatMap_cons, List.append_assoc]
        rfl
      have hread := hx.read (pieces f xs ++ 34 :: rest)
      rw [hcons]
      rw [hc, List.cons_append] at hread ⊢
      unfold Lib.readChars
      rw [if_neg hne, hread]
      have hrest := ih (fun y hy => h y (List.mem_cons_of_mem x hy)) k hk
      simp [hrest]

theorem Pieces.length_le (h : ∀ x ∈ xs, Piece x (f x)) :
    xs.length ≤ (pieces f xs).length := by
  induction xs with
  | nil =>
      simp
  | cons x xs ih =>
      obtain ⟨c, t, hc, -⟩ := (h x (List.mem_cons_self ..)).head
      have hxs := ih fun y hy => h y (List.mem_cons_of_mem x hy)
      have hcons : pieces f (x :: xs) = f x ++ pieces f xs := rfl
      rw [hcons, hc, List.length_append, List.length_cons, List.length_cons]
      omega

/-- Pieces between quotes are read as what they stand for, up to the closing
quote. -/
theorem Pieces.read (h : ∀ x ∈ xs, Piece x (f x)) (rest : Bytes) :
    readString (34 :: (pieces f xs ++ 34 :: rest)) = some (xs, rest) := by
  have hlen := Pieces.length_le h
  unfold readString
  dsimp only
  rw [if_pos rfl]
  apply Pieces.readChars h
  rw [List.length_append]
  omega

end Pieces

end Lib
end Qdb
