import Qdb.CompactFailure

/-!
# The transfer loops of the platform layer

`qdb__pwrite` and `qdb__pread` of `qdb_platform.c` issue system calls until all
bytes have been transferred; a call may be interrupted, fail, or transfer less
than it was asked for.  The loops run here on the answers of the kernel.  Every
loop that gets enough answers ends, with a result and a file that are an outcome
of the one operation that the programs of the library perform
(`pwrite_refines`, `pread_refines`): a failed write has transferred a prefix of
its bytes.
-/

namespace Qdb

open Lib

/-- How the kernel answers a transfer: with `EINTR`, with another error, or
with at most so many bytes transferred. -/
inductive Transfer
  | interrupted
  | failed
  | upTo (n : Nat)
deriving DecidableEq

/-- The answers that are not `EINTR`. -/
def answered (ts : List Transfer) : Nat :=
  ts.countP (· ≠ .interrupted)

theorem answered_interrupted (ts : List Transfer) :
    answered (.interrupted :: ts) = answered ts :=
  List.countP_cons_of_neg (by simp)

theorem answered_upTo (n : Nat) (ts : List Transfer) :
    answered (.upTo n :: ts) = answered ts + 1 :=
  List.countP_cons_of_pos (by simp)

section Write

variable {f f₀ buf : Bytes} {off total n : Nat}

/-- The loop of `qdb__pwrite` on the file `f`, `total` bytes of `buf` having
been written; there is no result when the answers run out. -/
def pwriteLoop (off : Nat) (buf : Bytes) :
    List Transfer → Nat → Bytes → Option (Rc × Bytes)
  | [], total, f => if total < buf.length then none else some (.ok, f)
  | t :: ts, total, f =>
      if total < buf.length then
        match t with
        | .interrupted => pwriteLoop off buf ts total f
        | .failed => some (.errIo, f)
        | .upTo n =>
            let chunk := slice buf total n
            if chunk = [] then some (.errIo, f)
            else pwriteLoop off buf ts (total + chunk.length)
              (overwrite f (off + total) chunk)
      else some (.ok, f)

theorem pwriteLoop_done {ts : List Transfer} (h : buf.length ≤ total) :
    pwriteLoop off buf ts total f = some (.ok, f) := by
  have hlt : ¬ total < buf.length := Nat.not_lt.mpr h
  cases ts with
  | nil =>
      rw [pwriteLoop, if_neg hlt]
  | cons t ts =>
      cases t <;> rw [pwriteLoop, if_neg hlt]

/-- The first `total` bytes of `buf` have been written to `f₀`. -/
def Written (f₀ : Bytes) (off : Nat) (buf : Bytes) (total : Nat)
    (f : Bytes) : Prop :=
  total ≤ buf.length ∧
    ((total = 0 ∧ f = f₀) ∨ f = overwrite f₀ off (buf.take total))

theorem take_append_slice (buf : Bytes) (total n : Nat) :
    buf.take total ++ slice buf total n =
      buf.take (total + (slice buf total n).length) := by
  rw [List.take_add]
  congr 1
  exact List.prefix_iff_eq_take.mp (List.take_prefix n _)

/-- One more chunk. -/
theorem Written.chunk (h : Written f₀ off buf total f) (n : Nat) :
    Written f₀ off buf (total + (slice buf total n).length)
      (overwrite f (off + total) (slice buf total n)) := by
  obtain ⟨hle, h⟩ := h
  have hlen : (buf.take total).length = total := by
    rw [List.length_take]
    omega
  refine ⟨?_, Or.inr ?_⟩
  · rw [length_slice]
    omega
  rw [← take_append_slice]
  rcases h with ⟨rfl, rfl⟩ | rfl
  · rfl
  · have htwo := overwrite_overwrite f₀ (buf.take total)
      (slice buf total n) off
    rwa [hlen] at htwo

/-- A loop that gets enough answers has written everything, or fails after a
prefix. -/
theorem pwriteLoop_spec {ts : List Transfer}
    (h : Written f₀ off buf total f)
    (hts : buf.length - total ≤ answered ts) :
    ∃ rc f', pwriteLoop off buf ts total f = some (rc, f') ∧
      ((rc = .ok ∧ Written f₀ off buf buf.length f') ∨
        (rc = .errIo ∧ ∃ k < buf.length, Written f₀ off buf k f')) := by
  induction ts generalizing total f with
  | nil =>
      have htotal : total = buf.length :=
        le_antisymm h.1 (Nat.sub_eq_zero_iff_le.mp (Nat.le_zero.mp hts))
      exact ⟨.ok, f, pwriteLoop_done htotal.ge, Or.inl ⟨rfl, htotal ▸ h⟩⟩
  | cons t ts ih =>
      by_cases hlt : total < buf.length
      · cases t with
        | interrupted =>
            rw [answered_interrupted] at hts
            rw [pwriteLoop, if_pos hlt]
            exact ih h hts
        | failed =>
            rw [pwriteLoop, if_pos hlt]
            exact ⟨.errIo, f, rfl, Or.inr ⟨rfl, total, hlt, h⟩⟩
        | upTo n =>
            rw [answered_upTo] at hts
            rw [pwriteLoop, if_pos hlt]
            by_cases hc : slice buf total n = []
            · rw [if_pos hc]
              exact ⟨.errIo, f, rfl, Or.inr ⟨rfl, total, hlt, h⟩⟩
            · rw [if_neg hc]
              have hpos := List.length_pos_iff.mpr hc
              exact ih (h.chunk n) (by omega)
      · have htotal : total = buf.length := le_antisymm h.1 (Nat.not_lt.mp hlt)
        exact ⟨.ok, f, pwriteLoop_done (Nat.not_lt.mp hlt),
          Or.inl ⟨rfl, htotal ▸ h⟩⟩

theorem World.content_issue (w : World) (i : Nat) (p : Pending) :
    (w.issue i p).content i = p.apply (w.content i) := by
  unfold World.content
  rw [World.issue_files_self, FileState.content_issue]

/-- The loop of `qdb__pwrite` ends once it has got as many answers other than
`EINTR` as it has bytes to write, and ends as the operation may end. -/
theorem pwrite_refines {w : World} {i : Nat} {off : UInt64} {buf : Bytes}
    {ts : List Transfer} (hfit : off.toNat + buf.length ≤ maxFileSize)
    (hts : buf.length ≤ answered ts) :
    ∃ rc w', pwriteLoop off.toNat buf ts 0 (w.content i) =
        some (rc, w'.content i) ∧
      Failing (fun _ => True) (.pwrite (some i) buf off) w rc w' := by
  have h0 : Written (w.content i) off.toNat buf 0 (w.content i) :=
    ⟨Nat.zero_le _, Or.inl ⟨rfl, rfl⟩⟩
  obtain ⟨rc, f, hrun, ⟨rfl, -, hf⟩ | ⟨rfl, k, hk, -, hf⟩⟩ :=
    pwriteLoop_spec h0 (Nat.le_trans (Nat.sub_le _ _) hts)
  · by_cases hbuf : buf = []
    · subst hbuf
      have hsame : f = w.content i := by
        rcases hf with ⟨-, hf⟩ | hf
        · exact hf
        · have hnil : pwriteLoop off.toNat [] ts 0 (w.content i) =
              some (.ok, w.content i) := by
            cases ts <;> rfl
          rw [hnil] at hrun
          cases hrun
          rfl
      rw [hsame] at hrun
      exact ⟨.ok, w, hrun, Or.inl rfl⟩
    · have hpos := List.length_pos_iff.mpr hbuf
      have hall : f = overwrite (w.content i) off.toNat buf := by
        rcases hf with ⟨hzero, -⟩ | hf
        · omega
        · rw [hf, List.take_length]
      refine ⟨.ok, w.issue i (.write off.toNat buf), ?_, Or.inl ?_⟩
      · rw [hrun, World.content_issue, hall]
        rfl
      · simp only [posix]
        rw [if_neg hbuf, if_pos hfit]
  · rcases hf with ⟨-, rfl⟩ | rfl
    · exact ⟨.errIo, w, hrun, Or.inr ⟨trivial, rfl, Or.inl rfl⟩⟩
    · refine ⟨.errIo, w.issue i (.write off.toNat (buf.take k)), ?_,
        Or.inr ⟨trivial, rfl, Or.inr ⟨i, k, rfl, hk, by omega, rfl⟩⟩⟩
      rw [hrun, World.content_issue]
      rfl

/-- A write in two parts that is interrupted first. -/
theorem pwrite_refines_split : ∃ rc w',
    pwriteLoop (0 : UInt64).toNat [1, 2]
        [.interrupted, .upTo 1, .upTo 5] 0 (World.empty.content 0) =
      some (rc, w'.content 0) ∧
    Failing (fun _ => True) (.pwrite (some 0) [1, 2] 0) World.empty rc w' :=
  pwrite_refines (by rw [maxFileSize_eq]; decide) (by decide)

end Write

section Read

variable {f buf : Bytes} {off len n : Nat}

/-- The loop of `qdb__pread` on the file `f`, `buf` having been read; a read
that is answered transfers nothing at the end of the file only. -/
def preadLoop (off len : Nat) (f : Bytes) :
    List Transfer → Bytes → Option (Except Rc Bytes)
  | [], buf => if buf.length < len then none else some (.ok buf)
  | t :: ts, buf =>
      if buf.length < len then
        match t with
        | .interrupted => preadLoop off len f ts buf
        | .failed => some (.error .errIo)
        | .upTo n =>
            let chunk := slice f (off + buf.length)
              (min (n + 1) (len - buf.length))
            if chunk = [] then some (.ok buf)
            else preadLoop off len f ts (buf ++ chunk)
      else some (.ok buf)

theorem preadLoop_done {ts : List Transfer} (h : len ≤ buf.length) :
    preadLoop off len f ts buf = some (.ok buf) := by
  have hlt : ¬ buf.length < len := Nat.not_lt.mpr h
  cases ts with
  | nil =>
      rw [preadLoop, if_neg hlt]
  | cons t ts =>
      cases t <;> rw [preadLoop, if_neg hlt]

/-- The bytes in `buf` are the first ones the read is for. -/
def Gathered (f : Bytes) (off len : Nat) (buf : Bytes) : Prop :=
  buf.length ≤ len ∧ slice f off buf.length = buf

theorem Gathered.full (h : Gathered f off len buf) (hlen : len ≤ buf.length) :
    slice f off len = buf := by
  rw [show len = buf.length from le_antisymm hlen h.1]
  exact h.2

/-- At the end of the file everything has been read. -/
theorem Gathered.atEnd (h : Gathered f off len buf)
    (hend : f.length ≤ off + buf.length) : slice f off len = buf := by
  have hsplit := slice_add f off buf.length (len - buf.length)
  rw [Nat.add_sub_cancel' h.1, h.2] at hsplit
  rw [hsplit]
  have hnil : slice f (off + buf.length) (len - buf.length) = [] := by
    apply List.length_eq_zero_iff.mp
    rw [length_slice]
    omega
  rw [hnil, List.append_nil]

/-- One more chunk. -/
theorem Gathered.chunk (h : Gathered f off len buf) (n : Nat) :
    Gathered f off len (buf ++
      slice f (off + buf.length) (min n (len - buf.length))) := by
  refine ⟨?_, ?_⟩
  · have := h.1
    rw [List.length_append, length_slice]
    omega
  · rw [List.length_append, slice_add, h.2]
    congr 1
    exact (List.prefix_iff_eq_take.mp (List.take_prefix _ _)).symm

/-- A loop that gets enough answers has read what there is, or fails. -/
theorem preadLoop_spec {ts : List Transfer} (h : Gathered f off len buf)
    (hts : len - buf.length ≤ answered ts) :
    ∃ r, preadLoop off len f ts buf = some r ∧
      (r = .ok (slice f off len) ∨ r = .error .errIo) := by
  induction ts generalizing buf with
  | nil =>
      have hfull : len ≤ buf.length :=
        Nat.sub_eq_zero_iff_le.mp (Nat.le_zero.mp hts)
      exact ⟨.ok buf, preadLoop_done hfull, Or.inl (by rw [h.full hfull])⟩
  | cons t ts ih =>
      by_cases hlt : buf.length < len
      · cases t with
        | interrupted =>
            rw [answered_interrupted] at hts
            rw [preadLoop, if_pos hlt]
            exact ih h hts
        | failed =>
            rw [preadLoop, if_pos hlt]
            exact ⟨_, rfl, Or.inr rfl⟩
        | upTo n =>
            rw [answered_upTo] at hts
            rw [preadLoop, if_pos hlt]
            by_cases hc : slice f (off + buf.length)
                (min (n + 1) (len - buf.length)) = []
            · rw [if_pos hc]
              have hzero := congrArg List.length hc
              rw [length_slice, List.length_nil] at hzero
              exact ⟨_, rfl, Or.inl (by rw [h.atEnd (by omega)])⟩
            · rw [if_neg hc]
              have hpos := List.length_pos_iff.mpr hc
              refine ih (h.chunk (n + 1)) ?_
              rw [List.length_append]
              omega
      · have hfull : len ≤ buf.length := Nat.not_lt.mp hlt
        exact ⟨.ok buf, preadLoop_done hfull, Or.inl (by rw [h.full hfull])⟩

/-- The loop of `qdb__pread` ends once it has got as many answers other than
`EINTR` as it has bytes to read, and ends as the operation may end. -/
theorem pread_refines {w : World} {i len : Nat} {off : UInt64}
    {ts : List Transfer} (hoff : off.toNat ≤ maxFileSize)
    (hts : len ≤ answered ts) :
    ∃ r, preadLoop off.toNat len (w.content i) ts [] = some r ∧
      Failing (fun _ => True) (.pread (some i) len off) w r w := by
  have h0 : Gathered (w.content i) off.toNat len [] :=
    ⟨Nat.zero_le _, rfl⟩
  obtain ⟨r, hrun, hr⟩ :=
    preadLoop_spec h0 (Nat.le_trans (Nat.sub_le _ _) hts)
  refine ⟨r, hrun, ?_⟩
  rcases hr with rfl | rfl
  · left
    simp only [posix]
    by_cases hlen : len = 0
    · rw [if_pos hlen, hlen]
      rfl
    · rw [if_neg hlen, if_pos hoff]
  · exact Or.inr ⟨trivial, rfl, rfl⟩

/-- A file of three bytes. -/
def threeBytes : World :=
  World.empty.issue 0 (.write 0 [7, 8, 9])

/-- A read in two parts that is interrupted first. -/
theorem pread_refines_split : ∃ r,
    preadLoop (1 : UInt64).toNat 2 (threeBytes.content 0)
      [.interrupted, .upTo 0, .upTo 5] [] = some r ∧
    Failing (fun _ => True) (.pread (some 0) 2 1) threeBytes r threeBytes ∧
    r = .ok [8, 9] := by
  obtain ⟨r, hloop, hr⟩ : ∃ r,
      preadLoop (1 : UInt64).toNat 2 (threeBytes.content 0)
        [.interrupted, .upTo 0, .upTo 5] [] = some r ∧
      Failing (fun _ => True) (.pread (some 0) 2 1) threeBytes r threeBytes :=
    pread_refines (by rw [maxFileSize_eq]; decide) (by decide)
  have hread : preadLoop (1 : UInt64).toNat 2 (threeBytes.content 0)
      [.interrupted, .upTo 0, .upTo 5] [] = some (.ok [8, 9]) := by
    decide +kernel
  exact ⟨r, hloop, hr, Option.some.inj (hloop.symm.trans hread)⟩

end Read

end Qdb
