import Qdb.Platform

/-!
# Failing writes and crashes

`Faulty F` is the machine of `posix` on which, if `F` holds, any single write or
sync, and the deletion of the WAL file, may fail in addition: a failed write has
transferred some of its bytes, a failed sync has made nothing durable.  On
`posixKeeping` only the deletion of the WAL file fails.  `World.Crash` describes
what is left after a crash.

The invariant that carries every argument about both is `FileState.Keeps`: the
file has a fixed part, a 32-byte header patch out of a known set and, from some
offset on, a fixed body, all of it durable; every issued change either replaces
the patch or is behind the body.
-/

namespace Qdb

open Lib

theorem maxFileSize_eq : maxFileSize = 9223372036854775807 := by
  rfl

/-- How a write, a sync or the deletion of the WAL file may fail. -/
def Op.Fails : (o : Op) → World → o.Resp → World → Prop
  | .pwrite fd bs off, w, rc, w' =>
      rc = .errIo ∧
        (w' = w ∨ ∃ i k, fd = some i ∧ k < bs.length ∧
          off.toNat + k ≤ maxFileSize ∧
          w' = w.issue i (.write off.toNat (bs.take k)))
  | .fileSync _, w, rc, w' => rc = .errIo ∧ w' = w
  | .fileDelete .wal, w, rc, w' => rc = .errIo ∧ w' = w
  | _, _, _, _ => False

/-- The machine on which any of these operations may fail if `F` holds. -/
def Faulty (F : Prop) (o : Op) (w : World) (r : o.Resp) (w' : World) : Prop :=
  (r, w') = posix o w ∨ (F ∧ o.Fails w r w')

theorem faulty_posix (F : Prop) (o : Op) (w : World) :
    Faulty F o w (posix o w).1 (posix o w).2 :=
  Or.inl rfl

theorem Faulty.weaken {F : Prop} (o : Op) (w : World) (r : o.Resp)
    (w' : World) (h : Faulty F o w r w') : Faulty True o w r w' := by
  rcases h with h | ⟨-, h⟩
  · exact Or.inl h
  · exact Or.inr ⟨trivial, h⟩

/-- The machine of `posix` on which the WAL file cannot be deleted if `fails`
is set. -/
def posixKeeping (fails : Bool) (o : Op) (w : World) : o.Resp × World :=
  match o with
  | .fileDelete .wal =>
      if fails then (.errIo, w) else posix (.fileDelete .wal) w
  | o => posix o w

/-- The answers of that machine. -/
def Keeping (fails : Bool) (o : Op) (w : World) (r : o.Resp) (w' : World) :
    Prop :=
  (r, w') = posixKeeping fails o w

theorem posixKeeping_of_ne {o : Op} (ho : o ≠ .fileDelete .wal) (fails : Bool)
    (w : World) : posixKeeping fails o w = posix o w := by
  unfold posixKeeping
  split
  · exact absurd rfl ho
  · rfl

theorem posixKeeping_false : posixKeeping false = posix := by
  funext o w
  unfold posixKeeping
  split <;> rfl

theorem Keeping.weaken {fails : Bool} (o : Op) (w : World) (r : o.Resp)
    (w' : World) (h : Keeping fails o w r w') : Faulty True o w r w' := by
  by_cases ho : o = .fileDelete .wal
  · subst ho
    cases fails with
    | false =>
        exact Or.inl h
    | true =>
        obtain ⟨hr, hw⟩ := Prod.mk.inj h
        exact Or.inr ⟨trivial, hr, hw⟩
  · exact Or.inl (h.trans (posixKeeping_of_ne ho fails w))

theorem Keeping.of_faulty {o : Op} {w w' : World} {r : o.Resp}
    (h : Faulty False o w r w') : Keeping false o w r w' := by
  rcases h with h | ⟨hF, -⟩
  · unfold Keeping
    rw [posixKeeping_false]
    exact h
  · exact hF.elim

/-- Only the file `i` differs. -/
structure World.SameBut (i : Nat) (w w' : World) : Prop where
  dir : w'.dir = w.dir
  files : ∀ j, j ≠ i → w'.files j = w.files j
  nextIno : w'.nextIno = w.nextIno
  lockOwner : w'.lockOwner = w.lockOwner
  nextLockFd : w'.nextLockFd = w.nextLockFd
  now : w'.now = w.now

namespace World.SameBut

variable {i : Nat} {w w' w'' : World}

theorem refl (i : Nat) (w : World) : w.SameBut i w where
  dir := rfl
  files := fun _ _ => rfl
  nextIno := rfl
  lockOwner := rfl
  nextLockFd := rfl
  now := rfl

theorem trans (h : w.SameBut i w') (h' : w'.SameBut i w'') :
    w.SameBut i w'' where
  dir := h'.dir.trans h.dir
  files := fun j hj => (h'.files j hj).trans (h.files j hj)
  nextIno := h'.nextIno.trans h.nextIno
  lockOwner := h'.lockOwner.trans h.lockOwner
  nextLockFd := h'.nextLockFd.trans h.nextLockFd
  now := h'.now.trans h.now

theorem setFile (i : Nat) (w : World) (s : FileState) :
    w.SameBut i (w.setFile i s) where
  dir := rfl
  files := fun _ hj => Function.update_of_ne hj _ _
  nextIno := rfl
  lockOwner := rfl
  nextLockFd := rfl
  now := rfl

end World.SameBut

@[simp] theorem World.setFile_files_self (w : World) (i : Nat)
    (s : FileState) : (w.setFile i s).files i = s := by
  simp [World.setFile]

@[simp] theorem World.issue_files_self (w : World) (i : Nat) (p : Pending) :
    (w.issue i p).files i = (w.files i).issue p := by
  simp [World.issue]

section Bounded

/-- Every file is shorter than 2^63 bytes. -/
def World.Bounded (w : World) : Prop :=
  ∀ i, (w.content i).length ≤ maxFileSize

variable {w : World}

theorem World.Bounded.setFile (h : w.Bounded) (i : Nat) {s : FileState}
    (hs : s.content.length ≤ maxFileSize) : (w.setFile i s).Bounded := by
  intro j
  change (Function.update w.files i s j).content.length ≤ _
  by_cases hj : j = i
  · subst hj
    rw [Function.update_self]
    exact hs
  · rw [Function.update_of_ne hj]
    exact h j

theorem World.Bounded.issue (h : w.Bounded) (i : Nat) {q : Pending}
    (hq : (q.apply (w.content i)).length ≤ maxFileSize) :
    (w.issue i q).Bounded := by
  refine h.setFile i ?_
  rw [FileState.content_issue]
  exact hq

/-- No operation makes a file too long. -/
theorem bounded_posix (o : Op) (w : World) (h : w.Bounded) :
    (posix o w).2.Bounded := by
  have hwrite : ∀ (i off : Nat) (bs : Bytes),
      off + bs.length ≤ maxFileSize →
      (w.issue i (.write off bs)).Bounded := by
    intro i off bs hbs
    refine h.issue i ?_
    change (overwrite _ _ _).length ≤ _
    rw [length_overwrite]
    exact max_le (h i) hbs
  cases o with
  | fileOpen path create =>
      simp only [posix]
      split
      · exact h
      split
      · exact World.Bounded.setFile h _ (Nat.zero_le _)
      · exact h
  | fileSync fd =>
      cases fd with
      | none => exact h
      | some i =>
          refine World.Bounded.setFile h i ?_
          rw [FileState.content_sync]
          exact h i
  | fileSize fd =>
      cases fd <;> exact h
  | fileTruncate fd size =>
      cases fd with
      | none => exact h
      | some i =>
          simp only [posix]
          split
          · next hfit =>
            refine h.issue i ?_
            change (resize _ _).length ≤ _
            rw [length_resize]
            exact hfit
          · exact h
  | pread fd len off =>
      simp only [posix]
      split
      · exact h
      cases fd with
      | none => exact h
      | some i =>
          dsimp only
          split <;> exact h
  | pwrite fd bs off =>
      simp only [posix]
      split
      · exact h
      cases fd with
      | none => exact h
      | some i =>
          dsimp only
          split
          · next hfit => exact hwrite i _ _ hfit
          split
          · refine hwrite i _ _ ?_
            rw [List.length_take]
            omega
          · exact h
  | fileLock fd =>
      simp only [posix]
      split <;> exact h
  | fileUnlock fd =>
      simp only [posix, World.unlock]
      split <;> exact h
  | lockfileClose fd =>
      simp only [posix, World.unlock]
      split <;> exact h
  | fileRename old new =>
      simp only [posix]
      split <;> exact h
  | _ =>
      exact h

end Bounded

/-- A change behind the first `n` bytes, within the file size limit. -/
def Pending.Above (n : Nat) : Pending → Prop
  | .write off bs => n ≤ off ∧ off + bs.length ≤ maxFileSize
  | .truncate size => n ≤ size ∧ size ≤ maxFileSize

theorem Pending.Above.length_apply {n : Nat} {f : Bytes} {q : Pending}
    (hq : q.Above n) (hlen : f.length ≤ maxFileSize) :
    (q.apply f).length ≤ maxFileSize ∧
      (n ≤ f.length → n ≤ (q.apply f).length) := by
  cases q with
  | write off bs =>
      obtain ⟨hoff, hmax⟩ := hq
      simp only [Pending.apply, length_overwrite]
      omega
  | truncate size =>
      obtain ⟨hoff, hmax⟩ := hq
      simp only [Pending.apply, length_resize]
      omega

/-- The bytes in front are not touched. -/
theorem Pending.Above.slice_apply {n off len : Nat} {f : Bytes} {q : Pending}
    (hq : q.Above n) (hn : off + len ≤ n) (hf : off + len ≤ f.length) :
    slice (q.apply f) off len = slice f off len := by
  cases q with
  | write o bs =>
      exact slice_overwrite_left bs (le_trans hn hq.1) hf
  | truncate size =>
      exact slice_resize_left (le_trans hn hq.1) hf

/-- A write of the header patch: a full patch out of `Bs`, or a torn one when
any patch is allowed. -/
def Pending.HeaderWrite (Bs : Bytes → Prop) : Pending → Prop
  | .write off bs => off = 24 ∧
      ((bs.length = 32 ∧ Bs bs) ∨
        (bs.length ≤ 32 ∧ ∀ B : Bytes, B.length = 32 → Bs B))
  | .truncate _ => False

/-- The file has the fixed part `A` and a patch out of `Bs` in its header page,
and `body` from the offset `k` on. -/
structure Begins (Bs : Bytes → Prop) (A : Bytes) (k : Nat) (body f : Bytes) :
    Prop where
  limit : f.length ≤ maxFileSize
  page : 4096 ≤ f.length
  lower : 4096 ≤ k
  head : slice f 0 24 = A
  patch : Bs (slice f 24 32)
  body : slice f k body.length = body

namespace Begins

variable {Bs Bs' : Bytes → Prop} {A body body' f : Bytes} {k : Nat}

theorem reaches (h : Begins Bs A k body f) :
    body = [] ∨ k + body.length ≤ f.length :=
  slice_full h.body

theorem mono (h : Begins Bs A k body f) (hBs : ∀ B, Bs B → Bs' B) :
    Begins Bs' A k body f :=
  { h with patch := hBs _ h.patch }

theorem of_append (h : Begins Bs A k (body ++ body') f) :
    Begins Bs A k body f :=
  { h with body := (slice_append_iff.mp h.body).1 }

end Begins

/-- A change that keeps such a file. -/
def Pending.Harmless (Bs : Bytes → Prop) (k : Nat) (body : Bytes)
    (q : Pending) : Prop :=
  q.Above (k + body.length) ∨ q.HeaderWrite Bs

theorem Pending.Harmless.apply {Bs : Bytes → Prop} {A body f : Bytes} {k : Nat}
    {q : Pending} (hq : q.Harmless Bs k body) (hf : Begins Bs A k body f) :
    Begins Bs A k body (q.apply f) := by
  have hpage := hf.page
  have hlower := hf.lower
  rcases hq with hq | hq
  · obtain ⟨hlimit, hgrow⟩ := hq.length_apply hf.limit
    refine
      { limit := hlimit
        page := ?_
        lower := hlower
        head := ?_
        patch := ?_
        body := ?_ }
    · rcases q with ⟨off, bs⟩ | size
      · simp only [Pending.apply, length_overwrite]
        omega
      · have := hq.1
        simp only [Pending.apply, length_resize]
        omega
    · rw [hq.slice_apply (by omega) (by omega)]
      exact hf.head
    · rw [hq.slice_apply (by omega) (by omega)]
      exact hf.patch
    · rcases hf.reaches with h0 | hreach
      · subst h0
        simp [slice]
      · rw [hq.slice_apply (Nat.le_refl _) hreach]
        exact hf.body
  · cases q with
    | truncate size =>
        exact hq.elim
    | write off bs =>
        obtain ⟨rfl, hq⟩ := hq
        have hbs : bs.length ≤ 32 := by
          rcases hq with ⟨h, -⟩ | ⟨h, -⟩ <;> omega
        have hlen : (overwrite f 24 bs).length = f.length := by
          rw [length_overwrite]
          omega
        exact
          { limit := by
              simp only [Pending.apply, hlen]
              exact hf.limit
            page := by
              simp only [Pending.apply, hlen]
              exact hpage
            lower := hlower
            head := by
              simp only [Pending.apply]
              rw [slice_overwrite_left bs (by omega) (by omega)]
              exact hf.head
            patch := by
              simp only [Pending.apply]
              rcases hq with ⟨h32, hb⟩ | ⟨-, hall⟩
              · rw [← h32, slice_overwrite_self]
                exact hb
              · apply hall
                rw [length_slice, hlen]
                omega
            body := by
              simp only [Pending.apply]
              rw [slice_overwrite_right (by omega) (by omega)]
              exact hf.body }

namespace FileState

/-- The file durably has header and body, and all issued changes keep that. -/
structure Keeps (Bs : Bytes → Prop) (A : Bytes) (k : Nat) (body : Bytes)
    (s : FileState) : Prop where
  durable : Begins Bs A k body s.durable
  harmless : ∀ q ∈ s.pending, q.Harmless Bs k body

namespace Keeps

variable {Bs Bs' : Bytes → Prop} {A body body' : Bytes} {k : Nat}
variable {s : FileState}

/-- What a read sees. -/
theorem content (h : s.Keeps Bs A k body) : Begins Bs A k body s.content := by
  obtain ⟨d, qs⟩ := s
  obtain ⟨hd, ha⟩ := h
  simp only at hd ha
  unfold FileState.content
  induction qs generalizing d with
  | nil =>
      exact hd
  | cons q qs ih =>
      exact ih (q.apply d) ((ha q (by simp)).apply hd)
        (fun r hr => ha r (by simp [hr]))

theorem issue (h : s.Keeps Bs A k body) {q : Pending}
    (hq : q.Harmless Bs k body) : (s.issue q).Keeps Bs A k body where
  durable := h.durable
  harmless := by
    intro r hr
    simp only [FileState.issue, List.mem_append, List.mem_singleton] at hr
    rcases hr with hr | rfl
    · exact h.harmless r hr
    · exact hq

/-- A sync makes what a read sees durable. -/
theorem sync (hc : Begins Bs A k body s.content) :
    s.sync.Keeps Bs A k body where
  durable := hc
  harmless := by simp [FileState.sync]

theorem mono (h : s.Keeps Bs A k body) (hBs : ∀ B, Bs B → Bs' B) :
    s.Keeps Bs' A k body where
  durable := h.durable.mono hBs
  harmless := by
    intro q hq
    rcases h.harmless q hq with ha | hw
    · exact Or.inl ha
    · cases q with
      | truncate size =>
          exact hw.elim
      | write off bs =>
          obtain ⟨ho, hw⟩ := hw
          refine Or.inr ⟨ho, ?_⟩
          rcases hw with ⟨h32, hb⟩ | ⟨h32, hall⟩
          · exact Or.inl ⟨h32, hBs bs hb⟩
          · exact Or.inr ⟨h32, fun B hB => hBs B (hall B hB)⟩

/-- A file that keeps a longer body keeps the shorter one. -/
theorem of_append (h : s.Keeps Bs A k (body ++ body')) :
    s.Keeps Bs A k body where
  durable := h.durable.of_append
  harmless := by
    intro q hq
    rcases h.harmless q hq with ha | hw
    · left
      cases q with
      | write off bs =>
          refine ⟨le_trans ?_ ha.1, ha.2⟩
          rw [List.length_append]
          omega
      | truncate size =>
          refine ⟨le_trans ?_ ha.1, ha.2⟩
          rw [List.length_append]
          omega
    · exact Or.inr hw

end Keeps

end FileState

/-- What a crash leaves of one issued change: the header patch of
`qdb__header_update` is lost or kept as a whole, any other write may also be
torn. -/
def Pending.Remains : Pending → Option Pending → Prop
  | .write off bs, q =>
      q = none ∨ ∃ k, k ≤ bs.length ∧ q = some (.write off (bs.take k)) ∧
        (off = 24 → bs.length = 32 → k = bs.length)
  | .truncate size, q => q = none ∨ q = some (.truncate size)

/-- Apply what remains of the issued changes. -/
def applyRemains : List (Option Pending) → Bytes → Bytes
  | [], f => f
  | none :: qs, f => applyRemains qs f
  | some q :: qs, f => applyRemains qs (q.apply f)

/-- What a crash may leave of a file. -/
def FileState.CrashImage (s : FileState) (f : Bytes) : Prop :=
  ∃ qs : List (Option Pending), List.Forall₂ Pending.Remains s.pending qs ∧
    f = applyRemains qs s.durable

/-- The machine after a crash.  Renames that returned are durable; whether the
staging name of a compaction is still bound is open. -/
structure World.Crash (w w' : World) : Prop where
  main : w'.dir .main = w.dir .main
  wal : w'.dir .wal = w.dir .wal
  files : ∀ j, ∃ f, (w.files j).CrashImage f ∧ w'.files j = ⟨f, []⟩
  nextIno : w'.nextIno = w.nextIno
  lockOwner : w'.lockOwner = none

/-- A crash may keep every issued change. -/
theorem FileState.crashImage_content (s : FileState) :
    s.CrashImage s.content := by
  refine ⟨s.pending.map some, ?_, ?_⟩
  · rw [List.forall₂_map_right_iff, List.forall₂_same]
    intro q _
    cases q with
    | write off bs =>
        exact Or.inr ⟨bs.length, Nat.le_refl _, by rw [List.take_length],
          fun _ _ => rfl⟩
    | truncate size =>
        exact Or.inr rfl
  · obtain ⟨d, qs⟩ := s
    unfold FileState.content
    dsimp only
    induction qs generalizing d with
    | nil =>
        rfl
    | cons q qs ih =>
        exact ih (q.apply d)

/-- The machine after a crash that kept every issued change. -/
def World.crashed (w : World) : World :=
  { w with
    files := fun j => ⟨w.content j, []⟩
    lockOwner := none }

theorem World.crash_crashed (w : World) : w.Crash w.crashed where
  main := rfl
  wal := rfl
  files := fun j => ⟨_, (w.files j).crashImage_content, rfl⟩
  nextIno := rfl
  lockOwner := rfl

theorem Pending.Remains.harmless {Bs : Bytes → Prop} {body : Bytes} {k : Nat}
    {p q : Pending} (h : p.Remains (some q)) (hp : p.Harmless Bs k body) :
    q.Harmless Bs k body := by
  cases p with
  | truncate size =>
      rcases h with h | h
      · cases h
      · cases h
        exact hp
  | write off bs =>
      rcases h with h | ⟨n, hn, h, hatomic⟩
      · cases h
      · cases h
        rcases hp with hp | ⟨rfl, hp⟩
        · refine Or.inl ⟨hp.1, ?_⟩
          have := hp.2
          simp only [List.length_take]
          omega
        · refine Or.inr ⟨rfl, ?_⟩
          rcases hp with ⟨h32, hb⟩ | ⟨h32, hall⟩
          · left
            rw [hatomic rfl h32, List.take_length]
            exact ⟨h32, hb⟩
          · right
            refine ⟨?_, hall⟩
            rw [List.length_take]
            omega

/-- A crash keeps what the file durably holds. -/
theorem FileState.Keeps.crash {Bs : Bytes → Prop} {A body f : Bytes} {k : Nat}
    {s : FileState} (h : s.Keeps Bs A k body) (hf : s.CrashImage f) :
    Begins Bs A k body f := by
  obtain ⟨d, ps⟩ := s
  obtain ⟨hd, ha⟩ := h
  obtain ⟨qs, hqs, rfl⟩ := hf
  simp only at hd ha hqs ⊢
  induction hqs generalizing d with
  | nil =>
      exact hd
  | @cons q q' ps qs hq hrest ih =>
      have ha' : ∀ r ∈ ps, r.Harmless Bs k body :=
        fun r hr => ha r (by simp [hr])
      cases q' with
      | none =>
          exact ih d hd ha'
      | some q' =>
          exact ih (q'.apply d)
            ((hq.harmless (ha q (by simp))).apply hd) ha'

end Qdb
