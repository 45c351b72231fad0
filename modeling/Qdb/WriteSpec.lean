import Qdb.ReadSpec

/-!
# The durable append protocol

What `qdb__append_record` and `qdb__header_update` do to a file that keeps a
header and a log: whatever fails, the log that was there stays; a successful
append has made its record durable, a successful header update its patch.  The
second half says the same of every moment inside the two functions on the ideal
machine, which is what a crash sees.
-/

namespace Qdb

open Lib

/-- The bytes 0..23 of the header, which no update changes. -/
def headerPrefix24 (createTimeUs : UInt64) : Bytes :=
  kFileMagic ++ putU32le formatVersion ++ putU32le pageSize ++
    putU64le createTimeUs

@[simp] theorem length_headerPrefix24 (t : UInt64) :
    (headerPrefix24 t).length = 24 := by
  simp [headerPrefix24, kFileMagic]

@[simp] theorem length_headerPatch (db : Db) :
    (headerPatch db).length = 32 := by
  simp [headerPatch]

theorem headerFields_eq (db : Db) :
    headerFields db ++ putU32le (crc32 (headerFields db)) =
      headerPrefix24 db.createTimeUs ++ headerPatch db := by
  simp [headerFields, headerPrefix24, headerPatch]

section Primitives

variable {F : Prop} {I : World → Prop} {w : World} {i : Nat}

/-- A write of some bytes succeeds in full or leaves a torn part. -/
theorem wp_writeFull {bs : Bytes} {off : UInt64} {Q : Rc → World → Prop}
    (hbs : bs ≠ []) (hw : I w)
    (hok : off.toNat + bs.length ≤ maxFileSize →
      I (w.issue i (.write off.toNat bs)) ∧
        Q .ok (w.issue i (.write off.toNat bs)))
    (hfail : (F ∨ maxFileSize < off.toNat + bs.length) → Q .errIo w)
    (htorn : ∀ k, k < bs.length → off.toNat + k ≤ maxFileSize →
      (F ∨ maxFileSize < off.toNat + bs.length) →
      I (w.issue i (.write off.toNat (bs.take k))) ∧
        Q .errIo (w.issue i (.write off.toNat (bs.take k)))) :
    Prog.Wp (Faulty F) I (writeFull (some i) bs off) w Q := by
  apply Prog.wp_perform hw
  rintro r t (h | ⟨hF, rfl, h⟩)
  · simp only [posix, if_neg hbs] at h
    by_cases h1 : off.toNat + bs.length ≤ maxFileSize
    · rw [if_pos h1] at h
      cases h
      exact hok h1
    · rw [if_neg h1] at h
      by_cases h2 : off.toNat < maxFileSize
      · rw [if_pos h2] at h
        cases h
        exact htorn _ (by omega) (by omega) (Or.inr (by omega))
      · rw [if_neg h2] at h
        cases h
        exact ⟨hw, hfail (Or.inr (by omega))⟩
  · rcases h with rfl | ⟨j, k, hj, hk, hmax, rfl⟩
    · exact ⟨hw, hfail (Or.inl hF)⟩
    · cases hj
      exact htorn k hk hmax (Or.inl hF)

/-- The file `i` is synced. -/
def World.synced (w : World) (i : Nat) : World :=
  w.setFile i (w.files i).sync

theorem content_issue_write (off : Nat) (bs : Bytes) :
    (w.issue i (.write off bs)).content i = overwrite (w.content i) off bs := by
  simp [World.content, Pending.apply]

theorem content_synced : (w.synced i).content i = w.content i := by
  simp [World.content, World.synced]

theorem wp_fileSync {Q : Rc → World → Prop} (hw : I w)
    (hok : I (w.setFile i (w.files i).sync) ∧
      Q .ok (w.setFile i (w.files i).sync))
    (hfail : F → Q .errIo w) :
    Prog.Wp (Faulty F) I (fileSync (some i)) w Q := by
  apply Prog.wp_perform hw
  rintro r t (h | ⟨hF, rfl, rfl⟩)
  · cases h
    exact hok
  · exact ⟨hw, hfail hF⟩

end Primitives

/-- The file keeps header and body; behind the body a read sees `q`. -/
structure Wrote (Bs : Bytes → Prop) (A : Bytes) (k : Nat) (body q : Bytes)
    (s : FileState) : Prop where
  keeps : s.Keeps Bs A k body
  content : Begins Bs A k (body ++ q) s.content

namespace Wrote

variable {Bs : Bytes → Prop} {A body q : Bytes} {k : Nat} {s : FileState}

theorem start (h : s.Keeps Bs A k body) : Wrote Bs A k body [] s where
  keeps := h
  content := by
    rw [List.append_nil]
    exact h.content

theorem above {off : Nat} {bs : Bytes} (hoff : k + body.length ≤ off)
    (hmax : off + bs.length ≤ maxFileSize) :
    (Pending.write off bs).Harmless Bs k body :=
  Or.inl ⟨hoff, hmax⟩

theorem write (h : Wrote Bs A k body q s) {off : Nat} {bs : Bytes}
    (hoff : off = k + (body ++ q).length)
    (hmax : off + bs.length ≤ maxFileSize) :
    Wrote Bs A k body (q ++ bs) (s.issue (.write off bs)) where
  keeps := by
    apply h.keeps.issue
    apply above _ hmax
    rw [hoff, List.length_append]
    omega
  content := by
    have hq : (Pending.write off bs).Harmless Bs k (body ++ q) :=
      above (Nat.le_of_eq hoff.symm) hmax
    have hc := hq.apply h.content
    rw [FileState.content_issue, ← List.append_assoc]
    refine { hc with body := slice_append_iff.mpr ⟨hc.body, ?_⟩ }
    rw [← hoff]
    exact slice_overwrite_self _ _ _

theorem sync (h : Wrote Bs A k body q s) :
    s.sync.Keeps Bs A k (body ++ q) :=
  FileState.Keeps.sync h.content

theorem sync_wrote (h : Wrote Bs A k body q s) :
    Wrote Bs A k body q s.sync where
  keeps := FileState.Keeps.sync h.keeps.content
  content := by
    rw [FileState.content_sync]
    exact h.content

end Wrote

section Append

variable {F : Prop} {w : World} {i k : Nat} {Bs : Bytes → Prop}
variable {A body q : Bytes}

/-- The world a function that works on file `i` was called in, with the file
as it is now. -/
def InFile (i : Nat) (w : World) (P : FileState → Prop) (w' : World) : Prop :=
  w.SameBut i w' ∧ P (w'.files i)

theorem InFile.refl {P : FileState → Prop} (h : P (w.files i)) :
    InFile i w P w :=
  ⟨World.SameBut.refl i w, h⟩

theorem InFile.setFile {w₀ : World} {P P' : FileState → Prop} {s : FileState}
    (h : InFile i w₀ P w) (hs : P' s) : InFile i w₀ P' (w.setFile i s) := by
  refine ⟨h.1.trans (World.SameBut.setFile i w s), ?_⟩
  rw [World.setFile_files_self]
  exact hs

theorem InFile.mono {P P' : FileState → Prop} {w' : World}
    (h : InFile i w P w') (hP : P (w'.files i) → P' (w'.files i)) :
    InFile i w P' w' :=
  ⟨h.1, hP h.2⟩

/-- One write of the append protocol. -/
theorem wp_wrote_writeFull {w₀ : World} {bs : Bytes} {off : UInt64}
    (hbs : bs ≠ []) (h : InFile i w₀ (Wrote Bs A k body q) w)
    (hoff : off.toNat = k + (body ++ q).length) :
    Prog.Wp (Faulty F) (InFile i w₀ (FileState.Keeps Bs A k body))
      (writeFull (some i) bs off) w (fun rc w' =>
        (rc = .ok ∧ off.toNat + bs.length ≤ maxFileSize ∧
          InFile i w₀ (Wrote Bs A k body (q ++ bs)) w') ∨
        (rc ≠ .ok ∧ (F ∨ maxFileSize < off.toNat + bs.length) ∧
          InFile i w₀ (FileState.Keeps Bs A k body) w')) := by
  have hk : InFile i w₀ (FileState.Keeps Bs A k body) w := ⟨h.1, h.2.keeps⟩
  apply wp_writeFull hbs hk
  · intro hmax
    have hw := h.2.write hoff hmax
    exact ⟨h.setFile hw.keeps, Or.inl ⟨rfl, hmax, h.setFile hw⟩⟩
  · intro hcause
    exact Or.inr ⟨by simp, hcause, hk⟩
  · intro n hn hmax hcause
    have hi : ((w.files i).issue (.write off.toNat (bs.take n))).Keeps
        Bs A k body := by
      apply h.2.keeps.issue
      apply Wrote.above
      · rw [hoff, List.length_append]
        omega
      · rw [List.length_take]
        omega
    exact ⟨h.setFile hi, Or.inr ⟨by simp, hcause, h.setFile hi⟩⟩

/-- One sync of the append protocol. -/
theorem wp_wrote_fileSync {w₀ : World}
    (h : InFile i w₀ (Wrote Bs A k body q) w) :
    Prog.Wp (Faulty F) (InFile i w₀ (FileState.Keeps Bs A k body))
      (fileSync (some i)) w (fun rc w' =>
        (rc = .ok ∧ InFile i w₀ (Wrote Bs A k body q) w' ∧
          InFile i w₀ (FileState.Keeps Bs A k (body ++ q)) w') ∨
        (rc ≠ .ok ∧ F ∧ InFile i w₀ (FileState.Keeps Bs A k body) w')) := by
  have hk : InFile i w₀ (FileState.Keeps Bs A k body) w := ⟨h.1, h.2.keeps⟩
  apply wp_fileSync hk
  · exact ⟨h.setFile h.2.sync_wrote.keeps,
      Or.inl ⟨rfl, h.setFile h.2.sync_wrote, h.setFile h.2.sync⟩⟩
  · intro hF
    exact Or.inr ⟨by simp, hF, hk⟩

/-- The second half of `qdb__append_record`: the record is written, the
commit marker still missing. -/
theorem wp_appendMarker {w₀ : World} (r : Record) {off : UInt64}
    (hoff : off.toNat = k + body.length)
    (hmax : off.toNat + 9 + r.payload.length ≤ maxFileSize)
    (h : InFile i w₀
      (Wrote Bs A k body (recordHeader r.type r.payload ++ r.payload)) w) :
    Prog.Wp (Faulty F) (InFile i w₀ (FileState.Keeps Bs A k body))
      (show Cmd (Rc × UInt64) from do
        if (← fileSync (some i)) ≠ .ok then return (.errIo, off)
        if (← writeFull (some i) [commitMarker]
            (off + recHdrSize +
              (UInt32.ofNat r.payload.length).toUInt64)) ≠ .ok then
          return (.errIo, off)
        if (← fileSync (some i)) ≠ .ok then return (.errIo, off)
        return (.ok, off + recHdrSize +
          (UInt32.ofNat r.payload.length).toUInt64 + 1)) w
      (fun res w' =>
        (res = (.ok, off + UInt64.ofNat r.size) ∧
          off.toNat + r.size ≤ maxFileSize ∧
          InFile i w₀ (FileState.Keeps Bs A k (body ++ r.encode)) w') ∨
        (res = (.errIo, off) ∧ (F ∨ maxFileSize < off.toNat + r.size) ∧
          InFile i w₀ (FileState.Keeps Bs A k body) w')) := by
  have hmx := maxFileSize_eq
  have hsize : r.size = 10 + r.payload.length := rfl
  have hhl : (recordHeader r.type r.payload).length = 9 := by
    simp [recordHeader]
  have hoffm : (off + recHdrSize +
      (UInt32.ofNat r.payload.length).toUInt64).toNat =
      off.toNat + 9 + r.payload.length := by
    rw [UInt64.toNat_add, UInt64.toNat_add, UInt32.toNat_toUInt64,
      r.toNat_plen, show recHdrSize.toNat = 9 from rfl]
    omega
  apply Prog.wp_bind (wp_wrote_fileSync h)
  rintro rc w1 (⟨rfl, h1, -⟩ | ⟨hrc, hF, h1⟩)
  swap
  · rw [if_pos hrc]
    exact Prog.wp_pure h1 (Or.inr ⟨rfl, Or.inl hF, h1⟩)
  simp only [ne_eq, not_true_eq_false, if_false]
  have hoff' : (off + recHdrSize +
      (UInt32.ofNat r.payload.length).toUInt64).toNat =
      k + (body ++ (recordHeader r.type r.payload ++ r.payload)).length := by
    rw [hoffm]
    simp only [List.length_append, hhl]
    omega
  apply Prog.wp_bind (wp_wrote_writeFull (by simp) h1 hoff')
  rintro rc w2 (⟨rfl, hm2, h2⟩ | ⟨hrc, hcause, h2⟩)
  swap
  · rw [if_pos hrc]
    refine Prog.wp_pure h2 (Or.inr ⟨rfl, ?_, h2⟩)
    rcases hcause with hF | hbig
    · exact Or.inl hF
    · rw [hoffm, List.length_singleton] at hbig
      right
      omega
  rw [if_neg (by simp)]
  apply Prog.wp_bind (wp_wrote_fileSync h2)
  rintro rc w3 (⟨rfl, -, h3⟩ | ⟨hrc, hF, h3⟩)
  swap
  · rw [if_pos hrc]
    exact Prog.wp_pure h3 (Or.inr ⟨rfl, Or.inl hF, h3⟩)
  rw [if_neg (by simp)]
  have hbound : off.toNat + r.size ≤ maxFileSize := by
    rw [hoffm, List.length_singleton] at hm2
    omega
  have hnew : off + recHdrSize +
      (UInt32.ofNat r.payload.length).toUInt64 + 1 =
      off + UInt64.ofNat r.size := by
    apply UInt64.toNat_inj.mp
    rw [toNat_add_size r off hbound, UInt64.toNat_add, hoffm,
      show (1 : UInt64).toNat = 1 from rfl]
    omega
  have henc : body ++ (recordHeader r.type r.payload ++ r.payload ++
      [commitMarker]) = body ++ r.encode := by
    rw [Record.encode, List.append_assoc (recordHeader _ _)]
  rw [henc] at h3
  have hk : InFile i w₀ (FileState.Keeps Bs A k body) w3 :=
    ⟨h3.1, h3.2.of_append⟩
  exact Prog.wp_pure hk (Or.inl ⟨by rw [hnew], hbound, h3⟩)

/-- `qdb__append_record`: the log stays, and a success has made the record
durable. -/
theorem wp_appendRecord (r : Record) {off : UInt64}
    (h : (w.files i).Keeps Bs A k body)
    (hoff : off.toNat = k + body.length) :
    Prog.Wp (Faulty F) (InFile i w (FileState.Keeps Bs A k body))
      (appendRecord (some i) r.type r.payload off) w (fun res w' =>
        (res = (.ok, off + UInt64.ofNat r.size) ∧
          off.toNat + r.size ≤ maxFileSize ∧
          InFile i w (FileState.Keeps Bs A k (body ++ r.encode)) w') ∨
        (res = (.errIo, off) ∧ (F ∨ maxFileSize < off.toNat + r.size) ∧
          InFile i w (FileState.Keeps Bs A k body) w')) := by
  have hmx := maxFileSize_eq
  have hsize : r.size = 10 + r.payload.length := rfl
  have hhl : (recordHeader r.type r.payload).length = 9 := by
    simp [recordHeader]
  have hoff9 : off.toNat + 9 ≤ maxFileSize →
      (off + recHdrSize).toNat = off.toNat + 9 := by
    intro hm
    rw [UInt64.toNat_add, show recHdrSize.toNat = 9 from rfl]
    omega
  unfold appendRecord
  apply Prog.wp_bind (wp_wrote_writeFull (by simp [recordHeader])
    (InFile.refl (Wrote.start h)) (by simpa using hoff))
  rintro rc w1 (⟨rfl, hm1, h1⟩ | ⟨hrc, hcause, h1⟩)
  swap
  · rw [if_pos hrc]
    refine Prog.wp_pure h1 (Or.inr ⟨rfl, ?_, h1⟩)
    rw [hhl] at hcause
    rcases hcause with hF | hbig
    · exact Or.inl hF
    · right
      omega
  rw [hhl] at hm1
  rw [List.nil_append] at h1
  simp only [ne_eq, not_true_eq_false, if_false]
  by_cases hp : UInt32.ofNat r.payload.length > 0
  · rw [if_pos hp]
    have hne : r.payload ≠ [] := by
      intro h0
      rw [h0] at hp
      simp at hp
    apply Prog.wp_bind (wp_wrote_writeFull hne h1 (by
      rw [hoff9 hm1, hoff, List.length_append, hhl]
      omega))
    rintro rc w2 (⟨rfl, hm2, h2⟩ | ⟨hrc, hcause, h2⟩)
    · rw [if_neg (by simp)]
      rw [hoff9 hm1] at hm2
      exact wp_appendMarker r hoff hm2 h2
    · rw [if_pos hrc]
      refine Prog.wp_pure h2 (Or.inr ⟨rfl, ?_, h2⟩)
      rw [hoff9 hm1] at hcause
      rcases hcause with hF | hbig
      · exact Or.inl hF
      · right
        omega
  · rw [if_neg hp]
    have h0 : r.payload = [] := by
      have hz : (UInt32.ofNat r.payload.length).toNat = 0 := by
        rw [gt_iff_lt, UInt32.lt_iff_toNat_lt] at hp
        simpa using hp
      rw [r.toNat_plen] at hz
      exact List.length_eq_zero_iff.mp hz
    apply wp_appendMarker r hoff
    · rw [h0]
      exact hm1
    · rw [h0] at h1 ⊢
      rw [List.append_nil]
      exact h1

end Append

section Header

variable {F : Prop} {w : World} {i k : Nat} {Bs : Bytes → Prop}
variable {A body : Bytes}

/-- `qdb__header_update`: at every moment the header is the old or the new
one, and a success has made the new one durable. -/
theorem wp_headerUpdate (db : Db) (h : (w.files i).Keeps Bs A k body) :
    Prog.Wp (Faulty F)
      (InFile i w (FileState.Keeps
        (fun B => F ∨ Bs B ∨ B = headerPatch db) A k body))
      (headerUpdate (some i) db) w (fun rc w' =>
        (rc = .ok ∧
          InFile i w (FileState.Keeps (fun B => B = headerPatch db) A k body)
            w') ∨
        (F ∧ rc = .errIo ∧
          InFile i w (FileState.Keeps (fun _ => True) A k body) w')) := by
  have hmx := maxFileSize_eq
  have hlen := length_headerPatch db
  have h0 : (w.files i).Keeps (fun B => F ∨ Bs B ∨ B = headerPatch db) A k
      body := h.mono (fun B hB => Or.inr (Or.inl hB))
  have h24 : (24 : UInt64).toNat = 24 := rfl
  unfold headerUpdate
  -- the patch as issued, and what a read then sees
  have hissue : ((w.files i).issue
      (.write (24 : UInt64).toNat (headerPatch db))).Keeps
      (fun B => F ∨ Bs B ∨ B = headerPatch db) A k body :=
    h0.issue (Or.inr ⟨h24, Or.inl ⟨hlen, Or.inr (Or.inr rfl)⟩⟩)
  have hcontent : Begins (fun B => B = headerPatch db) A k body
      ((w.files i).issue
        (.write (24 : UInt64).toNat (headerPatch db))).content := by
    refine { hissue.content with patch := ?_ }
    rw [FileState.content_issue]
    change slice (overwrite _ 24 (headerPatch db)) 24 32 = _
    rw [← hlen]
    exact slice_overwrite_self _ _ _
  apply Prog.wp_bind
    (P := fun rc w' =>
      (rc = .ok ∧ w' = w.issue i (.write (24 : UInt64).toNat
        (headerPatch db))) ∨
      (F ∧ rc = .errIo ∧
        InFile i w (FileState.Keeps (fun _ => True) A k body) w'))
  · apply wp_writeFull
    · intro hnil
      rw [hnil] at hlen
      simp at hlen
    · exact InFile.refl h0
    · intro _
      exact ⟨(InFile.refl h0).setFile hissue, Or.inl ⟨rfl, rfl⟩⟩
    · rintro (hF | hmax)
      · exact Or.inr ⟨hF, rfl, InFile.refl (h.mono (fun _ _ => trivial))⟩
      · exfalso
        rw [hlen, h24] at hmax
        omega
    · intro n hn _ hcause
      have hF : F := by
        rcases hcause with hF | hmax
        · exact hF
        · exfalso
          rw [hlen, h24] at hmax
          omega
      have htorn : ∀ {Cs : Bytes → Prop}, (w.files i).Keeps Cs A k body →
          (∀ B : Bytes, Cs B) →
          ((w.files i).issue (.write (24 : UInt64).toNat
            ((headerPatch db).take n))).Keeps Cs A k body := by
        intro Cs hC hall
        apply hC.issue
        refine Or.inr ⟨h24, Or.inr ⟨?_, fun B _ => hall B⟩⟩
        rw [List.length_take]
        omega
      exact ⟨(InFile.refl h0).setFile (htorn h0 (fun _ => Or.inl hF)),
        Or.inr ⟨hF, rfl, (InFile.refl h0).setFile
          (htorn (h.mono (fun _ _ => trivial)) (fun _ => trivial))⟩⟩
  · rintro rc w1 (⟨rfl, rfl⟩ | ⟨hF, rfl, h1⟩)
    · rw [if_neg (by simp)]
      apply wp_fileSync
      · exact (InFile.refl h0).setFile hissue
      · rw [World.issue_files_self]
        have hk : ((w.files i).issue (.write (24 : UInt64).toNat
            (headerPatch db))).sync.Keeps (fun B => B = headerPatch db) A k
            body := FileState.Keeps.sync hcontent
        have hin := ((InFile.refl h0).setFile hissue).setFile hk
        exact ⟨⟨hin.1, hin.2.mono (fun B hB => Or.inr (Or.inr hB))⟩,
          Or.inl ⟨rfl, hin⟩⟩
      · intro hF
        refine Or.inr ⟨hF, rfl, (InFile.refl h0).setFile ?_⟩
        exact hissue.mono (fun _ _ => trivial)
    · rw [if_pos (by simp)]
      exact Prog.wp_pure ⟨h1.1, h1.2.mono (fun _ _ => Or.inl hF)⟩
        (Or.inr ⟨hF, rfl, h1⟩)

end Header

end Qdb
