import Qdb.Footprint
import Qdb.Restart

/-!
# Replay of the WAL file

`replay_wal` appends the committed records of the WAL file to the main log,
writes the header and deletes the WAL file, whose failure it ignores.  Here is
what it leaves on the disk at each of its moments, and what `qdb_open` makes of
a main file beside a WAL file: a handle on the merged log, or a failure when the
merged log is too long or replay rejects it.
-/

namespace Qdb

open Lib

/-- A WAL file that `replay_wal` accepts, and its committed records. -/
structure WalSays (g : Bytes) (ws : List Record) : Prop where
  limit : g.length ≤ maxFileSize
  page : 64 ≤ g.length
  header : walHeaderValid (slice g 0 64) = true
  scans : ∃ v, (v = .scanEnd ∨ v = .scanPartial) ∧
    Scans g walHdrSize (UInt64.ofNat g.length) ws v

/-- The main file once the records `ws` are in its log and the header says
so. -/
def DbFile.merged (d : DbFile) (ws : List Record) : DbFile :=
  { d with
    rs := d.rs ++ ws
    flags := d.flags &&& ~~~flagWalPresent }

section Loop

variable {w₀ w : World} {i j k : Nat} {Bs : Bytes → Prop}
variable {A body g : Bytes} {ws : List Record} {db : Db} {size : UInt64}

/-- The handle at a later end of the log. -/
def Db.endAt (db : Db) (logEnd : UInt64) : Db :=
  { db with logEndOffset := logEnd }

/-- What the record loop of `replay_wal` returns: all records are in the log,
or one of them did not fit into the file. -/
def Copied (i : Nat) (w₀ : World) (Bs : Bytes → Prop) (A : Bytes) (k : Nat)
    (body : Bytes) (db : Db) (ws : List Record) (x : Rc × Db) (w : World) :
    Prop :=
  (x = (.ok, db.endAt
      (db.logEndOffset + UInt64.ofNat (encodeLog ws).length)) ∧
    InFile i w₀ (FileState.Keeps Bs A k (body ++ encodeLog ws)) w) ∨
  (x.1 = .errIo ∧ x.2.fd = db.fd ∧ x.2.lockFd = db.lockFd ∧ ws ≠ [] ∧
    maxFileSize < k + (body ++ encodeLog ws).length ∧
    InFile i w₀ (FileState.Keeps Bs A k body) w)

theorem Copied.cons {r : Record} {x : Rc × Db}
    (h : Copied i w₀ Bs A k (body ++ r.encode)
      (db.endAt (db.logEndOffset + UInt64.ofNat r.size)) ws x w) :
    Copied i w₀ Bs A k body db (r :: ws) x w := by
  rcases h with ⟨rfl, hw⟩ | ⟨hx, hfd, hl, -, hbig, hw⟩
  · left
    rw [encodeLog_cons, ← List.append_assoc]
    refine ⟨?_, hw⟩
    simp [Db.endAt, UInt64.add_assoc]
  · right
    rw [encodeLog_cons, ← List.append_assoc]
    exact ⟨hx, hfd, hl, by simp, hbig, hw.mono (fun h => h.of_append)⟩

/-- The record loop of `replay_wal`. -/
theorem wp_replayWalLoop {v : ScanResult} {off : UInt64} (fuel : Nat)
    (hfd : db.fd = some i) (hne : j ≠ i) (hg : w₀.content j = g)
    (hmax : g.length ≤ maxFileSize) (hs : Scans g off size ws v)
    (hv : v = .scanEnd ∨ v = .scanPartial) (hfuel : ws.length < fuel)
    (h : InFile i w₀ (FileState.Keeps Bs A k body) w)
    (hend : db.logEndOffset.toNat = k + body.length) :
    Prog.Wp (Faulty False) (InFile i w₀ (FileState.Keeps Bs A k body))
      (replayWalLoop (some j) size fuel db off) w
      (Copied i w₀ Bs A k body db ws) := by
  induction ws generalizing w body db off fuel with
  | nil =>
      obtain ⟨fuel, rfl⟩ := Nat.exists_eq_succ_of_ne_zero
        (show fuel ≠ 0 by rintro rfl; cases hfuel)
      have hdone : Copied i w₀ Bs A k body db [] (.ok, db) w := by
        left
        simpa [Db.endAt] using h
      have hcontent : w.content j = g := by
        rw [← hg, World.content, h.1.files j hne, World.content]
      unfold replayWalLoop
      by_cases hlt : off < size
      · rw [if_neg (not_not.mpr hlt)]
        apply wp_reads (reads_scanImage hcontent hmax)
        have hverdict := hs.verdict
        rw [logEndOf_nil] at hverdict
        rw [hverdict]
        rcases hv with rfl | rfl
        · exact Prog.wp_pure h hdone
        · exact Prog.wp_pure h hdone
      · rw [if_pos hlt]
        exact Prog.wp_pure h hdone
  | cons r ws ih =>
      obtain ⟨fuel, rfl⟩ := Nat.exists_eq_succ_of_ne_zero
        (show fuel ≠ 0 by omega)
      obtain ⟨hr, hin, hrest⟩ := hs.head hmax
      have hcontent : w.content j = g := by
        rw [← hg, World.content, h.1.files j hne, World.content]
      have hpos := r.size_pos
      have hsize : r.size = 10 + r.payload.length := rfl
      have hlt : off < size := by
        rw [UInt64.lt_iff_toNat_lt]
        omega
      have hcopy : Prog.Wp (Faulty False)
          (InFile i w₀ (FileState.Keeps Bs A k body))
          (appendRecord db.fd r.type r.payload db.logEndOffset >>= fun x =>
            if x.1 ≠ .ok then pure (x.1, db)
            else replayWalLoop (some j) size fuel
              { db with logEndOffset := x.2 }
              (off + UInt64.ofNat r.size)) w
          (Copied i w₀ Bs A k body db (r :: ws)) := by
        have happend := wp_appendRecord (F := False) r h.2 hend
        rw [← hfd] at happend
        apply Prog.wp_seq (happend.mono
          (fun w' hw' => ⟨h.1.trans hw'.1, hw'.2⟩) (fun _ _ hq => hq))
        rintro ⟨rc, logEnd⟩ w1 hi1 (⟨heq, hfit, h1⟩ | ⟨heq, hcause, h1⟩)
        · cases heq
          dsimp only
          rw [if_neg (by simp)]
          have hend' : (db.endAt (db.logEndOffset +
              UInt64.ofNat r.size)).logEndOffset.toNat =
              k + (body ++ r.encode).length := by
            change (db.logEndOffset + UInt64.ofNat r.size).toNat = _
            rw [toNat_add_size r _ hfit, hend, List.length_append,
              Record.length_encode]
            omega
          have h1' : InFile i w₀ (FileState.Keeps Bs A k (body ++ r.encode))
              w1 := ⟨h.1.trans h1.1, h1.2⟩
          have hfd' : (db.endAt (db.logEndOffset +
              UInt64.ofNat r.size)).fd = some i := hfd
          exact (ih fuel hfd' hrest (by simpa using hfuel) h1' hend').mono
            (fun w' hw' => hw'.mono (fun h => h.of_append))
            (fun x w' hx => hx.cons)
        · cases heq
          dsimp only
          rw [if_pos (by simp)]
          refine Prog.wp_pure hi1 (Or.inr ⟨rfl, rfl, rfl, by simp, ?_, hi1⟩)
          rcases hcause with hF | hbig
          · exact hF.elim
          · rw [encodeLog_cons, List.length_append, List.length_append,
              Record.length_encode]
            omega
      unfold replayWalLoop
      rw [if_neg (not_not.mpr hlt)]
      apply wp_reads (reads_scanImage hcontent hmax)
      rw [scanImage_encode hr hmax hin]
      dsimp only
      by_cases hp : UInt32.ofNat r.payload.length > 0
      · rw [if_pos hp]
        apply wp_reads (reads_alloc w)
        rw [if_neg (by simp)]
        have hoff : (off + recHdrSize).toNat = off.toNat + 9 := by
          have hnext := Scans.toNat_next hmax hr
          have hlim := (off + UInt64.ofNat r.size).toNat_lt
          rw [UInt64.toNat_add, show recHdrSize.toNat = 9 from rfl]
          omega
        have hreach : off.toNat + r.size ≤ g.length := by
          have hlen := congrArg List.length hr
          rw [length_slice, Record.length_encode] at hlen
          omega
        have hpay : slice g (off + recHdrSize).toNat r.payload.length =
            r.payload := by
          have hhl : (recordHeader r.type r.payload).length = 9 := by
            simp [recordHeader]
          rw [hoff, slice_of_slice hr (by omega), Record.encode]
          exact slice_at _ _ _ hhl.symm rfl
        have hread : CmdReads (readFull (some j) r.payload.length
            (off + recHdrSize)) w (.ok r.payload) := by
          have hslice := reads_readFull_slice hcontent hmax
            (show (off + recHdrSize).toNat + r.payload.length ≤ g.length by
              rw [hoff]
              omega)
          rw [hpay] at hslice
          exact hslice
        unfold readPayload
        rw [r.toNat_plen]
        apply wp_reads hread
        exact hcopy
      · rw [if_neg hp]
        have hnil : r.payload = [] := by
          have hz : (UInt32.ofNat r.payload.length).toNat = 0 := by
            rw [gt_iff_lt, UInt32.lt_iff_toNat_lt] at hp
            simpa using hp
          rw [r.toNat_plen] at hz
          exact List.length_eq_zero_iff.mp hz
        rw [hnil] at hcopy
        exact hcopy

end Loop

section Machine

variable {w : World} {fails : Bool} {I : World → Prop}

/-- What a program without a deletion of the WAL file may touch. -/
def sparingAccess : Access where
  reads := Eq
  writes := Eq
  opens _ _ := True
  deletes p := p ≠ .wal
  renames _ _ := True
  locks := True

/-- Such a program does not notice that the WAL file cannot be deleted. -/
theorem wp_keeping {α : Type} {P : α → α → Prop} {p : Cmd α}
    {Q : α → World → Prop} (hp : Twin sparingAccess P p p)
    (h : Prog.Wp (Faulty False) I p w Q) :
    Prog.Wp (Keeping fails) I p w Q := by
  refine hp.wp (fun o s r t ho hr => ?_) h
  have hne : o ≠ .fileDelete .wal := by
    rintro rfl
    exact ho.1 rfl
  exact ⟨Op.agree_self (fun _ => ⟨rfl, rfl⟩) o r,
    Or.inl (hr.trans (posixKeeping_of_ne hne fails s))⟩

/-- The machine once `replay_wal` has tried to delete the WAL file. -/
def World.unlinked (fails : Bool) (w : World) : World :=
  if fails then w else w.setDir .wal none

theorem unlinked_lockOwner (fails : Bool) (w : World) :
    (w.unlinked fails).lockOwner = w.lockOwner := by
  cases fails <;> rfl

theorem unlinked_files (fails : Bool) (w : World) :
    (w.unlinked fails).files = w.files := by
  cases fails <;> rfl

theorem unlinked_nextIno (fails : Bool) (w : World) :
    (w.unlinked fails).nextIno = w.nextIno := by
  cases fails <;> rfl

theorem unlinked_main (fails : Bool) (w : World) :
    (w.unlinked fails).dir .main = w.dir .main := by
  cases fails with
  | false =>
      simp [World.unlinked, World.setDir]
  | true =>
      rfl

theorem unlinked_wal (fails : Bool) (w : World) :
    (w.unlinked fails).dir .wal = if fails then w.dir .wal else none := by
  cases fails <;> simp [World.unlinked, World.setDir]

theorem InFile.unlinked {i : Nat} {w' : World} {P : FileState → Prop}
    (h : InFile i w P w') (fails : Bool) :
    InFile i (w.unlinked fails) P (w'.unlinked fails) := by
  cases fails with
  | false =>
      exact ⟨{ h.1 with dir := congrArg (Function.update · _ _) h.1.dir }, h.2⟩
  | true =>
      exact h

/-- The deletion of the WAL file at the head of a program. -/
theorem wp_deleteWal {β : Type} {f : Rc → Cmd β} {Q : β → World → Prop}
    (hw : I w)
    (hf : ∀ rc, Prog.Wp (Keeping fails) I (f rc) (w.unlinked fails) Q) :
    Prog.Wp (Keeping fails) I (fileDelete .wal >>= f) w Q := by
  refine ⟨hw, fun r t hr => ?_⟩
  have ht : t = w.unlinked fails := by
    have hsnd := congrArg Prod.snd hr
    cases fails <;> exact hsnd
  rw [ht]
  exact hf r

end Machine

section Merge

variable {w : World} {i j : Nat} {d : DbFile} {ws : List Record} {db : Db}
variable {fails : Bool}

theorem logEndOf_append (s : UInt64) (rs rs' : List Record) :
    logEndOf s (rs ++ rs') =
      logEndOf s rs + UInt64.ofNat (encodeLog rs').length := by
  simp [logEndOf, UInt64.add_assoc]

/-- A main file that says `d` beside a WAL file with the records `ws`. -/
structure Beside (w : World) (d : DbFile) (i j : Nat) (ws : List Record) :
    Prop where
  wal : w.dir .wal = some j
  apart : j ≠ i
  file : d.Stored (w.files i)
  walFile : ∃ g, w.files j = ⟨g, []⟩ ∧ WalSays g ws

/-- The main file while the WAL records are put in: the old file, or the new
log under either header. -/
def Merging (d : DbFile) (ws : List Record) (s : FileState) : Prop :=
  d.Stored s ∨
    (d.merged ws).Kept (fun B => B = d.patch ∨ B = (d.merged ws).patch) s

/-- The handle behind the record loop. -/
def Db.mergedWith (db : Db) (d : DbFile) (ws : List Record) : Db :=
  { db with
    logEndOffset := logEndOf d.start (d.rs ++ ws)
    flags := d.flags &&& ~~~flagWalPresent }

theorem Fresh.merged (h : Fresh db i d) (ws : List Record) :
    Fresh (db.mergedWith d ws) i (d.merged ws) where
  fd := h.fd
  createTime := h.createTime
  nextMsgId := h.nextMsgId
  nextLeaseId := h.nextLeaseId
  logStart := h.logStart
  logEnd := rfl
  flags := rfl

theorem Fresh.patch_merged (h : Fresh db i d) (ws : List Record) :
    headerPatch (db.mergedWith d ws) = (d.merged ws).patch :=
  DbFile.headerPatch_eq h.logStart rfl h.createTime h.nextMsgId rfl

/-- The record loop of `replay_wal` on a main file beside a WAL file. -/
theorem Beside.wp_loop (h : Beside w d i j ws) (hdb : Fresh db i d) :
    ∃ g, w.content j = g ∧ g.length ≤ maxFileSize ∧ 64 ≤ g.length ∧
      walHeaderValid (slice g 0 64) = true ∧
      Prog.Wp (Faulty False) (InFile i w d.Stored)
        (replayWalLoop (some j) (UInt64.ofNat g.length)
          ((UInt64.ofNat g.length).toNat + 1) db walHdrSize) w (fun x w' =>
          (x = (.ok, db.endAt (logEndOf d.start (d.rs ++ ws))) ∧
            InFile i w ((d.merged ws).Kept (fun B => B = d.patch)) w') ∨
          (x.1 = .errIo ∧ x.2.fd = some i ∧ x.2.lockFd = db.lockFd ∧
            ¬ Fits d.start (d.rs ++ ws) ∧ InFile i w d.Stored w')) := by
  have hmx := maxFileSize_eq
  obtain ⟨g, hg, hsays⟩ := h.walFile
  have hcontent : w.content j = g := by
    rw [World.content, hg]
    rfl
  have hsize : (UInt64.ofNat g.length).toNat = g.length := by
    have := hsays.limit
    rw [UInt64.toNat_ofNat']
    omega
  have hfits := h.file.content.fits
  have hend : db.logEndOffset.toNat =
      d.start.toNat + (encodeLog d.rs).length := by
    rw [hdb.logEnd]
    exact toNat_logEndOf hfits
  obtain ⟨v, hv, hscans⟩ := hsays.scans
  have hfuel : ws.length < (UInt64.ofNat g.length).toNat + 1 := by
    have hlen := length_le_encodeLog ws
    rw [hsize]
    rcases slice_full hscans.bytes with h0 | hin
    · rw [h0] at hlen
      simp only [List.length_nil] at hlen
      omega
    · omega
  refine ⟨g, hcontent, hsays.limit, hsays.page, hsays.header, ?_⟩
  refine (wp_replayWalLoop _ hdb.fd h.apart hcontent hsays.limit hscans hv
    hfuel (InFile.refl h.file) hend).mono (fun _ hw' => hw') ?_
  rintro x w' (⟨rfl, hw'⟩ | ⟨hx, hfd, hl, hne, hbig, hw'⟩)
  · left
    rw [hdb.logEnd, ← logEndOf_append]
    refine ⟨rfl, hw'.mono (fun hk => ?_)⟩
    unfold DbFile.Kept DbFile.merged
    rw [encodeLog_append]
    exact hk
  · right
    refine ⟨hx, hfd.trans hdb.fd, hl, ?_, hw'⟩
    rw [← encodeLog_append] at hbig
    rintro (h0 | hfit)
    · exact hne (List.append_eq_nil_iff.mp h0).2
    · omega

/-- `replay_wal` without its deletions of the WAL file, and whether it goes on
to one. -/
def mergeWal (db : Db) : Cmd (Rc × Db × Bool) := do
  match ← fileOpen .wal false with
  | .error _ => return (.ok, db, false)
  | .ok (walFd, _) =>
      match ← fileSize walFd with
      | .error _ =>
          fileClose walFd
          return (.ok, db, true)
      | .ok walSize =>
          if walSize < walHdrSize then
            fileClose walFd
            return (.ok, db, true)
          match ← readFull walFd 64 0 with
          | .error _ =>
              fileClose walFd
              return (.errIo, db, false)
          | .ok hdr =>
              if ¬ walHeaderValid hdr then
                fileClose walFd
                return (.errCorrupt, db, false)
              let (rc, db) ← replayWalLoop walFd walSize
                (walSize.toNat + 1) db walHdrSize
              fileClose walFd
              if rc ≠ .ok then return (rc, db, false)
              let db := { db with flags := db.flags &&& ~~~flagWalPresent }
              if (← headerUpdate db.fd db) ≠ .ok then
                return (.errIo, db, false)
              return (.ok, db, true)

/-- The deletion of the WAL file is the last step of `replay_wal`. -/
theorem replayWal_eq (db : Db) :
    replayWal db = mergeWal db >>= fun x =>
      if x.2.2 then fileDelete .wal >>= fun _ => pure (x.1, x.2.1)
      else pure (x.1, x.2.1) := by
  unfold replayWal mergeWal
  rw [bind_assoc]
  refine bind_congr fun x => ?_
  cases x with
  | error rc =>
      rfl
  | ok x =>
      rw [bind_assoc]
      refine bind_congr fun size => ?_
      cases size with
      | error rc =>
          rfl
      | ok walSize =>
          dsimp only
          split
          · rfl
          rw [bind_assoc]
          refine bind_congr fun hdr => ?_
          cases hdr with
          | error rc =>
              rfl
          | ok hdr =>
              dsimp only
              split
              · rfl
              rw [bind_assoc]
              refine bind_congr fun y => ?_
              obtain ⟨rc, db⟩ := y
              dsimp only
              rw [bind_assoc]
              refine bind_congr fun _ => ?_
              split
              · rfl
              rw [bind_assoc]
              refine bind_congr fun rc => ?_
              split
              · rfl
              · rfl

/-- Up to the deletion `replay_wal` puts the records of the WAL into the log and
writes the header; it fails when they do not fit. -/
theorem Beside.wp_mergeWal (h : Beside w d i j ws) (hdb : Fresh db i d) :
    Prog.Wp (Keeping fails) (InFile i w (Merging d ws)) (mergeWal db) w
      (fun x w' =>
        (x = (.ok, db.mergedWith d ws, true) ∧
          InFile i w (d.merged ws).Stored w') ∨
        (∃ db', x = (.errIo, db', false) ∧ db'.fd = some i ∧
          db'.lockFd = db.lockFd ∧ ¬ Fits d.start (d.rs ++ ws) ∧
          InFile i w d.Stored w')) := by
  obtain ⟨g, hcontent, hlimit, hpage, hheader, hloop⟩ := h.wp_loop hdb
  have hstart : InFile i w (Merging d ws) w := InFile.refl (Or.inl h.file)
  have hsize := reads_fileSize j w
  rw [hcontent] at hsize
  have hread : CmdReads (readFull (some j) 64 0) w
      (.ok (slice g (0 : UInt64).toNat 64)) :=
    reads_readFull_slice hcontent hlimit (by simpa using hpage)
  unfold mergeWal
  refine wp_op_on Keeping.weaken (fun _ _ h => h) hstart ?_
  simp only [posix, h.wal]
  apply Prog.wp_bind_reads Keeping.weaken hsize
  dsimp only
  rw [if_neg (by
    have hmx := maxFileSize_eq
    rw [UInt64.lt_iff_toNat_lt, UInt64.toNat_ofNat',
      show walHdrSize.toNat = 64 from rfl]
    omega)]
  apply Prog.wp_bind_reads Keeping.weaken hread
  dsimp only
  rw [if_neg (by rw [show (0 : UInt64).toNat = 0 from rfl, hheader]; simp)]
  apply Prog.wp_seq (wp_keeping (twin_replayWalLoop rfl _ _ rfl rfl _)
    (hloop.mono (fun w' hw' => hw'.mono Or.inl) (fun _ _ hq => hq)))
  rintro ⟨rc, db'⟩ w1 hi1 (⟨heq, h1⟩ | ⟨hx, hfd, hl, hbig, h1⟩)
  swap
  · refine wp_op_on Keeping.weaken (fun _ _ h => h) hi1 ?_
    dsimp only at hx
    subst hx
    rw [if_pos (by simp)]
    exact Prog.wp_pure hi1 (Or.inr ⟨db', rfl, hfd, hl, hbig, h1⟩)
  cases heq
  refine wp_op_on Keeping.weaken (fun _ _ h => h) hi1 ?_
  dsimp only
  rw [if_neg (by simp)]
  have hdb' : ({ db.endAt (logEndOf d.start (d.rs ++ ws)) with
      flags := (db.endAt (logEndOf d.start (d.rs ++ ws))).flags &&&
        ~~~flagWalPresent } : Db) = db.mergedWith d ws := by
    unfold Db.mergedWith
    rw [← hdb.flags]
    rfl
  rw [hdb', show (db.endAt (logEndOf d.start (d.rs ++ ws))).fd = some i from
    hdb.fd]
  have hupdate := wp_headerUpdate (F := False) (db.mergedWith d ws) h1.2
  rw [hdb.patch_merged] at hupdate
  apply Prog.wp_seq (wp_keeping (twin_headerUpdate rfl _ rfl)
    (hupdate.mono (J := InFile i w (Merging d ws)) (fun w' hw' => ?_)
      (fun _ _ hq => hq)))
  · rintro rc w2 hi2 (⟨rfl, h2⟩ | ⟨hF, -⟩)
    · rw [if_neg (by simp)]
      exact Prog.wp_pure hi2 (Or.inl ⟨rfl, h1.1.trans h2.1, h2.2⟩)
    · exact hF.elim
  · refine ⟨h1.1.trans hw'.1, Or.inr (DbFile.Kept.mono hw'.2 ?_)⟩
    rintro B (hF | hB)
    · exact hF.elim
    · exact hB

/-- What `replay_wal` leaves on a machine on which its deletion of the WAL file
may fail. -/
theorem Beside.wp_replayWal (h : Beside w d i j ws) (hdb : Fresh db i d) :
    Prog.Wp (Keeping fails)
      (fun w' => InFile i w (Merging d ws) w' ∨
        InFile i (w.unlinked fails) (d.merged ws).Stored w')
      (replayWal db) w (fun x w' =>
        (x = (.ok, db.mergedWith d ws) ∧
          InFile i (w.unlinked fails) (d.merged ws).Stored w') ∨
        (x.1 = .errIo ∧ x.2.fd = some i ∧ x.2.lockFd = db.lockFd ∧
          ¬ Fits d.start (d.rs ++ ws) ∧ InFile i w d.Stored w')) := by
  rw [replayWal_eq]
  apply Prog.wp_seq ((h.wp_mergeWal hdb).mono (fun _ => Or.inl)
    (fun _ _ hq => hq))
  rintro x w1 hi1 (⟨rfl, h1⟩ | ⟨db', rfl, hfd, hl, hbig, h1⟩)
  · have h2 := h1.unlinked fails
    rw [if_pos rfl]
    exact wp_deleteWal hi1 fun _ =>
      Prog.wp_pure (Or.inr h2) (Or.inl ⟨rfl, h2⟩)
  · rw [if_neg (by simp)]
    exact Prog.wp_pure hi1 (Or.inr ⟨rfl, hfd, hl, hbig, h1⟩)

/-- The file is opened with a look at the WAL. -/
def DbFile.LooksAtWal (d : DbFile) : Prop :=
  d.flags &&& flagWalPresent ≠ 0 ∨ d.flags &&& flagDirty ≠ 0

/-- What is on the disk while `recover` works on a main file beside a WAL. -/
def MergingTo (fails : Bool) (d : DbFile) (ws : List Record) (v : View)
    (i : Nat) (w w' : World) : Prop :=
  InFile i w (Merging d ws) w' ∨
    InFile i (w.unlinked fails) (Recovering False (d.merged ws) v) w'

theorem MergingTo.of_merged {v : View} {w' : World}
    (h : InFile i (w.unlinked fails) (d.merged ws).Stored w') :
    MergingTo fails d ws v i w w' :=
  Or.inr (h.mono (fun hk => hk.recovering False v))

/-- Recovery of a main file beside a WAL, with a log that replay accepts. -/
theorem Beside.wp_recover {mem : Mem} {t : UInt64} (h : Beside w d i j ws)
    (hdb : Fresh db i d) (hlook : d.LooksAtWal)
    (hfit : Fits d.start (d.rs ++ ws))
    (hrep : replayRecords d.start (d.rs ++ ws) (Mem.start d.nextMsgId) =
      some mem) :
    Prog.Wp (Keeping fails)
      (MergingTo fails d ws ((d.merged ws).opened mem t) i w)
      (recover db) w (fun x w' =>
        x = (.ok, { (db.mergedWith d ws).withMem mem with
          flags := (d.merged ws).flags ||| flagDirty }) ∧
        InFile i (w.unlinked fails)
          ((d.merged ws).opened mem t).file.Stored w') := by
  rw [recover_eq, if_pos (by rw [hdb.flags]; exact hlook)]
  apply Prog.wp_seq ((h.wp_replayWal hdb).mono
    (fun w' hw' => hw'.elim Or.inl MergingTo.of_merged) (fun _ _ hq => hq))
  rintro x w1 hi1 (⟨rfl, h1⟩ | ⟨-, -, -, hbig, -⟩)
  swap
  · exact absurd hfit hbig
  rw [if_neg (by simp)]
  have hm := hdb.merged ws
  apply wp_keeping (twin_recoverFile rfl rfl)
  apply wp_recoverFile_of_scan hm.fd hm.logEnd h1.2
    (fun w' hw' => MergingTo.of_merged ⟨h1.1.trans hw'.1, hw'.2⟩)
  intro w2 h2
  apply wp_recoverScan_of_replay (hm.framed h2.2)
  refine (wp_recoverReplay (F := False) (t := t) hm h2.2 hrep).mono
    (fun w' hw' => Or.inr ⟨h1.1.trans (h2.1.trans hw'.1), hw'.2⟩) ?_
  rintro x w' (⟨rfl, hw'⟩ | ⟨hF, -⟩)
  · exact ⟨rfl, h1.1.trans (h2.1.trans hw'.1), hw'.2⟩
  · exact hF.elim

/-- Recovery of a main file beside a WAL, with a log that is too long or that
replay rejects. -/
theorem Beside.wp_recover_fails (h : Beside w d i j ws) (hdb : Fresh db i d)
    (hlook : d.LooksAtWal) (v : View)
    (hbad : Fits d.start (d.rs ++ ws) →
      replayRecords d.start (d.rs ++ ws) (Mem.start d.nextMsgId) = none) :
    Prog.Wp (Keeping fails) (MergingTo fails d ws v i w) (recover db) w
      (fun x w' => x.1 ≠ .ok ∧ x.2.fd = some i ∧ x.2.lockFd = db.lockFd ∧
        w'.lockOwner = w.lockOwner ∧
        (InFile i w d.Stored w' ∨
          InFile i (w.unlinked fails) (d.merged ws).Stored w')) := by
  rw [recover_eq, if_pos (by rw [hdb.flags]; exact hlook)]
  apply Prog.wp_seq ((h.wp_replayWal hdb).mono
    (fun w' hw' => hw'.elim Or.inl MergingTo.of_merged) (fun _ _ hq => hq))
  rintro x w1 hi1 (⟨rfl, h1⟩ | ⟨hx, hfd, hl, hbig, h1⟩)
  swap
  · have hne : x.1 ≠ .ok := by rw [hx]; simp
    rw [if_pos hne]
    exact Prog.wp_pure hi1 ⟨hne, hfd, hl, h1.1.lockOwner, Or.inl h1⟩
  rw [if_neg (by simp)]
  have hm := hdb.merged ws
  have hrep := hbad (DbFile.Kept.content h1.2).fits
  apply wp_keeping (twin_recoverFile rfl rfl)
  apply wp_recoverFile_of_scan hm.fd hm.logEnd h1.2
    (fun w' hw' => MergingTo.of_merged ⟨h1.1.trans hw'.1, hw'.2⟩)
  intro w2 h2
  apply wp_recoverScan_of_replay (hm.framed h2.2)
  have h12 : InFile i (w.unlinked fails) (d.merged ws).Stored w2 :=
    ⟨h1.1.trans h2.1, h2.2⟩
  exact wp_recoverReplay_corrupt hm h2.2 hrep (MergingTo.of_merged h12)
    (fun db' hfd hl => ⟨by simp, hfd, hl,
      h12.1.lockOwner.trans (unlinked_lockOwner fails w), Or.inr h12⟩)

end Merge

section Open

variable {w w' : World} {i j : Nat} {d : DbFile} {ws : List Record}
variable {t : UInt32} {mem : Mem} {fails : Bool}

/-- A main file that says `d` beside a WAL file with the records `ws`, and
nobody holds the database open. -/
structure Walled (w : World) (d : DbFile) (i j : Nat) (ws : List Record) :
    Prop extends Beside w d i j ws where
  main : w.dir .main = some i
  ino : i < w.nextIno
  lock : w.lockOwner = none

/-- The handle `recover` gets. -/
theorem imageDb_header (t : UInt32) (l : Nat) (d : DbFile) :
    Fresh (imageDb t l i d.header) i d :=
  opened_fresh t l

/-- The steps of `qdb_open_err` around the recovery of a file that says `d`,
with or without a WAL file. -/
theorem wp_open_around {I : World → Prop} {Q : Rc × Option Db → World → Prop}
    (hmain : w.dir .main = some i) (hlock : w.lockOwner = none)
    (hk : d.Stored (w.files i))
    (hI : ∀ w', w'.dir .main = w.dir .main → w'.dir .wal = w.dir .wal →
      w'.files = w.files → w'.nextIno = w.nextIno → I w')
    (hrec : Prog.Wp (Keeping fails) I
      (recover (imageDb t w.nextLockFd i d.header)) w.locked (fun x w' =>
        (x.1 = .ok ∧ Q (.ok, some x.2) w') ∨
        (x.1 ≠ .ok ∧ x.2.fd = some i ∧ x.2.lockFd = some w.nextLockFd ∧
          w'.lockOwner = some w.nextLockFd ∧
          I { w' with lockOwner := none } ∧
          Q (x.1, none) { w' with lockOwner := none }))) :
    Prog.Wp (Keeping fails) I (qdbOpenErr t) w Q := by
  apply wp_open_of_locked Keeping.weaken hlock hI
  refine wp_op_on Keeping.weaken (fun _ _ h => h)
    (hI _ (locked_main w) (locked_wal w) rfl rfl) ?_
  simp only [posix, locked_main, hmain]
  rw [if_neg (by simp)]
  unfold openExisting
  have hk' : d.Stored (w.locked.files i) := hk
  apply Prog.wp_bind_reads Keeping.weaken
    (reads_headerRead (DbFile.Kept.content hk') _)
  dsimp only
  rw [if_neg (by simp)]
  apply Prog.wp_seq hrec
  rintro ⟨rc, db⟩ w' hi (⟨hok, hq⟩ | ⟨hne, hfd, hl, hlock', hi', hq⟩)
  · rw [if_neg (not_not.mpr hok)]
    exact Prog.wp_pure hi hq
  · rw [if_pos hne]
    unfold openFail
    apply Prog.wp_seq (wp_freeDb Keeping.weaken hfd hl hlock' hi hi'
      (Q := fun _ w'' => w'' = { w' with lockOwner := none }) rfl)
    rintro _ w'' hi'' rfl
    exact Prog.wp_pure hi'' hq

/-- A WAL file with the records `ws` is there. -/
def World.HasWal (w : World) (j : Nat) (ws : List Record) : Prop :=
  w.dir .wal = some j ∧ ∃ g, w.files j = ⟨g, []⟩ ∧ WalSays g ws

/-- The files while `qdb_open` merges the WAL. -/
structure MergingOn (fails : Bool) (d : DbFile) (ws : List Record) (v : View)
    (i j : Nat) (w : World) : Prop where
  main : w.dir .main = some i
  ino : i < w.nextIno
  files : (w.HasWal j ws ∧ Merging d ws (w.files i)) ∨
    ((if fails then w.HasWal j ws else w.dir .wal = none) ∧
      Recovering False (d.merged ws) v (w.files i))

namespace Walled

theorem locked (h : Walled w d i j ws) : Beside w.locked d i j ws where
  wal := by rw [locked_wal]; exact h.wal
  apart := h.apart
  file := h.file
  walFile := h.walFile

theorem atTime (h : Walled w d i j ws) (now : UInt64) :
    Walled { w with now := now } d i j ws where
  wal := h.wal
  apart := h.apart
  file := h.file
  walFile := h.walFile
  main := h.main
  ino := h.ino
  lock := h.lock

theorem hasWal (h : Walled w d i j ws) (hdir : w'.dir .wal = w.dir .wal)
    (hfile : w'.files j = w.files j) : w'.HasWal j ws := by
  refine ⟨hdir.trans h.wal, ?_⟩
  rw [hfile]
  exact h.walFile

/-- The WAL file behind its deletion, which may have failed. -/
theorem unlinked_hasWal (h : Walled w d i j ws)
    (hsame : (w.locked.unlinked fails).SameBut i w') :
    if fails then w'.HasWal j ws else w'.dir .wal = none := by
  have hwal : w'.dir .wal = if fails then w.locked.dir .wal else none := by
    rw [hsame.dir, unlinked_wal]
  cases fails with
  | false =>
      exact hwal
  | true =>
      refine h.hasWal (hwal.trans (locked_wal w)) ?_
      rw [hsame.files j h.apart, unlinked_files]
      rfl

theorem mergingOn (h : Walled w d i j ws) {v : View}
    (hw : MergingTo fails d ws v i w.locked w') :
    MergingOn fails d ws v i j w' := by
  rcases hw with ⟨hsame, hs⟩ | ⟨hsame, hs⟩
  · refine ⟨?_, ?_, Or.inl ⟨h.hasWal ?_ ?_, hs⟩⟩
    · rw [hsame.dir, locked_main]
      exact h.main
    · rw [hsame.nextIno]
      exact h.ino
    · rw [hsame.dir, locked_wal]
    · rw [hsame.files j h.apart]
      rfl
  · refine ⟨?_, ?_, Or.inr ⟨h.unlinked_hasWal hsame, hs⟩⟩
    · rw [hsame.dir, unlinked_main, locked_main]
      exact h.main
    · rw [hsame.nextIno, unlinked_nextIno]
      exact h.ino

/-- Before the recovery the files are as they were. -/
theorem mergingOn_locking (h : Walled w d i j ws) (v : View) (w' : World)
    (h1 : w'.dir .main = w.dir .main) (h2 : w'.dir .wal = w.dir .wal)
    (h3 : w'.files = w.files) (h4 : w'.nextIno = w.nextIno) :
    MergingOn fails d ws v i j w' where
  main := h1.trans h.main
  ino := by
    rw [h4]
    exact h.ino
  files := by
    refine Or.inl ⟨h.hasWal h2 (congrFun h3 j), Or.inl ?_⟩
    rw [h3]
    exact h.file

/-- The handle on the merged file, once the WAL file is gone. -/
theorem live (h : Walled w d i j ws)
    (hw : InFile i (w.locked.unlinked false)
      ((d.merged ws).opened mem (leaseTimeoutOf t)).file.Stored w') :
    Live False w' { ((imageDb t w.nextLockFd i d.header).mergedWith d
        ws).withMem mem with flags := (d.merged ws).flags ||| flagDirty }
      ((d.merged ws).opened mem (leaseTimeoutOf t)) i where
  fd := rfl
  main := by
    rw [hw.1.dir, unlinked_main, locked_main]
    exact h.main
  wal := by
    rw [hw.1.dir, unlinked_wal]
    rfl
  ino := by
    rw [hw.1.nextIno]
    exact h.ino
  lock := by
    refine ⟨w.nextLockFd, rfl, hw.1.lockOwner, ?_⟩
    rw [hw.1.nextLockFd]
    exact Nat.lt_succ_self _
  keeps := DbFile.Kept.mono hw.2 (fun B hB => Or.inr hB)
  logStart := rfl
  logEnd := rfl
  flags := rfl
  createTime := rfl
  timeout := rfl
  nextMsgId := rfl
  nextLeaseId := rfl
  state := rfl

/-- `qdb_open` fails when the log with the WAL records is too long or replay
rejects it. -/
theorem wp_open_fails (h : Walled w d i j ws) (hlook : d.LooksAtWal) (v : View)
    (hbad : Fits d.start (d.rs ++ ws) →
      replayRecords d.start (d.rs ++ ws) (Mem.start d.nextMsgId) = none) :
    Prog.Wp (Keeping false) (MergingOn false d ws v i j) (qdbOpenErr t) w
      (fun x w' => x.1 ≠ .ok ∧ x.2 = none ∧
        (Walled w' d i j ws ∨ Rest w' (d.merged ws) i)) := by
  apply wp_open_around h.main h.lock h.file (h.mergingOn_locking v)
  apply Prog.Wp.mono (Prog.Wp.keep (h.locked.wp_recover_fails
    (imageDb_header t w.nextLockFd d) hlook v hbad))
    (fun w' hw' => h.mergingOn hw')
  rintro x w' ⟨hi, hne, hfd, hl, hlock, hend⟩
  have hm := h.mergingOn hi
  refine Or.inr ⟨hne, hfd, hl, hlock, ⟨hm.main, hm.ino, hm.files⟩, hne, rfl, ?_⟩
  rcases hend with hw' | hw'
  · refine Or.inl ⟨⟨?_, h.apart, hw'.2, ?_⟩, hm.main, hm.ino, rfl⟩
    · exact (congrFun hw'.1.dir .wal).trans h.locked.wal
    · obtain ⟨g, hg, hsays⟩ := h.walFile
      exact ⟨g, (hw'.1.files j h.apart).trans hg, hsays⟩
  · exact Or.inr ⟨⟨hm.main, h.unlinked_hasWal hw'.1, hm.ino, hw'.2⟩, rfl⟩

end Walled

end Open

end Qdb
