import Qdb.Phases
import Qdb.TornTail

/-!
# Refused files and interrupted creations

`qdb_open` modifies the file before it knows whether it can open it: what stands
behind the log is cut off, and so is a partial record.  A file that is refused
as corrupt is therefore left alone exactly when there was nothing to cut.

A crash inside the first `qdb_open` can leave a file that is shorter than a
header, which no later `qdb_open` accepts.
-/

namespace Qdb

open Lib

section Refusal

variable {w w' : World} {i : Nat} {f : Bytes} {m : Db} {rs : List Record}
variable {v : ScanResult} {t : UInt32} {x : Option Db}

/-- Behind an accepted header nothing stands behind the log, and the scan of the
log does not meet a partial record. -/
def NothingToCut (f : Bytes) : Prop :=
  ∀ m, HasHeader f m → f.length ≤ m.logEndOffset.toNat ∧
    ∀ rs, ¬ Scans f m.logStartOffset m.logEndOffset rs .scanPartial

/-- How a file comes to be refused, and what is then left of it. -/
inductive Refused (f : Bytes) : Bytes → Prop
  | header (hno : ∀ m, ¬ HasHeader f m) : Refused f f
  | scan {m : Db} {rs : List Record} (hs : Scanned f m rs (.err .errCorrupt)) :
      Refused f (imageCut f m).content
  | replay {m : Db} {rs : List Record} {v : ScanResult}
      (hs : Scanned f m rs v) (hset : Settles m rs v) :
      Refused f (imageSettled f m rs v).content

/-- Every file that is refused as corrupt is refused in one of these ways. -/
theorem Image.refused (h : Image w i f)
    (hrun : Prog.run posix (qdbOpenErr t) w = some ((.errCorrupt, x), w')) :
    ∃ f', Refused f f' ∧ w'.mainFile = some f' := by
  have hfinal : ∀ {I : World → Prop} {Q : Rc × Option Db → World → Prop},
      Prog.Wp (Faulty False) I (qdbOpenErr t) w Q → Q (.errCorrupt, x) w' := by
    intro I Q hwp
    exact hwp.exec (Prog.Exec.of_run (faulty_posix False) hrun)
  rcases h.classify with hno | ⟨m, rs, v, hs, ⟨rc, rfl, hrc⟩ |
    ⟨rfl, hfar⟩ | hset⟩
  · obtain ⟨-, himg⟩ := hfinal (wp_open_headless h hno)
    exact ⟨f, .header hno, himg.mainFile⟩
  · rcases hrc with rfl | rfl
    · obtain ⟨-, hdisk, -⟩ := hfinal (wp_open_scanError h hs (by simp))
      exact ⟨_, .scan hs, hdisk.mainFile⟩
    · obtain ⟨hx, -⟩ := hfinal (wp_open_scanError h hs (by simp))
      cases hx
  · obtain ⟨hx, -⟩ := hfinal (wp_open_far h hs hfar)
    cases hx
  · cases hrep : replayRecords m.logStartOffset rs
        (Mem.start m.nextMsgId) with
    | none =>
        obtain ⟨-, hdisk, -⟩ := hfinal (wp_open_rejected h hs hset hrep)
        exact ⟨_, .replay hs hset, hdisk.mainFile⟩
    | some mem =>
        obtain ⟨db, hx, -⟩ := hfinal (wp_open_accepted h hs hset hrep)
        cases hx

/-- The cut changes the file exactly when it is longer than its log. -/
theorem cut_eq_iff (f : Bytes) (m : Db) :
    (imageCut f m).content = f ↔ f.length ≤ m.logEndOffset.toNat := by
  rw [content_imageCut]
  exact List.take_eq_self_iff f

namespace Scanned

/-- The scan of a file that is not longer than its log. -/
theorem scans_file (hs : Scanned f m rs v)
    (hle : f.length ≤ m.logEndOffset.toNat) :
    Scans f m.logStartOffset m.logEndOffset rs v := by
  have h := hs.scans
  rw [List.take_of_length_le hle] at h
  exact h

/-- Whether there is something to cut is read off one scan. -/
theorem nothingToCut_iff (hs : Scanned f m rs v) :
    NothingToCut f ↔
      f.length ≤ m.logEndOffset.toNat ∧ v ≠ .scanPartial := by
  constructor
  · intro h
    obtain ⟨hle, hno⟩ := h m hs.header
    refine ⟨hle, ?_⟩
    rintro rfl
    exact hno rs (hs.scans_file hle)
  · rintro ⟨hle, hv⟩ m' hm'
    have heq := hs.header.withHeader_eq hm' Db.zero
    have hstart := congrArg Db.logStartOffset heq
    have hend := congrArg Db.logEndOffset heq
    change m.logStartOffset = m'.logStartOffset at hstart
    change m.logEndOffset = m'.logEndOffset at hend
    rw [← hstart, ← hend]
    refine ⟨hle, ?_⟩
    intro rs' hs'
    exact hv ((hs.scans_file hle).unique hs' hs.limit).2

/-- A partial record is in front of the end of the log. -/
theorem stop_ne (hs : Scanned f m rs .scanPartial) :
    logEndOf m.logStartOffset rs ≠ m.logEndOffset := by
  intro heq
  have hv := hs.scans.verdict
  rw [heq, Scans.scanImage_past (UInt64.lt_irrefl _)] at hv
  cases hv

/-- The header of the validated file. -/
theorem header_settled (hs : Scanned f m rs v) (hset : Settles m rs v) :
    HasHeader (imageSettled f m rs v).content
      { m with logEndOffset := logEndOf m.logStartOffset rs } := by
  have hk := DbFile.Kept.content (hs.stored hset)
  exact
    { page := Begins.page hk
      head := Begins.head hk
      patch := (Begins.patch hk).trans
        (DbFile.headerPatch_eq rfl rfl rfl rfl rfl).symm
      lower := hs.header.lower
      order := by
        rw [UInt64.le_iff_toNat_le]
        change m.logStartOffset.toNat ≤ (logEndOf _ rs).toNat
        rw [hs.toNat_stop]
        omega }

/-- Cutting off a partial record changes the header. -/
theorem settled_ne (hs : Scanned f m rs .scanPartial)
    (hset : Settles m rs .scanPartial) :
    (imageSettled f m rs .scanPartial).content ≠ f := by
  intro heq
  have hh := hs.header_settled hset
  rw [heq] at hh
  have := hs.header.withHeader_eq hh Db.zero
  exact hs.stop_ne (congrArg Db.logEndOffset this).symm

end Scanned

/-- What is left of a refused file is the file if there was nothing to cut. -/
theorem Refused.eq_iff {f' : Bytes} (h : Refused f f') :
    f' = f ↔ NothingToCut f := by
  cases h with
  | header hno =>
      exact ⟨fun _ m hm => absurd hm (hno m), fun _ => rfl⟩
  | scan hs =>
      rw [cut_eq_iff, hs.nothingToCut_iff]
      simp
  | @replay m rs v hs hset =>
      rw [hs.nothingToCut_iff]
      rcases hset with rfl | ⟨rfl, hfit⟩
      · rw [imageSettled, cut_eq_iff]
        · simp
        · simp
      · have hne := hs.settled_ne (Or.inr ⟨rfl, hfit⟩)
        simp [hne]

/-- A file that `qdb_open` refuses as corrupt is left untouched exactly when
there was nothing to cut off from it. -/
theorem refused_file_untouched_iff (h : Image w i f)
    (hrun : Prog.run posix (qdbOpenErr t) w = some ((.errCorrupt, x), w')) :
    w'.mainFile = w.mainFile ↔ NothingToCut f := by
  obtain ⟨f', href, hf'⟩ := h.refused hrun
  rw [hf', h.mainFile, Option.some.injEq]
  exact href.eq_iff

/-- A file that starts with an encoded header. -/
theorem hasHeader_encode (m : Db) (rest : Bytes)
    (hlower : hdrSize ≤ m.logStartOffset)
    (horder : m.logStartOffset ≤ m.logEndOffset) :
    HasHeader (headerEncode m ++ rest) m := by
  have h24 := length_headerPrefix24 m.createTimeUs
  have h32 := length_headerPatch m
  have hf : headerEncode m ++ rest = headerPrefix24 m.createTimeUs ++
      (headerPatch m ++ (List.replicate 4040 0 ++ rest)) := by
    rw [headerEncode_eq, List.append_assoc, List.append_assoc]
  exact
    { page := by
        rw [List.length_append, length_headerEncode]
        omega
      head := by
        rw [hf]
        exact slice_at [] _ _ rfl h24.symm
      patch := by
        rw [hf]
        exact slice_at _ _ _ h24.symm h32.symm
      lower := hlower
      order := horder }

/-- The header of a file whose log is `rs`. -/
def logDb (rs : List Record) : Db :=
  { Db.zero with
    logStartOffset := hdrSize
    logEndOffset := logEndOf hdrSize rs }

/-- A file with that header and the log `rs`. -/
def logFile (rs : List Record) : Bytes :=
  headerEncode (logDb rs) ++ encodeLog rs

theorem length_logFile (rs : List Record) :
    (logFile rs).length = 4096 + (encodeLog rs).length := by
  unfold logFile
  rw [List.length_append, length_headerEncode]

/-- The log ends where the file does. -/
theorem logEnd_logDb {rs : List Record}
    (hshort : (encodeLog rs).length ≤ 2 ^ 62) :
    (logDb rs).logEndOffset.toNat = (logFile rs).length := by
  have hmx := maxFileSize_eq
  rw [length_logFile]
  change (logEndOf hdrSize rs).toNat = _
  rw [toNat_logEndOf (Or.inr (by
    rw [show hdrSize.toNat = 4096 from rfl]
    omega))]
  rfl

theorem logFile_scanned {rs : List Record}
    (hshort : (encodeLog rs).length ≤ 2 ^ 62) :
    Image (World.ofFile (logFile rs)) 0 (logFile rs) ∧
      Scanned (logFile rs) (logDb rs) rs .scanEnd := by
  have hmx := maxFileSize_eq
  have hlen := length_logFile rs
  have hend := logEnd_logDb hshort
  have hstart : (logDb rs).logStartOffset.toNat = 4096 := rfl
  have himg : Image (World.ofFile (logFile rs)) 0 (logFile rs) :=
    image_ofFile (by omega)
  exact ⟨himg,
    { limit := himg.limit
      header := hasHeader_encode _ _ (UInt64.le_refl _) (by
        rw [UInt64.le_iff_toNat_le, hstart, hend]
        omega)
      scans := by
        rw [List.take_of_length_le (by omega)]
        refine Scans.of_encodeLog himg.limit ?_
        have hmid := slice_mid (headerEncode (logDb rs)) (encodeLog rs) []
        rw [List.append_nil, length_headerEncode] at hmid
        exact hmid }⟩

/-- A pushed message and an acknowledgement of it without a lease. -/
def unleasedAck : List Record :=
  [pushRecord 1 ⟨⟨[100], by decide, by decide⟩, [1, 2, 3], by decide⟩,
    ackRecord 1 1]

/-- A log that replay rejects, with nothing behind it, stays as it is. -/
theorem refused_file_untouched_log : ∃ w',
    Prog.run posix (qdbOpenErr 0) (World.ofFile (logFile unleasedAck)) =
      some ((.errCorrupt, none), w') ∧
    w'.mainFile = some (logFile unleasedAck) := by
  have hshort : (encodeLog unleasedAck).length ≤ 2 ^ 62 := by
    simp [unleasedAck, Record.size, pushRecord, pushPayload, ackRecord,
      ackPayload]
  obtain ⟨himg, hs⟩ := logFile_scanned hshort
  have hrep : replayRecords (logDb unleasedAck).logStartOffset unleasedAck
      (Mem.start (logDb unleasedAck).nextMsgId) = none := by
    simp only [unleasedAck, replayRecords, Record.replay, entry_pushRecord,
      entry_ackRecord, Option.bind_some, Mem.apply]
    rfl
  obtain ⟨x, w', hrun, rfl, -⟩ :=
    (wp_open_rejected (t := 0) himg hs (Or.inl rfl) hrep).run
      (faulty_posix False)
  refine ⟨w', hrun, ?_⟩
  rw [← himg.mainFile, refused_file_untouched_iff himg hrun,
    hs.nothingToCut_iff]
  exact ⟨le_of_eq (logEnd_logDb hshort).symm, by simp⟩

theorem tornFile_header : HasHeader tornFile tornDb :=
  hasHeader_encode tornDb _ (by decide) (by decide)

theorem tornFile_scanned :
    Scanned tornFile tornDb [ackRecord 1 1] .scanPartial where
  limit := tornFile_image.limit
  header := tornFile_header
  scans := by
    rw [List.take_of_length_le (by
      rw [length_tornFile]
      exact Nat.le_refl 4123)]
    exact tornFile_tailed.scans (.zeros 1 (by decide))

/-- A file is refused after a byte has been cut off and the header rewritten. -/
theorem refused_file_touched :
    ¬ ∀ (w w' : World) (i : Nat) (f : Bytes) (t : UInt32) (x : Option Db),
      Image w i f →
      Prog.run posix (qdbOpenErr t) w = some ((.errCorrupt, x), w') →
      w'.mainFile = w.mainFile := by
  intro hall
  have hset : Settles tornDb [ackRecord 1 1] .scanPartial := by
    have := maxFileSize_eq
    refine Or.inr ⟨rfl, ?_⟩
    rw [tornFile_scanned.toNat_stop]
    change 4096 + (encodeLog [ackRecord 1 1]).length ≤ _
    rw [show (encodeLog [ackRecord 1 1]).length = 26 by
      simp [Record.size, ackRecord, ackPayload]]
    omega
  have hrep : replayRecords tornDb.logStartOffset [ackRecord 1 1]
      (Mem.start tornDb.nextMsgId) = none := by
    rw [replayRecords_singleton, Record.replay, entry_ackRecord,
      Option.bind_some]
    rfl
  obtain ⟨x, w', hrun, rfl, hdisk, -⟩ :=
    (wp_open_rejected (t := 0) tornFile_image tornFile_scanned hset hrep).run
      (faulty_posix False)
  have hsame := hall _ w' 0 tornFile 0 none tornFile_image hrun
  rw [hdisk.mainFile, tornFile_image.mainFile, Option.some.injEq] at hsame
  exact tornFile_scanned.settled_ne hset hsame

end Refusal

section Creation

variable {w w' : World} {t : UInt32} {now : UInt64}

/-- `qdb_open` succeeds and gives an empty database. -/
def OpensEmpty (w : World) (now : UInt64) (t : UInt32) : Prop :=
  ∃ db w', (⟨w, none⟩ : Sys).step ⟨now, .openDb t⟩ =
      some (.code .ok, ⟨w', some db⟩) ∧
    db.state = some .empty ∧ db.nextMsgId = 1 ∧ db.logEndOffset = 4096

/-- A new database is empty. -/
theorem opensEmpty_of_step {ph : Phase} {v : View}
    (his : (⟨w, none⟩ : Sys).Is ph) (hph : ∀ v, ph ≠ .opened v)
    (hstep : ∀ res ph', ph.Step now (.openDb t) res ph' →
      res = .code .ok ∧ ph' = .opened v)
    (hempty : v.mem = Mem.start 1) (hstart : v.start = hdrSize)
    (hrs : v.rs = []) : OpensEmpty w now t := by
  have hwf : ph.WellFormed := fun v hv => absurd hv (hph v)
  obtain ⟨res, s', ph', hs, hst, his'⟩ := his.step hwf ⟨now, .openDb t⟩
  obtain ⟨rfl, rfl⟩ := hstep res ph' hst
  obtain ⟨db, i, hdb, hlive⟩ := his'
  obtain ⟨w', db?⟩ := s'
  dsimp only at hdb
  subst hdb
  refine ⟨db, w', hs, ?_, ?_, ?_⟩
  · rw [hlive.state, hempty]
    rfl
  · rw [hlive.nextMsgId, hempty]
    rfl
  · rw [hlive.logEnd, View.logEnd, hrs, logEndOf_nil, hstart]

/-- A crash while a database is created is recoverable exactly when it came
before the file was there or after the whole header had reached the disk. -/
theorem creation_crash_recoverable_iff {n : Nat} {t₀ : UInt32}
    (h : (⟨w, none⟩ : Sys).Is .absent)
    (hc : (Prog.after posix n (callCmd none (.openDb t₀)) w).Crash w') :
    OpensEmpty w' now t ↔ ∀ f, w'.mainFile = some f → 4096 ≤ f.length := by
  have hwf : Phase.WellFormed .absent := fun v hv => nomatch hv
  obtain ⟨ph, hcr, his⟩ := h.crash hwf ⟨w.now, .openDb t₀⟩ n hc
  have habsent : (⟨w', none⟩ : Sys).Is .absent →
      (OpensEmpty w' now t ↔
        ∀ f, w'.mainFile = some f → 4096 ≤ f.length) := by
    intro his
    constructor
    · intro _ f hf
      rw [World.mainFile, his.2.1] at hf
      cases hf
    · intro _
      refine opensEmpty_of_step his (by simp) ?_ ?_ ?_ ?_
        (v := (newFile now).opened (Mem.start 1) (leaseTimeoutOf t))
      · intro res ph' hst
        cases hst with
        | null _ hcall =>
            exact absurd trivial hcall
        | create t =>
            exact ⟨rfl, rfl⟩
      all_goals rfl
  cases hcr with
  | same _ =>
      exact habsent his
  | createBroken t₀ =>
      have hwf' : Phase.WellFormed .broken := fun v hv => nomatch hv
      constructor
      · rintro ⟨db, w'', hs, -⟩
        obtain ⟨res, s', ph', hs', hst, -⟩ := his.step hwf' ⟨now, .openDb t⟩
        rw [hs] at hs'
        cases hs'
        cases hst
      · intro hall
        obtain ⟨-, -, -, i, f, hmain, -, hfile, hlen⟩ := his
        have hf : w'.mainFile = some f := by
          rw [World.mainFile, hmain, Option.map_some, World.content, hfile]
          rfl
        exact absurd (hall f hf) (Nat.not_le.mpr hlen)
  | create t₀ =>
      constructor
      · intro _ f hf
        obtain ⟨-, i, hrest⟩ := his
        rw [World.mainFile, hrest.disk.main, Option.map_some,
          Option.some.injEq] at hf
        rw [← hf]
        exact Begins.page (DbFile.Kept.content hrest.disk.file)
      · intro _
        have hrep : (newFile w.now).replay = some (Mem.start 1) := rfl
        refine opensEmpty_of_step his (by simp) ?_ ?_ ?_ ?_
          (v := (newFile w.now).opened (Mem.start 1) (leaseTimeoutOf t))
        · intro res ph' hst
          cases hst with
          | null _ hcall =>
              exact absurd trivial hcall
          | openDb t h =>
              rw [hrep] at h
              cases h
              exact ⟨rfl, rfl⟩
          | openCorrupt t h =>
              rw [hrep] at h
              cases h
        all_goals rfl

/-- The machine after a crash between the creation of the file and the write of
its header. -/
def halfCreated : World :=
  { World.empty.locked.create .main with lockOwner := none }

theorem halfCreated_crash :
    (Prog.after posix 9 (callCmd none (.openDb 0)) World.empty).Crash
      halfCreated := by
  have hafter : Prog.after posix 9 (callCmd none (.openDb 0)) World.empty =
      World.empty.locked.create .main := by
    rfl
  have hfiles : (World.empty.locked.create .main).files =
      fun _ => ⟨[], []⟩ := by
    funext j
    simp [World.create, World.setFile, World.setDir, World.locked,
      World.empty]
  rw [hafter]
  exact
    { main := rfl
      wal := rfl
      files := by
        intro j
        refine ⟨[], ⟨[], ?_, ?_⟩, ?_⟩
        · rw [hfiles]
          exact .nil
        · rw [hfiles]
          rfl
        · exact congrFun hfiles j
      nextIno := rfl
      lockOwner := rfl }

/-- A crash behind the write of the header is recoverable when the header has
reached the disk; a crash in front of it is not. -/
theorem creation_crash_recoverable_written :
    OpensEmpty (Prog.after posix 11 (callCmd none (.openDb 0))
      World.empty).crashed 0 0 ∧ ¬ OpensEmpty halfCreated 0 0 := by
  have habsent : (⟨World.empty, none⟩ : Sys).Is .absent :=
    ⟨rfl, rfl, rfl, rfl⟩
  obtain ⟨m, hafter⟩ : ∃ m,
      Prog.after posix 11 (callCmd none (.openDb 0)) World.empty =
        (posix (.pwrite (some 0) (headerEncode m) 0)
          (World.empty.locked.create .main)).2 :=
    ⟨_, rfl⟩
  have hpage := length_headerEncode m
  have hwrite : posix (.pwrite (some 0) (headerEncode m) 0)
      (World.empty.locked.create .main) =
        (.ok, (World.empty.locked.create .main).issue 0
          (.write 0 (headerEncode m))) := by
    simp only [posix]
    rw [if_neg (by intro h0; rw [h0] at hpage; cases hpage),
      if_pos (by rw [hpage, maxFileSize_eq]; decide)]
    rfl
  constructor
  · refine (creation_crash_recoverable_iff habsent
      (World.crash_crashed _)).mpr ?_
    rw [hafter, hwrite]
    intro f hf
    have hf : some (overwrite [] 0 (headerEncode m)) = some f := hf
    cases hf
    rw [length_overwrite, hpage]
    decide
  · rw [creation_crash_recoverable_iff habsent halfCreated_crash]
    intro hall
    exact absurd (hall [] rfl) (by decide)

/-- A crash between the creation of the file and the write of its header leaves
a file that cannot be opened. -/
theorem creation_crash_unrecoverable :
    ¬ ∀ (w w' : World) (n : Nat) (t₀ t : UInt32) (now : UInt64),
      (⟨w, none⟩ : Sys).Is .absent →
      (Prog.after posix n (callCmd none (.openDb t₀)) w).Crash w' →
      OpensEmpty w' now t := by
  intro hall
  obtain ⟨db, w', hs, -⟩ := hall World.empty halfCreated 9 0 0 0
    ⟨rfl, rfl, rfl, rfl⟩ halfCreated_crash
  have his : (⟨halfCreated, none⟩ : Sys).Is .broken :=
    ⟨rfl, rfl, rfl, 0, [], rfl, Nat.zero_lt_one, rfl, by decide⟩
  obtain ⟨res, s', ph', hs', hst, -⟩ :=
    his.step (fun v hv => nomatch hv) ⟨0, .openDb 0⟩
  rw [hs] at hs'
  cases hs'
  cases hst

end Creation

end Qdb
