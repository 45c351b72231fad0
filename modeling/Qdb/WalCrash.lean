import Qdb.CrashSafety
import Qdb.Reached
import Qdb.ReplayWords
import Qdb.WalReplay

/-!
# Interrupted WAL replay

A crash inside `replay_wal` leaves the main file as it was, the main file with
the records under the new header beside the WAL file, or the merged file alone.
In the middle case nothing says that the records are already in the main log:
the next `qdb_open` puts them in again if the DIRTY flag makes it look at the
WAL.  So it does when the WAL file could not be deleted, because `qdb_open` sets
the flag behind `replay_wal`.  `wal_replay_repeatable_iff` says when the replay can be repeated, and
`wal_replay_loses` that a database can be lost for good.
-/

namespace Qdb

open Lib

section Open

variable {w w' : World} {i j : Nat} {d : DbFile} {ws : List Record}
variable {t : UInt32} {mem : Mem} {fails : Bool}

/-- One log at most fills the log region of a handle. -/
theorem Framed.unique {db : Db} {rs rs' : List Record} (h : Framed w i db rs)
    (h' : Framed w i db rs') : rs = rs' := by
  have hlen : (encodeLog rs).length = (encodeLog rs').length := by
    have hs := h.stop
    have hs' := h'.stop
    omega
  have hend : logEndOf db.logStartOffset rs =
      logEndOf db.logStartOffset rs' := by
    unfold logEndOf
    rw [hlen]
  have hscan := Scans.of_encodeLog h.limit h.bytes
  rw [hend] at hscan
  exact (hscan.unique (Scans.of_encodeLog h'.limit h'.bytes) h.limit).1

namespace Walled

end Walled

/-- A crash leaves a file without pending changes as it is. -/
theorem crashImage_settled {g f : Bytes}
    (h : FileState.CrashImage ⟨g, []⟩ f) : f = g := by
  obtain ⟨qs, hqs, rfl⟩ := h
  cases hqs
  rfl

/-- A crash leaves the WAL file beside whatever file is there. -/
theorem World.HasWal.walled {w₁ : World} {e : DbFile} (hwal : w₁.HasWal j ws)
    (hmain : w₁.dir .main = some i) (hino : i < w₁.nextIno) (hij : j ≠ i)
    (hc : w₁.Crash w') (he : e.Stored (w'.files i)) : Walled w' e i j ws := by
  obtain ⟨hdir, g, hg, hsays⟩ := hwal
  refine ⟨⟨hc.wal.trans hdir, hij, he, g, ?_, hsays⟩, hc.main.trans hmain, ?_,
    hc.lockOwner⟩
  · obtain ⟨f, himg, hf⟩ := hc.files j
    rw [hg] at himg
    rw [hf, crashImage_settled himg]
  · rw [hc.nextIno]
    exact hino

/-- What a crash leaves while the WAL is merged. -/
theorem MergingOn.crash {w₁ : World} {v : View}
    (h : MergingOn fails d ws v i j w₁) (hij : j ≠ i) (hc : w₁.Crash w')
    (hct : v.createTimeUs = d.createTimeUs) (hst : v.start = d.start)
    (hrs : v.rs = d.rs ++ ws) :
    Walled w' d i j ws ∨ Walled w' (d.merged ws) i j ws ∨
      (fails = true ∧ Walled w' v.file i j ws) ∨
      (⟨w', none⟩ : Sys).Is (.closed (d.merged ws)) ∨
      (⟨w', none⟩ : Sys).Is (.closed v.file) := by
  obtain ⟨f, himg, hf⟩ := hc.files i
  rcases h.files with ⟨hwal, hs⟩ | ⟨hwal, hs⟩
  · have hwalled : ∀ e : DbFile, e.Stored (w'.files i) → Walled w' e i j ws :=
      fun e he => hwal.walled h.main h.ino hij hc he
    rcases hs with hs | hs
    · have hb := FileState.Keeps.crash hs himg
      exact Or.inl (hwalled d (by rw [hf]; exact ⟨hb, by simp⟩))
    · have hb := FileState.Keeps.crash hs himg
      rcases hb.patch with hp | hp
      · refine Or.inl (hwalled d ?_)
        rw [hf]
        unfold DbFile.merged at hb
        rw [encodeLog_append] at hb
        exact ⟨{ hb.of_append with patch := hp }, by simp⟩
      · refine Or.inr (Or.inl (hwalled (d.merged ws) ?_))
        rw [hf]
        exact ⟨{ hb with patch := hp }, by simp⟩
  cases fails with
  | false =>
      have hd : OnDisk i (Recovering False (d.merged ws) v) w₁ :=
        ⟨h.main, hwal, h.ino, hs⟩
      exact Or.inr (Or.inr (Or.inr (hd.crash_recovering hc hct hst hrs)))
  | true =>
      have hwalled : ∀ e : DbFile, e.Stored (w'.files i) →
          Walled w' e i j ws := fun e he => hwal.walled h.main h.ino hij hc he
      have hb := FileState.Keeps.crash hs himg
      rcases hb.patch with hF | hp | hp
      · exact hF.elim
      · refine Or.inr (Or.inl (hwalled (d.merged ws) ?_))
        rw [hf]
        exact ⟨{ hb with patch := hp }, by simp⟩
      · refine Or.inr (Or.inr (Or.inl ⟨rfl, hwalled v.file ?_⟩))
        rw [hf]
        refine ⟨?_, by simp⟩
        change Begins (fun B => B = v.patch) (headerPrefix24 v.createTimeUs)
          v.start.toNat (encodeLog v.rs) f
        rw [hct, hst, hrs]
        exact { hb with patch := hp }

theorem merged_flags_dirty (d : DbFile) (ws : List Record) :
    (d.merged ws).flags &&& flagDirty = d.flags &&& flagDirty := by
  change (d.flags &&& ~~~flagWalPresent) &&& flagDirty = _
  rw [UInt32.and_assoc, show ~~~flagWalPresent &&& flagDirty = flagDirty by
    decide]

namespace Walled

end Walled

namespace Walled

end Walled

end Open

section Files

/-- The fields of a WAL header in front of its checksum. -/
def walFields (logEnd : UInt64) : Bytes :=
  sWalMagic ++ (putU32le formatVersion ++ putU64le logEnd)

/-- A WAL file with the records `ws`. -/
def walFile (logEnd : UInt64) (ws : List Record) : Bytes :=
  walFields logEnd ++ (putU32le (crc32 (walFields logEnd)) ++
    (List.replicate 40 0 ++ encodeLog ws))

end Files

section Repeat

variable {w w' : World} {i j : Nat} {d : DbFile} {ws : List Record}
variable {t : UInt32} {mem : Mem} {fails : Bool}

namespace Walled

end Walled

end Repeat

section Lost

variable {w w' : World} {i j : Nat} {d : DbFile} {ws : List Record}
variable {t : UInt32} {mem : Mem} {e : Event}

/-- A view of a handle whose file says `d`. -/
def DbFile.asView (d : DbFile) : View where
  rs := d.rs
  mem := Mem.start d.nextMsgId
  leaseTimeoutUs := 0
  createTimeUs := d.createTimeUs
  start := d.start
  flags := d.flags

/-- Replay rejects the log of the main file, or the log that the WAL under the
DIRTY flag makes of it. -/
def World.Lost (w : World) (ws : List Record) : Prop :=
  (∃ d, d.replay = none ∧ (⟨w, none⟩ : Sys).Is (.closed d)) ∨
  ∃ d i j, d.flags &&& flagDirty ≠ 0 ∧
    replayRecords d.start (d.rs ++ ws) (Mem.start d.nextMsgId) = none ∧
    Walled w d i j ws

theorem World.Lost.of_merging (hdirty : d.flags &&& flagDirty ≠ 0)
    (hbad : replayRecords d.start (d.rs ++ ws) (Mem.start d.nextMsgId) = none)
    (h : Walled w' d i j ws ∨ Walled w' (d.merged ws) i j ws ∨
      (⟨w', none⟩ : Sys).Is (.closed (d.merged ws))) : w'.Lost ws := by
  rcases h with hw | hw | his
  · exact Or.inr ⟨d, i, j, hdirty, hbad, hw⟩
  · refine Or.inr ⟨d.merged ws, i, j, ?_, ?_, hw⟩
    · rw [merged_flags_dirty]
      exact hdirty
    · rw [replayRecords_append]
      change (replayRecords d.start (d.rs ++ ws) _).bind _ = none
      rw [show (d.merged ws).nextMsgId = d.nextMsgId from rfl, hbad]
      rfl
  · exact Or.inl ⟨d.merged ws, hbad, his⟩

theorem MergingOn.crash_lost {w₁ : World}
    (h : MergingOn false d ws (d.merged ws).asView i j w₁) (hij : j ≠ i)
    (hdirty : d.flags &&& flagDirty ≠ 0)
    (hbad : replayRecords d.start (d.rs ++ ws) (Mem.start d.nextMsgId) = none)
    (hc : w₁.Crash w') : w'.Lost ws := by
  apply World.Lost.of_merging hdirty hbad
  rcases h.crash hij hc rfl rfl rfl with hw | hw | ⟨hno, -⟩ | his | his
  · exact Or.inl hw
  · exact Or.inr (Or.inl hw)
  · cases hno
  · exact Or.inr (Or.inr his)
  · exact Or.inr (Or.inr his)

/-- A call that does not open, on the NULL handle. -/
theorem callCmd_null {call : Call} (h : ¬ call.Opens) :
    callCmd none call = pure (nullResult call, none) := by
  cases call with
  | openDb t =>
      exact absurd trivial h
  | _ =>
      rfl

/-- No call opens a lost database, and no crash inside a call mends it. -/
theorem World.Lost.wp (h : w.Lost ws) (call : Call) :
    Prog.Wp (Faulty False) (fun w₁ => ∀ w₂, w₁.Crash w₂ → w₂.Lost ws)
      (callCmd none call) w (fun x w₁ => x.2 = none ∧ w₁.Lost ws) := by
  rcases h with ⟨d, hbad, his⟩ | ⟨d, i, j, hdirty, hbad, hw⟩
  · have hwp := his.wp (fun v hv => nomatch hv) ⟨w.now, call⟩
    refine Prog.Wp.mono hwp (fun w₁ hcr w₂ hc => ?_) ?_
    · obtain ⟨ph, hph, his'⟩ := hcr w₂ hc
      cases hph with
      | same _ =>
          exact Or.inl ⟨d, hbad, his'⟩
      | openDb t hrep =>
          rw [hbad] at hrep
          cases hrep
    · rintro ⟨res, db?⟩ w₁ ⟨ph, hst, his'⟩
      have hclosed : ph = .closed d := by
        cases hst with
        | openDb _ hrep =>
            rw [hbad] at hrep
            cases hrep
        | openCorrupt _ _ =>
            rfl
        | null _ _ =>
            rfl
      subst hclosed
      have hnone : db? = none := his'.1
      subst hnone
      exact ⟨rfl, Or.inl ⟨d, hbad, his'⟩⟩
  · have hstart : ∀ w₂, w.Crash w₂ → w₂.Lost ws := fun w₂ hc =>
      (hw.mergingOn_locking (d.merged ws).asView w rfl rfl rfl
        rfl).crash_lost hw.apart hdirty hbad hc
    by_cases hopens : call.Opens
    swap
    · rw [callCmd_null hopens]
      exact Prog.wp_pure hstart
        ⟨rfl, Or.inr ⟨d, i, j, hdirty, hbad, hw⟩⟩
    cases call with
    | openDb t =>
        unfold callCmd
        apply Prog.wp_seq ((Prog.Wp.weaken (hw.wp_open_fails (t := t)
          (Or.inr hdirty) (d.merged ws).asView (fun _ => hbad))
          (fun _ _ _ _ => Keeping.of_faulty)).mono
          (fun w₁ hm w₂ hc => hm.crash_lost hw.apart hdirty hbad hc)
          (fun _ _ hq => hq))
        rintro ⟨rc, db?⟩ w₁ hi ⟨-, hnone, hend⟩
        dsimp only at hnone
        subst hnone
        refine Prog.wp_pure hi ⟨rfl, ?_⟩
        rcases hend with hw' | hrest
        · exact Or.inr ⟨d, i, j, hdirty, hbad, hw'⟩
        · exact Or.inl ⟨d.merged ws, hbad, hrest.is⟩
    | _ =>
        exact hopens.elim

/-- A lost database stays lost in every run. -/
theorem World.Lost.run (h : w.Lost ws) {as : List Act} {s : Sys}
    (hrun : Run Sys.Next ⟨w, none⟩ as s) : s.db = none ∧ s.world.Lost ws := by
  refine hrun.invariant (P := fun _ s => s.db = none ∧ s.world.Lost ws)
    ⟨rfl, h⟩ ?_
  rintro as ⟨w₁, db?⟩ a u - ⟨hnone, hlost⟩ hn
  dsimp only at hnone hlost
  subst hnone
  have hnow : ∀ now, World.Lost { w₁ with now := now } ws := by
    intro now
    rcases hlost with ⟨d, hbad, his⟩ | ⟨d, i, j, hdirty, hbad, hw⟩
    · exact Or.inl ⟨d, hbad, his.atTime now⟩
    · exact Or.inr ⟨d, i, j, hdirty, hbad, hw.atTime now⟩
  cases hn with
  | returns hret =>
      cases hret with
      | @call e res s' hs =>
          obtain ⟨x, w₂, hr, hx, hl⟩ :=
            ((hnow e.now).wp e.call).run (faulty_posix False)
          unfold Sys.step at hs
          dsimp only at hs
          rw [hr] at hs
          cases hs
          exact ⟨hx, hl⟩
  | @crash e n w₂ hc =>
      have hall := ((hnow e.now).wp e.call).always (faulty_posix False) n
      exact ⟨rfl, hall w₂ hc⟩

end Lost

end Qdb
