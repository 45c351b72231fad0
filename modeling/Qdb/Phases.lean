import Qdb.Broker
import Qdb.CompactSpec
import Qdb.Compacted
import Qdb.ExpireSpec

/-!
# The database as a state machine

A phase says which file exists and whether a handle is open on it.  `Phase.Step`
gives what one call does to it on the ideal machine, and `Phase.Crash` what a
crash inside the call can leave.  `Sys.Is` relates the machine and the handle of
the application to a phase; every call of the library makes a step
(`Sys.Is.step`), and every crash point inside it is one of the crash outcomes
(`Sys.Is.crash`).
-/

namespace Qdb

open Lib

/-- The database as the application sees it. -/
inductive Phase
  /-- There is no database file. -/
  | absent
  /-- A crash has interrupted the creation of the file. -/
  | broken
  /-- The file says `d` and nobody holds it open. -/
  | closed (d : DbFile)
  /-- A handle with the view `v` is open. -/
  | opened (v : View)

/-- What replay of the file gives. -/
def DbFile.replay (d : DbFile) : Option Mem :=
  replayRecords d.start d.rs (Mem.start d.nextMsgId)

/-- What replay of the log that a compaction writes gives. -/
def View.compactReplay (v : View) (now : UInt64) : Option Mem :=
  replayRecords hdrSize (v.compactRecords now) (Mem.start v.mem.nextMsgId)

/-- One call on the ideal machine at the time `now`. -/
inductive Phase.Step (now : UInt64) : Phase → Call → Result → Phase → Prop
  | null {ph : Phase} {call : Call} (hph : ∀ v, ph ≠ .opened v)
      (hcall : ¬ call.Opens) : Step now ph call (nullResult call) ph
  | create (t : UInt32) :
      Step now .absent (.openDb t) (.code .ok)
        (.opened ((newFile now).opened (Mem.start 1) (leaseTimeoutOf t)))
  | openBroken (t : UInt32) :
      Step now .broken (.openDb t) (.code .errCorrupt) .broken
  | openDb (t : UInt32) {d : DbFile} {mem : Mem} (h : d.replay = some mem) :
      Step now (.closed d) (.openDb t) (.code .ok)
        (.opened (d.opened mem (leaseTimeoutOf t)))
  | openCorrupt (t : UInt32) {d : DbFile} (h : d.replay = none) :
      Step now (.closed d) (.openDb t) (.code .errCorrupt) (.closed d)
  | openLocked (t : UInt32) {v : View} :
      Step now (.opened v) (.openDb t) (.code .errLocked) (.opened v)
  | close {v : View} :
      Step now (.opened v) .close (.code .ok) (.closed v.closed)
  | move {v v' : View} {call : Call} {mv : Move} {res : Result}
      (hmv : v.move now call = some mv) (ho : mv.Outcome False v res v') :
      Step now (.opened v) call res (.opened v')
  | expire {v v' : View} {rc : Rc}
      (h : ExpireEnd False now v v.mem.st.leases rc v')
      (hfit : v'.Fits) :
      Step now (.opened v) .processExpired
        (.ofExpire rc (Int32.ofNat (expiredCount now v.mem.st.leases)))
        (.opened v')
  | compact {v : View} {mem : Mem} (hmem : v.compactReplay now = some mem)
      (hfit : Fits hdrSize (v.compactRecords now)) :
      Step now (.opened v) .compact (.code .ok)
        (.opened (v.compacted now mem))
  | compactIo {v : View} (hfit : ¬ Fits hdrSize (v.compactRecords now)) :
      Step now (.opened v) .compact (.code .errIo) (.opened v)

/-- What a crash inside a call at the time `now` may leave. -/
inductive Phase.Crash (now : UInt64) : Phase → Call → Phase → Prop
  | same {ph : Phase} {call : Call} (hph : ∀ v, ph ≠ .opened v) :
      Crash now ph call ph
  | createBroken (t : UInt32) : Crash now .absent (.openDb t) .broken
  | create (t : UInt32) : Crash now .absent (.openDb t) (.closed (newFile now))
  | openDb (t : UInt32) {d : DbFile} {mem : Mem} (h : d.replay = some mem) :
      Crash now (.closed d) (.openDb t)
        (.closed (d.opened mem (leaseTimeoutOf t)).file)
  | before {v : View} {call : Call} :
      Crash now (.opened v) call (.closed v.file)
  | close {v : View} : Crash now (.opened v) .close (.closed v.closed)
  | move {v : View} {call : Call} {mv : Move}
      (hmv : v.move now call = some mv)
      (hfit : (v.after mv).Fits) :
      Crash now (.opened v) call (.closed (v.after mv).file)
  | expire {v : View} {ls ls' : List Lease}
      (hls : v.mem.st.leases = ls ++ ls')
      (hfit : (v.expireAll now ls).Fits) :
      Crash now (.opened v) .processExpired (.closed (v.expireAll now ls).file)
  | compactStaged {v : View} {mem : Mem} (hmem : v.compactReplay now = some mem)
      (hfit : Fits hdrSize (v.compactRecords now)) :
      Crash now (.opened v) .compact
        (.closed (v.staging (v.compactRecords now)))
  | compact {v : View} {mem : Mem} (hmem : v.compactReplay now = some mem)
      (hfit : Fits hdrSize (v.compactRecords now)) :
      Crash now (.opened v) .compact (.closed (v.compacted now mem).file)

theorem Phase.Step.ne_absent {now : UInt64} {ph ph' : Phase} {call : Call}
    {res : Result} (h : ph.Step now call res ph') (hph : ph ≠ .absent) :
    ph' ≠ .absent := by
  cases h with
  | null _ _ =>
      exact hph
  | _ =>
      simp

theorem Phase.Crash.ne_absent {now : UInt64} {ph ph' : Phase} {call : Call}
    (h : ph.Crash now call ph') (hph : ph ≠ .absent) : ph' ≠ .absent := by
  cases h with
  | same _ =>
      exact hph
  | _ =>
      simp

/-- The machine and the handle of the application are in the phase. -/
def Sys.Is (s : Sys) : Phase → Prop
  | .absent => s.db = none ∧ s.world.dir .main = none ∧
      s.world.dir .wal = none ∧ s.world.lockOwner = none
  | .broken => s.db = none ∧ s.world.dir .wal = none ∧
      s.world.lockOwner = none ∧
      ∃ i f, s.world.dir .main = some i ∧ i < s.world.nextIno ∧
        s.world.files i = ⟨f, []⟩ ∧ f.length < 4096
  | .closed d => s.db = none ∧ ∃ i, Rest s.world d i
  | .opened v => ∃ db i, s.db = some db ∧ Live False s.world db v i

/-- The view of an open phase is well formed. -/
def Phase.WellFormed (ph : Phase) : Prop :=
  ∀ v, ph = .opened v → ∃ c, v.Wf c

section Crash

variable {w w' : World} {i : Nat} {d : DbFile} {Bs : Bytes → Prop}

/-- What a crash leaves of a database file. -/
theorem OnDisk.crash (h : OnDisk i (d.Kept Bs) w) (hc : w.Crash w') :
    ∃ B, Bs B ∧ ∀ d' : DbFile, d'.patch = B →
      d'.createTimeUs = d.createTimeUs → d'.start = d.start →
      d'.rs <+: d.rs → Rest w' d' i := by
  obtain ⟨f, himg, hfile⟩ := hc.files i
  have hb := FileState.Keeps.crash h.file himg
  refine ⟨_, hb.patch, ?_⟩
  rintro d' hB hct hs ⟨rest, hrs⟩
  have hdisk : OnDisk i d'.Stored w' :=
    { main := by rw [hc.main, h.main]
      wal := by rw [hc.wal, h.wal]
      ino := by rw [hc.nextIno]; exact h.ino
      file := by
        rw [hfile]
        refine ⟨?_, by simp⟩
        rw [hct, hs]
        rw [← hrs, encodeLog_append] at hb
        exact { hb.of_append with patch := hB.symm } }
  exact ⟨hdisk, hc.lockOwner⟩

/-- Nothing but the file counts after a crash. -/
theorem Rest.is (h : Rest w d i) : (⟨w, none⟩ : Sys).Is (.closed d) :=
  ⟨rfl, i, h⟩

theorem OnDisk.crash_stored (h : OnDisk i d.Stored w) (hc : w.Crash w') :
    (⟨w', none⟩ : Sys).Is (.closed d) := by
  obtain ⟨B, rfl, hrest⟩ := h.crash hc
  exact (hrest d rfl rfl rfl (List.prefix_refl _)).is

theorem OnDisk.crash_holds {v : View} (h : OnDisk i (v.Holds False) w)
    (hc : w.Crash w') : (⟨w', none⟩ : Sys).Is (.closed v.file) := by
  obtain ⟨B, hB, hrest⟩ := OnDisk.crash h hc
  rcases hB with hF | rfl
  · exact hF.elim
  · exact (hrest v.file rfl rfl rfl (List.prefix_refl _)).is

/-- A crash between the two headers of a file. -/
theorem OnDisk.crash_recovering {v : View}
    (h : OnDisk i (Recovering False d v) w) (hc : w.Crash w')
    (hct : v.createTimeUs = d.createTimeUs) (hs : v.start = d.start)
    (hrs : v.rs = d.rs) :
    (⟨w', none⟩ : Sys).Is (.closed d) ∨
      (⟨w', none⟩ : Sys).Is (.closed v.file) := by
  obtain ⟨B, hB, hrest⟩ := OnDisk.crash h hc
  rcases hB with hF | rfl | rfl
  · exact hF.elim
  · exact Or.inl (hrest d rfl rfl rfl (List.prefix_refl _)).is
  · refine Or.inr (hrest v.file rfl hct hs ?_).is
    change v.rs <+: d.rs
    rw [hrs]

/-- A crash on the way from one view to the next. -/
theorem OnDisk.crash_during {v v' : View}
    (h : OnDisk i (During False v v') w) (hc : w.Crash w')
    (hct : v'.createTimeUs = v.createTimeUs) (hs : v'.start = v.start)
    (hrs : v.rs <+: v'.rs) :
    ((⟨w', none⟩ : Sys).Is (.closed v.file) ∧ v.Fits) ∨
      ((⟨w', none⟩ : Sys).Is (.closed v'.file) ∧ v'.Fits) := by
  rcases h.file with hf | hf
  · exact Or.inl ⟨OnDisk.crash_holds ⟨h.main, h.wal, h.ino, hf⟩ hc,
      hf.content.fits⟩
  · obtain ⟨B, hB, hrest⟩ :=
      OnDisk.crash (d := v'.file) ⟨h.main, h.wal, h.ino, hf⟩ hc
    rcases hB with hF | rfl | rfl
    · exact hF.elim
    · refine Or.inl ⟨(hrest v.file rfl hct.symm hs.symm hrs).is, ?_⟩
      obtain ⟨rest, hrest'⟩ := hrs
      have hfit : Fits v'.start v'.rs := hf.content.fits
      rw [hs, ← hrest'] at hfit
      exact hfit.of_append
    · exact Or.inr ⟨(hrest v'.file rfl rfl rfl (List.prefix_refl _)).is,
        hf.content.fits⟩

end Crash

theorem View.after_fields (v : View) (mv : Move) :
    (v.after mv).createTimeUs = v.createTimeUs ∧
      (v.after mv).start = v.start ∧ (v.after mv).flags = v.flags ∧
      (v.after mv).leaseTimeoutUs = v.leaseTimeoutUs ∧
      v.rs <+: (v.after mv).rs := by
  cases mv with
  | refuse res =>
      exact ⟨rfl, rfl, rfl, rfl, List.prefix_refl _⟩
  | log r half full res =>
      exact ⟨rfl, rfl, rfl, rfl, List.prefix_append _ _⟩

theorem View.expireStep_fields (v : View) (now : UInt64) (l : Lease) :
    (v.expireStep now l).createTimeUs = v.createTimeUs ∧
      (v.expireStep now l).start = v.start ∧
      (v.expireStep now l).flags = v.flags ∧
      (v.expireStep now l).leaseTimeoutUs = v.leaseTimeoutUs ∧
      v.rs <+: (v.expireStep now l).rs := by
  unfold View.expireStep
  split
  · exact v.after_fields _
  · exact ⟨rfl, rfl, rfl, rfl, List.prefix_refl _⟩

theorem View.expireAll_fields (now : UInt64) (ls : List Lease) (v : View) :
    (v.expireAll now ls).createTimeUs = v.createTimeUs ∧
      (v.expireAll now ls).start = v.start ∧
      (v.expireAll now ls).flags = v.flags ∧
      (v.expireAll now ls).leaseTimeoutUs = v.leaseTimeoutUs ∧
      v.rs <+: (v.expireAll now ls).rs := by
  induction ls generalizing v with
  | nil =>
      exact ⟨rfl, rfl, rfl, rfl, List.prefix_refl _⟩
  | cons l ls ih =>
      obtain ⟨h1, h2, h3, h4, h5⟩ := v.expireStep_fields now l
      obtain ⟨i1, i2, i3, i4, i5⟩ := ih (v.expireStep now l)
      rw [View.expireAll_cons]
      exact ⟨i1.trans h1, i2.trans h2, i3.trans h3, i4.trans h4, h5.trans i5⟩

/-- Every crash now leaves one of the crash outcomes of the call. -/
def Phase.Crashes (ph : Phase) (e : Event) (w : World) : Prop :=
  ∀ w', w.Crash w' →
    ∃ ph', ph.Crash e.now e.call ph' ∧ (⟨w', none⟩ : Sys).Is ph'

/-- The call has made a step. -/
def Phase.Steps (ph : Phase) (e : Event) (x : Result × Option Db)
    (w : World) : Prop :=
  ∃ ph', ph.Step e.now e.call x.1 ph' ∧ (⟨w, x.2⟩ : Sys).Is ph'

section Calls

variable {w : World} {e : Event}

/-- The clock does not matter. -/
theorem Sys.Is.atTime {db : Option Db} {ph : Phase}
    (h : (⟨w, db⟩ : Sys).Is ph) (now : UInt64) :
    (⟨{ w with now := now }, db⟩ : Sys).Is ph := by
  cases ph with
  | absent =>
      exact h
  | broken =>
      exact h
  | closed d =>
      obtain ⟨h1, i, hd, hlock⟩ := h
      exact ⟨h1, i, ⟨hd.main, hd.wal, hd.ino, hd.file⟩, hlock⟩
  | opened v =>
      obtain ⟨db', i, h1, h2⟩ := h
      exact ⟨db', i, h1, h2.transport rfl rfl rfl (Nat.le_refl _) rfl rfl⟩

/-- A crash of a machine nobody holds a handle on changes nothing. -/
theorem Sys.Is.crash_same {ph : Phase} (h : (⟨w, none⟩ : Sys).Is ph)
    {w' : World} (hc : w.Crash w') : (⟨w', none⟩ : Sys).Is ph := by
  cases ph with
  | absent =>
      obtain ⟨-, h2, h3, -⟩ := h
      exact ⟨rfl, hc.main.trans h2, hc.wal.trans h3, hc.lockOwner⟩
  | broken =>
      obtain ⟨-, h2, -, i, f, h4, h5, h6, h7⟩ := h
      obtain ⟨f', ⟨qs, hqs, hf'⟩, hfile⟩ := hc.files i
      rw [h6] at hqs hf'
      cases hqs
      refine ⟨rfl, hc.wal.trans h2, hc.lockOwner, i, f', hc.main.trans h4, ?_,
        hfile, ?_⟩
      · rw [hc.nextIno]
        exact h5
      · rw [hf']
        exact h7
  | closed d =>
      obtain ⟨-, i, h2⟩ := h
      exact h2.disk.crash_stored hc
  | opened v =>
      obtain ⟨db', i, h1, -⟩ := h
      cases h1

theorem Sys.Is.db_none {db : Option Db} {ph : Phase}
    (h : (⟨w, db⟩ : Sys).Is ph) (hph : ∀ v, ph ≠ .opened v) : db = none := by
  cases ph with
  | absent =>
      exact h.1
  | broken =>
      exact h.1
  | closed d =>
      exact h.1
  | opened v =>
      exact absurd rfl (hph v)

/-- A call on the NULL handle that does not open. -/
theorem wp_nullCall {ph : Phase} (h : (⟨w, none⟩ : Sys).Is ph)
    (hph : ∀ v, ph ≠ .opened v) (hcall : ¬ e.call.Opens) :
    Prog.Wp (Faulty False) (ph.Crashes e) (callCmd none e.call) w
      (ph.Steps e) := by
  have hcr : ph.Crashes e w :=
    fun w' hc => ⟨ph, .same hph, h.crash_same hc⟩
  have hst : ph.Steps e (nullResult e.call, none) w :=
    ⟨ph, .null hph hcall, h⟩
  obtain ⟨now, call⟩ := e
  cases call with
  | openDb t =>
      exact absurd trivial hcall
  | _ =>
      exact Prog.wp_pure hcr hst

/-- Creating the database. -/
theorem wp_create (h : (⟨w, none⟩ : Sys).Is .absent) {t : UInt32}
    (he : e = ⟨w.now, .openDb t⟩) :
    Prog.Wp (Faulty False) (Phase.absent.Crashes e) (callCmd none e.call) w
      (Phase.absent.Steps e) := by
  subst he
  obtain ⟨-, hmain, hwal, hlock⟩ := h
  refine (wp_openDb_new hmain hwal hlock).mono ?_ ?_
  · rintro w1 ⟨hwal1, hmain1⟩ w2 hc
    rcases hmain1 with hmain1 | ⟨i, hmain1, hi, hf⟩
    · exact ⟨.absent, .same (by simp), rfl, hc.main.trans hmain1,
        hc.wal.trans hwal1, hc.lockOwner⟩
    · obtain ⟨f, himg, hfile⟩ := hc.files i
      have hi2 : i < w2.nextIno := by
        rw [hc.nextIno]
        exact hi
      rcases hf.crash rfl rfl himg with hshort | hstored
      · exact ⟨.broken, .createBroken t, rfl, hc.wal.trans hwal1,
          hc.lockOwner, i, f, hc.main.trans hmain1, hi2, hfile, hshort⟩
      · refine ⟨.closed _, .create t, rfl, i, ⟨hc.main.trans hmain1,
          hc.wal.trans hwal1, hi2, ?_⟩, hc.lockOwner⟩
        rw [hfile]
        exact hstored
  · rintro x w1 ⟨db, i, rfl, hlive⟩
    exact ⟨_, .create t, db, i, rfl, hlive⟩

/-- Opening what an interrupted creation has left. -/
theorem wp_openBroken (h : (⟨w, none⟩ : Sys).Is .broken) {t : UInt32}
    (he : e = ⟨w.now, .openDb t⟩) :
    Prog.Wp (Faulty False) (Phase.broken.Crashes e) (callCmd none e.call) w
      (Phase.broken.Steps e) := by
  subst he
  obtain ⟨-, hwal, hlock, i, f, hmain, hi, hf, hlen⟩ := h
  have hshort : (w.content i).length < 4096 := by
    rw [World.content, hf]
    exact hlen
  have hkeep := (wp_openDb_short (t := t) hmain hlock hshort).keep
  refine hkeep.mono ?_ ?_
  · rintro w1 ⟨hm, hw, hfs, hn⟩ w2 hc
    obtain ⟨f', ⟨qs, hqs, hf'⟩, hfile⟩ := hc.files i
    rw [hfs, hf] at hqs hf'
    cases hqs
    refine ⟨.broken, .same (by simp), rfl, ?_, hc.lockOwner, i, f', ?_, ?_,
      hfile, ?_⟩
    · rw [hc.wal, hw, hwal]
    · rw [hc.main, hm]
    · rw [hc.nextIno, hn]
      exact hi
    · rw [hf']
      exact hlen
  · rintro x w1 ⟨⟨hm, hw, hfs, hn⟩, rfl, hl⟩
    refine ⟨.broken, .openBroken t, rfl, ?_, hl, i, f, hm, ?_, ?_, hlen⟩
    · rw [hw, hwal]
    · rw [hn]
      exact hi
    · rw [hfs, hf]

/-- Opening a database at rest. -/
theorem wp_openClosed {d : DbFile} (h : (⟨w, none⟩ : Sys).Is (.closed d))
    {t : UInt32} (he : e = ⟨w.now, .openDb t⟩) :
    Prog.Wp (Faulty False) ((Phase.closed d).Crashes e)
      (callCmd none e.call) w ((Phase.closed d).Steps e) := by
  subst he
  obtain ⟨-, i, hrest⟩ := h
  cases hrep : d.replay with
  | none =>
      refine (wp_openDb_corrupt hrest hrep).mono ?_ ?_
      · intro w1 hd w2 hc
        exact ⟨_, .same (by simp), hd.crash_stored hc⟩
      · rintro x w1 ⟨rfl, hrest1⟩
        exact ⟨_, .openCorrupt t hrep, rfl, i, hrest1⟩
  | some mem =>
      refine (wp_openDb hrest hrep).mono ?_ ?_
      · intro w1 hd w2 hc
        rcases hd.crash_recovering hc rfl rfl rfl with h1 | h1
        · exact ⟨_, .same (by simp), h1⟩
        · exact ⟨_, .openDb t hrep, h1⟩
      · rintro x w1 ⟨db, rfl, hlive⟩
        exact ⟨_, .openDb t hrep, db, i, rfl, hlive⟩

section Open

variable {db : Db} {v : View} {i : Nat}

/-- Opening a database that is open. -/
theorem wp_openLocked (h : Live False w db v i) {t : UInt32}
    (he : e = ⟨w.now, .openDb t⟩) :
    Prog.Wp (Faulty False) ((Phase.opened v).Crashes e)
      (callCmd (some db) e.call) w ((Phase.opened v).Steps e) := by
  subst he
  refine (wp_openDb_locked h).mono ?_ ?_
  · intro w1 hd w2 hc
    exact ⟨_, .before, hd.crash_holds hc⟩
  · rintro x w1 ⟨rfl, hlive⟩
    exact ⟨_, .openLocked t, db, i, rfl, hlive⟩

/-- Closing the database. -/
theorem wp_closeCall (h : Live False w db v i)
    (he : e = ⟨w.now, .close⟩) :
    Prog.Wp (Faulty False) ((Phase.opened v).Crashes e)
      (callCmd (some db) e.call) w ((Phase.opened v).Steps e) := by
  subst he
  have hclose : Prog.Wp (Faulty False) ((Phase.opened v).Crashes ⟨w.now, .close⟩)
      (qdbClose db) w (fun _ w' => Rest w' v.closed i) :=
    (wp_qdbClose h).mono
    (by
      intro w1 hd w2 hc
      obtain ⟨B, hB, hrest⟩ := hd.crash hc
      rcases hB with (hF | rfl) | rfl
      · exact hF.elim
      · exact ⟨_, .before,
          (hrest v.file rfl rfl rfl (List.prefix_refl _)).is⟩
      · exact ⟨_, .close,
          (hrest v.closed rfl rfl rfl (List.prefix_refl _)).is⟩)
    (fun _ _ hrest => hrest)
  refine Prog.wp_seq hclose ?_
  intro u w1 hI hrest
  exact Prog.wp_pure hI ⟨_, .close, rfl, i, hrest⟩

/-- A call that logs at most one record. -/
theorem wp_moveCall (h : Live False w db v i) {c : Content} (hwf : v.Wf c)
    {mv : Move} (he : e.now = w.now) (hmv : v.move w.now e.call = some mv) :
    Prog.Wp (Faulty False) ((Phase.opened v).Crashes e)
      (callCmd (some db) e.call) w ((Phase.opened v).Steps e) := by
  refine (wp_move h hwf.located_msg hmv).mono ?_ ?_
  · rintro w1 hin w2 hc
    obtain ⟨hct, hs, -, -, hrs⟩ := v.after_fields mv
    rcases (h.onDisk.inFile hin).crash_during hc hct hs hrs with h1 | h1
    · exact ⟨_, .before, h1.1⟩
    · exact ⟨_, .move (he ▸ hmv) h1.2, h1.1⟩
  · rintro x w1 ⟨db', hx, -, ⟨v', ho, hlive⟩, -⟩
    refine ⟨_, .move (he ▸ hmv) ho, db', i, hx, hlive⟩

/-- Expiry. -/
theorem wp_expireCall (h : Live False w db v i) {c : Content} (hwf : v.Wf c)
    (he : e = ⟨w.now, .processExpired⟩) :
    Prog.Wp (Faulty False) ((Phase.opened v).Crashes e)
      (callCmd (some db) e.call) w ((Phase.opened v).Steps e) := by
  subst he
  refine (wp_processExpired h hwf.shows.rep.placed.leases).mono ?_ ?_
  · intro w1 hin w2 hc
    obtain ⟨ls, hls⟩ : ∃ ls, ls = v.mem.st.leases := ⟨_, rfl⟩
    rw [← hls] at hin
    have hd := h.onDisk.inFile hin
    rcases hd.file with ⟨ls1, ls2, hsplit, hf⟩ | ⟨ls1, l, ls2, hsplit, hf⟩
    · refine ⟨_, .expire (hls ▸ hsplit) ?_,
        OnDisk.crash_holds ⟨hd.main, hd.wal, hd.ino, hf⟩ hc⟩
      exact hf.content.fits
    · have hd' : OnDisk i (During False (v.expireAll w.now ls1)
          (v.expireAll w.now (ls1 ++ [l]))) w1 :=
        ⟨hd.main, hd.wal, hd.ino, hf⟩
      have hfields := (v.expireAll w.now ls1).expireAll_fields w.now [l]
      rw [← View.expireAll_append] at hfields
      obtain ⟨hct, hs, -, -, hrs⟩ := hfields
      rcases hd'.crash_during hc hct hs hrs with h1 | h1
      · exact ⟨_, .expire (hls ▸ hsplit) h1.2, h1.1⟩
      · refine ⟨_, @Phase.Crash.expire _ _ (ls1 ++ [l]) ls2 ?_ h1.2, h1.1⟩
        rw [← hls, hsplit, List.append_assoc, List.singleton_append]
  · rintro x w1 ⟨-, rc, v', db', hx1, hx2, hend, hlive⟩
    refine ⟨.opened v', ?_, db', i, hx2, hlive⟩
    rw [hx1]
    exact .expire hend hlive.fits

/-- Compaction. -/
theorem wp_compactCall (h : Live False w db v i) {c : Content} (hwf : v.Wf c)
    (he : e = ⟨w.now, .compact⟩) :
    Prog.Wp (Faulty False) ((Phase.opened v).Crashes e)
      (callCmd (some db) e.call) w ((Phase.opened v).Steps e) := by
  subst he
  obtain ⟨mem, d, hmem, hshows, hcomp, -, -⟩ := hwf.compact w.now
  refine (wp_qdbCompact h hwf.shows.rep.walkable hwf.located_msg hmem).mono ?_ ?_
  · intro w1 hd w2 hc
    rcases hd with hd | hd
    · exact ⟨_, .before, hd.crash_holds hc⟩
    · have hfit : Fits hdrSize (v.compactRecords w.now) :=
        (DbFile.Kept.content hd.file).fits
      rcases hd.crash_recovering hc rfl rfl rfl with h1 | h1
      · exact ⟨_, .compactStaged hmem hfit, h1⟩
      · exact ⟨_, .compact hmem hfit, h1⟩
  · rintro x w1 (⟨rfl, hio, hlive⟩ | ⟨db', rfl, hlive⟩ | ⟨hF, -⟩)
    · rcases hio with hF | hfit
      · exact hF.elim
      · exact ⟨_, .compactIo hfit, db, i, rfl, hlive⟩
    · exact ⟨_, .compact hmem hlive.fits, db', w.nextIno, rfl, hlive⟩
    · exact hF.elim

/-- Any call on an open handle. -/
theorem wp_openCall (h : Live False w db v i) {c : Content} (hwf : v.Wf c)
    (he : e.now = w.now) :
    Prog.Wp (Faulty False) ((Phase.opened v).Crashes e)
      (callCmd (some db) e.call) w ((Phase.opened v).Steps e) := by
  obtain ⟨now, call⟩ := e
  change now = w.now at he
  subst he
  cases call with
  | openDb t =>
      exact wp_openLocked h rfl
  | close =>
      exact wp_closeCall h rfl
  | processExpired =>
      exact wp_expireCall h hwf rfl
  | compact =>
      exact wp_compactCall h hwf rfl
  | _ =>
      exact wp_moveCall h hwf rfl rfl

end Open

/-- Every call makes a step, and every crash point inside it is one of the
crash outcomes. -/
theorem Sys.Is.wp {s : Sys} {ph : Phase} (h : s.Is ph) (hwf : ph.WellFormed)
    (e : Event) :
    Prog.Wp (Faulty False) (ph.Crashes e) (callCmd s.db e.call)
      { s.world with now := e.now } (ph.Steps e) := by
  obtain ⟨w, db?⟩ := s
  replace h := h.atTime e.now
  by_cases hopen : ∃ v, ph = .opened v
  · obtain ⟨v, rfl⟩ := hopen
    obtain ⟨db, i, rfl, hlive⟩ := h
    obtain ⟨c, hc⟩ := hwf v rfl
    exact wp_openCall hlive hc rfl
  · have hph : ∀ v, ph ≠ .opened v := fun v hv => hopen ⟨v, hv⟩
    obtain rfl := h.db_none hph
    by_cases hcall : e.call.Opens
    · obtain ⟨t, ht⟩ : ∃ t, e.call = .openDb t := by
        revert hcall
        cases e.call <;> simp [Call.Opens]
      have he : e = ⟨e.now, .openDb t⟩ := by
        rw [← ht]
      cases ph with
      | absent =>
          exact wp_create h he
      | broken =>
          exact wp_openBroken h he
      | closed d =>
          exact wp_openClosed h he
      | opened v =>
          exact absurd rfl (hph v)
    · exact wp_nullCall h hph hcall

/-- One call on the ideal machine. -/
theorem Sys.Is.step {s : Sys} {ph : Phase} (h : s.Is ph)
    (hwf : ph.WellFormed) (e : Event) :
    ∃ res s' ph', s.step e = some (res, s') ∧
      ph.Step e.now e.call res ph' ∧ s'.Is ph' := by
  obtain ⟨x, w', hrun, ph', hstep, his⟩ :=
    (h.wp hwf e).run (faulty_posix False)
  refine ⟨x.1, ⟨w', x.2⟩, ph', ?_, hstep, his⟩
  rw [Sys.step, hrun]
  rfl

/-- A call that the machine does not refuse. -/
theorem Sys.Is.move {s : Sys} {v : View} (h : s.Is (.opened v))
    (hloc : ∀ id m, v.mem.st.msgGet id = some m → Located v.start v.rs m)
    {now : UInt64} {call : Call} {mv : Move} (hmv : v.move now call = some mv)
    (hfit : ∀ r, Fits v.start (v.rs ++ [r])) :
    ∃ s', s.step ⟨now, call⟩ = some (mv.result, s') ∧
      s'.Is (.opened (v.after mv)) := by
  obtain ⟨db, i, hdb, hlive⟩ := h.atTime now
  obtain ⟨x, w', hrun, db', hx, -, ⟨v', ho, hlive'⟩, -⟩ :=
    (wp_move hlive hloc hmv).run (faulty_posix False)
  have hend : x.1 = mv.result ∧ v' = v.after mv := by
    generalize x.1 = res at ho
    cases ho with
    | refuse =>
        exact ⟨rfl, rfl⟩
    | io hio =>
        rcases hio with hF | hio
        · exact hF.elim
        · exact absurd (hfit _) hio
    | half hF =>
        exact hF.elim
    | full _ =>
        exact ⟨rfl, rfl⟩
  obtain ⟨hres, rfl⟩ := hend
  refine ⟨⟨w', x.2⟩, ?_, db', i, hx, hlive'⟩
  have hdb : s.db = some db := hdb
  rw [Sys.step, hdb, hrun, ← hres]
  rfl

/-- A crash inside a call, once `n` operations have been issued. -/
theorem Sys.Is.crash {s : Sys} {ph : Phase} (h : s.Is ph)
    (hwf : ph.WellFormed) (e : Event) (n : Nat) {w' : World}
    (hc : (Prog.after posix n (callCmd s.db e.call)
      { s.world with now := e.now }).Crash w') :
    ∃ ph', ph.Crash e.now e.call ph' ∧ (⟨w', none⟩ : Sys).Is ph' :=
  (h.wp hwf e).always (faulty_posix False) n w' hc

end Calls

end Qdb
