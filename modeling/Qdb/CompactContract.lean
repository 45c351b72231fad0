import Qdb.AlikeRuns
import Qdb.Exhaustion

/-!
# What a failed compaction leaves

A compaction that has not replaced the database file returns an error and leaves
the handle and every file but the staging file alone, so that all later requests
are answered as if it had not been called.  On Windows the descriptor is closed
before the rename and not reopened when the rename fails; the contract holds
there exactly if the rename does not fail (`failed_compact_iff`).
-/

namespace Qdb

open Lib

/-- What the calls of the API do with names. -/
def namedAccess : Access where
  reads := Eq
  writes := Eq
  opens p create := p = .wal → create = false
  deletes _ := True
  renames p q := p = .compact ∧ q = .main
  locks := True

theorem namedAccess_serves : namedAccess.Serves where
  proper :=
    { reads_none := rfl
      writes_none := rfl
      valid := by
        rintro fd _ rfl
        exact Iff.rfl }
  locks := trivial
  deletes _ _ := trivial
  main _ := nofun
  wal := fun _ => rfl

section Named

variable {w : World}

theorem World.empty_named : World.empty.Named where
  below p i h := by
    cases h
  inj p q i h := by
    cases h
  wal := rfl

/-- Such an operation keeps the names apart. -/
theorem World.Named.op (h : w.Named) {o : Op} (ho : o.Alike namedAccess o) :
    (posix o w).2.Named := by
  cases o with
  | fileOpen p create =>
      simp only [posix]
      cases hd : w.dir p with
      | some i =>
          exact h
      | none =>
          dsimp only
          split
          · next hc =>
            refine h.create ?_
            rintro rfl
            rw [ho.1 rfl] at hc
            cases hc
          · exact h
  | fileDelete p =>
      exact h.unbind p
  | fileRename p q =>
      obtain ⟨⟨rfl, rfl⟩, -⟩ := ho
      simp only [posix]
      cases hk : w.dir .compact with
      | none =>
          exact h
      | some k =>
          exact h.rename hk
  | lockfileOpen =>
      exact h.congr rfl rfl
  | lockfileClose fd =>
      refine h.congr ?_ ?_
      · simp only [posix, World.unlock]
        split <;> rfl
      · simp only [posix, World.unlock]
        split <;> rfl
  | fileLock fd =>
      simp only [posix]
      split
      · exact h.congr rfl rfl
      · exact h
  | fileUnlock fd =>
      refine h.congr ?_ ?_
      · simp only [posix, World.unlock]
        split <;> rfl
      · simp only [posix, World.unlock]
        split <;> rfl
  | fileClose fd =>
      exact h
  | fileSync fd =>
      cases fd with
      | none =>
          exact h
      | some i =>
          exact h.congr rfl rfl
  | fileSize fd =>
      cases fd with
      | none =>
          exact h
      | some i =>
          exact h
  | fileTruncate fd n =>
      cases fd with
      | none =>
          exact h
      | some i =>
          simp only [posix]
          split
          · exact h.congr rfl rfl
          · exact h
  | pread fd len off =>
      simp only [posix]
      split
      · exact h
      · cases fd with
        | none =>
            exact h
        | some i =>
            dsimp only
            split <;> exact h
  | pwrite fd bs off =>
      simp only [posix]
      split
      · exact h
      · cases fd with
        | none =>
            exact h
        | some i =>
            dsimp only
            split
            · exact h.congr rfl rfl
            · split
              · exact h.congr rfl rfl
              · exact h
  | timeUs =>
      exact h
  | alloc =>
      exact h

/-- Every request is its own twin. -/
theorem twin_serve_self (target : Target) (db : Option Db) (req : Request) :
    Twin namedAccess (fun _ _ => True) (serve target db req)
      (serve target db req) := by
  have hA := namedAccess_serves
  have hdb : Option.Rel (Db.Alike namedAccess) db db := by
    cases db with
    | none =>
        exact .none
    | some db =>
        exact .some ⟨db.fd, rfl, rfl, rfl⟩
  by_cases hreq : req ≠ .call .compact ∨ db = none
  · exact (twin_serve hA target hdb hreq).mono fun _ _ _ => trivial
  · obtain ⟨hc, hne⟩ := not_or.mp hreq
    cases not_not.mp hc
    obtain ⟨db, rfl⟩ := Option.ne_none_iff_exists'.mp hne
    have htwin : Twin namedAccess (Handled namedAccess)
        (qdbCompactOn target db) (qdbCompactOn target db) :=
      twin_qdbCompactOn hA.proper hA.deletes (hA.main false) hA.wal nofun
        ⟨rfl, rfl⟩ target rfl rfl
    exact Prog.twin_bind htwin fun _ _ _ => Prog.twin_pure trivial

end Named

section Attached

variable {s s' : Sys} {target : Target} {now : UInt64} {req : Request}
variable {a : Answer}

theorem Sys.serve_inv (h : s.serve target now req = some (a, s')) :
    ∃ x w, Prog.run posix (Qdb.serve target s.db req)
      { s.world with now := now } = some (x, w) ∧ a = x.1 ∧
      s' = ⟨w, x.2⟩ := by
  obtain ⟨⟨x, w⟩, hrun, heq⟩ := Option.map_eq_some_iff.mp h
  cases heq
  exact ⟨x, w, hrun, rfl, rfl⟩

/-- No request binds two names to one file. -/
theorem Sys.serve_named (hs : s.world.Named)
    (h : s.serve target now req = some (a, s')) : s'.world.Named := by
  obtain ⟨x, w, hrun, -, rfl⟩ := Sys.serve_inv h
  refine ((twin_serve_self target s.db req).keeps (I := World.Named)
    (R := Failing fun _ => False) ?_ ?_
    (Prog.Exec.of_run (failing_posix _) hrun)).2
  · intro o t r t' ho ht hr
    rcases hr with hr | ⟨hF, -⟩
    · have hname := ht.op ho
      rw [← hr] at hname
      exact ⟨Op.agree_self (fun _ => ⟨rfl, rfl⟩) o r, hname⟩
    · exact hF.elim
  · exact hs.congr rfl rfl

/-- A call of the API as a request. -/
theorem Sys.serve_step (s : Sys) (e : Event) :
    s.serve .posix e.now (.call e.call) =
      (s.step e).map fun x => (.result x.1, x.2) := by
  have hcmd : Qdb.serve .posix s.db (.call e.call) =
      callCmd s.db e.call >>= fun x => pure (.result x.1, x.2) := by
    by_cases hc : e.call ≠ .compact ∨ s.db = none
    · exact serve_call hc
    · obtain ⟨hc, hne⟩ := not_or.mp hc
      obtain ⟨db, hdb⟩ := Option.ne_none_iff_exists'.mp hne
      rw [not_not.mp hc, hdb]
      change _ = (qdbCompactOn .posix db >>= fun x =>
        pure (Result.code x.1, some x.2)) >>= _
      rw [bind_assoc]
      rfl
  unfold Sys.serve Sys.step
  rw [hcmd, Prog.run_bind]
  cases Prog.run posix (callCmd s.db e.call) _ <;> rfl

/-- The handle, if there is one, is on the file that has the name of the
database. -/
def Sys.Attached (s : Sys) : Prop :=
  s.Is .absent ∨ ∃ i, s.world.Twins (pairOf i i) False s.world ∧
    ∀ db, s.db = some db → pairOf i i db.fd db.fd

/-- A machine is its own twin. -/
theorem World.Named.twins {w : World} (h : w.Named) {i : Nat}
    (hi : w.dir .main = some i) : w.Twins (pairOf i i) False w where
  main := ⟨i, i, hi, hi, Or.inr ⟨rfl, rfl⟩⟩
  wal := ⟨h.wal, h.wal⟩
  compact := False.elim
  content := by
    rintro a b (⟨ha, -⟩ | ⟨ha, hb⟩)
    · cases ha
    · cases ha
      cases hb
      rfl
  below := by
    rintro a b (⟨ha, -⟩ | ⟨ha, hb⟩)
    · cases ha
    · cases ha
      cases hb
      exact ⟨h.below _ _ hi, h.below _ _ hi⟩
  lockOwner := rfl
  nextLockFd := rfl
  now := rfl

theorem Sys.Is.attached {v : View} (h : s.Is (.opened v))
    (hn : s.world.Named) : s.Attached := by
  obtain ⟨db, i, hdb, hlive⟩ := h
  refine Or.inr ⟨i, hn.twins hlive.main, ?_⟩
  intro db' hdb'
  rw [hdb] at hdb'
  cases hdb'
  exact Or.inr ⟨hlive.fd, hlive.fd⟩

theorem World.Twins.main_eq {i j : Nat} {c : Prop} {w w' : World}
    (h : w.Twins (pairOf i j) c w') : w.dir .main = some i := by
  obtain ⟨a, b, ha, -, hab⟩ := h.main
  rcases hab with ⟨h1, -⟩ | ⟨h1, -⟩
  · cases h1
  · rw [ha, h1]

theorem pairOf_of_alike {i : Nat} {db : Db}
    (h : db.Alike (handleAccess (pairOf i i) False) db) :
    pairOf i i db.fd db.fd := by
  obtain ⟨fd, hdb, hr, -⟩ := h
  have hfd : db.fd = fd := congrArg Db.fd hdb
  rw [hfd] at hr ⊢
  exact hr

/-- The reopen ends on the file that has the name of the database. -/
theorem run_reopen_attached {w w' : World} {i : Nat} {db : Db} {x : Rc × Db}
    (hn : w.Named) (hi : w.dir .main = some i)
    (h : Prog.run posix (reopenAfterCompact db) w = some (x, w')) :
    w'.dir .main = some i ∧ pairOf i i x.2.fd x.2.fd := by
  have hA := (matching_pairOf i i).serves False
  have hmain : Prog.run posix (reopenMain { db with fd := none }) w =
      some (x, w') := by
    rw [reopenAfterCompact_eq] at h
    split at h
    · exact h
    · exact h
  have htwin : Twin (handleAccess (pairOf i i) False)
      (Handled (handleAccess (pairOf i i) False))
      (reopenMain { db with fd := none }) (reopenMain { db with fd := none }) :=
    twin_reopenMain hA.proper (hA.main false) hA.wal (hA.deletes .wal nofun)
      rfl
  have hrun := (hn.twins hi).run (matching_pairOf i i) htwin
  rw [hmain] at hrun
  cases hrun with
  | some hx =>
      obtain ⟨⟨-, hdb⟩, hw⟩ := hx
      exact ⟨hw.main_eq, pairOf_of_alike hdb⟩

/-- A compaction that is not interrupted. -/
theorem run_compact_attached {w w' : World} {i : Nat} {db : Db} {x : Rc × Db}
    (hn : w.Named) (hi : w.dir .main = some i) (hdb : pairOf i i db.fd db.fd)
    (h : Prog.run posix (qdbCompact db) w = some (x, w')) :
    ∃ j, w'.dir .main = some j ∧ pairOf j j x.2.fd x.2.fd := by
  have hexec : Prog.Exec (Failing fun _ => False) (qdbCompactOn .posix db)
      w x w' := Prog.Exec.of_run (failing_posix _) h
  rcases exec_qdbCompactOn hn hexec with
    ⟨k, -, hstaged, -, hx⟩ | ⟨k, w1, -, hk, hn1, hre⟩
  · rcases hx with hx | ⟨hF, -⟩
    · refine ⟨i, ?_, ?_⟩
      · rw [hstaged.dir .main nofun]
        exact hi
      · rw [hx]
        exact hdb
    · exact hF.elim
  · exact ⟨k, run_reopen_attached hn1 hk (Prog.Exec.run (fun _ _ _ _ hr =>
      hr.resolve_right fun hF => hF.1) hre)⟩

theorem Sys.step_serve {e : Event} {res : Result}
    (hs : s.step e = some (res, s')) :
    s.serve .posix e.now (.call e.call) = some (.result res, s') := by
  rw [Sys.serve_step, hs]
  rfl

/-- A call keeps the handle on the database file. -/
theorem Sys.Attached.step (h : s.Attached) (hn : s.world.Named) {e : Event}
    {res : Result} (hs : s.step e = some (res, s')) : s'.Attached := by
  have hserve := Sys.step_serve hs
  have hn' := Sys.serve_named hn hserve
  rcases h with h | ⟨i, hw, hdb⟩
  · have hwf : Phase.absent.WellFormed := by
      intro v hv
      cases hv
    obtain ⟨res', t, ph', hs', hst, his⟩ := h.step hwf e
    rw [hs] at hs'
    obtain ⟨rfl, rfl⟩ := Prod.mk.inj (Option.some.inj hs')
    obtain ⟨now, call⟩ := e
    cases hst with
    | null _ _ =>
        exact Or.inl his
    | create _ =>
        exact his.attached hn'
  · have hi := hw.main_eq
    obtain ⟨x, w, hrun, -, rfl⟩ := Sys.serve_inv hserve
    by_cases hreq : Request.call e.call ≠ .call .compact ∨ s.db = none
    · have hdb' : Option.Rel (Db.Alike (handleAccess (pairOf i i) False))
          s.db s.db := by
        cases hsdb : s.db with
        | none =>
            exact .none
        | some db =>
            exact .some ⟨db.fd, rfl, hdb db hsdb, hdb db hsdb⟩
      have hrel := (hw.atTime e.now).run (matching_pairOf i i)
        (twin_serve ((matching_pairOf i i).serves False) .posix hdb' hreq)
      rw [hrun] at hrel
      cases hrel with
      | some hx =>
          obtain ⟨⟨-, hx⟩, hw'⟩ := hx
          refine Or.inr ⟨i, hw', ?_⟩
          intro db1 hdb1
          have hdb1 : x.2 = some db1 := hdb1
          rw [hdb1] at hx
          cases hx with
          | some hx =>
              exact pairOf_of_alike hx
    · obtain ⟨hc, hne⟩ := not_or.mp hreq
      obtain ⟨db, hsdb⟩ := Option.ne_none_iff_exists'.mp hne
      rw [not_not.mp hc, hsdb] at hrun
      obtain ⟨⟨y, w1⟩, hcomp, hend⟩ : ∃ z, Prog.run posix (qdbCompact db)
          { s.world with now := e.now } = some z ∧
          x = (.result (.code z.1.1), some z.1.2) ∧ w = z.2 := by
        change Prog.run posix (qdbCompact db >>= fun y =>
          pure (Answer.result (.code y.1), some y.2)) _ = _ at hrun
        rw [Prog.run_bind] at hrun
        obtain ⟨z, hz, hzw⟩ := Option.bind_eq_some_iff.mp hrun
        refine ⟨z, hz, ?_⟩
        cases hzw
        exact ⟨rfl, rfl⟩
      obtain ⟨rfl, rfl⟩ := hend
      have hnow : ({ s.world with now := e.now } : World).Named :=
        hn.congr rfl rfl
      obtain ⟨k, hk, hfd⟩ :=
        run_compact_attached hnow hi (hdb db hsdb) hcomp
      refine Or.inr ⟨k, hn'.twins hk, ?_⟩
      intro db1 hdb1
      rw [← Option.some.inj hdb1]
      exact hfd

/-- Both facts along runs. -/
theorem Sys.attached_run {s₀ : Sys} {as : List Act} (h0 : s₀.Starts)
    (hn : s₀.world.Named) (hrun : Run Sys.Returns s₀ as s) :
    s.world.Named ∧ s.Attached := by
  have hstart : s₀.Attached := by
    cases h0 with
    | new =>
        exact Or.inl ⟨rfl, rfl, rfl, rfl⟩
    | image h hopen =>
        obtain ⟨m, rs, v, mem, db, -, -, -, hdb, hlive⟩ := h.opened hopen
        exact Sys.Is.attached ⟨db, _, hdb, hlive⟩ hn
  refine hrun.invariant (P := fun _ t => t.world.Named ∧ t.Attached)
    ⟨hn, hstart⟩ ?_
  rintro bs t b u - ⟨htn, ht⟩ hs
  obtain ⟨hstep⟩ := hs
  exact ⟨Sys.serve_named htn (Sys.step_serve hstep), ht.step htn hstep⟩

end Attached

/-- What a compaction that has not replaced the database file leaves. -/
structure Untouched (target : Target) (w : World) (db : Db) (x : Rc × Db)
    (w' : World) : Prop where
  rc : x.1 ≠ .ok
  handle : x.2 = db
  /-- The file of the database is the same, with the same bytes. -/
  dir : w'.dir .main = w.dir .main
  files : ∀ i, w.dir .main = some i → w'.files i = w.files i
  /-- All later requests are answered as if it had not been called. -/
  later : ∀ reqs, (Sys.serveAll target reqs ⟨w', some x.2⟩).map Prod.fst =
    (Sys.serveAll target reqs ⟨w, some db⟩).map Prod.fst

section Contract

variable {target : Target} {P : Op → Prop} {w w' : World} {db : Db}
variable {x : Rc × Db}

/-- The staging file aside, the machines look alike. -/
theorem World.Staged.alike {i k : Nat} (hw : w.Named)
    (hi : w.dir .main = some i) (hdb : pairOf i i db.fd db.fd)
    (hk : w.Apart k) (h : w.Staged k w') :
    Sys.Alike ⟨w, some db⟩ ⟨w', some db⟩ := by
  have hik : i ≠ k := fun heq => hk .main nofun (heq ▸ hi)
  have htwins := hw.twins hi
  refine ⟨pairOf i i, matching_pairOf i i, ?_,
    .some ⟨db.fd, rfl, hdb, hdb⟩⟩
  exact
    { main := ⟨i, i, hi, (h.dir .main nofun).trans hi, Or.inr ⟨rfl, rfl⟩⟩
      wal := ⟨hw.wal, (h.dir .wal nofun).trans hw.wal⟩
      compact := False.elim
      content := by
        rintro a b (⟨ha, -⟩ | ⟨ha, hb⟩)
        · cases ha
        · cases ha
          cases hb
          exact congrArg FileState.content (h.files i hik)
      below := by
        intro a b hab
        obtain ⟨ha, hb⟩ := htwins.below a b hab
        exact ⟨ha, Nat.lt_of_lt_of_le hb h.nextIno⟩
      lockOwner := h.lockOwner
      nextLockFd := h.nextLockFd
      now := h.now }

theorem untouched_of_failed {i : Nat} (hw : w.Named)
    (hi : w.dir .main = some i) (hdb : pairOf i i db.fd db.fd)
    (h : Prog.Exec (Failing P) (qdbCompactOn target db) w x w')
    (hkept : w'.dir .main = w.dir .main)
    (hcond : target = .posix ∨ ¬ P (.fileRename .compact .main)) :
    Untouched target w db x w' := by
  obtain ⟨k, hk, hstaged, hrc, hx⟩ := exec_compact_failed hw h hkept
  have hhandle : x.2 = db := by
    rcases hx with hx | ⟨hP, hx⟩
    · exact hx
    · rcases hcond with rfl | hno
      · exact hx
      · exact absurd hP hno
  refine ⟨hrc, hhandle, hkept, ?_, ?_⟩
  · intro j hj
    refine hstaged.files j ?_
    rintro rfl
    exact hk .main nofun hj
  · intro reqs
    rw [hhandle]
    exact (hstaged.alike hw hi hdb hk).serveAll reqs

end Contract

/-- A new database is compacted, and the rename fails. -/
theorem exec_rename_fails {P : Op → Prop} (target : Target)
    (hP : P (.fileRename .compact .main)) : ∃ s db w',
    Sys.init.CountedReturns (.call ⟨0, .openDb 0⟩ none (.code .ok)) s ∧
      s.db = some db ∧ db.fd ≠ none ∧
      Prog.Exec (Failing P) (qdbCompactOn target db)
        { s.world with now := 0 } (.errIo, target.atRename db) w' ∧
      w'.dir .main = s.world.dir .main := by
  obtain ⟨s, hs, v, c, hsmall, hempty, -, -⟩ := Idle.create 0 0
  obtain ⟨db, i, hdb, hlive⟩ := hsmall.is.atTime 0
  have hdb : s.db = some db := hdb
  have hfit : Fits hdrSize (v.compactRecords 0) := by
    rw [hsmall.inv.wf.compactRecords_empty hempty]
    exact fits_checkpoint _ _ _
  obtain ⟨k, w3, hk, hmain, hexec⟩ :=
    exec_to_rename (P := P) target hlive hsmall.inv.wf hfit
  have hfails : Prog.Exec (Failing P)
      (compactSwap target db >>= compactReopen) w3
      (.errIo, target.atRename db) (w3.setDir .compact none) := by
    refine Prog.exec_bind.mpr ⟨.error (.errIo, target.atRename db),
      w3.setDir .compact none, ?_, rfl, rfl⟩
    refine Prog.exec_bind.mpr ⟨.errIo, w3,
      Prog.exec_perform.mpr (Or.inr ⟨hP, rfl, rfl⟩), ?_⟩
    rw [if_pos (by simp)]
    exact Prog.exec_bind.mpr ⟨.ok, _,
      Prog.exec_perform.mpr (failing_posix P _ _), rfl, rfl⟩
  refine ⟨s, db, _, hs, hdb, ?_, hexec _ _ hfails, ?_⟩
  · rw [hlive.fd]
    exact Option.some_ne_none i
  · rw [World.setDir_dir, if_neg nofun]
    exact hmain

/-- On either build target, compactions that fail before the database file is
replaced leave everything as it was exactly if the target is POSIX or a rename
does not fail. -/
theorem failed_compact_iff (target : Target) (P : Op → Prop) :
    (∀ (s₀ s : Sys) (as : List Act) (now : UInt64) (db : Db) (x : Rc × Db)
        (w' : World), s₀.Starts → s₀.world.Named → Run Sys.Returns s₀ as s →
      s.db = some db →
      Prog.Exec (Failing P) (qdbCompactOn target db)
        { s.world with now := now } x w' →
      w'.dir .main = s.world.dir .main →
      Untouched target { s.world with now := now } db x w') ↔
    (target = .posix ∨ ¬ P (.fileRename .compact .main)) := by
  constructor
  · intro hall
    by_contra hno
    obtain ⟨ht, hP⟩ := not_or.mp hno
    have hP := not_not.mp hP
    obtain ⟨s, db, w', hs, hdb, hfd0, hexec, hkept⟩ :=
      exec_rename_fails target hP
    have huntouched := hall Sys.init s _ 0 db _ _ .new
      ⟨nofun, nofun, rfl⟩ (Run.nil.snoc hs.2) hdb hexec hkept
    have hfd := congrArg Db.fd huntouched.handle
    cases target with
    | posix =>
        exact ht rfl
    | win32 =>
        exact hfd0 hfd.symm
  · intro hcond s₀ s as now db x w' h0 hn hrun hdb hexec hkept
    obtain ⟨hnamed, hatt⟩ := Sys.attached_run h0 hn hrun
    rcases hatt with habs | ⟨i, hw, hfd⟩
    · rw [habs.1] at hdb
      cases hdb
    · exact untouched_of_failed (hnamed.congr rfl rfl) hw.main_eq
        (hfd db hdb) hexec hkept hcond

/-- On Windows a failing rename costs the handle its file. -/
theorem failed_compact_win32 : ∃ s db x w',
    Run Sys.Returns Sys.init [.call ⟨0, .openDb 0⟩ none (.code .ok)] s ∧
      s.db = some db ∧
      Prog.Exec (Failing (· = .fileRename .compact .main))
        (qdbCompactOn .win32 db) { s.world with now := 0 } x w' ∧
      w'.dir .main = s.world.dir .main ∧ x.2.fd = none ∧ x.2 ≠ db := by
  obtain ⟨s, db, w', hs, hdb, hfd, hexec, hkept⟩ :=
    exec_rename_fails (P := (· = .fileRename .compact .main)) .win32 rfl
  refine ⟨s, db, _, w', Run.nil.snoc hs.2, hdb, hexec, hkept, rfl, ?_⟩
  intro heq
  exact hfd (congrArg Db.fd heq).symm

end Qdb
