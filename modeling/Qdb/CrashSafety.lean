import Qdb.Rebuild

/-!
# Crashes

After every crash the next open finds the state that the abstract machine
reaches with the same calls: a call that returned has taken effect, and the one
in progress has done so entirely or not at all, or for some of the leases it
expires.  Ids are not reused over crashes, compactions and sessions.
-/

namespace Qdb

open Lib

section Recovery

variable {s : Sys} {b : Broker}

/-- The abstract machine opens when no session is open. -/
theorem Broker.Ends.open_inv {b b' : Broker} {now : UInt64} {t : UInt32}
    {res : Result} (h : b.Ends now (.openDb t) res b')
    (hs : b.session = none) :
    res = .code .ok ∧ b' = { b with session := some (leaseTimeoutOf t) } := by
  rcases h with ⟨-, h⟩ | ⟨-, h⟩
  · cases h with
    | null _ hc =>
        exact absurd trivial hc
    | openDb _ _ =>
        exact ⟨rfl, rfl⟩
    | openLocked _ hsome =>
        rw [hs] at hsome
        cases hsome
    | noent _ hcall _ =>
        rcases hcall with hc | hc <;> cases hc
    | inval _ hcall _ _ _ =>
        rcases hcall with hc | hc <;> cases hc
  · cases h with
    | same hsome _ =>
        rw [hs] at hsome
        cases hsome

theorem Sys.Shows.session_none (h : s.Shows b) (hdb : s.db = none) :
    b.session = none := by
  have hsome := h.session_isSome
  rw [hdb] at hsome
  simpa using hsome

/-- The next open of a database at rest succeeds. -/
theorem Sys.Shows.reopens (h : s.Shows b) (hdb : s.db = none) (now : UInt64)
    (t : UInt32) :
    ∃ s', s.step ⟨now, .openDb t⟩ = some (.code .ok, s') ∧
      s'.broker = some { b with session := some (leaseTimeoutOf t) } := by
  obtain ⟨res, s', hs⟩ := h.progress ⟨now, .openDb t⟩
  have hn : s.Counting := by
    intro db hsome
    rw [hdb] at hsome
    cases hsome
  obtain ⟨b', hends, hb'⟩ := h.step hn hs
  obtain ⟨rfl, rfl⟩ := hends.open_inv (h.session_none hdb)
  refine ⟨s', hs, ?_⟩
  have hsome := hb'.session_isSome.mp rfl
  obtain ⟨db, hdb'⟩ := Option.isSome_iff_exists.mp hsome
  exact hb'.broker_eq hdb'

/-- The database after its creation. -/
theorem Sys.Shows.created {now : UInt64} {t : UInt32} {s₀ : Sys}
    (hcreate : Sys.init.step ⟨now, .openDb t⟩ = some (.code .ok, s₀)) :
    s₀.Shows { Broker.new with session := some (leaseTimeoutOf t) } ∧
      s₀.world.dir .main ≠ none := by
  have hn : Sys.init.Counting := by
    intro db hdb
    cases hdb
  obtain ⟨b', hends, hb'⟩ := Sys.Shows.init.step hn hcreate
  obtain ⟨-, rfl⟩ := hends.open_inv rfl
  refine ⟨hb', ?_⟩
  have hsome := hb'.session_isSome.mp rfl
  obtain ⟨ph, his, hph⟩ := hb'
  cases ph with
  | opened v =>
      obtain ⟨db, i, -, hlive⟩ := his
      rw [hlive.main]
      simp
  | broken =>
      exact hph.elim
  | absent =>
      rw [his.1] at hsome
      cases hsome
  | closed d =>
      rw [his.1] at hsome
      cases hsome

end Recovery

/-- What the database shows after a run: the state `b` of the abstract machine,
on the open handle or after the next open. -/
def Sys.Recovers (s : Sys) (b : Broker) : Prop :=
  (s.db.isSome → s.broker = some b) ∧
    (s.db = none → ∀ now t, ∃ s',
      s.step ⟨now, .openDb t⟩ = some (.code .ok, s') ∧
        s'.broker = some { b with session := some (leaseTimeoutOf t) })

theorem Sys.Shows.recovers {s : Sys} {b : Broker} (h : s.Shows b) :
    s.Recovers b := by
  refine ⟨?_, fun hdb => h.reopens hdb⟩
  intro hsome
  obtain ⟨db, hdb⟩ := Option.isSome_iff_exists.mp hsome
  exact h.broker_eq hdb

/-- Some crash is always possible. -/
theorem World.exists_crash (w : World) : ∃ w', w.Crash w' := by
  refine ⟨{ w with
    files := fun j => ⟨(w.files j).durable, []⟩
    lockOwner := none }, rfl, rfl, ?_, rfl, rfl⟩
  intro j
  refine ⟨(w.files j).durable, ?_, rfl⟩
  generalize w.files j = f
  obtain ⟨d, ps⟩ := f
  refine ⟨ps.map fun _ => none, ?_, ?_⟩
  · dsimp only
    induction ps with
    | nil =>
        exact .nil
    | cons p ps ih =>
        refine .cons ?_ ih
        cases p <;> exact Or.inl rfl
  · dsimp only
    induction ps with
    | nil =>
        rfl
    | cons p ps ih =>
        exact ih

/-- Until an id counter wraps, every run of calls and crashes on a database
whose creation had completed is one of the abstract machine, and the database
recovers to its state. -/
theorem crash_recovery {now : UInt64} {t : UInt32} {s₀ s : Sys}
    {as : List Act}
    (hcreate : Sys.init.step ⟨now, .openDb t⟩ = some (.code .ok, s₀))
    (hrun : Run Sys.CountedNext s₀ as s) :
    ∃ b, Run Broker.Next
        { Broker.new with session := some (leaseTimeoutOf t) } as b ∧
      s.Recovers b := by
  obtain ⟨hb, hmain⟩ := Sys.Shows.created hcreate
  obtain ⟨b, hb', hs⟩ := hb.run_crashes hmain hrun
  exact ⟨b, hb', hs.recovers⟩

/-- Inside a pop: the LEASE record has been written up to its marker, and
nothing of it has been synced. -/
def Sys.inPop (s : Sys) : World :=
  Prog.after posix 5 (callCmd s.db (.pop roundQueue true))
    { s.world with now := 0 }

/-- The unsynced writes of that pop behind the first push. -/
def leaseWrites : List Pending :=
  let payload := leasePayload 1 (leaseTimeoutOf 0) 1
  [.write 4116 (recordHeader rtMsgLease payload), .write 4125 payload]

/-- A crash in the append of a pop that follows a push; what it has written
stays behind. -/
theorem crash_recovery_pop :
    ∃ s₀ s₁ b, Sys.init.step ⟨0, .openDb 0⟩ = some (.code .ok, s₀) ∧
      Run Sys.CountedNext s₀
        [.call ⟨0, .push roundQueue (.buf [])⟩ (some 1) (.code .ok)] s₁ ∧
      (s₁.inPop.files 0).pending = leaseWrites ∧
      Run Sys.CountedNext s₀
        [.call ⟨0, .push roundQueue (.buf [])⟩ (some 1) (.code .ok),
          .crash ⟨0, .pop roundQueue true⟩] ⟨s₁.inPop.crashed, none⟩ ∧
      Sys.Recovers ⟨s₁.inPop.crashed, none⟩ b := by
  obtain ⟨s₀, ⟨-, hcreate⟩, hidle⟩ := Idle.create 0 0
  obtain ⟨s₁, ⟨hn, hpush⟩, v, c, hsmall, -, -, hmsg, hlease⟩ :=
    hidle.push (by decide) (by decide)
  have hcount : v.Counting := by
    constructor
    · rw [hmsg]
      decide
    · rw [hlease]
      decide
  have hcrash : s₁.CountedNext (.crash ⟨0, .pop roundQueue true⟩)
      ⟨s₁.inPop.crashed, none⟩ :=
    ⟨hsmall.sys_counting hcount, .crash (n := 5) (World.crash_crashed _)⟩
  have hpushed : Run Sys.CountedNext s₀ _ s₁ :=
    Run.nil.snoc ⟨hn, .returns hpush⟩
  have hrun : Run Sys.CountedNext s₀ _ _ := hpushed.snoc hcrash
  have hwritten : ((Sys.init.step ⟨0, .openDb 0⟩).bind fun x =>
      (x.2.step ⟨0, .push roundQueue (.buf [])⟩).map fun y =>
        (y.2.inPop.files 0).pending) = some leaseWrites := by
    decide +kernel
  obtain ⟨-, hstep⟩ := hcreate.inv
  rw [hstep, Option.bind_some, hpush.inv.2, Option.map_some,
    Option.some.injEq] at hwritten
  obtain ⟨b, -, hb⟩ := crash_recovery hstep hrun
  exact ⟨s₀, s₁, b, hstep, hpushed, hwritten, hrun, hb⟩

/-- A closed file whose log replay rejects does not open. -/
theorem Sys.Is.open_corrupt {s : Sys} {d : DbFile} (h : s.Is (.closed d))
    (hrep : d.replay = none) (now : UInt64) (t : UInt32) :
    ∃ s', s.step ⟨now, .openDb t⟩ = some (.code .errCorrupt, s') := by
  have hwf : (Phase.closed d).WellFormed := by
    intro v hv
    cases hv
  obtain ⟨res, s', ph', hs, hst, -⟩ := h.step hwf ⟨now, .openDb t⟩
  cases hst with
  | null _ hc =>
      exact absurd trivial hc
  | openDb _ hsome =>
      rw [hrep] at hsome
      cases hsome
  | openCorrupt _ _ =>
      exact ⟨s', hs⟩

/-- A crash of an open handle at any time leaves its file. -/
theorem Sys.Is.exists_crash {s : Sys} {v : View} (h : s.Is (.opened v))
    (e : Event) :
    ∃ s', s.Next (.crash e) s' ∧ s'.Is (.closed v.file) := by
  obtain ⟨db, i, hdb, hlive⟩ := h
  obtain ⟨w, hw⟩ := World.exists_crash { s.world with now := e.now }
  refine ⟨⟨w, none⟩, .crash (n := 0) hw, ?_⟩
  have hd : OnDisk i (v.Holds False) { s.world with now := e.now } :=
    ⟨hlive.main, hlive.wal, hlive.ino, hlive.keeps⟩
  exact hd.crash_holds hw

/-- The acts behind the creation of the database. -/
theorem created_inv {now : UInt64} {t : UInt32} {as : List Act} {s : Sys}
    (h : Run Sys.Returns Sys.init
      (.call ⟨now, .openDb t⟩ none (.code .ok) :: as) s) :
    ∃ s₀, Sys.init.step ⟨now, .openDb t⟩ = some (.code .ok, s₀) ∧
      Run Sys.Returns s₀ as s := by
  rw [← List.singleton_append] at h
  obtain ⟨s₀, h1, h2⟩ := Run.append_inv h
  rw [← List.nil_append [_]] at h1
  obtain ⟨s₁, h0, h1⟩ := Run.snoc_inv h1
  cases Run.nil_inv h0
  generalize hact : Act.call ⟨now, .openDb t⟩ none (.code .ok) = a at h1
  cases h1 with
  | call hstep =>
      cases hact
      exact ⟨s₀, hstep, h2⟩

/-- Once the message counter has wrapped, a database may not open again after a
crash. -/
theorem crash_recovery_fails :
    ¬ ∀ now t s₀ as s,
      Sys.init.step ⟨now, .openDb t⟩ = some (.code .ok, s₀) →
      Run Sys.Next s₀ as s → ∃ b, s.Recovers b := by
  intro hall
  obtain ⟨s, v, c, hrun, his, -, -⟩ := exists_zero_push 0 0
  rw [zeroActs, wrapActs, List.cons_append] at hrun
  obtain ⟨s₀, hcreate, hrun⟩ := created_inv hrun
  obtain ⟨s', hcrash, his'⟩ := his.exists_crash ⟨0, .close⟩
  have hrun' := (hrun.mono (fun _ _ _ h => Sys.Next.returns h)).snoc hcrash
  obtain ⟨b, -, hb⟩ := hall 0 0 s₀ _ s' hcreate hrun'
  obtain ⟨s₁, hok, -⟩ := hb his'.1 0 0
  obtain ⟨s₂, hbad⟩ := his'.open_corrupt
    (replayRecords_push_zero v.rs v.start roundBody _) 0 0
  rw [hok] at hbad
  cases hbad

end Qdb
