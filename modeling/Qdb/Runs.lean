import Qdb.Refinement

/-!
# Runs of the database

A run is a sequence of calls that return and of crashes inside calls.
`Db.broker` reads the abstract queue state off a handle and its file, and
`Sys.Shows` relates the machine to an abstract state also when no handle is
open.  As long as the id counters have not wrapped, every run of the database is
a run of the abstract machine (`Sys.Shows.next`).
-/

namespace Qdb

open Lib

/-- What happens in a run: a call returns, or a crash interrupts it.  The `id`
is the one `qdb_push` gives to its message, `next_msg_id` of the handle. -/
inductive Act
  | call (e : Event) (id : Option UInt64) (res : Result)
  | crash (e : Event)

namespace Sys

/-- The id of the next message of the open handle. -/
def nextId (s : Sys) : Option UInt64 :=
  s.db.map Db.nextMsgId

/-- A call returns. -/
inductive Returns (s : Sys) : Act → Sys → Prop
  | call {e : Event} {res : Result} {s' : Sys}
      (h : s.step e = some (res, s')) : Returns s (.call e s.nextId res) s'

theorem Returns.inv {s s' : Sys} {e : Event} {id : Option UInt64}
    {res : Result} (h : s.Returns (.call e id res) s') :
    id = s.nextId ∧ s.step e = some (res, s') := by
  generalize hact : Act.call e id res = a at h
  cases h with
  | call hstep =>
      injection hact with he hid hres
      subst he hres
      exact ⟨hid, hstep⟩

/-- A call returns, or a crash happens once it has issued `n` operations. -/
inductive Next (s : Sys) : Act → Sys → Prop
  | returns {a : Act} {s' : Sys} (h : s.Returns a s') : Next s a s'
  | crash {e : Event} {n : Nat} {w : World}
      (h : (Prog.after posix n (callCmd s.db e.call)
        { s.world with now := e.now }).Crash w) : Next s (.crash e) ⟨w, none⟩

/-- The id counters of the open handle have not wrapped. -/
def Counting (s : Sys) : Prop :=
  ∀ db, s.db = some db → db.nextMsgId ≠ 0 ∧ db.nextLeaseId ≠ 0

end Sys

/-- What the application sees of a message of the handle. -/
def Db.message (db : Db) (w : World) (m : Msg) : Message where
  id := m.id
  queue := m.queueName
  data :=
    match db.fd with
    | none => []
    | some i => slice (w.content i) m.dataFileOffset.toNat m.dataLen.toNat
  retryCount := m.retryCount

/-- The abstract queue state of a handle with the tables `st`. -/
def Db.broker (db : Db) (w : World) (st : State) : Broker where
  session := some db.leaseTimeoutUs
  nextMsgId := db.nextMsgId
  nextLeaseId := db.nextLeaseId
  queue := fun n => (st.pendingIds n).filterMap fun id =>
    (st.msgGet id).map (db.message w)
  lease := fun l => (st.leaseGet l).bind fun x =>
    (st.msgGet x.msgId).map fun m => ⟨db.message w m, x.expiryUs⟩

/-- The abstract queue state of the open handle. -/
def Sys.broker (s : Sys) : Option Broker :=
  s.db.bind fun db => db.state.map (db.broker s.world)

/-- The machine says `b`. -/
def Sys.Shows (s : Sys) (b : Broker) : Prop :=
  ∃ ph, s.Is ph ∧ ph.Shows b

section Reading

variable {w : World} {db : Db} {v : View} {i : Nat} {c : Content}

theorem Live.message {F : Prop} (h : Live F w db v i) {m : Msg}
    (hm : Located v.start v.rs m) : db.message w m = v.message m := by
  have hdata : slice (w.content i) m.dataFileOffset.toNat m.dataLen.toNat =
      dataOf v.start v.rs m := by
    by_cases hpos : m.dataLen > 0
    · exact hm.slice_data h.content hpos
    · rw [dataOf_of_zero _ _ hpos]
      have hz : m.dataLen.toNat = 0 := by
        rw [gt_iff_lt, UInt32.lt_iff_toNat_lt] at hpos
        simpa using hpos
      rw [hz, slice, List.take_zero]
  unfold Db.message View.message
  rw [h.fd]
  dsimp only
  rw [hdata]

/-- What the handle says is what the view says. -/
theorem Live.broker (h : Live False w db v i) (hwf : v.Wf c) :
    db.broker w v.mem.st = v.live c := by
  have hmsg : ∀ id, (v.mem.st.msgGet id).map (db.message w) =
      (c.msg id).map v.message := by
    intro id
    cases hm : v.mem.st.msgGet id with
    | none =>
        rw [hwf.shows.msg_none.mp hm]
        rfl
    | some m =>
        rw [hwf.shows.msgGet hm, Option.map_some, Option.map_some,
          h.message (hwf.located_msg id m hm)]
        rfl
  ext1
  · exact congrArg some h.timeout
  · exact h.nextMsgId
  · exact h.nextLeaseId
  · funext n
    simp only [Db.broker, View.live, View.broker,
      hwf.shows.rep.pendingIds_eq]
    exact List.filterMap_congr (fun id _ => hmsg id)
  · funext l
    simp only [Db.broker, View.live, View.broker, hwf.shows.lease]
    cases c.lease l with
    | none =>
        rfl
    | some e =>
        have he := hmsg e.msgId
        rw [Option.bind_some, Option.bind_some]
        cases hm : v.mem.st.msgGet e.msgId with
        | none =>
            rw [hwf.shows.msg_none.mp hm]
            rfl
        | some m =>
            rw [hm, hwf.shows.msgGet hm] at he
            rw [hwf.shows.msgGet hm]
            exact congrArg
              (fun y => y.map fun z => (⟨z, e.expiryUs⟩ : Held)) he

end Reading

namespace Sys.Shows

variable {s s' : Sys} {b : Broker} {e : Event} {res : Result}

theorem init : Sys.init.Shows Broker.new :=
  ⟨.absent, ⟨rfl, rfl, rfl, rfl⟩, rfl⟩

/-- The abstract state of an open handle is read off the handle. -/
theorem broker_eq (h : s.Shows b) {db : Db} (hdb : s.db = some db) :
    s.broker = some b := by
  obtain ⟨ph, his, hph⟩ := h
  cases ph with
  | absent =>
      rw [his.1] at hdb
      cases hdb
  | broken =>
      exact hph.elim
  | closed d =>
      rw [his.1] at hdb
      cases hdb
  | opened v =>
      obtain ⟨db', i, hdb', hlive⟩ := his
      obtain ⟨c, hinv, rfl⟩ := hph
      unfold Sys.broker
      rw [hdb', Option.bind_some, hlive.state, Option.map_some,
        hlive.broker hinv.wf]

theorem session_isSome (h : s.Shows b) :
    b.session.isSome ↔ s.db.isSome := by
  obtain ⟨ph, his, hph⟩ := h
  cases ph with
  | absent =>
      cases hph
      simp [Broker.new, his.1]
  | broken =>
      exact hph.elim
  | closed d =>
      obtain ⟨mem, c, -, -, rfl⟩ := hph
      simp [View.broker, his.1]
  | opened v =>
      obtain ⟨db', i, hdb', -⟩ := his
      obtain ⟨c, -, rfl⟩ := hph
      simp [View.live, View.broker, hdb']

theorem nextId (h : s.Shows b) :
    s.nextId = b.session.map fun _ => b.nextMsgId := by
  obtain ⟨ph, his, hph⟩ := h
  cases ph with
  | absent =>
      cases hph
      simp [Broker.new, Sys.nextId, his.1]
  | broken =>
      exact hph.elim
  | closed d =>
      obtain ⟨mem, c, -, -, rfl⟩ := hph
      simp [View.broker, Sys.nextId, his.1]
  | opened v =>
      obtain ⟨db', i, hdb', hlive⟩ := his
      obtain ⟨c, -, rfl⟩ := hph
      simp [View.live, View.broker, Sys.nextId, hdb', hlive.nextMsgId]

theorem counting {ph : Phase} (his : s.Is ph) (hn : s.Counting) :
    ph.Counting := by
  rintro v rfl
  obtain ⟨db, i, hdb, hlive⟩ := his
  obtain ⟨h1, h2⟩ := hn db hdb
  rw [hlive.nextMsgId] at h1
  rw [hlive.nextLeaseId] at h2
  exact ⟨h1, h2⟩

/-- No call gets stuck. -/
theorem progress (h : s.Shows b) (e : Event) :
    ∃ res s', s.step e = some (res, s') := by
  obtain ⟨ph, his, hph⟩ := h
  obtain ⟨res, s', -, hstep, -⟩ := his.step hph.wellFormed e
  exact ⟨res, s', hstep⟩

/-- A call that returns. -/
theorem step (h : s.Shows b) (hn : s.Counting)
    (hs : s.step e = some (res, s')) :
    ∃ b', b.Ends e.now e.call res b' ∧ s'.Shows b' := by
  obtain ⟨ph, his, hph⟩ := h
  obtain ⟨res', s'', ph', hs', hstep, his'⟩ := his.step hph.wellFormed e
  rw [hs] at hs'
  cases hs'
  obtain ⟨b', hb', hends⟩ := hph.step (counting his hn) hstep
  exact ⟨b', hends, ph', his', hb'⟩

/-- A crash in a call of a database that exists. -/
theorem crash (h : s.Shows b) (hn : s.Counting)
    (hmain : s.world.dir .main ≠ none) {n : Nat} {w : World}
    (hc : (Prog.after posix n (callCmd s.db e.call)
      { s.world with now := e.now }).Crash w) :
    ∃ b', b.Crash seen32 e.now e.call b' ∧ (⟨w, none⟩ : Sys).Shows b' := by
  obtain ⟨ph, his, hph⟩ := h
  obtain ⟨ph', hcrash, his'⟩ := his.crash hph.wellFormed e n hc
  rcases hph.crash (counting his hn) hcrash with ⟨rfl, -⟩ | ⟨b', hb', hcr⟩
  · exact absurd his.2.1 hmain
  · exact ⟨b', hcr, ph', his', hb'⟩

end Sys.Shows

/-- The counters of an open session have not wrapped. -/
def Broker.Counting (b : Broker) : Prop :=
  b.session.isSome → b.nextMsgId ≠ 0 ∧ b.nextLeaseId ≠ 0

/-- A call returns on the abstract machine. -/
inductive Broker.Returns (b : Broker) : Act → Broker → Prop
  | call {e : Event} {res : Result} {b' : Broker} (hn : b.Counting)
      (h : b.Ends e.now e.call res b') :
      Returns b (.call e (b.session.map fun _ => b.nextMsgId) res) b'

/-- A call returns on the abstract machine, or a crash interrupts it. -/
inductive Broker.Next (b : Broker) : Act → Broker → Prop
  | returns {a : Act} {b' : Broker} (h : b.Returns a b') : Next b a b'
  | crash {e : Event} {b' : Broker} (hn : b.Counting)
      (h : b.Crash seen32 e.now e.call b') : Next b (.crash e) b'

/-- A call returns that was made before the counters wrapped. -/
def Sys.CountedReturns (s : Sys) (a : Act) (s' : Sys) : Prop :=
  s.Counting ∧ s.Returns a s'

/-- The same with crashes. -/
def Sys.CountedNext (s : Sys) (a : Act) (s' : Sys) : Prop :=
  s.Counting ∧ s.Next a s'

namespace Sys.Shows

variable {s s' : Sys} {b : Broker} {as : List Act}

theorem broker_counting (h : s.Shows b) (hn : s.Counting) : b.Counting := by
  obtain ⟨ph, his, hph⟩ := h
  intro hsome
  cases ph with
  | absent =>
      cases hph
      cases hsome
  | broken =>
      exact hph.elim
  | closed d =>
      obtain ⟨mem, c, -, -, rfl⟩ := hph
      cases hsome
  | opened v =>
      obtain ⟨c, -, rfl⟩ := hph
      have hv := counting his hn v rfl
      exact ⟨hv.msg, hv.lease⟩

theorem counting_of (h : s.Shows b) (hn : b.Counting) : s.Counting := by
  intro db hdb
  have hopen := hn (h.session_isSome.mpr (by rw [hdb]; rfl))
  have hb := h.broker_eq hdb
  unfold Sys.broker at hb
  rw [hdb, Option.bind_some] at hb
  obtain ⟨st, -, rfl⟩ := Option.map_eq_some_iff.mp hb
  exact hopen

theorem returns (h : s.Shows b) {a : Act} (hs : s.CountedReturns a s') :
    ∃ b', b.Returns a b' ∧ s'.Shows b' := by
  obtain ⟨hn, ⟨hstep⟩⟩ := hs
  obtain ⟨b', hends, hb'⟩ := h.step hn hstep
  rw [h.nextId]
  exact ⟨b', .call (h.broker_counting hn) hends, hb'⟩

/-- A fault-free run is one of the abstract machine. -/
theorem run (h : s.Shows b) (hrun : Run Sys.CountedReturns s as s') :
    ∃ b', Run Broker.Returns b as b' ∧ s'.Shows b' :=
  hrun.simulate h fun _ _ _ _ ht hs => ht.returns hs

/-- The database file is never removed. -/
theorem main_next (h : s.Shows b) (hmain : s.world.dir .main ≠ none)
    {a : Act} (hs : s.CountedNext a s') : s'.world.dir .main ≠ none := by
  obtain ⟨ph, his, hph⟩ := h
  obtain ⟨hn, hs⟩ := hs
  have hne : ∀ {t : Sys} {ph' : Phase}, t.Is ph' → ph' ≠ .absent →
      t.world.dir .main ≠ none := by
    intro t ph' ht hph'
    cases ph' with
    | absent =>
        exact absurd rfl hph'
    | broken =>
        obtain ⟨-, -, -, i, f, hi, -⟩ := ht
        rw [hi]
        simp
    | closed d =>
        obtain ⟨-, i, hrest⟩ := ht
        rw [hrest.disk.main]
        simp
    | opened v =>
        obtain ⟨db, i, -, hlive⟩ := ht
        rw [hlive.main]
        simp
  have hph0 : ph ≠ .absent := by
    rintro rfl
    exact hmain his.2.1
  cases hs with
  | returns hr =>
      obtain ⟨hstep⟩ := hr
      obtain ⟨res', s'', ph', hs', hst, his'⟩ :=
        his.step hph.wellFormed _
      rw [hstep] at hs'
      cases hs'
      exact hne his' (hst.ne_absent hph0)
  | crash hc =>
      obtain ⟨ph', hcr, his'⟩ := his.crash hph.wellFormed _ _ hc
      exact hne his' (hcr.ne_absent hph0)

theorem next (h : s.Shows b) (hmain : s.world.dir .main ≠ none) {a : Act}
    (hs : s.CountedNext a s') : ∃ b', b.Next a b' ∧ s'.Shows b' := by
  obtain ⟨hn, hs⟩ := hs
  cases hs with
  | returns hr =>
      obtain ⟨b', hr', hb'⟩ := h.returns ⟨hn, hr⟩
      exact ⟨b', .returns hr', hb'⟩
  | crash hc =>
      obtain ⟨b', hcr, hb'⟩ := h.crash hn hmain hc
      exact ⟨b', .crash (h.broker_counting hn) hcr, hb'⟩

/-- So is a run with crashes, once the database has been created. -/
theorem run_crashes (h : s.Shows b) (hmain : s.world.dir .main ≠ none)
    (hrun : Run Sys.CountedNext s as s') :
    ∃ b', Run Broker.Next b as b' ∧ s'.Shows b' := by
  have hsim : ∃ b', Run Broker.Next b as b' ∧ s'.Shows b' ∧
      s'.world.dir .main ≠ none := hrun.simulate
    (R := fun t b => t.Shows b ∧ t.world.dir .main ≠ none) ⟨h, hmain⟩
    (by
      intro t a u b ht hs
      obtain ⟨b', hb', hu⟩ := ht.1.next ht.2 hs
      exact ⟨b', hb', hu, ht.1.main_next ht.2 hs⟩)
  obtain ⟨b', hb', hs', -⟩ := hsim
  exact ⟨b', hb', hs'⟩

end Sys.Shows

end Qdb
