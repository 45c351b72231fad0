import Qdb.CompactBehaviour
import Qdb.Enumeration

/-!
# How long a queue entry lives

A queue that has been listed or pushed to stays in the table of its handle
through every call but `qdb_compact`, which rebuilds the table from the log it
has written: the queue is still there exactly when a message of it was PENDING
or LEASED.  A handle keeps reporting a queue if each of its compactions finds
such a message (`queue_entry_lives`).
-/

namespace Qdb

open Lib

/-- The handle has a queue with this name. -/
def Sys.HasQueue (s : Sys) (n : QueueName) : Prop :=
  ∃ db st, s.db = some db ∧ db.state = some st ∧ (st.queueGet n).isSome

/-- A message of the queue is PENDING or LEASED. -/
def State.HasLive (st : State) (n : QueueName) : Prop :=
  ∃ id m, st.msgGet id = some m ∧ m.queueName = n ∧
    (m.state = .pending ∨ m.state = .leased)

/-- A call on the handle returns; if it is a successful compaction, the queue
with the name `n` has a live message. -/
def Sys.HandleReturns (n : QueueName) (s : Sys) (a : Act) (s' : Sys) : Prop :=
  s.FreshReturns a s' ∧
    ∀ e id res, a = .call e id res →
      e.call ≠ .close ∧ ¬ e.call.Opens ∧
      (e.call = .compact → res = .code .ok →
        ∀ db st, s.db = some db → db.state = some st → st.HasLive n)

/-- `qdb_queue_list` with a large enough array shows the name. -/
def Sys.Lists (s : Sys) (name : CString) (cap : UInt64) (buf : List Bytes) :
    Prop :=
  ∃ db buf' k, s.db = some db ∧
    Prog.run posix (qdbQueueList db (some buf) cap true) s.world =
      some ((.ok, some buf', some k), s.world) ∧
    name ∈ (buf'.take (min cap.toNat k.toNat)).map cString

/-- The array has room for all queues of the handle. -/
def Sys.Room (s : Sys) (cap : UInt64) (buf : List Bytes) : Prop :=
  cap.toNat ≤ buf.length ∧ ∀ db st, s.db = some db → db.state = some st →
    st.queues.length ≤ cap.toNat

/-- No queue name of the handle contains a NUL byte. -/
def Sys.PlainNames (s : Sys) : Prop :=
  ∀ db st, s.db = some db → db.state = some st →
    ∀ q ∈ st.queues, (0 : UInt8) ∉ q.name.bytes

section Steps

variable {s s' : Sys} {n : QueueName} {a : Act}

/-- A compaction keeps the queues of live messages, and no others. -/
theorem View.Wf.compact_queue {v : View} {c : Content} (h : v.Wf c)
    {now : UInt64} {mem : Mem} (hmem : v.compactReplay now = some mem) :
    (mem.st.queueGet n).isSome ↔ v.mem.st.HasLive n := by
  obtain ⟨mem', d, hmem', hs, hcomp, -⟩ := h.compact now
  have heq := hmem.symm.trans hmem'
  cases heq
  constructor
  · intro hn
    obtain ⟨id, y, hy, rfl⟩ :=
      replayRecords_peopled hmem State.Peopled.empty n hn
    rw [hs.msg] at hy
    obtain ⟨x, hx, hne, hcopy⟩ := hcomp.of_msg hy
    obtain ⟨m, hm, rfl, -⟩ := h.shows.of_msg hx
    have hdead := h.shows.rep.not_dead id m.core (by
      rw [h.shows.msg]
      exact hx)
    refine ⟨id, m, hm, hcopy.queueName.symm, ?_⟩
    change m.state ≠ .acked at hne
    change m.state ≠ .dead at hdead
    revert hne hdead
    cases m.state <;> simp
  · rintro ⟨id, m, hm, rfl, hstate⟩
    have hne : m.core.state ≠ .acked := by
      change m.state ≠ .acked
      rcases hstate with hst | hst <;> simp [hst]
    obtain ⟨y, hy, hcopy⟩ := hcomp.live id m.core (h.shows.msgGet hm) hne
    have hq := hs.rep.queue_exists id y (by rw [hs.msg]; exact hy)
    rw [hcopy.queueName] at hq
    exact hq

/-- The queues of a handle that has been compacted. -/
theorem Sys.Sound.compact_queue (h : s.Sound) {now : UInt64}
    (hs : s.step ⟨now, .compact⟩ = some (.code .ok, s')) :
    s'.HasQueue n ↔ ∃ db st, s.db = some db ∧ db.state = some st ∧
      st.HasLive n := by
  obtain ⟨ph, his, hwf⟩ := h
  obtain ⟨res, t, ph', hs', hst, his'⟩ := his.step hwf ⟨now, .compact⟩
  rw [hs] at hs'
  cases hs'
  cases hst with
  | move hmv _ =>
      cases hmv
  | compact hmem hfit =>
      obtain ⟨c, hc⟩ := hwf _ rfl
      obtain ⟨db, i, hdb, hlive⟩ := his
      obtain ⟨db', i', hdb', hlive'⟩ := his'
      constructor
      · rintro ⟨db1, st1, hdb1, hst1, hn⟩
        rw [hdb'] at hdb1
        cases hdb1
        rw [hlive'.state] at hst1
        cases hst1
        exact ⟨db, _, hdb, hlive.state, (hc.compact_queue hmem).mp hn⟩
      · rintro ⟨db1, st1, hdb1, hst1, hn⟩
        rw [hdb] at hdb1
        cases hdb1
        rw [hlive.state] at hst1
        cases hst1
        exact ⟨db', _, hdb', hlive'.state, (hc.compact_queue hmem).mpr hn⟩

/-- A call on the handle keeps the queue. -/
theorem Sys.HasQueue.step (h : s.HasQueue n) (hsound : s.Sound)
    (hs : s.HandleReturns n a s') : s'.HasQueue n := by
  obtain ⟨db, st, hdb, hst, hn⟩ := h
  obtain ⟨⟨-, ⟨hstep⟩⟩, hcall⟩ := hs
  rename_i e res
  obtain ⟨hclose, hopen, hcompact⟩ := hcall _ _ _ rfl
  by_cases hc : e.call = .compact
  · obtain ⟨ph, his, hwf⟩ := hsound
    obtain ⟨res', s'', ph', hs', hst', his'⟩ := his.step hwf e
    rw [hstep] at hs'
    cases hs'
    rw [hc] at hst'
    cases hst' with
    | null hph _ =>
        rw [his.db_none hph] at hdb
        cases hdb
    | move hmv _ =>
        cases hmv
    | compactIo _ =>
        obtain ⟨db', i, hdb', hlive⟩ := his'
        have heq := hst.symm.trans (his.state hdb)
        cases heq
        exact ⟨db', _, hdb', hlive.state, hn⟩
    | compact hmem hfit =>
        obtain ⟨c, hwfc⟩ := hwf _ rfl
        obtain ⟨db', i, hdb', hlive⟩ := his'
        have hpeople := hcompact hc rfl db _ hdb (his.state hdb)
        exact ⟨db', _, hdb', hlive.state,
          (hwfc.compact_queue hmem).mpr hpeople⟩
  · have hreb : ¬ e.call.Rebuilds := by
      intro hr
      generalize e.call = call at hc hclose hopen hr
      cases call with
      | openDb t =>
          exact hopen trivial
      | close =>
          exact hclose rfl
      | compact =>
          exact hc rfl
      | _ =>
          exact hr
    obtain ⟨x, hrun, hx⟩ := Option.map_eq_some_iff.mp hstep
    cases hx
    rw [hdb] at hrun
    obtain ⟨db', hdb', hkeeps, -⟩ := (post_callCmd hreb).of_run hrun
    obtain ⟨st', hst', hkept⟩ := hkeeps.kept hst
    exact ⟨db', st', hdb', hst', hkept n hn⟩

theorem Sys.HasQueue.run {as : List Act} (h : s.HasQueue n)
    (hsound : s.Sound) (hrun : Run (Sys.HandleReturns n) s as s') :
    s'.HasQueue n ∧ s'.Sound := by
  refine hrun.invariant (P := fun _ t => t.HasQueue n ∧ t.Sound)
    ⟨h, hsound⟩ ?_
  rintro as t a u - ⟨hq, ht⟩ hs
  exact ⟨hq.step ht hs, ht.returns hs.1⟩

/-- The queue table of a sound handle. -/
theorem Sys.Sound.queuesOk (h : s.Sound) {db : Db} {st : State}
    (hdb : s.db = some db) (hst : db.state = some st) : st.QueuesOk := by
  obtain ⟨ph, his, hwf⟩ := h
  cases ph with
  | opened v =>
      obtain ⟨c, hc⟩ := hwf v rfl
      have heq := hst.symm.trans (his.state hdb)
      cases heq
      exact ⟨hc.shows.rep.placed.queues, hc.shows.rep.sized⟩
  | _ =>
      have hnone := his.db_none (by simp)
      rw [hdb] at hnone
      cases hnone

/-- A queue of the handle is listed, and its statistics are found. -/
theorem Sys.HasQueue.reported (h : s.HasQueue n)
    {name : CString} (hname : queueArg (some name) = some n) :
    (∀ cap buf, s.Room cap buf → s.Lists name cap buf) ∧
      ∃ db stats, s.db = some db ∧
        Prog.run posix (qdbQueueStats db (some name) true) s.world =
          some ((.ok, some stats), s.world) := by
  obtain ⟨db, st, hdb, hst, hn⟩ := h
  obtain ⟨q, hq⟩ := Option.isSome_iff_exists.mp hn
  have hbytes := queueArg_bytes hname
  constructor
  · rintro cap buf ⟨hbuf, hroom⟩
    have hcap := hroom db st hdb hst
    have hlen : st.queues.length < 2 ^ 64 := by
      have := cap.toNat_lt
      omega
    obtain ⟨buf', hrun, -, hnames⟩ := run_qdbQueueList s.world hst hlen hbuf
    refine ⟨db, buf', _, hdb, hrun, ?_⟩
    rw [UInt64.toNat_ofNat', Nat.mod_eq_of_lt hlen, hnames,
      List.take_of_length_le (by
        unfold State.shown
        rw [List.length_map]
        exact hcap)]
    refine List.mem_map.mpr ⟨q, Table.lookup_some_mem hq, ?_⟩
    have hnul : (0 : UInt8) ∉ q.name.bytes := by
      rw [State.queueGet_name hq, hbytes]
      exact name.noNul
    apply CString.eq_of_bytes
    rw [cString_of_noNul hnul]
    change q.name.bytes = name.bytes
    rw [State.queueGet_name hq, hbytes]
  · refine ⟨db, q.stats, hdb, ?_⟩
    rw [run_qdbQueueStats s.world hst, hname]
    dsimp only
    rw [hq]

/-- A name that was listed belongs to a queue of the handle. -/
theorem Sys.Lists.hasQueue {name : CString} {cap : UInt64} {buf : List Bytes}
    (h : s.Lists name cap buf) (hroom : s.Room cap buf)
    (hplain : s.PlainNames) (hsound : s.Sound) :
    ∃ n, queueArg (some name) = some n ∧ s.HasQueue n := by
  obtain ⟨db, buf', k, hdb, hrun, hmem⟩ := h
  cases hst : db.state with
  | none =>
      simp [qdbQueueList, hst] at hrun
  | some st =>
      have hlen : st.queues.length < 2 ^ 64 := by
        have := cap.toNat_lt
        have := hroom.2 db st hdb hst
        omega
      obtain ⟨buf1, hrun1, -, hnames⟩ :=
        run_qdbQueueList s.world hst hlen hroom.1
      rw [hrun1] at hrun
      cases hrun
      rw [UInt64.toNat_ofNat', Nat.mod_eq_of_lt hlen, hnames] at hmem
      obtain ⟨q, hq, hshow⟩ :=
        List.mem_map.mp (List.mem_of_mem_take hmem)
      have hnul := hplain db st hdb hst q hq
      have hget : st.queueGet q.name = some q :=
        (hsound.queuesOk hdb hst).placed.mem_iff.mp hq
      rw [cString_of_noNul hnul] at hshow
      subst hshow
      exact ⟨q.name, queueArg_name q.name hnul, db, st, hdb, hst,
        by rw [hget]; rfl⟩

/-- A successful `qdb_push` leaves a handle with the queue. -/
theorem Sys.hasQueue_of_push {now : UInt64} {queue : Option CString}
    {data : DataArg}
    (hs : s.step ⟨now, .push queue data⟩ = some (.code .ok, s'))
    (hname : queueArg queue = some n) : s'.HasQueue n := by
  obtain ⟨x, hrun, hx⟩ := Option.map_eq_some_iff.mp hs
  cases hdb : s.db with
  | none =>
      rw [hdb] at hrun
      cases hrun
      cases hx
  | some db =>
      rw [hdb] at hrun
      have hreb : ¬ (Call.push queue data).Rebuilds := fun h => h
      obtain ⟨db', hdb', -, hpush⟩ := (post_callCmd hreb).of_run hrun
      have hres : x.1.1.rc = .ok := by
        rw [(Prod.mk.inj hx).1]
        rfl
      obtain ⟨n', st, hn', hst, hq⟩ := hpush queue data rfl hres
      rw [hname] at hn'
      cases hn'
      rw [← (Prod.mk.inj hx).2]
      exact ⟨db', st, hdb', hst, hq⟩

end Steps

/-- The last call of a run was a successful `qdb_push` to the queue. -/
def PushedLast (as : List Act) (name : CString) : Prop :=
  ∃ bs now data id, as = bs ++
    [.call ⟨now, .push (some name) data⟩ id (.code .ok)]

/-- A queue name that `qdb_queue_list` has shown or a successful `qdb_push` has
used is shown by every later `qdb_queue_list` and accepted by every later
`qdb_queue_stats`, as long as each compaction finds a live message of it. -/
theorem queue_entry_lives {s₀ s s' : Sys} {as bs : List Act} {name : CString}
    {n : QueueName} (h0 : s₀.Starts) (hrun : Run Sys.FreshReturns s₀ as s)
    (hseen : PushedLast as name ∨ (s.PlainNames ∧
      ∃ cap buf, s.Room cap buf ∧ s.Lists name cap buf))
    (hname : queueArg (some name) = some n)
    (hrun' : Run (Sys.HandleReturns n) s bs s') :
    (∀ cap buf, s'.Room cap buf → s'.Lists name cap buf) ∧
      ∃ db stats, s'.db = some db ∧
        Prog.run posix (qdbQueueStats db (some name) true) s'.world =
          some ((.ok, some stats), s'.world) := by
  have hsound := h0.run hrun
  have hhas : s.HasQueue n := by
    rcases hseen with ⟨cs, now, data, id, rfl⟩ | ⟨hplain, cap, buf, hroom, hl⟩
    · obtain ⟨t, -, hlast⟩ := hrun.snoc_inv
      exact Sys.hasQueue_of_push hlast.2.inv.2 hname
    · obtain ⟨n', hn', hq⟩ := hl.hasQueue hroom hplain hsound
      rw [hname] at hn'
      cases hn'
      exact hq
  exact (hhas.run hsound hrun').1.reported hname

section Rounds

variable {v : View} {c : Content} {n : QueueName}

theorem View.Wf.hasLive (h : v.Wf c) {m : Message}
    (hm : m ∈ (v.live c).queue n) : v.mem.st.HasLive n := by
  obtain ⟨xs, hqueue, -, hxs⟩ := h.queue_eq (o := some v.leaseTimeoutUs) n
  have hmem : m ∈ xs.map v.message := by
    rw [← hqueue]
    exact hm
  obtain ⟨x, hx, -⟩ := List.mem_map.mp hmem
  obtain ⟨hget, hname, hstate⟩ := hxs x hx
  obtain ⟨y, hy, rfl, -⟩ := h.shows.of_msg hget
  exact ⟨_, y, hy, hname, Or.inl hstate⟩

theorem View.Wf.not_hasLive (h : v.Wf c) (he : (v.live c).Empty) :
    ¬ v.mem.st.HasLive n := by
  rintro ⟨id, m, hm, -, hstate⟩
  have hid : m.id = id := State.msgGet_id hm
  rw [← hid] at hm
  rcases h.live_of_job (h.shows.rep.mem_jobs.mpr ⟨hm, hstate⟩) with hq | hl
  · rw [he.queue] at hq
    cases hq
  · rw [he.lease] at hl
    cases hl

end Rounds

theorem roundString_noNul : (0 : UInt8) ∉ [97] := by
  decide

/-- The queue the rounds use, as a C string. -/
def roundString : CString :=
  ⟨[97], roundString_noNul⟩

/-- A compaction with a pending message of the queue. -/
theorem queue_entry_lives_round : ∃ s s' : Sys,
    Run (Sys.HandleReturns roundName) s
      [.call ⟨0, .compact⟩ (some 2) (.code .ok)] s' ∧
    ∀ cap buf, s'.Room cap buf → s'.Lists roundString cap buf := by
  obtain ⟨s1, h1, hidle⟩ := Idle.create 0 0
  obtain ⟨s2, h2, hpushed⟩ := hidle.push (by decide) (by decide)
  obtain ⟨s3, h3, -⟩ := hpushed.compact (by decide) (by decide)
  have hrun := (Run.single h1).snoc h2
  obtain ⟨b, -, hb⟩ := Sys.Shows.init.run hrun
  have hlive : ∀ db st, s2.db = some db → db.state = some st →
      st.HasLive roundName := by
    intro db st hdb hst
    obtain ⟨v, c, hsmall, hqueue, -⟩ := hpushed
    have heq := hst.symm.trans (hsmall.is.state hdb)
    cases heq
    refine hsmall.inv.wf.hasLive (m := roundMessage 1 0) ?_
    rw [hqueue, Function.update_self]
    exact List.mem_cons_self
  have hstep : Run (Sys.HandleReturns roundName) s2
      [.call ⟨0, .compact⟩ (some 2) (.code .ok)] s3 := by
    refine Run.single ⟨hb.freshReturns h3, ?_⟩
    intro e id res heq
    cases heq
    exact ⟨by simp, fun h => h, fun _ _ => hlive⟩
  exact ⟨s2, s3, hstep, (queue_entry_lives .new (Sys.fresh_of_counted hrun)
    (Or.inl ⟨_, 0, .buf [], some 1, rfl⟩) rfl hstep).1⟩

/-- A call on the open handle returns. -/
def Sys.PlainHandle (s : Sys) (a : Act) (s' : Sys) : Prop :=
  s.Returns a s' ∧ ∀ e id res, a = .call e id res →
    e.call ≠ .close ∧ ¬ e.call.Opens

/-- Push, pop, acknowledge, compact: the queue is not listed any more. -/
theorem queue_entry_dropped :
    ¬ ∀ (s s' : Sys) (as bs : List Act) (name : CString) (n : QueueName)
        (cap : UInt64) (buf : List Bytes), Run Sys.Returns Sys.init as s →
      PushedLast as name → queueArg (some name) = some n →
      Run Sys.PlainHandle s bs s' → s'.Room cap buf →
      s'.Lists name cap buf := by
  intro hall
  obtain ⟨s1, h1, hidle⟩ := Idle.create 0 0
  obtain ⟨s2, h2, hpushed⟩ := hidle.push (by decide) (by decide)
  obtain ⟨s3, h3, hpopped⟩ :=
    hpushed.pop (by decide) (by decide) (by decide)
  obtain ⟨s4, h4, hacked⟩ := hpopped.ack (by decide) (by decide) (by decide)
  obtain ⟨s5, h5, -⟩ := hacked.compact (by decide) (by decide)
  have hplain : ∀ {t u : Sys} {e : Event} {id : Option UInt64}
      {res : Result}, t.CountedReturns (.call e id res) u →
      e.call ≠ .close → ¬ e.call.Opens →
      t.PlainHandle (.call e id res) u := by
    intro t u e id res h hclose hopen
    refine ⟨h.2, ?_⟩
    intro e' id' res' heq
    cases heq
    exact ⟨hclose, hopen⟩
  have hbs : Run Sys.PlainHandle s2 _ s5 :=
    ((Run.single (hplain h3 (by simp) fun h => h)).snoc
      (hplain h4 (by simp) fun h => h)).snoc (hplain h5 (by simp) fun h => h)
  have hrun4 := (((Run.single h1).snoc h2).snoc h3).snoc h4
  have hsound := Sys.Starts.new.run (Sys.fresh_of_counted hrun4)
  have hsound5 := Sys.Starts.new.run (Sys.fresh_of_counted (hrun4.snoc h5))
  -- no queue is left, so that an array without entries has room for all
  have hroom : s5.Room 0 [] := by
    refine ⟨Nat.le_refl _, ?_⟩
    intro db st hdb hst
    cases hqs : st.queues with
    | nil =>
        exact Nat.le_refl _
    | cons q qs =>
        have hq : q ∈ st.queues := by
          rw [hqs]
          exact List.mem_cons_self
        have hget : st.queueGet q.name = some q :=
          (hsound5.queuesOk hdb hst).placed.mem_iff.mp hq
        obtain ⟨db4, st4, hdb4, hst4, hlive⟩ :=
          (hsound.compact_queue h5.2.inv.2).mp
            ⟨db, st, hdb, hst, by rw [hget]; rfl⟩
        obtain ⟨v, c, k, hsmall, hempty, -⟩ := hacked
        have heq := hst4.symm.trans (hsmall.is.state hdb4)
        cases heq
        exact absurd hlive (hsmall.inv.wf.not_hasLive hempty)
  have hlists := hall s2 s5 _ _ roundString roundName 0 []
    (((Run.single h1).snoc h2).mono fun _ _ _ h => h.2)
    ⟨_, 0, .buf [], some 1, rfl⟩ rfl hbs hroom
  obtain ⟨db, buf', k, -, -, hmem⟩ := hlists
  simp at hmem

end Qdb
