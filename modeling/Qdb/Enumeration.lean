import Mathlib
import Qdb.Exhaustion
import Qdb.QueueTable

/-!
# Enumeration and statistics

A queue name is a byte string with a length in the log and in the tables, and a
NUL-terminated string at the API.  `qdb_queue_list`, `qdb_queue_stats` and
`qdb_stats` agree on a handle exactly when no name of its queue table contains
a NUL byte (`enumeration_agrees_iff`); `replay_push` accepts such names.
-/

namespace Qdb

open Lib

section Names

theorem CString.eq_of_bytes {s t : CString} (h : s.bytes = t.bytes) :
    s = t := by
  cases s
  cases t
  cases h
  rfl

/-- A terminator ends the string whatever follows it. -/
theorem takeWhile_terminated (l r : Bytes) :
    (l ++ 0 :: r).takeWhile (fun b => decide (b ≠ 0)) =
      l.takeWhile (fun b => decide (b ≠ 0)) := by
  induction l with
  | nil =>
      rfl
  | cons b l ih =>
      by_cases hb : b = 0
      · subst hb
        rfl
      · simpa [hb] using ih

theorem cString_overwrite (old l : Bytes) :
    cString (overwrite old 0 (l ++ [0])) = cString l := by
  apply CString.eq_of_bytes
  simp only [cString, overwrite_zero, List.append_assoc,
    List.singleton_append]
  exact takeWhile_terminated l _

/-- A name without NUL bytes is shown in full. -/
theorem cString_of_noNul {l : Bytes} (h : (0 : UInt8) ∉ l) :
    cString l = ⟨l, h⟩ := by
  have hl : l.takeWhile (fun b => decide (b ≠ 0)) = l := by
    rw [List.takeWhile_eq_self_iff]
    intro b hb
    have hne : b ≠ 0 := by
      rintro rfl
      exact h hb
    simpa using hne
  exact CString.eq_of_bytes hl

theorem queueArg_name (n : QueueName) (h : (0 : UInt8) ∉ n.bytes) :
    queueArg (some ⟨n.bytes, h⟩) = some n := by
  unfold queueArg
  dsimp only
  rw [dif_pos ⟨n.nonempty, n.length_le⟩]

theorem queueArg_bytes {s : CString} {n : QueueName}
    (h : queueArg (some s) = some n) : n.bytes = s.bytes := by
  unfold queueArg at h
  dsimp only at h
  split at h
  · cases h
    rfl
  · cases h

end Names

section Loops

/-- The loop of `qdb_stats` adds the counters of the queues up. -/
theorem statsLoop_eq (qs : List Queue) (s : Stats) :
    statsLoop qs s = ⟨s.queueCount,
      s.pendingCount + (qs.map (·.stats.pendingCount)).sum,
      s.leasedCount + (qs.map (·.stats.leasedCount)).sum,
      s.ackedCount + (qs.map (·.stats.ackedCount)).sum,
      s.fileSizeBytes⟩ := by
  induction qs generalizing s with
  | nil =>
      simp [statsLoop]
  | cons q qs ih =>
      have hcons : statsLoop (q :: qs) s = statsLoop qs (s.add q.stats) := rfl
      rw [hcons, ih]
      simp [Stats.add, UInt64.add_assoc]

/-- The loop of `qdb_queue_list` from the entry `k` on. -/
theorem queueListLoop_spec {cap : UInt64} (qs : List Queue)
    {buf : List Bytes} {k : Nat} (hk : k + qs.length < 2 ^ 64)
    (hcap : cap.toNat ≤ buf.length) :
    ∃ buf', queueListLoop cap qs (some buf) (UInt64.ofNat k) =
        (some buf', UInt64.ofNat (k + qs.length)) ∧
      buf'.length = buf.length ∧
      (∀ j, j < k → buf'[j]? = buf[j]?) ∧
      ∀ j q, qs[j]? = some q → k + j < cap.toNat →
        buf'[k + j]?.map cString = some (cString q.name.bytes) := by
  induction qs generalizing buf k with
  | nil =>
      exact ⟨buf, rfl, rfl, fun _ _ => rfl, fun j q hq => by simp at hq⟩
  | cons q qs ih =>
      have hkn : (UInt64.ofNat k).toNat = k := by
        rw [List.length_cons] at hk
        rw [UInt64.toNat_ofNat']
        omega
      have hsucc : UInt64.ofNat k + 1 = UInt64.ofNat (k + 1) := by
        simp
      -- the array after the entry `k`
      obtain ⟨buf1, hbuf1, hlen1, hold1, hnew1⟩ : ∃ buf1,
          (if UInt64.ofNat k < cap then
            buf.modify (UInt64.ofNat k).toNat
              (fun old => overwrite old 0 (q.name.bytes ++ [0]))
            else buf) = buf1 ∧ buf1.length = buf.length ∧
          (∀ j, j < k → buf1[j]? = buf[j]?) ∧
          (k < cap.toNat →
            buf1[k]?.map cString = some (cString q.name.bytes)) := by
        refine ⟨_, rfl, ?_, ?_, ?_⟩
        · split
          · rw [List.length_modify]
          · rfl
        · intro j hj
          split
          · rw [hkn]
            exact List.getElem?_modify_ne _ _ (by omega)
          · rfl
        · intro hlt
          rw [if_pos (by rw [UInt64.lt_iff_toNat_lt, hkn]; exact hlt), hkn,
            List.getElem?_modify_eq]
          have hget : buf[k]? = some buf[k] :=
            List.getElem?_eq_getElem (by omega)
          rw [hget, Option.map_eq_map, Option.map_some, Option.map_some,
            cString_overwrite]
      obtain ⟨buf', hrun, hlen, hold, hnew⟩ :=
        @ih buf1 (k + 1) (by simp at hk; omega)
          (by rw [hlen1]; exact hcap)
      refine ⟨buf', ?_, hlen.trans hlen1, ?_, ?_⟩
      · simp only [queueListLoop, Option.map_some, hbuf1, hsucc]
        rw [hrun]
        congr 2
        simp
        omega
      · intro j hj
        rw [hold j (by omega), hold1 j hj]
      · intro j p hp hlt
        cases j with
        | zero =>
            cases hp
            rw [Nat.add_zero] at hlt ⊢
            rw [hold k (by omega)]
            exact hnew1 hlt
        | succ j =>
            have h := hnew j p hp (by omega)
            rw [show k + (j + 1) = k + 1 + j by omega]
            exact h

end Loops

/-- The names that `qdb_queue_list` shows for the queues of the table. -/
def State.shown (st : State) : List CString :=
  st.queues.map fun q => cString q.name.bytes

section Calls

variable {db : Db} {st : State} {cap : UInt64} {buf : List Bytes}

/-- What `qdb_queue_list` leaves: the first names, and the number of all. -/
theorem run_qdbQueueList (w : World) (hst : db.state = some st)
    (hlen : st.queues.length < 2 ^ 64) (hbuf : cap.toNat ≤ buf.length) :
    ∃ buf', Prog.run posix (qdbQueueList db (some buf) cap true) w =
        some ((.ok, some buf', some (UInt64.ofNat st.queues.length)), w) ∧
      buf'.length = buf.length ∧
      (buf'.take (min cap.toNat st.queues.length)).map cString =
        st.shown.take cap.toNat := by
  obtain ⟨buf', hrun, hlen', -, hnew⟩ := queueListLoop_spec (k := 0)
    st.queues (by omega) hbuf
  rw [Nat.zero_add] at hrun
  refine ⟨buf', ?_, hlen', ?_⟩
  · simp only [qdbQueueList, hst]
    rw [show (0 : UInt64) = UInt64.ofNat 0 from rfl, hrun]
    rfl
  · apply List.ext_getElem?
    intro j
    rw [List.getElem?_map, List.getElem?_take, List.getElem?_take]
    unfold State.shown
    rw [List.getElem?_map]
    by_cases hj : j < cap.toNat
    · rw [if_pos hj]
      cases hq : st.queues[j]? with
      | none =>
          have := List.getElem?_eq_none_iff.mp hq
          rw [if_neg (by omega)]
          rfl
      | some q =>
          obtain ⟨hlt, -⟩ := List.getElem?_eq_some_iff.mp hq
          rw [if_pos (by omega), Option.map_some]
          have h := hnew j q hq (by omega)
          rwa [Nat.zero_add] at h
    · rw [if_neg hj, if_neg (by omega)]
      rfl

theorem run_qdbStats (w : World) (hst : db.state = some st) :
    ∃ sz, Prog.run posix (qdbStats db true) w =
      some ((.ok, some ⟨st.queueCount,
        (st.queues.map (·.stats.pendingCount)).sum,
        (st.queues.map (·.stats.leasedCount)).sum,
        (st.queues.map (·.stats.ackedCount)).sum, sz⟩), w) := by
  simp only [qdbStats, hst, statsLoop_eq]
  cases db.fd with
  | none =>
      exact ⟨0, by simp [fileSize, posix]⟩
  | some i =>
      exact ⟨UInt64.ofNat (w.content i).length, by simp [fileSize, posix]⟩

theorem run_qdbQueueStats (w : World) (hst : db.state = some st)
    (queue : Option CString) :
    Prog.run posix (qdbQueueStats db queue true) w = some (
      match queueArg queue with
      | none => (.errInval, none)
      | some n =>
          match st.queueGet n with
          | none => (.errNoent, none)
          | some q => (.ok, some q.stats), w) := by
  simp only [qdbQueueStats, hst]
  cases queueArg queue with
  | none =>
      rfl
  | some n =>
      dsimp only
      cases st.queueGet n <;> rfl

end Calls

/-- Enumeration into an array of `cap` entries and statistics agree on the
handle. -/
def Db.Agrees (db : Db) (w : World) (cap : UInt64) (buf : List Bytes) : Prop :=
  ∃ stats buf' n per,
    Prog.run posix (qdbStats db true) w = some ((.ok, some stats), w) ∧
    Prog.run posix (qdbQueueList db (some buf) cap true) w =
      some ((.ok, some buf', some n), w) ∧
    n = stats.queueCount ∧ (buf'.take n.toNat).length = n.toNat ∧
    -- the names are pairwise different and each one is found again
    ((buf'.take n.toNat).map cString).Nodup ∧
    List.Forall₂ (fun name s =>
      Prog.run posix (qdbQueueStats db (some name) true) w =
        some ((.ok, some s), w)) ((buf'.take n.toNat).map cString) per ∧
    (per.map QueueStats.pendingCount).sum = stats.pendingCount ∧
    (per.map QueueStats.leasedCount).sum = stats.leasedCount ∧
    (per.map QueueStats.ackedCount).sum = stats.ackedCount ∧
    -- a smaller array gets a prefix of the names and the same number
    ∀ cap' buf1, cap' ≤ cap → cap'.toNat ≤ buf1.length → ∃ buf1',
      Prog.run posix (qdbQueueList db (some buf1) cap' true) w =
        some ((.ok, some buf1', some n), w) ∧
      (buf1'.take (min cap'.toNat n.toNat)).map cString <+:
        (buf'.take n.toNat).map cString

section Agreement

variable {db : Db} {st : State} {cap : UInt64} {buf : List Bytes}

theorem State.QueuesOk.nodup_shown (h : st.QueuesOk)
    (hnul : ∀ q ∈ st.queues, (0 : UInt8) ∉ q.name.bytes) :
    st.shown.Nodup := by
  have hnames : (st.queues.map Queue.name).Nodup := h.placed.nodup_toList
  have hshown : st.shown =
      (st.queues.map Queue.name).map fun n => cString n.bytes := by
    rw [List.map_map]
    rfl
  have hc : ∀ n ∈ st.queues.map Queue.name, (0 : UInt8) ∉ n.bytes := by
    intro n hn
    obtain ⟨q, hq, rfl⟩ := List.mem_map.mp hn
    exact hnul q hq
  rw [hshown]
  refine hnames.map_on ?_
  intro n hn n' hn' heq
  rw [cString_of_noNul (hc n hn), cString_of_noNul (hc n' hn')] at heq
  cases n
  cases n'
  cases heq
  rfl

theorem State.QueuesOk.forall_found (h : st.QueuesOk) (w : World)
    (hst : db.state = some st)
    (hnul : ∀ q ∈ st.queues, (0 : UInt8) ∉ q.name.bytes) :
    List.Forall₂ (fun name s =>
      Prog.run posix (qdbQueueStats db (some name) true) w =
        some ((.ok, some s), w)) st.shown (st.queues.map Queue.stats) := by
  unfold State.shown
  rw [List.forall₂_map_left_iff, List.forall₂_map_right_iff,
    List.forall₂_same]
  intro q hq
  have hget : st.queueGet q.name = some q := h.placed.mem_iff.mp hq
  rw [run_qdbQueueStats w hst, cString_of_noNul (hnul q hq),
    queueArg_name q.name (hnul q hq)]
  dsimp only
  rw [hget]

/-- With names that are C strings everything agrees. -/
theorem State.QueuesOk.agrees (h : st.QueuesOk) (w : World)
    (hst : db.state = some st) (hcap : st.queues.length ≤ cap.toNat)
    (hbuf : cap.toNat ≤ buf.length)
    (hnul : ∀ q ∈ st.queues, (0 : UInt8) ∉ q.name.bytes) :
    db.Agrees w cap buf := by
  have hlen : st.queues.length < 2 ^ 64 := by
    have := cap.toNat_lt
    omega
  have hn : (UInt64.ofNat st.queues.length).toNat = st.queues.length := by
    rw [UInt64.toNat_ofNat']
    omega
  obtain ⟨buf', hlist, hlen', hnames⟩ := run_qdbQueueList w hst hlen hbuf
  obtain ⟨sz, hstats⟩ := run_qdbStats w hst
  rw [Nat.min_eq_right hcap] at hnames
  have hshown : st.shown.take cap.toNat = st.shown := by
    apply List.take_of_length_le
    unfold State.shown
    rw [List.length_map]
    exact hcap
  rw [hshown] at hnames
  refine ⟨_, buf', _, st.queues.map Queue.stats, hstats, hlist, ?_, ?_, ?_, ?_,
    ?_, ?_, ?_, ?_⟩
  · exact h.sized.queues.symm
  · rw [hn, List.length_take, hlen']
    omega
  · rw [hn, hnames]
    exact h.nodup_shown hnul
  · rw [hn, hnames]
    exact h.forall_found w hst hnul
  · rw [List.map_map]
    rfl
  · rw [List.map_map]
    rfl
  · rw [List.map_map]
    rfl
  · intro cap' buf1 hle hbuf1
    obtain ⟨buf1', hlist', -, hnames'⟩ := run_qdbQueueList w hst hlen hbuf1
    refine ⟨buf1', hlist', ?_⟩
    rw [hn, hnames, hnames']
    exact List.take_prefix _ _

/-- A name that is shown in part is not found, or is shown twice. -/
theorem Db.Agrees.noNul {w : World} (h : db.Agrees w cap buf)
    (hst : db.state = some st) (hcap : st.queues.length ≤ cap.toNat)
    (hbuf : cap.toNat ≤ buf.length) :
    ∀ q ∈ st.queues, (0 : UInt8) ∉ q.name.bytes := by
  obtain ⟨stats, buf', n, per, -, hlist, -, -, hnd, hfound, -⟩ := h
  have hlen : st.queues.length < 2 ^ 64 := by
    have := cap.toNat_lt
    omega
  have hn : (UInt64.ofNat st.queues.length).toNat = st.queues.length := by
    rw [UInt64.toNat_ofNat']
    omega
  obtain ⟨buf1, hlist1, -, hnames⟩ := run_qdbQueueList w hst hlen hbuf
  rw [hlist1] at hlist
  cases hlist
  rw [Nat.min_eq_right hcap, List.take_of_length_le (l := st.shown)
    (by unfold State.shown; rw [List.length_map]; exact hcap)] at hnames
  rw [hn, hnames] at hnd hfound
  intro q hq hnul
  -- the statistics of the shown part belong to another queue
  have hmem : cString q.name.bytes ∈ st.shown :=
    List.mem_map.mpr ⟨q, hq, rfl⟩
  have hall : ∀ name ∈ st.shown, ∃ s,
      Prog.run posix (qdbQueueStats db (some name) true) w =
        some ((.ok, some s), w) :=
    ((List.forall₂_and_left _ _).mp
      (hfound.imp fun name s hs => ⟨⟨s, hs⟩, hs⟩)).1
  obtain ⟨s, hs⟩ := hall _ hmem
  rw [run_qdbQueueStats w hst] at hs
  cases harg : queueArg (some (cString q.name.bytes)) with
  | none =>
      rw [harg] at hs
      simp at hs
  | some n =>
      rw [harg] at hs
      dsimp only at hs
      cases hget : st.queueGet n with
      | none =>
          rw [hget] at hs
          simp at hs
      | some p =>
          have hbytes := queueArg_bytes harg
          have hp : p ∈ st.queues := Table.lookup_some_mem hget
          have hname : p.name = n := State.queueGet_name hget
          have hno : (0 : UInt8) ∉ p.name.bytes := by
            rw [hname, hbytes]
            exact (cString q.name.bytes).noNul
          have hshow : cString p.name.bytes = cString q.name.bytes := by
            apply CString.eq_of_bytes
            rw [cString_of_noNul hno, ← hbytes, ← hname]
          have heq := List.inj_on_of_nodup_map hnd hp hq hshow
          rw [heq] at hno
          exact hno hnul

end Agreement

/-- On every handle that a run reaches, `qdb_queue_list` with an array that is
large enough, `qdb_queue_stats` and `qdb_stats` agree if and only if the state
pointer is not NULL and no name of the queue table contains a NUL byte. -/
theorem enumeration_agrees_iff {s₀ s : Sys} {as : List Act}
    (h0 : s₀.Starts) (hrun : Run Sys.Returns s₀ as s) {db : Db}
    (hdb : s.db = some db) {cap : UInt64} {buf : List Bytes}
    (hcap : ∀ st, db.state = some st → st.queues.length ≤ cap.toNat)
    (hbuf : cap.toNat ≤ buf.length) :
    db.Agrees s.world cap buf ↔ ∃ st, db.state = some st ∧
      ∀ q ∈ st.queues, (0 : UInt8) ∉ q.name.bytes := by
  have hok := h0.queuesOk hrun db hdb
  constructor
  · intro h
    cases hst : db.state with
    | none =>
        obtain ⟨stats, -, -, -, hstats, -⟩ := h
        simp [qdbStats, hst] at hstats
    | some st =>
        exact ⟨st, rfl, h.noNul hst (hcap st hst) hbuf⟩
  · rintro ⟨st, hst, hnul⟩
    exact (hok st hst).agrees s.world hst (hcap st hst) hbuf hnul

/-- Two messages in the first queue and one in the second. -/
def unevenLog : List Record :=
  [pushRecord 1 roundBody, pushRecord 2 secondBody, pushRecord 3 roundBody]

/-- Two queues of different length. -/
theorem enumeration_agrees_uneven : ∃ (s : Sys) (db : Db) (st : State),
    s.db = some db ∧ db.state = some st ∧
      st.queues.map (fun q => (q.name, q.pendingCount)) =
        [(secondName, 1), (roundName, 2)] ∧
      db.Agrees s.world 2 [[], []] := by
  have hreplay : (replayRecords hdrSize unevenLog (Mem.start 0)).map
      (fun mem => mem.st.queues.map fun q => (q.name, q.pendingCount)) =
        some [(secondName, 1), (roundName, 2)] := by
    decide +kernel
  obtain ⟨mem, hmem, hqueues⟩ := Option.map_eq_some_iff.mp hreplay
  have hshort : (encodeLog unevenLog).length ≤ 2 ^ 62 :=
    le_trans (length_encodeLog_le _) (by decide)
  obtain ⟨s, hs, db, i, hdb, hlive⟩ := logFile_starts hshort hmem 0
  have hlen : mem.st.queues.length = 2 := by
    have hmap := congrArg List.length hqueues
    rwa [List.length_map] at hmap
  refine ⟨s, db, mem.st, hdb, hlive.state, hqueues,
    (enumeration_agrees_iff hs .nil hdb ?_ (by decide)).mpr
      ⟨_, hlive.state, ?_⟩⟩
  · intro st hst
    rw [hlive.state] at hst
    cases hst
    exact hlen.le
  · intro q hq
    have hin : (q.name, q.pendingCount) ∈
        mem.st.queues.map fun q => (q.name, q.pendingCount) :=
      List.mem_map_of_mem hq
    rw [hqueues] at hin
    rcases List.mem_pair.mp hin with heq | heq
    · rw [(Prod.mk.inj heq).1]
      decide
    · rw [(Prod.mk.inj heq).1]
      decide

/-- The memory rebuilt from a log with one PUSH record. -/
def pushedMem (b : Body) : Mem :=
  ⟨2, 1, State.empty.addMsg (newMsg 1
    (hdrSize + recHdrSize + 9 + b.name.len.toUInt64)
    (UInt32.ofNat b.data.length) b.name)⟩

theorem pushedMem_replay (b : Body) :
    replayRecords hdrSize [pushRecord 1 b] (Mem.start 0) =
      some (pushedMem b) := by
  rw [replayRecords_singleton]
  simp only [Record.replay, entry_pushRecord, Option.bind_some, Mem.apply]
  rfl

/-- The handle of a file with one PUSH record. -/
theorem pushedMem_starts (b : Body) :
    ∃ (s : Sys) (db : Db), s.Starts ∧ s.db = some db ∧
      db.state = some (pushedMem b).st := by
  have hshort : (encodeLog [pushRecord 1 b]).length ≤ 2 ^ 62 := by
    have hsize := (pushRecord 1 b).size_le
    rw [encodeLog_cons, encodeLog_nil, List.append_nil,
      Record.length_encode]
    exact le_trans hsize (by decide)
  obtain ⟨s, hs, db, i, hdb, hlive⟩ :=
    logFile_starts hshort (pushedMem_replay b) 0
  exact ⟨s, db, hs, hdb, hlive.state⟩

/-- A queue name that consists of one NUL byte. -/
def nulBody : Body :=
  ⟨⟨[0], by decide, by decide⟩, [], by decide⟩

/-- A file with such a queue is opened, but the name is listed as the empty
string, for which there are no statistics. -/
theorem enumeration_disagrees :
    ¬ ∀ (s₀ s : Sys) (as : List Act) (db : Db) (cap : UInt64)
        (buf : List Bytes), s₀.Starts → Run Sys.Returns s₀ as s →
      s.db = some db →
      (∀ st, db.state = some st → st.queues.length ≤ cap.toNat) →
      cap.toNat ≤ buf.length → db.Agrees s.world cap buf := by
  intro hall
  obtain ⟨s, db, hs, hdb, hst⟩ := pushedMem_starts nulBody
  have hcap : ∀ st : State, db.state = some st →
      st.queues.length ≤ (1 : UInt64).toNat := by
    intro st h
    rw [hst] at h
    cases h
    decide +kernel
  have h := hall s s [] db 1 [[]] hs .nil hdb hcap (by decide)
  obtain ⟨st, hst', hnul⟩ :=
    (enumeration_agrees_iff hs .nil hdb hcap (by decide)).mp h
  rw [hst] at hst'
  cases hst'
  revert hnul
  decide +kernel

end Qdb
