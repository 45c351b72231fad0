import Qdb.CompactBehaviour
import Qdb.Enumeration

/-!
# The size of a compacted log

A compaction writes one PUSH for every live message, one LEASE more for every
leased one, and a CHECKPOINT.  Every log that is replayed to a state has paid
for the messages of the state: at least the PUSH of each, the LEASE of the
leased and the acknowledged ones, and the ACK of the acknowledged ones.  So a
compaction of a state with an acknowledged message makes the log shorter.
-/

namespace Qdb

open Lib

namespace Msg

/-- Bytes of the PUSH record of a message. -/
def pushSize (m : Msg) : Nat :=
  19 + m.queueName.bytes.length + m.dataLen.toNat

/-- Bytes of the records a log must hold for a message. -/
def cost (m : Msg) : Nat :=
  match m.state with
  | .pending => m.pushSize
  | .leased => m.pushSize + 34
  | .acked => m.pushSize + 34 + 26
  | .dead => 0

/-- The message is pending or leased. -/
def isLive (m : Msg) : Bool :=
  decide (m.state = .pending ∨ m.state = .leased)

/-- Bytes a compaction writes for a message. -/
def keptSize (m : Msg) : Nat :=
  if m.state = .leased then m.pushSize + 34
  else if m.state = .pending then m.pushSize
  else 0

theorem cost_core (m : Msg) : m.core.cost = m.cost := by
  rfl

/-- A message that returns to its queue costs less. -/
theorem returned_cost {m : Msg} (h : m.state = .leased) :
    m.returned.cost ≤ m.cost + 0 := by
  have hr : m.returned.cost = m.pushSize := rfl
  have hc : m.cost = m.pushSize + 34 := by
    unfold cost
    rw [h]
  omega

theorem keptSize_le_cost (m : Msg) : m.keptSize ≤ m.cost := by
  unfold keptSize cost
  cases m.state <;> simp

end Msg

namespace State

/-- Bytes of the PUSH records of the live messages. -/
def liveSize (st : State) : Nat :=
  ((st.msgs.filter Msg.isLive).map Msg.pushSize).sum

/-- Number of leased messages. -/
def leasedNumber (st : State) : Nat :=
  st.msgs.countP fun m => decide (m.state = .leased)

/-- Bytes of the records a log must hold for the messages of a state. -/
def cost (st : State) : Nat :=
  (st.msgs.map Msg.cost).sum

theorem cost_eq_cores (st : State) :
    st.cost = (st.cores.map Msg.cost).sum := by
  unfold cost cores
  rw [List.map_map]
  rfl

theorem kept_eq (ms : List Msg) :
    ((ms.filter Msg.isLive).map Msg.pushSize).sum +
      34 * ms.countP (fun m => decide (m.state = .leased)) =
      (ms.map Msg.keptSize).sum := by
  induction ms with
  | nil =>
      rfl
  | cons m ms ih =>
      rw [List.filter_cons, List.countP_cons, List.map_cons, List.sum_cons,
        ← ih]
      unfold Msg.isLive Msg.keptSize
      cases m.state <;> simp <;> omega

theorem kept_le_cost (ms : List Msg) :
    (ms.map Msg.keptSize).sum ≤ (ms.map Msg.cost).sum :=
  List.sum_le_sum fun m _ => m.keptSize_le_cost

/-- An acknowledged message has left at least 80 bytes in the log. -/
theorem kept_lt_cost {ms : List Msg} {m : Msg} (hm : m ∈ ms)
    (hs : m.state = .acked) :
    (ms.map Msg.keptSize).sum + 80 ≤ (ms.map Msg.cost).sum := by
  obtain ⟨as, bs, rfl⟩ := List.append_of_mem hm
  have ha := kept_le_cost as
  have hb := kept_le_cost bs
  have hname := m.queueName.nonempty
  have hkept : m.keptSize = 0 := by
    unfold Msg.keptSize
    rw [hs]
    rfl
  have hcost : m.cost = m.pushSize + 34 + 26 := by
    unfold Msg.cost
    rw [hs]
  have hpush : m.pushSize = 19 + m.queueName.bytes.length + m.dataLen.toNat :=
    rfl
  simp only [List.map_append, List.map_cons, List.sum_append, List.sum_cons]
  omega

end State

section Lower

variable {mem mem' : Mem} {off : UInt64}

theorem cost_of_perm_cons {st st' : State} {x : Msg}
    (h : st'.cores.Perm (x :: st.cores)) : st'.cost = st.cost + x.cost := by
  rw [State.cost_eq_cores, State.cost_eq_cores, (h.map Msg.cost).sum_eq,
    List.map_cons, List.sum_cons, Nat.add_comm]

theorem cost_of_perm {st st' : State} {x y : Msg} {rest : List Msg}
    (h : st.cores.Perm (x :: rest)) (h' : st'.cores.Perm (y :: rest)) :
    st'.cost + x.cost = st.cost + y.cost := by
  rw [State.cost_eq_cores, State.cost_eq_cores, (h.map Msg.cost).sum_eq,
    (h'.map Msg.cost).sum_eq, List.map_cons, List.map_cons, List.sum_cons,
    List.sum_cons]
  omega

/-- Bytes a log spends on an entry. -/
def Entry.room : Entry → Nat
  | .push _ name data => 19 + name.bytes.length + data.length
  | .lease _ _ _ => 34
  | .ack _ _ => 26
  | _ => 0

theorem Record.room_le {r : Record} {e : Entry} (h : r.entry = some e) :
    e.room ≤ r.size := by
  have hsize : r.size = 10 + r.payload.length := rfl
  unfold Record.entry at h
  split at h
  · cases e with
    | push id name data =>
        have hp := (decodePush_inv h).2
        change 19 + name.bytes.length + data.length ≤ _
        omega
    | _ =>
        unfold decodePush at h
        dsimp only at h
        split at h <;> cases h
  split at h
  · unfold decodeLease at h
    split at h
    · cases h
      change 34 ≤ _
      omega
    · cases h
  split at h
  · unfold decodeResolve at h
    split at h
    · cases h
      change 26 ≤ _
      omega
    · cases h
  split at h
  · unfold decodeResolve at h
    split at h
    · cases h
      exact Nat.zero_le _
    · cases h
  split at h
  · unfold decodeResolve at h
    split at h
    · cases h
      exact Nat.zero_le _
    · cases h
  split at h
  · unfold decodeCheckpoint at h
    split at h
    · cases h
      exact Nat.zero_le _
    · cases h
  · cases h
    exact Nat.zero_le _

theorem Mem.applyResolve_cost
    {resolve : State → Queue → Msg → UInt64 → State} {upd : Msg → Msg}
    {id l : UInt64} {k : Nat}
    (hperm : ∀ (st : State) (q : Queue) (m x : Msg),
      st.coreGet m.id = some x → ∃ rest, st.cores.Perm (x :: rest) ∧
        (resolve st q m l).cores.Perm (upd x :: rest))
    (hupd : ∀ x, x.state = .leased → (upd x).cost ≤ x.cost + k)
    (h : mem.applyResolve resolve id l = some mem') :
    mem'.st.cost ≤ mem.st.cost + k := by
  unfold Mem.applyResolve at h
  cases hm : mem.st.msgGet id with
  | none =>
      rw [hm] at h
      cases h
  | some m =>
      rw [hm] at h
      dsimp only at h
      split at h
      · cases h
      next hs =>
      split at h
      · cases h
      split at h
      · cases h
      next q hq =>
      cases h
      have hid := State.msgGet_id hm
      obtain ⟨rest, h1, h2⟩ := hperm mem.st q m m.core
        (by rw [hid]; exact State.coreGet_of_msgGet hm)
      have hcost := cost_of_perm h1 h2
      have hle := hupd m.core (not_not.mp hs)
      dsimp only
      omega

theorem Mem.applyLease_cost {id e l : UInt64}
    (h : mem.applyLease id e l = some mem') :
    mem'.st.cost ≤ mem.st.cost + 34 := by
  unfold Mem.applyLease at h
  split at h
  · cases h
  cases hm : mem.st.msgGet id with
  | none =>
      rw [hm] at h
      cases h
  | some m =>
      rw [hm] at h
      dsimp only at h
      split at h
      · cases h
      next hs =>
      split at h
      · cases h
      split at h
      · cases h
      next q hq =>
      cases h
      have hid := State.msgGet_id hm
      have hcore : mem.st.coreGet m.id = some m.core := by
        rw [hid]
        exact State.coreGet_of_msgGet hm
      obtain ⟨rest, h1, h2⟩ :=
        State.cores_replayLeaseState_perm q (l := l) (e := e) hcore
      have hcost := cost_of_perm h1 h2
      have hs : m.core.state = .pending := not_not.mp hs
      have hx : m.core.cost = m.core.pushSize := by
        unfold Msg.cost
        rw [hs]
      have hy : (m.core.leasedAs l e).cost = m.core.pushSize + 34 := rfl
      dsimp only
      omega

/-- One record pays for what it adds. -/
theorem Mem.apply_cost {e : Entry} (hroom : e.room ≤ 67109386)
    (h : mem.apply off e = some mem') :
    mem'.st.cost ≤ mem.st.cost + e.room := by
  cases e with
  | push id name data =>
      dsimp only [Mem.apply] at h
      split at h
      · cases h
      split at h
      · cases h
      cases h
      have hlen : (UInt32.ofNat data.length).toNat = data.length := by
        change 19 + name.bytes.length + data.length ≤ _ at hroom
        rw [UInt32.toNat_ofNat']
        omega
      rw [cost_of_perm_cons (State.cores_addMsg_perm mem.st _), Msg.cost_core]
      change _ + (19 + name.bytes.length +
        (UInt32.ofNat data.length).toNat) ≤ _
      rw [hlen]
      exact Nat.le_refl _
  | lease id e l =>
      exact Mem.applyLease_cost h
  | ack id l =>
      refine Mem.applyResolve_cost
        (fun st q m x => State.cores_replayAckState_perm q) ?_ h
      intro x hx
      have hy : x.asAcked.cost = x.pushSize + 34 + 26 := rfl
      have hc : x.cost = x.pushSize + 34 := by
        unfold Msg.cost
        rw [hx]
      rw [hy, hc]
      exact Nat.le_refl _
  | nack id l =>
      refine Mem.applyResolve_cost
        (fun st q m x => State.cores_replayNackState_perm q) ?_ h
      exact fun x hx => Msg.returned_cost hx
  | expire id l =>
      refine Mem.applyResolve_cost
        (fun st q m x => State.cores_replayNackState_perm q) ?_ h
      exact fun x hx => Msg.returned_cost hx
  | checkpoint nm nl =>
      cases h
      exact Nat.le_add_right _ _
  | padding =>
      cases h
      exact Nat.le_add_right _ _

/-- A log that is replayed to a state has paid for its messages. -/
theorem replayRecords_cost {rs : List Record}
    (h : replayRecords off rs mem = some mem') :
    mem'.st.cost ≤ mem.st.cost + (encodeLog rs).length := by
  induction rs generalizing off mem with
  | nil =>
      cases h
      exact Nat.le_add_right _ _
  | cons r rs ih =>
      obtain ⟨mem1, h1, h2⟩ := Option.bind_eq_some_iff.mp h
      obtain ⟨e, he, ha⟩ := Option.bind_eq_some_iff.mp h1
      have hroom := Record.room_le he
      have hsize : r.size = 10 + r.payload.length := rfl
      have hfits := r.fits
      have hone := Mem.apply_cost (by omega) ha
      have hrest := ih h2
      rw [encodeLog_cons, List.length_append, Record.length_encode]
      omega

end Lower

section Exact

theorem length_encodeLog_flatMap {α : Type} (f : α → List Record)
    (xs : List α) : (encodeLog (xs.flatMap f)).length =
      (xs.map fun x => (encodeLog (f x)).length).sum := by
  induction xs with
  | nil =>
      rfl
  | cons x xs ih =>
      rw [List.flatMap_cons, encodeLog_append, List.length_append,
        List.map_cons, List.sum_cons, ih]

theorem sum_filter_live (ms : List Msg) :
    ((ms.filter Msg.isLive).map Msg.keptSize).sum =
      (ms.map Msg.keptSize).sum := by
  induction ms with
  | nil =>
      rfl
  | cons m ms ih =>
      rw [List.filter_cons, List.map_cons, List.sum_cons, ← ih]
      by_cases hl : m.isLive = true
      · rw [if_pos hl, List.map_cons, List.sum_cons]
      · have h0 : m.keptSize = 0 := by
          unfold Msg.isLive at hl
          unfold Msg.keptSize
          cases hs : m.state <;> simp_all
        rw [if_neg hl, h0, Nat.zero_add]

/-- A compaction writes each live message once. -/
theorem State.Rep.jobs_perm {st : State} {pend : PendingLists}
    (h : st.Rep pend) : st.jobs.Perm (st.msgs.filter Msg.isLive) := by
  have hjobs : st.jobs.Nodup :=
    h.nodup_jobs.imp fun hne heq => hne (congrArg Msg.id heq)
  have hmsgs : (st.msgs.filter Msg.isLive).Nodup :=
    (h.placed.msgs.nodup_toList.of_map _).filter _
  rw [List.perm_ext_iff_of_nodup hjobs hmsgs]
  intro m
  rw [h.mem_jobs, List.mem_filter, h.mem_msgs]
  simp [Msg.isLive]

variable {v : View} {c : Content}

theorem length_jobRecords {s : UInt64} {rs : List Record} {m : Msg}
    (hloc : Located s rs m) (hs : m.state = .pending ∨ m.state = .leased) :
    (encodeLog (jobRecords s rs m)).length = m.keptSize := by
  have hdata : (bodyOf s rs m).data.length = m.dataLen.toNat := by
    rw [hloc.bodyOf_data, hloc.length_dataOf]
  have hpush : (compactPush s rs m).size = m.pushSize := by
    unfold Record.size compactPush pushRecord pushPayload Msg.pushSize
    simp [hdata]
    omega
  have hlease : (compactLease m).size = 34 := by
    simp [Record.size, compactLease, leaseRecord, leasePayload]
  unfold jobRecords Msg.keptSize
  rcases hs with hs | hs
  · rw [if_neg (by rw [hs]; decide), if_neg (by rw [hs]; decide), if_pos hs]
    simp [hpush]
  · rw [if_pos hs, if_pos hs]
    simp [hpush, hlease]

/-- The length of a compacted log. -/
theorem View.Wf.length_compactRecords (h : v.Wf c) (now : UInt64) :
    (encodeLog (v.compactRecords now)).length =
      34 + (v.mem.st.liveSize + 34 * v.mem.st.leasedNumber) := by
  have hrep := h.shows.rep
  have hck : (checkpointRecord now v.mem.nextMsgId v.mem.nextLeaseId).size =
      34 := by
    simp [Record.size, checkpointRecord, checkpointPayload]
  have hjobs : v.mem.st.jobs.map
      (fun m => (encodeLog (jobRecords v.start v.rs m)).length) =
      v.mem.st.jobs.map Msg.keptSize := by
    apply List.map_congr_left
    intro m hm
    obtain ⟨hget, hs⟩ := hrep.mem_jobs.mp hm
    exact length_jobRecords (h.located_msg m.id m hget) hs
  have hkept : (encodeLog (v.mem.st.jobs.flatMap
      (jobRecords v.start v.rs))).length =
      v.mem.st.liveSize + 34 * v.mem.st.leasedNumber := by
    rw [length_encodeLog_flatMap, hjobs,
      (hrep.jobs_perm.map Msg.keptSize).sum_eq, sum_filter_live]
    exact (State.kept_eq _).symm
  have hsnoc := congrArg List.length (encodeLog_snoc
    (v.mem.st.jobs.flatMap (jobRecords v.start v.rs))
    (checkpointRecord now v.mem.nextMsgId v.mem.nextLeaseId))
  rw [List.length_append, Record.length_encode, hkept, hck] at hsnoc
  rw [View.compactRecords_eq hrep, hsnoc]
  exact Nat.add_comm _ _

end Exact

section Reclaim

variable {w w' : World} {db db' : Db} {v : View} {c : Content} {mem : Mem}
variable {i i' : Nat} {now : UInt64}

/-- The end of the log after a compaction. -/
theorem Live.compacted_logEnd (h : v.Wf c)
    (hfit : Fits hdrSize (v.compactRecords now))
    (hlive : Live False w' db' (v.compacted now mem) i') :
    db'.logEndOffset.toNat =
      4096 + 34 + v.mem.st.liveSize + 34 * v.mem.st.leasedNumber := by
  have hend : db'.logEndOffset = logEndOf hdrSize (v.compactRecords now) :=
    hlive.logEnd
  rw [hend, toNat_logEndOf hfit, h.length_compactRecords,
    show hdrSize.toNat = 4096 from rfl]
  omega

/-- The log has paid for the messages of the handle. -/
theorem View.Stable.cost_le (h : v.Stable) (hlive : Live False w db v i) :
    4096 + v.mem.st.cost ≤ db.logEndOffset.toNat := by
  have hcost := replayRecords_cost h
  have hzero : (Mem.start v.mem.nextMsgId).st.cost = 0 := by
    change ((Table.toList (Table.empty : Table 1024 Msg)).map Msg.cost).sum = 0
    rw [Table.toList_empty]
    rfl
  have hlower : 4096 ≤ v.start.toNat := Begins.lower hlive.content
  rw [hlive.toNat_logEnd]
  omega

/-- With an acknowledged message a compaction makes the log shorter. -/
theorem Live.compacted_lt (h : v.Inv c) (hlive : Live False w db v i)
    (hfit : Fits hdrSize (v.compactRecords now))
    (hlive' : Live False w' db' (v.compacted now mem) i') {m : Msg}
    (hm : m ∈ v.mem.st.msgs) (hs : m.state = .acked) :
    db'.logEndOffset < db.logEndOffset := by
  have hnew := Live.compacted_logEnd h.wf hfit hlive'
  have hold := h.stable.cost_le hlive
  have hlt := State.kept_lt_cost hm hs
  have hkept := State.kept_eq v.mem.st.msgs
  have hsize : v.mem.st.liveSize + 34 * v.mem.st.leasedNumber + 80 ≤
      v.mem.st.cost := by
    unfold State.liveSize State.leasedNumber State.cost
    omega
  rw [UInt64.lt_iff_toNat_lt]
  omega

theorem sum_zeros {xs : List UInt64} (h : ∀ x ∈ xs, x = 0) : xs.sum = 0 := by
  induction xs with
  | nil =>
      rfl
  | cons x xs ih =>
      rw [List.sum_cons, h x (List.mem_cons_self ..),
        ih fun y hy => h y (List.mem_cons_of_mem x hy)]
      rfl

/-- A recommendation is made only where a message has been acknowledged. -/
theorem exists_acked_of_recommended {st : State} {pend : PendingLists}
    (hrep : st.Rep pend) (hst : db.state = some st)
    (hrec : Prog.run posix (qdbCompactRecommended db true) w =
      some ((.ok, some true), w')) : ∃ m ∈ st.msgs, m.state = .acked := by
  obtain ⟨sz, hstats⟩ := run_qdbStats w hst
  by_contra hno
  have hzero : (st.queues.map (·.stats.ackedCount)).sum = 0 := by
    apply sum_zeros
    intro x hx
    obtain ⟨q, hq, rfl⟩ := List.mem_map.mp hx
    have hcount := hrep.ackedCount q.name
    rw [State.queueOr_of_get (hrep.mem_queues.mp hq)] at hcount
    have htally : st.tally .acked q.name = 0 := by
      unfold State.tally State.cores
      rw [List.countP_eq_zero]
      intro x hx hs
      obtain ⟨m, hm, rfl⟩ := List.mem_map.mp hx
      exact hno ⟨m, hm, (of_decide_eq_true hs).1⟩
    rw [htally] at hcount
    change q.ackedCount.toUInt64 = 0
    rw [hcount]
    rfl
  unfold qdbCompactRecommended at hrec
  rw [if_neg (by simp), Prog.run_bind, hstats, Option.bind_some, hzero] at hrec
  simp at hrec

/-- A successful compaction has an exact size, and makes the log shorter when
a message has been acknowledged. -/
theorem compact_size {as : List Act} {s s' : Sys} {now : UInt64}
    (hrun : Run Sys.CountedReturns Sys.init as s) (hn : s.Counting)
    (hs : s.step ⟨now, .compact⟩ = some (.code .ok, s')) :
    ∃ db db' st, s.db = some db ∧ s'.db = some db' ∧ db.state = some st ∧
      db'.logEndOffset.toNat =
        4096 + 34 + st.liveSize + 34 * st.leasedNumber ∧
      ((∃ m ∈ st.msgs, m.state = .acked) →
        db'.logEndOffset < db.logEndOffset) ∧
      ∀ w w', Prog.run posix (qdbCompactRecommended db true) w =
        some ((.ok, some true), w') → db'.logEndOffset < db.logEndOffset := by
  obtain ⟨b, hb⟩ := Sys.recounts hrun
  obtain ⟨v, c, mem, db, db', i, i', rfl, hinv, -, -, hfit, hdb, hlive, hdb',
    hlive'⟩ := hb.shows.compact_views hn hs
  have hless : (∃ m ∈ v.mem.st.msgs, m.state = .acked) →
      db'.logEndOffset < db.logEndOffset := by
    rintro ⟨m, hm, hack⟩
    exact Live.compacted_lt hinv hlive hfit hlive' hm hack
  refine ⟨db, db', v.mem.st, hdb, hdb', hlive.state,
    Live.compacted_logEnd hinv.wf hfit hlive', hless, ?_⟩
  intro w w' hrec
  exact hless (exists_acked_of_recommended hinv.wf.shows.rep hlive.state hrec)

/-- A compaction with an acknowledged, a leased and a pending message. -/
theorem compact_size_reclaimed : ∃ s s' db db' st,
    Run Sys.CountedReturns Sys.init reclaimActs s ∧
      s.step ⟨0, .compact⟩ = some (.code .ok, s') ∧
      s.db = some db ∧ s'.db = some db' ∧ db.state = some st ∧
      (∃ m ∈ st.msgs, m.state = .acked) ∧
      db'.logEndOffset.toNat =
        4096 + 34 + st.liveSize + 34 * st.leasedNumber ∧
      db'.logEndOffset < db.logEndOffset := by
  obtain ⟨s, hrun, hs, hacked⟩ := exists_reclaim
  obtain ⟨s', ⟨hn, hret⟩, -⟩ := hs.reclaims
  obtain ⟨db, db', st, hdb, hdb', hst, hsize, hless, -⟩ :=
    compact_size hrun hn hret.inv.2
  have hack := hacked db st hdb hst
  exact ⟨s, s', db, db', st, hrun, hret.inv.2, hdb, hdb', hst, hack, hsize,
    hless hack⟩

end Reclaim

section Zero

variable {st : State} {pend : PendingLists} {m : Msg} {q : Queue}

/-- A message with the id zero leaves all other messages as they are. -/
theorem State.Rep.msgGet_add_zero (h : st.Rep pend) (hm : m.id = 0)
    (hq : st.queueGet m.queueName = some q) {id : UInt64} (hid : id ≠ 0) :
    (st.addMsg m).msgGet id = st.msgGet id := by
  have hne : m.id ≠ id := by
    rw [hm]
    exact hid.symm
  have hname := queueGet_name hq
  have hlink := h.lists.linked m.queueName
  rw [queueOr_of_get hq] at hlink
  rw [addMsg_of_some hq, msgGet_queuePendingAppend, msgGet_msgInsert,
    if_neg hne]
  cases hx : st.msgGet id with
  | none =>
      rfl
  | some x =>
      rw [Option.map_some, hm, if_neg hid]
      by_cases ht : q.pendingTail ≠ 0 ∧ id = q.pendingTail
      · have hnext : st.nextOf id = 0 := by
          rcases (pend m.queueName).eq_nil_or_concat' with h0 | ⟨ys, y, h0⟩
          · have htail := hlink.tail_eq
            rw [h0] at htail
            exact absurd htail ht.1
          · have hseg := hlink.segment
            have htail := hlink.tail_eq
            rw [h0] at hseg htail
            have hy : q.pendingTail = y := by simpa using htail
            rw [ht.2, hy]
            exact (Linked.segment_snoc.mp hseg).2.2
        rw [nextOf_of_get hx] at hnext
        rw [if_pos ht, if_neg hid, ← hnext]
      · rw [if_neg ht, if_neg hid]

theorem State.queues_names_modify (st : State) (n : QueueName)
    {f : Queue → Queue} (hf : ∀ x, (f x).name = x.name) :
    (st.modifyQueue n f).queues.map Queue.name =
      st.queues.map Queue.name := by
  unfold State.queues State.modifyQueue Table.toList Table.modify
  rw [List.map_flatMap, List.map_flatMap]
  apply List.flatMap_congr
  intro b _
  by_cases hb : b = queueBucket n
  · subst hb
    simp only [Function.update_self]
    exact State.map_modifyFirst _ _ _ hf _
  · simp only [Function.update_of_ne hb]

theorem State.queues_names_append (st : State) (q : Queue) (m : Msg) :
    (st.queuePendingAppend q m).queues.map Queue.name =
      st.queues.map Queue.name := by
  unfold State.queuePendingAppend
  dsimp only
  refine (State.queues_names_modify _ _ (by intro x; rfl)).trans ?_
  split
  · rfl
  · exact State.queues_names_modify _ _ (by intro x; rfl)

/-- The lists are walked as before. -/
theorem State.Rep.walkable_add_zero (h : st.Rep pend) (hm : m.id = 0)
    (hq : st.queueGet m.queueName = some q) :
    (st.addMsg m).Walkable pend := by
  have hget : ∀ id : UInt64, id ≠ 0 →
      (st.addMsg m).msgGet id = st.msgGet id :=
    fun id hid => h.msgGet_add_zero hm hq hid
  have hzero : ∀ n, ∀ id ∈ pend n, id ≠ 0 := by
    rintro n id hid rfl
    exact (h.lists.linked n).sentinel hid
  have hnone : st.msgGet m.id = none := by
    rw [hm, ← coreGet_eq_none]
    cases hx : st.coreGet 0 with
    | none =>
        rfl
    | some x =>
        exact absurd rfl (h.id_ne_zero 0 x hx)
  have hplaced := h.placed.addMsg hnone
  refine ⟨fun x hx => hplaced.queues.mem_iff.mp hx, ?_, ?_,
    h.walkable.sentinel, ?_, ?_, ?_⟩
  · intro n
    rw [← h.walkable.head n]
    unfold queueOr
    rw [queueGet_addMsg]
    by_cases hn : n = m.queueName
    · subst hn
      have hlink := h.lists.linked m.queueName
      rw [if_pos rfl, Option.getD_some, ← queueOr]
      change (if _ = 0 then m.id else _) = _
      by_cases ht : (st.queueOr m.queueName).pendingTail = 0
      · rw [if_pos ht, hm, hlink.head_eq,
          hlink.tail_eq_sentinel_iff.mp ht]
        rfl
      · rw [if_neg ht]
    · rw [if_neg hn]
  · intro n
    refine Linked.segment_congr ?_ ?_ (h.walkable.segment n)
    · intro id hid
      unfold nextOf
      rw [hget id (hzero n id hid)]
    · intro id hid
      unfold prevOf
      rw [hget id (hzero n id hid)]
  · intro n
    have hlen := (cores_addMsg_perm st m).length_eq
    unfold cores at hlen
    rw [List.length_map, List.length_cons, List.length_map] at hlen
    have hle := h.length_le n
    omega
  · intro n id hid
    rw [hget id (hzero n id hid)]
    exact h.walkable.stored n id hid
  · intro l hl
    have hl' : st.leaseGet l.leaseId = some l := by
      rw [← leaseGet_addMsg st m]
      exact hplaced.leases.mem_iff.mp hl
    have hsome := h.walkable.leased l (h.mem_leases.mpr hl')
    obtain ⟨x, hx, -⟩ := h.msg_of_lease _ _ hl'
    rw [hget l.msgId (h.id_ne_zero _ x hx)]
    exact hsome

/-- A compaction does not see a message with the id zero. -/
theorem View.compactRecords_add_zero {v : View} (h : st.Rep pend)
    (hm : m.id = 0) (hq : st.queueGet m.queueName = some q)
    (hst : v.mem.st = st.addMsg m) (now : UInt64) :
    v.compactRecords now = View.compactRecords
      { v with mem := { v.mem with st := st } } now := by
  have hget : ∀ id : UInt64, id ≠ 0 →
      (st.addMsg m).msgGet id = st.msgGet id :=
    fun id hid => h.msgGet_add_zero hm hq hid
  have hids := (h.walkable_add_zero hm hq).pendingIds_eq
  have hnames : (st.addMsg m).queues.map Queue.name =
      st.queues.map Queue.name := by
    rw [State.Rep.addMsg_of_some hq, State.queues_names_append]
    rfl
  have hleases : (st.addMsg m).leases = st.leases := by
    rw [State.Rep.addMsg_of_some hq]
    unfold State.leases
    rw [State.leaseBuckets_queuePendingAppend]
    rfl
  have hpend : pendingRecords v.start v.rs (st.addMsg m) (st.addMsg m).queues =
      pendingRecords v.start v.rs st st.queues := by
    have hmap : ∀ st' : State, pendingRecords v.start v.rs st' st'.queues =
        (st'.queues.map Queue.name).flatMap fun n =>
          pushesOf v.start v.rs st' (st'.pendingIds n) := by
      intro st'
      rw [List.flatMap_map]
      rfl
    rw [hmap, hmap, hnames]
    apply List.flatMap_congr
    intro n _
    rw [hids, h.pendingIds_eq]
    unfold pushesOf
    apply List.filterMap_congr
    intro id hid
    rw [hget id]
    rintro rfl
    exact (h.lists.linked n).sentinel hid
  have hlease : ∀ l ∈ st.leases, leaseRecords v.start v.rs (st.addMsg m) l =
      leaseRecords v.start v.rs st l := by
    intro l hl
    obtain ⟨x, hx, -⟩ := h.msg_of_lease _ _ (h.mem_leases.mp hl)
    unfold leaseRecords
    rw [hget l.msgId (h.id_ne_zero _ x hx)]
  unfold View.compactRecords
  dsimp only
  rw [hst, hpend, hleases, List.flatMap_congr hlease]

theorem keptSize_add (st : State) (m : Msg) :
    (st.addMsg m).liveSize + 34 * (st.addMsg m).leasedNumber =
      m.keptSize + (st.liveSize + 34 * st.leasedNumber) := by
  have hcores : ∀ st' : State, st'.liveSize + 34 * st'.leasedNumber =
      (st'.cores.map Msg.keptSize).sum := by
    intro st'
    unfold State.cores
    rw [List.map_map]
    exact State.kept_eq st'.msgs
  rw [hcores, hcores, ((State.cores_addMsg_perm st m).map Msg.keptSize).sum_eq,
    List.map_cons, List.sum_cons]
  rfl

/-- The message that the next push of a round adds. -/
def View.roundMsg (v : View) : Msg :=
  newMsg v.mem.nextMsgId (v.logEnd + recHdrSize + 9 + roundName.len.toUInt64)
    (UInt32.ofNat 0) roundName

/-- The view once that message has been pushed under the id zero. -/
def View.zeroPushed (v : View) : View :=
  v.log (pushRecord 0 roundBody) (v.pushed roundBody)

/-- The same view with the tables from before the push. -/
def View.withoutZero (v : View) : View :=
  { v.zeroPushed with mem := { v.zeroPushed.mem with st := v.mem.st } }

/-- Every message, the one with the id zero included, has its data in the
log. -/
theorem View.Wf.located_zero {v : View} {c : Content} (h : v.Wf c)
    (hzero : v.mem.nextMsgId = 0) (hq : v.mem.st.queueGet roundName = some q)
    (hfit : v.zeroPushed.Fits) (id : UInt64) (x : Msg)
    (hx : v.zeroPushed.mem.st.msgGet id = some x) :
    Located v.zeroPushed.start v.zeroPushed.rs x := by
  by_cases hid : id = 0
  · subst hid
    have hcore := State.coreGet_of_msgGet hx
    have hadd := State.coreGet_addMsg v.mem.st v.roundMsg 0
    have heq := Option.some.inj
      (((if_pos hzero).symm.trans hadd.symm).trans hcore)
    have hloc := (located_push (entry_pushRecord 0 roundBody) hfit).1
    exact hloc.of_fields (congrArg Msg.dataFileOffset heq).symm
      (congrArg Msg.dataLen heq).symm (congrArg Msg.queueName heq).symm
  · have hget : v.zeroPushed.mem.st.msgGet id = v.mem.st.msgGet id :=
      h.shows.rep.msgGet_add_zero (m := v.roundMsg) hzero hq hid
    rw [hget] at hx
    exact (h.located_msg id x hx).append _

/-- The message pushed under the id zero is not part of the compacted log. -/
theorem compact_loses_zero :
    ¬ ∀ as s s' now, Run Sys.Returns Sys.init as s →
      s.step ⟨now, .compact⟩ = some (.code .ok, s') →
      ∀ db db' st, s.db = some db → s'.db = some db' → db.state = some st →
        db'.logEndOffset.toNat =
          4096 + 34 + st.liveSize + 34 * st.leasedNumber := by
  intro hall
  obtain ⟨s, v, c, hrun, his, hinv, hzero, hjobs, hname⟩ :=
    exists_zero_push 0 0
  obtain ⟨q, hq⟩ := Option.isSome_iff_exists.mp hname
  obtain ⟨db, i, hdb, hlive⟩ := his
  change Live False s.world db v.zeroPushed i at hlive
  have hrep := hinv.wf.shows.rep
  have hwf : v.withoutZero.Wf c :=
    ⟨hinv.wf.shows, fun id x hx => (hinv.wf.located id x hx).append _⟩
  have hrecs : v.zeroPushed.compactRecords 0 =
      v.withoutZero.compactRecords 0 :=
    View.compactRecords_add_zero (m := v.roundMsg) hrep hzero hq rfl 0
  have hlen := hwf.length_compactRecords 0
  have hfit : Fits hdrSize (v.zeroPushed.compactRecords 0) := by
    have hmx := maxFileSize_eq
    have hshort := hwf.compactRecords_short 0
    have hmul := Nat.mul_le_mul_right maxRecord
      (Nat.add_le_add_right (Nat.mul_le_mul_left 2 hjobs) 1)
    have hmr : maxRecord = 67109386 := rfl
    right
    rw [hrecs, show hdrSize.toNat = 4096 from rfl]
    refine le_trans (Nat.add_le_add_left (le_trans hshort hmul) _) ?_
    rw [hmr]
    omega
  obtain ⟨mem, d, hmem, -⟩ := hwf.compact 0
  have hlive0 : Live False { s.world with now := 0 } db v.zeroPushed i :=
    hlive.transport rfl rfl rfl (Nat.le_refl _) rfl rfl
  have hwalk : v.zeroPushed.mem.st.Walkable c.pend :=
    hrep.walkable_add_zero (m := v.roundMsg) hzero hq
  rw [← hrecs] at hmem
  obtain ⟨x, w', hrun', hend⟩ := (wp_qdbCompact hlive0 hwalk
    (hinv.wf.located_zero hzero hq hlive.fits) hmem).run (faulty_posix False)
  rcases hend with ⟨-, hF | hno, -⟩ | ⟨db', rfl, hlive'⟩ | ⟨hF, -⟩
  · exact hF
  · exact hno hfit
  · have hstep : s.step ⟨0, .compact⟩ = some (.code .ok, ⟨w', some db'⟩) := by
      rw [Sys.step, hdb, hrun']
      rfl
    have hsize := hall _ s _ 0 hrun hstep db db' _ hdb rfl hlive.state
    have hlog : db'.logEndOffset =
        logEndOf hdrSize (v.zeroPushed.compactRecords 0) := hlive'.logEnd
    have hkept : v.zeroPushed.mem.st.liveSize +
        34 * v.zeroPushed.mem.st.leasedNumber =
        20 + (v.mem.st.liveSize + 34 * v.mem.st.leasedNumber) :=
      keptSize_add v.mem.st v.roundMsg
    have hold : v.withoutZero.mem.st = v.mem.st := rfl
    rw [hlog, toNat_logEndOf hfit, hrecs, hlen, hold,
      show hdrSize.toNat = 4096 from rfl] at hsize
    omega
  · exact hF

end Zero

end Qdb
