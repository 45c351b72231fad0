import Qdb.CompactSpec
import Qdb.ViewInvariant

/-!
# The log a compaction writes

The records of a compaction are those of a list of jobs: every live message
once, pending ones as a PUSH, leased ones as a PUSH with a LEASE.  `Built` says
what the content is once some of the jobs are done; it is carried along the list
of jobs, and at the end gives the pending lists, the leases and the messages of
the compacted database.
-/

namespace Qdb

open Lib

/-- The records of a live message. -/
def jobRecords (s : UInt64) (rs : List Record) (m : Msg) : List Record :=
  if m.state = .leased then [compactPush s rs m, compactLease m]
  else [compactPush s rs m]

/-- The copy `y` of the message `x` in the log `out`. -/
structure Copy (s : UInt64) (rs out : List Record) (x y : Msg) : Prop where
  id : y.id = x.id
  queueName : y.queueName = x.queueName
  state : y.state = x.state
  leaseId : y.leaseId = x.leaseId
  expiry : y.leaseExpiryUs = x.leaseExpiryUs
  retry : y.retryCount = 0
  place : ∃ out₀ out₁, out = out₀ ++ [compactPush s rs x] ++ out₁ ∧
    y.dataFileOffset =
      logEndOf hdrSize out₀ + recHdrSize + 9 + x.queueName.len.toUInt64 ∧
    y.dataLen = UInt32.ofNat (bodyOf s rs x).data.length

theorem Copy.append {s : UInt64} {rs out : List Record} {x y : Msg}
    (h : Copy s rs out x y) (out' : List Record) : Copy s rs (out ++ out') x y :=
  { h with
    place := by
      obtain ⟨out₀, out₁, rfl, ho, hl⟩ := h.place
      exact ⟨out₀, out₁ ++ out', by simp, ho, hl⟩ }

/-- The copy has the same data. -/
theorem Copy.data {s : UInt64} {rs out : List Record} {x y : Msg} (h : Copy s rs out x y)
    (hx : Located s rs x) (hfit : Fits hdrSize out) :
    Located hdrSize out y ∧ dataOf hdrSize out y = dataOf s rs x := by
  obtain ⟨out₀, out₁, rfl, ho, hl⟩ := h.place
  have hfit₀ : Fits hdrSize (out₀ ++ [compactPush s rs x]) := hfit.of_append
  have hentry : (compactPush s rs x).entry =
      some (.push x.id x.queueName (bodyOf s rs x).data) := by
    rw [compactPush, entry_pushRecord, bodyOf_name]
  obtain ⟨hloc, hdata⟩ := located_push hentry hfit₀
  have hy : Located hdrSize (out₀ ++ [compactPush s rs x]) y :=
    hloc.of_fields ho hl h.queueName
  refine ⟨hy.append out₁, ?_⟩
  rw [hy.dataOf_append, ← hx.bodyOf_data, ← hdata]
  unfold dataOf
  rw [ho, hl]
  rfl

/-- The content once the messages `done` have been written to `out`. -/
structure Built (s : UInt64) (rs : List Record) (done : List Msg) (out : List Record)
    (d : Content) : Prop where
  accepts : replayContent hdrSize out Content.empty = some d
  copy : ∀ x ∈ done, ∃ y, d.msg x.id = some y ∧ Copy s rs out x y
  absent : ∀ id, (∀ x ∈ done, x.id ≠ id) → d.msg id = none
  lease : ∀ l e, d.lease l = some e ↔ ∃ x ∈ done, x.state = .leased ∧
    x.leaseId = l ∧ e = ⟨x.leaseId, x.id, x.leaseExpiryUs⟩
  pend : ∀ n, d.pend n = (done.filter fun x =>
    decide (x.state = .pending ∧ x.queueName = n)).map Msg.id

namespace Built

variable {s : UInt64} {rs out : List Record} {done : List Msg} {d : Content} {x : Msg}

theorem nil (s : UInt64) (rs : List Record) :
    Built s rs [] [] Content.empty where
  accepts := rfl
  copy := by simp
  absent := fun _ _ => rfl
  lease := by simp [Content.empty]
  pend := by simp [Content.empty]

theorem logEnd_eq (out : List Record) :
    hdrSize + UInt64.ofNat (encodeLog out).length = logEndOf hdrSize out :=
  rfl

/-- The PUSH record of a message that is not there yet. -/
theorem push_effect (h : Built s rs done out d) (hz : x.id ≠ 0)
    (hnew : ∀ y ∈ done, y.id ≠ x.id) :
    replayContent hdrSize (out ++ [compactPush s rs x]) Content.empty =
      some (d.addMsg (newMsg x.id
        (logEndOf hdrSize out + recHdrSize + 9 + x.queueName.len.toUInt64)
        (UInt32.ofNat (bodyOf s rs x).data.length) x.queueName)) := by
  rw [replayContent_append, h.accepts, Option.bind_some,
    replayContent_singleton, logEnd_eq, Record.effect, compactPush,
    entry_pushRecord, Option.bind_some, bodyOf_name]
  exact Content.apply_push.mpr ⟨hz, h.absent x.id hnew, rfl⟩

/-- A pending message is written. -/
theorem pending (h : Built s rs done out d) (hz : x.id ≠ 0)
    (hnew : ∀ y ∈ done, y.id ≠ x.id) (hs : x.state = .pending)
    (hl : x.leaseId = 0 ∧ x.leaseExpiryUs = 0) :
    ∃ d', Built s rs (done ++ [x]) (out ++ [compactPush s rs x]) d' := by
  refine ⟨_, h.push_effect hz hnew, ?_, ?_, ?_, ?_⟩
  · intro y hy
    rcases List.mem_append.mp hy with hy | hy
    · obtain ⟨y', hy', hcopy⟩ := h.copy y hy
      refine ⟨y', ?_, hcopy.append _⟩
      exact (Function.update_of_ne (hnew y hy) _ _).trans hy'
    · rw [List.mem_singleton] at hy
      subst hy
      refine ⟨_, Function.update_self .., ?_⟩
      exact
        { id := rfl
          queueName := rfl
          state := hs.symm
          leaseId := hl.1.symm
          expiry := hl.2.symm
          retry := rfl
          place := ⟨out, [], by simp, rfl, rfl⟩ }
  · intro id hid
    have hne : id ≠ x.id := fun he => hid x (by simp) he.symm
    exact (Function.update_of_ne hne _ _).trans
      (h.absent id (fun y hy => hid y (by simp [hy])))
  · intro l e
    change d.lease l = some e ↔ _
    rw [h.lease]
    constructor
    · rintro ⟨y, hy, hrest⟩
      exact ⟨y, by simp [hy], hrest⟩
    · rintro ⟨y, hy, hys, hrest⟩
      rcases List.mem_append.mp hy with hy | hy
      · exact ⟨y, hy, hys, hrest⟩
      · rw [List.mem_singleton] at hy
        subst hy
        rw [hs] at hys
        cases hys
  · intro n
    by_cases hn : n = x.queueName
    · subst hn
      refine (Function.update_self ..).trans ?_
      change d.pend x.queueName ++ [x.id] = _
      rw [h.pend, List.filter_append, List.map_append]
      simp [hs]
    · refine (Function.update_of_ne hn _ _).trans ?_
      rw [h.pend, List.filter_append, List.map_append]
      simp [Ne.symm hn]

/-- The LEASE record of a message that has just been pushed. -/
theorem lease_effect {c : Content} {m : Msg} {e l : UInt64} {off : UInt64}
    (hl : l ≠ 0) (hfree : c.lease l = none) (hs : m.state = .pending) :
    (leaseRecord m.id e l).effect off (c.addMsg m) =
      some ((c.addMsg m).leaseMsg m l e) := by
  have hm : (c.addMsg m).leasable m.id l = some m :=
    Content.leasable_eq_some.mpr
      ⟨hl, hfree, Function.update_self .., hs⟩
  rw [Record.effect, entry_leaseRecord, Option.bind_some]
  change ((c.addMsg m).leasable m.id l).map _ = _
  rw [hm]
  rfl

/-- A leased message is written. -/
theorem leased (h : Built s rs done out d) (hz : x.id ≠ 0)
    (hnew : ∀ y ∈ done, y.id ≠ x.id) (hs : x.state = .leased)
    (hl : x.leaseId ≠ 0)
    (hfree : ∀ y ∈ done, y.state = .leased → y.leaseId ≠ x.leaseId) :
    ∃ d', Built s rs (done ++ [x])
      (out ++ [compactPush s rs x, compactLease x]) d' := by
  have hout : out ++ [compactPush s rs x, compactLease x] =
      (out ++ [compactPush s rs x]) ++ [compactLease x] := by
    simp
  have hpush := h.push_effect hz hnew
  obtain ⟨m, hm⟩ : ∃ m, m = newMsg x.id
      (logEndOf hdrSize out + recHdrSize + 9 + x.queueName.len.toUInt64)
      (UInt32.ofNat (bodyOf s rs x).data.length) x.queueName := ⟨_, rfl⟩
  rw [← hm] at hpush
  have hmid : m.id = x.id := by rw [hm]; rfl
  have hmq : m.queueName = x.queueName := by rw [hm]; rfl
  have hnone : d.lease x.leaseId = none := by
    cases hd : d.lease x.leaseId with
    | none =>
        rfl
    | some e =>
        obtain ⟨y, hy, hys, hyl, -⟩ := (h.lease _ _).mp hd
        exact absurd hyl (hfree y hy hys)
  have haccepts : replayContent hdrSize
      (out ++ [compactPush s rs x, compactLease x]) Content.empty =
      some ((d.addMsg m).leaseMsg m x.leaseId x.leaseExpiryUs) := by
    rw [hout, replayContent_append, hpush, Option.bind_some,
      replayContent_singleton, compactLease, ← hmid]
    exact lease_effect hl hnone (by rw [hm]; rfl)
  have hmsg : ∀ id, id ≠ x.id →
      ((d.addMsg m).leaseMsg m x.leaseId x.leaseExpiryUs).msg id =
        d.msg id := by
    intro id hne
    rw [← hmid] at hne
    exact (Function.update_of_ne hne _ _).trans (Function.update_of_ne hne _ _)
  refine ⟨_, haccepts, ?_, ?_, ?_, ?_⟩
  · intro y hy
    rcases List.mem_append.mp hy with hy | hy
    · obtain ⟨y', hy', hcopy⟩ := h.copy y hy
      exact ⟨y', (hmsg y.id (hnew y hy)).trans hy', hcopy.append _⟩
    · rw [List.mem_singleton] at hy
      subst hy
      refine ⟨m.leasedAs y.leaseId y.leaseExpiryUs, ?_, ?_⟩
      · rw [← hmid]
        exact Function.update_self ..
      · exact
          { id := hmid
            queueName := hmq
            state := hs.symm
            leaseId := rfl
            expiry := rfl
            retry := by rw [hm]; rfl
            place := by
              refine ⟨out, [compactLease y], by simp, ?_, ?_⟩
              · rw [hm]
                rfl
              · rw [hm]
                rfl }
  · intro id hid
    have hne : id ≠ x.id := fun he => hid x (by simp) he.symm
    rw [hmsg id hne]
    exact h.absent id (fun y hy => hid y (by simp [hy]))
  · intro l e
    by_cases hll : l = x.leaseId
    · subst hll
      have hself : ((d.addMsg m).leaseMsg m x.leaseId x.leaseExpiryUs).lease
          x.leaseId = some ⟨x.leaseId, m.id, x.leaseExpiryUs⟩ :=
        Function.update_self ..
      rw [hself, hmid]
      constructor
      · intro he
        exact ⟨x, by simp, hs, rfl, (Option.some.inj he).symm⟩
      · rintro ⟨y, hy, hys, hyl, rfl⟩
        rcases List.mem_append.mp hy with hy | hy
        · exact absurd hyl (hfree y hy hys)
        · rw [List.mem_singleton] at hy
          rw [hy]
    · have hother : ((d.addMsg m).leaseMsg m x.leaseId x.leaseExpiryUs).lease
          l = d.lease l := Function.update_of_ne hll _ _
      rw [hother, h.lease]
      constructor
      · rintro ⟨y, hy, hrest⟩
        exact ⟨y, by simp [hy], hrest⟩
      · rintro ⟨y, hy, hys, hyl, he⟩
        rcases List.mem_append.mp hy with hy | hy
        · exact ⟨y, hy, hys, hyl, he⟩
        · rw [List.mem_singleton] at hy
          subst hy
          exact absurd hyl.symm hll
  · intro n
    have hfil : (done ++ [x]).filter (fun y =>
        decide (y.state = .pending ∧ y.queueName = n)) =
        done.filter (fun y =>
          decide (y.state = .pending ∧ y.queueName = n)) := by
      rw [List.filter_append]
      simp [hs]
    rw [hfil, ← h.pend]
    by_cases hn : n = x.queueName
    · have hnot : m.id ∉ d.pend n := by
        rw [h.pend, hmid]
        intro hmem
        obtain ⟨y, hy, hyx⟩ := List.mem_map.mp hmem
        exact hnew y (List.mem_of_mem_filter hy) hyx
      rw [← hmq] at hn
      subst hn
      refine (Function.update_self ..).trans ?_
      have hp : (d.addMsg m).pend m.queueName =
          d.pend m.queueName ++ [m.id] := Function.update_self ..
      rw [hp, List.erase_append_right _ hnot]
      simp
    · rw [← hmq] at hn
      exact (Function.update_of_ne hn _ _).trans
        (Function.update_of_ne hn _ _)

/-- A message a compaction writes: pending, or held under a lease. -/
def Job (x : Msg) : Prop :=
  x.id ≠ 0 ∧
    ((x.state = .pending ∧ x.leaseId = 0 ∧ x.leaseExpiryUs = 0) ∨
      (x.state = .leased ∧ x.leaseId ≠ 0))

/-- Two messages that may both be written. -/
def Apart (x y : Msg) : Prop :=
  x.id ≠ y.id ∧
    (x.state = .leased → y.state = .leased → x.leaseId ≠ y.leaseId)

/-- All the jobs of a compaction. -/
theorem jobs (h : Built s rs done out d) {xs : List Msg}
    (hjob : ∀ x ∈ xs, Job x)
    (hapart : (done ++ xs).Pairwise Apart) :
    ∃ d', Built s rs (done ++ xs) (out ++ xs.flatMap (jobRecords s rs)) d' := by
  induction xs generalizing done out d with
  | nil =>
      exact ⟨d, by simpa using h⟩
  | cons x xs ih =>
      have happ : (done ++ [x] ++ xs).Pairwise Apart := by
        simpa using hapart
      have hx : ∀ y ∈ done, Apart y x := by
        intro y hy
        exact (List.pairwise_append.mp hapart).2.2 y hy x (by simp)
      have hone : ∃ d', Built s rs (done ++ [x]) (out ++ jobRecords s rs x) d' := by
        obtain ⟨hz, hs | hs⟩ := hjob x (by simp)
        · rw [jobRecords, if_neg (by rw [hs.1]; decide)]
          exact h.pending hz (fun y hy => (hx y hy).1) hs.1 hs.2
        · rw [jobRecords, if_pos hs.1]
          exact h.leased hz (fun y hy => (hx y hy).1) hs.1 hs.2
            (fun y hy hys => (hx y hy).2 hys hs.1)
      obtain ⟨d1, h1⟩ := hone
      obtain ⟨d', h'⟩ := ih h1 (fun y hy => hjob y (by simp [hy])) happ
      refine ⟨d', ?_⟩
      simpa using h'

end Built

/-- The pending messages of a queue, in list order. -/
def State.pendingMsgs (st : State) (n : QueueName) : List Msg :=
  (st.pendingIds n).filterMap st.msgGet

/-- The messages held under a lease. -/
def State.leasedMsgs (st : State) : List Msg :=
  st.leases.filterMap fun l => st.msgGet l.msgId

/-- The live messages in the order a compaction writes them. -/
def State.jobs (st : State) : List Msg :=
  (st.queues.flatMap fun q => st.pendingMsgs q.name) ++ st.leasedMsgs

namespace State.Rep

variable {st : State} {pend : PendingLists}

theorem get_of_mem_pend (h : Rep st pend) {n : QueueName} {id : UInt64}
    (hid : id ∈ pend n) :
    ∃ m, st.msgGet id = some m ∧ m.id = id ∧ m.queueName = n ∧
      m.state = .pending := by
  obtain ⟨x, hx, hn⟩ := h.lists.stored n id hid
  obtain ⟨m, hm, rfl⟩ := coreGet_some hx
  have hn : m.queueName = n := hn
  refine ⟨m, hm, msgGet_id hm, hn, ?_⟩
  have hid' : id ∈ pend m.core.queueName := by
    rw [show m.core.queueName = n from hn]
    exact hid
  exact (h.pending_mem id m.core hx).mp hid'

theorem mem_pendingMsgs (h : Rep st pend) {n : QueueName} {m : Msg} :
    m ∈ st.pendingMsgs n ↔
      st.msgGet m.id = some m ∧ m.queueName = n ∧ m.state = .pending := by
  unfold pendingMsgs
  rw [h.pendingIds_eq, List.mem_filterMap]
  constructor
  · rintro ⟨id, hid, hm⟩
    obtain ⟨m', hm', hid', hn, hs⟩ := h.get_of_mem_pend hid
    rw [hm'] at hm
    cases hm
    exact ⟨by rw [hid']; exact hm', hn, hs⟩
  · rintro ⟨hm, rfl, hs⟩
    exact ⟨m.id, (h.pending_mem m.id m.core (coreGet_of_msgGet hm)).mpr hs, hm⟩

theorem map_id_pendingMsgs (h : Rep st pend) (n : QueueName) :
    (st.pendingMsgs n).map Msg.id = pend n := by
  unfold pendingMsgs
  rw [h.pendingIds_eq, List.map_filterMap]
  have hsome : ∀ id ∈ pend n, (st.msgGet id).map Msg.id = some id := by
    intro id hid
    obtain ⟨m, hm, hmid, -⟩ := h.get_of_mem_pend hid
    rw [hm, Option.map_some, hmid]
  rw [List.filterMap_congr hsome]
  simp

theorem mem_leasedMsgs (h : Rep st pend) {m : Msg} :
    m ∈ st.leasedMsgs ↔ st.msgGet m.id = some m ∧ m.state = .leased := by
  unfold leasedMsgs
  rw [List.mem_filterMap]
  constructor
  · rintro ⟨l, hl, hm⟩
    obtain ⟨x, hx, hs, -⟩ := h.msg_of_lease _ _ (h.mem_leases.mp hl)
    obtain ⟨m', hm', rfl⟩ := coreGet_some hx
    rw [hm'] at hm
    cases hm
    have hid := msgGet_id hm'
    exact ⟨by rw [hid]; exact hm', hs⟩
  · rintro ⟨hm, hs⟩
    obtain ⟨-, hl⟩ := h.lease_of_msg m.id m.core (coreGet_of_msgGet hm) hs
    refine ⟨⟨m.leaseId, m.id, m.leaseExpiryUs⟩, ?_, hm⟩
    exact h.mem_leases.mpr hl

theorem mem_jobs (h : Rep st pend) {m : Msg} :
    m ∈ st.jobs ↔ st.msgGet m.id = some m ∧
      (m.state = .pending ∨ m.state = .leased) := by
  unfold jobs
  rw [List.mem_append, List.mem_flatMap, h.mem_leasedMsgs]
  constructor
  · rintro (⟨q, -, hm⟩ | ⟨hm, hs⟩)
    · obtain ⟨hm, -, hs⟩ := h.mem_pendingMsgs.mp hm
      exact ⟨hm, Or.inl hs⟩
    · exact ⟨hm, Or.inr hs⟩
  · rintro ⟨hm, hs | hs⟩
    · left
      obtain ⟨q, hq, hn⟩ := h.queue_get hm
      refine ⟨q, h.mem_queues.mpr (by rw [hn]; exact hq), ?_⟩
      exact h.mem_pendingMsgs.mpr ⟨hm, hn.symm, hs⟩
    · exact Or.inr ⟨hm, hs⟩

theorem job (h : Rep st pend) {m : Msg} (hm : m ∈ st.jobs) : Built.Job m := by
  obtain ⟨hm, hs⟩ := h.mem_jobs.mp hm
  have hcore := coreGet_of_msgGet hm
  refine ⟨h.id_ne_zero m.id m.core hcore, ?_⟩
  rcases hs with hs | hs
  · left
    have hne : m.core.state ≠ .leased := by
      rw [show m.core.state = m.state from rfl, hs]
      decide
    obtain ⟨h1, h2⟩ := h.unleased m.id m.core hcore hne
    exact ⟨hs, h1, h2⟩
  · exact Or.inr ⟨hs, (h.lease_of_msg m.id m.core hcore hs).1⟩

theorem apart (h : Rep st pend) {x y : Msg} (hx : x ∈ st.jobs)
    (hy : y ∈ st.jobs) (hne : x.id ≠ y.id) : Built.Apart x y := by
  refine ⟨hne, fun hsx hsy hl => hne ?_⟩
  exact h.lease_inj (coreGet_of_msgGet (h.mem_jobs.mp hx).1)
    (coreGet_of_msgGet (h.mem_jobs.mp hy).1) hsx hsy hl

theorem eq_of_id {x y : Msg} (hx : st.msgGet x.id = some x)
    (hy : st.msgGet y.id = some y) (hid : x.id = y.id) : x = y := by
  rw [hid, hy] at hx
  exact (Option.some.inj hx).symm

theorem nodup_jobs (h : Rep st pend) :
    st.jobs.Pairwise fun x y => x.id ≠ y.id := by
  unfold jobs
  rw [List.pairwise_append, List.pairwise_flatMap]
  refine ⟨⟨?_, ?_⟩, ?_, ?_⟩
  · intro q _
    have hnd := (h.lists.linked q.name).nodup
    rw [← h.map_id_pendingMsgs] at hnd
    exact List.pairwise_map.mp hnd
  · have hnd : (st.queues.map Queue.name).Nodup :=
      h.placed.queues.nodup_toList
    refine (List.pairwise_map.mp hnd).imp ?_
    intro q q' hqq x hx y hy hid
    obtain ⟨hgx, hnx, -⟩ := h.mem_pendingMsgs.mp hx
    obtain ⟨hgy, hny, -⟩ := h.mem_pendingMsgs.mp hy
    rw [eq_of_id hgx hgy hid] at hnx
    exact hqq (hnx.symm.trans hny)
  · unfold leasedMsgs
    rw [List.pairwise_filterMap]
    have hnd : (st.leases.map Lease.leaseId).Nodup :=
      h.placed.leases.nodup_toList
    have hall : st.leases.Pairwise fun l l' =>
        l ∈ st.leases → l' ∈ st.leases → l.leaseId ≠ l'.leaseId :=
      (List.pairwise_map.mp hnd).imp (fun hne _ _ => hne)
    refine List.Pairwise.imp_of_mem ?_ hall
    intro l l' hl hl' hne x hx y hy hid
    apply hne hl hl'
    have hlease : ∀ {l : Lease} {x : Msg}, l ∈ st.leases →
        st.msgGet l.msgId = some x → x.leaseId = l.leaseId := by
      intro l x hl hx
      obtain ⟨z, hz, -, hzl, -⟩ := h.msg_of_lease _ _ (h.mem_leases.mp hl)
      rw [coreGet_of_msgGet hx] at hz
      cases hz
      exact hzl
    have hx' : st.msgGet x.id = some x := by rw [msgGet_id hx]; exact hx
    have hy' : st.msgGet y.id = some y := by rw [msgGet_id hy]; exact hy
    rw [← hlease hl hx, ← hlease hl' hy, eq_of_id hx' hy' hid]
  · intro x hx y hy hid
    obtain ⟨q, -, hx⟩ := List.mem_flatMap.mp hx
    obtain ⟨hgx, -, hsx⟩ := h.mem_pendingMsgs.mp hx
    obtain ⟨hgy, hsy⟩ := h.mem_leasedMsgs.mp hy
    rw [eq_of_id hgx hgy hid, hsy] at hsx
    cases hsx

theorem apart_jobs (h : Rep st pend) : st.jobs.Pairwise Built.Apart :=
  List.Pairwise.imp_of_mem (fun hx hy hne => h.apart hx hy hne) h.nodup_jobs

/-- The pending jobs of one queue are its pending list. -/
theorem pend_jobs (h : Rep st pend) (n : QueueName) :
    (st.jobs.filter fun x =>
      decide (x.state = .pending ∧ x.queueName = n)).map Msg.id = pend n := by
  have hleased : st.leasedMsgs.filter (fun x =>
      decide (x.state = .pending ∧ x.queueName = n)) = [] := by
    rw [List.filter_eq_nil_iff]
    intro x hx
    simp [(h.mem_leasedMsgs.mp hx).2]
  have hone : ∀ q : Queue, (st.pendingMsgs q.name).filter (fun x =>
      decide (x.state = .pending ∧ x.queueName = n)) =
      if q.name = n then st.pendingMsgs n else [] := by
    intro q
    split
    · next hq =>
      subst hq
      rw [List.filter_eq_self]
      intro x hx
      obtain ⟨-, h1, h2⟩ := h.mem_pendingMsgs.mp hx
      simp [h1, h2]
    · next hq =>
      rw [List.filter_eq_nil_iff]
      intro x hx
      obtain ⟨-, h1, -⟩ := h.mem_pendingMsgs.mp hx
      simp [h1, hq]
  have hqueues : ∀ qs : List Queue, (qs.map Queue.name).Nodup →
      (qs.flatMap fun q => if q.name = n then st.pendingMsgs n else []) =
        if n ∈ qs.map Queue.name then st.pendingMsgs n else [] := by
    intro qs
    induction qs with
    | nil =>
        simp
    | cons q qs ih =>
        intro hnd
        rw [List.map_cons, List.nodup_cons] at hnd
        rw [List.flatMap_cons, ih hnd.2]
        by_cases hq : q.name = n
        · subst hq
          simp [hnd.1]
        · simp [hq, Ne.symm hq]
  unfold jobs
  rw [List.filter_append, hleased, List.append_nil, List.filter_flatMap]
  simp only [hone]
  rw [hqueues st.queues h.placed.queues.nodup_toList]
  split
  · exact h.map_id_pendingMsgs n
  · next hn =>
    symm
    rw [List.map_nil, List.eq_nil_iff_forall_not_mem]
    intro id hid
    obtain ⟨m, hm, -, hmn, -⟩ := h.get_of_mem_pend hid
    obtain ⟨q, hq, hqn⟩ := h.queue_get hm
    refine hn (List.mem_map.mpr ⟨q, h.mem_queues.mpr ?_, by rw [hqn, hmn]⟩)
    rw [hqn]
    exact hq

end State.Rep

/-- The records of a compaction are those of its jobs. -/
theorem View.compactRecords_eq {v : View} {pend : PendingLists}
    (h : v.mem.st.Rep pend) (now : UInt64) :
    v.compactRecords now = v.mem.st.jobs.flatMap (jobRecords v.start v.rs) ++
      [checkpointRecord now v.mem.nextMsgId v.mem.nextLeaseId] := by
  have hpend : ∀ n, pushesOf v.start v.rs v.mem.st (v.mem.st.pendingIds n) =
      (v.mem.st.pendingMsgs n).flatMap (jobRecords v.start v.rs) := by
    intro n
    have hjob : ∀ m ∈ v.mem.st.pendingMsgs n,
        jobRecords v.start v.rs m = [compactPush v.start v.rs m] := by
      intro m hm
      rw [jobRecords, if_neg (by rw [(h.mem_pendingMsgs.mp hm).2.2]; decide)]
    rw [List.flatMap_congr hjob, ← List.map_eq_flatMap]
    unfold pushesOf State.pendingMsgs
    rw [List.map_filterMap]
  have hlease : ∀ l ∈ v.mem.st.leases, leaseRecords v.start v.rs v.mem.st l =
      (v.mem.st.msgGet l.msgId).toList.flatMap (jobRecords v.start v.rs) := by
    intro l hl
    obtain ⟨x, hx, hs, -⟩ := h.msg_of_lease _ _ (h.mem_leases.mp hl)
    obtain ⟨m, hm, rfl⟩ := State.coreGet_some hx
    have hs : m.state = .leased := hs
    simp [leaseRecords, hm, jobRecords, hs]
  have hleased : v.mem.st.leases.flatMap
      (leaseRecords v.start v.rs v.mem.st) =
      v.mem.st.leasedMsgs.flatMap (jobRecords v.start v.rs) := by
    unfold State.leasedMsgs
    rw [List.flatMap_congr hlease, List.filterMap_eq_flatMap_toList,
      List.flatMap_assoc]
  have hqueues : pendingRecords v.start v.rs v.mem.st v.mem.st.queues =
      (v.mem.st.queues.flatMap fun q =>
        v.mem.st.pendingMsgs q.name).flatMap (jobRecords v.start v.rs) := by
    unfold pendingRecords
    rw [List.flatMap_assoc]
    exact List.flatMap_congr (fun q _ => hpend q.name)
  unfold View.compactRecords State.jobs
  rw [List.flatMap_append, hleased, hqueues]

/-- What a compaction keeps of the content. -/
structure Compacts (v : View) (out : List Record) (c d : Content) : Prop where
  pend : d.pend = c.pend
  lease : d.lease = c.lease
  gone : ∀ id, c.msg id = none → d.msg id = none
  acked : ∀ id x, c.msg id = some x → x.state = .acked → d.msg id = none
  live : ∀ id x, c.msg id = some x → x.state ≠ .acked →
    ∃ y, d.msg id = some y ∧ Copy v.start v.rs out x y

/-- Replay of the log a compaction has written. -/
theorem View.Wf.compact_content {v : View} {c : Content} (h : v.Wf c)
    (now : UInt64) :
    ∃ d, replayContent hdrSize (v.compactRecords now) Content.empty = some d ∧
      Compacts v (v.compactRecords now) c d := by
  have hrep := h.shows.rep
  obtain ⟨d, hd⟩ := (Built.nil v.start v.rs).jobs
    (fun x (hx : x ∈ v.mem.st.jobs) => hrep.job hx) (by simpa using hrep.apart_jobs)
  rw [List.nil_append, List.nil_append] at hd
  have heq := View.compactRecords_eq hrep now
  have hmem : ∀ id x, c.msg id = some x → x.state ≠ .acked →
      ∃ m ∈ v.mem.st.jobs, x = m.core ∧ m.id = id := by
    intro id x hx hs
    obtain ⟨m, hm, rfl, hid⟩ := h.shows.of_msg hx
    refine ⟨m, hrep.mem_jobs.mpr ⟨by rw [hid]; exact hm, ?_⟩, rfl, hid⟩
    have hs : m.state ≠ .acked := hs
    have hdead : m.state ≠ .dead :=
      hrep.not_dead id m.core (State.coreGet_of_msgGet hm)
    cases hms : m.state <;> simp_all
  have hof : ∀ m ∈ v.mem.st.jobs, c.msg m.id = some m.core := by
    intro m hm
    exact h.shows.msgGet (hrep.mem_jobs.mp hm).1
  refine ⟨d, ?_, ?_, ?_, ?_, ?_, ?_⟩
  · rw [heq, replayContent_append]
    rw [hd.accepts, Option.bind_some, replayContent_singleton, Record.effect,
      entry_checkpointRecord]
    rfl
  · funext n
    rw [hd.pend]
    exact hrep.pend_jobs n
  · funext l
    rw [← h.shows.lease]
    have hiff : ∀ e, d.lease l = some e ↔
        v.mem.st.leaseGet l = some e := by
      intro e
      rw [hd.lease]
      constructor
      · rintro ⟨x, hx, hs, rfl, rfl⟩
        exact (hrep.lease_of_msg x.id x.core
          (State.coreGet_of_msgGet (hrep.mem_jobs.mp hx).1) hs).2
      · intro he
        obtain ⟨x, hx, hs, hxl, hxe⟩ := hrep.msg_of_lease l e he
        obtain ⟨m, hm, rfl⟩ := State.coreGet_some hx
        have hid := State.msgGet_id hm
        have hel := State.leaseGet_id he
        refine ⟨m, hrep.mem_jobs.mpr ⟨by rw [hid]; exact hm, Or.inr hs⟩, hs,
          hxl, ?_⟩
        rw [show m.leaseId = l from hxl, hid,
          show m.leaseExpiryUs = e.expiryUs from hxe, ← hel]
    cases hl : v.mem.st.leaseGet l with
    | none =>
        rw [Option.eq_none_iff_forall_not_mem]
        intro e he
        rw [(hiff e).mp he] at hl
        cases hl
    | some e =>
        exact (hiff e).mpr hl
  · intro id hid
    apply hd.absent
    rintro x hx rfl
    rw [hof x hx] at hid
    cases hid
  · intro id x hx hs
    apply hd.absent
    rintro y hy rfl
    rw [hof y hy] at hx
    cases hx
    have hs : y.state = .acked := hs
    rcases (hrep.mem_jobs.mp hy).2 with h1 | h1 <;> rw [hs] at h1 <;> cases h1
  · intro id x hx hs
    obtain ⟨m, hm, rfl, rfl⟩ := hmem id x hx hs
    obtain ⟨y, hy, hcopy⟩ := hd.copy m hm
    refine ⟨y, hy, ?_⟩
    rw [heq]
    exact
      { id := hcopy.id
        queueName := hcopy.queueName
        state := hcopy.state
        leaseId := hcopy.leaseId
        expiry := hcopy.expiry
        retry := hcopy.retry
        place := (hcopy.append _).place }

section Counters

theorem countMsg_fixed {rs : List Record} {n : UInt64}
    (h : ∀ r ∈ rs, r.bumpMsg n = n) : countMsg rs n = n := by
  induction rs with
  | nil =>
      rfl
  | cons r rs ih =>
      change countMsg rs (r.bumpMsg n) = n
      rw [h r (by simp)]
      exact ih (fun r' hr' => h r' (by simp [hr']))

theorem countLease_le {rs : List Record} {n k : UInt64} (hk : k ≤ n)
    (h : ∀ r ∈ rs, ∀ k, k ≤ n → r.bumpLease k ≤ n) : countLease rs k ≤ n := by
  induction rs generalizing k with
  | nil =>
      exact hk
  | cons r rs ih =>
      exact ih (h r (by simp) k hk) (fun r' hr' => h r' (by simp [hr']))

variable {v : View} {c : Content}

theorem mem_jobRecords {s : UInt64} {rs : List Record} {m : Msg} {r : Record}
    (h : r ∈ jobRecords s rs m) :
    r = compactPush s rs m ∨ (r = compactLease m ∧ m.state = .leased) := by
  unfold jobRecords at h
  split at h
  · next hs =>
    rcases List.mem_cons.mp h with h | h
    · exact Or.inl h
    · exact Or.inr ⟨List.mem_singleton.mp h, hs⟩
  · exact Or.inl (List.mem_singleton.mp h)

/-- A compacted log keeps both counters. -/
theorem View.Wf.compact_counters (h : v.Wf c) (hb : v.Bounded c)
    (hn : v.Counting) (now : UInt64) :
    countMsg (v.compactRecords now) v.mem.nextMsgId = v.mem.nextMsgId ∧
      countLease (v.compactRecords now) 1 = v.mem.nextLeaseId := by
  have hrep := h.shows.rep
  have hone : (1 : UInt64) ≤ v.mem.nextLeaseId := by
    have := hn.lease
    grind
  have hid : ∀ m ∈ v.mem.st.jobs, m.id < v.mem.nextMsgId := by
    intro m hm
    apply hb.msg hn.msg
    rw [h.shows.msgGet (hrep.mem_jobs.mp hm).1]
    rfl
  have hlease : ∀ m ∈ v.mem.st.jobs, m.state = .leased →
      m.leaseId < v.mem.nextLeaseId := by
    intro m hm hs
    have hl := (hrep.lease_of_msg m.id m.core
      (State.coreGet_of_msgGet (hrep.mem_jobs.mp hm).1) hs).2
    apply hb.lease hn.lease
    rw [← h.shows.lease, show v.mem.st.leaseGet m.leaseId = _ from hl]
    rfl
  rw [View.compactRecords_eq hrep]
  constructor
  · apply countMsg_fixed
    intro r hr
    rcases List.mem_append.mp hr with hr | hr
    · obtain ⟨m, hm, hr⟩ := List.mem_flatMap.mp hr
      have := hid m hm
      rcases mem_jobRecords hr with rfl | ⟨rfl, -⟩
      · simp only [Record.bumpMsg, compactPush, entry_pushRecord,
          Option.map_some, Option.getD_some, Entry.bumpMsg]
        grind
      · simp [Record.bumpMsg, compactLease, Entry.bumpMsg]
    · rw [List.mem_singleton.mp hr]
      simp [Record.bumpMsg, Entry.bumpMsg]
  · have hle : countLease (v.mem.st.jobs.flatMap (jobRecords v.start v.rs)) 1
        ≤ v.mem.nextLeaseId := by
      apply countLease_le hone
      intro r hr k hk
      obtain ⟨m, hm, hr⟩ := List.mem_flatMap.mp hr
      rcases mem_jobRecords hr with rfl | ⟨rfl, hs⟩
      · simpa [Record.bumpLease, compactPush, Entry.bumpLease] using hk
      · have := hlease m hm hs
        simp only [Record.bumpLease, compactLease, entry_leaseRecord,
          Option.map_some, Option.getD_some, Entry.bumpLease]
        grind
    have hsnoc : ∀ rs r, countLease (rs ++ [r]) 1 =
        r.bumpLease (countLease rs 1) := by
      intro rs r
      simp [countLease]
    rw [hsnoc]
    simp only [Record.bumpLease, entry_checkpointRecord, Option.map_some,
      Option.getD_some, Entry.bumpLease]
    grind

/-- Compaction of a well-formed view. -/
theorem View.Wf.compact (h : v.Wf c) (now : UInt64) :
    ∃ mem d, replayRecords hdrSize (v.compactRecords now)
        (Mem.start v.mem.nextMsgId) = some mem ∧
      mem.st.Shows d ∧ Compacts v (v.compactRecords now) c d ∧
      mem.nextMsgId = countMsg (v.compactRecords now) v.mem.nextMsgId ∧
      mem.nextLeaseId = countLease (v.compactRecords now) 1 := by
  obtain ⟨d, hd, hcomp⟩ := h.compact_content now
  have hstart : (Mem.start v.mem.nextMsgId).st.Shows Content.empty :=
    State.Shows.start
  obtain ⟨mem, hmem, hs⟩ := State.Shows.replay_some hstart hd
  obtain ⟨h1, h2⟩ := replayRecords_counts hmem
  exact ⟨mem, d, hmem, hs, hcomp, h1, h2⟩

/-- Where a message of the compacted log came from. -/
theorem Compacts.of_msg {out : List Record} {d : Content}
    (hcomp : Compacts v out c d) {id : UInt64} {y : Msg}
    (hy : d.msg id = some y) :
    ∃ x, c.msg id = some x ∧ x.state ≠ .acked ∧ Copy v.start v.rs out x y := by
  cases hx : c.msg id with
  | none =>
      rw [hcomp.gone id hx] at hy
      cases hy
  | some x =>
      by_cases hs : x.state = .acked
      · rw [hcomp.acked id x hx hs] at hy
        cases hy
      · obtain ⟨y', hy', hcopy⟩ := hcomp.live id x hx hs
        rw [hy] at hy'
        cases hy'
        exact ⟨x, rfl, hs, hcopy⟩

theorem View.Wf.compacted (h : v.Wf c) {now : UInt64} {mem : Mem} {d : Content}
    (hs : mem.st.Shows d) (hcomp : Compacts v (v.compactRecords now) c d)
    (hfit : Qdb.Fits hdrSize (v.compactRecords now)) :
    (v.compacted now mem).Wf d where
  shows := hs
  located := by
    intro id y hy
    obtain ⟨x, hx, -, hcopy⟩ := hcomp.of_msg hy
    exact (hcopy.data (h.located id x hx) hfit).1

/-- Compaction keeps the invariant and the counters. -/
theorem View.Inv.compact (h : v.Inv c) (hn : v.Counting) (now : UInt64) :
    ∃ mem d, replayRecords hdrSize (v.compactRecords now)
        (Mem.start v.mem.nextMsgId) = some mem ∧
      mem.nextMsgId = v.mem.nextMsgId ∧
      mem.nextLeaseId = v.mem.nextLeaseId ∧
      Compacts v (v.compactRecords now) c d ∧
      (Qdb.Fits hdrSize (v.compactRecords now) →
        (v.compacted now mem).Inv d) := by
  obtain ⟨mem, d, hmem, hs, hcomp, h1, h2⟩ := h.wf.compact now
  obtain ⟨hc1, hc2⟩ := h.wf.compact_counters h.bounded hn now
  have h1 := h1.trans hc1
  have h2 := h2.trans hc2
  refine ⟨mem, d, hmem, h1, h2, hcomp, fun hfit => ?_⟩
  refine ⟨h.wf.compacted hs hcomp hfit, ⟨?_, ?_⟩, ?_⟩
  · intro hz id hid
    change id < mem.nextMsgId
    rw [h1]
    obtain ⟨y, hy⟩ := Option.isSome_iff_exists.mp hid
    obtain ⟨x, hx, -⟩ := hcomp.of_msg hy
    exact h.bounded.msg hn.msg id (by rw [hx]; rfl)
  · intro hz l hl
    change l < mem.nextLeaseId
    rw [h2]
    rw [hcomp.lease] at hl
    exact h.bounded.lease hn.lease l hl
  · change replayRecords hdrSize (v.compactRecords now)
      (Mem.start mem.nextMsgId) = some mem
    rw [h1]
    exact hmem

end Counters

end Qdb
