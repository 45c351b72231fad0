import Qdb.CallSpec
import Qdb.Footprint
import Qdb.OpenSpec
import Qdb.PendingLists

/-!
# Compaction on an open handle

The staging file receives one PUSH for each pending message, queue by queue in
list order, then a PUSH and a LEASE for each lease, then a CHECKPOINT.  Until
the rename the database file is untouched; after it the staging file, complete
and durable, is the database file.
-/

namespace Qdb

open Lib

/-- PUSH record of `compact_write_push`. -/
def compactPush (s : UInt64) (rs : List Record) (m : Msg) : Record :=
  pushRecord m.id (bodyOf s rs m)

/-- LEASE record of `compact_write_lease`. -/
def compactLease (m : Msg) : Record :=
  leaseRecord m.id m.leaseExpiryUs m.leaseId

/-- The records of the messages `ids`. -/
def pushesOf (s : UInt64) (rs : List Record) (st : State)
    (ids : List UInt64) : List Record :=
  ids.filterMap fun id => (st.msgGet id).map (compactPush s rs)

/-- The records of the pending messages of the queues `qs`. -/
def pendingRecords (s : UInt64) (rs : List Record) (st : State)
    (qs : List Queue) : List Record :=
  qs.flatMap fun q => pushesOf s rs st (st.pendingIds q.name)

/-- The records of one lease. -/
def leaseRecords (s : UInt64) (rs : List Record) (st : State) (l : Lease) :
    List Record :=
  match st.msgGet l.msgId with
  | none => []
  | some m => [compactPush s rs m, compactLease m]

/-- The log `qdb_compact` writes at the time `now`. -/
def View.compactRecords (v : View) (now : UInt64) : List Record :=
  pendingRecords v.start v.rs v.mem.st v.mem.st.queues ++
    v.mem.st.leases.flatMap (leaseRecords v.start v.rs v.mem.st) ++
    [checkpointRecord now v.mem.nextMsgId v.mem.nextLeaseId]

/-- The staging file with the records `out`. -/
def View.staging (v : View) (out : List Record) : DbFile where
  createTimeUs := v.createTimeUs
  nextMsgId := v.mem.nextMsgId
  start := hdrSize
  rs := out
  flags := flagDirty

/-- The lists `pend` can be walked from the heads of the queues, and every
lease has its message.  This is all a compaction needs of the tables. -/
structure State.Walkable (st : State) (pend : PendingLists) : Prop where
  queues : ∀ q ∈ st.queues, st.queueGet q.name = some q
  head : ∀ n, (st.queueOr n).pendingHead = (pend n).headD 0
  segment : ∀ n, Segment st.nextOf st.prevOf 0 (pend n) 0
  sentinel : ∀ n, (0 : UInt64) ∉ pend n
  length_le : ∀ n, (pend n).length ≤ st.msgs.length
  stored : ∀ n, ∀ id ∈ pend n, (st.msgGet id).isSome
  leased : ∀ l ∈ st.leases, (st.msgGet l.msgId).isSome

theorem State.Rep.walkable {st : State} {pend : PendingLists}
    (h : st.Rep pend) : st.Walkable pend where
  queues q hq := h.mem_queues.mp hq
  head n := (h.lists.linked n).head_eq
  segment n := (h.lists.linked n).segment
  sentinel n := (h.lists.linked n).sentinel
  length_le := h.length_le
  stored n id hid := by
    obtain ⟨x, hx, -⟩ := h.lists.stored n id hid
    obtain ⟨m, hm, -⟩ := State.coreGet_some hx
    rw [hm]
    rfl
  leased l hl := by
    obtain ⟨x, hx, -⟩ := h.msg_of_lease _ _ (h.mem_leases.mp hl)
    obtain ⟨m, hm, -⟩ := State.coreGet_some hx
    rw [hm]
    rfl

theorem State.Walkable.pendingIds_eq {st : State} {pend : PendingLists}
    (h : st.Walkable pend) (n : QueueName) : st.pendingIds n = pend n := by
  unfold State.pendingIds
  rw [h.head]
  exact walk_segment (h.segment n) (h.sentinel n) (h.length_le n)

section Stage

variable {F : Prop} {w w1 : World} {db : Db} {v : View} {i j : Nat}
variable {out : List Record}

/-- The staging file `j` holds the records `out` behind a header that does not
count them yet; nothing else has changed. -/
def Staged (j : Nat) (w : World) (v : View) (out : List Record) :
    World → Prop :=
  InFile j w ((v.staging out).Kept fun B => B = (v.staging []).patch)

/-- How one of the staging loops may end. -/
def StageEnd (F : Prop) (j : Nat) (w : World) (v : View) (out : List Record)
    (x : Rc × UInt64) (w' : World) : Prop :=
  (x = (.ok, logEndOf hdrSize out) ∧ Staged j w v out w') ∨
    (x.1 = .errIo ∧ (F ∨ ¬ Fits hdrSize out) ∧ w.SameBut j w')

/-- A loop that has failed on its way. -/
theorem StageEnd.fail {rest : List Record} {off : UInt64} {w' : World}
    (h : F ∨ ¬ Fits hdrSize out) (hw : w.SameBut j w') :
    StageEnd F j w v (out ++ rest) (.errIo, off) w' :=
  Or.inr ⟨rfl, h.imp_right (fun hf hr => hf hr.of_append), hw⟩

theorem wp_stageAppend (h : Staged j w v out w1) (r : Record) :
    Prog.Wp (Faulty F) (w.SameBut j)
      (appendRecord (some j) r.type r.payload (logEndOf hdrSize out)) w1
      (StageEnd F j w v (out ++ [r])) := by
  have hoff : (logEndOf hdrSize out).toNat =
      hdrSize.toNat + (encodeLog out).length :=
    toNat_logEndOf h.2.content.fits
  have hfit : (logEndOf hdrSize out).toNat + r.size ≤ maxFileSize →
      Fits hdrSize (out ++ [r]) := by
    intro hmax
    right
    rw [encodeLog_snoc, List.length_append, Record.length_encode]
    omega
  have hbig : maxFileSize < (logEndOf hdrSize out).toNat + r.size →
      ¬ Fits hdrSize (out ++ [r]) := by
    rintro hmax (h0 | h0)
    · simp at h0
    · rw [encodeLog_snoc, List.length_append, Record.length_encode] at h0
      omega
  apply (wp_appendRecord r h.2 hoff).mono
  · intro w' hw'
    exact h.1.trans hw'.1
  · rintro x w' (⟨rfl, -, hw'⟩ | ⟨rfl, hcause, hw'⟩)
    · refine Or.inl ⟨by rw [← logEndOf_snoc], h.1.trans hw'.1, ?_⟩
      unfold DbFile.Kept
      change FileState.Keeps _ _ _ (encodeLog (out ++ [r])) _
      rw [encodeLog_snoc]
      exact hw'.2
    · exact Or.inr ⟨rfl, hcause.imp_right hbig, h.1.trans hw'.1⟩

/-- The source file of a compaction is not the staging file. -/
structure Source (w : World) (i j : Nat) (s : UInt64) (rs : List Record) :
    Prop where
  ne : i ≠ j
  file : ∃ Bs, ∃ d : DbFile, d.KeptBytes Bs (w.content i) ∧ d.start = s ∧
    d.rs = rs

theorem wp_compactWritePush (h : Staged j w v out w1) {s : UInt64}
    {rs : List Record} (hsrc : Source w i j s rs) {m : Msg}
    (hm : Located s rs m) :
    Prog.Wp (Faulty F) (w.SameBut j)
      (compactWritePush (some i) (some j) m (logEndOf hdrSize out)) w1
      (StageEnd F j w v (out ++ [compactPush s rs m])) := by
  have hdata : (compactPush s rs m).payload =
      pushPayload m.id m.queueName (dataOf s rs m) := by
    rw [← hm.bodyOf_data, ← bodyOf_name s rs m]
    rfl
  have happend := wp_stageAppend (F := F) h (compactPush s rs m)
  rw [hdata] at happend
  unfold compactWritePush
  apply wp_reads (reads_alloc w1)
  rw [if_neg (by simp)]
  by_cases h0 : m.dataLen > 0
  · rw [if_pos h0]
    obtain ⟨Bs, d, hb, rfl, rfl⟩ := hsrc.file
    have hsame : w1.content i = w.content i := by
      unfold World.content
      rw [h.1.files i hsrc.ne]
    rw [← hsame] at hb
    apply wp_reads (hm.reads_data hb h0)
    exact happend
  · rw [if_neg h0]
    rw [dataOf_of_zero _ _ h0] at happend
    exact happend

/-- The FIFO walk over the ids `ids` of one queue. -/
theorem wp_compactChain {s : UInt64} {rs : List Record}
    (hsrc : Source w i j s rs)
    {st : State} {p : UInt64} {ids : List UInt64}
    (hseg : Segment st.nextOf st.prevOf p ids 0) (hz : (0 : UInt64) ∉ ids)
    (hget : ∀ id ∈ ids, ∃ m, st.msgGet id = some m ∧ Located s rs m)
    {fuel : Nat} (hfuel : ids.length < fuel)
    (h : Staged j w v out w1) :
    Prog.Wp (Faulty F) (w.SameBut j)
      (compactChain (some i) (some j) st fuel (ids.headD 0) (logEndOf hdrSize out)) w1
      (StageEnd F j w v (out ++ pushesOf s rs st ids)) := by
  induction ids generalizing p fuel out w1 with
  | nil =>
      obtain ⟨fuel, rfl⟩ := Nat.exists_eq_succ_of_ne_zero (by omega : fuel ≠ 0)
      refine Prog.wp_pure h.1 (Or.inl ⟨?_, ?_⟩)
      · simp [pushesOf]
      · simpa [pushesOf] using h
  | cons x ids ih =>
      obtain ⟨fuel, rfl⟩ := Nat.exists_eq_succ_of_ne_zero (by omega : fuel ≠ 0)
      obtain ⟨-, hnx, hseg⟩ := hseg
      obtain ⟨m, hm, hloc⟩ := hget x (by simp)
      have hx : x ≠ 0 := by
        rintro rfl
        simp at hz
      have hpush : pushesOf s rs st (x :: ids) =
          compactPush s rs m :: pushesOf s rs st ids := by
        simp [pushesOf, hm]
      rw [hpush, List.append_cons]
      unfold compactChain
      simp only [List.headD_cons, if_neg hx, hm]
      apply Prog.wp_seq (wp_compactWritePush h hsrc hloc)
      rintro ⟨rc, off⟩ w2 hi2 (⟨heq, h2⟩ | ⟨rfl, hc2, h2⟩)
      swap
      · exact Prog.wp_pure hi2 (StageEnd.fail hc2 h2)
      cases heq
      dsimp only
      rw [if_neg (by simp), ← State.nextOf_of_get hm, hnx]
      exact ih hseg (fun h0 => hz (List.mem_cons_of_mem _ h0))
        (fun id hid => hget id (List.mem_cons_of_mem _ hid))
        (by simpa using hfuel) h2

/-- The queue loop. -/
theorem wp_compactPending {s : UInt64} {rs : List Record}
    (hsrc : Source w i j s rs) {st : State} {pend : PendingLists}
    (hrep : st.Walkable pend)
    (hloc : ∀ id m, st.msgGet id = some m → Located s rs m)
    {qs : List Queue} (hqs : ∀ q ∈ qs, st.queueGet q.name = some q)
    (h : Staged j w v out w1) :
    Prog.Wp (Faulty F) (w.SameBut j)
      (compactPending (some i) (some j) st qs (logEndOf hdrSize out)) w1
      (StageEnd F j w v (out ++ pendingRecords s rs st qs)) := by
  induction qs generalizing out w1 with
  | nil =>
      refine Prog.wp_pure h.1 (Or.inl ⟨?_, ?_⟩)
      · simp [pendingRecords]
      · simpa [pendingRecords] using h
  | cons q qs ih =>
      have hq := hqs q (by simp)
      have hlen := hrep.length_le q.name
      have hhead : q.pendingHead = (pend q.name).headD 0 := by
        rw [← hrep.head, State.queueOr_of_get hq]
      have hrec : pendingRecords s rs st (q :: qs) =
          pushesOf s rs st (pend q.name) ++ pendingRecords s rs st qs := by
        simp [pendingRecords, hrep.pendingIds_eq]
      rw [hrec, ← List.append_assoc]
      unfold compactPending
      rw [hhead]
      apply Prog.wp_seq (wp_compactChain hsrc (hrep.segment q.name)
        (hrep.sentinel q.name) (fun id hid => by
          obtain ⟨m, hm⟩ := Option.isSome_iff_exists.mp
            (hrep.stored q.name id hid)
          exact ⟨m, hm, hloc id m hm⟩) (by omega) h)
      rintro ⟨rc, off⟩ w2 hi2 (⟨heq, h2⟩ | ⟨rfl, hc2, h2⟩)
      swap
      · exact Prog.wp_pure hi2 (StageEnd.fail hc2 h2)
      cases heq
      dsimp only
      rw [if_neg (by simp)]
      exact ih (fun q' hq' => hqs q' (List.mem_cons_of_mem _ hq')) h2

/-- The lease loop. -/
theorem wp_compactLeased {s : UInt64} {rs : List Record}
    (hsrc : Source w i j s rs) {st : State}
    (hloc : ∀ id m, st.msgGet id = some m → Located s rs m)
    {ls : List Lease} (hls : ∀ l ∈ ls, (st.msgGet l.msgId).isSome)
    (h : Staged j w v out w1) :
    Prog.Wp (Faulty F) (w.SameBut j)
      (compactLeased (some i) (some j) st ls (logEndOf hdrSize out)) w1
      (StageEnd F j w v (out ++ ls.flatMap (leaseRecords s rs st))) := by
  induction ls generalizing out w1 with
  | nil =>
      refine Prog.wp_pure h.1 (Or.inl ⟨?_, ?_⟩)
      · simp
      · simpa using h
  | cons l ls ih =>
      obtain ⟨m, hm⟩ := Option.isSome_iff_exists.mp (hls l (by simp))
      have hrec : leaseRecords s rs st l =
          [compactPush s rs m, compactLease m] := by
        simp [leaseRecords, hm]
      rw [List.flatMap_cons, hrec, ← List.append_assoc, List.append_cons]
      unfold compactLeased
      simp only [hm]
      apply Prog.wp_seq (wp_compactWritePush h hsrc (hloc _ m hm))
      rintro ⟨rc, off⟩ w2 hi2 (⟨heq, h2⟩ | ⟨rfl, hc2, h2⟩)
      swap
      · rw [List.append_assoc (out ++ _)]
        exact Prog.wp_pure hi2 (StageEnd.fail hc2 h2)
      cases heq
      dsimp only
      rw [if_neg (by simp)]
      apply Prog.wp_seq (wp_stageAppend h2 (compactLease m))
      rintro ⟨rc, off⟩ w3 hi3 (⟨heq, h3⟩ | ⟨rfl, hc3, h3⟩)
      swap
      · exact Prog.wp_pure hi3 (StageEnd.fail hc3 h3)
      cases heq
      dsimp only
      rw [if_neg (by simp)]
      exact ih (fun l' hl' => hls l' (List.mem_cons_of_mem _ hl')) h3

/-- The staging file is filled and synced, or it is given up. -/
theorem wp_compactStage {G : Prop} (h : Live G w db v i) {pend : PendingLists}
    (hrep : v.mem.st.Walkable pend)
    (hloc : ∀ id m, v.mem.st.msgGet id = some m → Located v.start v.rs m)
    (hne : i ≠ j) (hfile : w.files j = ⟨[], []⟩) :
    Prog.Wp (Faulty F) (w.SameBut j) (compactStage db (some j)) w
      (fun rc w' =>
        (rc = .ok ∧
          InFile j w (v.staging (v.compactRecords w.now)).Stored w') ∨
        (rc = .errIo ∧ (F ∨ ¬ Fits hdrSize (v.compactRecords w.now)) ∧
          w.SameBut j w')) := by
  have hsrc : Source w i j v.start v.rs :=
    ⟨hne, _, v.file, h.content, rfl, rfl⟩
  have hmeta : headerEncode (compactMeta db) =
      headerEncode (v.staging []).header := by
    simp only [compactMeta, DbFile.header, View.staging, h.createTime,
      h.nextMsgId, headerEncode, headerFields, logEndOf_nil]
  unfold compactStage
  apply Prog.wp_seq ((wp_headerWrite (F := F) hfile hmeta rfl rfl).mono
    (fun w' hw' => hw'.1) (fun _ _ hq => hq))
  rintro rc w1 hi1 (⟨rfl, h1⟩ | ⟨hF, rfl, h1⟩)
  swap
  · exact Prog.wp_pure hi1 (Or.inr ⟨rfl, Or.inl hF, h1⟩)
  rw [if_neg (by simp)]
  simp only [h.state, h.fd]
  rw [← logEndOf_nil hdrSize]
  have hrecs : v.compactRecords w.now =
      ([] ++ pendingRecords v.start v.rs v.mem.st v.mem.st.queues) ++
        (v.mem.st.leases.flatMap (leaseRecords v.start v.rs v.mem.st) ++
          [checkpointRecord w.now v.mem.nextMsgId v.mem.nextLeaseId]) := by
    rw [List.nil_append, ← List.append_assoc]
    rfl
  have hls := hrep.leased
  generalize hall : v.mem.st.leases = ls at *
  have hfail : ∀ {out rest : List Record} {w' : World},
      v.compactRecords w.now = out ++ rest →
      (F ∨ ¬ Fits hdrSize out) → w.SameBut j w' →
      (Rc.errIo = .ok ∧
          InFile j w (v.staging (v.compactRecords w.now)).Stored w') ∨
        (Rc.errIo = .errIo ∧ (F ∨ ¬ Fits hdrSize (v.compactRecords w.now)) ∧
          w.SameBut j w') := by
    intro out rest w' he hc hw
    refine Or.inr ⟨rfl, hc.imp_right (fun hf hr => hf ?_), hw⟩
    rw [he] at hr
    exact hr.of_append
  have h1 : Staged j w v [] w1 := h1
  apply Prog.wp_seq (wp_compactPending hsrc hrep hloc
    hrep.queues h1)
  rintro ⟨rc, off⟩ w2 hi2 (⟨heq, h2⟩ | ⟨rfl, hc2, h2⟩)
  swap
  · exact Prog.wp_pure hi2 (hfail hrecs hc2 h2)
  cases heq
  dsimp only
  rw [if_neg (by simp)]
  apply Prog.wp_seq (wp_compactLeased hsrc hloc hls h2)
  rintro ⟨rc, off⟩ w3 hi3 (⟨heq, h3⟩ | ⟨rfl, hc3, h3⟩)
  swap
  · rw [← List.append_assoc] at hrecs
    exact Prog.wp_pure hi3 (hfail hrecs hc3 h3)
  cases heq
  dsimp only
  rw [if_neg (by simp)]
  unfold compactWriteCheckpoint
  have hrecs' : [] ++ pendingRecords v.start v.rs v.mem.st v.mem.st.queues ++
      ls.flatMap (leaseRecords v.start v.rs v.mem.st) ++
      [checkpointRecord w3.now db.nextMsgId db.nextLeaseId] =
      v.compactRecords w.now := by
    rw [h3.1.now, h.nextMsgId, h.nextLeaseId, hrecs]
    simp only [List.append_assoc]
  apply Prog.wp_seq (wp_reads (reads_timeUs w3)
    (wp_stageAppend h3 (checkpointRecord w3.now db.nextMsgId db.nextLeaseId)))
  rw [hrecs']
  rintro ⟨rc, off⟩ w4 hi4 (⟨heq, h4⟩ | ⟨rfl, hc4, h4⟩)
  swap
  · exact Prog.wp_pure hi4 (Or.inr ⟨rfl, hc4, h4⟩)
  cases heq
  dsimp only
  rw [if_neg (by simp)]
  have hpatch : headerPatch { compactMeta db with
      logEndOffset := logEndOf hdrSize (v.compactRecords w.now) } =
      (v.staging (v.compactRecords w.now)).patch :=
    DbFile.headerPatch_eq rfl rfl h.createTime h.nextMsgId rfl
  apply Prog.wp_seq ((wp_headerUpdate _ h4.2).mono
    (fun w' hw' => h4.1.trans hw'.1) (fun _ _ hq => hq))
  rintro rc w5 hi5 (⟨rfl, h5⟩ | ⟨hF, rfl, h5⟩)
  swap
  · exact Prog.wp_pure hi5 (Or.inr ⟨rfl, Or.inl hF, hi5⟩)
  rw [if_neg (by simp)]
  rw [hpatch] at h5
  apply wp_fileSync hi5
  · have hin : InFile j w (v.staging (v.compactRecords w.now)).Stored
        (w5.setFile j (w5.files j).sync) :=
      (show InFile j w (v.staging (v.compactRecords w.now)).Stored w5 from
        ⟨hi5, h5.2⟩).setFile (FileState.Keeps.sync h5.2.content)
    exact ⟨hin.1, Or.inl ⟨rfl, hin⟩⟩
  · intro hF
    exact Or.inr ⟨rfl, Or.inl hF, hi5⟩

end Stage

section Compact

variable {F : Prop} {w : World} {db : Db} {v : View} {i : Nat}

/-- The view after a compaction at the time `now`; `mem` is what the replay of
the new log gives. -/
def View.compacted (v : View) (now : UInt64) (mem : Mem) : View :=
  (v.staging (v.compactRecords now)).opened mem v.leaseTimeoutUs

/-- The file while `qdb_compact` runs: the old one, or the complete new one. -/
def CompactDuring (F : Prop) (v : View) (now : UInt64) (mem : Mem) (i j : Nat)
    (w : World) : Prop :=
  OnDisk i (v.Holds F) w ∨
    OnDisk j (Recovering F (v.staging (v.compactRecords now))
      (v.compacted now mem)) w

/-- How `qdb_compact` may end: nothing has changed, the handle is on the new
file, or a failed reopen has left it without one. -/
def CompactEnd (F : Prop) (v : View) (now : UInt64) (mem : Mem) (i j : Nat)
    (db : Db) (x : Result × Option Db) (w' : World) : Prop :=
  (x = (.code .errIo, some db) ∧
      (F ∨ ¬ Fits hdrSize (v.compactRecords now)) ∧ Live F w' db v i) ∨
    (∃ db', x = (.code .ok, some db') ∧
      Live F w' db' (v.compacted now mem) j) ∨
    (F ∧ ∃ db', x = (.code .errIo, some db') ∧ db'.fd = none ∧
      db'.state = none ∧
      OnDisk j ((v.staging (v.compactRecords now)).Kept fun _ => True) w')

/-- `qdb__reopen_after_compact` on the file `j` that now has the name. -/
theorem wp_reopenAfterCompact {j : Nat} {d : DbFile} {mem : Mem} {t : UInt64}
    (hdisk : OnDisk j d.Stored w)
    (hlock : ∃ l, db.lockFd = some l ∧ w.lockOwner = some l ∧
      l < w.nextLockFd)
    (ht : db.leaseTimeoutUs = t)
    (hrep : replayRecords d.start d.rs (Mem.start d.nextMsgId) = some mem) :
    Prog.Wp (Faulty F) (OnDisk j (Recovering F d (d.opened mem t)))
      (reopenAfterCompact db) w (fun x w' =>
        (∃ db', x = (.ok, db') ∧ Live F w' db' (d.opened mem t) j) ∨
        (F ∧ ∃ db', x = (.errIo, db') ∧ db'.fd = none ∧ db'.state = none ∧
          OnDisk j (d.Kept fun _ => True) w')) := by
  have hd : OnDisk j (Recovering F d (d.opened mem t)) w :=
    hdisk.mono (fun hk => hk.recovering F _)
  have hclose : ∀ {β : Type} {Q : β → World → Prop} {w' : World} (fd : Fd)
      (k : Unit → Cmd β), OnDisk j (Recovering F d (d.opened mem t)) w' →
      Prog.Wp (Faulty F) (OnDisk j (Recovering F d (d.opened mem t))) (k ())
        w' Q →
      Prog.Wp (Faulty F) (OnDisk j (Recovering F d (d.opened mem t)))
        (if fd ≠ none then fileClose fd >>= k else k ()) w' Q := by
    intro β Q w' fd k hw' hk
    split
    · exact wp_op (fun _ _ h => h) hw' hk
    · exact hk
  unfold reopenAfterCompact
  apply hclose db.fd _ hd
  refine wp_op (fun _ _ h => h) hd ?_
  simp only [posix, hdisk.main]
  apply wp_reads (reads_headerRead (DbFile.Kept.content hdisk.file) _)
  dsimp only
  rw [if_neg (by simp)]
  have hfresh : Fresh { ({ db with fd := some j } : Db).withHeader
      d.header with nextLeaseId := 1 } j d :=
    ⟨rfl, rfl, rfl, rfl, rfl, rfl, rfl⟩
  apply Prog.wp_seq ((wp_recover hfresh hdisk.wal hdisk.file hrep).mono
    (fun w' hw' => hd.inFile hw') (fun _ _ hq => hq))
  rintro ⟨rc, db1⟩ w1 hi1 (⟨heq, h1⟩ | ⟨hF, hrc, hfd1, h1⟩)
  · cases heq
    dsimp only
    rw [if_neg (by simp)]
    refine Prog.wp_pure hi1 (Or.inl ⟨_, rfl, ?_⟩)
    exact
      { fd := rfl
        main := hi1.main
        wal := hi1.wal
        ino := hi1.ino
        lock := by
          rw [h1.1.lockOwner, h1.1.nextLockFd]
          exact hlock
        keeps := DbFile.Kept.mono h1.2 (fun B hB => Or.inr hB)
        logStart := rfl
        logEnd := rfl
        flags := rfl
        createTime := rfl
        timeout := ht
        nextMsgId := rfl
        nextLeaseId := rfl
        state := rfl }
  · dsimp only at hrc hfd1 ⊢
    subst hrc
    rw [if_pos (by simp)]
    unfold reopenFail
    apply hclose db1.fd _ hi1
    exact Prog.wp_pure hi1
      (Or.inr ⟨hF, _, rfl, rfl, rfl, hdisk.inFile h1⟩)

/-- A handle on a machine whose database file, lock and clock are the same. -/
theorem Live.transport (h : Live F w db v i) {w' : World}
    (hmain : w'.dir .main = w.dir .main) (hwal : w'.dir .wal = w.dir .wal)
    (hfile : w'.files i = w.files i) (hino : w.nextIno ≤ w'.nextIno)
    (hlock : w'.lockOwner = w.lockOwner)
    (hfd : w'.nextLockFd = w.nextLockFd) : Live F w' db v i :=
  { h with
    main := by rw [hmain, h.main]
    wal := by rw [hwal, h.wal]
    ino := Nat.lt_of_lt_of_le h.ino hino
    lock := by rw [hlock, hfd]; exact h.lock
    keeps := by rw [hfile]; exact h.keeps }

/-- The machine with an empty staging file. -/
def World.staging (w : World) : World :=
  (w.setDir .compact none).create .compact

theorem staging_main (w : World) : w.staging.dir .main = w.dir .main := by
  simp [World.staging, World.create, World.setDir, World.setFile]

theorem staging_wal (w : World) : w.staging.dir .wal = w.dir .wal := by
  simp [World.staging, World.create, World.setDir, World.setFile]

theorem staging_compact (w : World) :
    w.staging.dir .compact = some w.nextIno := by
  simp [World.staging, World.create, World.setDir, World.setFile]

theorem staging_file (w : World) : w.staging.files w.nextIno = ⟨[], []⟩ := by
  simp [World.staging, World.create, World.setDir, World.setFile]

theorem staging_files (w : World) (hne : i ≠ w.nextIno) :
    w.staging.files i = w.files i := by
  simp [World.staging, World.create, World.setDir, World.setFile, hne]

theorem Live.staging (h : Live F w db v i) : Live F w.staging db v i :=
  h.transport (staging_main w) (staging_wal w)
    (staging_files w (Nat.ne_of_lt h.ino)) (Nat.le_succ _) rfl rfl

/-- Removing the staging name does not touch the handle. -/
theorem Live.unstage (h : Live F w db v i) :
    Live F (w.setDir .compact none) db v i :=
  h.transport (by simp [World.setDir]) (by simp [World.setDir]) rfl
    (Nat.le_refl _) rfl rfl

/-- The steps of `qdb_compact` before the staging file is filled. -/
theorem wp_compact_of_staged {R : (o : Op) → World → o.Resp → World → Prop}
    {I : World → Prop} {Q : Rc × Db → World → Prop}
    (hR : ∀ o w r w', R o w r w' → Faulty True o w r w') (hw : I w)
    (hw' : I (w.setDir .compact none))
    (h : Prog.Wp R I (compactReplace .posix db (some w.nextIno) >>=
      compactReopen) w.staging Q) : Prog.Wp R I (qdbCompact db) w Q := by
  change Prog.Wp R I (qdbCompactOn .posix db) w Q
  rw [qdbCompactOn_eq]
  apply Prog.wp_bind_reads hR (reads_alloc w)
  rw [if_neg (by simp)]
  refine wp_op_on hR (fun _ _ h => h) hw ?_
  refine wp_op_on hR (fun _ _ h => h) hw' ?_
  have hnone : (w.setDir .compact none).dir .compact = none := by
    simp [World.setDir]
  simp only [posix, hnone, if_true]
  exact h

/-- From the empty staging file to the rename: the staging file is given up, or
the complete new file has the name of the database; writes may fail if `F`
holds. -/
theorem wp_compactReplace {G : Prop} (h : Live G w db v i) {pend : PendingLists}
    (hrep : v.mem.st.Walkable pend)
    (hloc : ∀ id m, v.mem.st.msgGet id = some m → Located v.start v.rs m) :
    Prog.Wp (Faulty F) (fun w' => Live G w' db v i ∨
        OnDisk w.nextIno (v.staging (v.compactRecords w.now)).Stored w')
      (compactReplace .posix db (some w.nextIno)) w.staging (fun x w' =>
        (x = .error (.errIo, db) ∧
          (F ∨ ¬ Fits hdrSize (v.compactRecords w.now)) ∧ Live G w' db v i) ∨
        (x = .ok db ∧ w'.lockOwner = w.lockOwner ∧
          w'.nextLockFd = w.nextLockFd ∧
          OnDisk w.nextIno (v.staging (v.compactRecords w.now)).Stored
            w')) := by
  have hne : i ≠ w.nextIno := Nat.ne_of_lt h.ino
  have hkeep : ∀ w', w.staging.SameBut w.nextIno w' → Live G w' db v i :=
    fun w' hs => h.staging.transport (by rw [hs.dir]) (by rw [hs.dir])
      (hs.files i hne) (Nat.le_of_eq hs.nextIno.symm) hs.lockOwner
      hs.nextLockFd
  unfold compactReplace
  apply Prog.wp_seq ((wp_compactStage h.staging hrep hloc hne
    (staging_file w)).mono (fun w' hs => Or.inl (hkeep w' hs))
    (fun _ _ hq => hq))
  rintro rc w3 hi3 (⟨rfl, h3⟩ | ⟨rfl, hc3, h3⟩)
  swap
  · have hl := hkeep w3 h3
    refine wp_op (fun _ _ h => h) hi3 ?_
    rw [if_pos (by simp)]
    refine wp_op (fun _ _ h => h) hi3 ?_
    exact Prog.wp_pure (Or.inl hl.unstage) (Or.inl ⟨rfl, hc3, hl.unstage⟩)
  refine wp_op (fun _ _ h => h) hi3 ?_
  rw [if_neg (by simp), if_neg (by decide)]
  refine wp_op (fun _ _ h => h) hi3 ?_
  have hl := hkeep w3 h3.1
  have hcompact : w3.dir .compact = some w.nextIno := by
    rw [h3.1.dir, staging_compact]
  simp only [posix, hcompact]
  rw [if_neg (by simp)]
  have hdisk : OnDisk w.nextIno (v.staging (v.compactRecords w.now)).Stored
      ((w3.setDir .main (some w.nextIno)).setDir .compact none) :=
    { main := by simp [World.setDir]
      wal := by
        simp only [World.setDir]
        rw [Function.update_of_ne (by decide),
          Function.update_of_ne (by decide)]
        exact hl.wal
      ino := by
        change w.nextIno < w3.nextIno
        rw [h3.1.nextIno]
        exact Nat.lt_succ_self _
      file := h3.2 }
  exact Prog.wp_pure (Or.inr hdisk)
    (Or.inr ⟨rfl, h3.1.lockOwner, h3.1.nextLockFd, hdisk⟩)

/-- `qdb_compact` on a handle whose earlier writes may have failed if `G`
holds. -/
theorem wp_qdbCompact_from {G : Prop} (h : Live G w db v i)
    {pend : PendingLists} (hrep : v.mem.st.Walkable pend)
    (hloc : ∀ id m, v.mem.st.msgGet id = some m → Located v.start v.rs m)
    {mem : Mem} (hmem : replayRecords hdrSize (v.compactRecords w.now)
      (Mem.start v.mem.nextMsgId) = some mem) :
    Prog.Wp (Faulty F) (fun w' => Live G w' db v i ∨
        OnDisk w.nextIno (Recovering F (v.staging (v.compactRecords w.now))
          (v.compacted w.now mem)) w')
      (qdbCompact db) w (fun x w' =>
        (x = (.errIo, db) ∧
          (F ∨ ¬ Fits hdrSize (v.compactRecords w.now)) ∧ Live G w' db v i) ∨
        (∃ db', x = (.ok, db') ∧
          Live F w' db' (v.compacted w.now mem) w.nextIno) ∨
        (F ∧ ∃ db', x = (.errIo, db') ∧ db'.fd = none ∧ db'.state = none ∧
          OnDisk w.nextIno ((v.staging (v.compactRecords w.now)).Kept
            fun _ => True) w')) := by
  apply wp_compact_of_staged Faulty.weaken (Or.inl h) (Or.inl h.unstage)
  apply Prog.wp_seq ((wp_compactReplace h hrep hloc).mono
    (fun w' hw' => hw'.imp id (fun hd => hd.mono (fun hk =>
      hk.recovering F _))) (fun _ _ hq => hq))
  rintro x w1 hi1 (⟨rfl, hc, hl⟩ | ⟨rfl, hlock, hfd, hdisk⟩)
  · exact Prog.wp_pure hi1 (Or.inl ⟨rfl, hc, hl⟩)
  refine (wp_reopenAfterCompact hdisk (by rw [hlock, hfd]; exact h.lock)
    h.timeout hmem).mono (fun w' => Or.inr) ?_
  rintro ⟨rc, db'⟩ w' (⟨db'', heq, hlive⟩ | ⟨hF, db'', heq, hfd, hst, hd⟩)
  · cases heq
    exact Or.inr (Or.inl ⟨_, rfl, hlive⟩)
  · cases heq
    exact Or.inr (Or.inr ⟨hF, _, rfl, hfd, hst, hd⟩)

/-- `qdb_compact` -/
theorem wp_qdbCompact (h : Live F w db v i) {pend : PendingLists}
    (hrep : v.mem.st.Walkable pend)
    (hloc : ∀ id m, v.mem.st.msgGet id = some m → Located v.start v.rs m)
    {mem : Mem} (hmem : replayRecords hdrSize (v.compactRecords w.now)
      (Mem.start v.mem.nextMsgId) = some mem) :
    Prog.Wp (Faulty F)
      (CompactDuring F v w.now mem i w.nextIno)
      (callCmd (some db) .compact) w
      (CompactEnd F v w.now mem i w.nextIno db) := by
  apply Prog.wp_seq ((wp_qdbCompact_from h hrep hloc hmem).mono
    (J := CompactDuring F v w.now mem i w.nextIno)
    (fun w' hw' => hw'.imp (fun hl => hl.onDisk) id) (fun _ _ hq => hq))
  rintro x w' hi (⟨rfl, hc, hl⟩ | ⟨db', rfl, hlive⟩ | ⟨hF, db', rfl, hend⟩)
  · exact Prog.wp_pure hi (Or.inl ⟨rfl, hc, hl⟩)
  · exact Prog.wp_pure hi (Or.inr (Or.inl ⟨db', rfl, hlive⟩))
  · exact Prog.wp_pure hi (Or.inr (Or.inr ⟨hF, db', rfl, hend⟩))

end Compact

end Qdb
