import Qdb.Moves

/-!
# The queue operations on an open handle

Each operation is specified by how its view may change.  All of them log
through the same two steps, an append and a header update (`wp_commit`): the
record is either not there, or there with a header that does not count it, or
there and counted.
-/

namespace Qdb

open Lib

/-- The file on the way from `v` to `v'`, which has more records: the old log
under the old header, or the new log under one of the two headers. -/
def During (F : Prop) (v v' : View) (s : FileState) : Prop :=
  v.Holds F s ∨ v'.file.Kept (fun B => F ∨ B = v.patch ∨ B = v'.patch) s

theorem View.Holds.during {F : Prop} {v : View} {s : FileState}
    (h : v.Holds F s) (v' : View) : During F v v' s :=
  Or.inl h

theorem View.Holds.reached {F : Prop} {v : View} {r : Record} {mem : Mem}
    {s : FileState} (h : (v.log r mem).Holds F s) :
    During F v (v.log r mem) s := by
  refine Or.inr (DbFile.Kept.mono h ?_)
  rintro B (hF | hB)
  · exact Or.inl hF
  · exact Or.inr (Or.inr hB)

/-- The record is written, the header does not count it yet. -/
def Appended (F : Prop) (v : View) (r : Record) (s : FileState) : Prop :=
  DbFile.Kept (fun B => F ∨ B = v.patch) { v.file with rs := v.rs ++ [r] } s

section Commit

variable {F : Prop} {w : World} {db : Db} {v : View} {i : Nat}

/-- The append of a logging operation. -/
theorem wp_logAppend (h : Live F w db v i) (r : Record) (full : Mem) :
    Prog.Wp (Faulty F) (InFile i w (During F v (v.log r full)))
      (appendRecord db.fd r.type r.payload db.logEndOffset) w (fun x w' =>
        (x = (.errIo, db.logEndOffset) ∧
          (F ∨ ¬ Fits v.start (v.rs ++ [r])) ∧ w.SameBut i w' ∧
          Live F w' db v i) ∨
        (x = (.ok, db.logEndOffset + UInt64.ofNat r.size) ∧
          Fits v.start (v.rs ++ [r]) ∧ InFile i w (Appended F v r) w')) := by
  have hfit : Fits v.start (v.rs ++ [r]) ↔
      db.logEndOffset.toNat + r.size ≤ maxFileSize := by
    unfold Fits
    rw [h.toNat_logEnd, encodeLog_snoc, List.length_append,
      Record.length_encode]
    constructor
    · rintro (h0 | h0)
      · simp at h0
      · omega
    · intro h0
      right
      omega
  rw [h.fd]
  apply (wp_appendRecord r h.keeps h.toNat_logEnd).mono
  · intro w' hw'
    exact ⟨hw'.1, Or.inl hw'.2⟩
  · rintro x w' (⟨hx, hmax, hw'⟩ | ⟨hx, hcause, hw'⟩)
    · refine Or.inr ⟨hx, hfit.mpr hmax, hw'.1, ?_⟩
      unfold Appended DbFile.Kept
      rw [encodeLog_snoc]
      exact hw'.2
    · refine Or.inl ⟨hx, ?_, hw'.1, h.inFile hw'⟩
      rw [hfit, Nat.not_le]
      exact hcause

/-- The header update of a logging operation; `db1` is the handle it is
called with. -/
theorem wp_logHeader (h : Live F w db v i) {r : Record} {w1 : World}
    (h1 : InFile i w (Appended F v r) w1) (half full : Mem) {db1 : Db}
    (hdb1 : db1 = { db with
      logEndOffset := db.logEndOffset + UInt64.ofNat r.size
      nextMsgId := half.nextMsgId
      nextLeaseId := half.nextLeaseId })
    (hst : half.st = v.mem.st) (hnm : full.nextMsgId = half.nextMsgId) :
    Prog.Wp (Faulty F) (InFile i w (During F v (v.log r full)))
      (headerUpdate db.fd db1) w1 (fun rc w' =>
        (rc = .ok ∧ InFile i w ((v.log r full).Holds F) w') ∨
        (F ∧ rc = .errIo ∧ w.SameBut i w' ∧
          Live F w' db1 (v.log r half) i)) := by
  have hend : db1.logEndOffset = logEndOf v.start (v.rs ++ [r]) := by
    rw [hdb1, logEndOf_snoc]
    change db.logEndOffset + _ = _
    rw [h.logEnd]
    rfl
  have hpatch : headerPatch db1 = (v.log r full).patch := by
    subst hdb1
    exact DbFile.headerPatch_eq h.logStart hend h.createTime hnm.symm h.flags
  rw [h.fd]
  apply (wp_headerUpdate db1 h1.2).mono
  · intro w' hw'
    refine ⟨h1.1.trans hw'.1, Or.inr (hw'.2.mono ?_)⟩
    intro B hB
    rw [hpatch] at hB
    rcases hB with hF | (hF | hB) | hB
    · exact Or.inl hF
    · exact Or.inl hF
    · exact Or.inr (Or.inl hB)
    · exact Or.inr (Or.inr hB)
  · rintro rc w2 (⟨rfl, h2⟩ | ⟨hF, rfl, h2⟩)
    · rw [hpatch] at h2
      exact Or.inl ⟨rfl, h1.1.trans h2.1, h2.2.mono (fun B hB => Or.inr hB)⟩
    · have hs : w.SameBut i w2 := h1.1.trans h2.1
      have hhold : (v.log r half).Holds F (w2.files i) :=
        h2.2.mono (fun _ _ => Or.inl hF)
      refine Or.inr ⟨hF, rfl, hs, h.logged ⟨hs, hhold⟩ ?_⟩
      rw [hdb1, hst, ← h.state]

end Commit

/-- How a call that makes the move `mv` ends. -/
structure Ended (F : Prop) (i : Nat) (w : World) (db : Db) (v : View)
    (mv : Move) (res : Result) (db' : Db) (w' : World) : Prop where
  same : w.SameBut i w'
  outcome : ∃ v', mv.Outcome F v res v' ∧ Live F w' db' v' i
  quiet : ∀ res', mv = .refuse res' → w' = w ∧ db' = db

section Calls

variable {F : Prop} {w : World} {db : Db} {v : View} {i : Nat}

theorem Live.refused (h : Live F w db v i) (res : Result) :
    Ended F i w db v (.refuse res) res db w where
  same := World.SameBut.refl i w
  outcome := ⟨v, .refuse res, h⟩
  quiet := fun _ _ => ⟨rfl, rfl⟩

theorem Live.ended {r : Record} {half full : Mem} {res res' : Result}
    {db' : Db} {w' : World} {v' : View} (hs : w.SameBut i w')
    (ho : (Move.log r half full res).Outcome F v res' v')
    (h : Live F w' db' v' i) :
    Ended F i w db v (.log r half full res) res' db' w' where
  same := hs
  outcome := ⟨v', ho, h⟩
  quiet := by
    intro _ he
    cases he

theorem Live.around (h : Live F w db v i) (v' : View) :
    InFile i w (During F v v') w :=
  InFile.refl (View.Holds.during h.keeps v')

theorem wp_qdbPush (h : Live F w db v i) (queue : Option CString)
    (data : DataArg) :
    Prog.Wp (Faulty F) (InFile i w (During F v (v.after (v.push queue data))))
      (qdbPush db queue data) w (fun x w' =>
        Ended F i w db v (v.push queue data) (.code x.1) x.2 w') := by
  unfold qdbPush View.push pushArg
  cases hq : queueArg queue with
  | none =>
      exact Prog.wp_pure (h.around _) (h.refused _)
  | some name =>
      dsimp only
      by_cases h1 : data.len > 0 ∧ data.isNull
      · simp only [if_pos h1]
        exact Prog.wp_pure (h.around _) (h.refused _)
      simp only [if_neg h1]
      by_cases h2 : data.len > msgMaxLen
      · simp only [if_pos h2]
        exact Prog.wp_pure (h.around _) (h.refused _)
      simp only [if_neg h2]
      have hlen : data.bytes.length = data.len := by
        cases data with
        | null len =>
            simp only [DataArg.len, DataArg.isNull, DataArg.bytes] at h1 ⊢
            simp at h1
            simp [h1]
        | buf bs =>
            rfl
      have hfit : 9 + name.bytes.length + data.bytes.length ≤ 67109376 := by
        have hn : name.bytes.length ≤ 255 := name.length_le
        have hm : data.len ≤ 67108864 := Nat.not_lt.mp h2
        omega
      rw [dif_pos hfit]
      dsimp only
      apply wp_reads (reads_alloc _)
      rw [if_neg (by simp)]
      rw [h.nextMsgId]
      apply Prog.wp_seq (wp_logAppend h
        (pushRecord v.mem.nextMsgId ⟨name, data.bytes, hfit⟩) _)
      rintro x w1 hi1 (⟨rfl, hio, hs1, h1⟩ | ⟨rfl, hfit1, h1⟩)
      · exact Prog.wp_pure hi1 (h1.ended hs1 (.io hio))
      dsimp only
      rw [if_neg (by simp)]
      apply Prog.wp_seq (wp_logHeader h h1
        { v.mem with nextMsgId := v.mem.nextMsgId + 1 }
        (v.pushed ⟨name, data.bytes, hfit⟩) (by rw [← h.nextLeaseId]) rfl rfl)
      rintro rc w2 hi2 (⟨rfl, h2⟩ | ⟨hF, rfl, hs2, h2⟩)
      swap
      · exact Prog.wp_pure hi2 (h2.ended hs2 (.half hF))
      rw [if_neg (by simp), h.state]
      apply wp_reads (reads_alloc _)
      rw [if_neg (by simp)]
      apply wp_reads (reads_queueGetOrCreate _ _ _)
      refine Prog.wp_pure hi2
        ((h.logged h2 ?_).ended h2.1 (.full hfit1))
      simp only [View.pushed, addMsg_eq, hlen, h.logEnd, h.nextLeaseId]
      rfl

/-- The payload copy of `do_pop` finds the data of the message. -/
theorem reads_readData (h : Live F w db v i) {m : Msg}
    (hm : Located v.start v.rs m) :
    CmdReads (readData db m) w (.ok (dataOf v.start v.rs m)) := by
  unfold readData
  by_cases h0 : m.dataLen > 0
  · rw [if_pos h0, h.fd]
    apply Prog.reads_bind (reads_alloc w)
    rw [if_neg (by simp)]
    exact Located.reads_data hm h.content h0
  · rw [if_neg h0, dataOf_of_zero _ _ h0]
    exact Prog.reads_pure

theorem wp_doPop (h : Live F w db v i) {q : Queue} {m : Msg}
    (hm : Located v.start v.rs m) :
    Prog.Wp (Faulty F)
      (InFile i w (During F v (v.after (v.deliver w.now q m))))
      (doPop db v.mem.st q m) w (fun x w' =>
        Ended F i w db v (v.deliver w.now q m) (.ofPop x.1 x.2.2) x.2.1
          w') := by
  unfold doPop View.deliver
  apply wp_reads (reads_alloc w)
  rw [if_neg (by simp)]
  apply wp_reads (reads_readData h hm)
  dsimp only
  apply wp_reads (reads_alloc w)
  rw [if_neg (by simp)]
  apply wp_reads (reads_timeUs w)
  rw [h.nextLeaseId, h.timeout]
  apply Prog.wp_seq (wp_logAppend h
    (leaseRecord m.id (w.now + v.leaseTimeoutUs) v.mem.nextLeaseId) _)
  rintro x w1 hi1 (⟨rfl, hio, hs1, h1⟩ | ⟨rfl, hfit1, h1⟩)
  · exact Prog.wp_pure hi1 (h1.ended hs1 (.io hio))
  dsimp only
  rw [if_neg (by simp)]
  apply Prog.wp_seq (wp_logHeader h h1
    { v.mem with nextLeaseId := v.mem.nextLeaseId + 1 }
    (v.leased w.now q m) (by simp only [h.nextMsgId, h.timeout]) rfl rfl)
  rintro rc w2 hi2 (⟨rfl, h2⟩ | ⟨hF, rfl, hs2, h2⟩)
  swap
  · exact Prog.wp_pure hi2 (h2.ended hs2 (.half hF))
  rw [if_neg (by simp)]
  refine Prog.wp_pure hi2 ((h.logged h2 ?_).ended h2.1 (.full hfit1))
  simp only [View.leased, h.nextMsgId, h.timeout, State.doPopState_eq]

theorem wp_qdbPop (h : Live F w db v i)
    (hloc : ∀ id m, v.mem.st.msgGet id = some m → Located v.start v.rs m)
    (queue : Option CString) (outMsg : Bool) :
    Prog.Wp (Faulty F)
      (InFile i w (During F v (v.after (v.pop w.now queue outMsg))))
      (qdbPop db queue outMsg) w (fun x w' =>
        Ended F i w db v (v.pop w.now queue outMsg) (.ofPop x.1 x.2.2) x.2.1
          w') := by
  unfold qdbPop View.pop
  by_cases ho : ¬ outMsg
  · simp only [if_pos ho]
    exact Prog.wp_pure (h.around _) (h.refused _)
  simp only [if_neg ho, h.state]
  cases queueArg queue with
  | none =>
      exact Prog.wp_pure (h.around _) (h.refused _)
  | some name =>
      dsimp only
      cases v.mem.st.queueGet name with
      | none =>
          exact Prog.wp_pure (h.around _) (h.refused _)
      | some q =>
          dsimp only
          by_cases hc : q.pendingCount = 0 ∨ q.pendingHead = 0
          · simp only [if_pos hc]
            exact Prog.wp_pure (h.around _) (h.refused _)
          simp only [if_neg hc]
          cases hm : v.mem.st.msgGet q.pendingHead with
          | none =>
              exact Prog.wp_pure (h.around _) (h.refused _)
          | some m =>
              exact wp_doPop h (hloc _ m hm)

theorem wp_qdbPopAny (h : Live F w db v i)
    (hloc : ∀ id m, v.mem.st.msgGet id = some m → Located v.start v.rs m)
    (outMsg : Bool) :
    Prog.Wp (Faulty F)
      (InFile i w (During F v (v.after (v.popAny w.now outMsg))))
      (qdbPopAny db outMsg) w (fun x w' =>
        Ended F i w db v (v.popAny w.now outMsg) (.ofPop x.1 x.2.2) x.2.1
          w') := by
  unfold qdbPopAny View.popAny
  by_cases ho : ¬ outMsg
  · simp only [if_pos ho]
    exact Prog.wp_pure (h.around _) (h.refused _)
  simp only [if_neg ho, h.state]
  cases hp : popAnyScan v.mem.st v.mem.st.queues none 0xFFFFFFFFFFFFFFFF with
  | error rc =>
      exact Prog.wp_pure (h.around _) (h.refused _)
  | ok best =>
      cases best with
      | none =>
          exact Prog.wp_pure (h.around _) (h.refused _)
      | some qm =>
          obtain ⟨q, m⟩ := qm
          rcases popAnyScan_mem hp with he | ⟨-, -, hm⟩
          · cases he
          · exact wp_doPop h (hloc _ m hm)

theorem wp_resolveLease (h : Live F w db v i) (r : Record)
    (update : State → Msg → UInt64 → State) (m : Msg) {id l : UInt64}
    (hr : r.payload = ackPayload id l) :
    Prog.Wp (Faulty F)
      (InFile i w (During F v (v.after (v.resolve r update m l))))
      (resolveLease r.type update db v.mem.st m id l) w (fun x w' =>
        Ended F i w db v (v.resolve r update m l) (.code x.1) x.2 w') := by
  unfold resolveLease View.resolve
  rw [← hr]
  apply Prog.wp_seq (wp_logAppend h r _)
  rintro x w1 hi1 (⟨rfl, hio, hs1, h1⟩ | ⟨rfl, hfit1, h1⟩)
  · exact Prog.wp_pure hi1 (h1.ended hs1 (.io hio))
  dsimp only
  rw [if_neg (by simp)]
  apply Prog.wp_seq (wp_logHeader h h1 v.mem
    { v.mem with st := update v.mem.st m l }
    (by rw [← h.nextMsgId, ← h.nextLeaseId]) rfl rfl)
  rintro rc w2 hi2 (⟨rfl, h2⟩ | ⟨hF, rfl, hs2, h2⟩)
  swap
  · exact Prog.wp_pure hi2 (h2.ended hs2 (.half hF))
  rw [if_neg (by simp)]
  refine Prog.wp_pure hi2 ((h.logged h2 ?_).ended h2.1 (.full hfit1))
  simp only [h.nextMsgId, h.nextLeaseId]

theorem wp_resolveCall (h : Live F w db v i) (r : Record)
    (update : State → Msg → UInt64 → State) {id l : UInt64}
    (hr : r.payload = ackPayload id l) :
    Prog.Wp (Faulty F)
      (InFile i w (During F v (v.after (v.resolveCall r update id l))))
      (resolveCall r.type update db id l) w (fun x w' =>
        Ended F i w db v (v.resolveCall r update id l) (.code x.1) x.2 w') := by
  unfold resolveCall View.resolveCall
  simp only [h.state]
  cases v.mem.st.msgGet id with
  | none =>
      exact Prog.wp_pure (h.around _) (h.refused _)
  | some m =>
      dsimp only
      by_cases h1 : m.state ≠ .leased
      · simp only [if_pos h1]
        split
        · exact Prog.wp_pure (h.around _) (h.refused _)
        · exact Prog.wp_pure (h.around _) (h.refused _)
      have h0 : m.state ≠ .acked := by
        rw [not_not.mp h1]
        decide
      simp only [if_neg h1, if_neg h0]
      by_cases h2 : m.leaseId ≠ l
      · simp only [if_pos h2]
        exact Prog.wp_pure (h.around _) (h.refused _)
      simp only [if_neg h2]
      exact wp_resolveLease h r update m hr

theorem wp_expireOne (h : Live F w db v i) (l id : UInt64) :
    Prog.Wp (Faulty F) (InFile i w (During F v (v.after (v.expire l id))))
      (expireOne db v.mem.st l id) w (fun x w' =>
        Ended F i w db v (v.expire l id) (.code x.1) x.2 w') := by
  unfold expireOne View.expire
  cases v.mem.st.msgGet id with
  | none =>
      exact Prog.wp_pure (h.around _) (h.refused _)
  | some m =>
      dsimp only
      by_cases hs : m.state ≠ .leased ∨ m.leaseId ≠ l
      · simp only [if_pos hs]
        exact Prog.wp_pure (h.around _) (h.refused _)
      simp only [if_neg hs]
      exact wp_resolveLease h (expireRecord id l) qdbNackState m rfl

/-- A call that makes the move `mv`. -/
theorem wp_move (h : Live F w db v i)
    (hloc : ∀ id m, v.mem.st.msgGet id = some m → Located v.start v.rs m)
    {call : Call} {mv : Move} (hmv : v.move w.now call = some mv) :
    Prog.Wp (Faulty F) (InFile i w (During F v (v.after mv)))
      (callCmd (some db) call) w (fun x w' =>
        ∃ db', x.2 = some db' ∧ Ended F i w db v mv x.1 db' w') := by
  cases call with
  | openDb t =>
      cases hmv
  | close =>
      cases hmv
  | processExpired =>
      cases hmv
  | compact =>
      cases hmv
  | push queue data =>
      cases hmv
      apply Prog.wp_seq (wp_qdbPush h queue data)
      intro x w' hi hx
      exact Prog.wp_pure hi ⟨_, rfl, hx⟩
  | pop queue outMsg =>
      cases hmv
      apply Prog.wp_seq (wp_qdbPop h hloc queue outMsg)
      intro x w' hi hx
      exact Prog.wp_pure hi ⟨_, rfl, hx⟩
  | popAny outMsg =>
      cases hmv
      apply Prog.wp_seq (wp_qdbPopAny h hloc outMsg)
      intro x w' hi hx
      exact Prog.wp_pure hi ⟨_, rfl, hx⟩
  | ack id l =>
      cases hmv
      apply Prog.wp_seq (wp_resolveCall h (ackRecord id l) qdbAckState rfl)
      intro x w' hi hx
      exact Prog.wp_pure hi ⟨_, rfl, hx⟩
  | nack id l =>
      cases hmv
      apply Prog.wp_seq (wp_resolveCall h (nackRecord id l) qdbNackState rfl)
      intro x w' hi hx
      exact Prog.wp_pure hi ⟨_, rfl, hx⟩

end Calls

end Qdb
