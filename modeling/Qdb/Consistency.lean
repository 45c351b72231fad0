import Qdb.Enumeration

/-!
# The tables agree

What the three tables of a state say in the words of the C structures: the
message table, the queues with their intrusive lists and counters, and the
lease table hold copies of the same facts.  The copies agree in every state
that replay builds from an accepted log and in every state that calls reach
from there, so that the branches for damaged tables are never taken
(`Sys.Starts.consistent`).
-/

namespace Qdb

open Lib

namespace State

/-- The number of messages of the queue `n` in the state `s`. -/
def number (st : State) (s : MsgState) (n : QueueName) : Nat :=
  st.msgs.countP fun m => decide (m.state = s ∧ m.queueName = n)

/-- The tables agree. -/
structure Consistent (st : State) : Prop where
  ids : (st.msgs.map Msg.id).Nodup
  id_ne_zero : ∀ m ∈ st.msgs, m.id ≠ 0
  queue_exists : ∀ m ∈ st.msgs, ∃ q ∈ st.queues, q.name = m.queueName
  names : (st.queues.map Queue.name).Nodup
  /-- The links of a queue give the list of its pending messages. -/
  pending : ∀ q ∈ st.queues, ∃ xs : List UInt64,
    Linked st.nextOf st.prevOf 0 q.pendingHead q.pendingTail xs ∧
      q.pendingCount.toNat = xs.length ∧
      ∀ id, id ∈ xs ↔ ∃ m ∈ st.msgs,
        m.id = id ∧ m.queueName = q.name ∧ m.state = .pending
  leasedCount : ∀ q ∈ st.queues,
    q.leasedCount.toNat = st.number .leased q.name
  ackedCount : ∀ q ∈ st.queues,
    q.ackedCount.toNat = st.number .acked q.name
  leaseIds : (st.leases.map Lease.leaseId).Nodup
  leaseId_ne_zero : ∀ l ∈ st.leases, l.leaseId ≠ 0
  lease_of_msg : ∀ m ∈ st.msgs, m.state = .leased →
    ⟨m.leaseId, m.id, m.leaseExpiryUs⟩ ∈ st.leases
  msg_of_lease : ∀ l ∈ st.leases, ∃ m ∈ st.msgs, m.id = l.msgId ∧
    m.state = .leased ∧ m.leaseId = l.leaseId ∧ m.leaseExpiryUs = l.expiryUs
  unleased : ∀ m ∈ st.msgs, m.state ≠ .leased → m.leaseId = 0
  msgCount : st.msgCount.toNat = st.msgs.length
  queueCount : st.queueCount.toNat = st.queues.length
  leaseCount : st.leaseCount.toNat = st.leases.length

/-- No counter is zero that an operation on a message in the table
decrements: `pending_count` for a pending message, `leased_count` and
`lease_count` for a leased one. -/
def Decrements (st : State) : Prop :=
  ∀ m ∈ st.msgs, ∀ q, st.queueGet m.queueName = some q →
    (m.state = .pending → 0 < q.pendingCount.toNat) ∧
    (m.state = .leased →
      0 < q.leasedCount.toNat ∧ 0 < st.leaseCount.toNat)

variable {st : State} {pend : PendingLists}

theorem number_eq_tally (st : State) (s : MsgState) (n : QueueName) :
    st.number s n = st.tally s n := by
  unfold number tally cores
  rw [List.countP_map]
  rfl

theorem toNat_ofNat32 {n : Nat} (h : n < 2 ^ 32) :
    (UInt32.ofNat n).toNat = n := by
  rw [UInt32.toNat_ofNat']
  exact Nat.mod_eq_of_lt h

theorem toNat_ofNat64 {n : Nat} (h : n < 2 ^ 32) :
    (UInt64.ofNat n).toNat = n := by
  rw [UInt64.toNat_ofNat']
  omega

namespace Rep

variable {m : Msg} {q : Queue} {l : Lease}

theorem coreGet_mem (h : Rep st pend) (hm : m ∈ st.msgs) :
    st.coreGet m.id = some m.core :=
  coreGet_of_msgGet (h.mem_msgs.mp hm)

theorem mem_of_coreGet (h : Rep st pend) {id : UInt64} {x : Msg}
    (hx : st.coreGet id = some x) : ∃ m ∈ st.msgs, m.id = id ∧ x = m.core := by
  obtain ⟨m, hm, rfl⟩ := coreGet_some hx
  have hid := msgGet_id hm
  exact ⟨m, h.mem_msgs.mpr (by rw [hid]; exact hm), hid, rfl⟩

theorem queueOr_mem (h : Rep st pend) (hq : q ∈ st.queues) :
    st.queueOr q.name = q := by
  unfold queueOr
  rw [h.mem_queues.mp hq]
  rfl

/-- Distinct leases have distinct messages. -/
theorem leases_le (h : Rep st pend) : st.leases.length ≤ st.msgs.length := by
  have hnd : (st.leases.map Lease.msgId).Nodup := by
    refine List.Nodup.map_on ?_ (List.Nodup.of_map _
      h.placed.leases.nodup_toList)
    intro l hl k hk heq
    obtain ⟨x, hx, -, hxl, hxe⟩ := h.msg_of_lease _ _ (h.mem_leases.mp hl)
    obtain ⟨y, hy, -, hyl, hye⟩ := h.msg_of_lease _ _ (h.mem_leases.mp hk)
    rw [heq, hy] at hx
    cases hx
    cases l
    cases k
    simp_all
  have hsub : st.leases.map Lease.msgId ⊆ st.msgs.map Msg.id := by
    intro id hid
    obtain ⟨l, hl, rfl⟩ := List.mem_map.mp hid
    obtain ⟨x, hx, -⟩ := h.msg_of_lease _ _ (h.mem_leases.mp hl)
    obtain ⟨m, hm, hid, -⟩ := h.mem_of_coreGet hx
    exact List.mem_map.mpr ⟨m, hm, hid⟩
  have hle := (hnd.subperm hsub).length_le
  rwa [List.length_map, List.length_map] at hle

theorem toNat_tally (hm : st.msgs.length < 2 ^ 32) (s : MsgState)
    (n : QueueName) :
    (UInt32.ofNat (st.tally s n)).toNat = st.number s n := by
  have hle : st.number s n ≤ st.msgs.length := List.countP_le_length
  rw [← number_eq_tally]
  exact toNat_ofNat32 (Nat.lt_of_le_of_lt hle hm)

/-- The invariant of the model in the words of the tables. -/
theorem consistent (h : Rep st pend) (hm : st.msgs.length < 2 ^ 32)
    (hq : st.queues.length < 2 ^ 32) : st.Consistent where
  ids := h.placed.msgs.nodup_toList
  id_ne_zero := fun m hmem => h.id_ne_zero _ _ (h.coreGet_mem hmem)
  queue_exists := by
    intro m hmem
    obtain ⟨q, hget⟩ := Option.isSome_iff_exists.mp
      (h.queue_exists _ _ (h.coreGet_mem hmem))
    have hname := queueGet_name hget
    exact ⟨q, h.mem_queues.mpr (by rw [hname]; exact hget), hname⟩
  names := h.placed.queues.nodup_toList
  pending := by
    intro q hmem
    have hlinked := h.lists.linked q.name
    have hcount := h.lists.count q.name
    rw [h.queueOr_mem hmem] at hlinked hcount
    refine ⟨pend q.name, hlinked, ?_, ?_⟩
    · rw [hcount]
      exact toNat_ofNat32 (Nat.lt_of_le_of_lt (h.length_le q.name) hm)
    intro id
    constructor
    · intro hid
      obtain ⟨x, hx, hname⟩ := h.lists.stored q.name id hid
      obtain ⟨m, hmem, hmid, rfl⟩ := h.mem_of_coreGet hx
      refine ⟨m, hmem, hmid, hname, (h.pending_mem id m.core hx).mp ?_⟩
      rw [hname]
      exact hid
    · rintro ⟨m, hmem, rfl, hname, hs⟩
      rw [← hname]
      exact (h.pending_mem m.id m.core (h.coreGet_mem hmem)).mpr hs
  leasedCount := by
    intro q hmem
    have hcount := h.leasedCount q.name
    rw [h.queueOr_mem hmem] at hcount
    rw [hcount, toNat_tally hm]
  ackedCount := by
    intro q hmem
    have hcount := h.ackedCount q.name
    rw [h.queueOr_mem hmem] at hcount
    rw [hcount, toNat_tally hm]
  leaseIds := h.placed.leases.nodup_toList
  leaseId_ne_zero := by
    intro l hl
    obtain ⟨x, hx, hs, hid, -⟩ := h.msg_of_lease _ _ (h.mem_leases.mp hl)
    rw [← hid]
    exact (h.lease_of_msg _ _ hx hs).1
  lease_of_msg := by
    intro m hmem hs
    exact h.mem_leases.mpr
      (h.lease_of_msg m.id m.core (h.coreGet_mem hmem) hs).2
  msg_of_lease := by
    intro l hl
    obtain ⟨x, hx, hs, hid, he⟩ := h.msg_of_lease _ _ (h.mem_leases.mp hl)
    obtain ⟨m, hmem, hmid, rfl⟩ := h.mem_of_coreGet hx
    exact ⟨m, hmem, hmid, hs, hid, he⟩
  unleased := fun m hmem hs => (h.unleased _ _ (h.coreGet_mem hmem) hs).1
  msgCount := by
    rw [h.sized.msgs, toNat_ofNat64 hm]
  queueCount := by
    rw [h.sized.queues, toNat_ofNat64 hq]
  leaseCount := by
    rw [h.sized.leases, toNat_ofNat64 (Nat.lt_of_le_of_lt h.leases_le hm)]

end Rep

/-- Where the tables agree, no decrement underflows. -/
theorem Consistent.decrements (h : st.Consistent) {pend : PendingLists}
    (hrep : st.Rep pend) : st.Decrements := by
  intro m hm q hget
  have hname := queueGet_name hget
  have hq : q ∈ st.queues := hrep.mem_queues.mpr (by rw [hname]; exact hget)
  constructor
  · intro hs
    obtain ⟨xs, -, hcount, hmem⟩ := h.pending q hq
    have hin : m.id ∈ xs := (hmem m.id).mpr ⟨m, hm, rfl, hname.symm, hs⟩
    rw [hcount]
    exact List.length_pos_of_mem hin
  · intro hs
    refine ⟨?_, ?_⟩
    · rw [h.leasedCount q hq]
      exact List.countP_pos_iff.mpr
        ⟨m, hm, decide_eq_true ⟨hs, hname.symm⟩⟩
    · rw [h.leaseCount]
      exact List.length_pos_of_mem (h.lease_of_msg m hm hs)

end State

/-- The calls that have a branch for damaged tables. -/
def Call.Walks : Call → Prop
  | .pop _ _ => True
  | .popAny _ => True
  | .compact => True
  | _ => False

section Runs

variable {v : View} {c : Content} {now : UInt64} {call : Call}

/-- On well-formed tables the head of a list is in the message table. -/
theorem View.Wf.pop_result (h : v.Wf c) (queue : Option CString)
    (outMsg : Bool) : (v.pop now queue outMsg).result ≠ .code .errCorrupt := by
  unfold View.pop
  split
  · nofun
  split
  · nofun
  split
  · nofun
  next q hq =>
  split
  · nofun
  next hne =>
  obtain ⟨m, hm⟩ := Option.isSome_iff_exists.mp
    (h.head_isSome hq (fun h0 => hne (Or.inr h0)))
  rw [hm]
  nofun

theorem View.Wf.popAny_result (h : v.Wf c) (outMsg : Bool) :
    (v.popAny now outMsg).result ≠ .code .errCorrupt := by
  obtain ⟨best, hbest, -⟩ := h.popAnyScan
  unfold View.popAny
  split
  · nofun
  rw [hbest]
  cases best with
  | none =>
      nofun
  | some x =>
      nofun

/-- A call on well-formed tables does not find them damaged. -/
theorem Phase.Step.not_corrupt {ph ph' : Phase} {res : Result}
    (hs : ph.Step now call res ph') (hph : ph = .opened v) (h : v.Wf c)
    (hcall : call.Walks) : res ≠ .code .errCorrupt := by
  cases hs with
  | null hne _ =>
      exact absurd hph (hne v)
  | @move v₁ v' call mv res hmv ho =>
      cases hph
      have hres : mv.result ≠ .code .errCorrupt := by
        cases call with
        | pop queue outMsg =>
            cases hmv
            exact h.pop_result queue outMsg
        | popAny outMsg =>
            cases hmv
            exact h.popAny_result outMsg
        | compact =>
            cases hmv
        | _ =>
            exact hcall.elim
      rcases ho.inv with ⟨rfl, -⟩ | ⟨rfl, -⟩
      · exact hres
      · nofun
  | compact _ _ =>
      nofun
  | compactIo _ =>
      nofun
  | _ =>
      exact hcall.elim

/-- In every state that replay builds and that calls reach from there the
tables agree, no counter underflows, and no call finds damaged tables. -/
theorem tables_consistent {s s' : Sys} {as : List Act} (h : s.Starts)
    (hrun : Run Sys.FreshReturns s as s') {db : Db} {st : State}
    (hdb : s'.db = some db) (hst : db.state = some st)
    (hm : st.msgs.length < 2 ^ 32) (hq : st.queues.length < 2 ^ 32) :
    st.Consistent ∧ st.Decrements ∧
      ∀ now (call : Call), call.Walks → ∃ res t,
        s'.step ⟨now, call⟩ = some (res, t) ∧ res ≠ .code .errCorrupt := by
  obtain ⟨ph, his, hwf⟩ := h.run hrun
  cases ph with
  | opened v =>
      have heq := hst.symm.trans (his.state hdb)
      cases heq
      obtain ⟨c, hc⟩ := hwf v rfl
      have hrep := hc.shows.rep
      have hcons := hrep.consistent hm hq
      refine ⟨hcons, hcons.decrements hrep, ?_⟩
      intro now call hcall
      obtain ⟨res, t, ph', hstep, hst', -⟩ := his.step hwf ⟨now, call⟩
      exact ⟨res, t, hstep, hst'.not_corrupt rfl hc hcall⟩
  | _ =>
      rw [his.db_none (by simp)] at hdb
      cases hdb

/-- A push of an empty message on the second queue, next to a short log. -/
theorem Sys.Is.push_second {s : Sys} {v : View} (his : s.Is (.opened v)) {c : Content}
    (h : v.Wf c)
    (hroom : v.start.toNat + (encodeLog v.rs).length ≤ 2 ^ 30) :
    ∃ s', s.step ⟨0, .push secondQueue (.buf [])⟩ = some (.code .ok, s') ∧
      s'.Is (.opened (v.log (pushRecord v.mem.nextMsgId secondBody)
        (v.pushed secondBody))) := by
  have hwf : Phase.WellFormed (.opened v) := by
    rintro _ ⟨⟩
    exact ⟨c, h⟩
  obtain ⟨res, s', ph', hstep, hst, his'⟩ :=
    his.step hwf ⟨0, .push secondQueue (.buf [])⟩
  cases hst with
  | null hne _ =>
      exact absurd rfl (hne v)
  | @move _ v' _ mv _ hmv ho =>
      cases hmv
      change (v.push secondQueue (.buf [])).Outcome False v res v' at ho
      have hpush : v.push secondQueue (.buf []) =
          .log (pushRecord v.mem.nextMsgId secondBody)
            { v.mem with nextMsgId := v.mem.nextMsgId + 1 }
            (v.pushed secondBody) (.code .ok) := by
        unfold View.push
        rw [pushArg_second]
      rw [hpush] at ho
      cases ho with
      | io hio =>
          rcases hio with hF | hno
          · exact hF.elim
          · refine absurd (Or.inr ?_) hno
            have hmx := maxFileSize_eq
            have hsize := (pushRecord v.mem.nextMsgId secondBody).size_le
            unfold maxRecord at hsize
            rw [encodeLog_append, List.length_append, encodeLog_cons,
              encodeLog_nil, List.append_nil, Record.length_encode]
            omega
      | half hF =>
          exact hF.elim
      | full hfit =>
          exact ⟨s', hstep, his'⟩

/-- The view of a file with one message. -/
def pushedView : View :=
  ((logDb [pushRecord 1 roundBody]).fileOf [pushRecord 1 roundBody]).opened
    (pushedMem roundBody) (leaseTimeoutOf 0)

/-- A push next to one message. -/
def secondActs : List Act :=
  [.call ⟨0, .push secondQueue (.buf [])⟩ (some 2) (.code .ok)]

/-- A file with one message, and a push behind it. -/
theorem exists_second : ∃ (w : World) (f : Bytes) (s₀ s : Sys), Image w 0 f ∧
    (⟨w, none⟩ : Sys).step ⟨0, .openDb 0⟩ = some (.code .ok, s₀) ∧
    s₀.Is (.opened pushedView) ∧ Run Sys.Returns s₀ secondActs s ∧
    s.Is (.opened (pushedView.log (pushRecord 2 secondBody)
      (pushedView.pushed secondBody))) := by
  have hlen : (encodeLog [pushRecord 1 roundBody]).length ≤ maxRecord :=
    le_trans (length_encodeLog_le _) (by decide)
  have hroom : hdrSize.toNat + (encodeLog [pushRecord 1 roundBody]).length ≤
      2 ^ 30 :=
    le_trans (Nat.add_le_add_left hlen _) (by decide)
  obtain ⟨s₀, himg, hopen, his⟩ := logFile_opens
    (le_trans hlen (by decide)) (pushedMem_replay roundBody) 0
  change s₀.Is (.opened pushedView) at his
  obtain ⟨c, hwf⟩ : ∃ c, pushedView.Wf c :=
    View.wf_of_replay (Or.inr (le_trans hroom (by decide)))
      (pushedMem_replay roundBody)
  obtain ⟨s, hpush, his'⟩ := his.push_second hwf hroom
  have hid : s₀.nextId = some 2 := by
    obtain ⟨db, i, hdb, hlive⟩ := his
    rw [Sys.nextId, hdb, Option.map_some, hlive.nextMsgId]
    rfl
  have hret := Sys.Returns.call hpush
  rw [hid] at hret
  exact ⟨_, _, s₀, s, himg, hopen, his, .single hret, his'⟩

/-- Two messages in two queues. -/
theorem tables_consistent_pushed : ∃ (s₀ s : Sys) (db : Db) (st : State)
    (res : Result) (t : Sys), s₀.Starts ∧
      Run Sys.FreshReturns s₀ secondActs s ∧ s.db = some db ∧
      db.state = some st ∧ st.Consistent ∧ st.Decrements ∧
      s.step ⟨0, .pop secondQueue true⟩ = some (res, t) ∧
      res ≠ .code .errCorrupt := by
  obtain ⟨w, f, s₀, s, himg, hopen, his, hrun, his'⟩ := exists_second
  have hstart : s₀.Starts := .image himg hopen
  have hfresh : s₀.Fresh (.push secondQueue (.buf [])) := by
    obtain ⟨db, i, hdb, hlive⟩ := his
    intro db' st hdb' hst
    rw [hdb] at hdb'
    cases hdb'
    have heq := hst.symm.trans hlive.state
    cases heq
    refine ⟨?_, ?_⟩
    · rw [hlive.nextMsgId]
      decide +kernel
    · rw [hlive.nextMsgId]
      decide +kernel
  have hrun' : Run Sys.FreshReturns s₀ secondActs s := by
    obtain ⟨t, h0, hs⟩ : ∃ t, Run Sys.Returns s₀ [] t ∧ _ :=
      Run.snoc_inv hrun
    cases h0.nil_inv
    refine .single ⟨?_, hs⟩
    rintro _ _ _ ⟨⟩
    exact hfresh
  obtain ⟨db, i, hdb, hlive⟩ := his'
  have hsize : (pushedView.pushed secondBody).st.msgs.length < 2 ^ 32 ∧
      (pushedView.pushed secondBody).st.queues.length < 2 ^ 32 := by
    decide +kernel
  obtain ⟨hcons, hdec, hcalls⟩ := tables_consistent hstart hrun' hdb
    hlive.state hsize.1 hsize.2
  obtain ⟨res, t, hstep, hne⟩ := hcalls 0 (.pop secondQueue true) trivial
  exact ⟨s₀, s, db, _, res, t, hstart, hrun', hdb, hlive.state, hcons, hdec,
    hstep, hne⟩

end Runs

end Qdb
