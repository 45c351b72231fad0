import Qdb.Runs

/-!
# Exhausting the id counters

Both id counters are 64 bits wide.  A message that is pushed, popped and
acknowledged costs one id and one lease id, and a compaction then shrinks the
log to a single CHECKPOINT record, so the counters reach their last value in a
file of a few hundred bytes.
-/

namespace Qdb

open Lib

/-- The largest record. -/
abbrev maxRecord : Nat := 67109386

theorem Record.size_le (r : Record) : r.size ≤ maxRecord := by
  have := r.fits
  unfold size maxRecord
  omega

/-- An open database with a log of at most `k` bytes. -/
structure Small (s : Sys) (v : View) (c : Content) (k : Nat) : Prop where
  is : s.Is (.opened v)
  inv : v.Inv c
  start : v.start = hdrSize
  short : (encodeLog v.rs).length ≤ k

/-- No live message. -/
structure Broker.Empty (b : Broker) : Prop where
  queue : ∀ n, b.queue n = []
  lease : ∀ l, b.lease l = none

/-- What a compaction copies is live. -/
theorem View.Wf.live_of_job {v : View} {c : Content} (h : v.Wf c) {m : Msg}
    (hm : m ∈ v.mem.st.jobs) :
    v.message m ∈ (v.live c).queue m.queueName ∨
      (v.live c).lease m.leaseId = some ⟨v.message m, m.leaseExpiryUs⟩ := by
  obtain ⟨hget, hs⟩ := h.shows.rep.mem_jobs.mp hm
  have hx := h.shows.msgGet hget
  rcases hs with hs | hs
  · left
    have hin : m.id ∈ c.pend m.queueName := (h.pending_mem hx).mpr hs
    obtain ⟨xs, h1, h2, h3⟩ :=
      h.queue_eq (o := some v.leaseTimeoutUs) m.queueName
    change v.message m ∈
      (v.broker c (some v.leaseTimeoutUs)).queue m.queueName
    rw [← h2] at hin
    obtain ⟨y, hy, hid⟩ := List.mem_map.mp hin
    have hget' := (h3 y hy).1
    rw [hid, hx] at hget'
    cases hget'
    rw [h1]
    exact List.mem_map.mpr ⟨_, hy, rfl⟩
  · exact Or.inr (h.lease_eq.mpr ⟨m.core, hx, hs, rfl, rfl⟩)

/-- There are as many live messages as ids for them. -/
theorem View.Wf.jobs_length_le {v : View} {c : Content} (h : v.Wf c)
    {ids : List UInt64} (hqueue : ∀ n, ∀ m ∈ (v.live c).queue n, m.id ∈ ids)
    (hlease : ∀ l x, (v.live c).lease l = some x → x.msg.id ∈ ids) :
    v.mem.st.jobs.length ≤ ids.length := by
  have hsub : v.mem.st.jobs.map Msg.id ⊆ ids := by
    intro id hid
    obtain ⟨m, hm, rfl⟩ := List.mem_map.mp hid
    rcases h.live_of_job hm with hq | hl
    · exact hqueue _ _ hq
    · exact hlease _ _ hl
  have hnd : (v.mem.st.jobs.map Msg.id).Nodup :=
    List.pairwise_map.mpr h.shows.rep.nodup_jobs
  have hle := (hnd.subperm hsub).length_le
  rwa [List.length_map] at hle

/-- The message of a lease. -/
theorem View.Wf.leased_msg {v : View} {c : Content} (h : v.Wf c) {l : UInt64}
    {x : Held} (hl : (v.live c).lease l = some x) :
    ∃ m, v.mem.st.msgGet x.msg.id = some m ∧ m.id = x.msg.id ∧
      m.state = .leased ∧ m.leaseId = l := by
  obtain ⟨y, hy, hs, rfl, rfl⟩ := h.lease_eq.mp hl
  obtain ⟨m, hm, hcore, hid⟩ := h.shows.of_msg hy
  refine ⟨m, hm, hid, ?_, ?_⟩
  · rw [← hs, hcore]
    rfl
  · rw [hcore]
    rfl

/-- Its acknowledgement. -/
theorem View.ack_of_leased {v : View} {id l : UInt64} {m : Msg}
    (hm : v.mem.st.msgGet id = some m) (hs : m.state = .leased)
    (hl : m.leaseId = l) :
    v.ack id l = v.resolve (ackRecord id l) qdbAckState m l := by
  unfold View.ack View.resolveCall
  rw [hm]
  dsimp only
  rw [if_neg (by rw [hs]; simp), if_neg (by rw [hl]; simp)]

/-- Without live messages a compaction writes one record. -/
theorem View.Wf.jobs_empty {v : View} {c : Content} (h : v.Wf c)
    (he : (v.live c).Empty) : v.mem.st.jobs = [] := by
  rw [List.eq_nil_iff_forall_not_mem]
  intro m hm
  rcases h.live_of_job hm with hq | hl
  · rw [he.queue] at hq
    cases hq
  · rw [he.lease] at hl
    cases hl

theorem View.Wf.compactRecords_jobs {v : View} {c : Content} (h : v.Wf c)
    (hjobs : v.mem.st.jobs = []) (now : UInt64) : v.compactRecords now =
      [checkpointRecord now v.mem.nextMsgId v.mem.nextLeaseId] := by
  rw [View.compactRecords_eq h.shows.rep, hjobs]
  rfl

theorem View.Wf.compactRecords_empty {v : View} {c : Content} (h : v.Wf c)
    (he : (v.live c).Empty) (now : UInt64) : v.compactRecords now =
      [checkpointRecord now v.mem.nextMsgId v.mem.nextLeaseId] :=
  h.compactRecords_jobs (h.jobs_empty he) now

theorem length_encodeLog_le (rs : List Record) :
    (encodeLog rs).length ≤ rs.length * maxRecord := by
  induction rs with
  | nil =>
      simp
  | cons r rs ih =>
      have := r.size_le
      rw [encodeLog_cons, List.length_append, Record.length_encode,
        List.length_cons, Nat.succ_mul]
      omega

/-- A compaction writes two records for each live message at most. -/
theorem View.Wf.compactRecords_short {v : View} {c : Content} (h : v.Wf c)
    (now : UInt64) : (encodeLog (v.compactRecords now)).length ≤
      (2 * v.mem.st.jobs.length + 1) * maxRecord := by
  refine le_trans (length_encodeLog_le _) (Nat.mul_le_mul_right _ ?_)
  rw [View.compactRecords_eq h.shows.rep, List.length_append,
    List.length_singleton]
  refine Nat.succ_le_succ ?_
  generalize v.mem.st.jobs = ms
  induction ms with
  | nil =>
      simp
  | cons m ms ih =>
      have hone : (jobRecords v.start v.rs m).length ≤ 2 := by
        unfold jobRecords
        split <;> simp
      rw [List.flatMap_cons, List.length_append, List.length_cons]
      omega

theorem fits_checkpoint (now a l : UInt64) :
    Fits hdrSize [checkpointRecord now a l] := by
  right
  have := maxFileSize_eq
  have hsize : (checkpointRecord now a l).size = 34 := by
    simp [Record.size, checkpointRecord, checkpointPayload]
  rw [show encodeLog [checkpointRecord now a l] = _ from
    encodeLog_snoc [] _, encodeLog_nil, List.nil_append,
    Record.length_encode, hsize, show hdrSize.toNat = 4096 from rfl]
  omega

/-- A compaction that fits; the counters are those replay finds. -/
theorem View.Wf.compact_step {s : Sys} {v : View} {c : Content} (h : v.Wf c)
    (his : s.Is (.opened v)) {now : UInt64}
    (hfit : Qdb.Fits hdrSize (v.compactRecords now)) :
    ∃ s' mem, s.step ⟨now, .compact⟩ = some (.code .ok, s') ∧
      v.compactReplay now = some mem ∧
      s'.Is (.opened (v.compacted now mem)) := by
  have hwf : (Phase.opened v).WellFormed := by
    intro v' hv'
    cases hv'
    exact ⟨c, h⟩
  obtain ⟨res, s', ph', hs, hst, his'⟩ := his.step hwf ⟨now, .compact⟩
  cases hst with
  | null hph _ =>
      exact absurd rfl (hph v)
  | move hmv _ =>
      cases hmv
  | compact hmem _ =>
      exact ⟨s', _, hs, hmem, his'⟩
  | compactIo hno =>
      exact absurd hfit hno

/-- There is room for one more record. -/
theorem fits_snoc {rs : List Record} (h : (encodeLog rs).length ≤ 2 ^ 62)
    (r : Record) : Fits hdrSize (rs ++ [r]) := by
  right
  have h2 := r.size_le
  have h3 := maxFileSize_eq
  rw [encodeLog_snoc, List.length_append, Record.length_encode,
    show hdrSize.toNat = 4096 from rfl]
  unfold maxRecord at h2
  omega

namespace Small

variable {s : Sys} {v : View} {c : Content} {k : Nat}
variable {t : UInt64} {f : Call}

theorem fits (h : Small s v c k) (hk : k ≤ 2 ^ 62) (r : Record) :
    Fits v.start (v.rs ++ [r]) := by
  rw [h.start]
  exact fits_snoc (le_trans h.short hk) r

theorem sys_counting (h : Small s v c k) (hn : v.Counting) : s.Counting := by
  intro db hdb
  obtain ⟨db', i, hdb', hlive⟩ := h.is
  rw [hdb] at hdb'
  cases hdb'
  rw [hlive.nextMsgId, hlive.nextLeaseId]
  exact ⟨hn.msg, hn.lease⟩

theorem nextId (h : Small s v c k) : s.nextId = some v.mem.nextMsgId := by
  obtain ⟨db, i, hdb, hlive⟩ := h.is
  rw [Sys.nextId, hdb, Option.map_some, hlive.nextMsgId]

/-- In a short file no call is refused by the machine. -/
theorem move_step (h : Small s v c k) (hk : k ≤ 2 ^ 62) {mv : Move}
    (hmv : v.move t f = some mv) :
    ∃ s', s.step ⟨t, f⟩ = some (mv.result, s') ∧
      s'.Is (.opened (v.after mv)) :=
  h.is.move h.inv.wf.located_msg hmv (h.fits hk)

theorem move_call (h : Small s v c k) (hn : v.Counting) (hk : k ≤ 2 ^ 62)
    {mv : Move} (hmv : v.move t f = some mv) :
    ∃ s' c', s.step ⟨t, f⟩ = some (mv.result, s') ∧
      Small s' (v.after mv) c' (k + maxRecord) ∧
      (v.live c).Step seen32 t f mv.result ((v.after mv).live c') := by
  obtain ⟨s', hs, his⟩ := h.move_step hk hmv
  have h1 := h.short
  cases mv with
  | refuse res =>
      refine ⟨s', c, hs, ⟨his, h.inv, h.start, ?_⟩, h.inv.refuse_step hn hmv⟩
      exact le_trans h1 (Nat.le_add_right _ _)
  | log r half full res =>
      obtain ⟨c', hinv, hstep⟩ :=
        h.inv.logs_step hn (h.inv.wf.logs hmv) (h.fits hk r)
      refine ⟨s', c', hs, ⟨his, hinv, h.start, ?_⟩, hstep⟩
      have h2 := r.size_le
      change (encodeLog (v.rs ++ [r])).length ≤ _
      rw [encodeLog_snoc, List.length_append, Record.length_encode]
      omega

theorem compact (h : Small s v c k) (hn : v.Counting)
    {k' : Nat} (hlen : (encodeLog (v.compactRecords t)).length ≤ k')
    (hk : k' ≤ 2 ^ 62) :
    ∃ s' v' c', s.step ⟨t, .compact⟩ = some (.code .ok, s') ∧
      Small s' v' c' k' ∧ v'.live c' = (v.live c).compacted := by
  have hfit : Fits hdrSize (v.compactRecords t) := by
    right
    have := maxFileSize_eq
    rw [show hdrSize.toNat = 4096 from rfl]
    omega
  obtain ⟨s', mem, hs, hmem, his⟩ := h.inv.wf.compact_step h.is hfit
  obtain ⟨mem', d, hmem', hm, hl, hcomp, hinv⟩ := h.inv.compact hn t
  have heq : mem' = mem := Option.some.inj (hmem'.symm.trans hmem)
  subst heq
  exact ⟨s', _, d, hs, ⟨his, hinv hfit, rfl, hlen⟩,
    h.inv.compacted_live hm hl hcomp hfit⟩

end Small

/-- A session with a short log that shows `b`. -/
def Sys.ShowsSmall (s : Sys) (b : Broker) (k : Nat) : Prop :=
  ∃ v c, Small s v c k ∧ v.live c = b

section ShowsSmall

variable {s : Sys} {b : Broker} {k : Nat}

/-- A call that logs at most one record, next to a short log. -/
theorem Sys.ShowsSmall.call (h : s.ShowsSmall b k) (hk : k ≤ 2 ^ 62)
    (hmsg : b.nextMsgId ≠ 0) (hlease : b.nextLeaseId ≠ 0) (f : Call)
    (hf : ∀ v : View, (v.move 0 f).isSome) :
    ∃ res s' b', s.CountedReturns
        (.call ⟨0, f⟩ (some b.nextMsgId) res) s' ∧
      s'.ShowsSmall b' (k + maxRecord) ∧ b.Step seen32 0 f res b' := by
  obtain ⟨v, c, hsmall, rfl⟩ := h
  have hn : v.Counting := ⟨hmsg, hlease⟩
  obtain ⟨mv, hmv⟩ := Option.isSome_iff_exists.mp (hf v)
  obtain ⟨s', c', hs, hsmall', hstep⟩ := hsmall.move_call (t := 0) hn hk hmv
  refine ⟨_, s', _, ⟨hsmall.sys_counting hn, ?_⟩, ⟨_, c', hsmall', rfl⟩,
    hstep⟩
  have hid : s.nextId = some (v.live c).nextMsgId := hsmall.nextId
  rw [← hid]
  exact .call hs

/-- The abstract machine after the first open. -/
def Broker.created : Broker :=
  { Broker.new with session := some (leaseTimeoutOf 0) }

theorem Sys.ShowsSmall.create :
    ∃ s, Sys.init.CountedReturns
        (.call ⟨0, .openDb 0⟩ none (.code .ok)) s ∧
      s.ShowsSmall Broker.created maxRecord := by
  have hwf : Phase.absent.WellFormed := by
    intro v hv
    cases hv
  have his : Sys.init.Is .absent := ⟨rfl, rfl, rfl, rfl⟩
  obtain ⟨res, s, ph', hs, hst, his'⟩ := his.step hwf ⟨0, .openDb 0⟩
  cases hst with
  | null _ hc =>
      exact absurd trivial hc
  | create _ =>
      refine ⟨s, ⟨?_, .call hs⟩, _, Content.empty,
        ⟨his', newFile_inv 0 _, rfl, Nat.zero_le _⟩, newFile_live 0 _⟩
      intro db hdb
      cases hdb

theorem Sys.ShowsSmall.shows (h : s.ShowsSmall b k) : s.Shows b := by
  obtain ⟨v, c, hsmall, rfl⟩ := h
  exact ⟨_, hsmall.is, c, hsmall.inv, rfl⟩

/-- A compaction of a database whose live messages have the ids `ids`. -/
theorem Sys.ShowsSmall.compact (h : s.ShowsSmall b k)
    (hmsg : b.nextMsgId ≠ 0) (hlease : b.nextLeaseId ≠ 0) {ids : List UInt64}
    (hqueue : ∀ n, ∀ m ∈ b.queue n, m.id ∈ ids)
    (hleased : ∀ l x, b.lease l = some x → x.msg.id ∈ ids)
    (hk : (2 * ids.length + 1) * maxRecord ≤ 2 ^ 62) :
    ∃ s', s.CountedReturns
        (.call ⟨0, .compact⟩ (some b.nextMsgId) (.code .ok)) s' ∧
      s'.ShowsSmall b.compacted ((2 * ids.length + 1) * maxRecord) := by
  obtain ⟨v, c, hsmall, rfl⟩ := h
  have hn : v.Counting := ⟨hmsg, hlease⟩
  have hjobs := hsmall.inv.wf.jobs_length_le hqueue hleased
  have hlen : (encodeLog (v.compactRecords 0)).length ≤
      (2 * ids.length + 1) * maxRecord := by
    refine le_trans (hsmall.inv.wf.compactRecords_short 0)
      (Nat.mul_le_mul_right _ ?_)
    omega
  obtain ⟨s', v', c', hs, hsmall', hb⟩ := hsmall.compact hn hlen hk
  refine ⟨s', ⟨hsmall.sys_counting hn, ?_⟩, v', c', hsmall', hb⟩
  have hid : s.nextId = some (v.live c).nextMsgId := hsmall.nextId
  rw [← hid]
  exact .call hs

end ShowsSmall

/-- Where there is one lease, every lease is that one. -/
theorem Held.single {x y : Held} {l l' : UInt64}
    (hy : Function.update (fun _ => none) l (some x) l' = some y) :
    l' = l := by
  by_contra hne
  rw [Function.update_of_ne hne] at hy
  cases hy

/-- The queue the rounds use. -/
def roundQueue : Option CString :=
  some ⟨[97], by decide⟩

def roundName : QueueName :=
  ⟨[97], by decide, by decide⟩

def roundBody : Body :=
  ⟨roundName, [], by decide⟩

theorem queueArg_round : queueArg roundQueue = some roundName := by
  rfl

theorem pushArg_round : pushArg roundQueue (.buf []) = some roundBody := by
  rfl

/-- A second queue. -/
def secondQueue : Option CString :=
  some ⟨[98], by decide⟩

def secondName : QueueName :=
  ⟨[98], by decide, by decide⟩

def secondBody : Body :=
  ⟨secondName, [], by decide⟩

theorem queueArg_second : queueArg secondQueue = some secondName := by
  rfl

theorem pushArg_second : pushArg secondQueue (.buf []) = some secondBody := by
  rfl

/-- What one round observes that starts with the counters `a` and `l`. -/
def roundActs (a l : UInt64) : List Act :=
  [.call ⟨0, .push roundQueue (.buf [])⟩ (some a) (.code .ok),
    .call ⟨0, .pop roundQueue true⟩ (some (a + 1))
      (.msg ⟨a, l, roundName, [], 0⟩),
    .call ⟨0, .ack a l⟩ (some (a + 1)) (.code .ok),
    .call ⟨0, .compact⟩ (some (a + 1)) (.code .ok)]

/-- The message of a round that has the id `a`. -/
def roundMessage (a : UInt64) (r : UInt32) : Message :=
  ⟨a, roundName, [], r⟩

/-- An open database without live messages, with its counters. -/
def Idle (s : Sys) (a l : UInt64) : Prop :=
  ∃ v c, Small s v c maxRecord ∧ (v.live c).Empty ∧
    v.mem.nextMsgId = a ∧ v.mem.nextLeaseId = l

/-- The message of a round has been pushed. -/
def RoundPushed (s : Sys) (a l : UInt64) (r : UInt32) (k : Nat) : Prop :=
  ∃ v c, Small s v c k ∧
    (v.live c).queue = Function.update (fun _ => []) roundName
      [roundMessage a r] ∧
    (∀ k, (v.live c).lease k = none) ∧
    v.mem.nextMsgId = a + 1 ∧ v.mem.nextLeaseId = l

/-- The message of a round is leased. -/
def RoundPopped (s : Sys) (a l : UInt64) (r : UInt32) (k : Nat) : Prop :=
  ∃ v c e, Small s v c k ∧
    (∀ n, (v.live c).queue n = []) ∧
    (v.live c).lease = Function.update (fun _ => none) l
      (some ⟨roundMessage a r, e⟩) ∧
    v.mem.nextMsgId = a + 1 ∧ v.mem.nextLeaseId = l + 1

/-- The message of a round is acknowledged. -/
def RoundAcked (s : Sys) (a l : UInt64) : Prop :=
  ∃ v c k, Small s v c k ∧ (v.live c).Empty ∧
    v.mem.nextMsgId = a + 1 ∧ v.mem.nextLeaseId = l + 1

section Round

variable {s : Sys} {a l : UInt64} {r : UInt32} {k : Nat}

theorem Idle.push (h : Idle s a l) (ha : a ≠ 0) (hl : l ≠ 0) :
    ∃ s', s.CountedReturns
      (.call ⟨0, .push roundQueue (.buf [])⟩ (some a) (.code .ok)) s' ∧
      RoundPushed s' a l 0 (maxRecord + maxRecord) := by
  obtain ⟨v, c, hsmall, hempty, rfl, rfl⟩ := h
  have hn : v.Counting := ⟨ha, hl⟩
  obtain ⟨s', c', hs, hsmall', hstep⟩ := hsmall.move_call
    (t := 0) hn (by decide) (f := .push roundQueue (.buf [])) rfl
  obtain ⟨hres, hb⟩ := hstep.push_inv rfl pushArg_round
  rw [hres] at hs
  refine ⟨s', ⟨hsmall.sys_counting hn, ?_⟩, _, c', hsmall', ?_, ?_, ?_, ?_⟩
  · rw [← hsmall.nextId]
    exact .call hs
  · rw [hb]
    change Function.update (v.live c).queue roundName _ = _
    rw [show (v.live c).queue = fun _ => [] from funext hempty.queue]
    rfl
  · intro k
    rw [hb]
    exact hempty.lease k
  · exact congrArg Broker.nextMsgId hb
  · exact congrArg Broker.nextLeaseId hb

theorem RoundPushed.pop (h : RoundPushed s a l r k) (hk : k ≤ 2 ^ 62)
    (ha : a + 1 ≠ 0) (hl : l ≠ 0) :
    ∃ s', s.CountedReturns (.call ⟨0, .pop roundQueue true⟩ (some (a + 1))
      (.msg ⟨a, l, roundName, [], r⟩)) s' ∧
      RoundPopped s' a l r (k + maxRecord) := by
  obtain ⟨v, c, hsmall, hqueue, hlease, ha1, rfl⟩ := h
  have hn : v.Counting := ⟨ha1 ▸ ha, hl⟩
  obtain ⟨s', c', hs, hsmall', hstep⟩ := hsmall.move_call
    (t := 0) hn hk (f := .pop roundQueue true) rfl
  have hq : (v.live c).queue roundName = [roundMessage a r] := by
    rw [hqueue, Function.update_self]
  have hoff : (v.live c).Offers seen32 roundName (roundMessage a r) := by
    unfold Broker.Offers
    rw [hq]
    exact ⟨rfl, Nat.one_ne_zero⟩
  obtain ⟨hres, hb⟩ := hstep.pop_inv rfl queueArg_round hoff
  rw [hres] at hs
  refine ⟨s', ⟨hsmall.sys_counting hn, ?_⟩, _, c', 0 + v.leaseTimeoutUs,
    hsmall', ?_, ?_, ?_, ?_⟩
  · rw [← ha1, ← hsmall.nextId]
    exact .call hs
  · intro n
    rw [hb]
    change Function.update (v.live c).queue roundName _ n = []
    rw [hq, hqueue, Function.update_idem, List.tail_cons,
      Function.update_eq_self]
  · rw [hb]
    change Function.update (v.live c).lease _ _ = _
    rw [show (v.live c).lease = fun _ => none from funext hlease]
    rfl
  · exact (congrArg Broker.nextMsgId hb).trans ha1
  · exact congrArg Broker.nextLeaseId hb

theorem RoundPopped.ack (h : RoundPopped s a l r k) (hk : k ≤ 2 ^ 62)
    (ha : a + 1 ≠ 0) (hl : l + 1 ≠ 0) :
    ∃ s', s.CountedReturns (.call ⟨0, .ack a l⟩ (some (a + 1)) (.code .ok))
      s' ∧ RoundAcked s' a l := by
  obtain ⟨v, c, e, hsmall, hqueue, hlease, ha1, hl1⟩ := h
  have hn : v.Counting := ⟨ha1 ▸ ha, hl1 ▸ hl⟩
  obtain ⟨s', c', hs, hsmall', hstep⟩ := hsmall.move_call
    (t := 0) hn hk (f := .ack a l) rfl
  obtain ⟨hres, hb⟩ := hstep.ack_inv rfl
    (x := ⟨roundMessage a r, e⟩) (by rw [hlease, Function.update_self]) rfl (by
      intro l' y hy _
      rw [hlease] at hy
      exact Held.single hy)
  rw [hres] at hs
  refine ⟨s', ⟨hsmall.sys_counting hn, ?_⟩, _, c', _, hsmall', ⟨?_, ?_⟩, ?_,
    ?_⟩
  · rw [← ha1, ← hsmall.nextId]
    exact .call hs
  · intro n
    rw [hb]
    exact hqueue n
  · intro k
    rw [hb]
    change Function.update (v.live c).lease l none k = none
    rw [hlease, Function.update_idem, Function.update_eq_self]
  · exact (congrArg Broker.nextMsgId hb).trans ha1
  · exact (congrArg Broker.nextLeaseId hb).trans hl1

theorem RoundPopped.nack (h : RoundPopped s a l r k) (hk : k ≤ 2 ^ 62)
    (ha : a + 1 ≠ 0) (hl : l + 1 ≠ 0) :
    ∃ s', s.CountedReturns (.call ⟨0, .nack a l⟩ (some (a + 1)) (.code .ok))
      s' ∧ RoundPushed s' a (l + 1) (r + 1) (k + maxRecord) := by
  obtain ⟨v, c, e, hsmall, hqueue, hlease, ha1, hl1⟩ := h
  have hn : v.Counting := ⟨ha1 ▸ ha, hl1 ▸ hl⟩
  obtain ⟨s', c', hs, hsmall', hstep⟩ := hsmall.move_call
    (t := 0) hn hk (f := .nack a l) rfl
  obtain ⟨hres, hb⟩ := hstep.nack_inv rfl
    (x := ⟨roundMessage a r, e⟩) (by rw [hlease, Function.update_self]) rfl (by
      intro l' y hy _
      rw [hlease] at hy
      exact Held.single hy)
  rw [hres] at hs
  refine ⟨s', ⟨hsmall.sys_counting hn, ?_⟩, _, c', hsmall', ?_, ?_, ?_, ?_⟩
  · rw [← ha1, ← hsmall.nextId]
    exact .call hs
  · rw [hb]
    change Function.update (v.live c).queue roundName _ = _
    rw [show (v.live c).queue = fun _ => [] from funext hqueue]
    rfl
  · intro k
    rw [hb]
    change Function.update (v.live c).lease l none k = none
    rw [hlease, Function.update_idem, Function.update_eq_self]
  · exact (congrArg Broker.nextMsgId hb).trans ha1
  · exact (congrArg Broker.nextLeaseId hb).trans hl1

theorem RoundAcked.compact (h : RoundAcked s a l) (ha : a + 1 ≠ 0)
    (hl : l + 1 ≠ 0) :
    ∃ s', s.CountedReturns (.call ⟨0, .compact⟩ (some (a + 1)) (.code .ok))
      s' ∧ Idle s' (a + 1) (l + 1) := by
  obtain ⟨v, c, k, hsmall, hempty, ha1, hl1⟩ := h
  have hn : v.Counting := ⟨ha1 ▸ ha, hl1 ▸ hl⟩
  have hlen : (encodeLog (v.compactRecords 0)).length ≤ maxRecord := by
    rw [hsmall.inv.wf.compactRecords_empty hempty]
    exact le_trans (length_encodeLog_le _) (by simp)
  obtain ⟨s', v', c', hs, hsmall', hb⟩ :=
    hsmall.compact hn hlen (by decide)
  refine ⟨s', ⟨hsmall.sys_counting hn, ?_⟩, v', c', hsmall', ⟨?_, ?_⟩, ?_, ?_⟩
  · rw [← ha1, ← hsmall.nextId]
    exact .call hs
  · intro n
    rw [hb]
    change ((v.live c).queue n).map _ = []
    rw [hempty.queue]
    rfl
  · intro k
    rw [hb]
    change ((v.live c).lease k).map _ = none
    rw [hempty.lease]
    rfl
  · exact (congrArg Broker.nextMsgId hb).trans ha1
  · exact (congrArg Broker.nextLeaseId hb).trans hl1

/-- With one message in the queues and none leased there is one live message
at most. -/
theorem View.Wf.jobs_le_one {v : View} {c : Content} (h : v.Wf c)
    {m : Message} (hqueue : (v.live c).queue =
      Function.update (fun _ => []) roundName [m])
    (hlease : ∀ k, (v.live c).lease k = none) :
    v.mem.st.jobs.length ≤ 1 := by
  change v.mem.st.jobs.length ≤ [m.id].length
  refine h.jobs_length_le ?_ ?_
  · intro n x hx
    rw [hqueue, Function.update_apply] at hx
    split at hx
    · rw [List.mem_singleton.mp hx]
      exact List.mem_cons_self
    · cases hx
  · intro l x hl
    rw [hlease] at hl
    cases hl

/-- A compaction while the message of a round is pending. -/
theorem RoundPushed.compact (h : RoundPushed s a l r k) (ha : a + 1 ≠ 0)
    (hl : l ≠ 0) :
    ∃ s', s.CountedReturns (.call ⟨0, .compact⟩ (some (a + 1)) (.code .ok))
      s' ∧ RoundPushed s' a l 0 (3 * maxRecord) := by
  obtain ⟨v, c, hsmall, hqueue, hlease, ha1, rfl⟩ := h
  have hn : v.Counting := ⟨ha1 ▸ ha, hl⟩
  have hjobs := hsmall.inv.wf.jobs_le_one hqueue hlease
  have hlen : (encodeLog (v.compactRecords 0)).length ≤ 3 * maxRecord := by
    refine le_trans (hsmall.inv.wf.compactRecords_short 0)
      (Nat.mul_le_mul_right _ ?_)
    omega
  obtain ⟨s', v', c', hs, hsmall', hb⟩ := hsmall.compact hn hlen (by decide)
  refine ⟨s', ⟨hsmall.sys_counting hn, ?_⟩, v', c', hsmall', ?_, ?_, ?_, ?_⟩
  · rw [← ha1, ← hsmall.nextId]
    exact .call hs
  · rw [hb]
    funext n
    change ((v.live c).queue n).map _ = _
    rw [hqueue, Function.update_apply, Function.update_apply]
    split <;> rfl
  · intro k
    rw [hb]
    change ((v.live c).lease k).map _ = none
    rw [hlease]
    rfl
  · exact (congrArg Broker.nextMsgId hb).trans ha1
  · exact congrArg Broker.nextLeaseId hb

/-- One round. -/
theorem Idle.round (h : Idle s a l) (ha : a ≠ 0) (hl : l ≠ 0)
    (ha' : a + 1 ≠ 0) (hl' : l + 1 ≠ 0) :
    ∃ s', Run Sys.CountedReturns s (roundActs a l) s' ∧
      Idle s' (a + 1) (l + 1) := by
  obtain ⟨s1, h1, hpushed⟩ := h.push ha hl
  obtain ⟨s2, h2, hpopped⟩ := hpushed.pop (by decide) ha' hl
  obtain ⟨s3, h3, hacked⟩ := hpopped.ack (by decide) ha' hl'
  obtain ⟨s4, h4, hidle⟩ := hacked.compact ha' hl'
  exact ⟨s4, (((Run.nil.snoc h1).snoc h2).snoc h3).snoc h4, hidle⟩

/-- What `n` rounds observe. -/
def roundsActs (a l : UInt64) : Nat → List Act
  | 0 => []
  | n + 1 => roundsActs a l n ++
      roundActs (a + UInt64.ofNat n) (l + UInt64.ofNat n)

/-- As many rounds as the counters allow. -/
theorem Idle.rounds (h : Idle s a l) (ha : a ≠ 0) (hl : l ≠ 0) (n : Nat)
    (han : a.toNat + n < 2 ^ 64) (hln : l.toNat + n < 2 ^ 64) :
    ∃ s', Run Sys.CountedReturns s (roundsActs a l n) s' ∧
      Idle s' (a + UInt64.ofNat n) (l + UInt64.ofNat n) := by
  have hne : ∀ {x : UInt64} {k : Nat}, x ≠ 0 → x.toNat + k < 2 ^ 64 →
      x + UInt64.ofNat k ≠ 0 := by
    intro x k hx hk h0
    have h1 := congrArg UInt64.toNat h0
    have h2 : x.toNat ≠ 0 := fun hz => hx (UInt64.toNat_inj.mp hz)
    simp at h1
    omega
  induction n with
  | zero =>
      refine ⟨s, Run.nil, ?_⟩
      simpa using h
  | succ n ih =>
      obtain ⟨s1, hrun, hidle⟩ := ih (by omega) (by omega)
      have hsucc : ∀ x : UInt64, x + UInt64.ofNat (n + 1) =
          x + UInt64.ofNat n + 1 := by
        intro x
        rw [UInt64.add_assoc]
        congr 1
        simp
      obtain ⟨s2, hround, hidle'⟩ := hidle.round
        (hne ha (by omega)) (hne hl (by omega))
        (by rw [← hsucc]; exact hne ha han)
        (by rw [← hsucc]; exact hne hl hln)
      rw [← hsucc, ← hsucc] at hidle'
      exact ⟨s2, hrun.trans hround, hidle'⟩

/-- The database has just been created. -/
theorem Idle.create (now : UInt64) (t : UInt32) :
    ∃ s, Sys.init.CountedReturns (.call ⟨now, .openDb t⟩ none (.code .ok)) s ∧
      Idle s 1 1 := by
  have hwf : Phase.absent.WellFormed := by
    intro v hv
    cases hv
  have his : Sys.init.Is .absent := ⟨rfl, rfl, rfl, rfl⟩
  obtain ⟨res, s, ph', hs, hst, his'⟩ := his.step hwf ⟨now, .openDb t⟩
  cases hst with
  | null _ hc =>
      exact absurd trivial hc
  | create _ =>
      refine ⟨s, ⟨?_, .call hs⟩, _, Content.empty,
        ⟨his', newFile_inv now _, rfl, Nat.zero_le _⟩, ?_, rfl, rfl⟩
      · intro db hdb
        cases hdb
      · exact ⟨fun _ => rfl, fun _ => rfl⟩

/-- The acts of a message that is delivered twice. -/
def twiceActs (a l : UInt64) : List Act :=
  [.call ⟨0, .push roundQueue (.buf [])⟩ (some a) (.code .ok),
    .call ⟨0, .pop roundQueue true⟩ (some (a + 1))
      (.msg ⟨a, l, roundName, [], 0⟩),
    .call ⟨0, .nack a l⟩ (some (a + 1)) (.code .ok),
    .call ⟨0, .pop roundQueue true⟩ (some (a + 1))
      (.msg ⟨a, l + 1, roundName, [], 1⟩),
    .call ⟨0, .ack a (l + 1)⟩ (some (a + 1)) (.code .ok),
    .call ⟨0, .compact⟩ (some (a + 1)) (.code .ok)]

theorem Idle.twice (h : Idle s a l) (ha : a ≠ 0) (hl : l ≠ 0)
    (ha1 : a + 1 ≠ 0) (hl1 : l + 1 ≠ 0) (hl2 : l + 1 + 1 ≠ 0) :
    ∃ s', Run Sys.CountedReturns s (twiceActs a l) s' ∧
      Idle s' (a + 1) (l + 1 + 1) := by
  obtain ⟨s1, h1, hpushed⟩ := h.push ha hl
  obtain ⟨s2, h2, hpopped⟩ := hpushed.pop (by decide) ha1 hl
  obtain ⟨s3, h3, hback⟩ := hpopped.nack (by decide) ha1 hl1
  obtain ⟨s4, h4, hpopped'⟩ := hback.pop (by decide) ha1 hl1
  obtain ⟨s5, h5, hacked⟩ := hpopped'.ack (by decide) ha1 hl2
  obtain ⟨s6, h6, hidle⟩ := hacked.compact ha1 hl2
  exact ⟨s6, (((((Run.nil.snoc h1).snoc h2).snoc h3).snoc h4).snoc h5).snoc h6,
    hidle⟩

/-- The last message id is the next one. -/
theorem exists_last_msg (now : UInt64) (t : UInt32) :
    ∃ s, Run Sys.CountedReturns Sys.init
      (.call ⟨now, .openDb t⟩ none (.code .ok) ::
        roundsActs 1 1 (2 ^ 64 - 2)) s ∧
      Idle s 0xFFFFFFFFFFFFFFFF 0xFFFFFFFFFFFFFFFF := by
  obtain ⟨n, hn⟩ : ∃ n : Nat, n = 2 ^ 64 - 2 := ⟨_, rfl⟩
  have hlast : (1 : UInt64) + UInt64.ofNat n = 0xFFFFFFFFFFFFFFFF := by
    rw [hn]
    rfl
  obtain ⟨s1, h1, hidle⟩ := Idle.create now t
  obtain ⟨s2, h2, hidle'⟩ := hidle.rounds (by decide) (by decide) n
    (by rw [hn]; decide) (by rw [hn]; decide)
  rw [hlast] at hidle'
  rw [← hn]
  exact ⟨s2, (Run.single h1).trans h2, hidle'⟩

/-- The acts up to the last lease id. -/
def leaseActs (now : UInt64) (t : UInt32) : List Act :=
  .call ⟨now, .openDb t⟩ none (.code .ok) ::
    (twiceActs 1 1 ++ (twiceActs 2 3 ++ roundsActs 3 5 (2 ^ 64 - 6)))

/-- The last lease id is the next one, and message ids are left. -/
theorem exists_last_lease (now : UInt64) (t : UInt32) :
    ∃ s, Run Sys.CountedReturns Sys.init (leaseActs now t) s ∧
      Idle s 0xFFFFFFFFFFFFFFFD 0xFFFFFFFFFFFFFFFF := by
  obtain ⟨n, hn⟩ : ∃ n : Nat, n = 2 ^ 64 - 6 := ⟨_, rfl⟩
  have hmsg : (3 : UInt64) + UInt64.ofNat n = 0xFFFFFFFFFFFFFFFD := by
    rw [hn]
    rfl
  have hlease : (5 : UInt64) + UInt64.ofNat n = 0xFFFFFFFFFFFFFFFF := by
    rw [hn]
    rfl
  obtain ⟨s1, h1, hidle⟩ := Idle.create now t
  obtain ⟨s2, h2, hidle2⟩ := hidle.twice (by decide) (by decide) (by decide)
    (by decide) (by decide)
  obtain ⟨s3, h3, hidle3⟩ := hidle2.twice (by decide) (by decide) (by decide)
    (by decide) (by decide)
  obtain ⟨s4, h4, hidle4⟩ := Idle.rounds (a := 3) (l := 5) hidle3 (by decide)
    (by decide) n (by rw [hn]; decide) (by rw [hn]; decide)
  rw [hmsg, hlease] at hidle4
  unfold leaseActs
  rw [← hn]
  exact ⟨s4, (Run.single h1).trans (h2.trans (h3.trans h4)), hidle4⟩

theorem Sys.CountedReturns.returns {s s' : Sys} {x : Act}
    (h : s.CountedReturns x s') : s.Returns x s' :=
  h.2

/-- The message is leased, and once it is acknowledged nothing is live. -/
theorem RoundPopped.acked (h : RoundPopped s a l r k) (hk : k ≤ 2 ^ 62) :
    ∃ (v : View) (c c' : Content) (m : Msg),
      Small s v c k ∧ v.mem.st.msgGet a = some m ∧ m.state = .leased ∧
      m.leaseId = l ∧ v.mem.nextMsgId = a + 1 ∧ v.mem.nextLeaseId = l + 1 ∧
      (v.log (ackRecord a l)
        { v.mem with st := qdbAckState v.mem.st m l }).Wf c' ∧
      ((v.log (ackRecord a l)
        { v.mem with st := qdbAckState v.mem.st m l }).live c').Empty := by
  obtain ⟨v, c, e, hsmall, hqueue, hlease, ha1, hl1⟩ := h
  have hwf := hsmall.inv.wf
  have hget : (v.live c).lease l = some ⟨roundMessage a r, e⟩ := by
    rw [hlease, Function.update_self]
  obtain ⟨m, hm, -, hsm, hlm⟩ := hwf.leased_msg hget
  have hr := (hwf.resolve_replays hm hsm hlm).1
  obtain ⟨c', hc', hwf'⟩ := hwf.logged hr (hsmall.fits hk _)
  rw [Record.effect, entry_ackRecord, Option.bind_some] at hc'
  obtain ⟨y, hheld, rfl⟩ := Option.map_eq_some_iff.mp hc'
  obtain ⟨hy, hsy, hly⟩ := Content.held_eq_some.mp hheld
  have hkey := hwf.key hy
  rw [← hkey] at hy
  have hb := hwf.broker_ack (r := ackRecord a l)
    (p := { v.mem with st := qdbAckState v.mem.st m l })
    (o := some v.leaseTimeoutUs) hy hsy rfl rfl
  rw [hly] at hb
  refine ⟨v, c, _, m, hsmall, hm, hsm, hlm, ha1, hl1, hwf', ⟨?_, ?_⟩⟩
  · intro n
    exact (congrFun (congrArg Broker.queue hb) n).trans (hqueue n)
  · intro j
    refine (congrFun (congrArg Broker.lease hb) j).trans ?_
    change Function.update (v.live c).lease l none j = none
    rw [hlease, Function.update_idem, Function.update_eq_self]

/-- The message under the last lease id is acknowledged like any other. -/
theorem RoundPopped.ack_step (h : RoundPopped s a l r k) (hk : k ≤ 2 ^ 62) :
    ∃ (s' : Sys) (v : View) (c : Content),
      s.Returns (.call ⟨0, .ack a l⟩ (some (a + 1)) (.code .ok)) s' ∧
      s'.Is (.opened v) ∧ v.Wf c ∧ (v.live c).Empty ∧
      v.mem.nextMsgId = a + 1 ∧ v.mem.nextLeaseId = l + 1 := by
  obtain ⟨v, c, c', m, hsmall, hm, hsm, hlm, ha1, hl1, hwf', hempty⟩ :=
    h.acked hk
  have hack := View.ack_of_leased hm hsm hlm
  obtain ⟨s', hstep, his⟩ := hsmall.move_step (t := 0) hk (f := .ack a l)
    (show v.move 0 (.ack a l) = some (v.ack a l) from rfl)
  rw [hack] at hstep his
  refine ⟨s', _, c', ?_, his, hwf', hempty, ha1, hl1⟩
  rw [← ha1, ← hsmall.nextId]
  exact .call hstep

/-- A compaction of an idle database restarts a lease counter that has
wrapped. -/
theorem compact_restarts {v : View} {c : Content} (his : s.Is (.opened v))
    (hwf : v.Wf c) (he : (v.live c).Empty) (hzero : v.mem.nextLeaseId = 0) :
    ∃ s', s.Returns (.call ⟨0, .compact⟩ (some v.mem.nextMsgId) (.code .ok))
      s' ∧ Idle s' v.mem.nextMsgId 1 := by
  have hrecs := hwf.compactRecords_empty he 0
  have hfit : Fits hdrSize (v.compactRecords 0) := by
    rw [hrecs]
    exact fits_checkpoint _ _ _
  obtain ⟨s', mem, hstep, hmem, his'⟩ := hwf.compact_step his hfit
  obtain ⟨mem', d, hmem', hshows, hcomp, hm, hl⟩ := hwf.compact 0
  have heq : mem' = mem := Option.some.inj (hmem'.symm.trans hmem)
  subst heq
  rw [hrecs, hzero] at hm hl
  have hm' : mem'.nextMsgId = v.mem.nextMsgId := by
    rw [hm]
    simp [countMsg, Record.bumpMsg, Entry.bumpMsg]
  have hl' : mem'.nextLeaseId = 1 := by
    rw [hl]
    simp [countLease, Record.bumpLease, Entry.bumpLease]
  have hnone : ∀ id, d.msg id = none := by
    intro id
    cases hx : c.msg id with
    | none =>
        exact hcomp.gone id hx
    | some x =>
        refine hcomp.acked id x hx ?_
        have hkey := hwf.key hx
        rw [← hkey] at hx
        cases hs : x.state with
        | acked =>
            rfl
        | dead =>
            exact absurd hs (hwf.shows.rep.not_dead x.id x
              (by rw [hwf.shows.msg]; exact hx))
        | pending =>
            have hin := (hwf.pending_mem hx).mpr hs
            have hlen := hwf.queue_length (o := some v.leaseTimeoutUs)
              x.queueName
            have hq : (v.broker c (some v.leaseTimeoutUs)).queue
              x.queueName = [] := he.queue _
            rw [hq] at hlen
            rw [List.length_eq_zero_iff.mp hlen.symm] at hin
            cases hin
        | leased =>
            have hsome := hwf.lease_eq (o := some v.leaseTimeoutUs)
              |>.mpr ⟨x, hx, hs, rfl, rfl⟩
            have hno := he.lease x.leaseId
            unfold View.live at hno
            rw [hno] at hsome
            cases hsome
  have hwf' := hwf.compacted hshows hcomp hfit
  have hnolease : ∀ j, d.lease j = none := by
    intro j
    cases hj : d.lease j with
    | none =>
        rfl
    | some e =>
        obtain ⟨x, hx, -⟩ := hwf'.lease_get hj
        rw [hnone] at hx
        cases hx
  have hnopend : ∀ n, d.pend n = [] := by
    intro n
    rw [List.eq_nil_iff_forall_not_mem]
    intro id hid
    obtain ⟨x, hx, -⟩ := hwf'.pend_get hid
    rw [hnone] at hx
    cases hx
  refine ⟨s', ?_, v.compacted 0 mem', d, ⟨his', ⟨hwf', ⟨?_, ?_⟩, ?_⟩, rfl, ?_⟩,
    ⟨?_, ?_⟩, hm', hl'⟩
  · obtain ⟨db, i, hdb, hlive⟩ := his
    have hid : s.nextId = some v.mem.nextMsgId := by
      rw [Sys.nextId, hdb, Option.map_some, hlive.nextMsgId]
    rw [← hid]
    exact .call hstep
  · intro _ id hid
    rw [hnone] at hid
    cases hid
  · intro _ j hj
    rw [hnolease] at hj
    cases hj
  · unfold View.Stable
    change replayRecords hdrSize _ (Mem.start mem'.nextMsgId) = some mem'
    rw [hm']
    exact hmem'
  · change (encodeLog (v.compactRecords 0)).length ≤ _
    rw [hrecs, show encodeLog [checkpointRecord 0 v.mem.nextMsgId
      v.mem.nextLeaseId] = _ from encodeLog_snoc [] _, encodeLog_nil,
      List.nil_append, Record.length_encode]
    exact Record.size_le _
  · intro n
    change (d.pend n).filterMap _ = []
    rw [hnopend]
    rfl
  · intro j
    change (d.lease j).bind _ = none
    rw [hnolease]
    rfl

/-- The round with the last lease id; lease ids start again at one. -/
theorem Idle.last_round (h : Idle s a 0xFFFFFFFFFFFFFFFF) (ha : a ≠ 0)
    (ha' : a + 1 ≠ 0) :
    ∃ s', Run Sys.Returns s (roundActs a 0xFFFFFFFFFFFFFFFF) s' ∧
      Idle s' (a + 1) 1 := by
  obtain ⟨s1, h1, hpushed⟩ := h.push ha (by decide)
  obtain ⟨s2, h2, hpopped⟩ := hpushed.pop (by decide) ha' (by decide)
  obtain ⟨s3, v, c, h3, his, hwf, he, hm, hl⟩ := hpopped.ack_step (by decide)
  obtain ⟨s4, h4, hidle⟩ := compact_restarts his hwf he hl
  rw [hm] at h4 hidle
  exact ⟨s4, (((Run.nil.snoc h1.2).snoc h2.2).snoc h3).snoc h4, hidle⟩

/-- The acts after which the lease id one is in use again. -/
def reuseActs : List Act :=
  leaseActs 0 0 ++ (roundActs 0xFFFFFFFFFFFFFFFD 0xFFFFFFFFFFFFFFFF ++
    [.call ⟨0, .push roundQueue (.buf [])⟩ (some 0xFFFFFFFFFFFFFFFE)
      (.code .ok),
    .call ⟨0, .pop roundQueue true⟩ (some 0xFFFFFFFFFFFFFFFF)
      (.msg ⟨0xFFFFFFFFFFFFFFFE, 1, roundName, [], 0⟩)])

/-- A lease id is issued for a second time. -/
theorem exists_lease_reuse :
    ∃ s, Run Sys.Returns Sys.init reuseActs s ∧
      RoundPopped s 0xFFFFFFFFFFFFFFFE 1 0
        (maxRecord + maxRecord + maxRecord) := by
  obtain ⟨s1, h1, hidle⟩ := exists_last_lease 0 0
  obtain ⟨s2, h2, hidle2⟩ := hidle.last_round (by decide) (by decide)
  obtain ⟨s3, h3, hpushed⟩ :=
    Idle.push (a := 0xFFFFFFFFFFFFFFFE) hidle2 (by decide) (by decide)
  obtain ⟨s4, h4, hpopped⟩ :=
    hpushed.pop (by decide) (by decide) (by decide)
  refine ⟨s4, ?_, hpopped⟩
  exact (h1.mono (fun _ _ _ => Sys.CountedReturns.returns)).trans
    (h2.trans ((Run.nil.snoc h3.2).snoc h4.2))

/-- The acts up to the push that gets the last message id. -/
def wrapActs (now : UInt64) (t : UInt32) : List Act :=
  .call ⟨now, .openDb t⟩ none (.code .ok) ::
    (roundsActs 1 1 (2 ^ 64 - 2) ++
      [.call ⟨0, .push roundQueue (.buf [])⟩ (some 0xFFFFFFFFFFFFFFFF)
        (.code .ok)])

/-- The message counter wraps. -/
theorem exists_wrap (now : UInt64) (t : UInt32) :
    ∃ s, Run Sys.CountedReturns Sys.init (wrapActs now t) s ∧
      RoundPushed s 0xFFFFFFFFFFFFFFFF 0xFFFFFFFFFFFFFFFF 0
        (maxRecord + maxRecord) := by
  obtain ⟨s1, hrun, hidle⟩ := exists_last_msg now t
  obtain ⟨s2, h2, hpushed⟩ := hidle.push (by decide) (by decide)
  refine ⟨s2, ?_, hpushed⟩
  have hrun2 := hrun.snoc h2
  rw [List.cons_append] at hrun2
  exact hrun2

/-- One push more and the message gets the id zero. -/
def zeroActs (now : UInt64) (t : UInt32) : List Act :=
  wrapActs now t ++
    [.call ⟨0, .push roundQueue (.buf [])⟩ (some 0) (.code .ok)]

/-- A message has been pushed under the id zero. -/
theorem exists_zero_push (now : UInt64) (t : UInt32) :
    ∃ (s : Sys) (v : View) (c : Content),
      Run Sys.Returns Sys.init (zeroActs now t) s ∧
      s.Is (.opened (v.log (pushRecord 0 roundBody) (v.pushed roundBody))) ∧
      v.Inv c ∧ v.mem.nextMsgId = 0 ∧ v.mem.st.jobs.length ≤ 1 ∧
      (v.mem.st.queueGet roundName).isSome := by
  obtain ⟨s2, hrun, v, c, hsmall, hqueue, hlease, hmsg, -⟩ := exists_wrap now t
  have hzero : v.mem.nextMsgId = 0 := hmsg
  have hwf := hsmall.inv.wf
  have hname : (v.mem.st.queueGet roundName).isSome := by
    have hlen := hwf.queue_length (o := some v.leaseTimeoutUs) roundName
    have hq : (v.broker c (some v.leaseTimeoutUs)).queue roundName =
        [roundMessage 0xFFFFFFFFFFFFFFFF 0] :=
      (congrFun hqueue roundName).trans (Function.update_self ..)
    rw [hq] at hlen
    obtain ⟨id, hid⟩ := List.exists_mem_of_length_pos
      (by rw [← hlen]; exact Nat.one_pos)
    obtain ⟨x, hx, hxn⟩ := hwf.shows.rep.lists.stored roundName id hid
    rw [← hxn]
    exact hwf.shows.rep.queue_exists id x hx
  obtain ⟨s3, h3, his⟩ := hsmall.move_step (t := 0) (by decide)
    (f := .push roundQueue (.buf [])) rfl
  have hpush : v.push roundQueue (.buf []) =
      .log (pushRecord 0 roundBody) { v.mem with nextMsgId := 0 + 1 }
        (v.pushed roundBody) (.code .ok) := by
    unfold View.push
    rw [pushArg_round, hzero]
  rw [hpush] at h3 his
  have hret : s2.Returns (.call ⟨0, .push roundQueue (.buf [])⟩ (some 0)
      (.code .ok)) s3 := by
    have hid : s2.nextId = some 0 := hsmall.nextId.trans (congrArg some hzero)
    rw [← hid]
    exact .call h3
  have hrun2 := (hrun.mono (fun _ _ _ => Sys.CountedReturns.returns)).snoc hret
  exact ⟨s3, v, c, hrun2, his, hsmall.inv, hzero,
    hwf.jobs_le_one hqueue hlease, hname⟩

end Round

end Qdb
