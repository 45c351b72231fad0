import Qdb.FailedWrites
import Qdb.Ids
import Qdb.Isolation
import Qdb.PopOrder

/-!
# Every accepted file stays usable

A run starts from any file that `qdb_open` accepts, whatever its header and its
log say.  What the log says is what the tables say in every state of the run
(`Sys.Says`), and a call changes the pending lists only at their ends: a
delivery takes the head of one list, and every other list grows at its tail
(`Content.Queues`).  Hence a message is delivered once those ahead of it are.

This needs the ids that the calls give out to be nonzero and unused.  They are
if the counters of the handle that `qdb_open` returns are above all ids in its
tables and have room for the pushes and pops of the run (`Db.Ahead`): replay
from the counters of the handle gives the same counters again, so that the file
is one of those that runs from a new database lead to (`Image.stays`), and a
call moves a counter by one at most (`Sys.Stays.run`).  The header decides about
the first id, and nothing checks it: a file with `next_msg_id` 0 is accepted,
its first push stores a message with the id 0, and the file is then refused
(`accepted_file_unusable`).
-/

namespace Qdb

open Lib

/-- The pending lists before and after a call with the result `res`. -/
structure Content.Queues (c : Content) (res : Result) (c' : Content) :
    Prop where
  popped : ∀ p, res = .msg p → c.pend p.queue = p.id :: c'.pend p.queue
  kept : ∀ n, (∀ p, res = .msg p → p.queue ≠ n) → c.pend n <+: c'.pend n

/-- What a phase says of messages, leases and lists; tables and log agree. -/
def Phase.Says : Phase → Content → Prop
  | .absent, c => c = Content.empty
  | .broken, _ => False
  | .closed d, c => replayContent d.start d.rs Content.empty = some c
  | .opened v, c => v.Wf c ∧ v.LogSays c

section Contents

variable {st : State} {c c' : Content} {v v' : View} {r : Record}
variable {now : UInt64} {call : Call} {res : Result} {mem half full : Mem}

/-- The tables say one thing only. -/
theorem State.Shows.unique (h : st.Shows c) (h' : st.Shows c') : c = c' := by
  obtain ⟨msg, lease, pend⟩ := c
  obtain ⟨msg', lease', pend'⟩ := c'
  have hmsg : msg = msg' := h.msg.symm.trans h'.msg
  have hlease : lease = lease' := h.lease.symm.trans h'.lease
  have hpend : pend = pend' := by
    funext n
    exact (h.rep.pendingIds_eq n).symm.trans (h'.rep.pendingIds_eq n)
  rw [hmsg, hlease, hpend]

theorem State.Shows.pend_nodup (h : st.Shows c) (n : QueueName) :
    (c.pend n).Nodup :=
  (h.rep.lists.linked n).nodup

/-- A message waits in one queue only. -/
theorem State.Shows.pend_inj (h : st.Shows c) {n n' : QueueName} {id : UInt64}
    (hid : id ∈ c.pend n) (hid' : id ∈ c.pend n') : n = n' := by
  obtain ⟨x, hx, hn⟩ := h.rep.lists.stored n id hid
  obtain ⟨y, hy, hn'⟩ := h.rep.lists.stored n' id hid'
  rw [hx] at hy
  cases hy
  exact hn.symm.trans hn'

namespace Content.Queues

/-- A call that delivers nothing. -/
theorem of_initial (hres : ∀ p, res ≠ .msg p)
    (h : ∀ n, c.pend n <+: c'.pend n) : c.Queues res c' where
  popped := fun p hp => absurd hp (hres p)
  kept := fun n _ => h n

theorem refl (hres : ∀ p, res ≠ .msg p) : c.Queues res c :=
  of_initial hres fun _ => List.prefix_refl _

end Content.Queues

/-- A list grows at its tail. -/
theorem prefix_update (pend : PendingLists) (n k : QueueName) (id : UInt64) :
    pend k <+: Function.update pend n (pend n ++ [id]) k := by
  by_cases hk : k = n
  · subst hk
    rw [Function.update_self]
    exact List.prefix_append _ _
  · rw [Function.update_of_ne hk]

/-- The record of a call moves the pending lists as its result says. -/
theorem View.Logs.queues (h : v.Logs c now call r half full res)
    (hwf : v.Wf c) (hr : r.effect v.logEnd c = some c') :
    c.Queues res c' := by
  cases h with
  | @push queue data b harg =>
      rw [Record.effect, entry_pushRecord, Option.bind_some] at hr
      obtain ⟨-, -, rfl⟩ := Content.apply_push.mp hr
      exact .of_initial (by simp) fun n => prefix_update c.pend _ n _
  | @deliver call q m hcall hm hs hq hcount hhead hmin =>
      rw [Record.effect, entry_leaseRecord, Option.bind_some] at hr
      obtain ⟨x, hx, rfl⟩ := Option.map_eq_some_iff.mp hr
      obtain ⟨-, -, hget, -⟩ := Content.leasable_eq_some.mp hx
      rw [hwf.shows.msgGet hm] at hget
      cases hget
      obtain ⟨ids, hids⟩ := List.head?_eq_some_iff.mp hhead
      have hpend : (c.leaseMsg m.core v.mem.nextLeaseId
          (now + v.leaseTimeoutUs)).pend = Function.update c.pend m.queueName
          ((c.pend m.queueName).erase m.id) := rfl
      rw [hids, List.erase_cons_head] at hpend
      refine ⟨?_, ?_⟩
      · rintro p ⟨⟩
        dsimp only
        rw [hpend, Function.update_self, hids]
      · intro n hn
        rw [hpend, Function.update_of_ne (hn _ rfl).symm]
  | @ack id l m hm hs hl =>
      rw [Record.effect, entry_ackRecord, Option.bind_some] at hr
      obtain ⟨x, -, rfl⟩ := Option.map_eq_some_iff.mp hr
      exact .of_initial (by simp) fun n => List.prefix_refl _
  | @nack id l m hm hs hl =>
      rw [Record.effect, entry_nackRecord, Option.bind_some] at hr
      obtain ⟨x, -, rfl⟩ := Option.map_eq_some_iff.mp hr
      exact .of_initial (by simp) fun n => prefix_update c.pend _ n _

/-- A refused call delivers nothing. -/
theorem View.move_refuse (h : v.move now call = some (.refuse res))
    (p : QMsg) : res ≠ .msg p := by
  rintro rfl
  cases call with
  | push queue data =>
      have h := Option.some.inj h
      unfold View.push at h
      split at h <;> cases h
  | pop queue outMsg =>
      have h := Option.some.inj h
      unfold View.pop at h
      repeat' split at h
      all_goals cases h
  | popAny outMsg =>
      have h := Option.some.inj h
      unfold View.popAny at h
      repeat' split at h
      all_goals cases h
  | ack id l =>
      have h := Option.some.inj h
      unfold View.ack View.resolveCall at h
      repeat' split at h
      all_goals cases h
  | nack id l =>
      have h := Option.some.inj h
      unfold View.nack View.resolveCall at h
      repeat' split at h
      all_goals cases h
  | _ =>
      cases h

/-- A call that logs at most one record. -/
theorem View.Wf.move_content (h : v.Wf c) (hk : v.LogSays c)
    (hf : v.Fresh call) {mv : Move} (hmv : v.move now call = some mv)
    (ho : mv.Outcome False v res v') :
    ∃ c', v'.Wf c' ∧ v'.LogSays c' ∧ c.Queues res c' := by
  cases ho with
  | refuse res =>
      exact ⟨c, h, hk, .refl (View.move_refuse hmv)⟩
  | io hio =>
      exact ⟨c, h, hk, .refl (by simp)⟩
  | half hF =>
      exact hF.elim
  | full hfit =>
      have hlog := h.logs hmv
      obtain ⟨c', hc', hwf⟩ := h.logged (h.logs_replays hf hlog) hfit
      exact ⟨c', hwf, hk.log hc' _, hlog.queues h hc'⟩

/-- Expiry returns messages to the tails of their queues. -/
theorem View.Wf.expireAll_content {ls : List Lease} (h : v.Wf c)
    (hk : v.LogSays c) (hnd : (ls.map Lease.leaseId).Nodup)
    (hls : ∀ l ∈ ls, c.lease l.leaseId = some l)
    (hfit : (v.expireAll now ls).Fits) :
    ∃ c', (v.expireAll now ls).Wf c' ∧ (v.expireAll now ls).LogSays c' ∧
      ∀ n, c.pend n <+: c'.pend n := by
  induction ls generalizing v c with
  | nil =>
      exact ⟨c, h, hk, fun n => List.prefix_refl _⟩
  | cons l ls ih =>
      rw [View.expireAll_cons] at hfit ⊢
      rw [List.map_cons, List.nodup_cons] at hnd
      by_cases hlt : l.expiryUs < now
      swap
      · have hstep : v.expireStep now l = v := if_neg hlt
        rw [hstep] at hfit ⊢
        exact ih h hk hnd.2 (fun k hk => hls k (List.mem_cons_of_mem _ hk)) hfit
      have hstep : v.expireStep now l =
          v.after (v.expire l.leaseId l.msgId) := if_pos hlt
      rw [hstep] at hfit ⊢
      have hfit1 : (v.after (v.expire l.leaseId l.msgId)).Fits := by
        obtain ⟨-, hs, -, -, rest, hrs⟩ :=
          (v.after (v.expire l.leaseId l.msgId)).expireAll_fields now ls
        unfold View.Fits at hfit ⊢
        rw [hs, ← hrs] at hfit
        exact hfit.of_append
      have hl := hls l List.mem_cons_self
      obtain ⟨x, hx, hs, hlx, hwf⟩ := h.expire_logged hl hfit1
      obtain ⟨m, -, -, -, hmv⟩ := h.expire_eq hl
      have he : (expireRecord l.msgId l.leaseId).effect v.logEnd c =
          some (c.nackMsg x l.leaseId) := by
        rw [Record.effect, entry_expireRecord, Option.bind_some]
        change (c.held _ _).map _ = _
        rw [Content.held_eq_some.mpr ⟨hx, hs, hlx⟩]
        rfl
      have hk1 : (v.after (v.expire l.leaseId l.msgId)).LogSays
          (c.nackMsg x l.leaseId) := by
        rw [hmv]
        exact hk.log he _
      have htail : ∀ k ∈ ls, (c.nackMsg x l.leaseId).lease k.leaseId =
          some k := by
        intro k hk
        have hne : k.leaseId ≠ l.leaseId := by
          intro heq
          exact hnd.1 (List.mem_map.mpr ⟨k, hk, heq⟩)
        exact (Function.update_of_ne hne _ _).trans
          (hls k (List.mem_cons_of_mem _ hk))
      obtain ⟨c', hwf', hk', hpre⟩ := ih hwf hk1 hnd.2 htail hfit
      exact ⟨c', hwf', hk', fun n => (prefix_update c.pend _ n _).trans
        (hpre n)⟩

theorem View.Wf.expireEnd_content (h : v.Wf c) (hk : v.LogSays c) {rc : Rc}
    (hend : ExpireEnd False now v v.mem.st.leases rc v') (hfit : v'.Fits) :
    ∃ c', v'.Wf c' ∧ v'.LogSays c' ∧ ∀ n, c.pend n <+: c'.pend n := by
  obtain ⟨hnd, hget, -⟩ := h.leases
  generalize v.mem.st.leases = ls at hend hnd hget
  rcases hend with ⟨-, rfl⟩ | ⟨-, ls1, l, ls2, rfl, -, ho⟩
  · exact h.expireAll_content hk hnd hget hfit
  · have hv : v' = v.expireAll now ls1 := by
      rcases ho.inv with ⟨hres, -⟩ | ⟨-, _, _, _, _, -, hv | ⟨hF, -⟩⟩
      · rw [View.expire_result] at hres
        cases hres
      · exact hv
      · exact hF.elim
    subst hv
    rw [List.map_append] at hnd
    exact h.expireAll_content hk (List.nodup_append.mp hnd).1
      (fun k hk => hget k (List.mem_append_left _ hk)) hfit

/-- A compaction keeps the lists. -/
theorem View.Wf.compacted_content (h : v.Wf c)
    (hmem : v.compactReplay now = some mem)
    (hfit : Qdb.Fits hdrSize (v.compactRecords now)) :
    ∃ d, (v.compacted now mem).Wf d ∧ (v.compacted now mem).LogSays d ∧
      ∀ n, c.pend n <+: d.pend n := by
  obtain ⟨mem', d, hmem', hs, hcomp, -⟩ := h.compact now
  have heq := hmem.symm.trans hmem'
  cases heq
  have hs0 : (Mem.start v.mem.nextMsgId).st.Shows Content.empty :=
    State.Shows.start
  obtain ⟨k, hk, hks⟩ := hs0.of_replay hmem
  have hkd := hks.unique hs
  subst hkd
  exact ⟨k, h.compacted hs hcomp hfit, hk, fun n => by rw [hcomp.pend]⟩

/-- The view of a log says what the log says. -/
theorem View.wf_of_content {d : DbFile} {t : UInt64} (hfit : Qdb.Fits d.start d.rs)
    (hrep : d.replay = some mem)
    (hk : replayContent d.start d.rs Content.empty = some c) :
    (d.opened mem t).Wf c := by
  obtain ⟨c', hwf⟩ : ∃ c', (d.opened mem t).Wf c' :=
    View.wf_of_replay hfit hrep
  have hs0 : (Mem.start d.nextMsgId).st.Shows Content.empty :=
    State.Shows.start
  obtain ⟨mem', hmem', hs⟩ := hs0.replay_some hk
  have heq := hrep.symm.trans hmem'
  cases heq
  rw [hs.unique hwf.shows]
  exact hwf

end Contents

section Phases

variable {ph ph' : Phase} {c : Content} {now : UInt64} {call : Call}
variable {res : Result}

theorem Phase.Says.shown (h : ph.Says c) : ∃ st : State, st.Shows c := by
  cases ph with
  | absent =>
      cases h
      exact ⟨_, State.Shows.start⟩
  | broken =>
      exact h.elim
  | closed d =>
      have hs0 : (Mem.start 0).st.Shows Content.empty := State.Shows.start
      obtain ⟨mem, -, hs⟩ := hs0.replay_some h
      exact ⟨mem.st, hs⟩
  | opened v =>
      exact h.2.shown

theorem Phase.Says.wellFormed (h : ph.Says c) : ph.WellFormed := by
  rintro v rfl
  exact ⟨c, h.1⟩

/-- What one call does to the pending lists. -/
theorem Phase.Step.content (h : ph.Step now call res ph') (hc : ph.Says c)
    (hf : ∀ v, ph = .opened v → v.Fresh call)
    (hfit : ∀ d, ph = .closed d → Fits d.start d.rs) :
    ∃ c', ph'.Says c' ∧ c.Queues res c' := by
  cases h with
  | null hph hcall =>
      refine ⟨c, hc, .refl ?_⟩
      intro p hp
      cases call <;> cases hp
  | create t =>
      cases hc
      exact ⟨_, ⟨⟨State.Shows.start, nofun⟩, rfl⟩, .refl (by simp)⟩
  | openBroken t =>
      exact hc.elim
  | openDb t hrep =>
      exact ⟨c, ⟨View.wf_of_content (hfit _ rfl) hrep hc, hc⟩, .refl (by simp)⟩
  | openCorrupt t hrep =>
      exact ⟨c, hc, .refl (by simp)⟩
  | openLocked t =>
      exact ⟨c, hc, .refl (by simp)⟩
  | close =>
      exact ⟨c, hc.2, .refl (by simp)⟩
  | move hmv ho =>
      obtain ⟨c', hwf, hk, hq⟩ := hc.1.move_content hc.2 (hf _ rfl) hmv ho
      exact ⟨c', ⟨hwf, hk⟩, hq⟩
  | @expire v v' rc hend hfit' =>
      obtain ⟨c', hwf, hk, hpre⟩ := hc.1.expireEnd_content hc.2 hend hfit'
      refine ⟨c', ⟨hwf, hk⟩, .of_initial ?_ hpre⟩
      intro p hp
      unfold Result.ofExpire at hp
      split at hp <;> cases hp
  | compact hmem hfit' =>
      obtain ⟨d, hwf, hk, hpre⟩ := hc.1.compacted_content hmem hfit'
      exact ⟨d, ⟨hwf, hk⟩, .of_initial (by simp) hpre⟩
  | compactIo hfit' =>
      exact ⟨c, hc, .refl (by simp)⟩

end Phases

/-- Tables and log of the machine say `c`. -/
def Sys.Says (s : Sys) (c : Content) : Prop :=
  ∃ ph, s.Is ph ∧ ph.Says c

/-- The messages in front of `id` in the queue `n`. -/
def State.ahead (st : State) (n : QueueName) (id : UInt64) : List UInt64 :=
  (st.pendingIds n).takeWhile (· ≠ id)

/-- Some queue that `qdb_pop_any` does not take for empty has a head below the
sentinel of its search. -/
def State.Found (st : State) : Prop :=
  ∃ n id, (st.pendingIds n).head? = some id ∧ ¬ st.Hides n ∧
    id ≠ 0xFFFFFFFFFFFFFFFF

/-- The counters of the handle are above all ids in its tables and do not wrap
before `k` more messages and `l` more leases. -/
structure Db.Ahead (db : Db) (st : State) (k l : Nat) : Prop where
  msg : ∀ id, (st.msgGet id).isSome → id < db.nextMsgId
  lease : ∀ id, (st.leaseGet id).isSome → id < db.nextLeaseId
  msgRoom : db.nextMsgId ≠ 0 ∧ db.nextMsgId.toNat + k < 2 ^ 64
  leaseRoom : db.nextLeaseId ≠ 0 ∧ db.nextLeaseId.toNat + l < 2 ^ 64

/-- The same of the abstract machine. -/
structure Broker.Room (b : Broker) (k l : Nat) : Prop where
  msg : b.nextMsgId ≠ 0 ∧ b.nextMsgId.toNat + k < 2 ^ 64
  lease : b.nextLeaseId ≠ 0 ∧ b.nextLeaseId.toNat + l < 2 ^ 64

/-- Tables, counters and log agree on `c`, with room for `k` more messages and
`l` more leases. -/
structure Sys.Stays (s : Sys) (c : Content) (k l : Nat) : Prop where
  said : s.Says c
  shown : ∃ b, s.Shows b ∧ b.Room k l

/-- The next pop on the queue `n` returns the message `id`. -/
def Sys.Delivers (s : Sys) (n : QueueName) (id : UInt64) : Prop :=
  ∀ now queue res t, queueArg queue = some n → s.Visible (.pop queue true) →
    s.step ⟨now, .pop queue true⟩ = some (res, t) → res ≠ .code .errIo →
    ∃ p, res = .msg p ∧ p.id = id

/-- Once the messages in front of `id` have been delivered, the next pop on the
queue `n` returns `id`, unless it has been delivered before; up to `k` more
messages and `l` more leases may be given out meanwhile. -/
def Sys.Awaits (s : Sys) (k l : Nat) (n : QueueName) (id : UInt64) : Prop :=
  ∀ as t db st, Run Sys.Returns s as t → (pushedIds as).length ≤ k →
    (leasedIds as).length ≤ l → t.db.isSome → s.db = some db →
    db.state = some st → Unpopped as id →
    (∀ j ∈ st.ahead n id, ¬ Unpopped as j) → t.Delivers n id

section Room

variable {b b' : Broker} {k l : Nat}

theorem Broker.Room.counting (h : b.Room k l) : b.Counting :=
  fun _ => ⟨h.msg.1, h.lease.1⟩

theorem Broker.Room.mono {k' l' : Nat} (h : b.Room k l) (hk : k' ≤ k)
    (hl : l' ≤ l) : b.Room k' l' where
  msg := ⟨h.msg.1, lt_of_le_of_lt (Nat.add_le_add_left hk _) h.msg.2⟩
  lease := ⟨h.lease.1, lt_of_le_of_lt (Nat.add_le_add_left hl _) h.lease.2⟩

/-- A counter does not wrap as long as there is room. -/
theorem Broker.Issues.room {issued : Option UInt64} {n n' : UInt64}
    (h : Issues issued n n')
    (hn : n ≠ 0 ∧ n.toNat + (issued.toList.length + k) < 2 ^ 64) :
    n' ≠ 0 ∧ n'.toNat + k < 2 ^ 64 := by
  obtain ⟨h0, hroom⟩ := hn
  rcases h with ⟨rfl, rfl⟩ | ⟨-, rfl, rfl⟩
  · exact ⟨h0, by simpa using hroom⟩
  · have hlt : n.toNat + 1 + k < 2 ^ 64 := by
      rw [Nat.add_assoc]
      exact hroom
    have hadd : (n + 1).toNat = n.toNat + 1 := by
      rw [UInt64.toNat_add]
      exact Nat.mod_eq_of_lt (by
        change n.toNat + 1 < 2 ^ 64
        omega)
    refine ⟨fun hz => ?_, by rwa [hadd]⟩
    rw [hz] at hadd
    cases hadd

theorem Broker.Room.returns {a : Act} (h : b.Returns a b')
    (hr : b.Room (a.pushedId.toList.length + k)
      (a.leasedId.toList.length + l)) : b'.Room k l where
  msg := h.issues.1.room hr.msg
  lease := h.issues.2.room hr.lease

theorem length_filterMap_snoc {α β : Type} (f : α → Option β) (xs : List α)
    (x : α) : ((xs ++ [x]).filterMap f).length =
      (xs.filterMap f).length + (f x).toList.length := by
  rw [List.filterMap_append, List.length_append]
  cases hx : f x <;> simp [hx]

end Room

section Systems

variable {s s' : Sys} {c : Content} {n : QueueName} {id : UInt64}
variable {as : List Act} {a : Act}

/-- A call, on the content. -/
theorem Sys.Says.step (h : s.Says c) {e : Event} {res : Result}
    (hf : s.Fresh e.call) (hs : s.step e = some (res, s')) :
    ∃ c', s'.Says c' ∧ c.Queues res c' := by
  obtain ⟨ph, his, hc⟩ := h
  obtain ⟨res', t, ph', hstep, hst, his'⟩ := his.step hc.wellFormed e
  rw [hs] at hstep
  cases hstep
  obtain ⟨c', hc', hq⟩ := hst.content hc
    (by
      rintro v rfl
      exact his.fresh hf)
    (by
      rintro d rfl
      exact his.fits)
  exact ⟨c', ⟨ph', his', hc'⟩, hq⟩

theorem Sys.Says.shown (h : s.Says c) : ∃ st : State, st.Shows c :=
  h.elim fun _ hph => hph.2.shown

/-- The view of the open handle. -/
theorem Sys.Says.opened (h : s.Says c) {db : Db} (hdb : s.db = some db) :
    ∃ v i, Live False s.world db v i ∧ v.Wf c ∧ v.LogSays c := by
  obtain ⟨ph, his, hc⟩ := h
  cases ph with
  | opened v =>
      obtain ⟨db', i, hdb', hlive⟩ := his
      rw [hdb] at hdb'
      cases hdb'
      exact ⟨v, i, hlive, hc.1, hc.2⟩
  | _ =>
      rw [his.db_none (by simp)] at hdb
      cases hdb

/-- An accepted file whose counters are above all ids. -/
theorem Image.stays {w : World} {i : Nat} {f : Bytes} (h : Image w i f)
    {now : UInt64} {t : UInt32} {db : Db} {st : State} {k l : Nat}
    (hopen : (⟨w, none⟩ : Sys).step ⟨now, .openDb t⟩ = some (.code .ok, s))
    (hdb : s.db = some db) (hst : db.state = some st)
    (hahead : db.Ahead st k l) : ∃ c, s.Stays c k l := by
  obtain ⟨m, rs, v, mem, db', -, -, hrep, hdb', hlive⟩ := h.opened hopen
  rw [hdb] at hdb'
  cases hdb'
  have heq := hst.symm.trans hlive.state
  cases heq
  have hs0 : (Mem.start m.nextMsgId).st.Shows Content.empty :=
    State.Shows.start
  obtain ⟨c, hc, -⟩ := hs0.of_replay hrep
  have hwf := View.wf_of_content (t := leaseTimeoutOf t) hlive.fits hrep hc
  have hbounded : (((m.fileOf rs).opened mem (leaseTimeoutOf t))).Bounded c := by
    constructor
    · intro _ id hid
      rw [← hlive.nextMsgId]
      apply hahead.msg id
      rw [Option.isSome_iff_ne_none] at hid ⊢
      exact fun hnone => hid (hwf.shows.msg_none.mp hnone)
    · intro _ id hid
      rw [← hlive.nextLeaseId]
      apply hahead.lease id
      rw [hwf.shows.lease]
      exact hid
  refine ⟨c, ⟨.opened _, ⟨db, i, hdb, hlive⟩, hwf, hc⟩, _,
    ⟨.opened _, ⟨db, i, hdb, hlive⟩, c, ⟨hwf, hbounded, replay_again hrep⟩,
      rfl⟩, ?_, ?_⟩
  · have hroom := hahead.msgRoom
    rw [hlive.nextMsgId] at hroom
    exact hroom
  · have hroom := hahead.leaseRoom
    rw [hlive.nextLeaseId] at hroom
    exact hroom

namespace Sys.Stays

variable {k l : Nat}

theorem counting (h : s.Stays c k l) : s.Counting := by
  obtain ⟨b, hb, hroom⟩ := h.shown
  exact hb.counting_of hroom.counting

theorem fresh (h : s.Stays c k l) (call : Call) : s.Fresh call := by
  obtain ⟨b, hb, -⟩ := h.shown
  exact hb.fresh h.counting call

/-- A call gives out fresh ids and uses up the room. -/
theorem step (h : s.Stays c (a.pushedId.toList.length + k)
    (a.leasedId.toList.length + l)) (hs : s.Returns a s') :
    s.FreshReturns a s' ∧ ∃ c', s'.Stays c' k l := by
  obtain ⟨b, hb, hroom⟩ := h.shown
  obtain ⟨b', hret, hb'⟩ := hb.returns ⟨h.counting, hs⟩
  obtain ⟨hstep⟩ := hs
  obtain ⟨c', hc', -⟩ := h.said.step (h.fresh _) hstep
  exact ⟨⟨fun e _ _ _ => h.fresh e.call, .call hstep⟩, c', hc', b', hb',
    .returns hret hroom⟩

theorem run (h : s.Stays c ((pushedIds as).length + k)
    ((leasedIds as).length + l)) (hrun : Run Sys.Returns s as s') :
    Run Sys.FreshReturns s as s' ∧ ∃ c', s'.Stays c' k l := by
  induction hrun generalizing k l with
  | nil =>
      refine ⟨.nil, c, ?_⟩
      rw [← Nat.zero_add k, ← Nat.zero_add l]
      exact h
  | @snoc as t a u _ hs ih =>
      unfold pushedIds leasedIds at h
      rw [length_filterMap_snoc, length_filterMap_snoc, Nat.add_assoc,
        Nat.add_assoc] at h
      obtain ⟨hrun, c', hc'⟩ := ih h
      obtain ⟨hfresh, hu⟩ := hc'.step hs
      exact ⟨hrun.snoc hfresh, hu⟩

theorem mono {k' l' : Nat} (h : s.Stays c k l) (hk : k' ≤ k) (hl : l' ≤ l) :
    s.Stays c k' l' :=
  ⟨h.said, h.shown.imp fun _ hb => ⟨hb.1, hb.2.mono hk hl⟩⟩

end Sys.Stays

/-- The message waits behind some of the messages `xs`, none of which has been
delivered. -/
def Content.Waits (c : Content) (as : List Act) (n : QueueName) (id : UInt64)
    (xs : List UInt64) : Prop :=
  ∃ ys rest, c.pend n = ys ++ id :: rest ∧ ∀ y ∈ ys, y ∈ xs ∧ Unpopped as y

theorem Unpopped.snoc {res : Result} {e : Event} {k : Option UInt64}
    (h : Unpopped as id) (hres : ∀ p, res = .msg p → p.id ≠ id) :
    Unpopped (as ++ [.call e k res]) id := by
  intro p hp
  rcases Queued.mem_pops.mp hp with hp | hp
  · exact h p hp
  · cases res with
    | msg m =>
        cases hp
        exact hres _ rfl
    | _ =>
        cases hp

/-- One call moves a waiting message forward or delivers it. -/
theorem Content.Waits.step {xs : List UInt64} {c' : Content} {e : Event}
    {k : Option UInt64} {res : Result} (h : c.Waits as n id xs)
    {st : State} (hs : st.Shows c) (hq : c.Queues res c')
    (hun : Unpopped (as ++ [.call e k res]) id) :
    c'.Waits (as ++ [.call e k res]) n id xs := by
  obtain ⟨ys, rest, hpend, hys⟩ := h
  by_cases hn : ∃ p, res = .msg p ∧ p.queue = n
  · obtain ⟨p, rfl, rfl⟩ := hn
    have hpop := hq.popped p rfl
    have hnd := hs.pend_nodup p.queue
    rw [hpend] at hpop hnd
    cases ys with
    | nil =>
        cases hpop
        refine absurd rfl (hun p ?_)
        exact Queued.mem_pops.mpr (Or.inr rfl)
    | cons y ys =>
        obtain ⟨rfl, hrest⟩ := List.cons.inj hpop
        refine ⟨ys, rest, hrest.symm, ?_⟩
        intro x hx
        obtain ⟨hmem, hunx⟩ := hys x (List.mem_cons_of_mem _ hx)
        refine ⟨hmem, hunx.snoc ?_⟩
        rintro p' ⟨⟩ rfl
        rw [List.cons_append, List.nodup_cons] at hnd
        exact hnd.1 (List.mem_append_left _ hx)
  · have hno : ∀ p, res = .msg p → p.queue ≠ n :=
      fun p hp heq => hn ⟨p, hp, heq⟩
    obtain ⟨more, hmore⟩ := hq.kept n hno
    refine ⟨ys, rest ++ more, ?_, ?_⟩
    · rw [← hmore, hpend, List.append_assoc, List.cons_append]
    · intro y hy
      obtain ⟨hmem, huny⟩ := hys y hy
      refine ⟨hmem, huny.snoc ?_⟩
      rintro p rfl rfl
      -- a message of another queue has been delivered
      have hin : p.id ∈ c.pend p.queue := by
        rw [hq.popped p rfl]
        exact List.mem_cons_self
      have hin' : p.id ∈ c.pend n := by
        rw [hpend]
        exact List.mem_append_left _ hy
      exact hno p rfl (hs.pend_inj hin hin')

/-- A run moves a waiting message forward or delivers it. -/
theorem Sys.Says.waits (h : s.Says c) (hrun : Run Sys.FreshReturns s as s')
    {xs : List UInt64} (hw : c.Waits [] n id xs) :
    ∃ c', s'.Says c' ∧ (Unpopped as id → c'.Waits as n id xs) := by
  refine hrun.invariant (P := fun as t => ∃ c', t.Says c' ∧
    (Unpopped as id → c'.Waits as n id xs)) ⟨c, h, fun _ => hw⟩ ?_
  rintro as t a u - ⟨c', hc', hw'⟩ ⟨hf, ⟨hstep⟩⟩
  obtain ⟨st, hst⟩ := hc'.shown
  obtain ⟨c'', hc'', hq⟩ := hc'.step (hf _ _ _ rfl) hstep
  exact ⟨c'', hc'', fun hun => (hw' hun.of_snoc).step hst hq hun⟩

end Systems

section Calls

variable {v v' : View} {c : Content} {n : QueueName} {id : UInt64}
variable {now : UInt64} {call : Call} {res : Result} {ph : Phase}

/-- The entry of a queue with pending messages. -/
theorem View.Wf.queue_entry (h : v.Wf c) (hp : (c.pend n).head? = some id) :
    ∃ q, v.mem.st.queueGet n = some q ∧ q.pendingHead = id ∧ id ≠ 0 ∧
      q.pendingCount = UInt32.ofNat (c.pend n).length := by
  have hrep := h.shows.rep
  have hin : id ∈ c.pend n := List.mem_of_head? hp
  obtain ⟨x, hx, hn⟩ := hrep.lists.stored n id hin
  obtain ⟨q, hq⟩ := Option.isSome_iff_exists.mp (hrep.queue_exists id x hx)
  rw [hn] at hq
  have hlink := hrep.lists.linked n
  have hcount := hrep.lists.count n
  rw [State.queueOr_of_get hq] at hlink hcount
  refine ⟨q, hq, ?_, hrep.id_ne_zero id x hx, hcount⟩
  rw [hlink.head_eq, List.headD_eq_head?_getD, hp]
  rfl

/-- The counter of a queue that is not hidden. -/
theorem View.Wf.pendingCount_ne (h : v.Wf c)
    (hp : (c.pend n).head? = some id) (hno : ¬ v.mem.st.Hides n) {q : Queue}
    (hcount : q.pendingCount = UInt32.ofNat (c.pend n).length) :
    q.pendingCount ≠ 0 := by
  intro h0
  apply hno
  unfold State.Hides
  rw [h.shows.rep.pendingIds_eq]
  refine ⟨?_, ?_⟩
  · intro hnil
    rw [hnil] at hp
    cases hp
  · rw [hcount] at h0
    have h1 := congrArg UInt32.toNat h0
    rw [UInt32.toNat_ofNat'] at h1
    exact Nat.dvd_of_mod_eq_zero h1

/-- `qdb_pop` returns the head of the queue. -/
theorem View.Wf.pop_delivers (h : v.Wf c) {queue : Option CString}
    (hq : queueArg queue = some n) (hp : (c.pend n).head? = some id)
    (hno : ¬ v.mem.st.Hides n)
    (ho : (v.pop now queue true).Outcome False v res v')
    (hio : res ≠ .code .errIo) : ∃ p, res = .msg p ∧ p.id = id := by
  obtain ⟨q, hget, hhead, h0, hcount⟩ := h.queue_entry hp
  have hc := h.pendingCount_ne hp hno hcount
  rcases h.pop_cases hq with ⟨-, hall⟩ | ⟨q', m, hget', -, hm, -, hmv⟩
  · rcases hall q hget with hz | hz
    · exact absurd hz hc
    · exact absurd (hhead.symm.trans hz) h0
  · rw [hget] at hget'
    cases hget'
    rw [hmv] at ho
    rcases deliver_result ho with hres | ⟨p, hres, hid, -⟩
    · exact absurd hres hio
    · refine ⟨p, hres, ?_⟩
      rw [hid, State.msgGet_id hm, hhead]

/-- `qdb_pop_any` finds a message if there is one. -/
theorem View.Wf.popAny_finds (h : v.Wf c) (hf : v.mem.st.Found)
    (ho : (v.popAny now true).Outcome False v res v') :
    res ≠ .code .errEmpty := by
  obtain ⟨n, id, hp, hno, hid⟩ := hf
  rw [h.shows.rep.pendingIds_eq] at hp
  obtain ⟨q, hget, hhead, h0, hcount⟩ := h.queue_entry hp
  have hc := h.pendingCount_ne hp hno hcount
  obtain ⟨best, hbest, hnone, -⟩ := h.popAnyScan
  unfold View.popAny at ho
  rw [if_neg (by simp), hbest] at ho
  cases best with
  | none =>
      obtain ⟨m, hm⟩ := Option.isSome_iff_exists.mp
        (h.head_isSome hget (by rw [hhead]; exact h0))
      have hmid := State.msgGet_id hm
      have hmem : q ∈ v.mem.st.queues := by
        rw [h.shows.rep.mem_queues, State.queueGet_name hget]
        exact hget
      have hle := hnone rfl q hmem m
        ⟨UInt32.pos_iff_ne_zero.mpr hc, by rw [hhead]; exact h0, hm⟩
      rw [hmid, hhead] at hle
      refine absurd ?_ hid
      refine UInt64.le_antisymm (UInt64.le_iff_toNat_le.mpr ?_) hle
      have hlt := id.toNat_lt
      change id.toNat ≤ 18446744073709551615
      omega
  | some x =>
      rcases deliver_result ho with rfl | ⟨p, rfl, -⟩
      · simp
      · simp

/-- The lease id that a delivery gives out. -/
theorem Phase.Step.leased {p : QMsg} (h : (Phase.opened v).Step now call
    (.msg p) ph) (hwf : v.Wf c) (hf : v.Fresh call) :
    p.leaseId ≠ 0 ∧ v.mem.st.leaseGet p.leaseId = none := by
  generalize hres : Result.msg p = res at h
  cases h with
  | null hph hcall =>
      exact absurd rfl (hph v)
  | @move _ v' call mv _ hmv ho =>
      cases ho with
      | refuse _ =>
          exact absurd hres.symm (View.move_refuse hmv p)
      | io hio =>
          cases hres
      | half hF =>
          exact hF.elim
      | full hfit =>
          have hlog := hwf.logs hmv
          cases hlog with
          | deliver hcall _ _ _ _ _ _ =>
              cases hres
              rcases hcall with ⟨queue, rfl, -⟩ | rfl
              · exact hf
              · exact hf
          | _ =>
              cases hres
  | expire hend hfit =>
      unfold Result.ofExpire at hres
      split at hres <;> cases hres
  | _ =>
      cases hres

/-- The message that a push stores. -/
theorem Phase.Step.pushed {queue : Option CString} {data : DataArg}
    (h : (Phase.opened v).Step now (.push queue data) (.code .ok) ph)
    (hwf : v.Wf c) (hf : v.Fresh (.push queue data)) :
    ∃ b v' c', pushArg queue data = some b ∧ ph = .opened v' ∧ v'.Wf c' ∧
      v.mem.nextMsgId ∈ c'.pend b.name := by
  generalize hres : Result.code Rc.ok = res at h
  cases h with
  | null hph hcall =>
      exact absurd rfl (hph v)
  | @move _ v' call mv _ hmv ho =>
      cases ho with
      | refuse _ =>
          subst hres
          have hmv := Option.some.inj hmv
          unfold View.push at hmv
          split at hmv <;> cases hmv
      | io hio =>
          cases hres
      | half hF =>
          exact hF.elim
      | full hfit =>
          have hlog := hwf.logs hmv
          obtain ⟨c', hc', hwf'⟩ := hwf.logged (hwf.logs_replays hf hlog) hfit
          cases hlog with
          | @push _ _ b harg =>
              refine ⟨b, _, c', harg, rfl, hwf', ?_⟩
              rw [Record.effect, entry_pushRecord, Option.bind_some] at hc'
              obtain ⟨-, -, rfl⟩ := Content.apply_push.mp hc'
              change _ ∈ Function.update c.pend b.name
                (c.pend b.name ++ [v.mem.nextMsgId]) b.name
              rw [Function.update_self]
              simp
          | deliver hcall _ _ _ _ _ _ =>
              cases hres

end Calls

section Usable

variable {s s' : Sys} {c : Content} {n : QueueName} {id : UInt64}
variable {db : Db} {st : State} {k l : Nat}

theorem Sys.Says.shows (h : s.Says c) (hdb : s.db = some db)
    (hst : db.state = some st) : st.Shows c := by
  obtain ⟨v, i, hlive, hwf, -⟩ := h.opened hdb
  have heq := hst.symm.trans hlive.state
  cases heq
  exact hwf.shows

/-- The head of a queue is what the next pop returns. -/
theorem Sys.Says.delivers (h : s.Says c) (hopen : s.db.isSome)
    (hp : (c.pend n).head? = some id) : s.Delivers n id := by
  intro now queue res t hq hvis hstep hio
  obtain ⟨db, hdb⟩ := Option.isSome_iff_exists.mp hopen
  obtain ⟨ph, his, hc⟩ := h
  cases ph with
  | opened v =>
      obtain ⟨v', ho⟩ := his.pop_outcome hc.1 hstep
      have hno := hvis db _ hdb (his.state hdb) n hq
      exact hc.1.pop_delivers hq hp hno ho hio
  | _ =>
      rw [his.db_none (by simp)] at hdb
      cases hdb

/-- Every pending message is delivered in its turn. -/
theorem Sys.Stays.awaits (h : s.Stays c k l) (hid : id ∈ c.pend n) :
    s.Awaits k l n id := by
  intro as t db st hrun hmsgs hleases hopen hdb hst hun hahead
  have hids : st.pendingIds n = c.pend n :=
    (h.said.shows hdb hst).rep.pendingIds_eq n
  have hw : c.Waits [] n id (st.ahead n id) := by
    obtain ⟨ys, rest, hpend, hys⟩ := List.eq_append_cons_of_mem hid
    refine ⟨ys, rest, hpend, ?_⟩
    intro y hy
    refine ⟨?_, nofun⟩
    unfold State.ahead
    rw [hids, hpend, List.takeWhile_append_of_pos]
    · exact List.mem_append_left _ hy
    · rintro x hx
      exact decide_eq_true (fun heq => hys (heq ▸ hx))
  have hfresh := (Sys.Stays.run (k := 0) (l := 0) (h.mono hmsgs hleases)
    hrun).1
  obtain ⟨c', hc', hw'⟩ := h.said.waits hfresh hw
  obtain ⟨ys, rest, hpend, hys⟩ := hw' hun
  refine hc'.delivers hopen ?_
  cases ys with
  | nil =>
      rw [hpend]
      rfl
  | cons y ys =>
      obtain ⟨hmem, huny⟩ := hys y List.mem_cons_self
      exact absurd huny (hahead y hmem)

/-- What the application can rely on in the state `s`, whose handle is `db` with
the tables `st`, while it is given up to `k` more messages and `l` more
leases. -/
structure Sys.Usable (s : Sys) (k l : Nat) (db : Db) (st : State) : Prop where
  push : ∀ now queue data s', 0 < k →
    s.step ⟨now, .push queue data⟩ = some (.code .ok, s') →
    db.nextMsgId ≠ 0 ∧ st.msgGet db.nextMsgId = none ∧
      ∃ b, pushArg queue data = some b ∧
        s'.Awaits (k - 1) l b.name db.nextMsgId
  lease : ∀ now call p s', s.step ⟨now, call⟩ = some (.msg p, s') →
    p.leaseId ≠ 0 ∧ st.leaseGet p.leaseId = none
  empty : ∀ now s', s.Visible (.popAny true) →
    s.step ⟨now, .popAny true⟩ = some (.code .errEmpty, s') →
    ∀ n, st.pendingIds n = []
  reopens : s.Reopens

/-- Some head is the smallest. -/
theorem State.exists_oldest (h : ∃ n, st.pendingIds n ≠ []) :
    ∃ n, st.Oldest n := by
  classical
  have hheads : ∃ j, ∃ n id, (st.pendingIds n).head? = some id ∧
      id.toNat = j := by
    obtain ⟨n, hn⟩ := h
    exact ⟨_, n, _, List.head?_eq_some_head hn, rfl⟩
  obtain ⟨n, id, hid, hj⟩ := Nat.find_spec hheads
  refine ⟨n, id, hid, fun n' id' hid' => ?_⟩
  rw [UInt64.le_iff_toNat_le, hj]
  exact Nat.find_min' hheads ⟨n', id', hid', rfl⟩

/-- No message has the id that `qdb_pop_any` takes for its sentinel. -/
theorem Sys.Stays.below (h : s.Stays c k l) (hopen : s.db.isSome)
    (hid : (c.msg id).isSome) : id ≠ 0xFFFFFFFFFFFFFFFF := by
  obtain ⟨b, ⟨ph, his, hph⟩, hroom⟩ := h.shown
  cases ph with
  | opened v =>
      obtain ⟨d, hinv, rfl⟩ := hph
      obtain ⟨db, i, hdb, hlive⟩ := his
      have heq := (h.said.shows hdb hlive.state).unique hinv.wf.shows
      have hlt := hinv.bounded.msg hroom.msg.1 id (heq ▸ hid)
      rintro rfl
      exact absurd hlt (by
        rw [UInt64.lt_iff_toNat_lt]
        have := v.mem.nextMsgId.toNat_lt
        change ¬ 18446744073709551615 < v.mem.nextMsgId.toNat
        omega)
  | _ =>
      rw [his.db_none (by simp)] at hopen
      cases hopen

theorem Sys.Stays.found (h : s.Stays c k l) (hdb : s.db = some db)
    (hst : db.state = some st) (hvis : s.Visible (.popAny true))
    (hne : ∃ n, st.pendingIds n ≠ []) : st.Found := by
  obtain ⟨n, hn⟩ := State.exists_oldest hne
  obtain ⟨id, hid, hmin⟩ := id hn
  refine ⟨n, id, hid, hvis db st hdb hst n hn, ?_⟩
  have hshows := h.said.shows hdb hst
  rw [hshows.rep.pendingIds_eq] at hid
  obtain ⟨x, hx, -⟩ := hshows.rep.lists.stored n id (List.mem_of_head? hid)
  refine h.below (by rw [hdb]; rfl) ?_
  rw [← hshows.msg, hx]
  rfl

theorem Sys.Stays.usable (h : s.Stays c k l) (hdb : s.db = some db)
    (hst : db.state = some st) : s.Usable k l db st := by
  obtain ⟨ph, his, hc⟩ := h.said
  cases ph with
  | opened v =>
      have heq := hst.symm.trans (his.state hdb)
      cases heq
      obtain ⟨db', i, hdb', hlive⟩ := id his
      rw [hdb] at hdb'
      cases hdb'
      have hstep : ∀ {now call res t}, s.step ⟨now, call⟩ = some (res, t) →
          ∃ ph', (Phase.opened v).Step now call res ph' ∧ t.Is ph' := by
        intro now call res t hs
        obtain ⟨res', t', ph', hs', hst', his'⟩ :=
          his.step hc.wellFormed ⟨now, call⟩
        rw [hs] at hs'
        cases hs'
        exact ⟨ph', hst', his'⟩
      refine ⟨?_, ?_, ?_, ?_⟩
      · intro now queue data s' hk hs
        have hf := h.fresh (.push queue data)
        obtain ⟨ph', hst', his'⟩ := hstep hs
        obtain ⟨b, v', c', harg, rfl, hwf', hin⟩ :=
          hst'.pushed hc.1 (his.fresh hf)
        have hroom : s.Stays c (s.nextId.toList.length + (k - 1))
            (0 + l) := by
          refine h.mono ?_ (by omega)
          have : s.nextId.toList.length ≤ 1 := by cases s.nextId <;> simp
          omega
        obtain ⟨-, c'', hc''⟩ := Sys.Stays.step
          (a := .call ⟨now, .push queue data⟩ s.nextId (.code .ok)) hroom
          (.call hs)
        have hfresh := hf db _ hdb hst
        refine ⟨hfresh.1, hfresh.2, b, harg, hc''.awaits ?_⟩
        obtain ⟨db₁, i₁, hdb₁, hlive₁⟩ := id his'
        have heq := (hc''.said.shows hdb₁ hlive₁.state).unique hwf'.shows
        rw [heq, hlive.nextMsgId]
        exact hin
      · intro now call p s' hs
        obtain ⟨ph', hst', -⟩ := hstep hs
        exact hst'.leased hc.1 (his.fresh (h.fresh call))
      · intro now s' hvis hs n
        by_contra hne
        have hfound := h.found hdb hst hvis ⟨n, hne⟩
        obtain ⟨ph', hst', -⟩ := hstep hs
        cases hst' with
        | move hmv ho =>
            cases hmv
            exact hc.1.popAny_finds hfound ho rfl
      · obtain ⟨w, db?⟩ := s
        cases hdb
        exact Live.reopens (F := False) hlive hc.2
  | _ =>
      rw [his.db_none (by simp)] at hdb
      cases hdb

/-- A file that `qdb_open` has accepted stays usable if the counters of the
handle are above all ids in its tables and do not wrap: in every state of a run
a pushed message has a new nonzero id and is delivered after those in front of
it, a lease id is nonzero and new, `qdb_pop_any` finds what is pending, and the
file opens again. -/
theorem accepted_file_usable {w : World} {i : Nat} {f : Bytes} {now : UInt64}
    {t : UInt32} {s₀ : Sys} {db₀ : Db} {st₀ : State} {as : List Act}
    (h : Image w i f)
    (hopen : (⟨w, none⟩ : Sys).step ⟨now, .openDb t⟩ = some (.code .ok, s₀))
    (hdb₀ : s₀.db = some db₀) (hst₀ : db₀.state = some st₀)
    (hahead : db₀.Ahead st₀ ((pushedIds as).length + k)
      ((leasedIds as).length + l))
    (hrun : Run Sys.Returns s₀ as s) (hdb : s.db = some db)
    (hst : db.state = some st) : s.Usable k l db st := by
  obtain ⟨c₀, hc₀⟩ := h.stays hopen hdb₀ hst₀ hahead
  obtain ⟨-, c, hc⟩ := hc₀.run hrun
  exact hc.usable hdb hst

/-- A file with one message, and a push behind it. -/
theorem accepted_file_usable_pushed : ∃ (w : World) (f : Bytes) (s₀ s : Sys)
    (db : Db) (st : State), Image w 0 f ∧
      (⟨w, none⟩ : Sys).step ⟨0, .openDb 0⟩ = some (.code .ok, s₀) ∧
      Run Sys.Returns s₀ secondActs s ∧ s.db = some db ∧
      db.state = some st ∧ s.Usable 1 1 db st := by
  obtain ⟨w, f, s₀, s, himg, hopen, his, hrun, his'⟩ := exists_second
  obtain ⟨db₀, i, hdb₀, hlive⟩ := his
  have hahead : db₀.Ahead (pushedMem roundBody).st
      ((pushedIds secondActs).length + 1)
      ((leasedIds secondActs).length + 1) := by
    have hmsg : db₀.nextMsgId = 2 := hlive.nextMsgId
    have hlease : db₀.nextLeaseId = 1 := hlive.nextLeaseId
    refine ⟨?_, ?_, ?_, ?_⟩
    · intro id hid
      rw [hmsg]
      by_contra hno
      have hne : (1 : UInt64) ≠ id := by
        rintro rfl
        exact hno (by decide)
      have hnone : (pushedMem roundBody).st.coreGet id = none :=
        (State.coreGet_addMsg _ _ id).trans (if_neg hne)
      rw [State.coreGet_eq_none.mp hnone] at hid
      cases hid
    · intro id hid
      unfold pushedMem at hid
      rw [State.leaseGet_addMsg, State.leaseGet_empty] at hid
      cases hid
    · rw [hmsg]
      decide
    · rw [hlease]
      decide
  obtain ⟨db, j, hdb, hlive'⟩ := his'
  exact ⟨w, f, s₀, s, db, _, himg, hopen, hrun, hdb, hlive'.state,
    accepted_file_usable himg hopen hdb₀ hlive.state hahead hrun hdb
      hlive'.state⟩

/-- A file with an empty log whose header has `next_msg_id` 0: its first push
stores a message with the id 0, and the file does not open again. -/
theorem accepted_file_unusable : ∃ (s s' : Sys) (db : Db),
    s.Starts ∧ s.db = some db ∧ db.nextMsgId = 0 ∧
      s.step ⟨0, .push secondQueue (.buf [])⟩ = some (.code .ok, s') ∧
      ¬ s'.Reopens := by
  have hrep : replayRecords hdrSize [] (Mem.start 0) = some (Mem.start 0) :=
    rfl
  obtain ⟨s, hs, his⟩ := logFile_starts (Nat.zero_le _) hrep 0
  obtain ⟨v, hv⟩ : ∃ v, v = ((logDb []).fileOf []).opened (Mem.start 0)
      (leaseTimeoutOf 0) := ⟨_, rfl⟩
  rw [← hv] at his
  have hwf : v.Wf Content.empty := by
    rw [hv]
    exact ⟨State.Shows.start, nofun⟩
  have hsaid : v.LogSays Content.empty := by
    rw [hv]
    rfl
  have hzero : v.mem.nextMsgId = 0 := by
    rw [hv]
    rfl
  have hroom : v.start.toNat + (encodeLog v.rs).length ≤ 2 ^ 30 := by
    rw [hv]
    change 4096 + 0 ≤ 2 ^ 30
    omega
  obtain ⟨s', hpush, his'⟩ := his.push_second hwf hroom
  obtain ⟨db, i, hdb, hlive⟩ := his
  refine ⟨s, s', db, hs, hdb, hlive.nextMsgId.trans hzero, hpush, ?_⟩
  intro hre
  obtain ⟨s₁, s₂, hclose, hopen⟩ := hre 0 0 0
  -- replay rejects the id zero
  have hnone : (pushRecord v.mem.nextMsgId secondBody).effect v.logEnd
      Content.empty = none := by
    rw [Record.effect, entry_pushRecord, Option.bind_some, hzero]
    rfl
  have hrej := hsaid.rejects hnone
  obtain ⟨db', i', hdb', hlive'⟩ := his'
  obtain ⟨w', db?⟩ := s'
  cases hdb'
  obtain ⟨t, hclose', hrest⟩ := Live.closes hlive' 0
  rw [hclose] at hclose'
  cases hclose'
  obtain ⟨u, hopen'⟩ := hrest.open_corrupt (hrej _) 0 0
  rw [hopen] at hopen'
  cases hopen'

end Usable

end Qdb
