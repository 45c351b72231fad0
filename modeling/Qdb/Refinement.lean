import Qdb.BrokerView
import Qdb.Phases
import Qdb.Lib.Runs

/-!
# The code refines the abstract queue machine

Every call on an open handle returns what the abstract machine returns and
leaves the tables and the log in the state it prescribes.
-/

namespace Qdb

open Lib

/-- The 32-bit counter of a list of this length is not zero. -/
def seen32 (k : Nat) : Prop :=
  k % 2 ^ 32 ≠ 0

theorem ofNat32_eq_zero {k : Nat} : UInt32.ofNat k = 0 ↔ k % 2 ^ 32 = 0 := by
  rw [← UInt32.toNat_inj]
  simp

namespace View.Wf

variable {v : View} {c : Content} {session : Option UInt64}

/-- What the head of a queue offers. -/
theorem offers_iff (h : v.Wf c) {n : QueueName} {q : Queue}
    (hq : v.mem.st.queueGet n = some q) {m : Message} :
    (v.broker c session).Offers seen32 n m ↔
      ∃ x, v.mem.st.Candidate q x ∧ m = v.message x := by
  have hl := h.shows.rep.lists.linked n
  have hcount := h.shows.rep.lists.count n
  rw [State.queueOr_of_get hq] at hl hcount
  unfold Broker.Offers
  rw [h.queue_head, h.queue_length]
  have hseen : seen32 (c.pend n).length ↔ q.pendingCount > 0 := by
    rw [gt_iff_lt, UInt32.pos_iff_ne_zero, ne_eq, hcount, ofNat32_eq_zero]
    rfl
  rw [hseen]
  constructor
  · rintro ⟨⟨x, hhead, hx, rfl⟩, hpos⟩
    obtain ⟨y, hy, rfl, -⟩ := h.shows.of_msg hx
    refine ⟨y, ⟨hpos, ?_, ?_⟩, rfl⟩
    · intro h0
      have he := hl.head_eq
      rw [h0] at he
      cases hp : c.pend n with
      | nil =>
          rw [hp] at hhead
          cases hhead
      | cons k ks =>
          rw [hp] at he
          have hz := hl.sentinel
          rw [hp] at hz
          exact hz (he ▸ List.mem_cons_self)
    · rw [hl.head_eq, List.headD_eq_head?_getD, hhead, Option.getD_some]
      exact hy
  · rintro ⟨x, ⟨hpos, h0, hx⟩, rfl⟩
    obtain ⟨-, -, hid, hhead⟩ := h.head hq h0 hx
    refine ⟨⟨x.core, hhead, ?_, rfl⟩, hpos⟩
    rw [← hid] at hx
    exact h.shows.msgGet hx

/-- A queue without an entry offers nothing. -/
theorem not_offers (h : v.Wf c) {n : QueueName}
    (hq : v.mem.st.queueGet n = none) (seen : Nat → Prop) (m : Message) :
    ¬ (v.broker c session).Offers seen n m := by
  rintro ⟨hhead, -⟩
  obtain ⟨x, hh, -⟩ := h.queue_head.mp hhead
  obtain ⟨y, hy, -, hn, -⟩ := h.pend_get (List.mem_of_mem_head? hh)
  have := h.shows.rep.queue_exists x.id y (by rw [h.shows.msg]; exact hy)
  rw [hn, hq] at this
  cases this

end View.Wf

section Moves

variable {v : View} {c : Content} {now : UInt64} {call : Call} {r : Record}
variable {half full : Mem} {res : Result}

/-- The abstract state of an open view. -/
def View.live (v : View) (c : Content) : Broker :=
  v.broker c (some v.leaseTimeoutUs)

theorem View.Wf.min_offers (h : v.Wf c) {m : Msg}
    (hmin : ∀ q' ∈ v.mem.st.queues, ∀ m', v.mem.st.Candidate q' m' →
      m.id ≤ m'.id) (n : QueueName) (y : Message)
    (hy : (v.live c).Offers seen32 n y) : m.id ≤ y.id := by
  cases hq : v.mem.st.queueGet n with
  | none =>
      exact absurd hy (h.not_offers hq _ _)
  | some q =>
      obtain ⟨x, hx, rfl⟩ := (h.offers_iff hq).mp hy
      have hname := State.queueGet_name hq
      exact hmin q (h.shows.rep.mem_queues.mpr (by rw [hname]; exact hq)) x hx

/-- A call that logs a record makes a step of the abstract machine. -/
theorem View.Inv.logs_step (h : v.Inv c) (hn : v.Counting)
    (hlog : v.Logs c now call r half full res)
    (hfit : (v.log r full).Fits) :
    ∃ c', (v.log r full).Inv c' ∧
      (v.live c).Step seen32 now call res ((v.log r full).live c') := by
  have hr := h.wf.logs_replays (h.wf.fresh h.bounded hn call) hlog
  obtain ⟨c', hc', hinv⟩ := h.logged hn hr hfit
  refine ⟨c', hinv, ?_⟩
  unfold View.live
  cases hlog with
  | @push queue data b harg =>
      rw [Record.effect, entry_pushRecord, Option.bind_some,
        Content.apply_push] at hc'
      obtain ⟨-, hnone, rfl⟩ := hc'
      have hb := h.wf.broker_push (o := some v.leaseTimeoutUs) hnone hfit
      change Broker.Step _ _ _ _ _ (View.broker _ _ (some v.leaseTimeoutUs))
      rw [hb]
      exact .push rfl harg
  | @deliver call q m hcall hm hs hq hcount hhead hmin =>
      rw [Record.effect, entry_leaseRecord, Option.bind_some] at hc'
      obtain ⟨x, hx, rfl⟩ := Option.map_eq_some_iff.mp hc'
      obtain ⟨-, -, hx, -⟩ := Content.leasable_eq_some.mp hx
      have hcore := h.wf.shows.msgGet hm
      rw [hcore] at hx
      cases hx
      have hb := h.wf.broker_deliver (m := m.core)
        (r := leaseRecord m.id (now + v.leaseTimeoutUs) v.mem.nextLeaseId)
        (p := v.leased now q m) (e := now + v.leaseTimeoutUs)
        (o := some v.leaseTimeoutUs) hcore hs hhead rfl rfl
      change Broker.Step _ _ _ _ _ (View.broker _ _ (some v.leaseTimeoutUs))
      rw [hb]
      have h0 : q.pendingHead ≠ 0 ∧ v.mem.st.msgGet q.pendingHead = some m := by
        have hl := h.wf.shows.rep.lists.linked m.queueName
        rw [State.queueOr_of_get hq] at hl
        have he := hl.head_eq
        rw [List.headD_eq_head?_getD, hhead, Option.getD_some] at he
        rw [he]
        exact ⟨h.wf.shows.rep.id_ne_zero m.id m.core
          (by rw [h.wf.shows.msg]; exact hcore), hm⟩
      have hoff : (v.live c).Offers seen32 m.queueName (v.message m) :=
        (h.wf.offers_iff hq).mpr ⟨m, ⟨hcount, h0⟩, rfl⟩
      rcases hcall with ⟨queue, rfl, harg⟩ | rfl
      · exact .pop rfl harg hoff
      · exact .popAny rfl hoff (h.wf.min_offers (hmin rfl))
  | @ack id l m hm hs hl =>
      rw [Record.effect, entry_ackRecord, Option.bind_some] at hc'
      obtain ⟨x, hheld, rfl⟩ := Option.map_eq_some_iff.mp hc'
      obtain ⟨hx, hsx, rfl⟩ := Content.held_eq_some.mp hheld
      have hid := h.wf.key hx
      subst hid
      have hb := h.wf.broker_ack (r := ackRecord x.id x.leaseId)
        (p := { v.mem with st := qdbAckState v.mem.st m x.leaseId })
        (o := some v.leaseTimeoutUs) hx hsx rfl rfl
      change Broker.Step _ _ _ _ _ (View.broker _ _ (some v.leaseTimeoutUs))
      rw [hb]
      exact .ack rfl (h.wf.lease_eq.mpr ⟨x, hx, hsx, rfl, rfl⟩) rfl
  | @nack id l m hm hs hl =>
      rw [Record.effect, entry_nackRecord, Option.bind_some] at hc'
      obtain ⟨x, hheld, rfl⟩ := Option.map_eq_some_iff.mp hc'
      obtain ⟨hx, hsx, rfl⟩ := Content.held_eq_some.mp hheld
      have hid := h.wf.key hx
      subst hid
      have hb := h.wf.broker_nack (r := nackRecord x.id x.leaseId)
        (p := { v.mem with st := qdbNackState v.mem.st m x.leaseId })
        (o := some v.leaseTimeoutUs) hx hsx rfl rfl
      change Broker.Step _ _ _ _ _ (View.broker _ _ (some v.leaseTimeoutUs))
      rw [hb]
      exact .nack rfl (h.wf.lease_eq.mpr ⟨x, hx, hsx, rfl, rfl⟩) rfl

/-- The checks of a resolution that fail. -/
theorem View.Inv.resolve_refuse (h : v.Inv c) {id l : UInt64} {r' : Record}
    {update : State → Msg → UInt64 → State}
    (hcall : call = .ack id l ∨ call = .nack id l)
    (hmv : v.resolveCall r' update id l = .refuse res) :
    (v.live c).Step seen32 now call res (v.live c) := by
  have hno : ∀ {s : Option Msg}, c.msg id = s →
      (∀ x, s = some x → x.state ≠ .leased) →
      ∀ l' x, (v.live c).lease l' = some x → x.msg.id ≠ id := by
    intro s hs hx l' x hlx hid
    obtain ⟨y, hy, hsy, -, rfl⟩ := h.wf.lease_eq.mp hlx
    have hid : y.id = id := hid
    rw [hid] at hy
    exact hx y (hs.symm.trans hy) hsy
  unfold View.resolveCall at hmv
  cases hm : v.mem.st.msgGet id with
  | none =>
      rw [hm] at hmv
      cases hmv
      exact .noent rfl hcall (hno (h.wf.shows.msg_none.mp hm) (by simp))
  | some m =>
      rw [hm] at hmv
      dsimp only at hmv
      have hcore := h.wf.shows.msgGet hm
      split at hmv
      · next hs =>
        cases hmv
        refine .noent rfl hcall (hno hcore ?_)
        rintro x hx
        cases hx
        exact hs
      · next hs =>
        split at hmv
        · next hl =>
          cases hmv
          have hid : m.core.id = id := h.wf.key hcore
          have hlease := h.wf.lease_eq (o := some v.leaseTimeoutUs)
            (l := m.leaseId) (x := ⟨v.message m, m.leaseExpiryUs⟩)
          refine .inval rfl hcall (hlease.mpr ?_) hid hl
          refine ⟨m.core, ?_, not_not.mp hs, rfl, rfl⟩
          rw [hid]
          exact hcore
        · cases hmv

/-- A call that is refused makes a step that changes nothing. -/
theorem View.Inv.refuse_step (h : v.Inv c) (hn : v.Counting)
    (hmv : v.move now call = some (.refuse res)) :
    (v.live c).Step seen32 now call res (v.live c) := by
  cases call with
  | push queue data =>
      replace hmv := Option.some.inj hmv
      unfold View.push at hmv
      cases harg : pushArg queue data with
      | none =>
          rw [harg] at hmv
          cases hmv
          exact .pushInval rfl harg
      | some b =>
          rw [harg] at hmv
          cases hmv
  | pop queue out =>
      replace hmv := Option.some.inj hmv
      unfold View.pop at hmv
      split at hmv
      · next hout =>
        cases hmv
        exact .popInval rfl (Or.inl (by simpa using hout))
      next hout =>
      have hout : out = true := by simpa using hout
      subst hout
      cases harg : queueArg queue with
      | none =>
          rw [harg] at hmv
          cases hmv
          exact .popInval rfl (Or.inr harg)
      | some n =>
          rw [harg] at hmv
          dsimp only at hmv
          cases hq : v.mem.st.queueGet n with
          | none =>
              rw [hq] at hmv
              cases hmv
              exact .popEmpty rfl harg (h.wf.not_offers hq _)
          | some q =>
              rw [hq] at hmv
              dsimp only at hmv
              split at hmv
              · next hz =>
                cases hmv
                refine .popEmpty rfl harg (fun m hm => ?_)
                obtain ⟨x, ⟨h1, h2, -⟩, -⟩ := (h.wf.offers_iff hq).mp hm
                rcases hz with hz | hz
                · exact absurd hz (UInt32.pos_iff_ne_zero.mp h1)
                · exact h2 hz
              · next hz =>
                rw [not_or] at hz
                obtain ⟨m, hm⟩ := Option.isSome_iff_exists.mp
                  (h.wf.head_isSome hq hz.2)
                rw [hm] at hmv
                cases hmv
  | popAny out =>
      replace hmv := Option.some.inj hmv
      unfold View.popAny at hmv
      split at hmv
      · next hout =>
        have hout : out = false := by simpa using hout
        subst hout
        cases hmv
        exact .popAnyInval rfl
      next hout =>
      have hout : out = true := by simpa using hout
      subst hout
      obtain ⟨best, hp, hnone, -⟩ := h.wf.popAnyScan
      rw [hp] at hmv
      cases best with
      | some qm =>
          cases hmv
      | none =>
          cases hmv
          refine .popAnyEmpty rfl (fun n m hm => ?_)
          cases hq : v.mem.st.queueGet n with
          | none =>
              exact h.wf.not_offers hq _ _ hm
          | some q =>
              obtain ⟨x, hx, -⟩ := (h.wf.offers_iff hq).mp hm
              have hname := State.queueGet_name hq
              have hle := hnone rfl q (h.wf.shows.rep.mem_queues.mpr
                (by rw [hname]; exact hq)) x hx
              have hlt := h.bounded.msg hn.msg q.pendingHead (by
                rw [h.wf.shows.msgGet hx.2.2]
                rfl)
              rw [State.msgGet_id hx.2.2] at hle
              grind
  | ack id l =>
      exact h.resolve_refuse (Or.inl rfl) (Option.some.inj hmv)
  | nack id l =>
      exact h.resolve_refuse (Or.inr rfl) (Option.some.inj hmv)
  | openDb t =>
      cases hmv
  | close =>
      cases hmv
  | processExpired =>
      cases hmv
  | compact =>
      cases hmv

end Moves

section Expiry

variable {now : UInt64}

/-- The expired ones among the leases `ls`, with their messages. -/
def Broker.expiredOf (b : Broker) (now : UInt64) (ls : List Lease) :
    List (UInt64 × Held) :=
  ls.filterMap fun l =>
    if l.expiryUs < now then (b.lease l.leaseId).map (Prod.mk l.leaseId)
    else none

theorem Broker.expiredOf_append (b : Broker) (now : UInt64)
    (ls ls' : List Lease) :
    b.expiredOf now (ls ++ ls') = b.expiredOf now ls ++ b.expiredOf now ls' :=
  List.filterMap_append

theorem Broker.requeueAll_cons (b : Broker) (x : UInt64 × Held)
    (xs : List (UInt64 × Held)) :
    b.requeueAll (x :: xs) = (b.requeue x.1 x.2.msg).requeueAll xs := by
  rfl

theorem Broker.mem_expiredOf {b : Broker} {ls : List Lease} {l : UInt64}
    {x : Held} :
    (l, x) ∈ b.expiredOf now ls ↔
      ∃ e ∈ ls, e.leaseId = l ∧ e.expiryUs < now ∧ b.lease l = some x := by
  unfold expiredOf
  rw [List.mem_filterMap]
  constructor
  · rintro ⟨e, he, hx⟩
    split at hx
    · next hlt =>
      obtain ⟨y, hy, heq⟩ := Option.map_eq_some_iff.mp hx
      cases heq
      exact ⟨e, he, rfl, hlt, hy⟩
    · cases hx
  · rintro ⟨e, he, rfl, hlt, hx⟩
    refine ⟨e, he, ?_⟩
    rw [if_pos hlt, hx]
    rfl

/-- A list of all leases gives the expired ones. -/
theorem Broker.expired_of_all {b : Broker} {ls : List Lease}
    (hnd : (ls.map Lease.leaseId).Nodup)
    (hget : ∀ e ∈ ls, ∃ x, b.lease e.leaseId = some x ∧
      x.expiryUs = e.expiryUs)
    (hall : ∀ l x, b.lease l = some x → ∃ e ∈ ls, e.leaseId = l) :
    b.Expired now (b.expiredOf now ls) ∧
      (b.expiredOf now ls).length = expiredCount now ls := by
  refine ⟨⟨?_, ?_⟩, ?_⟩
  · clear hall
    induction ls with
    | nil =>
        exact List.nodup_nil
    | cons e ls ih =>
        rw [List.map_cons, List.nodup_cons] at hnd
        have hrest := ih hnd.2 (fun y hy => hget y (List.mem_cons_of_mem _ hy))
        unfold expiredOf
        rw [List.filterMap_cons]
        split
        · exact hrest
        · next y hy =>
          split at hy
          · obtain ⟨x, -, rfl⟩ := Option.map_eq_some_iff.mp hy
            rw [List.map_cons, List.nodup_cons]
            refine ⟨?_, hrest⟩
            intro hin
            obtain ⟨⟨l, z⟩, hz, hl⟩ := List.mem_map.mp hin
            obtain ⟨e', he', hle, -⟩ := mem_expiredOf.mp hz
            apply hnd.1
            exact List.mem_map.mpr ⟨e', he', hle.trans hl⟩
          · cases hy
  · intro l x
    rw [mem_expiredOf]
    constructor
    · rintro ⟨e, he, rfl, hlt, hx⟩
      obtain ⟨y, hy, hexp⟩ := hget e he
      rw [hx] at hy
      cases hy
      exact ⟨hx, hexp ▸ hlt⟩
    · rintro ⟨hx, hlt⟩
      obtain ⟨e, he, rfl⟩ := hall l x hx
      obtain ⟨y, hy, hexp⟩ := hget e he
      rw [hx] at hy
      cases hy
      exact ⟨e, he, rfl, hexp ▸ hlt, hx⟩
  · clear hall hnd
    unfold expiredCount
    induction ls with
    | nil =>
        rfl
    | cons e ls ih =>
        have hrest := ih (fun y hy => hget y (List.mem_cons_of_mem _ hy))
        obtain ⟨x, hx, -⟩ := hget e List.mem_cons_self
        unfold expiredOf at hrest ⊢
        rw [List.filterMap_cons, List.countP_cons]
        by_cases hlt : e.expiryUs < now
        · simp [hlt, hx, hrest]
        · simp [hlt, hrest]

variable {v : View} {c : Content}

/-- Expiry of one lease. -/
theorem View.Inv.expire_step (h : v.Inv c) (hn : v.Counting) {l : Lease}
    (hl : c.lease l.leaseId = some l)
    (hfit : (v.after (v.expire l.leaseId l.msgId)).Fits) :
    ∃ c' x, (v.after (v.expire l.leaseId l.msgId)).Inv c' ∧
      (v.after (v.expire l.leaseId l.msgId)).Counting ∧
      (v.live c).lease l.leaseId = some x ∧
      (v.after (v.expire l.leaseId l.msgId)).live c' =
        (v.live c).requeue l.leaseId x.msg ∧
      ∀ k, k ≠ l.leaseId → c'.lease k = c.lease k := by
  obtain ⟨m, hm, hs, hlm, hmv⟩ := h.wf.expire_eq hl
  rw [hmv] at hfit ⊢
  have hr := (h.wf.resolve_replays hm hs hlm).2.2
  obtain ⟨c', hc', hinv⟩ := h.logged hn hr hfit
  rw [Record.effect, entry_expireRecord, Option.bind_some] at hc'
  obtain ⟨y, hheld, rfl⟩ := Option.map_eq_some_iff.mp hc'
  obtain ⟨hy, hsy, hly⟩ := Content.held_eq_some.mp hheld
  have hkey := h.wf.key hy
  rw [← hkey] at hy
  have hb := h.wf.broker_nack (r := expireRecord l.msgId l.leaseId)
    (p := { v.mem with st := qdbNackState v.mem.st m l.leaseId })
    (o := some v.leaseTimeoutUs) hy hsy rfl rfl
  rw [hly] at hb
  refine ⟨_, ⟨v.message y, y.leaseExpiryUs⟩, hinv, ⟨hn.msg, hn.lease⟩,
    h.wf.lease_eq.mpr ⟨y, hy, hsy, hly, rfl⟩, hb, ?_⟩
  intro k hk
  exact Function.update_of_ne hk _ _

/-- Expiry of several leases. -/
theorem View.Inv.expireAll (h : v.Inv c) (hn : v.Counting) {ls : List Lease}
    (hnd : (ls.map Lease.leaseId).Nodup)
    (hls : ∀ l ∈ ls, c.lease l.leaseId = some l)
    (hfit : (v.expireAll now ls).Fits) :
    ∃ c', (v.expireAll now ls).Inv c' ∧ (v.expireAll now ls).Counting ∧
      (v.expireAll now ls).live c' =
        (v.live c).requeueAll ((v.live c).expiredOf now ls) := by
  induction ls generalizing v c with
  | nil =>
      exact ⟨c, h, hn, rfl⟩
  | cons l ls ih =>
      rw [View.expireAll_cons] at hfit ⊢
      rw [List.map_cons, List.nodup_cons] at hnd
      have hrest : ∀ k ∈ ls, k.leaseId ≠ l.leaseId := by
        intro k hk heq
        exact hnd.1 (List.mem_map.mpr ⟨k, hk, heq⟩)
      by_cases hlt : l.expiryUs < now
      · have hstep : v.expireStep now l =
            v.after (v.expire l.leaseId l.msgId) := if_pos hlt
        rw [hstep] at hfit ⊢
        have hfit1 : (v.after (v.expire l.leaseId l.msgId)).Fits := by
          obtain ⟨-, hs, -, -, rest, hrs⟩ :=
            (v.after (v.expire l.leaseId l.msgId)).expireAll_fields now ls
          unfold View.Fits at hfit ⊢
          rw [hs, ← hrs] at hfit
          exact hfit.of_append
        obtain ⟨c1, x, hinv, hcount, hx, hlive, hother⟩ :=
          h.expire_step hn (hls l List.mem_cons_self) hfit1
        obtain ⟨c', hinv', hcount', hlive'⟩ := ih hinv hcount hnd.2 (by
          intro k hk
          rw [hother _ (hrest k hk)]
          exact hls k (List.mem_cons_of_mem _ hk)) hfit
        refine ⟨c', hinv', hcount', ?_⟩
        have hcongr : ((v.live c).requeue l.leaseId x.msg).expiredOf now ls =
            (v.live c).expiredOf now ls := by
          apply List.filterMap_congr
          intro k hk
          have hk' : ((v.live c).requeue l.leaseId x.msg).lease k.leaseId =
              (v.live c).lease k.leaseId :=
            Function.update_of_ne (hrest k hk) _ _
          rw [hk']
        have hcons : (v.live c).expiredOf now (l :: ls) =
            (l.leaseId, x) :: (v.live c).expiredOf now ls := by
          unfold Broker.expiredOf
          rw [List.filterMap_cons, if_pos hlt, hx]
          rfl
        rw [hlive', hlive, hcongr, hcons, Broker.requeueAll_cons]
      · have hstep : v.expireStep now l = v := if_neg hlt
        rw [hstep] at hfit ⊢
        obtain ⟨c', hinv', hcount', hlive'⟩ := ih h hn hnd.2
          (fun k hk => hls k (List.mem_cons_of_mem _ hk)) hfit
        refine ⟨c', hinv', hcount', ?_⟩
        have hcons : (v.live c).expiredOf now (l :: ls) =
            (v.live c).expiredOf now ls := by
          unfold Broker.expiredOf
          rw [List.filterMap_cons, if_neg hlt]
        rw [hlive', hcons]

end Expiry

section Phases

variable {v : View} {c : Content} {now : UInt64}

/-- The invariant is about the log and the memory only. -/
theorem View.Inv.congr (h : v.Inv c) {v' : View} (hs : v'.start = v.start)
    (hrs : v'.rs = v.rs) (hmem : v'.mem = v.mem) : v'.Inv c := by
  obtain ⟨rs, mem, t, ct, start, fl⟩ := v
  obtain ⟨rs', mem', t', ct', start', fl'⟩ := v'
  cases hs
  cases hrs
  cases hmem
  exact ⟨⟨h.wf.shows, h.wf.located⟩, ⟨h.bounded.msg, h.bounded.lease⟩,
    h.stable⟩

theorem View.broker_congr {v' : View} (hs : v'.start = v.start)
    (hrs : v'.rs = v.rs) (hmem : v'.mem = v.mem) (s : Option UInt64) :
    v'.broker c s = v.broker c s := by
  obtain ⟨rs, mem, t, ct, start, fl⟩ := v
  obtain ⟨rs', mem', t', ct', start', fl'⟩ := v'
  cases hs
  cases hrs
  cases hmem
  rfl

/-- The phase says `b`. -/
def Phase.Shows : Phase → Broker → Prop
  | .absent, b => b = Broker.new
  | .broken, _ => False
  | .closed d, b => ∃ mem c, d.replay = some mem ∧ (d.opened mem 0).Inv c ∧
      b = (d.opened mem 0).broker c none
  | .opened v, b => ∃ c, v.Inv c ∧ b = v.live c

/-- The counters of the open handle have not wrapped. -/
def Phase.Counting (ph : Phase) : Prop :=
  ∀ v, ph = .opened v → v.Counting

theorem Phase.Shows.wellFormed {ph : Phase} {b : Broker} (h : ph.Shows b) :
    ph.WellFormed := by
  rintro v rfl
  obtain ⟨c, hc, -⟩ := h
  exact ⟨c, hc.wf⟩

theorem Phase.Shows.session_none {ph : Phase} {b : Broker} (h : ph.Shows b)
    (hph : ∀ v, ph ≠ .opened v) : b.session = none := by
  cases ph with
  | absent =>
      cases h
      rfl
  | broken =>
      exact h.elim
  | closed d =>
      obtain ⟨mem, c, -, -, rfl⟩ := h
      rfl
  | opened v =>
      exact absurd rfl (hph v)

/-- The file of an open handle, whatever its flags. -/
theorem View.Inv.shows_closed (h : v.Inv c) {d : DbFile}
    (hd : d = { v.file with flags := d.flags }) :
    (Phase.closed d).Shows (v.live c).down := by
  have hrep : d.replay = some v.mem := by
    rw [hd]
    exact h.stable
  refine ⟨v.mem, c, hrep, h.congr ?_ ?_ rfl, ?_⟩
  · rw [hd]
    rfl
  · rw [hd]
    rfl
  · rw [hd]
    exact (View.broker_congr rfl rfl rfl none).symm

/-- A new database. -/
theorem newFile_inv (now t : UInt64) :
    ((newFile now).opened (Mem.start 1) t).Inv Content.empty where
  wf := ⟨State.Shows.start, by intro id x hx; cases hx⟩
  bounded := ⟨(fun _ _ hid => nomatch hid), (fun _ _ hl => nomatch hl)⟩
  stable := rfl

theorem newFile_live (now t : UInt64) :
    ((newFile now).opened (Mem.start 1) t).live Content.empty =
      { Broker.new with session := some t } := by
  rfl

/-- Compaction keeps everything but the retry counts. -/
theorem View.Inv.compacted_live (h : v.Inv c) {d : Content} {mem : Mem}
    (hm : mem.nextMsgId = v.mem.nextMsgId)
    (hl : mem.nextLeaseId = v.mem.nextLeaseId)
    (hcomp : Compacts v (v.compactRecords now) c d)
    (hfit : Qdb.Fits hdrSize (v.compactRecords now)) :
    (v.compacted now mem).live d = (v.live c).compacted := by
  have hcopy : ∀ id x, c.msg id = some x → x.state ≠ .acked →
      (d.msg id).map (v.compacted now mem).message =
        some (v.message x).fresh := by
    intro id x hx hs
    obtain ⟨y, hy, hcp⟩ := hcomp.live id x hx hs
    have hdata : dataOf hdrSize (v.compactRecords now) y =
        dataOf v.start v.rs x := (hcp.data (h.wf.located id x hx) hfit).2
    rw [hy, Option.map_some]
    congr 1
    change (⟨y.id, y.queueName, dataOf hdrSize (v.compactRecords now) y,
      y.retryCount⟩ : Message) = ⟨x.id, x.queueName, dataOf v.start v.rs x, 0⟩
    rw [hcp.id, hcp.queueName, hcp.retry, hdata]
  ext1
  · rfl
  · exact hm
  · exact hl
  · funext n
    change (d.pend n).filterMap _ = ((c.pend n).filterMap _).map _
    rw [hcomp.pend, List.map_filterMap]
    apply List.filterMap_congr
    intro id hid
    obtain ⟨x, hx, -, -, hs⟩ := h.wf.pend_get hid
    rw [hcopy id x hx (by rw [hs]; decide), hx]
    rfl
  · funext l
    change (d.lease l).bind _ = ((c.lease l).bind _).map _
    rw [hcomp.lease]
    cases he : c.lease l with
    | none =>
        rfl
    | some e =>
        obtain ⟨x, hx, hs, -⟩ := h.wf.lease_get he
        have hcp := hcopy e.msgId x hx (by rw [hs]; decide)
        obtain ⟨y, hy, hyx⟩ := Option.map_eq_some_iff.mp hcp
        rw [Option.bind_some, Option.bind_some, hx, hy, Option.map_some,
          Option.map_some, Option.map_some, hyx]
        rfl

/-- The lease table as a list. -/
theorem View.Wf.leases (h : v.Wf c) :
    (v.mem.st.leases.map Lease.leaseId).Nodup ∧
      (∀ l ∈ v.mem.st.leases, c.lease l.leaseId = some l) ∧
      ∀ l x, c.lease l = some x → x ∈ v.mem.st.leases ∧ x.leaseId = l := by
  refine ⟨h.shows.rep.placed.leases.nodup_toList, ?_, ?_⟩
  · intro l hl
    rw [← h.shows.lease]
    exact h.shows.rep.mem_leases.mp hl
  · intro l x hx
    have hid := h.lease_key hx
    refine ⟨h.shows.rep.mem_leases.mpr ?_, hid⟩
    rw [hid, h.shows.lease]
    exact hx

/-- The expired leases of a view. -/
theorem View.Wf.expired (h : v.Wf c) (now : UInt64) :
    (v.live c).Expired now ((v.live c).expiredOf now v.mem.st.leases) ∧
      ((v.live c).expiredOf now v.mem.st.leases).length =
        expiredCount now v.mem.st.leases := by
  obtain ⟨hnd, hget, hall⟩ := h.leases
  generalize v.mem.st.leases = ls at hnd hget hall ⊢
  apply Broker.expired_of_all hnd
  · intro e he
    have hl := hget e he
    obtain ⟨x, hx, hs, hlx, hexp⟩ := h.lease_get hl
    have hkey := h.key hx
    rw [← hkey] at hx
    exact ⟨_, h.lease_eq.mpr ⟨x, hx, hs, hlx, rfl⟩, hexp⟩
  · intro l x hx
    obtain ⟨m, hm, hs, rfl, -⟩ := h.lease_eq.mp hx
    exact ⟨_, (hall _ _ (h.msg_lease hm hs)).1, rfl⟩

/-- No step of the abstract machine reports an I/O error. -/
theorem Broker.Step.ne_io {seen : Nat → Prop} {b b' : Broker} {call : Call}
    {res : Result} (h : b.Step seen now call res b') :
    res ≠ .code .errIo := by
  cases h with
  | null hs hcall =>
      cases call <;> simp [nullResult]
  | _ =>
      simp

/-- How a call ends on the abstract machine. -/
def Broker.Ends (b : Broker) (now : UInt64) (call : Call) (res : Result)
    (b' : Broker) : Prop :=
  (res ≠ .code .errIo ∧ b.Step seen32 now call res b') ∨
    (res = .code .errIo ∧ b.Refused now call b')

theorem Broker.Step.ends {b b' : Broker} {call : Call} {res : Result}
    (h : b.Step seen32 now call res b') : b.Ends now call res b' :=
  Or.inl ⟨h.ne_io, h⟩

/-- Expiry on an open handle. -/
theorem View.Inv.expire_ends (h : v.Inv c) (hn : v.Counting) {rc : Rc}
    {v' : View} (hend : ExpireEnd False now v v.mem.st.leases rc v')
    (hfit : v'.Fits) :
    ∃ c', v'.Inv c' ∧ (v.live c).Ends now .processExpired
      (.ofExpire rc (Int32.ofNat (expiredCount now v.mem.st.leases)))
      (v'.live c') := by
  obtain ⟨hexp, hlen⟩ := h.wf.expired now
  obtain ⟨hnd, hget, -⟩ := h.wf.leases
  generalize v.mem.st.leases = ls at hend hexp hlen hnd hget ⊢
  rcases hend with ⟨rfl, rfl⟩ | ⟨rfl, ls1, l, ls2, rfl, -, ho⟩
  · obtain ⟨c', hinv, -, hlive⟩ := h.expireAll hn hnd hget hfit
    refine ⟨c', hinv, Broker.Step.ends ?_⟩
    rw [hlive, show Result.ofExpire .ok _ = _ from rfl, ← hlen]
    exact .expire rfl hexp
  · have hv : v' = v.expireAll now ls1 := by
      rcases ho.inv with ⟨hres, -⟩ | ⟨-, _, _, _, _, -, hv | ⟨hF, -⟩⟩
      · rw [View.expire_result] at hres
        cases hres
      · exact hv
      · exact hF.elim
    subst hv
    rw [List.map_append] at hnd
    obtain ⟨c', hinv, -, hlive⟩ := h.expireAll hn
      (List.nodup_append.mp hnd).1
      (fun k hk => hget k (List.mem_append_left _ hk)) hfit
    refine ⟨c', hinv, Or.inr ⟨rfl, ?_⟩⟩
    rw [hlive]
    rw [Broker.expiredOf_append] at hexp
    exact .expire hexp

/-- Every call does on the code what it does on the abstract machine. -/
theorem Phase.Shows.step {ph ph' : Phase} {b : Broker} {call : Call}
    {res : Result} (h : ph.Shows b) (hn : ph.Counting)
    (hs : ph.Step now call res ph') :
    ∃ b', ph'.Shows b' ∧ b.Ends now call res b' := by
  cases hs with
  | null hph hcall =>
      exact ⟨b, h, Broker.Step.ends (.null (h.session_none hph) hcall)⟩
  | create t =>
      cases h
      refine ⟨_, ⟨_, newFile_inv now _, rfl⟩, Broker.Step.ends ?_⟩
      rw [newFile_live]
      exact .openDb t rfl
  | openBroken t =>
      exact h.elim
  | @openDb t d mem hrep =>
      obtain ⟨mem', c, hrep', hinv, rfl⟩ := h
      rw [hrep] at hrep'
      cases hrep'
      refine ⟨_, ⟨c, hinv.congr rfl rfl rfl, rfl⟩, Broker.Step.ends ?_⟩
      exact .openDb t rfl
  | openCorrupt t hrep =>
      obtain ⟨mem', c, hrep', -⟩ := h
      rw [hrep] at hrep'
      cases hrep'
  | openLocked t =>
      obtain ⟨c, hinv, rfl⟩ := h
      exact ⟨_, ⟨c, hinv, rfl⟩, Broker.Step.ends (.openLocked t rfl)⟩
  | close =>
      obtain ⟨c, hinv, rfl⟩ := h
      exact ⟨_, hinv.shows_closed rfl, Broker.Step.ends (.close rfl)⟩
  | @move v v' call mv res hmv ho =>
      obtain ⟨c, hinv, rfl⟩ := h
      have hcount := hn v rfl
      cases ho with
      | refuse =>
          exact ⟨_, ⟨c, hinv, rfl⟩,
            Broker.Step.ends (hinv.refuse_step hcount hmv)⟩
      | io hio =>
          refine ⟨_, ⟨c, hinv, rfl⟩, Or.inr ⟨rfl, .same rfl ?_⟩⟩
          cases call <;> trivial
      | half hF =>
          exact hF.elim
      | full hfit =>
          obtain ⟨c', hinv', hstep⟩ :=
            hinv.logs_step hcount (hinv.wf.logs hmv) hfit
          exact ⟨_, ⟨c', hinv', rfl⟩, Broker.Step.ends hstep⟩
  | @expire v v' rc hend hfit =>
      obtain ⟨c, hinv, rfl⟩ := h
      obtain ⟨c', hinv', hends⟩ := hinv.expire_ends (hn v rfl) hend hfit
      exact ⟨_, ⟨c', hinv', rfl⟩, hends⟩
  | @compact v mem hmem hfit =>
      obtain ⟨c, hinv, rfl⟩ := h
      obtain ⟨mem', d, hmem', hm, hl, hcomp, hinv'⟩ :=
        hinv.compact (hn v rfl) now
      have hmem : replayRecords hdrSize (v.compactRecords now)
        (Mem.start v.mem.nextMsgId) = some mem := hmem
      rw [hmem] at hmem'
      cases hmem'
      refine ⟨_, ⟨d, hinv' hfit, rfl⟩, Broker.Step.ends ?_⟩
      rw [hinv.compacted_live hm hl hcomp hfit]
      exact .compact rfl
  | compactIo hfit =>
      obtain ⟨c, hinv, rfl⟩ := h
      exact ⟨_, ⟨c, hinv, rfl⟩, Or.inr ⟨rfl, .same rfl trivial⟩⟩

theorem Broker.down_of_none {b : Broker} (h : b.session = none) :
    b.down = b := by
  ext1 <;> simp [Broker.down, h]

theorem Broker.Crash.same {b : Broker} (call : Call) (h : b.session = none) :
    b.Crash seen32 now call b := by
  have hc : b.Crash seen32 now call b.down := .before
  rwa [Broker.down_of_none h] at hc

/-- The compacted file. -/
theorem View.Inv.shows_compacted (h : v.Inv c) (hn : v.Counting) {mem : Mem}
    (hmem : v.compactReplay now = some mem)
    (hfit : Qdb.Fits hdrSize (v.compactRecords now)) :
    (Phase.closed (v.staging (v.compactRecords now))).Shows
        (v.live c).compacted.down ∧
      (Phase.closed (v.compacted now mem).file).Shows
        (v.live c).compacted.down := by
  obtain ⟨mem', d, hmem', hm, hl, hcomp, hinv⟩ := h.compact hn now
  have heq : mem' = mem := Option.some.inj (hmem'.symm.trans hmem)
  subst heq
  have hlive := h.compacted_live hm hl hcomp hfit
  constructor
  · refine ⟨mem', d, hmem, (hinv hfit).congr rfl rfl rfl, ?_⟩
    rw [← hlive]
    exact (View.broker_congr rfl rfl rfl none).symm
  · rw [← hlive]
    exact (hinv hfit).shows_closed rfl

/-- A crash inside a call leaves what the abstract machine allows, or the file
of an interrupted creation. -/
theorem Phase.Shows.crash {ph ph' : Phase} {b : Broker} {call : Call}
    (h : ph.Shows b) (hn : ph.Counting) (hc : ph.Crash now call ph') :
    (ph = .absent ∧ ph' = .broken) ∨
      ∃ b', ph'.Shows b' ∧ b.Crash seen32 now call b' := by
  cases hc with
  | same hph =>
      exact Or.inr ⟨b, h, Broker.Crash.same _ (h.session_none hph)⟩
  | createBroken t =>
      exact Or.inl ⟨rfl, rfl⟩
  | create t =>
      cases h
      refine Or.inr ⟨_, (newFile_inv now 0).shows_closed rfl, ?_⟩
      exact Broker.Crash.same _ rfl
  | @openDb t d mem hrep =>
      obtain ⟨mem', c, hrep', hinv, rfl⟩ := h
      rw [hrep] at hrep'
      cases hrep'
      refine Or.inr ⟨_, ((hinv.congr rfl rfl rfl :
        (d.opened mem (leaseTimeoutOf t)).Inv c).shows_closed rfl), ?_⟩
      exact Broker.Crash.same _ rfl
  | before =>
      obtain ⟨c, hinv, rfl⟩ := h
      exact Or.inr ⟨_, hinv.shows_closed rfl, .before⟩
  | close =>
      obtain ⟨c, hinv, rfl⟩ := h
      exact Or.inr ⟨_, hinv.shows_closed rfl, .before⟩
  | @move v call mv hmv hfit =>
      obtain ⟨c, hinv, rfl⟩ := h
      have hcount := hn v rfl
      right
      cases mv with
      | refuse res =>
          exact ⟨_, hinv.shows_closed rfl, .before⟩
      | log r half full res =>
          obtain ⟨c', hinv', hstep⟩ :=
            hinv.logs_step hcount (hinv.wf.logs hmv) hfit
          exact ⟨_, hinv'.shows_closed rfl, .done hstep⟩
  | @expire v ls ls' hls hfit =>
      obtain ⟨c, hinv, rfl⟩ := h
      obtain ⟨hexp, -⟩ := hinv.wf.expired now
      obtain ⟨hnd, hget, -⟩ := hinv.wf.leases
      rw [hls] at hexp hnd hget
      rw [List.map_append] at hnd
      obtain ⟨c', hinv', -, hlive⟩ := hinv.expireAll (hn v rfl)
        (List.nodup_append.mp hnd).1
        (fun k hk => hget k (List.mem_append_left _ hk)) hfit
      rw [Broker.expiredOf_append] at hexp
      refine Or.inr ⟨_, hinv'.shows_closed rfl, ?_⟩
      rw [hlive]
      exact .refused (.expire hexp)
  | @compactStaged v mem hmem hfit =>
      obtain ⟨c, hinv, rfl⟩ := h
      exact Or.inr ⟨_, (hinv.shows_compacted (hn v rfl) hmem hfit).1,
        .done (.compact rfl)⟩
  | @compact v mem hmem hfit =>
      obtain ⟨c, hinv, rfl⟩ := h
      exact Or.inr ⟨_, (hinv.shows_compacted (hn v rfl) hmem hfit).2,
        .done (.compact rfl)⟩

end Phases

end Qdb
