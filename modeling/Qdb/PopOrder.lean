import Qdb.ExpireNack
import Qdb.Fifo

/-!
# The oldest message of all queues

`qdb_pop_any` compares the heads of the lists only.  A push appends the largest
id of all, so that a list stays sorted as long as no message returns to the tail
of a queue that has a younger one; then the smallest head is the smallest
pending id of the database (`popAny_oldest`).

A nack, or an expiry, puts the message behind those pushed after it, and
`qdb_pop_any` returns one of these first (`popAny_younger`).
-/

namespace Qdb

open Lib

/-- Requeued one after the other, the messages of the leases `ls` are behind
smaller ids only. -/
structure State.InOrder (st : State) (ls : List Lease) : Prop where
  queued : ∀ l ∈ ls, ∀ m, st.msgGet l.msgId = some m →
    ∀ id ∈ st.pendingIds m.queueName, id < l.msgId
  leased : ls.Pairwise fun k l => (st.msgGet k.msgId).map Msg.queueName =
    (st.msgGet l.msgId).map Msg.queueName → k.msgId < l.msgId

/-- The call requeues no message behind a younger one. -/
def Sys.InOrder (s : Sys) (e : Event) : Prop :=
  ∀ db st, s.db = some db → db.state = some st →
    match e.call with
    | .nack id l => ∀ x, st.leaseGet l = some x → x.msgId = id →
        st.InOrder [x]
    | .processExpired => st.InOrder (overdue e.now st.leases)
    | _ => True

/-- A call that keeps the order, before the id counters have wrapped. -/
inductive Sys.OrderedReturns (s : Sys) : Act → Sys → Prop
  | call {e : Event} {id : Option UInt64} {res : Result} {s' : Sys}
      (h : s.CountedReturns (.call e id res) s') (ho : s.InOrder e) :
      OrderedReturns s (.call e id res) s'

namespace Broker

variable {b : Broker} {xs : List (UInt64 × Held)}

/-- Every queue lists its messages by their ids. -/
def Sorted (b : Broker) : Prop :=
  ∀ n, (b.queue n).Pairwise fun m m' => m.id < m'.id

/-- What `State.InOrder` says of the abstract machine. -/
structure InOrder (b : Broker) (xs : List (UInt64 × Held)) : Prop where
  queued : ∀ x ∈ xs, ∀ k ∈ b.queue x.2.msg.queue, k.id < x.2.msg.id
  leased : xs.Pairwise fun x y =>
    x.2.msg.queue = y.2.msg.queue → x.2.msg.id < y.2.msg.id

theorem sorted_new : new.Sorted :=
  fun _ => List.Pairwise.nil

namespace Sorted

theorem append (h : b.Sorted) {n : QueueName} {m : Message}
    (hm : ∀ k ∈ b.queue n, k.id < m.id) (n' : QueueName) :
    (Function.update b.queue n (b.queue n ++ [m]) n').Pairwise
      fun m m' => m.id < m'.id := by
  by_cases hn : n' = n
  · subst hn
    rw [Function.update_self, List.pairwise_append]
    refine ⟨h n', List.pairwise_singleton _ _, ?_⟩
    intro k hk m' hm'
    rw [List.mem_singleton.mp hm']
    exact hm k hk
  · rw [Function.update_of_ne hn]
    exact h n'

theorem deliver (h : b.Sorted) (n : QueueName) (m : Message) (e : UInt64) :
    (b.deliver n m e).Sorted := by
  intro n'
  change (Function.update b.queue n (b.queue n).tail n').Pairwise _
  by_cases hn : n' = n
  · subst hn
    rw [Function.update_self]
    exact (h n').sublist (List.tail_sublist _)
  · rw [Function.update_of_ne hn]
    exact h n'

theorem requeue (h : b.Sorted) {l : UInt64} {m : Message}
    (hm : ∀ k ∈ b.queue m.queue, k.id < m.id) : (b.requeue l m).Sorted :=
  fun n => h.append (m := m.retried) hm n

/-- Requeued in their order, the messages keep the queues sorted. -/
theorem requeueAll (h : b.Sorted) (ho : b.InOrder xs) :
    (b.requeueAll xs).Sorted := by
  induction xs generalizing b with
  | nil =>
      exact h
  | cons x xs ih =>
      rw [requeueAll_cons]
      obtain ⟨hx, hxs⟩ := List.pairwise_cons.mp ho.leased
      refine ih (h.requeue (ho.queued x List.mem_cons_self)) ⟨?_, hxs⟩
      intro y hy k hk
      change k ∈ Function.update b.queue x.2.msg.queue
        (b.queue x.2.msg.queue ++ [x.2.msg.retried]) y.2.msg.queue at hk
      have hold := ho.queued y (List.mem_cons_of_mem _ hy) k
      by_cases hq : y.2.msg.queue = x.2.msg.queue
      · rw [hq, Function.update_self, List.mem_append,
          List.mem_singleton] at hk
        rcases hk with hk | rfl
        · rw [hq] at hold
          exact hold hk
        · exact hx y hy hq.symm
      · rw [Function.update_of_ne hq] at hk
        exact hold hk

theorem compacted (h : b.Sorted) : b.compacted.Sorted :=
  fun n => (h n).map Message.fresh fun _ _ hlt => hlt

/-- The head of a sorted queue has its smallest id. -/
theorem head_le (h : b.Sorted) {n : QueueName} {m k : Message}
    (hm : (b.queue n).head? = some m) (hk : k ∈ b.queue n) : m.id ≤ k.id := by
  have hn := h n
  obtain ⟨ms, hms⟩ := List.head?_eq_some_iff.mp hm
  rw [hms] at hn hk
  rcases List.mem_cons.mp hk with rfl | hk
  · exact UInt64.le_refl _
  · exact UInt64.le_of_lt ((List.pairwise_cons.mp hn).1 k hk)

/-- One call other than an expiry. -/
theorem step (h : b.Sorted) (hs : b.Sound) (hn : b.Counting)
    {seen : Nat → Prop} {now : UInt64} {call : Call} {res : Result}
    {b' : Broker} (hstep : b.Step seen now call res b')
    (ho : ∀ id l x, call = .nack id l → b.session.isSome →
      b.lease l = some x → x.msg.id = id → b.InOrder [(l, x)])
    (he : call ≠ .processExpired) : b'.Sorted := by
  cases hstep with
  | push hopen _ =>
      refine h.append fun k hk => ?_
      exact hs.below (hn hopen).1 k (.of_mem hk)
  | pop _ _ _ =>
      exact h.deliver _ _ _
  | popAny _ _ _ =>
      exact h.deliver _ _ _
  | nack hopen hx hid =>
      exact h.requeueAll (ho _ _ _ rfl hopen hx hid)
  | expire _ _ =>
      exact absurd rfl he
  | compact _ =>
      exact h.compacted
  | _ =>
      exact h

end Sorted

end Broker

section Tables

variable {v : View} {c : Content} {now : UInt64}

/-- The message of a lease in the tables and on the abstract machine. -/
theorem View.Wf.held (h : v.Wf c) {l : Lease} {x : Held}
    (hl : c.lease l.leaseId = some l)
    (hx : (v.live c).lease l.leaseId = some x) :
    x.msg.id = l.msgId ∧ ∃ m, v.mem.st.msgGet l.msgId = some m ∧
      m.queueName = x.msg.queue := by
  obtain ⟨e, he, hx⟩ := Option.bind_eq_some_iff.mp hx
  rw [hl] at he
  cases he
  obtain ⟨y, hy, rfl⟩ := Option.map_eq_some_iff.mp hx
  obtain ⟨m, hm, rfl, -⟩ := h.shows.of_msg hy
  exact ⟨h.key hy, m, hm, rfl⟩

theorem View.Wf.behind (h : v.Wf c) {l : Lease} {x : Held}
    (hl : c.lease l.leaseId = some l)
    (hx : (v.live c).lease l.leaseId = some x)
    (ho : ∀ m, v.mem.st.msgGet l.msgId = some m →
      ∀ id ∈ v.mem.st.pendingIds m.queueName, id < l.msgId)
    {k : Message} (hk : k ∈ (v.live c).queue x.msg.queue) :
    k.id < x.msg.id := by
  obtain ⟨hid, m, hm, hq⟩ := h.held hl hx
  rw [hid]
  refine ho m hm k.id ?_
  rw [hq, h.pendingIds]
  exact List.mem_map_of_mem hk

/-- Overdue leases that are in order on the code are so on the abstract
machine. -/
theorem View.Wf.inOrder (h : v.Wf c) {ls : List Lease}
    (hls : ∀ l ∈ ls, c.lease l.leaseId = some l)
    (ho : v.mem.st.InOrder (overdue now ls)) :
    (v.live c).InOrder ((v.live c).expiredOf now ls) where
  queued := by
    rintro ⟨l, x⟩ hx k hk
    obtain ⟨e, he, rfl, hlt, hx⟩ := Broker.mem_expiredOf.mp hx
    exact h.behind (hls e he) hx (ho.queued e
      (List.mem_filter.mpr ⟨he, decide_eq_true hlt⟩)) hk
  leased := by
    have hp := List.pairwise_filter.mp ho.leased
    refine List.pairwise_filterMap.mpr (hp.imp_of_mem ?_)
    intro a a' ha ha' hlt x hx y hy hq
    split at hx
    swap
    · cases hx
    split at hy
    swap
    · cases hy
    next hnow hnow' =>
    obtain ⟨z, hz, rfl⟩ := Option.map_eq_some_iff.mp hx
    obtain ⟨z', hz', rfl⟩ := Option.map_eq_some_iff.mp hy
    obtain ⟨hid, m, hm, hmq⟩ := h.held (hls a ha) hz
    obtain ⟨hid', m', hm', hmq'⟩ := h.held (hls a' ha') hz'
    dsimp only at hq ⊢
    rw [hid, hid']
    refine hlt (decide_eq_true hnow) (decide_eq_true hnow') ?_
    rw [hm, hm', Option.map_some, Option.map_some, hmq, hmq', hq]

theorem overdue_append (ls ls' : List Lease) :
    overdue now (ls ++ ls') = overdue now ls ++ overdue now ls' :=
  List.filter_append ..

theorem State.InOrder.of_append {st : State} {ls ls' : List Lease}
    (h : st.InOrder (ls ++ ls')) : st.InOrder ls where
  queued := fun l hl => h.queued l (List.mem_append_left _ hl)
  leased := (List.pairwise_append.mp h.leased).1

/-- Expiry in order keeps the queues sorted. -/
theorem View.Inv.expire_sorted (h : v.Inv c) (hn : v.Counting) {rc : Rc}
    {v' : View} (hend : ExpireEnd False now v v.mem.st.leases rc v')
    (hfit : v'.Fits) (hs : (v.live c).Sorted)
    (ho : v.mem.st.InOrder (overdue now v.mem.st.leases)) :
    ∃ c', v'.Inv c' ∧ (v'.live c').Sorted := by
  obtain ⟨hnd, hget, -⟩ := h.wf.leases
  generalize v.mem.st.leases = ls at hend hnd hget ho
  obtain ⟨ls1, ls2, rfl, rfl⟩ : ∃ ls1 ls2, ls = ls1 ++ ls2 ∧
      v' = v.expireAll now ls1 := by
    rcases hend with ⟨-, hv'⟩ | ⟨-, ls1, l, ls2, hsplit, -, hout⟩
    · exact ⟨ls, [], (List.append_nil _).symm, hv'⟩
    · refine ⟨ls1, l :: ls2, hsplit, ?_⟩
      rcases hout.inv with ⟨hres, -⟩ | ⟨-, _, _, _, _, -, hv | ⟨hF, -⟩⟩
      · rw [View.expire_result] at hres
        cases hres
      · exact hv
      · exact hF.elim
  rw [overdue_append] at ho
  rw [List.map_append] at hnd
  have hget' : ∀ l ∈ ls1, c.lease l.leaseId = some l :=
    fun l hl => hget l (List.mem_append_left _ hl)
  obtain ⟨c', hinv, -, hlive⟩ :=
    h.expireAll hn (List.nodup_append.mp hnd).1 hget' hfit
  refine ⟨c', hinv, ?_⟩
  rw [hlive]
  exact hs.requeueAll (h.wf.inOrder hget' ho.of_append)

end Tables

/-- The machine is in a state with sorted queues. -/
def Sys.Sorted (s : Sys) : Prop :=
  ∃ b, s.Shows b ∧ b.Sorted

section Runs

variable {s s' : Sys} {b : Broker} {e : Event} {res : Result}

/-- What the order of a nack says of the abstract machine. -/
theorem Sys.Shows.nack_inOrder (h : s.Shows b) (ho : s.InOrder e)
    {id l : UInt64} {x : Held} (he : e.call = .nack id l)
    (hopen : b.session.isSome) (hx : b.lease l = some x)
    (hid : x.msg.id = id) : b.InOrder [(l, x)] := by
  obtain ⟨db, hdb⟩ := Option.isSome_iff_exists.mp (h.session_isSome.mp hopen)
  obtain ⟨st, hst⟩ := h.state_isSome hdb
  have ho := ho db st hdb hst
  rw [he] at ho
  obtain ⟨v, c, hinv, rfl, rfl⟩ := h.tables hdb hst
  obtain ⟨y, hy, -⟩ := Option.bind_eq_some_iff.mp hx
  have hkey := hinv.wf.lease_key hy
  subst hkey
  have hmsg := (hinv.wf.held hy hx).1
  have hget : v.mem.st.leaseGet y.leaseId = some y := by
    rw [hinv.wf.shows.lease]
    exact hy
  have hone := ho y hget (hmsg.symm.trans hid)
  refine ⟨?_, List.pairwise_singleton _ _⟩
  intro z hz k hk
  rw [List.mem_singleton.mp hz] at hk ⊢
  exact hinv.wf.behind hy hx
    (hone.queued y (List.mem_singleton_self _)) hk

/-- An expiry that keeps the order. -/
theorem Sys.Sorted.expire (h : s.Sorted) (hn : s.Counting)
    (he : e.call = .processExpired) (ho : s.InOrder e)
    (hstep : s.step e = some (res, s')) : s'.Sorted := by
  obtain ⟨b, ⟨ph, his, hph⟩, hs⟩ := h
  obtain ⟨now, call⟩ := e
  cases he
  obtain ⟨res', t, ph', hstep', hst, his'⟩ :=
    his.step hph.wellFormed ⟨now, .processExpired⟩
  rw [hstep] at hstep'
  obtain ⟨rfl, rfl⟩ := Prod.mk.inj (Option.some.inj hstep')
  generalize hcall : Call.processExpired = call at hst
  cases hst with
  | null _ _ =>
      exact ⟨b, ⟨ph, his', hph⟩, hs⟩
  | @expire v v' rc hend hfit =>
      have hcount := Sys.Shows.counting his hn v rfl
      obtain ⟨c, hinv, rfl⟩ := hph
      obtain ⟨db, i, hdb, hlive⟩ := his
      obtain ⟨c', hinv', hs'⟩ := hinv.expire_sorted hcount hend hfit hs
        (ho db _ hdb hlive.state)
      exact ⟨_, ⟨.opened v', his', c', hinv', rfl⟩, hs'⟩
  | move hmv _ =>
      subst hcall
      cases hmv
  | _ =>
      cases hcall

/-- One call that keeps the order. -/
theorem Sys.Sorted.step {a : Act} (h : s.Sorted)
    (hs : s.OrderedReturns a s') : s'.Sorted := by
  obtain @⟨e, id, res, _, hret, ho⟩ := hs
  have hn := hret.1
  obtain ⟨-, hstep⟩ := hret.2.inv
  by_cases he : e.call = .processExpired
  · exact h.expire hn he ho hstep
  · obtain ⟨b, hb, hs⟩ := h
    obtain ⟨b', hends, hb'⟩ := hb.step hn hstep
    refine ⟨b', hb', ?_⟩
    rcases hends with ⟨-, hstep'⟩ | ⟨-, href⟩
    · exact hs.step hb.sound (hb.broker_counting hn) hstep'
        (fun id l x hc hopen hx hid => hb.nack_inOrder ho hc hopen hx hid) he
    · generalize e.call = call at href he
      cases href with
      | same _ _ =>
          exact hs
      | expire _ =>
          exact absurd rfl he

theorem Sys.Sorted.run {as : List Act}
    (hrun : Run Sys.OrderedReturns Sys.init as s) : s.Sorted :=
  hrun.invariant (P := fun _ t => t.Sorted)
    ⟨_, Sys.Shows.init, Broker.sorted_new⟩
    fun _ _ _ _ _ ht hs => ht.step hs

/-- What `qdb_pop_any` returns when a queue shows a message. -/
theorem Broker.Step.popAny_inv {seen : Nat → Prop} {now : UInt64}
    {b' : Broker} (h : b.Step seen now (.popAny true) res b')
    (hs : b.session.isSome) {n : QueueName} {m : Message}
    (hm : b.Offers seen n m) :
    ∃ n₀ m₀, b.Offers seen n₀ m₀ ∧ res = .msg (b.delivery m₀) ∧
      ∀ n' m', b.Offers seen n' m' → m₀.id ≤ m'.id := by
  cases h with
  | null hno _ =>
      rw [hno] at hs
      cases hs
  | popAnyEmpty _ hn =>
      exact absurd hm (hn n m)
  | popAny _ hm₀ hmin =>
      exact ⟨_, _, hm₀, rfl, hmin⟩
  | noent _ hcall _ =>
      rcases hcall with hc | hc <;> cases hc
  | inval _ hcall _ _ _ =>
      rcases hcall with hc | hc <;> cases hc

/-- Along runs that requeue no message behind a younger one, `qdb_pop_any`
returns the oldest message of the database. -/
theorem popAny_oldest {as : List Act}
    (hrun : Run Sys.OrderedReturns Sys.init as s) (hn : s.Counting)
    (hvis : s.Visible (.popAny true)) {db : Db} {st : State}
    (hdb : s.db = some db) (hst : db.state = some st) {n : QueueName}
    {id : UInt64} (hid : id ∈ st.pendingIds n) (now : UInt64) :
    ∃ res s', s.step ⟨now, .popAny true⟩ = some (res, s') ∧
      (res ≠ .code .errIo → ∃ q n₀, res = .msg q ∧
        q.id ∈ st.pendingIds n₀ ∧
        ∀ n' id', id' ∈ st.pendingIds n' → q.id ≤ id') := by
  obtain ⟨b, hb, hs⟩ := Sys.Sorted.run hrun
  obtain ⟨res, s', hstep⟩ := hb.progress ⟨now, .popAny true⟩
  refine ⟨res, s', hstep, fun hio => ?_⟩
  have hopen : b.session.isSome := by
    rw [hb.session_isSome, hdb]
    rfl
  obtain ⟨b', hends, -⟩ := hb.step hn hstep
  rcases hends with ⟨-, hbs⟩ | ⟨hio', -⟩
  swap
  · exact absurd hio' hio
  have hideal := hbs.ideal (fun _ => hb.visible hvis hopen)
  have hids := hb.pendingIds hdb hst
  have hhead : ∀ n' k, k ∈ b.queue n' →
      ∃ m, b.Offers (fun _ => True) n' m ∧ m.id ≤ k.id := by
    intro n' k hk
    obtain ⟨m, hm⟩ := List.isSome_head?.mpr (List.ne_nil_of_mem hk)
      |> Option.isSome_iff_exists.mp
    exact ⟨m, ⟨hm, trivial⟩, hs.head_le hm hk⟩
  rw [hids] at hid
  obtain ⟨k, hk, -⟩ := List.mem_map.mp hid
  obtain ⟨m, hm, -⟩ := hhead n k hk
  obtain ⟨n₀, m₀, hm₀, hres, hmin⟩ := hideal.popAny_inv hopen hm
  refine ⟨_, n₀, hres, ?_, ?_⟩
  · rw [hids]
    exact List.mem_map_of_mem (List.mem_of_head? hm₀.1)
  · intro n' id' hid'
    rw [hids] at hid'
    obtain ⟨k', hk', rfl⟩ := List.mem_map.mp hid'
    obtain ⟨m', hm', hle⟩ := hhead n' k' hk'
    exact UInt64.le_trans (hmin n' m' hm') hle

end Runs

/-- The acts after which a message that came back is in front of a younger
one. -/
def keptOrderActs : List Act :=
  [.call ⟨0, .openDb 0⟩ none (.code .ok),
    .call ⟨0, .push roundQueue (.buf [])⟩ (some 1) (.code .ok),
    .call ⟨0, .pop roundQueue true⟩ (some 2)
      (.msg ⟨1, 1, roundName, [], 0⟩),
    .call ⟨0, .nack 1 1⟩ (some 2) (.code .ok),
    .call ⟨0, .push roundQueue (.buf [])⟩ (some 2) (.code .ok)]

theorem exists_keptOrder : ∃ s b,
    Run Sys.OrderedReturns Sys.init keptOrderActs s ∧
      s.ShowsSmall b (5 * maxRecord) ∧ b.session.isSome ∧
      b.nextMsgId ≠ 0 ∧ b.nextLeaseId ≠ 0 ∧
      ∀ n, (b.queue n).map Message.id = if n = roundName then [1, 2] else [] := by
  obtain ⟨s₁, h1, hs₁⟩ := Sys.ShowsSmall.create
  obtain ⟨_, s₂, _, h2, hs₂, hpush⟩ := hs₁.call (by decide) (by decide)
    (by decide) (.push roundQueue (.buf [])) (fun _ => rfl)
  obtain ⟨rfl, rfl⟩ := hpush.push_inv rfl pushArg_round
  obtain ⟨_, s₃, _, h3, hs₃, hpop⟩ := hs₂.call (by decide) (by decide)
    (by decide) (.pop roundQueue true) (fun _ => rfl)
  obtain ⟨rfl, rfl⟩ := hpop.pop_inv (m := roundMessage 1 0) rfl queueArg_round
    ⟨by decide, by unfold seen32; decide⟩
  have hempty : ∀ db st, s₃.db = some db → db.state = some st →
      ∀ n, st.pendingIds n = [] := by
    intro db st hdb hst n
    rw [hs₃.shows.pendingIds hdb hst]
    by_cases hn : n = roundName
    · subst hn
      decide
    · simp [Broker.deliver, Broker.push, Broker.created, Broker.new,
        roundMessage, roundBody]
  have hnacked : s₃.InOrder ⟨0, .nack 1 1⟩ := by
    intro db st hdb hst x _ _
    refine ⟨?_, List.pairwise_singleton _ _⟩
    intro l _ m _ id hid
    rw [hempty db st hdb hst] at hid
    cases hid
  obtain ⟨_, s₄, _, h4, hs₄, hnack⟩ := hs₃.call (by decide) (by decide)
    (by decide) (.nack 1 1) (fun _ => rfl)
  obtain ⟨rfl, rfl⟩ := hnack.nack_inv (x := ⟨roundMessage 1 0, _⟩) rfl rfl rfl
    (fun _ _ hy _ => Held.single (x := ⟨roundMessage 1 0, _⟩) hy)
  obtain ⟨_, s₅, _, h5, hs₅, hpush⟩ := hs₄.call (by decide) (by decide)
    (by decide) (.push roundQueue (.buf [])) (fun _ => rfl)
  obtain ⟨rfl, rfl⟩ := hpush.push_inv rfl pushArg_round
  refine ⟨s₅, _, ((((Run.nil.snoc (.call h1 (fun _ _ _ _ => trivial))).snoc
    (.call h2 (fun _ _ _ _ => trivial))).snoc
    (.call h3 (fun _ _ _ _ => trivial))).snoc (.call h4 hnacked)).snoc
    (.call h5 (fun _ _ _ _ => trivial)), hs₅, rfl, by decide, by decide, ?_⟩
  intro n
  by_cases hn : n = roundName
  · subst hn
    decide
  · simp [Broker.requeue, Broker.deliver, Broker.push, Broker.created,
      Broker.new, roundMessage, roundBody, hn]

/-- A nack into an empty queue keeps the order, and `qdb_pop_any` returns the
older one of two messages. -/
theorem popAny_oldest_round : ∃ s s' q,
    Run Sys.OrderedReturns Sys.init keptOrderActs s ∧
      s.step ⟨0, .popAny true⟩ = some (.msg q, s') ∧ q.id = 1 := by
  obtain ⟨s, b, hrun, hs, hopen, hmsg, hlease, hqueue⟩ := exists_keptOrder
  obtain ⟨res, s₁, _, h1, -, hpop⟩ := hs.call (by decide) hmsg hlease
    (.popAny true) (fun _ => rfl)
  have hshow := hs.shows
  obtain ⟨db, hdb⟩ := Option.isSome_iff_exists.mp
    (hshow.session_isSome.mp hopen)
  obtain ⟨st, hst⟩ := hshow.state_isSome hdb
  have htwo : ∀ n, st.pendingIds n = if n = roundName then [1, 2] else [] :=
    fun n => (hshow.pendingIds hdb hst n).trans (hqueue n)
  have hvis : s.Visible (.popAny true) := by
    intro db' st' hdb' hst' n _
    rw [hdb] at hdb'
    cases hdb'
    cases hst.symm.trans hst'
    rintro ⟨hne, hdvd⟩
    rw [htwo] at hne hdvd
    split at hne
    · next hn =>
      rw [if_pos hn] at hdvd
      exact absurd (Nat.le_of_dvd Nat.two_pos hdvd) (by decide)
    · exact hne rfl
  have hin : 1 ∈ st.pendingIds roundName := by
    rw [htwo, if_pos rfl]
    exact List.mem_cons_self
  obtain ⟨res', s', hstep, hall⟩ :=
    popAny_oldest hrun h1.1 hvis hdb hst hin 0
  obtain ⟨-, hstep'⟩ := h1.2.inv
  rw [hstep] at hstep'
  obtain ⟨rfl, rfl⟩ := Prod.mk.inj (Option.some.inj hstep')
  obtain ⟨q, n₀, rfl, hq, hleast⟩ := hall hpop.ne_io
  refine ⟨s, s', q, hrun, hstep, ?_⟩
  have hle : q.id ≤ 1 := hleast roundName 1 hin
  rw [htwo] at hq
  split at hq
  · rcases List.mem_pair.mp hq with hid | hid
    · exact hid
    · rw [hid] at hle
      exact absurd hle (by decide)
  · cases hq

/-- The acts that put the first message behind the second. -/
def requeuedActs : List Act :=
  [.call ⟨0, .openDb 0⟩ none (.code .ok),
    .call ⟨0, .push roundQueue (.buf [])⟩ (some 1) (.code .ok),
    .call ⟨0, .push roundQueue (.buf [])⟩ (some 2) (.code .ok),
    .call ⟨0, .pop roundQueue true⟩ (some 3)
      (.msg ⟨1, 1, roundName, [], 0⟩),
    .call ⟨0, .nack 1 1⟩ (some 3) (.code .ok)]

/-- After a nack `qdb_pop_any` returns a younger message first. -/
theorem popAny_younger : ∃ s s' db st q,
    Run Sys.CountedReturns Sys.init requeuedActs s ∧
      s.db = some db ∧ db.state = some st ∧ 1 ∈ st.pendingIds roundName ∧
      s.step ⟨0, .popAny true⟩ = some (.msg q, s') ∧ q.id = 2 := by
  obtain ⟨s₁, h1, hs₁⟩ := Sys.ShowsSmall.create
  obtain ⟨_, s₂, _, h2, hs₂, hpush⟩ := hs₁.call (by decide) (by decide)
    (by decide) (.push roundQueue (.buf [])) (fun _ => rfl)
  obtain ⟨rfl, rfl⟩ := hpush.push_inv rfl pushArg_round
  obtain ⟨_, s₃, _, h3, hs₃, hpush⟩ := hs₂.call (by decide) (by decide)
    (by decide) (.push roundQueue (.buf [])) (fun _ => rfl)
  obtain ⟨rfl, rfl⟩ := hpush.push_inv rfl pushArg_round
  obtain ⟨_, s₄, _, h4, hs₄, hpop⟩ := hs₃.call (by decide) (by decide)
    (by decide) (.pop roundQueue true) (fun _ => rfl)
  obtain ⟨rfl, rfl⟩ := hpop.pop_inv (m := roundMessage 1 0) rfl queueArg_round
    ⟨by decide, by unfold seen32; decide⟩
  obtain ⟨_, s₅, _, h5, hs₅, hnack⟩ := hs₄.call (by decide) (by decide)
    (by decide) (.nack 1 1) (fun _ => rfl)
  obtain ⟨rfl, rfl⟩ := hnack.nack_inv (x := ⟨roundMessage 1 0, _⟩) rfl rfl rfl
    (fun _ _ hy _ => Held.single (x := ⟨roundMessage 1 0, _⟩) hy)
  obtain ⟨_, s₆, _, h6, -, hpop⟩ := hs₅.call (by decide) (by decide)
    (by decide) (.popAny true) (fun _ => rfl)
  have hshow := hs₅.shows
  obtain ⟨db, hdb⟩ := Option.isSome_iff_exists.mp
    (hshow.session_isSome.mp rfl)
  obtain ⟨st, hst⟩ := hshow.state_isSome hdb
  obtain ⟨n, m, hm, rfl, -⟩ := hpop.popAny_inv rfl (n := roundName)
    (m := roundMessage 2 0) ⟨by decide, by unfold seen32; decide⟩
  refine ⟨s₅, s₆, db, st, _, ((((Run.nil.snoc h1).snoc h2).snoc h3).snoc
    h4).snoc h5, hdb, hst, ?_, h6.2.inv.2, ?_⟩
  · rw [hshow.pendingIds hdb hst]
    decide
  · by_cases hn : n = roundName
    · subst hn
      have hhead : some m = some (roundMessage 2 0) :=
        hm.1.symm.trans (by decide)
      cases hhead
      rfl
    · have hnil := hm.1
      simp [Broker.requeue, Broker.deliver, Broker.push, Broker.created,
        Broker.new, roundMessage, roundBody, hn] at hnil

end Qdb
