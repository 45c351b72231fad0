import Qdb.Retries

/-!
# Queues are lists

As long as the counters are exact, the tables and linked lists of a handle
behave as lists of messages: every call returns what the abstract machine
returns in which a pop sees every message.  First deliveries from a queue are in
the order of the pushes.
-/

namespace Qdb

open Lib

/-- A call of the intended machine: a pop finds a list empty only if it is, and
the number of expired leases is exact. -/
inductive Broker.Ideal (b : Broker) : Act → Broker → Prop
  | call {e : Event} {res : Result} {b' : Broker} (hc : e.call ≠ .compact)
      (h : b.Step (fun _ => True) e.now e.call res b')
      (hn : ∀ n ls, res = .count n → b.Expired e.now ls →
        n.toInt = ls.length) :
      Ideal b (.call e (b.session.map fun _ => b.nextMsgId) res) b'

theorem Broker.Ideal.inv {b b' : Broker} {e : Event} {a : UInt64}
    {res : Result} (h : b.Ideal (.call e (some a) res) b') :
    b.session.isSome ∧ b.Step (fun _ => True) e.now e.call res b' := by
  generalize hact : Act.call e (some a) res = act at h
  cases h with
  | call _ hstep _ =>
      injection hact with h1 h2 h3
      subst h1 h3
      cases hs : b.session with
      | none =>
          rw [hs] at h2
          cases h2
      | some t =>
          exact ⟨rfl, hstep⟩

/-- The pending list of the queue has messages, but its 32-bit counter is
zero. -/
def State.Hides (st : State) (n : QueueName) : Prop :=
  st.pendingIds n ≠ [] ∧ 2 ^ 32 ∣ (st.pendingIds n).length

/-- The head of the queue has the smallest id of all heads. -/
def State.Oldest (st : State) (n : QueueName) : Prop :=
  ∃ id, (st.pendingIds n).head? = some id ∧
    ∀ n' id', (st.pendingIds n').head? = some id' → id ≤ id'

/-- The queue that the call takes a message from is not hidden by its
counter. -/
def Sys.Visible (s : Sys) (call : Call) : Prop :=
  ∀ db st, s.db = some db → db.state = some st →
    match call with
    | .pop queue _ => ∀ n, queueArg queue = some n → ¬ st.Hides n
    | .popAny _ => ∀ n, st.Oldest n → ¬ st.Hides n
    | _ => True

/-- The call is not a compaction and not refused by the machine. -/
def Act.Plain : Act → Prop
  | .call e _ res => e.call ≠ .compact ∧ res ≠ .code .errIo
  | .crash _ => False

/-- Fewer leases have expired than an `int` can count. -/
def Sys.Countable (s : Sys) (e : Event) : Prop :=
  e.call = .processExpired → ∀ db st, s.db = some db → db.state = some st →
    expiredCount e.now st.leases < 2 ^ 31

/-- The call of an act finds its queue, and its count fits into an `int`. -/
def Sys.Finds (s : Sys) : Act → Prop
  | .call e _ _ => s.Visible e.call ∧ s.Countable e
  | .crash _ => False

/-- The same before the id counters have wrapped. -/
def Sys.CountedPlain (s : Sys) (a : Act) (s' : Sys) : Prop :=
  s.CountedReturns a s' ∧ a.Plain ∧ s.Finds a

/-- What `Sys.Visible` says of the abstract machine. -/
def Broker.Visible (b : Broker) : Call → Prop
  | .pop queue _ => ∀ n, queueArg queue = some n → b.queue n ≠ [] →
      seen32 (b.queue n).length
  | .popAny _ => ∀ n m, (b.queue n).head? = some m →
      (∀ n' m', (b.queue n').head? = some m' → m.id ≤ m'.id) →
      seen32 (b.queue n).length
  | _ => True

theorem View.Wf.pendingIds {v : View} {c : Content} (h : v.Wf c)
    (n : QueueName) :
    v.mem.st.pendingIds n = ((v.live c).queue n).map Message.id := by
  rw [h.shows.rep.pendingIds_eq n]
  obtain ⟨xs, h1, h2, -⟩ := h.queue_eq (o := some v.leaseTimeoutUs) n
  change c.pend n =
    ((v.broker c (some v.leaseTimeoutUs)).queue n).map Message.id
  rw [h1, List.map_map, ← h2]
  rfl

theorem Sys.Shows.pendingIds {s : Sys} {b : Broker} (h : s.Shows b) {db : Db}
    {st : State} (hdb : s.db = some db) (hst : db.state = some st)
    (n : QueueName) : st.pendingIds n = (b.queue n).map Message.id := by
  obtain ⟨v, c, hinv, rfl, rfl⟩ := h.tables hdb hst
  exact hinv.wf.pendingIds n

theorem Sys.Shows.state_isSome {s : Sys} {b : Broker} (h : s.Shows b) {db : Db}
    (hdb : s.db = some db) : ∃ st, db.state = some st := by
  have hbroker := h.broker_eq hdb
  rw [Sys.broker, hdb, Option.bind_some] at hbroker
  obtain ⟨st, hst, -⟩ := Option.map_eq_some_iff.mp hbroker
  exact ⟨st, hst⟩

theorem Sys.Shows.visible {s : Sys} {b : Broker} {call : Call} (h : s.Shows b)
    (hs : s.Visible call) (hopen : b.session.isSome) : b.Visible call := by
  obtain ⟨db, hdb⟩ := Option.isSome_iff_exists.mp (h.session_isSome.mp hopen)
  obtain ⟨st, hst⟩ := h.state_isSome hdb
  have hids := h.pendingIds hdb hst
  have hvis := hs db st hdb hst
  have hseen : ∀ n, ¬ st.Hides n → b.queue n ≠ [] →
      seen32 (b.queue n).length := by
    intro n hno hne h0
    refine hno ⟨?_, ?_⟩
    · rw [hids]
      simpa using hne
    · rw [hids, List.length_map]
      exact Nat.dvd_of_mod_eq_zero h0
  cases call with
  | pop queue out =>
      intro n harg hne
      exact hseen n (hvis n harg) hne
  | popAny out =>
      intro n m hm hmin
      have hold : st.Oldest n := by
        refine ⟨m.id, ?_, ?_⟩
        · rw [hids, List.head?_map, hm]
          rfl
        · intro n' id' hid'
          rw [hids, List.head?_map] at hid'
          obtain ⟨m', hm', rfl⟩ := Option.map_eq_some_iff.mp hid'
          exact hmin n' m' hm'
      refine hseen n (hvis n hold) ?_
      intro hnil
      rw [hnil] at hm
      cases hm
  | _ =>
      trivial

/-- Among all heads there is a smallest one. -/
theorem Broker.exists_oldest {b : Broker} {n : QueueName} {m : Message}
    (hm : (b.queue n).head? = some m) :
    ∃ n₀ m₀, (b.queue n₀).head? = some m₀ ∧
      ∀ n' m', (b.queue n').head? = some m' → m₀.id ≤ m'.id := by
  obtain ⟨k, ⟨n₀, m₀, hm₀, hk⟩, hmin⟩ := WellFounded.has_min
    (measure UInt64.toNat).wf
    {k | ∃ n m, (b.queue n).head? = some m ∧ m.id = k} ⟨_, n, m, hm, rfl⟩
  refine ⟨n₀, m₀, hm₀, ?_⟩
  intro n' m' hm'
  have hno := hmin m'.id ⟨n', m', hm', rfl⟩
  rw [hk]
  exact UInt64.le_iff_toNat_le.mpr (Nat.not_lt.mp hno)

/-- A call that finds its queue is one of the intended machine. -/
theorem Broker.Step.ideal {b b' : Broker} {now : UInt64} {call : Call}
    {res : Result} (h : b.Step seen32 now call res b')
    (hb : b.session.isSome → b.Visible call) :
    b.Step (fun _ => True) now call res b' := by
  cases h with
  | null hs hcall =>
      exact .null hs hcall
  | openDb t hs =>
      exact .openDb t hs
  | openLocked t hs =>
      exact .openLocked t hs
  | close hs =>
      exact .close hs
  | pushInval hs harg =>
      exact .pushInval hs harg
  | push hs harg =>
      exact .push hs harg
  | popInval hs harg =>
      exact .popInval hs harg
  | popEmpty hs harg hn =>
      refine .popEmpty hs harg (fun m hm => hn m ⟨hm.1, hb hs _ harg ?_⟩)
      intro hnil
      have hm := hm.1
      rw [hnil] at hm
      cases hm
  | pop hs harg hm =>
      exact .pop hs harg ⟨hm.1, trivial⟩
  | popAnyInval hs =>
      exact .popAnyInval hs
  | popAnyEmpty hs hn =>
      refine .popAnyEmpty hs (fun n m hm => ?_)
      obtain ⟨n₀, m₀, hm₀, hmin⟩ := exists_oldest hm.1
      exact hn n₀ m₀ ⟨hm₀, hb hs n₀ m₀ hm₀ hmin⟩
  | popAny hs hm hmin =>
      refine .popAny hs ⟨hm.1, trivial⟩ ?_
      intro n' m' hm'
      obtain ⟨n₀, m₀, hm₀, hmin₀⟩ := exists_oldest hm'.1
      have hseen := hb (by rw [hs]; rfl) n₀ m₀ hm₀ hmin₀
      exact UInt64.le_trans (hmin n₀ m₀ ⟨hm₀, hseen⟩) (hmin₀ n' m' hm'.1)
  | noent hs hcall hn =>
      exact .noent hs hcall hn
  | inval hs hcall hx hid hl =>
      exact .inval hs hcall hx hid hl
  | ack hs hx hid =>
      exact .ack hs hx hid
  | nack hs hx hid =>
      exact .nack hs hx hid
  | expire hs hls =>
      exact .expire hs hls
  | compact hs =>
      exact .compact hs

/-- The abstract machine and the tables have the same number of expired
leases. -/
theorem Sys.Shows.expired_length {s : Sys} {b : Broker} {now : UInt64}
    {ls : List (UInt64 × Held)} (h : s.Shows b) {db : Db} {st : State}
    (hdb : s.db = some db) (hst : db.state = some st)
    (hls : b.Expired now ls) : ls.length = expiredCount now st.leases := by
  obtain ⟨v, c, hinv, rfl, rfl⟩ := h.tables hdb hst
  obtain ⟨hexp, hlen⟩ := hinv.wf.expired now
  rw [← hlen]
  apply List.Perm.length_eq
  rw [List.perm_ext_iff_of_nodup hls.nodup.of_map hexp.nodup.of_map]
  rintro ⟨l, x⟩
  rw [hls.mem, hexp.mem]

/-- The count of a call that counts exactly. -/
theorem Sys.Shows.count_eq {s : Sys} {b b' : Broker} {e : Event} {n : Int32}
    {ls : List (UInt64 × Held)} (h : s.Shows b) (hcount : s.Countable e)
    (hstep : b.Step seen32 e.now e.call (.count n) b')
    (hls : b.Expired e.now ls) : n.toInt = ls.length := by
  obtain ⟨now, call⟩ := e
  generalize hres : Result.count n = res at hstep
  cases hstep with
  | null _ _ =>
      cases call <;> cases hres
  | @expire ls' hopen hls' =>
      cases hres
      obtain ⟨db, hdb⟩ := Option.isSome_iff_exists.mp (h.session_isSome.mp hopen)
      obtain ⟨st, hst⟩ := h.state_isSome hdb
      have hlen := h.expired_length hdb hst hls
      have hlen' := h.expired_length hdb hst hls'
      have hlt := hcount rfl db st hdb hst
      rw [hlen', hlen]
      exact Int32.toInt_ofNat_of_lt hlt
  | _ =>
      cases hres

theorem Sys.Shows.ideal {s s' : Sys} {b : Broker} {a : Act} (h : s.Shows b)
    (hs : s.CountedPlain a s') : ∃ b', b.Ideal a b' ∧ s'.Shows b' := by
  obtain ⟨hret, hplain, hfinds⟩ := hs
  obtain ⟨b', hr, hb'⟩ := h.returns hret
  refine ⟨b', ?_, hb'⟩
  obtain ⟨-, hends⟩ := hr
  rcases hends with ⟨-, hstep⟩ | ⟨hio, -⟩
  · refine .call hplain.1 (hstep.ideal (h.visible hfinds.1)) ?_
    rintro n ls rfl hls
    exact h.count_eq hfinds.2 hstep hls
  · exact absurd hio hplain.2

/-- The message has not been delivered in the run. -/
def Unpopped (as : List Act) (id : UInt64) : Prop :=
  ∀ p ∈ pops as, p.id ≠ id

theorem not_unpopped {as : List Act} {id : UInt64} :
    ¬ Unpopped as id ↔ ∃ p ∈ pops as, p.id = id := by
  simp [Unpopped]

theorem Unpopped.of_snoc {as : List Act} {a : Act} {id : UInt64}
    (h : Unpopped (as ++ [a]) id) : Unpopped as id := by
  intro p hp
  refine h p ?_
  rw [pops, List.filterMap_append]
  exact List.mem_append_left _ hp

theorem popped_snoc {as : List Act} {a : Act} {id : UInt64}
    (h : ∃ p ∈ pops as, p.id = id) : ∃ p ∈ pops (as ++ [a]), p.id = id := by
  obtain ⟨p, hp, hid⟩ := h
  refine ⟨p, ?_, hid⟩
  rw [pops, List.filterMap_append]
  exact List.mem_append_left _ hp

/-- What a run says about the order of the queues at its end. -/
structure Ordered (as : List Act) (b : Broker) : Prop where
  leased : ∀ l x, b.lease l = some x → ∃ p ∈ pops as, p.id = x.msg.id
  acked : ∀ id ∈ ackedIds as, ∃ p ∈ pops as, p.id = id
  order : ∀ n, (b.queue n).Pairwise fun m m' =>
    Unpopped as m.id → Unpopped as m'.id → m.id < m'.id

namespace Ordered

variable {as : List Act} {a : Act} {b b' : Broker}

theorem nil : Ordered [] Broker.new := by
  refine ⟨?_, by simp [ackedIds], ?_⟩
  · intro l x hx
    cases hx
  · intro n
    exact List.Pairwise.nil

/-- What is acknowledged was under a lease. -/
theorem ack_leased (h : b.Effect a b') {id : UInt64}
    (hack : a.ackedId = some id) : ∃ l x, b.lease l = some x ∧ x.msg.id = id := by
  cases h with
  | same ha _ _ _ =>
      rw [ha.ackedId] at hack
      cases hack
  | push _ _ hnone _ =>
      rw [hnone] at hack
      cases hack
  | deliver _ _ hnone _ _ =>
      rw [hnone] at hack
      cases hack
  | drop ha _ _ hx =>
      rw [ha] at hack
      cases hack
      exact ⟨_, _, hx, rfl⟩
  | requeue ha _ _ _ =>
      rw [ha.ackedId] at hack
      cases hack
  | compact ha _ =>
      rw [ha.ackedId] at hack
      cases hack

theorem order_step (h : Ordered as b) (hs : b.Sound) (he : b.Effect a b')
    (n : QueueName) : (b'.queue n).Pairwise fun m m' =>
      Unpopped (as ++ [a]) m.id → Unpopped (as ++ [a]) m'.id →
        m.id < m'.id := by
  have hold : (b.queue n).Pairwise fun m m' =>
      Unpopped (as ++ [a]) m.id → Unpopped (as ++ [a]) m'.id →
        m.id < m'.id :=
    (h.order n).imp fun hlt h1 h2 => hlt h1.of_snoc h2.of_snoc
  cases he with
  | same _ _ hq _ =>
      rw [hq]
      exact hold
  | @push _ body _ _ _ hn =>
      by_cases hname : n = body.name
      · subst hname
        simp only [Broker.push, Function.update_self]
        rw [List.pairwise_append]
        refine ⟨hold, List.pairwise_singleton _ _, ?_⟩
        intro m hm m' hm' _ _
        rw [List.mem_singleton.mp hm']
        exact hs.below hn m (.of_mem hm)
      · simp only [Broker.push, Function.update_of_ne hname]
        exact hold
  | @deliver _ n' m e _ _ _ _ hm =>
      by_cases hname : n = n'
      · subst hname
        simp only [Broker.deliver, Function.update_self]
        exact hold.sublist (List.tail_sublist _)
      · simp only [Broker.deliver, Function.update_of_ne hname]
        exact hold
  | drop _ _ _ _ =>
      exact hold
  | @requeue _ ls _ _ _ hls =>
      rw [Broker.requeueAll_queue, List.pairwise_append]
      have hback : ∀ m ∈ ((ls.filter fun x => x.2.msg.queue = n).map
          fun x => x.2.msg.retried), ¬ Unpopped (as ++ [a]) m.id := by
        intro m hm hun
        obtain ⟨⟨l, x⟩, hx, rfl⟩ := List.mem_map.mp hm
        exact not_unpopped.mpr (h.leased l x (hls _ _ (List.mem_filter.mp hx).1))
          hun.of_snoc
      refine ⟨hold, ?_, ?_⟩
      · refine List.Pairwise.imp_of_mem ?_
          (List.pairwise_of_forall (fun _ _ => trivial))
        intro m m' hm _ _ hun
        exact absurd hun (hback m hm)
      · intro m _ m' hm' _ hun
        exact absurd hun (hback m' hm')
  | compact _ _ =>
      change ((b.queue n).map Message.fresh).Pairwise _
      rw [List.pairwise_map]
      exact hold

theorem step (h : Ordered as b) (hs : b.Sound) (he : b.Effect a b') :
    Ordered (as ++ [a]) b' := by
  refine ⟨?_, ?_, h.order_step hs he⟩
  · intro l x hx
    cases he with
    | same _ _ _ hl =>
        rw [hl] at hx
        exact popped_snoc (h.leased l x hx)
    | push _ _ _ _ =>
        exact popped_snoc (h.leased l x hx)
    | @deliver _ n m e ha _ _ _ _ =>
        by_cases hl : l = b.nextLeaseId
        · subst hl
          simp only [Broker.deliver, Function.update_self,
            Option.some.injEq] at hx
          refine ⟨b.delivery m, ?_, by rw [← hx]; rfl⟩
          rw [pops, List.filterMap_append]
          refine List.mem_append_right _ ?_
          simp [ha]
        · simp only [Broker.deliver, Function.update_of_ne hl] at hx
          exact popped_snoc (h.leased l x hx)
    | @drop _ l' y _ _ _ _ =>
        by_cases hl : l = l'
        · subst hl
          simp [Broker.drop] at hx
        · simp only [Broker.drop, Function.update_of_ne hl] at hx
          exact popped_snoc (h.leased l x hx)
    | requeue _ _ _ _ =>
        rw [Broker.requeueAll_lease] at hx
        split at hx
        · cases hx
        · exact popped_snoc (h.leased l x hx)
    | compact _ _ =>
        obtain ⟨y, hy, rfl⟩ := Option.map_eq_some_iff.mp hx
        exact popped_snoc (h.leased l y hy)
  · intro id hid
    rcases Hist.mem_acked.mp hid with hid | hid
    · exact popped_snoc (h.acked id hid)
    · obtain ⟨l, x, hx, rfl⟩ := ack_leased he hid
      exact popped_snoc (h.leased l x hx)

end Ordered

/-- What is delivered was in a queue and is under a lease afterwards. -/
theorem Broker.Effect.popped {b b' : Broker} {a : Act} {p : QMsg}
    (h : b.Effect a b') (hp : a.popped = some p) :
    (∃ m, b.Has m ∧ m.id = p.id) ∧
      ∃ l x, b'.lease l = some x ∧ x.msg.id = p.id := by
  cases h with
  | same ha _ _ _ =>
      rw [ha.popped] at hp
      cases hp
  | push _ hnone _ _ =>
      rw [hnone] at hp
      cases hp
  | @deliver _ n m e ha _ _ _ hm =>
      rw [ha] at hp
      cases hp
      exact ⟨⟨m, .of_mem (List.mem_of_head? hm), rfl⟩, b.nextLeaseId, ⟨m, e⟩,
        Function.update_self _ _ _, rfl⟩
  | drop _ _ hnone _ =>
      rw [hnone] at hp
      cases hp
  | requeue ha _ _ _ =>
      rw [ha.popped] at hp
      cases hp
  | compact ha _ =>
      rw [ha.popped] at hp
      cases hp

/-- What a run without compactions says about the messages in the queues at its
end. -/
structure Queued (xs : List (Transition Sys Act)) (s : Sys) (b : Broker) :
    Prop where
  recounts : Sys.Recounts (xs.map Transition.act) s b
  ordered : Ordered (xs.map Transition.act) b
  popped : ∀ p ∈ pops (xs.map Transition.act),
    p.id ∈ pushedIds (xs.map Transition.act)
  back : ∀ n, ∀ m ∈ b.queue n,
    Unpopped (xs.map Transition.act) m.id ∨ ∃ x ∈ xs, Returned m.id x

namespace Queued

variable {xs : List (Transition Sys Act)} {x : Transition Sys Act} {s s' : Sys}
variable {b : Broker}

theorem init : Queued [] Sys.init Broker.new := by
  refine ⟨.init, .nil, ?_, ?_⟩
  · intro p hp
    cases hp
  · intro n m hm
    cases hm

theorem mem_pops {as : List Act} {a : Act} {p : QMsg} :
    p ∈ pops (as ++ [a]) ↔ p ∈ pops as ∨ a.popped = some p := by
  simp [pops, List.filterMap_append, List.mem_filterMap]

theorem step (h : Queued xs s b) (hs : Traced Sys.CountedPlain s x s') :
    ∃ b', Queued (xs ++ [x]) s' b' := by
  obtain ⟨s₀, a, s₁⟩ := x
  obtain ⟨h0, h1, hs⟩ := hs
  change s₀ = s at h0
  change s₁ = s' at h1
  subst h0 h1
  have hplain : a.Plain := hs.2.1
  have hs : s₀.CountedReturns a s₁ := hs.1
  obtain ⟨b', hr, hb'⟩ := h.recounts.returns hs
  have hsound := h.recounts.shows.sound
  have hpushed : ∀ m, b.Has m → m.id ∈ pushedIds (xs.map Transition.act) := by
    intro m hm
    have hmem : m.fresh.id ∈ pushedIds (xs.map Transition.act) :=
      mem_pushedIds (h.recounts.hist.pushed m hm)
    exact hmem
  refine ⟨b', ?_, ?_, ?_, ?_⟩
  · rw [List.map_append]
    exact hb'
  · rw [List.map_append]
    exact h.ordered.step hsound hr.effect
  · intro p hp
    rw [List.map_append] at hp ⊢
    refine Hist.mem_pushedIds_snoc.mpr (Or.inl ?_)
    rcases mem_pops.mp hp with hp | hp
    · exact h.popped p hp
    · obtain ⟨⟨m, hm, hid⟩, -⟩ := hr.effect.popped hp
      rw [← hid]
      exact hpushed m hm
  · intro n m hm
    rw [List.map_append]
    have hun : Unpopped (xs.map Transition.act) m.id →
        Unpopped (xs.map Transition.act ++ [a]) m.id := by
      intro hun p hp
      rcases mem_pops.mp hp with hp | hp
      · exact hun p hp
      · obtain ⟨-, l, x, hx, hid⟩ := hr.effect.popped hp
        rw [← hid]
        exact (hb'.shows.sound.held n m hm l x hx).symm
    cases hr.effect.origin hsound (.of_mem hm) with
    | kept hk _ _ hl =>
        rcases hk with ⟨n', hk⟩ | ⟨l, e, hk⟩
        · rcases h.back n' m hk with hb | ⟨x, hx, hret⟩
          · exact Or.inl (hun hb)
          · exact Or.inr ⟨x, List.mem_append_left _ hx, hret⟩
        · exact absurd rfl (hb'.shows.sound.held n m hm l _ (hl l _ hk rfl))
    | retried k l e hl heq hl' ha _ =>
        right
        refine ⟨_, List.mem_append_right _ (List.mem_singleton.mpr rfl), ?_⟩
        rw [heq]
        change Returned k.id ⟨s₀, a, s₁⟩
        rw [h.recounts.shows.returned_iff hb'.shows hs hr]
        refine ⟨⟨l, ?_, ?_⟩, ha.ackedId⟩
        · rw [Broker.leaseMsg, hl]
          rfl
        · rw [Broker.leaseMsg, hl']
          rfl
    | compacted k hk heq _ hc =>
        cases a with
        | crash e =>
            exact hc.elim
        | call e i res =>
            exact absurd hc.1 hplain.1
    | pushed hp hn hid _ _ =>
        refine Or.inl (hun ?_)
        intro p hpp heq
        have hlt := (h.recounts.msgs.below _ (h.popped p hpp)).2 hn
        rw [heq, hid] at hlt
        exact UInt64.lt_irrefl _ hlt

theorem run (hrun : Run (Traced Sys.CountedPlain) Sys.init xs s) :
    ∃ b, Queued xs s b := by
  refine hrun.invariant (P := fun xs s => ∃ b, Queued xs s b) ⟨_, init⟩ ?_
  rintro xs s x s' - ⟨b, hb⟩ hs
  exact hb.step hs

end Queued

section Exhaustion

/-- The id counters are not above the number of records. -/
structure Mem.Within (mem : Mem) (k : Nat) : Prop where
  msg : mem.nextMsgId ≠ 0 ∧ mem.nextMsgId.toNat ≤ k + 1
  lease : mem.nextLeaseId ≠ 0 ∧ mem.nextLeaseId.toNat ≤ k + 1

theorem Mem.Within.mono {mem : Mem} {k k' : Nat} (h : mem.Within k)
    (hk : k ≤ k') : mem.Within k' :=
  ⟨⟨h.msg.1, le_trans h.msg.2 (by omega)⟩,
    ⟨h.lease.1, le_trans h.lease.2 (by omega)⟩⟩

/-- The same of the handle, or of the handle that will be opened. -/
def Phase.Within : Phase → Prop
  | .absent => True
  | .broken => False
  | .closed d => ∀ mem, d.replay = some mem → mem.Within d.rs.length
  | .opened v => v.mem.Within v.rs.length

theorem counter_succ {n : UInt64} {k : Nat} (hn : n.toNat ≤ k + 1)
    (hk : k ≤ 2 ^ 63) : n + 1 ≠ 0 ∧ (n + 1).toNat ≤ k + 1 + 1 := by
  have hlt : (n + 1).toNat = n.toNat + 1 := by
    rw [UInt64.toNat_add]
    change (n.toNat + 1) % 2 ^ 64 = _
    omega
  refine ⟨?_, by omega⟩
  intro h0
  rw [h0] at hlt
  change 0 = _ at hlt
  omega

theorem View.expireAll_counters (now : UInt64) (ls : List Lease) (v : View) :
    (v.expireAll now ls).mem.nextMsgId = v.mem.nextMsgId ∧
      (v.expireAll now ls).mem.nextLeaseId = v.mem.nextLeaseId := by
  induction ls generalizing v with
  | nil =>
      exact ⟨rfl, rfl⟩
  | cons l ls ih =>
      have hone : (v.expireStep now l).mem.nextMsgId = v.mem.nextMsgId ∧
          (v.expireStep now l).mem.nextLeaseId = v.mem.nextLeaseId := by
        unfold View.expireStep View.expire
        split
        · split
          · exact ⟨rfl, rfl⟩
          · split <;> exact ⟨rfl, rfl⟩
        · exact ⟨rfl, rfl⟩
      rw [View.expireAll_cons]
      exact ⟨(ih _).1.trans hone.1, (ih _).2.trans hone.2⟩

theorem View.Fits.length_le {v : View} (h : v.Fits) :
    v.rs.length ≤ 2 ^ 63 := by
  have := maxFileSize_eq
  have := length_le_encodeLog v.rs
  rcases h with h | h
  · rw [h]
    simp
  · omega

variable {now : UInt64} {call : Call} {res : Result} {ph ph' : Phase}
variable {b : Broker}

/-- Without compactions every id has its record in the log, so no counter can
wrap before the file is full. -/
theorem Phase.Step.within (h : Phase.Step now ph call res ph')
    (hshow : ph.Shows b) (hfit : ∀ v, ph = .opened v → v.Fits)
    (hw : ph.Within) (hc : call ≠ .compact) : ph'.Within := by
  cases h with
  | null _ _ =>
      exact hw
  | create t =>
      change (Mem.start 1).Within 0
      exact ⟨⟨by decide, by decide⟩, ⟨by decide, by decide⟩⟩
  | openBroken t =>
      exact hw
  | openDb t hrep =>
      exact hw _ hrep
  | openCorrupt t hrep =>
      exact hw
  | openLocked t =>
      exact hw
  | @close v =>
      obtain ⟨c, hinv, -⟩ := hshow
      intro mem hmem
      have heq : some mem = some v.mem := hmem.symm.trans hinv.stable
      cases heq
      exact hw
  | @move v v' call mv res hmv ho =>
      obtain ⟨c, hinv, -⟩ := hshow
      have hlen := (hfit v rfl).length_le
      cases ho with
      | refuse =>
          exact hw
      | io _ =>
          exact hw
      | half hF =>
          exact hF.elim
      | @full r half full res hfit' =>
          have hrs : (v.log r full).rs.length = v.rs.length + 1 := by
            change (v.rs ++ [r]).length = _
            simp
          change full.Within (v.log r full).rs.length
          rw [hrs]
          cases hinv.wf.logs hmv with
          | push _ =>
              exact ⟨counter_succ hw.msg.2 hlen, (hw.mono (by omega)).lease⟩
          | deliver _ _ _ _ _ _ _ =>
              exact ⟨(hw.mono (by omega)).msg, counter_succ hw.lease.2 hlen⟩
          | ack _ _ _ =>
              exact ⟨(hw.mono (by omega)).msg, (hw.mono (by omega)).lease⟩
          | nack _ _ _ =>
              exact ⟨(hw.mono (by omega)).msg, (hw.mono (by omega)).lease⟩
  | @expire v v' rc he _ =>
      obtain ⟨ls, rfl⟩ : ∃ ls, v' = v.expireAll now ls := by
        rcases he with ⟨-, heq⟩ | ⟨-, ls1, l, ls2, -, -, ho⟩
        · exact ⟨_, heq⟩
        · rcases ho.inv with ⟨hres, -⟩ | ⟨-, _, _, _, _, -, heq | ⟨hF, -⟩⟩
          · rw [View.expire_result] at hres
            cases hres
          · exact ⟨ls1, heq⟩
          · exact hF.elim
      obtain ⟨h1, h2⟩ := v.expireAll_counters now ls
      obtain ⟨-, -, -, -, hrs⟩ := v.expireAll_fields now ls
      have hw : v.mem.Within v.rs.length := hw
      have hw' := hw.mono hrs.length_le
      change (v.expireAll now ls).mem.Within (v.expireAll now ls).rs.length
      refine ⟨?_, ?_⟩
      · rw [h1]
        exact hw'.msg
      · rw [h2]
        exact hw'.lease
  | compact _ _ =>
      exact absurd rfl hc
  | compactIo _ =>
      exact hw

/-- A machine whose counters cannot have wrapped. -/
def Sys.Within (s : Sys) : Prop :=
  ∃ ph b, s.Is ph ∧ ph.Shows b ∧ ph.Within

theorem Sys.Within.init : Sys.init.Within :=
  ⟨.absent, Broker.new, ⟨rfl, rfl, rfl, rfl⟩, rfl, trivial⟩

theorem Sys.Within.counting {s : Sys} (h : s.Within) : s.Counting := by
  obtain ⟨ph, b, his, -, hw⟩ := h
  intro db hdb
  cases ph with
  | absent =>
      rw [his.1] at hdb
      cases hdb
  | broken =>
      exact hw.elim
  | closed d =>
      rw [his.1] at hdb
      cases hdb
  | opened v =>
      obtain ⟨db', i, hdb', hlive⟩ := his
      rw [hdb] at hdb'
      cases hdb'
      rw [hlive.nextMsgId, hlive.nextLeaseId]
      exact ⟨hw.msg.1, hw.lease.1⟩

theorem Sys.Within.step {s s' : Sys} {a : Act} (h : s.Within)
    (hs : s.Returns a s') (ha : a.Plain) : s'.Within := by
  have hn := h.counting
  obtain ⟨ph, b, his, hph, hw⟩ := h
  obtain ⟨hstep⟩ := hs
  obtain ⟨res', s'', ph', hs', hst, his'⟩ := his.step hph.wellFormed _
  rw [hstep] at hs'
  cases hs'
  obtain ⟨b', hb', -⟩ := hph.step (Sys.Shows.counting his hn) hst
  refine ⟨ph', b', his', hb', hst.within hph ?_ hw ha.1⟩
  rintro v rfl
  obtain ⟨db, i, -, hlive⟩ := his
  exact hlive.fits

end Exhaustion

section Flood

/-- What the pushes leave. -/
def Flooded (s : Sys) (n : Nat) : Prop :=
  ∃ v c, Small s v c ((n + 1) * maxRecord) ∧
    ((v.live c).queue roundName).length = n ∧
    v.mem.nextMsgId = UInt64.ofNat (n + 1) ∧ v.mem.nextLeaseId = 1

theorem flooded_counting {n : Nat} (hn : n ≤ 2 ^ 32) {v : View}
    (ha : v.mem.nextMsgId = UInt64.ofNat (n + 1))
    (hl : v.mem.nextLeaseId = 1) : v.Counting := by
  refine ⟨?_, ?_⟩
  · intro h0
    rw [h0] at ha
    have := congrArg UInt64.toNat ha
    rw [UInt64.toNat_ofNat'] at this
    change 0 = (n + 1) % 2 ^ 64 at this
    omega
  · rw [hl]
    decide

theorem flooded_short {n : Nat} (hn : n ≤ 2 ^ 32) :
    (n + 1) * maxRecord ≤ 2 ^ 62 := by
  unfold maxRecord
  omega

theorem Flooded.push {s : Sys} {n : Nat} (h : Flooded s n)
    (hn : n ≤ 2 ^ 32) :
    ∃ s', s.Returns (.call ⟨0, .push roundQueue (.buf [])⟩
      (some (UInt64.ofNat (n + 1))) (.code .ok)) s' ∧ Flooded s' (n + 1) := by
  obtain ⟨v, c, hsmall, hlen, ha, hl⟩ := h
  have hcount := flooded_counting hn ha hl
  obtain ⟨s', c', hs, hsmall', hstep⟩ := hsmall.move_call (t := 0) hcount
    (flooded_short hn) (f := .push roundQueue (.buf [])) rfl
  obtain ⟨hres, hb⟩ := hstep.push_inv rfl pushArg_round
  rw [hres] at hs
  rw [← Nat.succ_mul] at hsmall'
  refine ⟨s', ?_, _, c', hsmall', ?_, ?_, ?_⟩
  · rw [← ha, ← hsmall.nextId]
    exact .call hs
  · rw [hb]
    change (Function.update (v.live c).queue roundName
      ((v.live c).queue roundName ++ [_]) roundName).length = n + 1
    rw [Function.update_self, List.length_append, hlen,
      List.length_singleton]
  · refine (congrArg Broker.nextMsgId hb).trans ?_
    change v.mem.nextMsgId + 1 = _
    rw [ha, UInt64.ofNat_add (n + 1) 1]
    rfl
  · exact (congrArg Broker.nextLeaseId hb).trans hl

end Flood

end Qdb
