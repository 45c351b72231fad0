import Qdb.History

/-!
# No message is lost or delivered twice

At every moment a pushed message is once in the pending list of its queue, under
one lease, or acknowledged, and what a pop returns is neither leased nor
acknowledged.
-/

namespace Qdb

open Lib

namespace State

/-- How many entries of the lease table name the message. -/
def leasesOf (st : State) (id : UInt64) : Nat :=
  st.leases.countP fun e => e.msgId = id

/-- The message is in no pending list. -/
def Unlisted (st : State) (id : UInt64) : Prop :=
  ∀ n, id ∉ st.pendingIds n

/-- The message is once in the pending list of the queue `n`, in no other list
and under no lease. -/
structure PendingOnce (st : State) (n : QueueName) (id : UInt64) : Prop where
  once : (st.pendingIds n).count id = 1
  other : ∀ n', n' ≠ n → id ∉ st.pendingIds n'
  lease : st.leasesOf id = 0

/-- The message is leased under one entry and in no pending list. -/
structure LeasedOnce (st : State) (id : UInt64) : Prop where
  state : ∃ m, st.msgGet id = some m ∧ m.state = .leased
  once : st.leasesOf id = 1
  unlisted : st.Unlisted id

/-- Nothing is left of the message but its entry in the message table. -/
structure Settled (st : State) (id : UInt64) : Prop where
  lease : st.leasesOf id = 0
  unlisted : st.Unlisted id

end State

/-- Exactly one of three statements holds. -/
def ExactlyOne (p q r : Prop) : Prop :=
  (p ∧ ¬ q ∧ ¬ r) ∨ (¬ p ∧ q ∧ ¬ r) ∨ (¬ p ∧ ¬ q ∧ r)

namespace View.Wf

variable {v : View} {c : Content} {id : UInt64} {x : Msg}

theorem leasesOf_zero (h : v.Wf c)
    (hno : ∀ x, c.msg id = some x → x.state ≠ .leased) :
    v.mem.st.leasesOf id = 0 := by
  rw [State.leasesOf, List.countP_eq_zero]
  intro e he heq
  rw [decide_eq_true_eq] at heq
  rw [h.shows.rep.mem_leases, h.shows.lease] at he
  obtain ⟨x, hx, hs, -⟩ := h.lease_get he
  rw [heq] at hx
  exact hno x hx hs

theorem leasesOf_one (h : v.Wf c) (hx : c.msg id = some x)
    (hs : x.state = .leased) : v.mem.st.leasesOf id = 1 := by
  have hget := h.msg_lease hx hs
  have hmem : (⟨x.leaseId, id, x.leaseExpiryUs⟩ : Lease) ∈ v.mem.st.leases := by
    rw [h.shows.rep.mem_leases, h.shows.lease]
    exact hget
  have hnodup : v.mem.st.leases.Nodup :=
    h.shows.rep.placed.leases.nodup_toList.of_map
  rw [← List.count_eq_one_of_mem hnodup hmem, State.leasesOf, List.count]
  refine List.countP_congr fun e he => ?_
  rw [h.shows.rep.mem_leases, h.shows.lease] at he
  rw [decide_eq_true_eq, beq_iff_eq]
  constructor
  · intro heq
    rw [← heq] at hx
    rw [← h.lease_inj he hx, hget] at he
    cases he
    rfl
  · rintro rfl
    rfl

theorem unlisted (h : v.Wf c)
    (hno : ∀ x, c.msg id = some x → x.state ≠ .pending) :
    v.mem.st.Unlisted id := by
  intro n hid
  rw [h.shows.rep.pendingIds_eq] at hid
  obtain ⟨x, hx, -, -, hs⟩ := h.pend_get hid
  exact hno x hx hs

theorem pendingOnce (h : v.Wf c) (hx : c.msg id = some x)
    (hs : x.state = .pending) : v.mem.st.PendingOnce x.queueName id where
  once := by
    rw [h.shows.rep.pendingIds_eq]
    exact List.count_eq_one_of_mem (h.pend_nodup _) ((h.pending_mem hx).mpr hs)
  other := by
    intro n hn
    rw [h.shows.rep.pendingIds_eq]
    exact h.not_pend_other hx hn
  lease := by
    refine h.leasesOf_zero fun y hy => ?_
    rw [hx] at hy
    cases hy
    rw [hs]
    simp

theorem leasedOnce (h : v.Wf c) (hx : c.msg id = some x)
    (hs : x.state = .leased) : v.mem.st.LeasedOnce id where
  state := by
    obtain ⟨m, hm, rfl, -⟩ := h.shows.of_msg hx
    exact ⟨m, hm, hs⟩
  once := h.leasesOf_one hx hs
  unlisted := by
    refine h.unlisted fun y hy => ?_
    rw [hx] at hy
    cases hy
    rw [hs]
    simp

end View.Wf

/-- The tables of an open handle. -/
theorem Sys.Shows.tables {s : Sys} {b : Broker} (h : s.Shows b) {db : Db}
    {st : State} (hdb : s.db = some db) (hst : db.state = some st) :
    ∃ (v : View) (c : Content), v.Inv c ∧ b = v.live c ∧ st = v.mem.st := by
  obtain ⟨ph, his, hph⟩ := h
  cases ph with
  | absent =>
      rw [his.1] at hdb
      cases hdb
  | broken =>
      exact hph.elim
  | closed d =>
      rw [his.1] at hdb
      cases hdb
  | opened v =>
      obtain ⟨db', i, hdb', hlive⟩ := his
      obtain ⟨c, hinv, rfl⟩ := hph
      rw [hdb] at hdb'
      cases hdb'
      rw [hlive.state] at hst
      cases hst
      exact ⟨v, c, hinv, rfl, rfl⟩

namespace View.Wf

variable {v : View} {c : Content} {m : Message}

/-- A message of the abstract state is in one place of the tables. -/
theorem placed (h : v.Wf c) (hm : (v.live c).Has m) :
    v.mem.st.PendingOnce m.queue m.id ∨ v.mem.st.LeasedOnce m.id := by
  rcases hm with ⟨n, hm⟩ | ⟨l, e, hl⟩
  · obtain ⟨x, hid, hx, rfl⟩ := h.mem_queue.mp hm
    obtain ⟨y, hy, -, -, hs⟩ := h.pend_get hid
    rw [hx] at hy
    cases hy
    exact Or.inl (h.pendingOnce hx hs)
  · obtain ⟨x, hx, hs, -, heq⟩ := h.lease_eq.mp hl
    cases heq
    exact Or.inr (h.leasedOnce hx hs)

/-- A message that is not in the abstract state is in no place. -/
theorem settled (h : v.Wf c) {id : UInt64}
    (hno : ∀ m, (v.live c).Has m → m.id ≠ id) : v.mem.st.Settled id where
  lease := by
    refine h.leasesOf_zero fun x hx hs => ?_
    have hid := h.key hx
    rw [← hid] at hx
    exact hno (v.message x) (.of_lease (h.lease_eq.mpr ⟨x, hx, hs, rfl, rfl⟩))
      hid
  unlisted := by
    refine h.unlisted fun x hx hs => ?_
    have hmem := (h.pending_mem hx).mpr hs
    have hid := h.key hx
    rw [← hid] at hx hmem
    exact hno (v.message x) (.of_mem (h.mem_queue.mpr ⟨x, hmem, hx, rfl⟩)) hid

end View.Wf

namespace State

variable {st : State} {n : QueueName} {id : UInt64}

theorem PendingOnce.not_leased (h : st.PendingOnce n id) :
    ¬ st.LeasedOnce id := by
  intro h'
  have := h.lease.symm.trans h'.once
  simp at this

theorem Settled.not_pending (h : st.Settled id) : ¬ st.PendingOnce n id := by
  intro h'
  have := h'.once
  rw [List.count_eq_zero_of_not_mem (h.unlisted n)] at this
  simp at this

theorem Settled.not_leased (h : st.Settled id) : ¬ st.LeasedOnce id := by
  intro h'
  have := h.lease.symm.trans h'.once
  simp at this

end State

/-- The message a pop returns is at the head of a queue. -/
theorem Broker.Step.popped {seen : Nat → Prop} {now : UInt64} {call : Call}
    {b b' : Broker} {q : QMsg} (h : b.Step seen now call (.msg q) b') :
    ∃ n m, (b.queue n).head? = some m ∧ q = b.delivery m := by
  generalize hres : Result.msg q = res at h
  cases h with
  | null hs hcall =>
      cases call <;> cases hres
  | pop hs harg hm =>
      cases hres
      exact ⟨_, _, hm.1, rfl⟩
  | popAny hs hm _ =>
      cases hres
      exact ⟨_, _, hm.1, rfl⟩
  | _ =>
      cases hres

theorem Sys.Shows.popped {s s' : Sys} {b : Broker} {e : Event} {q : QMsg}
    {id : Option UInt64} (h : s.Shows b)
    (hs : s.CountedReturns (.call e id (.msg q)) s') :
    ∃ n m, (b.queue n).head? = some m ∧ q = b.delivery m := by
  obtain ⟨hn, hr⟩ := hs
  obtain ⟨hstep⟩ := hr
  obtain ⟨b', hends, -⟩ := h.step hn hstep
  rcases hends with ⟨-, hb⟩ | ⟨hio, -⟩
  · exact hb.popped
  · cases hio

/-- Every pushed message is pending once, leased once or acknowledged, and what
a pop returns is neither leased nor acknowledged. -/
theorem messages_conserved {as : List Act} {s : Sys}
    (hrun : Run Sys.CountedReturns Sys.init as s) :
    (∀ db st, s.db = some db → db.state = some st → ∀ m ∈ pushes as,
      ExactlyOne (st.PendingOnce m.queue m.id) (st.LeasedOnce m.id)
        (m.id ∈ ackedIds as) ∧
      (m.id ∈ ackedIds as → st.Settled m.id)) ∧
    (∀ e id q s', s.CountedReturns (.call e id (.msg q)) s' →
      q.id ∉ ackedIds as ∧
      ∀ db st, s.db = some db → db.state = some st → st.leasesOf q.id = 0) := by
  obtain ⟨b, hb⟩ := Sys.recounts hrun
  constructor
  · intro db st hdb hst m hm
    obtain ⟨v, c, hinv, rfl, rfl⟩ := hb.shows.tables hdb hst
    have hsettled : m.id ∈ ackedIds as → v.mem.st.Settled m.id :=
      fun hack => hinv.wf.settled (hb.hist.acked _ hack).2
    refine ⟨?_, hsettled⟩
    by_cases hack : m.id ∈ ackedIds as
    · exact Or.inr (Or.inr
        ⟨(hsettled hack).not_pending, (hsettled hack).not_leased, hack⟩)
    · obtain ⟨m', hm', rfl⟩ := hb.hist.present m hm hack
      rcases hinv.wf.placed hm' with hp | hl
      · exact Or.inl ⟨hp, hp.not_leased, hack⟩
      · exact Or.inr (Or.inl ⟨fun hp => hp.not_leased hl, hl, hack⟩)
  · intro e id q s' hs
    obtain ⟨n, m, hhead, rfl⟩ := hb.shows.popped hs
    have hm := List.mem_of_head? hhead
    refine ⟨fun hack => (hb.hist.acked _ hack).2 m (.of_mem hm) rfl, ?_⟩
    intro db st hdb hst
    obtain ⟨v, c, hinv, rfl, rfl⟩ := hb.shows.tables hdb hst
    refine hinv.wf.leasesOf_zero fun x hx hsx => ?_
    obtain ⟨y, hid, hy, rfl⟩ := hinv.wf.mem_queue.mp hm
    exact hinv.wf.not_pend hx (by rw [hsx]; simp) n hid

/-- The round of one message, when it is leased. -/
theorem messages_conserved_leased :
    ∃ s db st, Run Sys.CountedReturns Sys.init
        [.call ⟨0, .openDb 0⟩ none (.code .ok),
          .call ⟨0, .push roundQueue (.buf [])⟩ (some 1) (.code .ok),
          .call ⟨0, .pop roundQueue true⟩ (some 2)
            (.msg ⟨1, 1, roundName, [], 0⟩)] s ∧
      s.db = some db ∧ db.state = some st ∧
      ExactlyOne (st.PendingOnce roundName 1) (st.LeasedOnce 1) False := by
  obtain ⟨s₁, h1, hidle⟩ := Idle.create 0 0
  obtain ⟨s₂, h2, hpushed⟩ := hidle.push (by decide) (by decide)
  obtain ⟨s₃, h3, hpopped⟩ := hpushed.pop (by decide) (by decide) (by decide)
  have hrun := ((Run.nil.snoc h1).snoc h2).snoc h3
  obtain ⟨v, c, e, hsmall, -⟩ := hpopped
  obtain ⟨db, i, hdb, hlive⟩ := hsmall.is
  obtain ⟨hone, -⟩ :=
    (messages_conserved hrun).1 db _ hdb hlive.state (roundMessage 1 0)
      (List.mem_singleton.mpr rfl)
  refine ⟨s₃, db, _, hrun, hdb, hlive.state, ?_⟩
  have hacked : (roundMessage 1 0).id ∉ ackedIds (([] ++
      [Act.call ⟨0, .openDb 0⟩ none (.code .ok)]) ++
      [Act.call ⟨0, .push roundQueue (.buf [])⟩ (some 1) (.code .ok)] ++
      [Act.call ⟨0, .pop roundQueue true⟩ (some (1 + 1))
        (.msg ⟨1, 1, roundName, [], 0⟩)]) := by
    simp [ackedIds, Act.ackedId]
  rw [ExactlyOne, eq_false hacked] at hone
  exact hone

/-- The end of a list is not in it. -/
theorem walk_not_mem (nx : UInt64 → UInt64) (fuel : Nat) (x : UInt64) :
    0 ∉ walk nx 0 fuel x := by
  induction fuel generalizing x with
  | zero =>
      simp [walk]
  | succ fuel ih =>
      unfold walk
      split
      · simp
      · next hx =>
        simp only [List.mem_cons, not_or]
        exact ⟨fun h0 => hx h0.symm, ih _⟩

/-- The message that gets the id zero is in no pending list. -/
theorem message_zero_lost :
    ¬ ∀ as s, Run Sys.Returns Sys.init as s →
      ∀ db st, s.db = some db → db.state = some st → ∀ m ∈ pushes as,
        ExactlyOne (st.PendingOnce m.queue m.id) (st.LeasedOnce m.id)
          (m.id ∈ ackedIds as) := by
  intro hall
  obtain ⟨s, v, c, hrun, his, hinv, hzero, -⟩ := exists_zero_push 0 0
  obtain ⟨s', hwrap, -⟩ := exists_wrap 0 0
  obtain ⟨b, hb⟩ := Sys.recounts hwrap
  obtain ⟨db, i, hdb, hlive⟩ := his
  have hmem : roundMessage 0 0 ∈ pushes (zeroActs 0 0) :=
    Hist.mem_pushes.mpr (Or.inr rfl)
  have hacked : (0 : UInt64) ∉ ackedIds (zeroActs 0 0) := by
    intro h0
    rcases Hist.mem_acked.mp h0 with h0 | h0
    · exact (hb.msgs.below 0 (hb.hist.acked 0 h0).1).1 rfl
    · cases h0
  rcases hall _ s hrun db _ hdb hlive.state _ hmem with
    ⟨hp, -, -⟩ | ⟨-, hl, -⟩ | ⟨-, -, hk⟩
  · have hone := hp.once
    change List.count 0 (walk _ 0 _ _) = 1 at hone
    rw [List.count_eq_zero_of_not_mem (walk_not_mem _ _ _)] at hone
    simp at hone
  · obtain ⟨m, hm, hs⟩ := hl.state
    have hcore := State.coreGet_of_msgGet hm
    change (v.mem.st.addMsg _).coreGet 0 = _ at hcore
    rw [State.coreGet_addMsg] at hcore
    have hcore := (if_pos hzero).symm.trans hcore
    have hstate : MsgState.pending = m.state :=
      congrArg Msg.state (Option.some.inj hcore)
    rw [hs] at hstate
    cases hstate
  · exact hacked hk

end Qdb
