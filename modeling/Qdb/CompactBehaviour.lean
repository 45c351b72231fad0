import Qdb.History

/-!
# What a compaction keeps

A successful compaction keeps the live messages, their order, the leases and
the counters.  Afterwards the database answers every call like the one that was
not compacted, up to retry counts: two abstract states that differ only in
retry counts stay so and return the same results.
-/

namespace Qdb

open Lib

/-- Every queue of the tables has a message. -/
def State.Peopled (st : State) : Prop :=
  ∀ n, (st.queueGet n).isSome → ∃ id m, st.coreGet id = some m ∧
    m.queueName = n

namespace State.Peopled

variable {st st' : State} {q : Queue} {m : Msg}

theorem empty : State.empty.Peopled := by
  intro n hn
  rw [queueGet_empty] at hn
  cases hn

/-- Messages keep their queues, and there are no new queues. -/
theorem congr (h : st.Peopled)
    (hq : ∀ n, (st'.queueGet n).isSome → (st.queueGet n).isSome)
    {f : Msg → Msg} (hf : ∀ x, (f x).queueName = x.queueName)
    (hm : ∀ id, st'.coreGet id =
      if id = m.id then (st.coreGet m.id).map f else st.coreGet id) :
    st'.Peopled := by
  intro n hn
  obtain ⟨id, x, hx, rfl⟩ := h n (hq n hn)
  by_cases hid : id = m.id
  · subst hid
    refine ⟨m.id, f x, ?_, hf x⟩
    rw [hm, if_pos rfl, hx, Option.map_some]
  · refine ⟨id, x, ?_, rfl⟩
    rw [hm, if_neg hid, hx]

theorem replayLeaseState (h : st.Peopled) (l e : UInt64) :
    (replayLeaseState st q m l e).Peopled := by
  refine h.congr (m := m) ?_ (f := fun x => x.leasedAs l e) (fun _ => rfl)
    (coreGet_replayLeaseState st q m l e)
  intro n hn
  rw [queueGet_replayLeaseState] at hn
  split at hn
  · rename_i hname
    rw [hname]
    simpa using hn
  · exact hn

theorem replayAckState (h : st.Peopled) (l : UInt64) :
    (replayAckState st q m l).Peopled := by
  refine h.congr (m := m) ?_ (f := Msg.asAcked) (fun _ => rfl)
    (coreGet_replayAckState st q m l)
  intro n hn
  rw [queueGet_replayAckState] at hn
  split at hn
  · rename_i hname
    rw [hname]
    simpa using hn
  · exact hn

theorem replayNackState (h : st.Peopled) (l : UInt64) :
    (replayNackState st q m l).Peopled := by
  refine h.congr (m := m) ?_ (f := Msg.returned) (fun _ => rfl)
    (coreGet_replayNackState st q m l)
  intro n hn
  rw [queueGet_replayNackState] at hn
  split at hn
  · rename_i hname
    rw [hname]
    simpa using hn
  · exact hn

theorem addMsg (h : st.Peopled) (hnew : st.coreGet m.id = none) :
    (st.addMsg m).Peopled := by
  intro n hn
  rw [queueGet_addMsg] at hn
  split at hn
  · rename_i hname
    refine ⟨m.id, m.core, ?_, hname.symm⟩
    rw [coreGet_addMsg, if_pos rfl]
  · obtain ⟨id, x, hx, hq⟩ := h n hn
    refine ⟨id, x, ?_, hq⟩
    rw [coreGet_addMsg, if_neg ?_]
    · exact hx
    · rintro rfl
      rw [hnew] at hx
      cases hx

end State.Peopled

section Replay

variable {mem mem' : Mem} {off : UInt64}

theorem Mem.applyResolve_peopled
    {resolve : State → Queue → Msg → UInt64 → State} {id l : UInt64}
    (hkeep : ∀ q m, mem.st.Peopled → (resolve mem.st q m l).Peopled)
    (h : mem.applyResolve resolve id l = some mem') (hp : mem.st.Peopled) :
    mem'.st.Peopled := by
  unfold Mem.applyResolve at h
  cases hm : mem.st.msgGet id with
  | none =>
      rw [hm] at h
      cases h
  | some m =>
      rw [hm] at h
      dsimp only at h
      split at h
      · cases h
      split at h
      · cases h
      cases hq : mem.st.queueGet m.queueName with
      | none =>
          rw [hq] at h
          cases h
      | some q =>
          rw [hq] at h
          cases h
          exact hkeep q m hp

theorem Mem.applyLease_peopled {id e l : UInt64}
    (h : mem.applyLease id e l = some mem') (hp : mem.st.Peopled) :
    mem'.st.Peopled := by
  unfold Mem.applyLease at h
  split at h
  · cases h
  cases hm : mem.st.msgGet id with
  | none =>
      rw [hm] at h
      cases h
  | some m =>
      rw [hm] at h
      dsimp only at h
      split at h
      · cases h
      split at h
      · cases h
      cases hq : mem.st.queueGet m.queueName with
      | none =>
          rw [hq] at h
          cases h
      | some q =>
          rw [hq] at h
          cases h
          exact hp.replayLeaseState l e

theorem Mem.apply_peopled {e : Entry} (h : mem.apply off e = some mem')
    (hp : mem.st.Peopled) : mem'.st.Peopled := by
  cases e with
  | push id name data =>
      simp only [Mem.apply] at h
      split at h
      · cases h
      split at h
      · cases h
      rename_i hnone
      cases h
      refine hp.addMsg ?_
      rw [State.coreGet, Option.map_eq_none_iff]
      change mem.st.msgGet id = none
      simpa using hnone
  | lease id e l =>
      exact Mem.applyLease_peopled h hp
  | ack id l =>
      exact Mem.applyResolve_peopled (fun _ _ hp => hp.replayAckState l) h hp
  | nack id l =>
      exact Mem.applyResolve_peopled (fun _ _ hp => hp.replayNackState l) h hp
  | expire id l =>
      exact Mem.applyResolve_peopled (fun _ _ hp => hp.replayNackState l) h hp
  | checkpoint nm nl =>
      cases h
      exact hp
  | padding =>
      cases h
      exact hp

/-- Replay creates a queue only for a message. -/
theorem replayRecords_peopled {rs : List Record}
    (h : replayRecords off rs mem = some mem') (hp : mem.st.Peopled) :
    mem'.st.Peopled := by
  induction rs generalizing off mem with
  | nil =>
      cases h
      exact hp
  | cons r rs ih =>
      obtain ⟨mem1, h1, h2⟩ := Option.bind_eq_some_iff.mp h
      obtain ⟨e, -, he⟩ := Option.bind_eq_some_iff.mp h1
      exact ih h2 (Mem.apply_peopled he hp)

end Replay

/-- A result without its retry count. -/
def Result.forget : Result → Result
  | .msg q => .msg { q with retryCount := 0 }
  | res => res

/-- The calls that do not concern the database as a whole. -/
def Call.Ordinary : Call → Prop
  | .push _ _ => True
  | .pop _ _ => True
  | .popAny _ => True
  | .ack _ _ => True
  | .nack _ _ => True
  | _ => False

namespace Broker

variable {seen : Nat → Prop} {now : UInt64} {b b₁ b₂ : Broker} {call : Call}
variable {res res₁ res₂ : Result}

/-- Heads and leases belong to different messages. -/
structure Distinct (b : Broker) : Prop where
  apart : ∀ n m n' m', (b.queue n).head? = some m →
    (b.queue n').head? = some m' → m.id = m'.id → n = n'
  lease : ∀ l x l' x', b.lease l = some x → b.lease l' = some x' →
    x.msg.id = x'.msg.id → l = l'

theorem Sound.distinct (h : b.Sound) : b.Distinct where
  apart := fun n m n' m' hm hm' =>
    h.apart n m (List.mem_of_head? hm) n' m' (List.mem_of_head? hm')
  lease := h.lease

theorem head_compacted {n : QueueName} {m : Message} :
    (b.compacted.queue n).head? = some m ↔
      ∃ m', (b.queue n).head? = some m' ∧ m'.fresh = m := by
  change ((b.queue n).map Message.fresh).head? = some m ↔ _
  rw [List.head?_map, Option.map_eq_some_iff]

theorem lease_compacted {l : UInt64} {x : Held} :
    b.compacted.lease l = some x ↔
      ∃ x', b.lease l = some x' ∧ x'.fresh = x := by
  change (b.lease l).map Held.fresh = some x ↔ _
  rw [Option.map_eq_some_iff]

theorem Distinct.compacted (h : b.Distinct) : b.compacted.Distinct where
  apart := by
    intro n m n' m' hm hm' hid
    obtain ⟨k, hk, rfl⟩ := head_compacted.mp hm
    obtain ⟨k', hk', rfl⟩ := head_compacted.mp hm'
    exact h.apart n k n' k' hk hk' hid
  lease := by
    intro l x l' x' hx hx' hid
    obtain ⟨y, hy, rfl⟩ := lease_compacted.mp hx
    obtain ⟨y', hy', rfl⟩ := lease_compacted.mp hx'
    exact h.lease l y l' y' hy hy' hid

theorem offers_compacted {n : QueueName} {m : Message} :
    b.compacted.Offers seen n m ↔ ∃ m', b.Offers seen n m' ∧ m'.fresh = m := by
  have hlen : (b.compacted.queue n).length = (b.queue n).length :=
    List.length_map _
  unfold Offers
  rw [hlen, head_compacted]
  constructor
  · rintro ⟨⟨m', hm', rfl⟩, hs⟩
    exact ⟨m', ⟨hm', hs⟩, rfl⟩
  · rintro ⟨m', ⟨hm', hs⟩, rfl⟩
    exact ⟨⟨m', hm', rfl⟩, hs⟩

theorem Distinct.oldest (hd : b.Distinct) {n n' : QueueName} {m m' : Message}
    (hm : b.Offers seen n m) (hm' : b.Offers seen n' m')
    (hmin : ∀ k x, b.Offers seen k x → m.id ≤ x.id)
    (hmin' : ∀ k x, b.Offers seen k x → m'.id ≤ x.id) : n = n' ∧ m = m' := by
  have hid : m.id = m'.id :=
    UInt64.le_antisymm (hmin n' m' hm') (hmin' n m hm)
  have hn : n = n' := hd.apart n m n' m' hm.1 hm'.1 hid
  subst hn
  exact ⟨rfl, Option.some.inj (hm.1.symm.trans hm'.1)⟩

/-- A call with the same arguments on the same state has one outcome. -/
theorem Step.deterministic (hd : b.Distinct) (hc : call.Ordinary)
    (h₁ : b.Step seen now call res₁ b₁) (h₂ : b.Step seen now call res₂ b₂) :
    res₁ = res₂ ∧ b₁ = b₂ := by
  cases call with
  | push queue data =>
      cases h₁ <;> cases h₂ <;> simp_all
  | pop queue out =>
      cases h₁ <;> cases h₂ <;> simp_all [Offers]
  | popAny out =>
      cases h₁ <;> cases h₂ <;> simp_all
      rename_i hm hmin _ hm' hmin'
      obtain ⟨rfl, rfl⟩ := hd.oldest hm hm' hmin hmin'
      exact ⟨rfl, rfl⟩
  | ack id l =>
      cases h₁ <;> cases h₂ <;> simp_all
      all_goals grind [hd.lease]
  | nack id l =>
      cases h₁ <;> cases h₂ <;> simp_all
      all_goals grind [hd.lease]
  | _ =>
      exact hc.elim

@[simp] theorem fresh_fresh (m : Message) : m.fresh.fresh = m.fresh :=
  rfl

theorem map_fresh_fresh (ms : List Message) :
    (ms.map Message.fresh).map Message.fresh = ms.map Message.fresh := by
  rw [List.map_map]
  rfl

theorem compacted_compacted : b.compacted.compacted = b.compacted := by
  ext1
  · rfl
  · rfl
  · rfl
  · funext n
    exact map_fresh_fresh _
  · funext l
    simp only [Broker.compacted, Option.map_map]
    rfl

theorem counters_of_compacted {b' : Broker}
    (h : b.compacted = b'.compacted) : b.session = b'.session ∧
      b.nextMsgId = b'.nextMsgId ∧ b.nextLeaseId = b'.nextLeaseId := by
  have h1 := congrArg Broker.session h
  have h2 := congrArg Broker.nextMsgId h
  have h3 := congrArg Broker.nextLeaseId h
  exact ⟨h1, h2, h3⟩

theorem compacted_push (body : Body) :
    (b.compacted.push body).compacted = (b.push body).compacted := by
  ext1
  · rfl
  · rfl
  · rfl
  · funext n
    simp only [Broker.compacted, push, Function.update_apply]
    split
    · simp [Function.comp_def, Message.fresh, pushed]
    · exact map_fresh_fresh _
  · funext l
    simp only [Broker.compacted, push, Option.map_map]
    rfl

theorem compacted_deliver (n : QueueName) (m : Message) (e : UInt64) :
    (b.compacted.deliver n m.fresh e).compacted =
      (b.deliver n m e).compacted := by
  ext1
  · rfl
  · rfl
  · rfl
  · funext k
    simp only [Broker.compacted, deliver, Function.update_apply]
    split
    · rw [← List.map_tail, map_fresh_fresh]
    · exact map_fresh_fresh _
  · funext l
    simp only [Broker.compacted, deliver, Function.update_apply]
    split
    · rfl
    · rw [Option.map_map]
      rfl

theorem compacted_drop (l : UInt64) :
    (b.compacted.drop l).compacted = (b.drop l).compacted := by
  ext1
  · rfl
  · rfl
  · rfl
  · funext k
    exact map_fresh_fresh _
  · funext k
    simp only [Broker.compacted, drop, Function.update_apply]
    split
    · rfl
    · rw [Option.map_map]
      rfl

theorem compacted_requeue (l : UInt64) (m : Message) :
    (b.compacted.requeue l m.fresh).compacted =
      (b.requeue l m).compacted := by
  ext1
  · rfl
  · rfl
  · rfl
  · funext k
    simp only [Broker.compacted, requeue, Function.update_apply]
    change (if k = m.queue then _ else _ : List Message).map _ = _
    split
    · simp only [List.map_append, map_fresh_fresh]
      rfl
    · exact map_fresh_fresh _
  · funext k
    simp only [Broker.compacted, requeue, Function.update_apply]
    split
    · rfl
    · rw [Option.map_map]
      rfl

/-- A call on a state from which the retry counts have been removed. -/
theorem Step.compacted (hc : call.Ordinary)
    (h : b.Step seen now call res b₁) :
    ∃ b₂, b.compacted.Step seen now call res.forget b₂ ∧
      b₂.compacted = b₁.compacted := by
  have hself := compacted_compacted (b := b)
  cases h with
  | null hs hcall =>
      refine ⟨b.compacted, ?_, hself⟩
      have hres : (nullResult call).forget = nullResult call := by
        unfold nullResult
        split <;> rfl
      rw [hres]
      exact .null hs hcall
  | pushInval hs harg =>
      exact ⟨_, .pushInval hs harg, hself⟩
  | push hs harg =>
      exact ⟨_, .push hs harg, compacted_push _⟩
  | popInval hs harg =>
      exact ⟨_, .popInval hs harg, hself⟩
  | popEmpty hs harg hn =>
      refine ⟨_, .popEmpty hs harg ?_, hself⟩
      intro m hm
      obtain ⟨m', hm', -⟩ := offers_compacted.mp hm
      exact hn m' hm'
  | pop hs harg hm =>
      have hs : b.compacted.session = some _ := hs
      exact ⟨_, .pop hs harg (offers_compacted.mpr ⟨_, hm, rfl⟩),
        compacted_deliver _ _ _⟩
  | popAnyInval hs =>
      exact ⟨_, .popAnyInval hs, hself⟩
  | popAnyEmpty hs hn =>
      refine ⟨_, .popAnyEmpty hs ?_, hself⟩
      intro n m hm
      obtain ⟨m', hm', -⟩ := offers_compacted.mp hm
      exact hn n m' hm'
  | popAny hs hm hmin =>
      have hs : b.compacted.session = some _ := hs
      refine ⟨_, .popAny hs (offers_compacted.mpr ⟨_, hm, rfl⟩) ?_,
        compacted_deliver _ _ _⟩
      intro n' m' hm'
      obtain ⟨k, hk, rfl⟩ := offers_compacted.mp hm'
      exact hmin n' k hk
  | noent hs hcall hn =>
      refine ⟨_, .noent hs hcall ?_, hself⟩
      intro l' x hx
      obtain ⟨y, hy, rfl⟩ := lease_compacted.mp hx
      exact hn l' y hy
  | inval hs hcall hx hid hl =>
      exact ⟨_, .inval hs hcall (lease_compacted.mpr ⟨_, hx, rfl⟩) hid hl,
        hself⟩
  | ack hs hx hid =>
      exact ⟨_, .ack hs (lease_compacted.mpr ⟨_, hx, rfl⟩) hid,
        compacted_drop _⟩
  | nack hs hx hid =>
      exact ⟨_, .nack hs (lease_compacted.mpr ⟨_, hx, rfl⟩) hid,
        compacted_requeue _ _⟩
  | _ =>
      exact hc.elim

/-- Two states that differ in retry counts return the same results. -/
theorem Step.alike {b' b₁' : Broker} (hd : b.Distinct)
    (heq : b.compacted = b'.compacted) (hc : call.Ordinary)
    (h : b.Step seen now call res₁ b₁) (h' : b'.Step seen now call res₂ b₁') :
    res₁.forget = res₂.forget ∧ b₁.compacted = b₁'.compacted := by
  obtain ⟨b₂, hstep, hb₂⟩ := h.compacted hc
  obtain ⟨b₂', hstep', hb₂'⟩ := h'.compacted hc
  rw [← heq] at hstep'
  obtain ⟨hres, rfl⟩ := hstep.deterministic hd.compacted hc hstep'
  exact ⟨hres, hb₂.symm.trans hb₂'⟩

end Broker

/-- An act without the retry count it observes. -/
def Act.forget : Act → Act
  | .call e id res => .call e id res.forget
  | .crash e => .crash e

/-- What is called, and when. -/
def Act.event : Act → Event
  | .call e _ _ => e
  | .crash e => e

/-- An ordinary call that the machine does not refuse. -/
def Act.Ordinary : Act → Prop
  | .call e _ res => e.call.Ordinary ∧ res ≠ .code .errIo
  | .crash _ => False

/-- A call on two databases that differ in retry counts. -/
theorem Sys.Shows.alike {s t s' t' : Sys} {b b' : Broker} {a a' : Act}
    (hs : s.Shows b) (hs' : s'.Shows b') (heq : b.compacted = b'.compacted)
    (h : s.CountedReturns a t) (h' : s'.Returns a' t')
    (he : a.event = a'.event) (ha : a.Ordinary) (ha' : a'.Ordinary) :
    a.forget = a'.forget ∧
      ∃ b₁ b₁', t.Shows b₁ ∧ t'.Shows b₁' ∧ b₁.compacted = b₁'.compacted := by
  obtain ⟨h1, h2, h3⟩ := Broker.counters_of_compacted heq
  have hn' : s'.Counting := by
    refine hs'.counting_of ?_
    have hb := hs.broker_counting h.1
    intro hopen
    rw [← h2, ← h3]
    exact hb (by rw [h1]; exact hopen)
  have hid : s.nextId = s'.nextId := by
    rw [hs.nextId, hs'.nextId, h1, h2]
  obtain ⟨hn, hret⟩ := h
  obtain ⟨hstep⟩ := hret
  obtain ⟨hstep'⟩ := h'
  have he : _ = _ := he
  obtain ⟨b₁, hends, ht⟩ := hs.step hn hstep
  obtain ⟨b₁', hends', ht'⟩ := hs'.step hn' hstep'
  rcases hends with ⟨-, hb⟩ | ⟨hio, -⟩
  · rcases hends' with ⟨-, hb'⟩ | ⟨hio, -⟩
    · change Act.event (.call _ _ _) = Act.event (.call _ _ _) at he
      unfold Act.event at he
      dsimp only at he
      subst he
      obtain ⟨hres, hb₁⟩ := hb.alike hs.sound.distinct heq ha.1 hb'
      refine ⟨?_, b₁, b₁', ht, ht', hb₁⟩
      unfold Act.forget
      dsimp only
      rw [hres, hid]
    · exact absurd hio ha'.2
  · exact absurd hio ha.2

/-- Runs of ordinary calls on two databases that differ in retry counts. -/
theorem Sys.Shows.alike_run {s t s' t' : Sys} {b b' : Broker}
    {as as' : List Act} (hs : s.Shows b) (hs' : s'.Shows b')
    (heq : b.compacted = b'.compacted) (hrun : Run Sys.CountedReturns s as t)
    (hrun' : Run Sys.Returns s' as' t')
    (he : as.map Act.event = as'.map Act.event)
    (ha : ∀ a ∈ as, a.Ordinary) (ha' : ∀ a ∈ as', a.Ordinary) :
    as.map Act.forget = as'.map Act.forget ∧
      ∃ b₁ b₁', t.Shows b₁ ∧ t'.Shows b₁' ∧ b₁.compacted = b₁'.compacted := by
  induction hrun generalizing as' t' with
  | nil =>
      obtain rfl : as' = [] := List.map_eq_nil_iff.mp he.symm
      have := hrun'.nil_inv
      subst this
      exact ⟨rfl, b, b', hs, hs', heq⟩
  | @snoc as t a u hrun hstep ih =>
      rw [List.map_append] at he
      obtain ⟨cs, ds, rfl, hcs, hds⟩ := List.map_eq_append_iff.mp he.symm
      obtain ⟨a', rfl, hea⟩ : ∃ a', ds = [a'] ∧ a'.event = a.event := by
        cases ds with
        | nil =>
            cases hds
        | cons d ds =>
            rw [List.map_cons, List.map_cons] at hds
            injection hds with h1 h2
            obtain rfl := List.map_eq_nil_iff.mp h2
            exact ⟨d, rfl, h1⟩
      obtain ⟨u', hrun', hstep'⟩ := hrun'.snoc_inv
      obtain ⟨hacts, b₁, b₁', ht, ht', hb⟩ := ih hrun' hcs.symm
        (fun x hx => ha x (List.mem_append_left _ hx))
        (fun x hx => ha' x (List.mem_append_left _ hx))
      obtain ⟨hact, hrest⟩ := ht.alike ht' hb hstep hstep' hea.symm
        (ha a (by simp)) (ha' a' (by simp))
      refine ⟨?_, hrest⟩
      simp only [List.map_append, List.map_cons, List.map_nil, hacts, hact]

/-- The tables `st'` have the live messages of `st`, with their payloads, its
pending lists and its leases. -/
structure LiveKept (w w' : World) (db db' : Db) (st st' : State) : Prop where
  pending : ∀ n, st'.pendingIds n = st.pendingIds n
  live : ∀ id m, st.msgGet id = some m → m.state ≠ .acked →
    ∃ m', st'.msgGet id = some m' ∧ m'.id = m.id ∧
      m'.queueName = m.queueName ∧ m'.state = m.state ∧
      m'.leaseId = m.leaseId ∧ m'.leaseExpiryUs = m.leaseExpiryUs ∧
      (db'.message w' m').data = (db.message w m).data
  noAcked : ∀ id m', st'.msgGet id = some m' → m'.state ≠ .acked ∧
    (st.msgGet id).isSome
  leases : ∀ l, l ∈ st'.leases ↔ l ∈ st.leases

/-- What a compaction keeps of a handle with the tables `st`. -/
structure Compaction (w w' : World) (db db' : Db) (st st' : State) :
    Prop extends LiveKept w w' db db' st st' where
  nextMsgId : db'.nextMsgId = db.nextMsgId
  nextLeaseId : db'.nextLeaseId = db.nextLeaseId
  createTime : db'.createTimeUs = db.createTimeUs
  queues : ∀ n, (st'.queueGet n).isSome →
    ∃ id m, st'.msgGet id = some m ∧ m.queueName = n

/-- The handles on both sides of a compaction, whether or not earlier writes
have failed. -/
theorem View.Wf.liveKept {v : View} {c d : Content} (h : v.Wf c) {now : UInt64}
    {mem : Mem} (hshow : mem.st.Shows d)
    (hcomp : Compacts v (v.compactRecords now) c d) {F : Prop} {w w' : World}
    {db db' : Db} {i i' : Nat} (hlive : Live F w db v i)
    (hlive' : Live F w' db' (v.compacted now mem) i') :
    LiveKept w w' db db' v.mem.st mem.st where
  pending := by
    intro n
    rw [hshow.rep.pendingIds_eq, h.shows.rep.pendingIds_eq, hcomp.pend]
  live := by
    intro id m hget hs
    obtain ⟨y, hy, hcp⟩ := hcomp.live id m.core (h.shows.msgGet hget) hs
    obtain ⟨m', hm', rfl, -⟩ := hshow.of_msg hy
    refine ⟨m', hm', hcp.id, hcp.queueName, hcp.state, hcp.leaseId,
      hcp.expiry, ?_⟩
    have hloc := h.located_msg id m hget
    have hloc' := (h.compacted hshow hcomp hlive'.fits).located_msg id m' hm'
    rw [hlive.message hloc, hlive'.message hloc']
    exact (hcp.data (h.located id _ (h.shows.msgGet hget)) hlive'.fits).2
  noAcked := by
    intro id m' hget
    obtain ⟨x, hx, hs, hcp⟩ := hcomp.of_msg (hshow.msgGet hget)
    constructor
    · have hstate : m'.state = x.state := hcp.state
      rw [hstate]
      exact hs
    · obtain ⟨m, hm, -, -⟩ := h.shows.of_msg hx
      rw [hm]
      rfl
  leases := by
    intro l
    rw [hshow.rep.mem_leases, h.shows.rep.mem_leases, hshow.lease,
      h.shows.lease, hcomp.lease]

/-- The handle before and after a compaction. -/
def Sys.Compacts (s s' : Sys) : Prop :=
  ∃ db db' st st', s.db = some db ∧ s'.db = some db' ∧ db.state = some st ∧
    db'.state = some st' ∧ Compaction s.world s'.world db db' st st'

theorem View.Inv.compaction {v : View} {c : Content} (h : v.Inv c)
    (hn : v.Counting) {now : UInt64} {mem : Mem}
    (hmem : v.compactReplay now = some mem)
    (hfit : Qdb.Fits hdrSize (v.compactRecords now)) {w w' : World}
    {db db' : Db} {i i' : Nat} (hlive : Live False w db v i)
    (hlive' : Live False w' db' (v.compacted now mem) i') :
    Compaction w w' db db' v.mem.st mem.st := by
  obtain ⟨mem', d, hmem', hm, hl, hcomp, hinv⟩ := h.compact hn now
  have heq : mem' = mem := Option.some.inj (hmem'.symm.trans hmem)
  subst heq
  have hshow : mem'.st.Shows d := (hinv hfit).wf.shows
  refine ⟨h.wf.liveKept hshow hcomp hlive hlive', ?_, ?_, ?_, ?_⟩
  · rw [hlive.nextMsgId, hlive'.nextMsgId]
    exact hm
  · rw [hlive.nextLeaseId, hlive'.nextLeaseId]
    exact hl
  · rw [hlive.createTime, hlive'.createTime]
    rfl
  · intro n hq
    have hpeople : mem'.st.Peopled :=
      replayRecords_peopled hmem State.Peopled.empty
    obtain ⟨id, x, hx, hn⟩ := hpeople n hq
    obtain ⟨m, hget, rfl⟩ := State.coreGet_some hx
    exact ⟨id, m, hget, hn⟩

/-- The views of the handle before and after a successful compaction. -/
theorem Sys.Shows.compact_views {s s' : Sys} {b : Broker} {now : UInt64}
    (h : s.Shows b) (hn : s.Counting)
    (hs : s.step ⟨now, .compact⟩ = some (.code .ok, s')) :
    ∃ (v : View) (c : Content) (mem : Mem) (db db' : Db) (i i' : Nat),
      b = v.live c ∧ v.Inv c ∧ v.Counting ∧
      v.compactReplay now = some mem ∧
      Qdb.Fits hdrSize (v.compactRecords now) ∧
      s.db = some db ∧ Live False s.world db v i ∧
      s'.db = some db' ∧ Live False s'.world db' (v.compacted now mem) i' := by
  obtain ⟨ph, his, hph⟩ := h
  obtain ⟨res, s'', ph', hs', hst, his'⟩ :=
    his.step hph.wellFormed ⟨now, .compact⟩
  rw [hs] at hs'
  cases hs'
  cases hst with
  | move hmv _ =>
      cases hmv
  | @compact v mem hmem hfit =>
      have hcount := counting his hn v rfl
      obtain ⟨c, hinv, rfl⟩ := hph
      obtain ⟨db, i, hdb, hlive⟩ := his
      obtain ⟨db', i', hdb', hlive'⟩ := his'
      exact ⟨v, c, mem, db, db', i, i', rfl, hinv, hcount, hmem, hfit, hdb,
        hlive, hdb', hlive'⟩

/-- A successful compaction. -/
theorem Sys.Shows.compacts {s s' : Sys} {b : Broker} {now : UInt64}
    (h : s.Shows b) (hn : s.Counting)
    (hs : s.step ⟨now, .compact⟩ = some (.code .ok, s')) :
    s.Compacts s' ∧ s'.Shows b.compacted := by
  obtain ⟨v, c, mem, db, db', i, i', rfl, hinv, hcount, hmem, hfit, hdb,
    hlive, hdb', hlive'⟩ := h.compact_views hn hs
  refine ⟨⟨db, db', _, _, hdb, hdb', hlive.state, hlive'.state,
    hinv.compaction hcount hmem hfit hlive hlive'⟩, ?_⟩
  obtain ⟨mem', d, hmem', hm, hl, hcomp, hinv'⟩ := hinv.compact hcount now
  have heq : mem' = mem := Option.some.inj (hmem'.symm.trans hmem)
  subst heq
  rw [← hinv.compacted_live hm hl hcomp hfit]
  exact ⟨.opened (v.compacted now mem'), ⟨db', i', hdb', hlive'⟩, d,
    hinv' hfit, rfl⟩

/-- The message after its acknowledgement. -/
theorem msgGet_qdbAckState {st : State} {m : Msg} (l : UInt64)
    (hm : st.msgGet m.id = some m) :
    (qdbAckState st m l).msgGet m.id =
      some { m with state := .acked, leaseId := 0, leaseExpiryUs := 0 } := by
  unfold qdbAckState
  cases st.queueGet m.queueName <;> simp [hm]

/-- An acknowledged message stays in the tables. -/
theorem Sys.ShowsSmall.acked {s s' : Sys} {b : Broker} {k : Nat}
    {l : UInt64} {x : Held} {res : Result} {db : Db} {st : State}
    (h : s.ShowsSmall b k) (hk : k ≤ 2 ^ 62) (hmsg : b.nextMsgId ≠ 0)
    (hlease : b.nextLeaseId ≠ 0) (hl : b.lease l = some x)
    (hs : s.step ⟨0, .ack x.msg.id l⟩ = some (res, s')) (hdb : s'.db = some db)
    (hst : db.state = some st) : ∃ m ∈ st.msgs, m.state = .acked := by
  obtain ⟨v, c, hsmall, rfl⟩ := h
  obtain ⟨m, hm, hid, hsm, hlm⟩ := hsmall.inv.wf.leased_msg hl
  have hack := View.ack_of_leased hm hsm hlm
  obtain ⟨s₁, c', hstep, hsmall', -⟩ := hsmall.move_call (t := 0)
    ⟨hmsg, hlease⟩ hk (f := .ack x.msg.id l)
    (show v.move 0 (.ack x.msg.id l) = some (v.ack x.msg.id l) from rfl)
  rw [hs] at hstep
  cases hstep
  rw [hack] at hsmall'
  obtain ⟨db', i, hdb', hlive⟩ := hsmall'.is
  rw [hdb] at hdb'
  cases hdb'
  have hstate : st = qdbAckState v.mem.st m l :=
    Option.some.inj (hst.symm.trans hlive.state)
  subst hstate
  have hget := msgGet_qdbAckState l (hid ▸ hm)
  have hmem : { m with state := .acked, leaseId := 0, leaseExpiryUs := 0 } ∈
      (qdbAckState v.mem.st m l).msgs :=
    hsmall'.inv.wf.shows.rep.mem_msgs.mpr hget
  exact ⟨_, hmem, rfl⟩

/-- The calls that leave an acknowledged, a leased and a pending message. -/
def reclaimActs : List Act :=
  [.call ⟨0, .openDb 0⟩ none (.code .ok),
    .call ⟨0, .push roundQueue (.buf [])⟩ (some 1) (.code .ok),
    .call ⟨0, .push roundQueue (.buf [])⟩ (some 2) (.code .ok),
    .call ⟨0, .push roundQueue (.buf [])⟩ (some 3) (.code .ok),
    .call ⟨0, .pop roundQueue true⟩ (some 4) (.msg ⟨1, 1, roundName, [], 0⟩),
    .call ⟨0, .pop roundQueue true⟩ (some 4) (.msg ⟨2, 2, roundName, [], 0⟩),
    .call ⟨0, .ack 1 1⟩ (some 4) (.code .ok)]

/-- The leased and the pending message of `reclaimActs`. -/
def reclaimed : Broker where
  session := some (leaseTimeoutOf 0)
  nextMsgId := 4
  nextLeaseId := 3
  queue := Function.update (fun _ => []) roundName [roundMessage 3 0]
  lease := Function.update (fun _ => none) 2
    (some ⟨roundMessage 2 0, leaseTimeoutOf 0⟩)

theorem reclaimed_eq : ((((((Broker.created.push roundBody).push
      roundBody).push roundBody).deliver roundName (roundMessage 1 0)
      (0 + leaseTimeoutOf 0)).deliver roundName (roundMessage 2 0)
      (0 + leaseTimeoutOf 0)).drop 1) = reclaimed := by
  refine Broker.ext rfl rfl rfl ?_ ?_
  · funext n
    by_cases hn : n = roundName
    · subst hn
      decide
    · simp [Broker.drop, Broker.deliver, Broker.push, Broker.created,
        Broker.new, reclaimed, roundBody, hn]
  · funext l
    change Function.update (Function.update (Function.update (fun _ => none) 1
      (some (⟨roundMessage 1 0, 0 + leaseTimeoutOf 0⟩ : Held))) 2
      (some ⟨roundMessage 2 0, 0 + leaseTimeoutOf 0⟩)) 1 none l = _
    rw [Function.update_comm (by decide), Function.update_idem,
      Function.update_eq_self]
    rfl

/-- With two leases of different messages the first one is the only lease of
its message. -/
theorem Held.unique {x z y : Held} {l₁ l₂ l : UInt64}
    (hne : z.msg.id ≠ x.msg.id)
    (hy : Function.update (Function.update (fun _ => none) l₁ (some x)) l₂
      (some z) l = some y) (hid : y.msg.id = x.msg.id) : l = l₁ := by
  by_cases hl : l = l₂
  · rw [hl, Function.update_self] at hy
    cases hy
    exact absurd hid hne
  · rw [Function.update_of_ne hl] at hy
    exact Held.single hy

theorem exists_reclaim : ∃ s,
    Run Sys.CountedReturns Sys.init reclaimActs s ∧
      s.ShowsSmall reclaimed (7 * maxRecord) ∧
      ∀ db st, s.db = some db → db.state = some st →
        ∃ m ∈ st.msgs, m.state = .acked := by
  obtain ⟨s₁, h1, hs₁⟩ := Sys.ShowsSmall.create
  obtain ⟨_, s₂, _, h2, hs₂, hpush⟩ := hs₁.call (by decide) (by decide)
    (by decide) (.push roundQueue (.buf [])) (fun _ => rfl)
  obtain ⟨rfl, rfl⟩ := hpush.push_inv rfl pushArg_round
  obtain ⟨_, s₃, _, h3, hs₃, hpush⟩ := hs₂.call (by decide) (by decide)
    (by decide) (.push roundQueue (.buf [])) (fun _ => rfl)
  obtain ⟨rfl, rfl⟩ := hpush.push_inv rfl pushArg_round
  obtain ⟨_, s₄, _, h4, hs₄, hpush⟩ := hs₃.call (by decide) (by decide)
    (by decide) (.push roundQueue (.buf [])) (fun _ => rfl)
  obtain ⟨rfl, rfl⟩ := hpush.push_inv rfl pushArg_round
  obtain ⟨_, s₅, _, h5, hs₅, hpop⟩ := hs₄.call (by decide) (by decide)
    (by decide) (.pop roundQueue true) (fun _ => rfl)
  obtain ⟨rfl, rfl⟩ := hpop.pop_inv (m := roundMessage 1 0) rfl queueArg_round
    ⟨by decide, by unfold seen32; decide⟩
  obtain ⟨_, s₆, _, h6, hs₆, hpop⟩ := hs₅.call (by decide) (by decide)
    (by decide) (.pop roundQueue true) (fun _ => rfl)
  obtain ⟨rfl, rfl⟩ := hpop.pop_inv (m := roundMessage 2 0) rfl queueArg_round
    ⟨by decide, by unfold seen32; decide⟩
  obtain ⟨_, s₇, _, h7, hs₇, hack⟩ := hs₆.call (by decide) (by decide)
    (by decide) (.ack 1 1) (fun _ => rfl)
  obtain ⟨rfl, rfl⟩ := hack.ack_inv (x := ⟨roundMessage 1 0, _⟩) rfl rfl rfl
    (fun _ _ hy => Held.unique (x := ⟨roundMessage 1 0, _⟩)
      (z := ⟨roundMessage 2 0, _⟩) (by decide) hy)
  refine ⟨s₇, ((((((Run.nil.snoc h1).snoc h2).snoc h3).snoc h4).snoc h5).snoc
    h6).snoc h7, ?_, ?_⟩
  · exact reclaimed_eq ▸ hs₇
  · intro db st hdb hst
    exact hs₆.acked (by decide) (by decide) (by decide) (l := 1)
      (x := ⟨roundMessage 1 0, _⟩) rfl h7.2.inv.2 hdb hst

/-- The pop and the acknowledgement that follow. -/
def laterActs : List Act :=
  [.call ⟨0, .pop roundQueue true⟩ (some 4) (.msg ⟨3, 3, roundName, [], 0⟩),
    .call ⟨0, .ack 2 2⟩ (some 4) (.code .ok)]

theorem Sys.ShowsSmall.later {s : Sys} {k : Nat}
    (h : s.ShowsSmall reclaimed k) (hk : k + maxRecord ≤ 2 ^ 62) :
    ∃ t, Run Sys.CountedReturns s laterActs t := by
  obtain ⟨_, s₁, _, h1, hs₁, hpop⟩ := h.call (le_trans (Nat.le_add_right ..) hk)
    (by decide) (by decide) (.pop roundQueue true) (fun _ => rfl)
  obtain ⟨rfl, rfl⟩ := hpop.pop_inv (m := roundMessage 3 0) rfl queueArg_round
    ⟨by decide, by unfold seen32; decide⟩
  obtain ⟨_, s₂, _, h2, -, hack⟩ := hs₁.call hk (by decide) (by decide)
    (.ack 2 2) (fun _ => rfl)
  obtain ⟨rfl, -⟩ := hack.ack_inv (x := ⟨roundMessage 2 0, _⟩) rfl rfl rfl
    (fun _ _ hy => Held.unique (x := ⟨roundMessage 2 0, _⟩)
      (z := ⟨roundMessage 3 0, _⟩) (by decide) hy)
  exact ⟨s₂, (Run.nil.snoc h1).snoc h2⟩

/-- No message of `reclaimActs` has a retry count. -/
theorem reclaimed_compacted : reclaimed.compacted = reclaimed := by
  refine Broker.ext rfl rfl rfl ?_ ?_
  · funext n
    by_cases hn : n = roundName
    · subst hn
      decide
    · simp [Broker.compacted, reclaimed, hn]
  · funext l
    by_cases hl : l = 2
    · subst hl
      rfl
    · simp [Broker.compacted, reclaimed, hl]

/-- A compaction behind `reclaimActs`. -/
theorem Sys.ShowsSmall.reclaims {s : Sys} {k : Nat}
    (h : s.ShowsSmall reclaimed k) :
    ∃ s', s.CountedReturns (.call ⟨0, .compact⟩ (some 4) (.code .ok)) s' ∧
      s'.ShowsSmall reclaimed (5 * maxRecord) := by
  have hqueue : ∀ n, ∀ m ∈ reclaimed.queue n, m.id ∈ ([3, 2] : List UInt64) := by
    intro n m hm
    by_cases hn : n = roundName
    · subst hn
      rw [List.mem_singleton.mp hm]
      exact List.mem_cons_self
    · simp [reclaimed, hn] at hm
  have hlease : ∀ l x, reclaimed.lease l = some x →
      x.msg.id ∈ ([3, 2] : List UInt64) := by
    intro l x hx
    by_cases hl : l = 2
    · subst hl
      cases hx
      decide
    · simp [reclaimed, hl] at hx
  obtain ⟨s', hret, hs'⟩ := h.compact (by decide) (by decide) hqueue hlease
    (by decide)
  exact ⟨s', hret, reclaimed_compacted ▸ hs'⟩

/-- A compaction keeps the queues, and calls after it return what they would
have returned without it. -/
theorem compact_keeps_behaviour {as : List Act} {s s' : Sys} {now : UInt64}
    (hrun : Run Sys.CountedReturns Sys.init as s) (hn : s.Counting)
    (hs : s.step ⟨now, .compact⟩ = some (.code .ok, s')) :
    s.Compacts s' ∧
    ∀ bs bs' t t', Run Sys.CountedReturns s bs t → Run Sys.Returns s' bs' t' →
      bs.map Act.event = bs'.map Act.event → (∀ a ∈ bs, a.Ordinary) →
      (∀ a ∈ bs', a.Ordinary) → bs.map Act.forget = bs'.map Act.forget ∧
        ∀ e, ∃ res u, t'.step e = some (res, u) := by
  obtain ⟨b, hb⟩ := Sys.recounts hrun
  obtain ⟨hcompacts, hb'⟩ := hb.shows.compacts hn hs
  refine ⟨hcompacts, ?_⟩
  intro bs bs' t t' h h' he ho ho'
  obtain ⟨hacts, -, b', -, ht', -⟩ := hb.shows.alike_run hb'
    Broker.compacted_compacted.symm h h' he ho ho'
  exact ⟨hacts, fun e => ht'.progress e⟩

/-- A compaction between a lease and its acknowledgement. -/
theorem compact_keeps_behaviour_reclaimed : ∃ s s' t t',
    Run Sys.CountedReturns Sys.init reclaimActs s ∧
      s.step ⟨0, .compact⟩ = some (.code .ok, s') ∧ s.Compacts s' ∧
      Run Sys.CountedReturns s laterActs t ∧
      Run Sys.Returns s' laterActs t' ∧
      ∀ e, ∃ res u, t'.step e = some (res, u) := by
  obtain ⟨s, hrun, hs, -⟩ := exists_reclaim
  obtain ⟨s', ⟨hn, hret⟩, hs'⟩ := hs.reclaims
  obtain ⟨t, hbs⟩ := hs.later (by decide)
  obtain ⟨t', hbs'⟩ := hs'.later (by decide)
  have hbs'' := hbs'.mono fun _ _ _ => Sys.CountedReturns.returns
  have hord : ∀ a ∈ laterActs, a.Ordinary := by
    intro a ha
    rcases List.mem_pair.mp ha with rfl | rfl
    · exact ⟨trivial, by decide⟩
    · exact ⟨trivial, by decide⟩
  obtain ⟨hcompacts, hlater⟩ := compact_keeps_behaviour hrun hn hret.inv.2
  exact ⟨s, s', t, t', hrun, hret.inv.2, hcompacts, hbs, hbs'',
    (hlater _ _ t t' hbs hbs'' rfl hord hord).2⟩

/-- A compaction after the last lease id restarts the lease counter. -/
theorem compact_changes_counter : ∃ s s' db db',
    Run Sys.Returns Sys.init (leaseActs 0 0 ++
      (roundActs 0xFFFFFFFFFFFFFFFD 0xFFFFFFFFFFFFFFFF).take 3) s ∧
    s.step ⟨0, .compact⟩ = some (.code .ok, s') ∧ s.db = some db ∧
    s'.db = some db' ∧ db.nextLeaseId = 0 ∧ db'.nextLeaseId = 1 ∧
    ¬ s.Compacts s' := by
  obtain ⟨s1, hrun, hidle⟩ := exists_last_lease 0 0
  obtain ⟨s2, h2, hpushed⟩ := hidle.push (by decide) (by decide)
  obtain ⟨s3, h3, hpopped⟩ :=
    hpushed.pop (by decide) (by decide) (by decide)
  obtain ⟨s4, v, c, h4, his, hwf, he, hm, hl⟩ := hpopped.ack_step (by decide)
  obtain ⟨s5, h5, v', c', hsmall, -, -, hl'⟩ := compact_restarts his hwf he hl
  obtain ⟨db, i, hdb, hlive⟩ := his
  obtain ⟨db', i', hdb', hlive'⟩ := hsmall.is
  have h0 : db.nextLeaseId = 0 := hlive.nextLeaseId.trans hl
  have h1 : db'.nextLeaseId = 1 := hlive'.nextLeaseId.trans hl'
  refine ⟨s4, s5, db, db', ?_, h5.inv.2, hdb, hdb', h0, h1, ?_⟩
  · exact (hrun.mono (fun _ _ _ => Sys.CountedReturns.returns)).trans
      (((Run.nil.snoc h2.2).snoc h3.2).snoc h4)
  · rintro ⟨db₁, db₂, st, st', hdb₁, hdb₂, -, -, hc⟩
    rw [hdb] at hdb₁
    rw [hdb'] at hdb₂
    cases hdb₁
    cases hdb₂
    have hkeep := hc.nextLeaseId
    rw [h0, h1] at hkeep
    exact absurd hkeep (by decide)

end Qdb
