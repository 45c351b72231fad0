import Qdb.Ids

/-!
# What a run says about the messages

`pushes`, `pops` and `ackedIds` read off a run which messages were pushed, which
were delivered and which were acknowledged.  `Broker.Effect` says what a call
does to queues and leases, and `Hist` is the invariant that connects the two: a
message is in a queue or under a lease exactly if it was pushed and not
acknowledged.
-/

namespace Qdb

open Lib

/-- The message a push has stored that returned `QDB_OK`. -/
def Act.pushed : Act → Option Message
  | .call ⟨_, .push queue data⟩ (some id) (.code .ok) =>
      (pushArg queue data).map fun body => ⟨id, body.name, body.data, 0⟩
  | _ => none

/-- The message a pop has returned. -/
def Act.popped : Act → Option QMsg
  | .call _ _ (.msg m) => some m
  | _ => none

/-- The message an acknowledgement has removed. -/
def Act.ackedId : Act → Option UInt64
  | .call ⟨_, .ack id _⟩ _ (.code .ok) => some id
  | _ => none

/-- The call is a compaction that succeeds. -/
def Act.Compacts : Act → Prop
  | .call e _ res => e.call = .compact ∧ res = .code .ok
  | .crash _ => False

/-- The messages pushed in a run. -/
def pushes (as : List Act) : List Message :=
  as.filterMap Act.pushed

/-- The messages delivered in a run. -/
def pops (as : List Act) : List QMsg :=
  as.filterMap Act.popped

/-- The messages acknowledged in a run. -/
def ackedIds (as : List Act) : List UInt64 :=
  as.filterMap Act.ackedId

theorem Act.pushed_id {a : Act} {m : Message} (h : a.pushed = some m) :
    a.pushedId = some m.id := by
  unfold Act.pushed at h
  split at h
  · obtain ⟨body, -, rfl⟩ := Option.map_eq_some_iff.mp h
    rfl
  · cases h

theorem mem_pushedIds {as : List Act} {m : Message} (h : m ∈ pushes as) :
    m.id ∈ pushedIds as := by
  obtain ⟨a, ha, hp⟩ := List.mem_filterMap.mp h
  exact List.mem_filterMap.mpr ⟨a, ha, Act.pushed_id hp⟩

/-- The act neither pushes, delivers nor acknowledges a message. -/
structure Act.Quiet (a : Act) : Prop where
  pushed : a.pushed = none
  popped : a.popped = none
  ackedId : a.ackedId = none

theorem Act.quiet_of {e : Event} {id : Option UInt64} {res : Result}
    (h1 : ¬ (res = .code .ok ∧ ∃ q d, e.call = .push q d))
    (h2 : ∀ m, res ≠ .msg m)
    (h3 : ¬ (res = .code .ok ∧ ∃ i l, e.call = .ack i l)) :
    (Act.call e id res).Quiet := by
  obtain ⟨now, call⟩ := e
  refine ⟨?_, ?_, ?_⟩
  · unfold Act.pushed
    split
    · next heq =>
      cases heq
      exact absurd ⟨rfl, _, _, rfl⟩ h1
    · rfl
  · unfold Act.popped
    split
    · next heq =>
      cases heq
      exact absurd rfl (h2 _)
    · rfl
  · unfold Act.ackedId
    split
    · next heq =>
      cases heq
      exact absurd ⟨rfl, _, _, rfl⟩ h3
    · rfl

theorem Act.not_compacts_of_pushed {a : Act} {k : Message} (h : a.pushed = some k) :
    ¬ a.Compacts := by
  intro hc
  cases a with
  | crash e =>
      exact hc
  | call e id res =>
      obtain ⟨now, call⟩ := e
      obtain ⟨hcall, -⟩ := hc
      cases hcall
      cases h

theorem Act.not_compacts_of_popped {a : Act} {q : QMsg} (h : a.popped = some q) :
    ¬ a.Compacts := by
  intro hc
  cases a with
  | crash e =>
      exact hc
  | call e id res =>
      obtain ⟨-, hres⟩ := hc
      cases hres
      cases h

theorem Act.not_compacts_of_acked {a : Act} {id : UInt64}
    (h : a.ackedId = some id) :
    ¬ a.Compacts := by
  intro hc
  cases a with
  | crash e =>
      exact hc
  | call e id res =>
      obtain ⟨now, call⟩ := e
      obtain ⟨hcall, -⟩ := hc
      cases hcall
      cases h

namespace Broker

/-- What an act does to the queues and the leases. -/
inductive Effect : Broker → Act → Broker → Prop
  | same {b b' : Broker} {a : Act} (ha : a.Quiet) (hc : ¬ a.Compacts)
      (hq : b'.queue = b.queue) (hl : b'.lease = b.lease) : Effect b a b'
  | push {b : Broker} {a : Act} {body : Body}
      (ha : a.pushed = some (b.pushed body)) (hpop : a.popped = none)
      (hack : a.ackedId = none) (hn : b.nextMsgId ≠ 0) :
      Effect b a (b.push body)
  | deliver {b : Broker} {a : Act} {n : QueueName} {m : Message} {e : UInt64}
      (ha : a.popped = some (b.delivery m)) (hpush : a.pushed = none)
      (hack : a.ackedId = none) (hn : b.nextLeaseId ≠ 0)
      (hm : (b.queue n).head? = some m) :
      Effect b a (b.deliver n m e)
  | drop {b : Broker} {a : Act} {l : UInt64} {x : Held}
      (ha : a.ackedId = some x.msg.id) (hpush : a.pushed = none)
      (hpop : a.popped = none) (hx : b.lease l = some x) :
      Effect b a (b.drop l)
  | requeue {b : Broker} {a : Act} {ls : List (UInt64 × Held)} (ha : a.Quiet)
      (hc : ¬ a.Compacts) (hnodup : (ls.map Prod.fst).Nodup)
      (hls : ∀ l x, (l, x) ∈ ls → b.lease l = some x) :
      Effect b a (b.requeueAll ls)
  | compact {b : Broker} {a : Act} (ha : a.Quiet) (hc : a.Compacts) :
      Effect b a b.compacted

/-- A message is in a queue or under a lease. -/
def Has (b : Broker) (m : Message) : Prop :=
  (∃ n, m ∈ b.queue n) ∨ ∃ l e, b.lease l = some ⟨m, e⟩

/-- Every message is in one place only, and the counters are above the ids. -/
structure Sound (b : Broker) : Prop where
  queue : ∀ n, ∀ m ∈ b.queue n, m.queue = n
  nodup : ∀ n, ((b.queue n).map Message.id).Nodup
  apart : ∀ n, ∀ m ∈ b.queue n, ∀ n', ∀ m' ∈ b.queue n', m.id = m'.id → n = n'
  held : ∀ n, ∀ m ∈ b.queue n, ∀ l x, b.lease l = some x → m.id ≠ x.msg.id
  lease : ∀ l x l' x', b.lease l = some x → b.lease l' = some x' →
    x.msg.id = x'.msg.id → l = l'
  below : b.nextMsgId ≠ 0 → ∀ m, b.Has m → m.id < b.nextMsgId
  leaseBelow : b.nextLeaseId ≠ 0 → ∀ l x, b.lease l = some x →
    l < b.nextLeaseId

section Effects

variable {seen : Nat → Prop} {now : UInt64} {call : Call} {res : Result}
variable {b b' : Broker}

/-- What a call does that succeeds or is refused by its checks. -/
theorem Step.effect (h : b.Step seen now call res b') (hn : b.Counting) :
    b.Effect (.call ⟨now, call⟩ (b.session.map fun _ => b.nextMsgId) res) b' := by
  cases h with
  | null hs hcall =>
      refine .same (Act.quiet_of ?_ ?_ ?_) ?_ rfl rfl
      · rintro ⟨hres, q, d, hc⟩
        cases hc
        cases hres
      · intro m
        cases call <;> simp [nullResult]
      · rintro ⟨hres, i, l, hc⟩
        cases hc
        cases hres
      · rintro ⟨hc, hres⟩
        cases hc
        cases hres
  | push hs harg =>
      obtain ⟨t, ht⟩ := Option.isSome_iff_exists.mp hs
      refine .push ?_ rfl rfl (hn hs).1
      rw [ht]
      simp [Act.pushed, harg, Broker.pushed]
  | pop hs harg hm =>
      exact .deliver rfl rfl rfl (hn (by rw [hs]; rfl)).2 hm.1
  | popAny hs hm _ =>
      exact .deliver rfl rfl rfl (hn (by rw [hs]; rfl)).2 hm.1
  | noent _ hcall _ =>
      exact .same (Act.quiet_of (by simp) (by simp) (by simp))
        (by simp [Act.Compacts]) rfl rfl
  | inval _ hcall _ _ _ =>
      exact .same (Act.quiet_of (by simp) (by simp) (by simp))
        (by simp [Act.Compacts]) rfl rfl
  | ack _ hx hid =>
      exact .drop (congrArg some hid.symm) rfl rfl hx
  | @nack id l x _ hx hid =>
      have heq : b.requeue l x.msg = b.requeueAll [(l, x)] := rfl
      rw [heq]
      refine .requeue ⟨rfl, rfl, rfl⟩ (by simp [Act.Compacts])
        (List.nodup_singleton _) ?_
      intro l' x' hmem
      cases List.mem_singleton.mp hmem
      exact hx
  | expire _ hls =>
      exact .requeue ⟨rfl, rfl, rfl⟩ (by simp [Act.Compacts]) hls.nodup
        (fun l x hmem => ((hls.mem l x).mp hmem).1)
  | compact _ =>
      exact .compact ⟨rfl, rfl, rfl⟩ ⟨rfl, rfl⟩
  | _ =>
      exact .same (Act.quiet_of (by simp) (by simp) (by simp))
        (by simp [Act.Compacts]) rfl rfl

/-- What a call does that returns `QDB_ERR_IO`. -/
theorem Refused.effect (h : b.Refused now call b') {id : Option UInt64} :
    b.Effect (.call ⟨now, call⟩ id (.code .errIo)) b' := by
  have hquiet : (Act.call ⟨now, call⟩ id (.code .errIo)).Quiet :=
    Act.quiet_of (by simp) (by simp) (by simp)
  cases h with
  | same _ _ =>
      exact .same hquiet (by simp [Act.Compacts]) rfl rfl
  | expire hls =>
      refine .requeue hquiet (by simp [Act.Compacts]) ?_ ?_
      · have hnodup := hls.nodup
        rw [List.map_append] at hnodup
        exact hnodup.of_append_left
      · intro l x hmem
        exact ((hls.mem l x).mp (List.mem_append_left _ hmem)).1

theorem Returns.effect {a : Act} (h : b.Returns a b') : b.Effect a b' := by
  obtain ⟨hn, hends⟩ := h
  rcases hends with ⟨-, hstep⟩ | ⟨rfl, href⟩
  · exact hstep.effect hn
  · exact href.effect

end Effects

theorem requeueAll_lease (b : Broker) (ls : List (UInt64 × Held)) (l : UInt64) :
    (b.requeueAll ls).lease l =
      if l ∈ ls.map Prod.fst then none else b.lease l := by
  induction ls generalizing b with
  | nil =>
      rfl
  | cons x ls ih =>
      rw [requeueAll_cons, ih]
      by_cases hl : l ∈ ls.map Prod.fst
      · rw [if_pos hl, if_pos (by rw [List.map_cons]; exact List.mem_cons_of_mem _ hl)]
      · rw [if_neg hl]
        by_cases hx : l = x.1
        · subst hx
          simp [requeue]
        · simp [requeue, hl, hx]

theorem requeueAll_queue (b : Broker) (ls : List (UInt64 × Held))
    (n : QueueName) :
    (b.requeueAll ls).queue n = b.queue n ++
      (ls.filter fun x => x.2.msg.queue = n).map fun x => x.2.msg.retried := by
  induction ls generalizing b with
  | nil =>
      simp [requeueAll]
  | cons x ls ih =>
      rw [requeueAll_cons, ih]
      by_cases hn : x.2.msg.queue = n
      · subst hn
        simp [requeue]
      · simp [requeue, hn, Function.update_of_ne (Ne.symm hn)]

section Places

variable {b b' : Broker} {a : Act} {m : Message}

theorem Has.of_mem {n : QueueName} (h : m ∈ b.queue n) : b.Has m :=
  Or.inl ⟨n, h⟩

theorem Has.of_lease {l : UInt64} {x : Held} (h : b.lease l = some x) :
    b.Has x.msg :=
  Or.inr ⟨l, x.expiryUs, h⟩

theorem Sound.lease_next (h : b.Sound) (hn : b.nextLeaseId ≠ 0) :
    b.lease b.nextLeaseId = none := by
  cases hx : b.lease b.nextLeaseId with
  | none =>
      rfl
  | some x =>
      exact absurd (h.leaseBelow hn _ x hx) (UInt64.lt_irrefl _)

/-- A message stays unless it is acknowledged. -/
theorem Effect.keeps (h : b.Effect a b') (hs : b.Sound) (hm : b.Has m)
    (hack : a.ackedId ≠ some m.id) : ∃ m', b'.Has m' ∧ m'.fresh = m.fresh := by
  cases h with
  | same ha _ hq hl =>
      unfold Has
      rw [hq, hl]
      exact ⟨m, hm, rfl⟩
  | @push _ body ha _ _ _ =>
      refine ⟨m, ?_, rfl⟩
      rcases hm with ⟨n, hmem⟩ | hm
      · refine Or.inl ⟨n, ?_⟩
        by_cases hn : n = body.name
        · subst hn
          simp [Broker.push, hmem]
        · simp [Broker.push, hn, hmem]
      · exact Or.inr hm
  | @deliver _ n k e ha _ _ hn hk =>
      refine ⟨m, ?_, rfl⟩
      obtain ⟨ks, hks⟩ := List.head?_eq_some_iff.mp hk
      rcases hm with ⟨n', hmem⟩ | ⟨l, e', hl⟩
      · by_cases hn' : n' = n
        · subst hn'
          rw [hks] at hmem
          rcases List.mem_cons.mp hmem with rfl | hmem
          · exact Or.inr ⟨b.nextLeaseId, e, Function.update_self _ _ _⟩
          · refine Or.inl ⟨n', ?_⟩
            simp [Broker.deliver, hks, hmem]
        · refine Or.inl ⟨n', ?_⟩
          simp [Broker.deliver, hn', hmem]
      · refine Or.inr ⟨l, e', ?_⟩
        have hne : l ≠ b.nextLeaseId := by
          rintro rfl
          rw [hs.lease_next hn] at hl
          cases hl
        simp [Broker.deliver, hne, hl]
  | @drop _ l x ha _ _ hx =>
      refine ⟨m, ?_, rfl⟩
      rcases hm with ⟨n, hmem⟩ | ⟨l', e', hl⟩
      · exact Or.inl ⟨n, hmem⟩
      · refine Or.inr ⟨l', e', ?_⟩
        have hne : l' ≠ l := by
          rintro rfl
          rw [hx] at hl
          cases hl
          exact hack ha
        simp [Broker.drop, hne, hl]
  | @requeue _ ls ha _ hnodup hls =>
      rcases hm with ⟨n, hmem⟩ | ⟨l, e, hl⟩
      · refine ⟨m, Or.inl ⟨n, ?_⟩, rfl⟩
        rw [requeueAll_queue]
        exact List.mem_append_left _ hmem
      · by_cases hin : l ∈ ls.map Prod.fst
        · obtain ⟨⟨l', x⟩, hx, rfl⟩ := List.mem_map.mp hin
          have heq := (hls _ x hx).symm.trans hl
          cases heq
          refine ⟨m.retried, Or.inl ⟨m.queue, ?_⟩, rfl⟩
          rw [requeueAll_queue]
          refine List.mem_append_right _
            (List.mem_map.mpr ⟨(l', ⟨m, e⟩), ?_, rfl⟩)
          exact List.mem_filter.mpr ⟨hx, by simp⟩
        · refine ⟨m, Or.inr ⟨l, e, ?_⟩, rfl⟩
          rw [requeueAll_lease, if_neg hin, hl]
  | compact _ _ =>
      refine ⟨m.fresh, ?_, rfl⟩
      rcases hm with ⟨n, hmem⟩ | ⟨l, e, hl⟩
      · exact Or.inl ⟨n, List.mem_map_of_mem hmem⟩
      · refine Or.inr ⟨l, e, ?_⟩
        simp [Broker.compacted, hl, Held.fresh]

/-- Where a message comes from that is there after an act. -/
inductive Origin (b : Broker) (a : Act) (b' : Broker) (m' : Message) : Prop
  | kept (hm : b.Has m') (hack : a.ackedId ≠ some m'.id) (hc : ¬ a.Compacts)
      (hl : ∀ l x, b.lease l = some x → x.msg.id = m'.id → b'.lease l = some x)
  | retried (m : Message) (l e : UInt64) (hl : b.lease l = some ⟨m, e⟩)
      (h : m' = m.retried) (hl' : b'.lease l = none) (ha : a.Quiet)
      (hc : ¬ a.Compacts)
  | compacted (m : Message) (hm : b.Has m) (h : m' = m.fresh) (ha : a.Quiet)
      (hc : a.Compacts)
  | pushed (hp : a.pushed = some m') (hn : b.nextMsgId ≠ 0)
      (hid : m'.id = b.nextMsgId) (hack : a.ackedId = none)
      (hc : ¬ a.Compacts)

theorem Effect.origin (h : b.Effect a b') (hs : b.Sound) (hm : b'.Has m) :
    Origin b a b' m := by
  cases h with
  | same ha hc hq hl =>
      unfold Has at hm
      rw [hq, hl] at hm
      exact .kept hm (by rw [ha.ackedId]; simp) hc
        (fun l x hx _ => by rw [hl]; exact hx)
  | @push _ body ha _ hack hn =>
      have hc := Act.not_compacts_of_pushed ha
      have hold : b.Has m → Origin b a (b.push body) m := fun hm =>
        .kept hm (by rw [hack]; simp) hc (fun l x hx _ => hx)
      rcases hm with ⟨n, hmem⟩ | hm
      · by_cases hname : n = body.name
        · subst hname
          simp only [Broker.push, Function.update_self, List.mem_append,
            List.mem_singleton] at hmem
          rcases hmem with hmem | rfl
          · exact hold (.of_mem hmem)
          · exact .pushed ha hn rfl hack hc
        · simp only [Broker.push, Function.update_of_ne hname] at hmem
          exact hold (.of_mem hmem)
      · exact hold (Or.inr hm)
  | @deliver _ n k e ha _ hack hn hk =>
      have hc := Act.not_compacts_of_popped ha
      refine .kept ?_ (by rw [hack]; simp) hc ?_
      · rcases hm with ⟨n', hmem⟩ | ⟨l, e', hl⟩
        · by_cases hn' : n' = n
          · subst hn'
            simp only [Broker.deliver, Function.update_self] at hmem
            exact .of_mem (List.mem_of_mem_tail hmem)
          · simp only [Broker.deliver, Function.update_of_ne hn'] at hmem
            exact .of_mem hmem
        · by_cases hne : l = b.nextLeaseId
          · subst hne
            simp only [Broker.deliver, Function.update_self,
              Option.some.injEq, Held.mk.injEq] at hl
            rw [← hl.1]
            exact .of_mem (List.mem_of_head? hk)
          · simp only [Broker.deliver, Function.update_of_ne hne] at hl
            exact .of_lease hl
      · intro l x hx _
        have hne : l ≠ b.nextLeaseId := by
          rintro rfl
          rw [hs.lease_next hn] at hx
          cases hx
        simp [Broker.deliver, hne, hx]
  | @drop _ l x ha _ _ hx =>
      have hc := Act.not_compacts_of_acked ha
      have hne : x.msg.id ≠ m.id := by
        intro heq
        rcases hm with ⟨n, hmem⟩ | ⟨l', e', hl⟩
        · exact hs.held n m hmem l x hx heq.symm
        · by_cases hne : l' = l
          · subst hne
            simp [Broker.drop] at hl
          · simp only [Broker.drop, Function.update_of_ne hne] at hl
            exact hne (hs.lease _ _ _ _ hl hx heq.symm)
      refine .kept ?_ ?_ hc ?_
      · rcases hm with ⟨n, hmem⟩ | ⟨l', e', hl⟩
        · exact .of_mem hmem
        · by_cases hne : l' = l
          · subst hne
            simp [Broker.drop] at hl
          · simp only [Broker.drop, Function.update_of_ne hne] at hl
            exact .of_lease hl
      · rw [ha]
        exact fun heq => hne (Option.some.inj heq)
      · intro l' y hy hid
        have hne' : l' ≠ l := by
          rintro rfl
          rw [hx] at hy
          cases hy
          exact hne hid
        simp [Broker.drop, hne', hy]
  | @requeue _ ls ha hc hnodup hls =>
      rcases hm with ⟨n, hmem⟩ | ⟨l, e, hl⟩
      · rw [requeueAll_queue] at hmem
        rcases List.mem_append.mp hmem with hmem | hmem
        · refine .kept (.of_mem hmem) (by rw [ha.ackedId]; simp) hc ?_
          intro l x hx hid
          exact absurd hid.symm (hs.held n m hmem l x hx)
        · obtain ⟨⟨l, x⟩, hx, rfl⟩ := List.mem_map.mp hmem
          have hin := (List.mem_filter.mp hx).1
          refine .retried x.msg l x.expiryUs (hls l x hin) rfl ?_ ha hc
          rw [requeueAll_lease, if_pos (List.mem_map_of_mem hin)]
      · rw [requeueAll_lease] at hl
        split at hl
        · cases hl
        · next hout =>
          refine .kept (.of_lease hl) (by rw [ha.ackedId]; simp) hc ?_
          intro l' x hx hid
          have heq : l' = l := hs.lease _ _ _ _ hx hl hid
          subst heq
          rw [requeueAll_lease, if_neg hout]
          exact hx
  | compact ha hc =>
      rcases hm with ⟨n, hmem⟩ | ⟨l, e, hl⟩
      · obtain ⟨m', hm', rfl⟩ := List.mem_map.mp hmem
        exact .compacted m' (.of_mem hm') rfl ha hc
      · obtain ⟨x, hx, heq⟩ := Option.map_eq_some_iff.mp hl
        cases heq
        exact .compacted x.msg (.of_lease hx) rfl ha hc

/-- The message was there before, or it is the one that is pushed. -/
theorem Origin.inv (h : Origin b a b' m) :
    (∃ m', b.Has m' ∧ m'.fresh = m.fresh ∧ a.ackedId ≠ some m'.id) ∨
      (a.pushed = some m ∧ b.nextMsgId ≠ 0 ∧ m.id = b.nextMsgId) := by
  cases h with
  | kept hm hack _ _ =>
      exact Or.inl ⟨m, hm, rfl, hack⟩
  | retried k l e hl heq _ ha _ =>
      refine Or.inl ⟨k, .of_lease hl, ?_, by rw [ha.ackedId]; simp⟩
      rw [heq]
      rfl
  | compacted k hm heq ha _ =>
      refine Or.inl ⟨k, hm, ?_, by rw [ha.ackedId]; simp⟩
      rw [heq]
      rfl
  | pushed hp hn hid _ _ =>
      exact Or.inr ⟨hp, hn, hid⟩

end Places

end Broker

/-- The history of a run and the queues and leases at its end. -/
structure Hist (as : List Act) (b : Broker) : Prop where
  pushed : ∀ m, b.Has m → m.fresh ∈ pushes as
  present : ∀ m ∈ pushes as, m.id ∉ ackedIds as →
    ∃ m', b.Has m' ∧ m'.fresh = m
  acked : ∀ id ∈ ackedIds as, id ∈ pushedIds as ∧ ∀ m, b.Has m → m.id ≠ id

theorem Act.pushed_fresh {a : Act} {m : Message} (h : a.pushed = some m) :
    m.fresh = m := by
  unfold Act.pushed at h
  split at h
  · obtain ⟨body, -, rfl⟩ := Option.map_eq_some_iff.mp h
    rfl
  · cases h

namespace Hist

variable {as : List Act} {a : Act} {b b' : Broker}

theorem nil : Hist [] Broker.new := by
  refine ⟨?_, by simp [pushes], by simp [ackedIds]⟩
  rintro m (⟨n, hm⟩ | ⟨l, e, hl⟩)
  · cases hm
  · cases hl

theorem mem_pushes {m : Message} :
    m ∈ pushes (as ++ [a]) ↔ m ∈ pushes as ∨ a.pushed = some m := by
  simp [pushes, List.filterMap_append, List.mem_filterMap]

theorem mem_acked {id : UInt64} :
    id ∈ ackedIds (as ++ [a]) ↔ id ∈ ackedIds as ∨ a.ackedId = some id := by
  simp [ackedIds, List.filterMap_append, List.mem_filterMap]

theorem mem_pushedIds_snoc {id : UInt64} :
    id ∈ pushedIds (as ++ [a]) ↔ id ∈ pushedIds as ∨ a.pushedId = some id := by
  simp [pushedIds, List.filterMap_append, List.mem_filterMap]

/-- What is acknowledged was there. -/
theorem ack_has (h : b.Effect a b') {id : UInt64} (hack : a.ackedId = some id) :
    ∃ m, b.Has m ∧ m.id = id := by
  cases h with
  | same ha _ _ _ =>
      rw [ha.ackedId] at hack
      cases hack
  | push _ _ hnone _ =>
      rw [hnone] at hack
      cases hack
  | deliver _ _ hnone _ _ =>
      rw [hnone] at hack
      cases hack
  | drop ha _ _ hx =>
      rw [ha] at hack
      cases hack
      exact ⟨_, .of_lease hx, rfl⟩
  | requeue ha _ _ _ =>
      rw [ha.ackedId] at hack
      cases hack
  | compact ha _ =>
      rw [ha.ackedId] at hack
      cases hack

/-- What is pushed is there afterwards. -/
theorem push_has (h : b.Effect a b') {m : Message} (hp : a.pushed = some m) :
    b'.Has m := by
  cases h with
  | same ha _ _ _ =>
      rw [ha.pushed] at hp
      cases hp
  | @push _ body ha _ _ _ =>
      rw [ha] at hp
      cases hp
      refine .of_mem (n := body.name) ?_
      simp [Broker.push]
  | deliver _ hnone _ _ _ =>
      rw [hnone] at hp
      cases hp
  | drop _ hnone _ _ =>
      rw [hnone] at hp
      cases hp
  | requeue ha _ _ _ =>
      rw [ha.pushed] at hp
      cases hp
  | compact ha _ =>
      rw [ha.pushed] at hp
      cases hp

theorem step (h : Hist as b) (hs : b.Sound) (hids : Issued (pushedIds as) b.nextMsgId)
    (he : b.Effect a b') : Hist (as ++ [a]) b' := by
  refine ⟨?_, ?_, ?_⟩
  · intro m hm
    rw [mem_pushes]
    rcases (he.origin hs hm).inv with ⟨m', hm', heq, -⟩ | ⟨hp, -, -⟩
    · rw [← heq]
      exact Or.inl (h.pushed m' hm')
    · rw [Act.pushed_fresh hp]
      exact Or.inr hp
  · intro m hm hack
    rw [mem_acked, not_or] at hack
    rcases mem_pushes.mp hm with hm | hp
    · obtain ⟨k, hk, rfl⟩ := h.present m hm hack.1
      exact he.keeps hs hk hack.2
    · exact ⟨m, push_has he hp, Act.pushed_fresh hp⟩
  · intro id hid
    have hold : id ∈ pushedIds as ∧ (∀ m, b.Has m → m.id = id →
        a.ackedId = some id) := by
      rcases mem_acked.mp hid with hid | hid
      · obtain ⟨h1, h2⟩ := h.acked id hid
        exact ⟨h1, fun m hm heq => absurd heq (h2 m hm)⟩
      · obtain ⟨m, hm, rfl⟩ := ack_has he hid
        have hin : m.fresh.id ∈ pushedIds as := mem_pushedIds (h.pushed m hm)
        exact ⟨hin, fun _ _ _ => hid⟩
    refine ⟨mem_pushedIds_snoc.mpr (Or.inl hold.1), ?_⟩
    intro m hm heq
    rcases (he.origin hs hm).inv with ⟨m', hm', hf, hne⟩ | ⟨-, hn, hid'⟩
    · have hid' : m'.fresh.id = m.fresh.id := congrArg Message.id hf
      change m'.id = m.id at hid'
      rw [hid'] at hne
      exact hne (heq ▸ hold.2 m' hm' (hid'.trans heq))
    · have hlt := (hids.below id hold.1).2 hn
      rw [← hid', heq] at hlt
      exact UInt64.lt_irrefl _ hlt

end Hist

section Sound

variable {v : View} {c : Content} {o : Option UInt64}

theorem View.Wf.mem_queue (h : v.Wf c) {n : QueueName} {m : Message} :
    m ∈ (v.broker c o).queue n ↔
      ∃ x, x.id ∈ c.pend n ∧ c.msg x.id = some x ∧ m = v.message x := by
  obtain ⟨xs, h1, h2, h3⟩ := h.queue_eq (o := o) n
  rw [h1, ← h2]
  constructor
  · intro hm
    obtain ⟨x, hx, rfl⟩ := List.mem_map.mp hm
    exact ⟨x, List.mem_map_of_mem hx, (h3 x hx).1, rfl⟩
  · rintro ⟨x, hx, hmsg, rfl⟩
    obtain ⟨y, hy, hid⟩ := List.mem_map.mp hx
    have heq := (h3 y hy).1
    rw [hid, hmsg] at heq
    cases heq
    exact List.mem_map_of_mem hy

theorem View.Inv.sound (h : v.Inv c) : (v.broker c o).Sound := by
  have hwf := h.wf
  refine ⟨?_, ?_, ?_, ?_, ?_, ?_, ?_⟩
  · intro n m hm
    obtain ⟨x, hx, hmsg, rfl⟩ := hwf.mem_queue.mp hm
    obtain ⟨y, hy, -, hq, -⟩ := hwf.pend_get hx
    rw [hmsg] at hy
    cases hy
    exact hq
  · intro n
    obtain ⟨xs, h1, h2, -⟩ := hwf.queue_eq (o := o) n
    rw [h1, List.map_map]
    change (xs.map Msg.id).Nodup
    rw [h2]
    exact hwf.pend_nodup n
  · intro n m hm n' m' hm' hid
    obtain ⟨x, hx, hmsg, rfl⟩ := hwf.mem_queue.mp hm
    obtain ⟨x', hx', hmsg', rfl⟩ := hwf.mem_queue.mp hm'
    have hid : x.id = x'.id := hid
    rw [← hid, hmsg] at hmsg'
    cases hmsg'
    by_contra hne
    obtain ⟨y, hy, -, hq, -⟩ := hwf.pend_get hx
    rw [hmsg] at hy
    cases hy
    exact hwf.not_pend_other hmsg (fun h' => hne (hq.symm.trans h'.symm)) hx'
  · intro n m hm l k hk hid
    obtain ⟨x, hx, hmsg, rfl⟩ := hwf.mem_queue.mp hm
    obtain ⟨y, hy, hs, -, rfl⟩ := hwf.lease_eq.mp hk
    have hid : x.id = y.id := hid
    rw [hid] at hx
    exact hwf.not_pend hy (by rw [hs]; simp) n hx
  · intro l k l' k' hk hk' hid
    obtain ⟨y, hy, -, rfl, rfl⟩ := hwf.lease_eq.mp hk
    obtain ⟨y', hy', -, rfl, rfl⟩ := hwf.lease_eq.mp hk'
    have hid : y.id = y'.id := hid
    rw [hid, hy'] at hy
    cases hy
    rfl
  · intro hn m hm
    rcases hm with ⟨n, hm⟩ | ⟨l, e, hl⟩
    · obtain ⟨x, -, hmsg, rfl⟩ := hwf.mem_queue.mp hm
      exact h.bounded.msg hn x.id (by rw [hmsg]; rfl)
    · obtain ⟨y, hy, -, -, heq⟩ := hwf.lease_eq.mp hl
      cases heq
      exact h.bounded.msg hn y.id (by rw [hy]; rfl)
  · intro hn l k hk
    obtain ⟨y, hy, hs, rfl, rfl⟩ := hwf.lease_eq.mp hk
    exact h.bounded.lease hn y.leaseId (by rw [hwf.msg_lease hy hs]; rfl)

theorem Broker.sound_new : Broker.new.Sound := by
  refine ⟨?_, ?_, ?_, ?_, ?_, ?_, ?_⟩
  · intro n m hm
    cases hm
  · intro n
    exact List.nodup_nil
  · intro n m hm
    cases hm
  · intro n m hm
    cases hm
  · intro l x l' x' hx
    cases hx
  · rintro - m (⟨n, hm⟩ | ⟨l, e, hl⟩)
    · cases hm
    · cases hl
  · intro _ l x hx
    cases hx

theorem Sys.Shows.sound {s : Sys} {b : Broker} (h : s.Shows b) : b.Sound := by
  obtain ⟨ph, -, hph⟩ := h
  cases ph with
  | absent =>
      cases hph
      exact Broker.sound_new
  | broken =>
      exact hph.elim
  | closed d =>
      obtain ⟨mem, c, -, hinv, rfl⟩ := hph
      exact hinv.sound
  | opened v =>
      obtain ⟨c, hinv, rfl⟩ := hph
      exact hinv.sound

end Sound

/-- The machine at the end of a run and what the run says. -/
structure Sys.Recounts (as : List Act) (s : Sys) (b : Broker) : Prop where
  shows : s.Shows b
  hist : Hist as b
  msgs : Issued (pushedIds as) b.nextMsgId
  leases : Issued (leasedIds as) b.nextLeaseId

theorem Sys.Recounts.init : Sys.Recounts [] Sys.init Broker.new :=
  ⟨.init, .nil, issued_nil _, issued_nil _⟩

theorem Sys.Recounts.returns {as : List Act} {a : Act} {s s' : Sys} {b : Broker}
    (h : Sys.Recounts as s b) (hs : s.CountedReturns a s') :
    ∃ b', b.Returns a b' ∧ Sys.Recounts (as ++ [a]) s' b' := by
  obtain ⟨b', hr, hb'⟩ := h.shows.returns hs
  obtain ⟨hm, hl⟩ := (Broker.Next.returns hr).moves
  exact ⟨b', hr, hb', h.hist.step h.shows.sound h.msgs hr.effect,
    h.msgs.moves hm, h.leases.moves hl⟩

/-- Every fault-free run. -/
theorem Sys.recounts {as : List Act} {s : Sys}
    (hrun : Run Sys.CountedReturns Sys.init as s) :
    ∃ b, Sys.Recounts as s b := by
  refine hrun.invariant (P := fun as s => ∃ b, Sys.Recounts as s b)
    ⟨_, .init⟩ ?_
  rintro as s a s' - ⟨b, hb⟩ hs
  obtain ⟨b', -, hb'⟩ := hb.returns hs
  exact ⟨b', hb'⟩

end Qdb
