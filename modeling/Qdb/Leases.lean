import Qdb.Payload

/-!
# A lease is resolved once

A lease that a pop has returned is resolved by an acknowledgement, by a negative
acknowledgement or by expiry, and only by the first of these.  A resolution that
comes too late is refused and changes nothing.
-/

namespace Qdb

open Lib

/-- The message under the lease `l` in the tables of the open handle. -/
def Sys.leaseMsg (s : Sys) (l : UInt64) : Option UInt64 :=
  (s.db.bind Db.state).bind fun st => (st.leaseGet l).map Lease.msgId

/-- The call names the lease `l` and succeeds. -/
def Act.Settles (l : UInt64) : Act → Prop
  | .call ⟨_, .ack _ l'⟩ _ (.code .ok) => l' = l
  | .call ⟨_, .nack _ l'⟩ _ (.code .ok) => l' = l
  | _ => False

/-- The call expires leases. -/
def Act.Expires : Act → Prop
  | .call ⟨_, .processExpired⟩ _ _ => True
  | _ => False

theorem Act.Settles.inv {a : Act} {l : UInt64} (h : a.Settles l) :
    ∃ now id i, a = .call ⟨now, .ack id l⟩ i (.code .ok) ∨
      a = .call ⟨now, .nack id l⟩ i (.code .ok) := by
  unfold Act.Settles at h
  split at h
  · subst h
    exact ⟨_, _, _, Or.inl rfl⟩
  · subst h
    exact ⟨_, _, _, Or.inr rfl⟩
  · exact h.elim

theorem Act.Expires.inv {a : Act} (h : a.Expires) :
    ∃ now i res, a = .call ⟨now, .processExpired⟩ i res := by
  unfold Act.Expires at h
  split at h
  · exact ⟨_, _, _, rfl⟩
  · exact h.elim

/-- The step resolves the lease `l`. -/
def Resolves (l : UInt64) (x : Transition Sys Act) : Prop :=
  x.act.Settles l ∨
    (x.act.Expires ∧ (x.before.leaseMsg l).isSome ∧ x.after.leaseMsg l = none)

/-- The message under a lease of the abstract machine. -/
def Broker.leaseMsg (b : Broker) (l : UInt64) : Option UInt64 :=
  (b.lease l).map fun x => x.msg.id

theorem Sys.Shows.leaseMsg {s : Sys} {b : Broker} (h : s.Shows b)
    (hs : b.session.isSome) (l : UInt64) : s.leaseMsg l = b.leaseMsg l := by
  obtain ⟨ph, his, hph⟩ := h
  cases ph with
  | absent =>
      cases hph
      cases hs
  | broken =>
      exact hph.elim
  | closed d =>
      obtain ⟨mem, c, -, -, rfl⟩ := hph
      cases hs
  | opened v =>
      obtain ⟨db, i, hdb, hlive⟩ := his
      obtain ⟨c, hinv, rfl⟩ := hph
      unfold Sys.leaseMsg
      rw [hdb, Option.bind_some, hlive.state, Option.bind_some,
        hinv.wf.shows.lease]
      cases he : c.lease l with
      | none =>
          simp [Broker.leaseMsg, View.live, View.broker, he]
      | some e =>
          obtain ⟨x, hx, -, -, -⟩ := hinv.wf.lease_get he
          have hid := hinv.wf.key hx
          simp [Broker.leaseMsg, View.live, View.broker, he, hx, View.message,
            hid]

namespace Broker

variable {seen : Nat → Prop} {now : UInt64} {call : Call} {res : Result}
variable {b b' : Broker}

/-- What an act does to the lease `l`. -/
inductive LeaseEffect (b : Broker) (a : Act) (b' : Broker) (l : UInt64) : Prop
  | kept (h : b'.leaseMsg l = b.leaseMsg l) (hs : ¬ a.Settles l)
      (hp : ∀ q, a.popped = some q → q.leaseId ≠ l)
  | issued (q : QMsg) (hp : a.popped = some q) (hl : q.leaseId = l)
      (h : b.leaseMsg l = none) (h' : b'.leaseMsg l = some q.id)
      (hs : ¬ a.Settles l)
  | resolved (h : (b.leaseMsg l).isSome) (h' : b'.leaseMsg l = none)
      (hs : a.Settles l ∨ a.Expires) (hp : a.popped = none)

theorem leaseMsg_compacted (b : Broker) (l : UInt64) :
    b.compacted.leaseMsg l = b.leaseMsg l := by
  change ((b.lease l).map Held.fresh).map _ = _
  rw [Option.map_map]
  rfl

theorem leaseMsg_requeueAll (b : Broker) (ls : List (UInt64 × Held))
    (l : UInt64) :
    (b.requeueAll ls).leaseMsg l =
      if l ∈ ls.map Prod.fst then none else b.leaseMsg l := by
  unfold leaseMsg
  rw [requeueAll_lease]
  split <;> rfl

theorem LeaseEffect.of_same {a : Act} {l : UInt64} (h : b'.lease = b.lease)
    (hs : ¬ a.Settles l) (hp : a.popped = none) : LeaseEffect b a b' l := by
  refine .kept ?_ hs ?_
  · rw [leaseMsg, leaseMsg, h]
  · intro q hq
    rw [hp] at hq
    cases hq

theorem LeaseEffect.of_requeueAll {a : Act} {l : UInt64}
    {ls : List (UInt64 × Held)} (hls : ∀ l x, (l, x) ∈ ls → b.lease l = some x)
    (hs : ¬ a.Settles l) (he : a.Expires) (hp : a.popped = none) :
    LeaseEffect b a (b.requeueAll ls) l := by
  by_cases hl : l ∈ ls.map Prod.fst
  · obtain ⟨⟨l', x⟩, hx, rfl⟩ := List.mem_map.mp hl
    refine .resolved ?_ ?_ (Or.inr he) hp
    · rw [leaseMsg, hls _ x hx]
      rfl
    · rw [leaseMsg_requeueAll, if_pos hl]
  · refine .kept ?_ hs ?_
    · rw [leaseMsg_requeueAll, if_neg hl]
    · intro q hq
      rw [hp] at hq
      cases hq

theorem Step.leaseEffect (h : b.Step seen now call res b') (hsound : b.Sound)
    (hn : b.Counting) (l : UInt64) :
    LeaseEffect b (.call ⟨now, call⟩ (b.session.map fun _ => b.nextMsgId) res)
      b' l := by
  have hdeliver : ∀ {n m e}, b.session.isSome →
      ∀ {a : Act}, a.popped = some (b.delivery m) → ¬ a.Settles l →
      LeaseEffect b a (b.deliver n m e) l := by
    intro n m e hs a ha hno
    have hnone := hsound.lease_next (hn hs).2
    by_cases hl : l = b.nextLeaseId
    · subst hl
      refine .issued _ ha rfl ?_ ?_ hno
      · rw [leaseMsg, hnone]
        rfl
      · simp [leaseMsg, deliver, delivery]
    · refine .kept ?_ hno ?_
      · simp [leaseMsg, deliver, hl]
      · intro q hq
        rw [ha] at hq
        cases hq
        exact fun h => hl h.symm
  have hquiet : ∀ {a : Act}, ¬ a.Settles l → a.popped = none →
      LeaseEffect b a b l := fun hno hp => .of_same rfl hno hp
  cases h with
  | null hs hcall =>
      cases call <;> exact hquiet (fun h => h) rfl
  | pop hs harg hm =>
      exact hdeliver (by rw [hs]; rfl) rfl (fun h => h)
  | popAny hs hm _ =>
      exact hdeliver (by rw [hs]; rfl) rfl (fun h => h)
  | noent _ hcall _ =>
      rcases hcall with rfl | rfl <;> exact hquiet (fun h => h) rfl
  | inval _ hcall _ _ _ =>
      rcases hcall with rfl | rfl <;> exact hquiet (fun h => h) rfl
  | @ack id l' x _ hx hid =>
      by_cases hl : l' = l
      · subst hl
        refine .resolved ?_ ?_ (Or.inl rfl) rfl
        · rw [leaseMsg, hx]
          rfl
        · simp [leaseMsg, drop]
      · refine .kept ?_ hl (fun q hq => by cases hq)
        simp [leaseMsg, drop, Ne.symm hl]
  | @nack id l' x _ hx hid =>
      by_cases hl : l' = l
      · subst hl
        refine .resolved ?_ ?_ (Or.inl rfl) rfl
        · rw [leaseMsg, hx]
          rfl
        · simp [leaseMsg, requeue]
      · refine .kept ?_ hl (fun q hq => by cases hq)
        simp [leaseMsg, requeue, Ne.symm hl]
  | expire _ hls =>
      exact .of_requeueAll (fun l x hmem => ((hls.mem l x).mp hmem).1)
        (fun h => h) trivial rfl
  | compact _ =>
      exact .kept (b.leaseMsg_compacted l) (fun h => h)
        (fun q hq => by cases hq)
  | push _ _ =>
      exact .of_same rfl (fun h => h) rfl
  | openDb t hs =>
      exact .of_same rfl (fun h => h) rfl
  | close hs =>
      exact .of_same rfl (fun h => h) rfl
  | _ =>
      exact hquiet (fun h => h) rfl

theorem Refused.leaseEffect (h : b.Refused now call b') (id : Option UInt64)
    (l : UInt64) :
    LeaseEffect b (.call ⟨now, call⟩ id (.code .errIo)) b' l := by
  cases h with
  | same _ _ =>
      cases call <;> exact .of_same rfl (fun h => h) rfl
  | expire hls =>
      exact .of_requeueAll
        (fun l x hmem => ((hls.mem l x).mp (List.mem_append_left _ hmem)).1)
        (fun h => h) trivial rfl

theorem Returns.leaseEffect {a : Act} (h : b.Returns a b') (hsound : b.Sound)
    (l : UInt64) : LeaseEffect b a b' l := by
  obtain ⟨hn, hends⟩ := h
  rcases hends with ⟨-, hstep⟩ | ⟨rfl, href⟩
  · exact hstep.leaseEffect hsound hn l
  · exact href.leaseEffect _ l

end Broker

section Steps

variable {s s' : Sys} {b b' : Broker} {a : Act} {l : UInt64}

theorem Sys.leaseMsg_none (h : s.db = none) (l : UInt64) :
    s.leaseMsg l = none := by
  rw [Sys.leaseMsg, h]
  rfl

theorem Broker.Returns.session_expires (h : b.Returns a b') (ha : a.Expires) :
    b'.session = b.session := by
  obtain @⟨e, res, _, -, hends⟩ := h
  obtain ⟨now, call⟩ := e
  rcases hends with ⟨-, hstep⟩ | ⟨rfl, href⟩
  · cases hstep with
    | openDb _ _ =>
        exact ha.elim
    | close _ =>
        exact ha.elim
    | expire _ _ =>
        exact (b.requeueAll_counters _).2.2
    | _ =>
        rfl
  · exact href.counters.2.2

/-- A lease expires only through an open handle. -/
theorem Sys.Shows.expires_open (h : s.Shows b) (hs : s.CountedReturns a s')
    (hb : b.Returns a b') (ha : a.Expires)
    (hne : b'.leaseMsg l ≠ b.leaseMsg l) : b.session.isSome := by
  by_contra hno
  have hdb : s.db = none := by
    rw [h.session_isSome] at hno
    exact Option.not_isSome_iff_eq_none.mp hno
  obtain ⟨-, @⟨e, res, _, hstep⟩⟩ := hs
  obtain ⟨now, call⟩ := e
  cases call with
  | processExpired =>
      have hres : res = .code .errInval := by
        rw [Sys.step, hdb] at hstep
        exact (congrArg Prod.fst (Option.some.inj hstep)).symm
      subst hres
      generalize hact : Act.call ⟨now, .processExpired⟩ s.nextId
        (.code .errInval) = x at hb
      cases hb with
      | call hn hends =>
          injection hact with he hid hres
          subst he hres
          rcases hends with ⟨-, hstep⟩ | ⟨hio, -⟩
          · cases hstep with
            | null _ _ =>
                exact hne rfl
            | inval _ hcall _ _ _ =>
                exact hne rfl
          · cases hio
  | _ =>
      exact ha.elim

/-- What a step of the machine resolves. -/
theorem Sys.Shows.resolves_iff (h : s.Shows b) (h' : s'.Shows b')
    (hs : s.CountedReturns a s') (hb : b.Returns a b') (l : UInt64) :
    Resolves l ⟨s, a, s'⟩ ↔ (b.leaseMsg l).isSome ∧ b'.leaseMsg l = none := by
  have hbefore : (s.leaseMsg l).isSome →
      b.session.isSome ∧ s.leaseMsg l = b.leaseMsg l := by
    intro hsome
    have hopen : b.session.isSome := by
      rw [h.session_isSome]
      by_contra hno
      rw [s.leaseMsg_none (Option.not_isSome_iff_eq_none.mp hno)] at hsome
      cases hsome
    exact ⟨hopen, h.leaseMsg hopen l⟩
  constructor
  · rintro (hset | ⟨hexp, hsome, hnone⟩)
    · cases hb.leaseEffect h.sound l with
      | kept _ hno _ =>
          exact absurd hset hno
      | issued _ _ _ _ _ hno =>
          exact absurd hset hno
      | resolved h1 h2 _ _ =>
          exact ⟨h1, h2⟩
    · obtain ⟨hopen, heq⟩ := hbefore hsome
      have hopen' : b'.session.isSome := by
        rw [hb.session_expires hexp]
        exact hopen
      rw [← h'.leaseMsg hopen']
      exact ⟨heq ▸ hsome, hnone⟩
  · rintro ⟨h1, h2⟩
    cases hb.leaseEffect h.sound l with
    | kept heq _ _ =>
        rw [← heq, h2] at h1
        cases h1
    | issued q _ _ hnone _ _ =>
        rw [hnone] at h1
        cases h1
    | resolved _ _ hor _ =>
        rcases hor with hset | hexp
        · exact Or.inl hset
        · have hopen := h.expires_open hs hb hexp (l := l) (by
            rw [h2]
            intro heq
            rw [← heq] at h1
            cases h1)
          have hopen' : b'.session.isSome := by
            rw [hb.session_expires hexp]
            exact hopen
          refine Or.inr ⟨hexp, ?_, ?_⟩
          · rw [h.leaseMsg hopen]
            exact h1
          · rw [h'.leaseMsg hopen']
            exact h2

end Steps

theorem Act.leasedId_eq (a : Act) :
    a.leasedId = a.popped.map QMsg.leaseId := by
  cases a with
  | call e id res =>
      cases res <;> rfl
  | crash e =>
      rfl

/-- What a run says about the leases, and the leases at its end. -/
structure Leasing (xs : List (Transition Sys Act)) (s : Sys) (b : Broker) :
    Prop where
  recounts : Sys.Recounts (xs.map Transition.act) s b
  held : ∀ q ∈ pops (xs.map Transition.act),
    (∀ x ∈ xs, ¬ Resolves q.leaseId x) → b.leaseMsg q.leaseId = some q.id
  unresolved : ∀ l, (b.leaseMsg l).isSome →
    l ∈ leasedIds (xs.map Transition.act) ∧ ∀ x ∈ xs, ¬ Resolves l x
  issued : ∀ x ∈ xs, ∀ l, Resolves l x → l ∈ leasedIds (xs.map Transition.act)
  once : ∀ l, xs.Pairwise fun x y => ¬ (Resolves l x ∧ Resolves l y)

namespace Leasing

variable {xs : List (Transition Sys Act)} {x : Transition Sys Act} {s s' : Sys}
variable {b : Broker}

theorem init : Leasing [] Sys.init Broker.new := by
  refine ⟨.init, ?_, ?_, ?_, ?_⟩
  · intro q hq
    cases hq
  · intro l hl
    cases hl
  · intro x hx
    cases hx
  · intro l
    exact List.Pairwise.nil

theorem step (h : Leasing xs s b) (hs : Traced Sys.CountedReturns s x s') :
    ∃ b', Leasing (xs ++ [x]) s' b' := by
  obtain ⟨s₀, a, s₁⟩ := x
  obtain ⟨h0, h1, hs⟩ := hs
  change s₀ = s at h0
  change s₁ = s' at h1
  subst h0 h1
  have hs : s₀.CountedReturns a s₁ := hs
  obtain ⟨b', hr, hb'⟩ := h.recounts.returns hs
  have hiff := h.recounts.shows.resolves_iff hb'.shows hs hr
  have hcases := hr.leaseEffect h.recounts.shows.sound
  have hlids : ∀ l, l ∈ leasedIds
      ((xs ++ [(⟨s₀, a, s₁⟩ : Transition Sys Act)]).map Transition.act) ↔
      l ∈ leasedIds (xs.map Transition.act) ∨ a.leasedId = some l := by
    intro l
    simp [leasedIds, List.filterMap_append, List.mem_filterMap]
  -- the lease id that is issued next has not been issued before
  have hnew : ∀ q, a.popped = some q →
      q.leaseId ∉ leasedIds (xs.map Transition.act) := by
    intro q hq hmem
    obtain ⟨-, hm⟩ := (Broker.Next.returns hr).moves
    have hid : a.leasedId = some q.leaseId := by
      rw [a.leasedId_eq, hq]
      rfl
    rcases hm with ⟨-, hnone⟩ | ⟨hn, -, hnone | hsome⟩
    · rw [hid] at hnone
      cases hnone
    · rw [hid] at hnone
      cases hnone
    · rw [hid] at hsome
      have hlt := (h.recounts.leases.below _ hmem).2 hn
      rw [Option.some.inj hsome] at hlt
      exact UInt64.lt_irrefl _ hlt
  have hsnoc : ∀ l, (∀ y ∈ xs ++ [(⟨s₀, a, s₁⟩ : Transition Sys Act)],
      ¬ Resolves l y) ↔
      (∀ y ∈ xs, ¬ Resolves l y) ∧ ¬ Resolves l ⟨s₀, a, s₁⟩ := by
    intro l
    simp [or_imp, forall_and]
  refine ⟨b', ?_, ?_, ?_, ?_, ?_⟩
  · rw [List.map_append]
    exact hb'
  · intro q hq hno
    obtain ⟨hold, hlast⟩ := (hsnoc _).mp hno
    rw [List.map_append, pops, List.filterMap_append, List.mem_append] at hq
    rcases hq with hq | hq
    · have hbefore := h.held q hq hold
      cases hcases q.leaseId with
      | kept heq _ _ =>
          rw [heq]
          exact hbefore
      | issued q' hp hl hnone _ _ =>
          rw [hbefore] at hnone
          cases hnone
      | resolved h1 h2 _ _ =>
          exact absurd ((hiff _).mpr ⟨h1, h2⟩) hlast
    · have hp : a.popped = some q := by simpa using hq
      cases hcases q.leaseId with
      | kept _ _ hne =>
          exact absurd rfl (hne q hp)
      | issued q' hp' _ _ h' _ =>
          rw [hp] at hp'
          cases hp'
          exact h'
      | resolved _ _ _ hnone =>
          rw [hp] at hnone
          cases hnone
  · intro l hl
    rw [hlids, hsnoc, hiff]
    have hlast : ¬ ((b.leaseMsg l).isSome ∧ b'.leaseMsg l = none) := by
      rintro ⟨-, hnone⟩
      rw [hnone] at hl
      cases hl
    cases hcases l with
    | kept heq _ _ =>
        rw [heq] at hl
        obtain ⟨h1, h2⟩ := h.unresolved l hl
        exact ⟨Or.inl h1, h2, hlast⟩
    | issued q hp hq _ _ _ =>
        refine ⟨Or.inr ?_, ?_, hlast⟩
        · rw [a.leasedId_eq, hp, ← hq]
          rfl
        · intro y hy hres
          refine hnew q hp ?_
          rw [hq]
          exact h.issued y hy l hres
    | resolved _ hnone _ _ =>
        rw [hnone] at hl
        cases hl
  · intro y hy l hres
    rw [hlids]
    rcases List.mem_append.mp hy with hy | hy
    · exact Or.inl (h.issued y hy l hres)
    · cases List.mem_singleton.mp hy
      exact Or.inl (h.unresolved l ((hiff l).mp hres).1).1
  · intro l
    rw [List.pairwise_append]
    refine ⟨h.once l, List.pairwise_singleton _ _, ?_⟩
    rintro y hy z hz ⟨h1, h2⟩
    cases List.mem_singleton.mp hz
    exact (h.unresolved l ((hiff l).mp h2).1).2 y hy h1

theorem run (hrun : Run (Traced Sys.CountedReturns) Sys.init xs s) :
    ∃ b, Leasing xs s b := by
  refine hrun.invariant (P := fun xs s => ∃ b, Leasing xs s b) ⟨_, init⟩ ?_
  rintro xs s x s' - ⟨b, hb⟩ hs
  exact hb.step hs

end Leasing

/-- The message is not leased under `l`. -/
def State.Stale (st : State) (id l : UInt64) : Prop :=
  ∀ m, st.msgGet id = some m → m.state ≠ .leased ∨ m.leaseId ≠ l

/-- A stale resolution is refused before anything is touched. -/
theorem run_stale {db : Db} {st : State} (hst : db.state = some st)
    {id l : UInt64} (h : st.Stale id l) {call : Call}
    (hcall : call = .ack id l ∨ call = .nack id l) (w : World) :
    ∃ rc, (rc = .errNoent ∨ rc = .errInval) ∧
      Prog.run posix (callCmd (some db) call) w =
        some ((.code rc, some db), w) := by
  have hrun : ∀ type update, ∃ rc, (rc = .errNoent ∨ rc = .errInval) ∧
      resolveCall type update db id l = pure (rc, db) := by
    intro type update
    unfold resolveCall
    rw [hst]
    dsimp only
    cases hm : st.msgGet id with
    | none =>
        exact ⟨_, Or.inl rfl, rfl⟩
    | some m =>
        dsimp only
        by_cases hack : m.state = .acked
        · rw [if_pos hack]
          exact ⟨_, Or.inl rfl, rfl⟩
        · rw [if_neg hack]
          by_cases hl : m.state ≠ .leased
          · rw [if_pos hl]
            exact ⟨_, Or.inl rfl, rfl⟩
          · rw [if_neg hl, if_pos ((h m hm).resolve_left hl)]
            exact ⟨_, Or.inr rfl, rfl⟩
  rcases hcall with rfl | rfl
  · obtain ⟨rc, hrc, heq⟩ := hrun rtMsgAck qdbAckState
    refine ⟨rc, hrc, ?_⟩
    change Prog.run posix (qdbAck db id l >>= fun x =>
      pure (Result.code x.1, some x.2)) w = _
    rw [show qdbAck db id l = pure (rc, db) from heq]
    rfl
  · obtain ⟨rc, hrc, heq⟩ := hrun rtMsgNack qdbNackState
    refine ⟨rc, hrc, ?_⟩
    change Prog.run posix (qdbNack db id l >>= fun x =>
      pure (Result.code x.1, some x.2)) w = _
    rw [show qdbNack db id l = pure (rc, db) from heq]
    rfl

/-- Without a lease `l` every resolution that names it is stale. -/
theorem View.Wf.stale {v : View} {c : Content} (h : v.Wf c) {id l : UInt64}
    (hl : (v.live c).leaseMsg l = none) : v.mem.st.Stale id l := by
  intro m hm
  by_contra hno
  rw [not_or, not_not, not_not] at hno
  have hx := h.shows.msgGet hm
  have hlease := h.msg_lease hx hno.1
  have hsome : (v.live c).lease l = some _ :=
    h.lease_eq.mpr ⟨m.core, (by
      have hid := h.key hx
      rw [hid]
      exact hx), hno.1, hno.2, rfl⟩
  rw [Broker.leaseMsg, hsome] at hl
  cases hl

/-- A lease is resolved at most once; an acknowledgement of it succeeds as long
as it is not resolved, and is refused without any effect afterwards. -/
theorem lease_resolved_once {xs : List (Transition Sys Act)} {s : Sys}
    (hrun : Run (Traced Sys.CountedReturns) Sys.init xs s) :
    (∀ l, xs.Pairwise fun x y => ¬ (Resolves l x ∧ Resolves l y)) ∧
    ∀ q ∈ pops (xs.map Transition.act), ∀ call,
      call = .ack q.id q.leaseId ∨ call = .nack q.id q.leaseId →
      s.db.isSome → s.Counting → ∀ now res s',
      s.step ⟨now, call⟩ = some (res, s') →
      (res ≠ .code .errIo →
        (res = .code .ok ↔ ∀ x ∈ xs, ¬ Resolves q.leaseId x)) ∧
      ((∃ x ∈ xs, Resolves q.leaseId x) →
        (res = .code .errNoent ∨ res = .code .errInval) ∧
        s' = ⟨{ s.world with now := now }, s.db⟩) := by
  obtain ⟨b, hb⟩ := Leasing.run hrun
  refine ⟨hb.once, ?_⟩
  intro q hq call hcall hopen hn now res s' hstep
  have hshow := hb.recounts.shows
  have hstale : (∃ x ∈ xs, Resolves q.leaseId x) →
      (res = .code .errNoent ∨ res = .code .errInval) ∧
      s' = ⟨{ s.world with now := now }, s.db⟩ := by
    rintro ⟨x, hx, hres⟩
    have hnone : b.leaseMsg q.leaseId = none := by
      rw [← Option.not_isSome_iff_eq_none]
      intro hsome
      exact (hb.unresolved _ hsome).2 x hx hres
    obtain ⟨db, hdb⟩ := Option.isSome_iff_exists.mp hopen
    have hbroker := hshow.broker_eq hdb
    obtain ⟨st, hst, -⟩ : ∃ st, db.state = some st ∧
        db.broker s.world st = b := by
      rw [Sys.broker, hdb, Option.bind_some] at hbroker
      exact Option.map_eq_some_iff.mp hbroker
    obtain ⟨v, c, hinv, rfl, rfl⟩ := hshow.tables hdb hst
    obtain ⟨rc, hrc, hrun'⟩ := run_stale hst (hinv.wf.stale hnone) hcall
      { s.world with now := now }
    rw [Sys.step, hdb, hrun'] at hstep
    cases hstep
    refine ⟨?_, by rw [hdb]⟩
    rcases hrc with rfl | rfl
    · exact Or.inl rfl
    · exact Or.inr rfl
  refine ⟨fun hio => ⟨?_, ?_⟩, hstale⟩
  · rintro rfl x hx hres
    rcases (hstale ⟨x, hx, hres⟩).1 with h | h <;> cases h
  · intro hno
    have hheld := hb.held q hq hno
    obtain ⟨y, hy, hid⟩ := Option.map_eq_some_iff.mp hheld
    obtain ⟨b', hends, -⟩ := hshow.step hn hstep
    have hsess := hshow.session_isSome.mpr hopen
    have huniq : ∀ l' z, b.lease l' = some z → z.msg.id = q.id →
        l' = q.leaseId := by
      intro l' z hz hzid
      exact hshow.sound.lease _ _ _ _ hz hy (hzid.trans hid.symm)
    rcases hends with ⟨-, hbstep⟩ | ⟨hres, -⟩
    · rcases hcall with rfl | rfl
      · exact (hbstep.ack_inv hsess hy hid huniq).1
      · exact (hbstep.nack_inv hsess hy hid huniq).1
    · exact absurd hres hio

/-- The acknowledgement of a message that has just been popped. -/
theorem lease_resolved_once_round :
    ∃ xs s s', Run (Traced Sys.CountedReturns) Sys.init xs s ∧
      (⟨1, 1, roundName, [], 0⟩ : QMsg) ∈ pops (xs.map Transition.act) ∧
      s.step ⟨0, .ack 1 1⟩ = some (.code .ok, s') ∧
      ∀ x ∈ xs, ¬ Resolves 1 x := by
  obtain ⟨s₁, h1, hidle⟩ := Idle.create 0 0
  obtain ⟨s₂, h2, hpushed⟩ := hidle.push (by decide) (by decide)
  obtain ⟨s₃, h3, hpopped⟩ := hpushed.pop (by decide) (by decide) (by decide)
  obtain ⟨s₄, h4, -⟩ := hpopped.ack (by decide) (by decide) (by decide)
  obtain ⟨xs, hrun, hacts⟩ := (((Run.nil.snoc h1).snoc h2).snoc h3).traced
  have hmem : (⟨1, 1, roundName, [], 0⟩ : QMsg) ∈
      pops (xs.map Transition.act) := by
    rw [hacts]
    exact List.mem_singleton.mpr rfl
  obtain ⟨hn, hr⟩ := h4
  have hopen : s₃.db.isSome := by
    obtain ⟨v, c, e, hsmall, -⟩ := hpopped
    obtain ⟨db, i, hdb, -⟩ := hsmall.is
    rw [hdb]
    rfl
  have hstep := hr.inv.2
  have hall := (lease_resolved_once hrun).2 _ hmem _ (Or.inl rfl) hopen hn
    _ _ _ hstep
  exact ⟨xs, s₃, s₄, hrun, hmem, hstep, (hall.1 (by simp)).mp rfl⟩

/-- Once the lease counter has wrapped, a lease id that was resolved is accepted
for another message. -/
theorem lease_resolved_again :
    ¬ ∀ xs s, Run (Traced Sys.Returns) Sys.init xs s →
      ∀ q ∈ pops (xs.map Transition.act), ∀ now res s',
        s.step ⟨now, .ack q.id q.leaseId⟩ = some (res, s') →
        res ≠ .code .errIo →
        (res = .code .ok ↔ ∀ x ∈ xs, ¬ Resolves q.leaseId x) := by
  intro hall
  obtain ⟨s, hrun, hpopped⟩ := exists_lease_reuse
  obtain ⟨s', hack, -⟩ := hpopped.ack (by decide) (by decide) (by decide)
  obtain ⟨xs, hrun, hacts⟩ := hrun.traced
  have hmem : (⟨0xFFFFFFFFFFFFFFFE, 1, roundName, [], 0⟩ : QMsg) ∈
      pops (xs.map Transition.act) := by
    rw [hacts, reuseActs, pops, List.filterMap_append, List.filterMap_append]
    exact List.mem_append_right _ (List.mem_append_right _
      (List.mem_singleton.mpr rfl))
  have hnack : Act.call ⟨0, .nack 1 1⟩ (some 2) (.code .ok) ∈
      xs.map Transition.act := by
    rw [hacts, reuseActs, leaseActs]
    refine List.mem_append_left _ (List.mem_cons_of_mem _
      (List.mem_append_left _ ?_))
    exact List.mem_cons_of_mem _ (List.mem_cons_of_mem _ List.mem_cons_self)
  obtain ⟨x, hx, hact⟩ := List.mem_map.mp hnack
  obtain ⟨-, hr⟩ := hack
  have hiff := hall xs s hrun _ hmem _ _ _ hr.inv.2 (by simp)
  refine hiff.mp rfl x hx (Or.inl ?_)
  rw [hact]
  rfl

end Qdb
