import Qdb.Leases

/-!
# Delivery attempts

The retry count that a pop returns is the number of times the message has come
back to its queue since the last compaction: a compaction writes PUSH records
only, and replay starts them at zero.  It is the number of all returns exactly
if no compaction came after one of them.
-/

namespace Qdb

open Lib

/-- The call returns the message to its queue. -/
def Act.Nacks (id : UInt64) : Act → Prop
  | .call ⟨_, .nack id' _⟩ _ (.code .ok) => id' = id
  | _ => False

theorem Act.Nacks.inv {a : Act} {id : UInt64} (h : a.Nacks id) :
    ∃ now l i, a = .call ⟨now, .nack id l⟩ i (.code .ok) := by
  unfold Act.Nacks at h
  split at h
  · subst h
    exact ⟨_, _, _, rfl⟩
  · exact h.elim

/-- The step returns the message to its queue, by `qdb_nack` or by expiry. -/
def Returned (id : UInt64) (x : Transition Sys Act) : Prop :=
  x.act.Nacks id ∨
    (x.act.Expires ∧ ∃ l, x.before.leaseMsg l = some id ∧
      x.after.leaseMsg l = none)

open Classical in
/-- How often a run returns the message to its queue. -/
noncomputable def timesReturned (id : UInt64) (xs : List (Transition Sys Act)) :
    Nat :=
  xs.countP fun x => Returned id x

/-- No compaction comes after a return of the message. -/
def NeverCompacted (id : UInt64) (xs : List (Transition Sys Act)) : Prop :=
  xs.Pairwise fun x y => Returned id x → ¬ y.act.Compacts

open Classical in
/-- How often a run returns the message after its last compaction. -/
noncomputable def sinceCompact (id : UInt64)
    (xs : List (Transition Sys Act)) : Nat :=
  xs.foldl (fun n x =>
    if x.act.Compacts then 0 else if Returned id x then n + 1 else n) 0

section Counting

variable {id : UInt64} {xs : List (Transition Sys Act)}
variable {x : Transition Sys Act}

theorem Returned.not_compacts (h : Returned id x) : ¬ x.act.Compacts := by
  obtain ⟨s, a, s'⟩ := x
  intro hc
  cases a with
  | crash e =>
      exact hc
  | call e i res =>
      obtain ⟨now, call⟩ := e
      obtain ⟨hcall, -⟩ := hc
      cases hcall
      rcases h with h | ⟨h, -⟩ <;> exact h

theorem sinceCompact_compacts (h : x.act.Compacts) :
    sinceCompact id (xs ++ [x]) = 0 := by
  simp [sinceCompact, h]

theorem sinceCompact_returned (h : Returned id x) :
    sinceCompact id (xs ++ [x]) = sinceCompact id xs + 1 := by
  simp [sinceCompact, h, h.not_compacts]

theorem sinceCompact_other (hc : ¬ x.act.Compacts) (h : ¬ Returned id x) :
    sinceCompact id (xs ++ [x]) = sinceCompact id xs := by
  simp [sinceCompact, hc, h]

theorem timesReturned_returned (h : Returned id x) :
    timesReturned id (xs ++ [x]) = timesReturned id xs + 1 := by
  simp [timesReturned, h]

theorem timesReturned_other (h : ¬ Returned id x) :
    timesReturned id (xs ++ [x]) = timesReturned id xs := by
  simp [timesReturned, h]

theorem neverCompacted_snoc :
    NeverCompacted id (xs ++ [x]) ↔ NeverCompacted id xs ∧
      ∀ y ∈ xs, Returned id y → ¬ x.act.Compacts := by
  simp [NeverCompacted, List.pairwise_append]

/-- The two counts agree exactly if no compaction came after a return. -/
theorem sinceCompact_eq_iff (id : UInt64) (xs : List (Transition Sys Act)) :
    sinceCompact id xs ≤ timesReturned id xs ∧
      (sinceCompact id xs = timesReturned id xs ↔ NeverCompacted id xs) := by
  induction xs using List.reverseRecOn with
  | nil =>
      exact ⟨Nat.le_refl _, by simp [sinceCompact, timesReturned,
        NeverCompacted]⟩
  | append_singleton xs x ih =>
      obtain ⟨hle, hiff⟩ := ih
      rw [neverCompacted_snoc]
      by_cases hc : x.act.Compacts
      · have hr : ¬ Returned id x := fun hr => hr.not_compacts hc
        rw [sinceCompact_compacts hc, timesReturned_other hr]
        refine ⟨Nat.zero_le _, ?_⟩
        have hzero : 0 = timesReturned id xs ↔
            ∀ y ∈ xs, ¬ Returned id y := by
          rw [eq_comm, timesReturned, List.countP_eq_zero]
          simp
        rw [hzero]
        constructor
        · intro hno
          refine ⟨?_, fun y hy hr => absurd hr (hno y hy)⟩
          exact List.Pairwise.imp_of_mem
            (fun hy _ _ hr => absurd hr (hno _ hy)) (List.pairwise_of_forall
              (l := xs) (fun _ _ => trivial))
        · intro h y hy hr
          exact h.2 y hy hr hc
      · have hlast : ∀ y ∈ xs, Returned id y → ¬ x.act.Compacts :=
          fun _ _ _ => hc
        by_cases hr : Returned id x
        · rw [sinceCompact_returned hr, timesReturned_returned hr]
          refine ⟨Nat.succ_le_succ hle, ?_⟩
          rw [Nat.add_right_cancel_iff, hiff]
          exact ⟨fun h => ⟨h, hlast⟩, fun h => h.1⟩
        · rw [sinceCompact_other hc hr, timesReturned_other hr]
          refine ⟨hle, ?_⟩
          rw [hiff]
          exact ⟨fun h => ⟨h, hlast⟩, fun h => h.1⟩

theorem sinceCompact_eq_zero (h : ∀ x ∈ xs, ¬ Returned id x) :
    sinceCompact id xs = 0 := by
  have hle := (sinceCompact_eq_iff id xs).1
  have hzero : timesReturned id xs = 0 := by
    rw [timesReturned, List.countP_eq_zero]
    simpa using h
  omega

end Counting

section Steps

variable {s s' : Sys} {b b' : Broker} {a : Act} {id : UInt64}

/-- A negative acknowledgement names the message under its lease. -/
theorem Broker.Returns.nack_lease {now l : UInt64} {i : Option UInt64}
    (h : b.Returns (.call ⟨now, .nack id l⟩ i (.code .ok)) b') :
    b.leaseMsg l = some id := by
  obtain ⟨-, hends⟩ := h
  rcases hends with ⟨-, hstep⟩ | ⟨hio, -⟩
  · cases hstep with
    | nack _ hx hid =>
        rw [Broker.leaseMsg, hx, Option.map_some, hid]
  · cases hio

theorem Sys.leaseMsg_open (h : (s.leaseMsg id).isSome) : s.db.isSome := by
  by_contra hno
  rw [s.leaseMsg_none (Option.not_isSome_iff_eq_none.mp hno)] at h
  cases h

/-- What a step of the machine returns to a queue. -/
theorem Sys.Shows.returned_iff (h : s.Shows b) (h' : s'.Shows b')
    (hs : s.CountedReturns a s') (hb : b.Returns a b') :
    Returned id ⟨s, a, s'⟩ ↔
      (∃ l, b.leaseMsg l = some id ∧ b'.leaseMsg l = none) ∧
        a.ackedId = none := by
  have hresolves := h.resolves_iff h' hs hb
  constructor
  · rintro (hnack | ⟨hexp, l, h1, h2⟩)
    · obtain ⟨now, l, i, rfl⟩ := Act.Nacks.inv hnack
      exact ⟨⟨l, hb.nack_lease, ((hresolves l).mp (Or.inl rfl)).2⟩, rfl⟩
    · have hsome : (s.leaseMsg l).isSome := by
        change s.leaseMsg l = some id at h1
        rw [h1]
        rfl
      obtain ⟨h3, h4⟩ := (hresolves l).mp (Or.inr ⟨hexp, hsome, h2⟩)
      have hopen := h.session_isSome.mpr (Sys.leaseMsg_open hsome)
      rw [h.leaseMsg hopen] at h1
      obtain ⟨now, i, res, rfl⟩ := Act.Expires.inv hexp
      exact ⟨⟨l, h1, h4⟩, rfl⟩
  · rintro ⟨⟨l, h1, h2⟩, hack⟩
    have hres := (hresolves l).mpr ⟨by rw [h1]; rfl, h2⟩
    rcases hres with hset | ⟨hexp, hsome, hnone⟩
    · obtain ⟨now, id', i, rfl | rfl⟩ := Act.Settles.inv hset
      · cases hack
      · have heq := hb.nack_lease
        rw [h1] at heq
        cases heq
        exact Or.inl rfl
    · refine Or.inr ⟨hexp, l, ?_, hnone⟩
      have hopen := h.session_isSome.mpr (Sys.leaseMsg_open hsome)
      change s.leaseMsg l = some id
      rw [h.leaseMsg hopen, h1]

end Steps

theorem Broker.Has.of_leaseMsg {b : Broker} {l id : UInt64}
    (h : b.leaseMsg l = some id) : ∃ m, b.Has m ∧ m.id = id := by
  obtain ⟨x, hx, hid⟩ := Option.map_eq_some_iff.mp h
  exact ⟨x.msg, .of_lease hx, hid⟩

/-- What a run says about the retry counts, and those at its end. -/
structure Retrying (xs : List (Transition Sys Act)) (s : Sys) (b : Broker) :
    Prop where
  recounts : Sys.Recounts (xs.map Transition.act) s b
  count : ∀ m, b.Has m → m.retryCount = UInt32.ofNat (sinceCompact m.id xs)
  pushed : ∀ id, ∀ x ∈ xs, Returned id x →
    id ∈ pushedIds (xs.map Transition.act)

namespace Retrying

variable {xs : List (Transition Sys Act)} {x : Transition Sys Act} {s s' : Sys}
variable {b : Broker}

theorem init : Retrying [] Sys.init Broker.new := by
  refine ⟨.init, ?_, by simp⟩
  rintro m (⟨n, hm⟩ | ⟨l, e, hl⟩)
  · cases hm
  · cases hl

theorem step (h : Retrying xs s b) (hs : Traced Sys.CountedReturns s x s') :
    ∃ b', Retrying (xs ++ [x]) s' b' := by
  obtain ⟨s₀, a, s₁⟩ := x
  obtain ⟨h0, h1, hs⟩ := hs
  change s₀ = s at h0
  change s₁ = s' at h1
  subst h0 h1
  have hs : s₀.CountedReturns a s₁ := hs
  obtain ⟨b', hr, hb'⟩ := h.recounts.returns hs
  have hsound := h.recounts.shows.sound
  have hiff : ∀ id, Returned id ⟨s₀, a, s₁⟩ ↔ _ := fun _ =>
    h.recounts.shows.returned_iff hb'.shows hs hr
  have hin : ∀ id l, b.leaseMsg l = some id →
      id ∈ pushedIds (xs.map Transition.act) := by
    intro id l hl
    obtain ⟨k, hk, rfl⟩ := Broker.Has.of_leaseMsg hl
    have hmem : k.fresh.id ∈ pushedIds (xs.map Transition.act) :=
      mem_pushedIds (h.recounts.hist.pushed k hk)
    exact hmem
  refine ⟨b', ?_, ?_, ?_⟩
  · rw [List.map_append]
    exact hb'
  · intro m hm
    cases hr.effect.origin hsound hm with
    | kept hk _ hc hl =>
        have hno : ¬ Returned m.id ⟨s₀, a, s₁⟩ := by
          rw [hiff]
          rintro ⟨⟨l, h1, h2⟩, -⟩
          obtain ⟨y, hy, hid⟩ := Option.map_eq_some_iff.mp h1
          rw [Broker.leaseMsg, hl l y hy hid] at h2
          cases h2
        rw [sinceCompact_other hc hno]
        exact h.count m hk
    | retried k l e hl heq hl' ha hc =>
        have hyes : Returned k.id ⟨s₀, a, s₁⟩ := by
          rw [hiff]
          refine ⟨⟨l, ?_, ?_⟩, ha.ackedId⟩
          · rw [Broker.leaseMsg, hl]
            rfl
          · rw [Broker.leaseMsg, hl']
            rfl
        subst heq
        change k.retryCount + 1 = UInt32.ofNat (sinceCompact k.id _)
        rw [sinceCompact_returned hyes, h.count k (.of_lease hl),
          UInt32.ofNat_add]
        rfl
    | compacted k hk heq ha hc =>
        rw [sinceCompact_compacts hc, heq]
        rfl
    | pushed hp hn hid hack hc =>
        have hnew : m.id ∉ pushedIds (xs.map Transition.act) := by
          intro hmem
          have hlt := (h.recounts.msgs.below _ hmem).2 hn
          rw [hid] at hlt
          exact UInt64.lt_irrefl _ hlt
        have hno : ¬ Returned m.id ⟨s₀, a, s₁⟩ := by
          rw [hiff]
          rintro ⟨⟨l, h1, -⟩, -⟩
          exact hnew (hin _ l h1)
        rw [sinceCompact_other hc hno, sinceCompact_eq_zero
          (fun x hx hret => hnew (h.pushed _ x hx hret)),
          ← Act.pushed_fresh hp]
        rfl
  · intro id y hy hret
    rw [List.map_append]
    refine Hist.mem_pushedIds_snoc.mpr (Or.inl ?_)
    rcases List.mem_append.mp hy with hy | hy
    · exact h.pushed id y hy hret
    · cases List.mem_singleton.mp hy
      obtain ⟨⟨l, h1, -⟩, -⟩ := (hiff id).mp hret
      exact hin id l h1

theorem run (hrun : Run (Traced Sys.CountedReturns) Sys.init xs s) :
    ∃ b, Retrying xs s b := by
  refine hrun.invariant (P := fun xs s => ∃ b, Retrying xs s b) ⟨_, init⟩ ?_
  rintro xs s x s' - ⟨b, hb⟩ hs
  exact hb.step hs

end Retrying

/-- The retry count a pop returns is the number of times the message has come
back to its queue exactly if that number fits into 32 bits and no compaction
came after one of the returns. -/
theorem retry_count_exact {xs : List (Transition Sys Act)} {s : Sys}
    (hrun : Run (Traced Sys.CountedReturns) Sys.init xs s) :
    ∀ e id q s', s.CountedReturns (.call e id (.msg q)) s' →
      (q.retryCount.toNat = timesReturned q.id xs ↔
        timesReturned q.id xs < 2 ^ 32 ∧ NeverCompacted q.id xs) := by
  intro e id q s' hs
  obtain ⟨b, hb⟩ := Retrying.run hrun
  obtain ⟨n, m, hm, rfl⟩ := hb.recounts.shows.popped hs
  change m.retryCount.toNat = timesReturned m.id xs ↔ _
  obtain ⟨hle, hiff⟩ := sinceCompact_eq_iff m.id xs
  rw [hb.count m (.of_mem (List.mem_of_head? hm)), UInt32.toNat_ofNat']
  change _ ↔ timesReturned m.id xs < 2 ^ 32 ∧ NeverCompacted m.id xs
  rw [← hiff]
  omega

/-- The second delivery after one `qdb_nack`. -/
theorem retry_count_exact_nack :
    ∃ xs s s', Run (Traced Sys.CountedReturns) Sys.init xs s ∧
      s.CountedReturns (.call ⟨0, .pop roundQueue true⟩ (some 2)
        (.msg ⟨1, 2, roundName, [], 1⟩)) s' ∧
      NeverCompacted 1 xs ∧ timesReturned 1 xs = 1 := by
  obtain ⟨s₁, h1, hidle⟩ := Idle.create 0 0
  obtain ⟨s₂, h2, hpushed⟩ := hidle.push (by decide) (by decide)
  obtain ⟨s₃, h3, hpopped⟩ := hpushed.pop (by decide) (by decide) (by decide)
  obtain ⟨s₄, h4, hback⟩ := hpopped.nack (by decide) (by decide) (by decide)
  obtain ⟨s₅, h5, -⟩ := hback.pop (by decide) (by decide) (by decide)
  obtain ⟨xs, hrun, hacts⟩ :=
    ((((Run.nil.snoc h1).snoc h2).snoc h3).snoc h4).traced
  have hnever : NeverCompacted 1 xs := by
    refine List.Pairwise.imp_of_mem ?_
      (List.pairwise_of_forall (l := xs) (fun _ _ => trivial))
    intro x y _ hy _ _ hc
    have hmem : y.act ∈ xs.map Transition.act := List.mem_map_of_mem hy
    rw [hacts] at hmem
    simp only [List.nil_append, List.cons_append, List.mem_cons,
      List.not_mem_nil, or_false] at hmem
    rcases hmem with h | h | h | h <;> rw [h] at hc <;> cases hc.1
  have hlen : xs.length = 4 := by
    rw [← List.length_map Transition.act, hacts]
    rfl
  have hlt : timesReturned 1 xs < 2 ^ 32 := by
    refine lt_of_le_of_lt List.countP_le_length ?_
    rw [hlen]
    decide
  have heq := (retry_count_exact hrun _ _ _ _ h5).mpr ⟨hlt, hnever⟩
  exact ⟨xs, s₄, s₅, hrun, h5, hnever, heq.symm⟩

/-- A compaction resets the retry count of a pending message. -/
theorem retry_count_reset :
    ¬ ∀ xs s, Run (Traced Sys.Returns) Sys.init xs s →
      ∀ e id q s', s.Returns (.call e id (.msg q)) s' →
        q.retryCount.toNat = timesReturned q.id xs := by
  intro hall
  obtain ⟨s₁, h1, hidle⟩ := Idle.create 0 0
  obtain ⟨s₂, h2, hpushed⟩ := hidle.push (by decide) (by decide)
  obtain ⟨s₃, h3, hpopped⟩ := hpushed.pop (by decide) (by decide) (by decide)
  obtain ⟨s₄, h4, hback⟩ := hpopped.nack (by decide) (by decide) (by decide)
  obtain ⟨s₅, h5, hfresh⟩ := hback.compact (by decide) (by decide)
  obtain ⟨s₆, h6, -⟩ := hfresh.pop (by decide) (by decide) (by decide)
  obtain ⟨xs, hrun, hacts⟩ :=
    (((((Run.nil.snoc h1).snoc h2).snoc h3).snoc h4).snoc h5).traced
  have hrun' : Run (Traced Sys.Returns) Sys.init xs s₅ :=
    hrun.mono (fun _ _ _ h => ⟨h.1, h.2.1, h.2.2.2⟩)
  have hzero := hall xs s₅ hrun' _ _ _ s₆ h6.2
  have hnack : Act.call ⟨0, .nack 1 1⟩ (some 2) (.code .ok) ∈
      xs.map Transition.act := by
    rw [hacts]
    simp
  obtain ⟨x, hx, hact⟩ := List.mem_map.mp hnack
  have hret : Returned 1 x := by
    left
    rw [hact]
    rfl
  have hzero : timesReturned 1 xs = 0 := hzero.symm
  rw [timesReturned, List.countP_eq_zero] at hzero
  exact hzero x hx (by simpa using hret)

end Qdb
