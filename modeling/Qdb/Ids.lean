import Qdb.CrashSafety

/-!
# Message ids and lease ids

The ids that pushes assign and the lease ids that pops return increase strictly
over the whole life of a database, through sessions, crashes and compactions,
until one of the counters wraps.
-/

namespace Qdb

open Lib

/-- The id a push has assigned that returned `QDB_OK`. -/
def Act.pushedId : Act → Option UInt64
  | .call ⟨_, .push _ _⟩ id (.code .ok) => id
  | _ => none

/-- The lease id a pop has returned. -/
def Act.leasedId : Act → Option UInt64
  | .call _ _ (.msg m) => some m.leaseId
  | _ => none

/-- The ids assigned in a run. -/
def pushedIds (as : List Act) : List UInt64 :=
  as.filterMap Act.pushedId

/-- The lease ids returned in a run. -/
def leasedIds (as : List Act) : List UInt64 :=
  as.filterMap Act.leasedId

namespace Broker

variable {seen : Nat → Prop} {b b' : Broker} {now : UInt64} {call : Call}
variable {res : Result}

theorem requeueAll_counters (b : Broker) (ls : List (UInt64 × Held)) :
    (b.requeueAll ls).nextMsgId = b.nextMsgId ∧
      (b.requeueAll ls).nextLeaseId = b.nextLeaseId ∧
      (b.requeueAll ls).session = b.session := by
  induction ls generalizing b with
  | nil =>
      exact ⟨rfl, rfl, rfl⟩
  | cons x ls ih =>
      rw [requeueAll_cons]
      exact ih _

/-- How a call moves the message counter. -/
theorem Step.nextMsgId (h : b.Step seen now call res b') :
    (b'.nextMsgId = b.nextMsgId ∧
      ¬ (res = .code .ok ∧ ∃ q d, call = .push q d)) ∨
    (b'.nextMsgId = b.nextMsgId + 1 ∧ b.session.isSome ∧
      res = .code .ok ∧ ∃ q d, call = .push q d) := by
  cases h with
  | push hs _ =>
      exact Or.inr ⟨rfl, hs, rfl, _, _, rfl⟩
  | expire _ _ =>
      exact Or.inl ⟨(b.requeueAll_counters _).1, by simp⟩
  | null hs hcall =>
      left
      refine ⟨rfl, ?_⟩
      rintro ⟨hres, q, d, rfl⟩
      cases hres
  | noent _ hcall _ =>
      exact Or.inl ⟨rfl, by simp⟩
  | inval _ hcall _ _ _ =>
      exact Or.inl ⟨rfl, by simp⟩
  | _ =>
      exact Or.inl ⟨rfl, by simp⟩

/-- How a call moves the lease counter. -/
theorem Step.nextLeaseId (h : b.Step seen now call res b') :
    (b'.nextLeaseId = b.nextLeaseId ∧ ∀ m, res ≠ .msg m) ∨
    (b'.nextLeaseId = b.nextLeaseId + 1 ∧ b.session.isSome ∧
      ∃ m, res = .msg m ∧ m.leaseId = b.nextLeaseId) := by
  cases h with
  | pop hs _ _ =>
      exact Or.inr ⟨rfl, by rw [hs]; rfl, _, rfl, rfl⟩
  | popAny hs _ _ =>
      exact Or.inr ⟨rfl, by rw [hs]; rfl, _, rfl, rfl⟩
  | expire _ _ =>
      exact Or.inl ⟨(b.requeueAll_counters _).2.1, by simp⟩
  | null hs hcall =>
      left
      refine ⟨rfl, ?_⟩
      intro m
      cases call <;> simp [nullResult]
  | _ =>
      exact Or.inl ⟨rfl, by simp⟩

theorem Refused.counters (h : b.Refused now call b') :
    b'.nextMsgId = b.nextMsgId ∧ b'.nextLeaseId = b.nextLeaseId ∧
      b'.session = b.session := by
  cases h with
  | same _ _ =>
      exact ⟨rfl, rfl, rfl⟩
  | expire _ =>
      exact b.requeueAll_counters _

/-- How a call that returns moves a counter: it issues the number that comes
next, or it leaves the counter alone. -/
def Issues (issued : Option UInt64) (n n' : UInt64) : Prop :=
  (n' = n ∧ issued = none) ∨ (n ≠ 0 ∧ n' = n + 1 ∧ issued = some n)

/-- How an act moves a counter: a crash may skip a number. -/
def Moves (issued : Option UInt64) (n n' : UInt64) : Prop :=
  (n' = n ∧ issued = none) ∨
    (n ≠ 0 ∧ n' = n + 1 ∧ (issued = none ∨ issued = some n))

theorem Issues.moves {issued : Option UInt64} {n n' : UInt64}
    (h : Issues issued n n') : Moves issued n n' := by
  rcases h with h | ⟨h0, hn, hsome⟩
  · exact Or.inl h
  · exact Or.inr ⟨h0, hn, Or.inr hsome⟩

theorem pushedId_of_not {e : Event} {id : Option UInt64} {res : Result}
    (h : ¬ (res = .code .ok ∧ ∃ q d, e.call = .push q d)) :
    (Act.call e id res).pushedId = none := by
  obtain ⟨now, call⟩ := e
  unfold Act.pushedId
  split
  · next heq =>
    cases heq
    exact absurd ⟨rfl, _, _, rfl⟩ h
  · rfl

theorem leasedId_of_not {e : Event} {id : Option UInt64} {res : Result}
    (h : ∀ m, res ≠ .msg m) : (Act.call e id res).leasedId = none := by
  cases res with
  | msg m =>
      exact absurd rfl (h m)
  | _ =>
      rfl

theorem Returns.issues {a : Act} (h : b.Returns a b') :
    Issues a.pushedId b.nextMsgId b'.nextMsgId ∧
      Issues a.leasedId b.nextLeaseId b'.nextLeaseId := by
  obtain @⟨e, res, _, hn, hends⟩ := h
  rcases hends with ⟨-, hstep⟩ | ⟨rfl, href⟩
  · constructor
    · rcases hstep.nextMsgId with ⟨heq, hno⟩ | ⟨heq, hs, rfl, q, d, hcall⟩
      · exact Or.inl ⟨heq, pushedId_of_not hno⟩
      · refine Or.inr ⟨(hn hs).1, heq, ?_⟩
        obtain ⟨now, call⟩ := e
        cases hcall
        obtain ⟨t, ht⟩ := Option.isSome_iff_exists.mp hs
        rw [ht]
        rfl
    · rcases hstep.nextLeaseId with ⟨heq, hno⟩ | ⟨heq, hs, m, rfl, hl⟩
      · exact Or.inl ⟨heq, leasedId_of_not hno⟩
      · exact Or.inr ⟨(hn hs).2, heq, congrArg some hl⟩
  · obtain ⟨h1, h2, -⟩ := href.counters
    exact ⟨Or.inl ⟨h1, pushedId_of_not (by simp)⟩,
      Or.inl ⟨h2, leasedId_of_not (by simp)⟩⟩

theorem Next.moves {a : Act} (h : b.Next a b') :
    Moves a.pushedId b.nextMsgId b'.nextMsgId ∧
      Moves a.leasedId b.nextLeaseId b'.nextLeaseId := by
  cases h with
  | returns h =>
      exact ⟨h.issues.1.moves, h.issues.2.moves⟩
  | crash hn hc =>
      cases hc with
      | before =>
          exact ⟨Or.inl ⟨rfl, rfl⟩, Or.inl ⟨rfl, rfl⟩⟩
      | refused href =>
          obtain ⟨h1, h2, -⟩ := href.counters
          exact ⟨Or.inl ⟨h1, rfl⟩, Or.inl ⟨h2, rfl⟩⟩
      | done hstep =>
          constructor
          · rcases hstep.nextMsgId with ⟨heq, -⟩ | ⟨heq, hs, -⟩
            · exact Or.inl ⟨heq, rfl⟩
            · exact Or.inr ⟨(hn hs).1, heq, Or.inl rfl⟩
          · rcases hstep.nextLeaseId with ⟨heq, -⟩ | ⟨heq, hs, -⟩
            · exact Or.inl ⟨heq, rfl⟩
            · exact Or.inr ⟨(hn hs).2, heq, Or.inl rfl⟩

end Broker

/-- The numbers issued so far increase, and the counter is above them unless it
has wrapped. -/
structure Issued (xs : List UInt64) (n : UInt64) : Prop where
  increasing : xs.Pairwise (· < ·)
  below : ∀ x ∈ xs, x ≠ 0 ∧ (n ≠ 0 → x < n)

theorem Issued.moves {α : Type} {f : α → Option UInt64} {as : List α} {a : α}
    {n n' : UInt64} (h : Issued (as.filterMap f) n)
    (hm : Broker.Moves (f a) n n') : Issued ((as ++ [a]).filterMap f) n' := by
  rw [List.filterMap_append]
  rcases hm with ⟨rfl, hnone⟩ | ⟨hn, rfl, hnone | hsome⟩
  · have hnil : [a].filterMap f = [] := by simp [hnone]
    rw [hnil, List.append_nil]
    exact h
  · have hnil : [a].filterMap f = [] := by simp [hnone]
    rw [hnil, List.append_nil]
    refine ⟨h.increasing, fun x hx => ⟨(h.below x hx).1, fun h0 => ?_⟩⟩
    have := (h.below x hx).2 hn
    grind
  · have hone : [a].filterMap f = [n] := by simp [hsome]
    rw [hone]
    constructor
    · rw [List.pairwise_append]
      refine ⟨h.increasing, List.pairwise_singleton _ _, ?_⟩
      intro x hx y hy
      rw [List.mem_singleton.mp hy]
      exact (h.below x hx).2 hn
    · intro x hx
      rcases List.mem_append.mp hx with hx | hx
      · refine ⟨(h.below x hx).1, fun h0 => ?_⟩
        have := (h.below x hx).2 hn
        grind
      · rw [List.mem_singleton.mp hx]
        refine ⟨hn, fun h0 => ?_⟩
        grind

theorem issued_nil (n : UInt64) : Issued [] n :=
  ⟨List.Pairwise.nil, by simp⟩

/-- The ids of a run of the abstract machine. -/
theorem Broker.run_issued {b b' : Broker} {as : List Act}
    (h : Run Broker.Next b as b') :
    Issued (pushedIds as) b'.nextMsgId ∧
      Issued (leasedIds as) b'.nextLeaseId := by
  refine h.invariant (P := fun as b => Issued (pushedIds as) b.nextMsgId ∧
    Issued (leasedIds as) b.nextLeaseId) ⟨issued_nil _, issued_nil _⟩ ?_
  intro as t a u _ ih hs
  obtain ⟨hm, hl⟩ := hs.moves
  exact ⟨ih.1.moves hm, ih.2.moves hl⟩

/-- In a file whose creation was interrupted nothing is ever pushed. -/
theorem Sys.Is.broken_next {s s' : Sys} {a : Act} (h : s.Is .broken)
    (hs : s.Next a s') :
    s'.Is .broken ∧ a.pushedId = none ∧ a.leasedId = none := by
  have hwf : Phase.broken.WellFormed := by
    intro v hv
    cases hv
  cases hs with
  | returns hr =>
      obtain @⟨e, res, _, hstep⟩ := hr
      obtain ⟨res', s'', ph', hs', hst, his⟩ := h.step hwf e
      rw [hstep] at hs'
      cases hs'
      obtain ⟨now, call⟩ := e
      cases hst with
      | null hph hcall =>
          refine ⟨his, ?_, ?_⟩
          · cases call <;> rfl
          · cases call <;> rfl
      | openBroken t =>
          exact ⟨his, rfl, rfl⟩
  | @crash e n w hc =>
      obtain ⟨ph', hcr, his⟩ := h.crash hwf e n hc
      refine ⟨?_, rfl, rfl⟩
      cases hcr with
      | same _ =>
          exact his

/-- Before its creation nothing has been pushed. -/
theorem Issued.eq_nil {xs : List UInt64} (h : Issued xs 1) : xs = [] := by
  rw [List.eq_nil_iff_forall_not_mem]
  intro x hx
  obtain ⟨h0, h1⟩ := h.below x hx
  have := h1 (by decide)
  grind

/-- Until a counter wraps, ids and lease ids increase strictly over the whole
life of a database. -/
theorem ids_increase {as : List Act} {s : Sys}
    (hrun : Run Sys.CountedNext Sys.init as s) :
    (pushedIds as).Pairwise (· < ·) ∧ (leasedIds as).Pairwise (· < ·) := by
  have hinv := hrun.invariant (P := fun as s =>
    (∃ b, Run Broker.Next Broker.new as b ∧ s.Shows b) ∨
      (s.Is .broken ∧ pushedIds as = [] ∧ leasedIds as = []))
    (Or.inl ⟨_, Run.nil, Sys.Shows.init⟩) (by
      rintro as s a s' - (⟨b, hb, ph, his, hph⟩ | ⟨hbr, hp, hl⟩) ⟨hn, hs⟩
      · have hshow : s.Shows b := ⟨ph, his, hph⟩
        cases hs with
        | returns hr =>
            obtain ⟨b', hr', hb'⟩ := hshow.returns ⟨hn, hr⟩
            exact Or.inl ⟨b', hb.snoc (.returns hr'), hb'⟩
        | crash hc =>
            obtain ⟨ph', hcr, his'⟩ := his.crash hph.wellFormed _ _ hc
            rcases hph.crash (Sys.Shows.counting his hn) hcr with
              ⟨rfl, rfl⟩ | ⟨b', hb', hcr'⟩
            · obtain ⟨h1, h2⟩ := Broker.run_issued hb
              cases hph
              right
              refine ⟨his', ?_, ?_⟩
              · rw [pushedIds, List.filterMap_append]
                exact List.append_eq_nil_iff.mpr ⟨h1.eq_nil, rfl⟩
              · rw [leasedIds, List.filterMap_append]
                exact List.append_eq_nil_iff.mpr ⟨h2.eq_nil, rfl⟩
            · exact Or.inl ⟨b',
                hb.snoc (.crash (hshow.broker_counting hn) hcr'),
                ph', his', hb'⟩
      · obtain ⟨his', hpa, hla⟩ := hbr.broken_next hs
        right
        refine ⟨his', ?_, ?_⟩
        · rw [pushedIds, List.filterMap_append]
          refine List.append_eq_nil_iff.mpr ⟨hp, ?_⟩
          simp [hpa]
        · rw [leasedIds, List.filterMap_append]
          refine List.append_eq_nil_iff.mpr ⟨hl, ?_⟩
          simp [hla])
  rcases hinv with ⟨b, hb, -⟩ | ⟨-, hp, hl⟩
  · obtain ⟨h1, h2⟩ := Broker.run_issued hb
    exact ⟨h1.increasing, h2.increasing⟩
  · rw [hp, hl]
    exact ⟨List.Pairwise.nil, List.Pairwise.nil⟩

/-- Two rounds in a new database. -/
theorem ids_increase_rounds :
    ∃ s, Run Sys.CountedNext Sys.init
        (.call ⟨0, .openDb 0⟩ none (.code .ok) :: roundsActs 1 1 2) s ∧
      ([1, 2] : List UInt64).Pairwise (· < ·) := by
  obtain ⟨s₁, hs, hidle⟩ := Idle.create 0 0
  obtain ⟨s, hrounds, -⟩ :=
    hidle.rounds (by decide) (by decide) 2 (by decide) (by decide)
  have hrun : Run Sys.CountedNext Sys.init _ s :=
    ((Run.single hs).trans hrounds).mono
      (fun _ _ _ h => ⟨h.1, .returns h.2⟩)
  exact ⟨s, hrun, (ids_increase hrun).1⟩

/-- Once the lease counter has wrapped, a compaction starts it again and lease
ids are issued a second time. -/
theorem ids_reused :
    ¬ ∀ as s, Run Sys.Next Sys.init as s →
      (pushedIds as).Pairwise (· < ·) ∧ (leasedIds as).Pairwise (· < ·) := by
  intro hall
  obtain ⟨s, hrun, -⟩ := exists_lease_reuse
  obtain ⟨-, hl⟩ := hall _ s (hrun.mono (fun _ _ _ h => .returns h))
  unfold reuseActs leasedIds at hl
  rw [List.filterMap_append, List.filterMap_append,
    List.pairwise_append] at hl
  have hlast : ([0xFFFFFFFFFFFFFFFF, 1] : List UInt64).Pairwise (· < ·) :=
    hl.2.1
  rw [List.pairwise_pair] at hlast
  exact absurd hlast (by decide)

end Qdb
