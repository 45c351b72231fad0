import Qdb.Lib.Program

/-!
# Programs run side by side

Two programs are paired from a state when both end, in the same environment and
with related results.  The first program may contain checks the second does not
have: `Prog.require` gets stuck unless its condition holds, so that pairing a
program with a checked copy of it shows that every check succeeds.
-/

namespace Qdb
namespace Lib
namespace Prog

universe u

variable {Op : Type} {Resp : Op → Type}
variable {α α' β β' : Type} {σ : Type u}

/-- Get stuck unless `c` holds. -/
def require (c : Prop) [Decidable c] : Prog Op Resp Unit :=
  if c then pure () else .stuck

section Paired

variable (h : (o : Op) → σ → Resp o × σ)

/-- Both programs end in one environment, with results related by `Q`. -/
def Paired (p : Prog Op Resp α) (q : Prog Op Resp α') (s : σ)
    (Q : α → α' → σ → Prop) : Prop :=
  ∃ a a' s', run h p s = some (a, s') ∧ run h q s = some (a', s') ∧ Q a a' s'

variable {h}

theorem run_require {c : Prop} [Decidable c] (hc : c) (s : σ) :
    run h (require c : Prog Op Resp Unit) s = some ((), s) := by
  unfold require
  rw [if_pos hc]
  rfl

theorem paired_pure {a : α} {a' : α'} {s : σ} {Q : α → α' → σ → Prop}
    (hQ : Q a a' s) :
    Paired h (pure a : Prog Op Resp α) (pure a' : Prog Op Resp α') s Q :=
  ⟨a, a', s, rfl, rfl, hQ⟩

theorem paired_bind {p : Prog Op Resp α} {p' : Prog Op Resp α'}
    {f : α → Prog Op Resp β} {f' : α' → Prog Op Resp β'} {s : σ}
    {P : α → α' → σ → Prop} {Q : β → β' → σ → Prop}
    (hp : Paired h p p' s P)
    (hf : ∀ a a' s', P a a' s' → Paired h (f a) (f' a') s' Q) :
    Paired h (p >>= f) (p' >>= f') s Q := by
  obtain ⟨a, a', t, ha, ha', hP⟩ := hp
  obtain ⟨b, b', u, hb, hb', hQ⟩ := hf a a' t hP
  refine ⟨b, b', u, ?_, ?_, hQ⟩
  · rw [run_bind, ha, Option.bind_some, hb]
  · rw [run_bind, ha', Option.bind_some, hb']

/-- A step of the first program alone. -/
theorem paired_left {p : Prog Op Resp α} {f : α → Prog Op Resp β}
    {q : Prog Op Resp β'} {s : σ} {a : α} {Q : β → β' → σ → Prop}
    (hp : run h p s = some (a, s)) (hf : Paired h (f a) q s Q) :
    Paired h (p >>= f) q s Q := by
  obtain ⟨b, b', u, hb, hb', hQ⟩ := hf
  refine ⟨b, b', u, ?_, hb', hQ⟩
  rw [run_bind, hp, Option.bind_some, hb]

/-- Both programs take the same branch. -/
theorem paired_ite {c : Prop} [Decidable c]
    {p q : Prog Op Resp α} {p' q' : Prog Op Resp α'} {s : σ}
    {Q : α → α' → σ → Prop}
    (hp : c → Paired h p p' s Q) (hq : ¬ c → Paired h q q' s Q) :
    Paired h (if c then p else q) (if c then p' else q') s Q := by
  by_cases hc : c
  · rw [if_pos hc, if_pos hc]
    exact hp hc
  · rw [if_neg hc, if_neg hc]
    exact hq hc

/-- A program that ends is paired with itself. -/
theorem paired_self {p : Prog Op Resp α} {s s' : σ} {a : α}
    (hp : run h p s = some (a, s')) :
    Paired h p p s (fun x x' t => x' = x ∧ x = a ∧ t = s') :=
  ⟨a, a, s', hp, hp, rfl, rfl, rfl⟩

theorem Paired.mono {p : Prog Op Resp α} {p' : Prog Op Resp α'} {s : σ}
    {Q Q' : α → α' → σ → Prop} (hp : Paired h p p' s Q)
    (hQ : ∀ a a' t, Q a a' t → Q' a a' t) : Paired h p p' s Q' := by
  obtain ⟨a, a', t, ha, ha', hq⟩ := hp
  exact ⟨a, a', t, ha, ha', hQ a a' t hq⟩

/-- What every operation keeps holds at the end of a run. -/
theorem run_keeps {I : σ → Prop} (hop : ∀ o s, I s → I (h o s).2)
    {p : Prog Op Resp α} {s s' : σ} {a : α} (hs : I s)
    (hp : run h p s = some (a, s')) : I s' := by
  induction p generalizing s with
  | ret b =>
      cases hp
      exact hs
  | call o k ih =>
      exact ih _ (hop o s hs) hp
  | stuck =>
      cases hp

theorem Paired.keeps {I : σ → Prop} (hop : ∀ o s, I s → I (h o s).2)
    {p : Prog Op Resp α} {p' : Prog Op Resp α'} {s : σ}
    {Q : α → α' → σ → Prop} (hs : I s) (hp : Paired h p p' s Q) :
    Paired h p p' s (fun a a' t => Q a a' t ∧ I t) := by
  obtain ⟨a, a', t, ha, ha', hq⟩ := hp
  exact ⟨a, a', t, ha, ha', hq, run_keeps hop hs ha⟩

end Paired

section Total

/-- The program ends with `Q` whatever the environment answers. -/
def Total (Q : α → Prop) : Prog Op Resp α → Prop
  | .ret a => Q a
  | .call _ k => ∀ r, Total Q (k r)
  | .stuck => False

variable {Q : β → Prop} {P : α → Prop}

theorem total_pure {a : α} (ha : P a) :
    Total P (pure a : Prog Op Resp α) :=
  ha

theorem total_perform (o : Op) :
    Total (fun _ => True) (perform o : Prog Op Resp (Resp o)) := by
  intro r
  trivial

theorem total_bind {p : Prog Op Resp α} {f : α → Prog Op Resp β}
    (hp : Total P p) (hf : ∀ a, P a → Total Q (f a)) :
    Total Q (p >>= f) := by
  change Total Q (bind p f)
  induction p with
  | ret a =>
      exact hf a hp
  | call o k ih =>
      intro r
      exact ih r (hp r)
  | stuck =>
      exact hp.elim

/-- An operation and what follows it. -/
theorem total_op {o : Op} {f : Resp o → Prog Op Resp β}
    (hf : ∀ r, Total Q (f r)) :
    Total Q ((perform o : Prog Op Resp (Resp o)) >>= f) :=
  total_bind (total_perform o) (fun r _ => hf r)

theorem Total.paired {h : (o : Op) → σ → Resp o × σ}
    {p : Prog Op Resp α} (hp : Total P p) (s : σ) :
    Paired h p p s (fun a a' _ => a' = a ∧ P a) := by
  induction p generalizing s with
  | ret a =>
      exact ⟨a, a, s, rfl, rfl, rfl, hp⟩
  | call o k ih =>
      exact ih _ (hp _) _
  | stuck =>
      exact hp.elim

theorem Total.wp {R : (o : Op) → σ → Resp o → σ → Prop}
    {p : Prog Op Resp α} (hp : Total P p) (s : σ) :
    Wp R (fun _ => True) p s (fun a _ => P a) := by
  induction p generalizing s with
  | ret a =>
      exact ⟨trivial, hp⟩
  | call o k ih =>
      exact ⟨trivial, fun r t _ => ih r (hp r) t⟩
  | stuck =>
      exact hp.elim

end Total

end Prog
end Lib
end Qdb
