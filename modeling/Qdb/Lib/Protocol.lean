import Qdb.Lib.Twins

/-!
# Protocols of operations

A protocol says which operations a program may issue in a phase and to which
phases their responses lead.  `Prog.Obeys` says that a program keeps to it
whatever the environment answers.  `Prog.Leads` is execution up to some point in
the middle of a program.
-/

namespace Qdb
namespace Lib
namespace Prog

universe u

variable {Op : Type} {Resp : Op → Type} {α β : Type} {γ : Type} {σ : Type u}

section Obeys

variable (ok : γ → Op → Prop) (next : (o : Op) → γ → Resp o → γ → Prop)

/-- From the phase on, the program issues allowed operations only and ends with
`Q`. -/
def Obeys (Q : α → γ → Prop) : Prog Op Resp α → γ → Prop
  | .ret a, g => Q a g
  | .call o k, g => ok g o ∧ ∀ r g', next o g r g' → Obeys Q (k r) g'
  | .stuck, _ => True

variable {ok next} {Q : β → γ → Prop} {P : α → γ → Prop}

theorem obeys_perform {o : Op} {Q : Resp o → γ → Prop} {g : γ} (ho : ok g o)
    (hQ : ∀ r g', next o g r g' → Q r g') :
    Obeys ok next Q (perform o : Prog Op Resp (Resp o)) g :=
  ⟨ho, hQ⟩

theorem obeys_bind {p : Prog Op Resp α} {f : α → Prog Op Resp β} {g : γ}
    (hp : Obeys ok next P p g)
    (hf : ∀ a g', P a g' → Obeys ok next Q (f a) g') :
    Obeys ok next Q (p >>= f) g := by
  change Obeys ok next Q (bind p f) g
  induction p generalizing g with
  | ret a =>
      exact hf a g hp
  | call o k ih =>
      exact ⟨hp.1, fun r g' hg => ih r (hp.2 r g' hg)⟩
  | stuck =>
      trivial

theorem Obeys.mono {Q' : β → γ → Prop} {p : Prog Op Resp β} {g : γ}
    (hp : Obeys ok next Q p g) (hQ : ∀ b g', Q b g' → Q' b g') :
    Obeys ok next Q' p g := by
  induction p generalizing g with
  | ret b =>
      exact hQ b g hp
  | call o k ih =>
      exact ⟨hp.1, fun r g' hg => ih r (hp.2 r g' hg)⟩
  | stuck =>
      trivial

/-- A result property of all executions may be added. -/
theorem Obeys.and_post {p : Prog Op Resp β} {g : γ} {R : β → Prop}
    (hp : Obeys ok next Q p g) (hpost : Post R p) :
    Obeys ok next (fun b g' => Q b g' ∧ R b) p g := by
  induction p generalizing g with
  | ret b =>
      exact ⟨hp, hpost⟩
  | call o k ih =>
      exact ⟨hp.1, fun r g' hg => ih r (hp.2 r g' hg) (hpost r)⟩
  | stuck =>
      trivial

/-- A program that is its own twin stays in a phase that its operations do not
leave. -/
theorem obeys_of_twin {T : Op → Op → Prop}
    {S : (o o' : Op) → Resp o → Resp o' → Prop} {Q : β → β → Prop}
    {p : Prog Op Resp β} {g : γ} (hp : Twin T S Q p p)
    (hok : ∀ o, T o o → ok g o)
    (hnext : ∀ o r g', T o o → next o g r g' → S o o r r ∧ g' = g) :
    Obeys ok next (fun _ g' => g' = g) p g := by
  induction p with
  | ret b =>
      rfl
  | call o k ih =>
      refine ⟨hok o hp.1, ?_⟩
      intro r g' hg
      obtain ⟨hr, rfl⟩ := hnext o r g' hp.1 hg
      exact ih r (hp.2 r r hr)
  | stuck =>
      trivial

end Obeys

section Leads

variable (R : (o : Op) → σ → Resp o → σ → Prop)

/-- Execution of `p` from `s` that has come to `q` in a state. -/
inductive Leads (p : Prog Op Resp α) (s : σ) : Prog Op Resp α → σ → Prop
  | refl : Leads p s p s
  | step {o : Op} {k : Resp o → Prog Op Resp α} {t u : σ} {r : Resp o}
      (h : Leads p s (.call o k) t) (hr : R o t r u) : Leads p s (k r) u

variable {R}

theorem Leads.exec_trans {p q : Prog Op Resp α} {s t u : σ} {a : α}
    (h : Leads R p s q t) (he : Exec R q t a u) : Exec R p s a u := by
  induction h generalizing a u with
  | refl =>
      exact he
  | step h hr ih =>
      exact ih ⟨_, _, hr, he⟩

/-- An execution that has come to a result. -/
theorem Leads.exec {p : Prog Op Resp α} {s t : σ} {a : α}
    (h : Leads R p s (.ret a) t) : Exec R p s a t :=
  h.exec_trans ⟨rfl, rfl⟩

end Leads

end Prog
end Lib
end Qdb
