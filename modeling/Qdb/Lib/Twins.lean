import Qdb.Lib.Program

/-!
# Programs in lockstep

Two programs are twins when they issue related operations and, on related
responses, go on as twins.  Twins run alike in related environments
(`Twin.run`); a program that is its own twin issues only operations that are
related to themselves, so that every execution of it keeps what these operations
keep (`Twin.keeps`).
-/

namespace Qdb
namespace Lib

/-- Related results are mapped to related ones. -/
theorem rel_map {α α' β β' : Type*} {R : α → α' → Prop} {S : β → β' → Prop}
    {x : Option α} {x' : Option α'} (h : Option.Rel R x x') {f : α → β}
    {f' : α' → β'} (hf : ∀ a a', R a a' → S (f a) (f' a')) :
    Option.Rel S (x.map f) (x'.map f') := by
  cases h with
  | none =>
      exact .none
  | some h =>
      exact .some (hf _ _ h)

theorem rel_mono {α α' : Type*} {R S : α → α' → Prop} {x : Option α}
    {x' : Option α'} (h : Option.Rel R x x') (hRS : ∀ a a', R a a' → S a a') :
    Option.Rel S x x' := by
  cases h with
  | none =>
      exact .none
  | some h =>
      exact .some (hRS _ _ h)

namespace Prog

universe u

variable {Op : Type} {Resp : Op → Type}
variable {α α' β β' : Type} {σ : Type u}

section Twin

variable (T : Op → Op → Prop) (S : (o o' : Op) → Resp o → Resp o' → Prop)

/-- The programs issue operations related by `T`, go on alike on responses
related by `S` and end with results related by `Q`. -/
def Twin (Q : α → α' → Prop) :
    Prog Op Resp α → Prog Op Resp α' → Prop
  | .ret a, .ret a' => Q a a'
  | .call o k, .call o' k' =>
      T o o' ∧ ∀ r r', S o o' r r' → Twin Q (k r) (k' r')
  | .stuck, .stuck => True
  | _, _ => False

variable {T S} {Q : β → β' → Prop} {P : α → α' → Prop}

theorem twin_pure {b : β} {b' : β'} (h : Q b b') :
    Twin T S Q (pure b : Prog Op Resp β) (pure b') :=
  h

theorem twin_stuck :
    Twin T S Q (.stuck : Prog Op Resp β) (.stuck : Prog Op Resp β') :=
  trivial

theorem twin_perform (o o' : Op) {Q : Resp o → Resp o' → Prop}
    (ho : T o o') (hQ : ∀ r r', S o o' r r' → Q r r') :
    Twin T S Q (perform o : Prog Op Resp (Resp o)) (perform o') :=
  ⟨ho, hQ⟩

theorem twin_bind
    {p : Prog Op Resp α} {p' : Prog Op Resp α'}
    {f : α → Prog Op Resp β} {f' : α' → Prog Op Resp β'}
    (hp : Twin T S P p p') (hf : ∀ a a', P a a' → Twin T S Q (f a) (f' a')) :
    Twin T S Q (p >>= f) (p' >>= f') := by
  change Twin T S Q (bind p f) (bind p' f')
  induction p generalizing p' with
  | ret a =>
      cases p' with
      | ret a' =>
          exact hf a a' hp
      | call o' k' =>
          exact hp.elim
      | stuck =>
          exact hp.elim
  | call o k ih =>
      cases p' with
      | ret a' =>
          exact hp.elim
      | call o' k' =>
          exact ⟨hp.1, fun r r' hr => ih r (hp.2 r r' hr)⟩
      | stuck =>
          exact hp.elim
  | stuck =>
      cases p' with
      | ret a' =>
          exact hp.elim
      | call o' k' =>
          exact hp.elim
      | stuck =>
          trivial

/-- Both programs take the same branch. -/
theorem twin_ite {c : Prop} [Decidable c]
    {p q : Prog Op Resp β} {p' q' : Prog Op Resp β'}
    (hp : c → Twin T S Q p p') (hq : ¬ c → Twin T S Q q q') :
    Twin T S Q (if c then p else q) (if c then p' else q') := by
  by_cases hc : c
  · rw [if_pos hc, if_pos hc]
    exact hp hc
  · rw [if_neg hc, if_neg hc]
    exact hq hc

theorem Twin.mono {Q' : β → β' → Prop}
    {p : Prog Op Resp β} {p' : Prog Op Resp β'}
    (hp : Twin T S Q p p') (hQ : ∀ b b', Q b b' → Q' b b') :
    Twin T S Q' p p' := by
  induction p generalizing p' with
  | ret a =>
      cases p' with
      | ret a' =>
          exact hQ a a' hp
      | call o' k' =>
          exact hp.elim
      | stuck =>
          exact hp.elim
  | call o k ih =>
      cases p' with
      | ret a' =>
          exact hp.elim
      | call o' k' =>
          exact ⟨hp.1, fun r r' hr => ih r (hp.2 r r' hr)⟩
      | stuck =>
          exact hp.elim
  | stuck =>
      cases p' with
      | ret a' =>
          exact hp.elim
      | call o' k' =>
          exact hp.elim
      | stuck =>
          trivial

/-- Twins run alike when related operations answer alike in related
environments. -/
theorem Twin.run {h : (o : Op) → σ → Resp o × σ} {W : σ → σ → Prop}
    (hop : ∀ o o' s s', T o o' → W s s' →
      S o o' (h o s).1 (h o' s').1 ∧ W (h o s).2 (h o' s').2)
    {p : Prog Op Resp β} {p' : Prog Op Resp β'}
    (hp : Twin T S Q p p') {s s' : σ} (hs : W s s') :
    Option.Rel (fun x x' => Q x.1 x'.1 ∧ W x.2 x'.2)
      (Prog.run h p s) (Prog.run h p' s') := by
  induction p generalizing p' s s' with
  | ret a =>
      cases p' with
      | ret a' =>
          exact .some ⟨hp, hs⟩
      | call o' k' =>
          exact hp.elim
      | stuck =>
          exact hp.elim
  | call o k ih =>
      cases p' with
      | ret a' =>
          exact hp.elim
      | call o' k' =>
          obtain ⟨hresp, hs'⟩ := hop o o' s s' hp.1 hs
          exact ih _ (hp.2 _ _ hresp) hs'
      | stuck =>
          exact hp.elim
  | stuck =>
      cases p' with
      | ret a' =>
          exact hp.elim
      | call o' k' =>
          exact hp.elim
      | stuck =>
          exact .none

/-- A program that is its own twin keeps what the operations that are related
to themselves keep. -/
theorem Twin.keeps {R : (o : Op) → σ → Resp o → σ → Prop} {I : σ → Prop}
    {Q : β → β → Prop}
    (hop : ∀ o s r t, T o o → I s → R o s r t → S o o r r ∧ I t)
    {p : Prog Op Resp β} (hp : Twin T S Q p p) {s s' : σ} {b : β}
    (hs : I s) (he : Exec R p s b s') : Q b b ∧ I s' := by
  induction p generalizing s with
  | ret a =>
      obtain ⟨rfl, rfl⟩ := he
      exact ⟨hp, hs⟩
  | call o k ih =>
      obtain ⟨r, t, hr, hk⟩ := he
      obtain ⟨hresp, ht⟩ := hop o s r t hp.1 hs hr
      exact ih r (hp.2 r r hresp) ht hk
  | stuck =>
      exact he.elim

/-- What holds of all executions of a program that is its own twin holds in
every environment in which its operations have no further answers. -/
theorem Twin.wp {R R' : (o : Op) → σ → Resp o → σ → Prop} {I : σ → Prop}
    {P : β → β → Prop} {Q : β → σ → Prop}
    (hop : ∀ o s r t, T o o → R' o s r t → S o o r r ∧ R o s r t)
    {p : Prog Op Resp β} (hp : Twin T S P p p) {s : σ} (hw : Wp R I p s Q) :
    Wp R' I p s Q := by
  induction p generalizing s with
  | ret b =>
      exact hw
  | call o k ih =>
      refine ⟨hw.1, fun r t hr => ?_⟩
      obtain ⟨hresp, hr'⟩ := hop o s r t hp.1 hr
      exact ih r (hp.2 r r hresp) (hw.2 r t hr')
  | stuck =>
      exact hw

/-- It also keeps it at every point of an execution. -/
theorem Twin.always {h : (o : Op) → σ → Resp o × σ} {I : σ → Prop}
    {Q : β → β → Prop}
    (hop : ∀ o s, T o o → I s → S o o (h o s).1 (h o s).1 ∧ I (h o s).2)
    {p : Prog Op Resp β} (hp : Twin T S Q p p) {s : σ} (hs : I s) :
    Always h I p s := by
  induction p generalizing s with
  | ret b =>
      exact always_ret hs
  | call o k ih =>
      obtain ⟨hresp, ht⟩ := hop o s hp.1 hs
      exact always_call hs (ih _ (hp.2 _ _ hresp) ht)
  | stuck =>
      intro n
      rw [after_stuck]
      exact hs

end Twin

end Prog
end Lib
end Qdb
