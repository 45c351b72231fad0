import Qdb.Lib.Program

/-!
# Programs that stop at a failure

A program stops at a failure when every operation that goes wrong leads to a
result that says so.  An execution with a successful result has then met no
failure, and is the run of the program on the machine on which nothing fails
(`FailStop.run`).
-/

namespace Qdb
namespace Lib
namespace Prog

universe u

variable {Op : Type} {Resp : Op → Type} {α β : Type} {σ : Type u}

section FailStop

variable (good bad : (o : Op) → Resp o → Prop)

/-- Behind a bad response the program does not end with a result in `ok`. -/
def FailStop (ok : α → Prop) : Prog Op Resp α → Prop
  | .ret _ => True
  | .call o k => (∀ r, good o r → FailStop ok (k r)) ∧
      ∀ r, bad o r → Post (fun a => ¬ ok a) (k r)
  | .stuck => True

variable {good bad} {ok : β → Prop} {P : α → Prop}

/-- A program that does not succeed at all. -/
theorem failStop_of_post {p : Prog Op Resp β}
    (h : Post (fun b => ¬ ok b) p) : FailStop good bad ok p := by
  induction p with
  | ret b =>
      trivial
  | call o k ih =>
      exact ⟨fun r _ => ih r (h r), fun r _ => h r⟩
  | stuck =>
      trivial

theorem failStop_perform {o : Op} {ok : Resp o → Prop}
    (h : ∀ r, bad o r → ¬ ok r) :
    FailStop good bad ok (perform o : Prog Op Resp (Resp o)) :=
  ⟨fun _ _ => trivial, h⟩

theorem failStop_bind {p : Prog Op Resp α} {f : α → Prog Op Resp β}
    (hp : FailStop good bad P p) (hf : ∀ a, P a → FailStop good bad ok (f a))
    (hno : ∀ a, ¬ P a → Post (fun b => ¬ ok b) (f a)) :
    FailStop good bad ok (p >>= f) := by
  change FailStop good bad ok (bind p f)
  induction p with
  | ret a =>
      by_cases ha : P a
      · exact hf a ha
      · exact failStop_of_post (hno a ha)
  | call o k ih =>
      exact ⟨fun r hr => ih r (hp.1 r hr),
        fun r hr => post_bind (hp.2 r hr) hno⟩
  | stuck =>
      trivial

/-- Whatever the result of the first part is, the second goes on. -/
theorem failStop_seq {p : Prog Op Resp α} {f : α → Prog Op Resp β}
    (hp : FailStop good bad (fun _ => True) p)
    (hf : ∀ a, FailStop good bad ok (f a)) :
    FailStop good bad ok (p >>= f) :=
  failStop_bind hp (fun a _ => hf a) fun _ hno => absurd trivial hno

/-- An execution with a successful result is the run on the machine on which
nothing fails; `I` is what good responses keep. -/
theorem FailStop.run {R : (o : Op) → σ → Resp o → σ → Prop}
    {h : (o : Op) → σ → Resp o × σ} {I : σ → Prop}
    (hop : ∀ o s r t, I s → R o s r t →
      (good o r ∧ h o s = (r, t) ∧ I t) ∨ bad o r)
    {p : Prog Op Resp β} (hp : FailStop good bad ok p) {s t : σ} {b : β}
    (hs : I s) (he : Exec R p s b t) (hb : ok b) :
    Prog.run h p s = some (b, t) := by
  induction p generalizing s with
  | ret b' =>
      obtain ⟨rfl, rfl⟩ := he
      rfl
  | call o k ih =>
      obtain ⟨r, s', hr, hk⟩ := he
      rcases hop o s r s' hs hr with ⟨hgood, hrun, hs'⟩ | hbad
      · change Prog.run h (k (h o s).1) (h o s).2 = _
        rw [hrun]
        exact ih r (hp.1 r hgood) hs' hk
      · exact absurd hb ((hp.2 r hbad).of_exec hk)
  | stuck =>
      exact he.elim

end FailStop

end Prog
end Lib
end Qdb
