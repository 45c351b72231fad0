import Mathlib.Tactic

/-!
# Programs over an operation signature

A program issues operations to its environment and continues with their
responses.  The code of a program is one term; a semantics is a handler that
answers its operations, so fault-free execution, execution under injected
faults and execution cut off at an arbitrary operation all read the same code.

* `Prog.run` executes a program to its end under a handler.
* `Prog.after` is the environment state once a given number of operations has
  been issued; it is what an observer sees when the program is cut off there.
* `Prog.Reaches` says that the program passes through a state with a property.
* `Prog.Post` says that a result property holds whatever the environment
  answers.
* `Prog.Exec` is execution in an environment given by a relation, which may
  answer an operation in several ways.
* `Prog.Wp` says that every execution in such an environment keeps an invariant
  at all of its points, does not get stuck and ends with a given property.
* `Prog.Reads` says that a program issues only operations that leave the
  environment alone, and gives its result.
-/

namespace Qdb
namespace Lib

universe u

/-- Programs over operations `Op` with responses `Resp`. -/
inductive Prog
    (Op : Type) (Resp : Op → Type) (α : Type u) : Type u
  /-- Normal termination. -/
  | ret (a : α)
  /-- Issue an operation and continue with its response. -/
  | call (o : Op) (k : Resp o → Prog Op Resp α)
  /-- Undefined behaviour, or a loop that exceeds its iteration bound. -/
  | stuck

namespace Prog

variable {Op : Type} {Resp : Op → Type}
variable {α β γ : Type} {σ : Type u}

/-- Sequential composition. -/
def bind :
    Prog Op Resp α → (α → Prog Op Resp β) → Prog Op Resp β
  | .ret a, f => f a
  | .call o k, f => .call o (fun r => bind (k r) f)
  | .stuck, _ => .stuck

/-- Issue one operation and return its response. -/
def perform (o : Op) : Prog Op Resp (Resp o) :=
  .call o .ret

instance : Monad (Prog Op Resp) where
  pure := .ret
  bind := bind

theorem bind_ret (p : Prog Op Resp α) :
    bind p .ret = p := by
  induction p with
  | ret a =>
      rfl
  | call o k ih =>
      simp only [bind]
      congr
      funext r
      exact ih r
  | stuck =>
      rfl

theorem bind_bind
    (p : Prog Op Resp α)
    (f : α → Prog Op Resp β)
    (g : β → Prog Op Resp γ) :
    bind (bind p f) g = bind p (fun a => bind (f a) g) := by
  induction p with
  | ret a =>
      rfl
  | call o k ih =>
      simp only [bind]
      congr
      funext r
      exact ih r
  | stuck =>
      rfl

instance : LawfulMonad (Prog Op Resp) :=
  LawfulMonad.mk' (Prog Op Resp)
    (fun p => bind_ret p)
    (fun _ _ => rfl)
    (fun p f g => bind_bind p f g)

section Run

variable (h : (o : Op) → σ → Resp o × σ)

/-- Execute a program to its end; `none` when it gets stuck. -/
def run : Prog Op Resp α → σ → Option (α × σ)
  | .ret a, s => some (a, s)
  | .call o k, s => run (k (h o s).1) (h o s).2
  | .stuck, _ => none

/-- The environment once at most `n` operations have been issued. -/
def after : Nat → Prog Op Resp α → σ → σ
  | n + 1, .call o k, s => after n (k (h o s).1) (h o s).2
  | _, _, s => s

@[simp] theorem run_ret (a : α) (s : σ) :
    run h (.ret a : Prog Op Resp α) s = some (a, s) := by
  rfl

@[simp] theorem run_pure (a : α) (s : σ) :
    run h (pure a : Prog Op Resp α) s = some (a, s) := by
  rfl

@[simp] theorem run_stuck (s : σ) :
    run h (.stuck : Prog Op Resp α) s = none := by
  rfl

@[simp] theorem run_call
    (o : Op) (k : Resp o → Prog Op Resp α) (s : σ) :
    run h (.call o k) s = run h (k (h o s).1) (h o s).2 := by
  rfl

@[simp] theorem run_perform (o : Op) (s : σ) :
    run h (perform o : Prog Op Resp (Resp o)) s = some (h o s) := by
  rfl

/-- Running a composition runs its parts one after the other. -/
@[simp] theorem run_bind
    (p : Prog Op Resp α) (f : α → Prog Op Resp β) (s : σ) :
    run h (p >>= f) s =
      (run h p s).bind (fun r => run h (f r.1) r.2) := by
  change run h (bind p f) s = _
  induction p generalizing s with
  | ret a =>
      rfl
  | call o k ih =>
      exact ih _ _
  | stuck =>
      rfl

@[simp] theorem after_zero (p : Prog Op Resp α) (s : σ) :
    after h 0 p s = s := by
  cases p <;> rfl

@[simp] theorem after_ret (n : Nat) (a : α) (s : σ) :
    after h n (.ret a : Prog Op Resp α) s = s := by
  cases n <;> rfl

@[simp] theorem after_pure (n : Nat) (a : α) (s : σ) :
    after h n (pure a : Prog Op Resp α) s = s :=
  after_ret h n a s

@[simp] theorem after_stuck (n : Nat) (s : σ) :
    after h n (.stuck : Prog Op Resp α) s = s := by
  cases n <;> rfl

/-- `I` holds at every point of the execution of `p` from `s`. -/
def Always (I : σ → Prop) (p : Prog Op Resp α) (s : σ) : Prop :=
  ∀ n, I (after h n p s)

/-- Some point of the execution of `p` from `s` satisfies `P`. -/
def Reaches (P : σ → Prop) (p : Prog Op Resp α) (s : σ) : Prop :=
  ∃ n, P (after h n p s)

theorem reaches_start {P : σ → Prop} {p : Prog Op Resp α} {s : σ}
    (hs : P s) : Reaches h P p s := by
  refine ⟨0, ?_⟩
  rw [after_zero]
  exact hs

/-- A point of the first part of a composition. -/
theorem reaches_bind {P : σ → Prop} {p : Prog Op Resp α}
    {f : α → Prog Op Resp β} {s : σ} (hp : Reaches h P p s) :
    Reaches h P (p >>= f) s := by
  change Reaches h P (bind p f) s
  obtain ⟨n, hn⟩ := hp
  induction p generalizing s n with
  | ret a =>
      rw [after_ret] at hn
      exact reaches_start h hn
  | call o k ih =>
      cases n with
      | zero =>
          exact reaches_start h hn
      | succ n =>
          obtain ⟨n', hn'⟩ := ih _ _ hn
          exact ⟨n' + 1, hn'⟩
  | stuck =>
      rw [after_stuck] at hn
      exact reaches_start h hn

/-- A point of the second part of a composition. -/
theorem reaches_bind_of_run {P : σ → Prop} {p : Prog Op Resp α}
    {f : α → Prog Op Resp β} {s s' : σ} {a : α}
    (hrun : run h p s = some (a, s')) (hf : Reaches h P (f a) s') :
    Reaches h P (p >>= f) s := by
  change Reaches h P (bind p f) s
  induction p generalizing s with
  | ret b =>
      simp only [run_ret, Option.some.injEq, Prod.mk.injEq] at hrun
      obtain ⟨rfl, rfl⟩ := hrun
      exact hf
  | call o k ih =>
      obtain ⟨n, hn⟩ := ih _ hrun
      exact ⟨n + 1, hn⟩
  | stuck =>
      simp at hrun

variable {h} {I : σ → Prop}

theorem Always.start
    {p : Prog Op Resp α} {s : σ}
    (hp : Always h I p s) : I s := by
  simpa using hp 0

theorem always_ret
    {a : α} {s : σ} (hs : I s) :
    Always h I (.ret a : Prog Op Resp α) s := by
  intro n
  simpa using hs

theorem always_pure
    {a : α} {s : σ} (hs : I s) :
    Always h I (pure a : Prog Op Resp α) s :=
  always_ret hs

theorem always_call
    {o : Op} {k : Resp o → Prog Op Resp α} {s : σ}
    (hs : I s)
    (hk : Always h I (k (h o s).1) (h o s).2) :
    Always h I (.call o k) s := by
  intro n
  cases n with
  | zero =>
      exact hs
  | succ n =>
      exact hk n

/-- An invariant of every point of a composition, from its two parts. -/
theorem always_bind
    {p : Prog Op Resp α} {f : α → Prog Op Resp β} {s : σ}
    (hp : Always h I p s)
    (hf : ∀ a s', run h p s = some (a, s') → Always h I (f a) s') :
    Always h I (p >>= f) s := by
  change Always h I (bind p f) s
  induction p generalizing s with
  | ret a =>
      exact hf a s rfl
  | call o k ih =>
      apply always_call hp.start
      apply ih
      · intro n
        exact hp (n + 1)
      · intro a s' hrun
        exact hf a s' hrun
  | stuck =>
      intro n
      simpa [bind] using hp.start

theorem Always.mono
    {J : σ → Prop} {p : Prog Op Resp α} {s : σ}
    (hIJ : ∀ s, I s → J s) (hp : Always h I p s) :
    Always h J p s := by
  intro n
  exact hIJ _ (hp n)

/-- The end of a completed execution is one of its points. -/
theorem Always.final
    {p : Prog Op Resp α} {s s' : σ} {a : α}
    (hp : Always h I p s)
    (hrun : run h p s = some (a, s')) : I s' := by
  induction p generalizing s with
  | ret b =>
      simp only [run_ret, Option.some.injEq, Prod.mk.injEq] at hrun
      rw [← hrun.2]
      exact hp.start
  | call o k ih =>
      apply ih _ (fun n => hp (n + 1)) hrun
  | stuck =>
      simp at hrun

end Run

/-- Every result of `p` satisfies `Q`, whatever the responses are. -/
def Post (Q : α → Prop) : Prog Op Resp α → Prop
  | .ret a => Q a
  | .call _ k => ∀ r, Post Q (k r)
  | .stuck => True

@[simp] theorem post_ret (Q : α → Prop) (a : α) :
    Post Q (.ret a : Prog Op Resp α) ↔ Q a := by
  rfl

@[simp] theorem post_pure (Q : α → Prop) (a : α) :
    Post Q (pure a : Prog Op Resp α) ↔ Q a := by
  rfl

@[simp] theorem post_stuck (Q : α → Prop) :
    Post Q (.stuck : Prog Op Resp α) ↔ True := by
  rfl

theorem post_bind
    {Q : β → Prop} {R : α → Prop}
    {p : Prog Op Resp α} {f : α → Prog Op Resp β}
    (hp : Post R p) (hf : ∀ a, R a → Post Q (f a)) :
    Post Q (p >>= f) := by
  change Post Q (bind p f)
  induction p with
  | ret a =>
      exact hf a hp
  | call o k ih =>
      intro r
      exact ih r (hp r)
  | stuck =>
      trivial

theorem post_true (p : Prog Op Resp α) :
    Post (fun _ => True) p := by
  induction p with
  | ret a =>
      trivial
  | call o k ih =>
      exact ih
  | stuck =>
      trivial

theorem Post.mono
    {Q R : α → Prop} {p : Prog Op Resp α}
    (hQR : ∀ a, Q a → R a) (hp : Post Q p) : Post R p := by
  induction p with
  | ret a =>
      exact hQR a hp
  | call o k ih =>
      intro r
      exact ih r (hp r)
  | stuck =>
      trivial

/-- A result property of all executions holds of each one. -/
theorem Post.of_run
    {Q : α → Prop} {p : Prog Op Resp α}
    {h : (o : Op) → σ → Resp o × σ} {s s' : σ} {a : α}
    (hp : Post Q p) (hrun : run h p s = some (a, s')) : Q a := by
  induction p generalizing s with
  | ret b =>
      simp only [run_ret, Option.some.injEq, Prod.mk.injEq] at hrun
      rw [← hrun.1]
      exact hp
  | call o k ih =>
      exact ih _ (hp _) hrun
  | stuck =>
      simp at hrun

section Exec

variable (R : (o : Op) → σ → Resp o → σ → Prop)

/-- `p` can end with result `b` in `s'` when started in `s`. -/
def Exec : Prog Op Resp α → σ → α → σ → Prop
  | .ret a, s, b, s' => b = a ∧ s' = s
  | .call o k, s, b, s' => ∃ r t, R o s r t ∧ Exec (k r) t b s'
  | .stuck, _, _, _ => False

variable {R}

@[simp] theorem exec_ret {a b : α} {s s' : σ} :
    Exec R (.ret a : Prog Op Resp α) s b s' ↔ b = a ∧ s' = s := by
  rfl

@[simp] theorem exec_pure {a b : α} {s s' : σ} :
    Exec R (pure a : Prog Op Resp α) s b s' ↔ b = a ∧ s' = s := by
  rfl

@[simp] theorem exec_stuck {b : α} {s s' : σ} :
    ¬ Exec R (.stuck : Prog Op Resp α) s b s' := by
  simp [Exec]

@[simp] theorem exec_perform {o : Op} {r : Resp o} {s s' : σ} :
    Exec R (perform o : Prog Op Resp (Resp o)) s r s' ↔ R o s r s' := by
  constructor
  · rintro ⟨r', t, hR, rfl, rfl⟩
    exact hR
  · intro hR
    exact ⟨r, s', hR, rfl, rfl⟩

theorem exec_bind
    {p : Prog Op Resp α} {f : α → Prog Op Resp β} {s s' : σ} {b : β} :
    Exec R (p >>= f) s b s' ↔
      ∃ a t, Exec R p s a t ∧ Exec R (f a) t b s' := by
  change Exec R (bind p f) s b s' ↔ _
  induction p generalizing s with
  | ret a =>
      constructor
      · intro hf
        exact ⟨a, s, ⟨rfl, rfl⟩, hf⟩
      · rintro ⟨a', t, ⟨rfl, rfl⟩, hf⟩
        exact hf
  | call o k ih =>
      constructor
      · rintro ⟨r, t, hR, hk⟩
        obtain ⟨a, t', hp, hf⟩ := (ih r).mp hk
        exact ⟨a, t', ⟨r, t, hR, hp⟩, hf⟩
      · rintro ⟨a, t', ⟨r, t, hR, hp⟩, hf⟩
        exact ⟨r, t, hR, (ih r).mpr ⟨a, t', hp, hf⟩⟩
  | stuck =>
      constructor
      · intro hf
        exact hf.elim
      · rintro ⟨_, _, hp, _⟩
        exact hp.elim

/-- A run under a handler whose answers the relation allows. -/
theorem Exec.of_run
    {h : (o : Op) → σ → Resp o × σ}
    (hR : ∀ o s, R o s (h o s).1 (h o s).2)
    {p : Prog Op Resp α} {s s' : σ} {a : α}
    (hrun : run h p s = some (a, s')) : Exec R p s a s' := by
  induction p generalizing s with
  | ret b =>
      simp only [run_ret, Option.some.injEq, Prod.mk.injEq] at hrun
      exact ⟨hrun.1.symm, hrun.2.symm⟩
  | call o k ih =>
      exact ⟨_, _, hR o s, ih _ hrun⟩
  | stuck =>
      simp at hrun

/-- An execution all of whose answers are those of a handler is its run. -/
theorem Exec.run
    {h : (o : Op) → σ → Resp o × σ}
    (hR : ∀ o s r t, R o s r t → (r, t) = h o s)
    {p : Prog Op Resp α} {s s' : σ} {a : α}
    (he : Exec R p s a s') : run h p s = some (a, s') := by
  induction p generalizing s with
  | ret b =>
      obtain ⟨rfl, rfl⟩ := he
      rfl
  | call o k ih =>
      obtain ⟨r, t, hr, hk⟩ := he
      have heq := hR o s r t hr
      rw [run_call, ← heq]
      exact ih r hk
  | stuck =>
      exact he.elim

theorem Post.of_exec {Q : α → Prop} {p : Prog Op Resp α} {s s' : σ} {a : α}
    (hp : Post Q p) (he : Exec R p s a s') : Q a := by
  induction p generalizing s with
  | ret b =>
      obtain ⟨rfl, -⟩ := he
      exact hp
  | call o k ih =>
      obtain ⟨r, t, -, hk⟩ := he
      exact ih r (hp r) hk
  | stuck =>
      exact he.elim

end Exec

section Wp

variable (R : (o : Op) → σ → Resp o → σ → Prop)

/-- Every execution of `p` from `s` keeps `I` at each point, does not get
stuck and ends with `Q`. -/
def Wp (I : σ → Prop) : Prog Op Resp α → σ → (α → σ → Prop) → Prop
  | .ret a, s, Q => I s ∧ Q a s
  | .call o k, s, Q => I s ∧ ∀ r t, R o s r t → Wp I (k r) t Q
  | .stuck, _, _ => False

variable {R} {I : σ → Prop}

theorem Wp.start {p : Prog Op Resp α} {s : σ} {Q : α → σ → Prop}
    (hp : Wp R I p s Q) : I s := by
  cases p with
  | ret a =>
      exact hp.1
  | call o k =>
      exact hp.1
  | stuck =>
      exact hp.elim

theorem wp_pure {a : α} {s : σ} {Q : α → σ → Prop}
    (hs : I s) (hQ : Q a s) : Wp R I (pure a : Prog Op Resp α) s Q :=
  ⟨hs, hQ⟩

theorem wp_perform {o : Op} {s : σ} {Q : Resp o → σ → Prop}
    (hs : I s) (hQ : ∀ r t, R o s r t → I t ∧ Q r t) :
    Wp R I (perform o : Prog Op Resp (Resp o)) s Q :=
  ⟨hs, hQ⟩

theorem Wp.mono {p : Prog Op Resp α} {s : σ} {Q Q' : α → σ → Prop}
    {J : σ → Prop} (hp : Wp R I p s Q) (hIJ : ∀ t, I t → J t)
    (hQ : ∀ a t, Q a t → Q' a t) : Wp R J p s Q' := by
  induction p generalizing s with
  | ret a =>
      exact ⟨hIJ s hp.1, hQ a s hp.2⟩
  | call o k ih =>
      exact ⟨hIJ s hp.1, fun r t hr => ih r (hp.2 r t hr)⟩
  | stuck =>
      exact hp.elim

/-- An environment with fewer answers has fewer executions. -/
theorem Wp.weaken {R' : (o : Op) → σ → Resp o → σ → Prop}
    {p : Prog Op Resp α} {s : σ} {Q : α → σ → Prop} (hp : Wp R I p s Q)
    (hR : ∀ o s r t, R' o s r t → R o s r t) : Wp R' I p s Q := by
  induction p generalizing s with
  | ret a =>
      exact hp
  | call o k ih =>
      exact ⟨hp.1, fun r t hr => ih r (hp.2 r t (hR o s r t hr))⟩
  | stuck =>
      exact hp.elim

/-- The invariant holds at the end as well. -/
theorem Wp.keep {p : Prog Op Resp α} {s : σ} {Q : α → σ → Prop}
    (hp : Wp R I p s Q) : Wp R I p s (fun a t => I t ∧ Q a t) := by
  induction p generalizing s with
  | ret a =>
      exact ⟨hp.1, hp⟩
  | call o k ih =>
      exact ⟨hp.1, fun r t hr => ih r (hp.2 r t hr)⟩
  | stuck =>
      exact hp.elim

/-- The invariant holds between the parts of a composition. -/
theorem wp_seq {p : Prog Op Resp α} {f : α → Prog Op Resp β} {s : σ}
    {P : α → σ → Prop} {Q : β → σ → Prop}
    (hp : Wp R I p s P) (hf : ∀ a t, I t → P a t → Wp R I (f a) t Q) :
    Wp R I (p >>= f) s Q := by
  change Wp R I (bind p f) s Q
  induction p generalizing s with
  | ret a =>
      exact hf a s hp.1 hp.2
  | call o k ih =>
      exact ⟨hp.1, fun r t hR => ih r (hp.2 r t hR)⟩
  | stuck =>
      exact hp.elim

theorem wp_bind {p : Prog Op Resp α} {f : α → Prog Op Resp β} {s : σ}
    {P : α → σ → Prop} {Q : β → σ → Prop}
    (hp : Wp R I p s P) (hf : ∀ a t, P a t → Wp R I (f a) t Q) :
    Wp R I (p >>= f) s Q :=
  wp_seq hp (fun a t _ => hf a t)

theorem Wp.exec {p : Prog Op Resp α} {s s' : σ} {a : α}
    {Q : α → σ → Prop} (hp : Wp R I p s Q) (he : Exec R p s a s') :
    Q a s' := by
  induction p generalizing s with
  | ret b =>
      obtain ⟨rfl, rfl⟩ := he
      exact hp.2
  | call o k ih =>
      obtain ⟨r, t, hr, hk⟩ := he
      exact ih r (hp.2 r t hr) hk
  | stuck =>
      exact hp.elim

/-- Executions under a handler whose answers the relation allows. -/
theorem Wp.run {h : (o : Op) → σ → Resp o × σ}
    (hR : ∀ o s, R o s (h o s).1 (h o s).2)
    {p : Prog Op Resp α} {s : σ} {Q : α → σ → Prop}
    (hp : Wp R I p s Q) :
    ∃ a s', Prog.run h p s = some (a, s') ∧ Q a s' := by
  induction p generalizing s with
  | ret b =>
      exact ⟨b, s, rfl, hp.2⟩
  | call o k ih =>
      exact ih _ (hp.2 _ _ (hR o s))
  | stuck =>
      exact hp.elim

theorem Wp.always {h : (o : Op) → σ → Resp o × σ}
    (hR : ∀ o s, R o s (h o s).1 (h o s).2)
    {p : Prog Op Resp α} {s : σ} {Q : α → σ → Prop}
    (hp : Wp R I p s Q) : Always h I p s := by
  induction p generalizing s with
  | ret b =>
      exact always_ret hp.1
  | call o k ih =>
      exact always_call hp.1 (ih _ (hp.2 _ _ (hR o s)))
  | stuck =>
      exact hp.elim

end Wp

section Reads

variable (h : (o : Op) → σ → Resp o × σ)
variable (R : (o : Op) → σ → Resp o → σ → Prop)

/-- In `s` the operation leaves the environment alone, and the handler's
answer is the only one the relation allows. -/
structure IsRead (o : Op) (s : σ) : Prop where
  handler : (h o s).2 = s
  only : ∀ r s', R o s r s' → r = (h o s).1 ∧ s' = s

/-- `p` only reads when started in `s`, and its result is `b`. -/
def Reads : Prog Op Resp α → σ → α → Prop
  | .ret a, _, b => b = a
  | .call o k, s, b => IsRead h R o s ∧ Reads (k (h o s).1) s b
  | .stuck, _, _ => False

variable {h R}

theorem reads_pure {a : α} {s : σ} :
    Reads h R (pure a : Prog Op Resp α) s a := by
  rfl

theorem reads_perform {o : Op} {s : σ} (ho : IsRead h R o s) :
    Reads h R (perform o : Prog Op Resp (Resp o)) s (h o s).1 :=
  ⟨ho, rfl⟩

theorem reads_bind
    {p : Prog Op Resp α} {f : α → Prog Op Resp β} {s : σ} {a : α} {b : β}
    (hp : Reads h R p s a) (hf : Reads h R (f a) s b) :
    Reads h R (p >>= f) s b := by
  change Reads h R (bind p f) s b
  induction p with
  | ret a' =>
      cases hp
      exact hf
  | call o k ih =>
      exact ⟨hp.1, ih _ hp.2⟩
  | stuck =>
      exact hp.elim

theorem Reads.run
    {p : Prog Op Resp α} {s : σ} {a : α} (hp : Reads h R p s a) :
    Prog.run h p s = some (a, s) := by
  induction p with
  | ret b =>
      rw [run_ret, show a = b from hp]
  | call o k ih =>
      obtain ⟨ho, hk⟩ := hp
      change Prog.run h (k (h o s).1) (h o s).2 = some (a, s)
      rw [ho.handler]
      exact ih _ hk
  | stuck =>
      exact hp.elim

theorem Reads.wp
    {R' : (o : Op) → σ → Resp o → σ → Prop} {I : σ → Prop}
    {p : Prog Op Resp α} {s : σ} {a : α} {Q : α → σ → Prop}
    (hR : ∀ o s r t, R' o s r t → R o s r t)
    (hp : Reads h R p s a) (hs : I s) (hQ : Q a s) : Wp R' I p s Q := by
  induction p with
  | ret a' =>
      cases hp
      exact ⟨hs, hQ⟩
  | call o k ih =>
      refine ⟨hs, ?_⟩
      intro r t hr
      obtain ⟨rfl, rfl⟩ := hp.1.only r t (hR _ _ _ _ hr)
      exact ih _ hp.2
  | stuck =>
      exact hp.elim

/-- A read at the head of a composition. -/
theorem wp_bind_reads
    {R' : (o : Op) → σ → Resp o → σ → Prop} {I : σ → Prop}
    {p : Prog Op Resp α} {f : α → Prog Op Resp β} {s : σ} {a : α}
    {Q : β → σ → Prop}
    (hR : ∀ o s r t, R' o s r t → R o s r t)
    (hp : Reads h R p s a) (hf : Wp R' I (f a) s Q) :
    Wp R' I (p >>= f) s Q := by
  apply wp_bind (hp.wp hR hf.start (Q := fun b t => b = a ∧ t = s) ⟨rfl, rfl⟩)
  rintro b t ⟨rfl, rfl⟩
  exact hf

end Reads

end Prog

end Lib
end Qdb
