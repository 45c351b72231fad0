import Mathlib.Tactic

/-!
# Labelled runs

A transition system is a relation between states with a label on each step.
`Run` is its reflexive transitive closure with the list of the labels.  A
property of all runs is proved from what one step keeps (`Run.invariant`), and a
run of one system is carried over to another one by a simulation
(`Run.simulate`).
-/

namespace Qdb
namespace Lib

variable {σ τ α : Type}

/-- A run from `s` with the labels of its steps. -/
inductive Run (next : σ → α → σ → Prop) (s : σ) : List α → σ → Prop
  | nil : Run next s [] s
  | snoc {as : List α} {t : σ} {a : α} {u : σ}
      (h : Run next s as t) (hs : next t a u) : Run next s (as ++ [a]) u

namespace Run

variable {next : σ → α → σ → Prop} {next' : τ → α → τ → Prop}
variable {s t u : σ} {as bs : List α} {a : α}

theorem single (h : next s a t) : Run next s [a] t :=
  snoc nil h

theorem trans (h : Run next s as t) (h' : Run next t bs u) :
    Run next s (as ++ bs) u := by
  induction h' with
  | nil =>
      rw [List.append_nil]
      exact h
  | snoc h₁ hs ih =>
      rw [← List.append_assoc]
      exact snoc ih hs

theorem nil_inv (h : Run next s [] t) : t = s := by
  generalize has : ([] : List α) = as at h
  cases h with
  | nil =>
      rfl
  | snoc h₁ hs =>
      simp at has

/-- The last step of a run. -/
theorem snoc_inv (h : Run next s (as ++ [a]) u) :
    ∃ t, Run next s as t ∧ next t a u := by
  generalize has : as ++ [a] = bs at h
  cases h with
  | nil =>
      simp at has
  | @snoc cs t b _ h₁ hs =>
      obtain ⟨h1, h2⟩ := List.append_inj' has rfl
      cases h2
      exact ⟨t, h1 ▸ h₁, hs⟩

/-- A run in two parts. -/
theorem append_inv (h : Run next s (as ++ bs) u) :
    ∃ t, Run next s as t ∧ Run next t bs u := by
  induction bs using List.reverseRecOn generalizing u with
  | nil =>
      rw [List.append_nil] at h
      exact ⟨u, h, nil⟩
  | append_singleton bs b ih =>
      rw [← List.append_assoc] at h
      obtain ⟨t, ht, hs⟩ := snoc_inv h
      obtain ⟨t', h1, h2⟩ := ih ht
      exact ⟨t', h1, snoc h2 hs⟩

/-- What holds at the start and is kept by every step holds at the end. -/
theorem invariant {P : List α → σ → Prop} (h : Run next s as t)
    (h0 : P [] s)
    (hstep : ∀ as t a u, Run next s as t → P as t → next t a u →
      P (as ++ [a]) u) : P as t := by
  induction h with
  | nil =>
      exact h0
  | snoc h₁ hs ih =>
      exact hstep _ _ _ _ h₁ ih hs

/-- A simulation carries runs over. -/
theorem simulate {R : σ → τ → Prop} {s' : τ} (h : Run next s as t)
    (h0 : R s s')
    (hstep : ∀ t a u t', R t t' → next t a u → ∃ u', next' t' a u' ∧ R u u') :
    ∃ t', Run next' s' as t' ∧ R t t' := by
  induction h with
  | nil =>
      exact ⟨s', nil, h0⟩
  | snoc h₁ hs ih =>
      obtain ⟨t', hrun, hR⟩ := ih
      obtain ⟨u', hs', hR'⟩ := hstep _ _ _ _ hR hs
      exact ⟨u', snoc hrun hs', hR'⟩

/-- Steps that only start where an invariant holds. -/
theorem strengthen {P : σ → Prop} {next' : σ → α → σ → Prop}
    (h : Run next s as t) (h0 : P s)
    (hstep : ∀ t a u, P t → next t a u → next' t a u ∧ P u) :
    Run next' s as t ∧ P t := by
  induction h with
  | nil =>
      exact ⟨nil, h0⟩
  | snoc h₁ hs ih =>
      obtain ⟨hs', hP⟩ := hstep _ _ _ ih.2 hs
      exact ⟨snoc ih.1 hs', hP⟩

theorem mono (h : Run next s as t) {next' : σ → α → σ → Prop}
    (hn : ∀ t a u, next t a u → next' t a u) : Run next' s as t := by
  induction h with
  | nil =>
      exact nil
  | snoc h₁ hs ih =>
      exact snoc ih (hn _ _ _ hs)

end Run

/-- A step together with the states around it. -/
structure Transition (σ α : Type) where
  before : σ
  act : α
  after : σ

/-- The step relation with its states in the label. -/
def Traced (next : σ → α → σ → Prop) (s : σ) (x : Transition σ α) (t : σ) : Prop :=
  x.before = s ∧ x.after = t ∧ next s x.act t

namespace Run

variable {next : σ → α → σ → Prop} {s t : σ} {as : List α}

/-- The states may be written down along a run. -/
theorem traced (h : Run next s as t) :
    ∃ xs, Run (Traced next) s xs t ∧ xs.map Transition.act = as := by
  induction h with
  | nil =>
      exact ⟨[], nil, rfl⟩
  | @snoc as t a u h₁ hs ih =>
      obtain ⟨xs, hxs, rfl⟩ := ih
      exact ⟨xs ++ [⟨t, a, u⟩], snoc hxs ⟨rfl, rfl, hs⟩, List.map_append⟩

end Run

end Lib
end Qdb
