import Mathlib.Tactic

/-!
# Doubly linked lists threaded by identifiers

Nodes are named by identifiers of a type `ι`; the links are two maps `nx` and
`pv` from identifiers to identifiers and a sentinel `z` marks the missing
neighbour.  `Linked` says that the links, together with a head and a tail
identifier, represent a list.

The two operations of such a list are stated as updates of the link maps:
`Linked.append` adds a node at the tail, `Linked.remove` unlinks a node at any
position.  `Linked.frame` says that only the links of the members matter.
-/

namespace Qdb
namespace Lib

variable {ι : Type} [DecidableEq ι]

/-- The links of `xs` are consistent between a left neighbour `p` of the first
element and a right neighbour `e` of the last one. -/
def Segment (nx pv : ι → ι) (p : ι) : List ι → ι → Prop
  | [], _ => True
  | x :: xs, e => pv x = p ∧ nx x = xs.headD e ∧ Segment nx pv x xs e

/-- The links, with head and tail, represent the list `xs`. -/
structure Linked
    (nx pv : ι → ι) (z head tail : ι) (xs : List ι) : Prop where
  head_eq : head = xs.headD z
  tail_eq : tail = xs.getLastD z
  segment : Segment nx pv z xs z
  nodup : xs.Nodup
  sentinel : z ∉ xs

namespace Linked

variable {nx pv nx' pv' : ι → ι} {z p e e' head tail m : ι} {xs ys : List ι}

omit [DecidableEq ι] in
theorem segment_congr
    (hn : ∀ x ∈ xs, nx' x = nx x) (hp : ∀ x ∈ xs, pv' x = pv x)
    (h : Segment nx pv p xs e) : Segment nx' pv' p xs e := by
  induction xs generalizing p with
  | nil =>
      trivial
  | cons x xs ih =>
      obtain ⟨h1, h2, h3⟩ := h
      refine ⟨?_, ?_, ?_⟩
      · rw [hp x (by simp), h1]
      · rw [hn x (by simp), h2]
      · exact ih (fun y hy => hn y (List.mem_cons_of_mem _ hy))
          (fun y hy => hp y (List.mem_cons_of_mem _ hy)) h3

omit [DecidableEq ι] in
/-- A segment splits at any position. -/
theorem segment_append :
    Segment nx pv p (xs ++ ys) e ↔
      Segment nx pv p xs (ys.headD e) ∧
        Segment nx pv (xs.getLastD p) ys e := by
  induction xs generalizing p with
  | nil =>
      simp [Segment]
  | cons x xs ih =>
      have hlast : (x :: xs).getLastD p = xs.getLastD x := by
        cases xs <;> rfl
      have hhead : (xs ++ ys).headD e = xs.headD (ys.headD e) := by
        cases xs <;> rfl
      simp only [List.cons_append, Segment, ih, hlast, hhead, and_assoc]

omit [DecidableEq ι] in
theorem segment_snoc :
    Segment nx pv p (xs ++ [m]) e ↔
      Segment nx pv p xs m ∧ pv m = xs.getLastD p ∧ nx m = e := by
  rw [segment_append]
  simp [Segment]

omit [DecidableEq ι] in
/-- Only the links of the members matter. -/
theorem frame
    (hn : ∀ x ∈ xs, nx' x = nx x) (hp : ∀ x ∈ xs, pv' x = pv x)
    (h : Linked nx pv z head tail xs) :
    Linked nx' pv' z head tail xs :=
  { h with segment := segment_congr hn hp h.segment }

omit [DecidableEq ι] in
theorem nil (nx pv : ι → ι) (z : ι) : Linked nx pv z z z [] where
  head_eq := rfl
  tail_eq := rfl
  segment := trivial
  nodup := List.nodup_nil
  sentinel := by simp

omit [DecidableEq ι] in
theorem tail_eq_sentinel_iff
    (h : Linked nx pv z head tail xs) : tail = z ↔ xs = [] := by
  rw [h.tail_eq]
  constructor
  · intro ht
    rcases xs.eq_nil_or_concat' with rfl | ⟨ys, y, rfl⟩
    · rfl
    · have hy : y ≠ z := by
        rintro rfl
        exact h.sentinel (by simp)
      simp at ht
      exact absurd ht hy
  · rintro rfl
    rfl

omit [DecidableEq ι] in
theorem tail_mem
    (h : Linked nx pv z head tail xs) (ht : tail ≠ z) : tail ∈ xs := by
  rcases xs.eq_nil_or_concat' with rfl | ⟨ys, y, rfl⟩
  · exact absurd h.tail_eq ht
  · rw [h.tail_eq]
    simp

/-- Appending a node behind the tail. -/
theorem append
    (h : Linked nx pv z head tail xs) (hm : m ∉ xs) (hz : m ≠ z)
    (hnm : nx' m = z) (hpm : pv' m = tail)
    (hnt : tail ≠ z → nx' tail = m)
    (hn : ∀ x ∈ xs, x ≠ tail → nx' x = nx x)
    (hp : ∀ x ∈ xs, pv' x = pv x) :
    Linked nx' pv' z (if tail = z then m else head) m (xs ++ [m]) := by
  have hnd : (xs ++ [m]).Nodup := by
    rw [List.nodup_append]
    refine ⟨h.nodup, List.nodup_singleton m, ?_⟩
    intro a ha b hb
    rw [List.mem_singleton] at hb
    subst hb
    rintro rfl
    exact hm ha
  have hsent : z ∉ xs ++ [m] := by
    simp only [List.mem_append, List.mem_singleton, not_or]
    exact ⟨h.sentinel, hz.symm⟩
  rcases xs.eq_nil_or_concat' with rfl | ⟨ys, t, rfl⟩
  · have ht : tail = z := h.tail_eq
    subst ht
    refine ⟨by simp, by simp, ?_, hnd, hsent⟩
    simp [Segment, hnm, hpm]
  · have ht : tail = t := by
      rw [h.tail_eq]
      simp
    subst ht
    have htz : tail ≠ z := by
      rintro rfl
      exact h.sentinel (by simp)
    have htys : tail ∉ ys := by
      have := h.nodup
      rw [List.nodup_append] at this
      intro hmem
      exact this.2.2 tail hmem tail (by simp) rfl
    obtain ⟨hs1, hs2, _⟩ := segment_snoc.mp h.segment
    have hs1' : Segment nx' pv' z ys tail := by
      refine segment_congr ?_ ?_ hs1
      · intro x hx
        refine hn x (List.mem_append_left _ hx) ?_
        rintro rfl
        exact htys hx
      · intro x hx
        exact hp x (List.mem_append_left _ hx)
    refine ⟨?_, by simp, ?_, hnd, hsent⟩
    · rw [if_neg htz, h.head_eq]
      cases ys <;> rfl
    · rw [segment_snoc, segment_snoc]
      refine ⟨⟨hs1', ?_, hnt htz⟩, ?_, hnm⟩
      · rw [hp tail (by simp), hs2]
      · rw [hpm]
        simp

omit [DecidableEq ι] in
/-- The neighbours of a listed node are listed, and are other nodes. -/
theorem neighbours
    (h : Linked nx pv z head tail xs) (hm : m ∈ xs) :
    (pv m ≠ z → pv m ∈ xs ∧ pv m ≠ m) ∧
      (nx m ≠ z → nx m ∈ xs ∧ nx m ≠ m) := by
  obtain ⟨as, bs, rfl⟩ := List.append_of_mem hm
  obtain ⟨-, hpv, hnx, -⟩ := segment_append.mp h.segment
  have hnd := h.nodup
  rw [List.nodup_append, List.nodup_cons] at hnd
  obtain ⟨-, ⟨hmbs, -⟩, hdisj⟩ := hnd
  constructor
  · intro hne
    rcases as.eq_nil_or_concat' with rfl | ⟨as', a, rfl⟩
    · exact absurd hpv hne
    · have hpa : pv m = a := by simpa using hpv
      rw [hpa]
      refine ⟨by simp, ?_⟩
      rintro rfl
      exact hdisj a (by simp) a (by simp) rfl
  · intro hne
    cases bs with
    | nil =>
        exact absurd hnx hne
    | cons b bs =>
        have hnb : nx m = b := hnx
        rw [hnb]
        refine ⟨by simp, ?_⟩
        rintro rfl
        exact hmbs (by simp)

/-- Unlinking a node at any position. -/
theorem remove
    (h : Linked nx pv z head tail xs) (hm : m ∈ xs)
    (hpn : pv m ≠ z → nx' (pv m) = nx m)
    (hnp : nx m ≠ z → pv' (nx m) = pv m)
    (hn : ∀ x ∈ xs, x ≠ m → x ≠ pv m → nx' x = nx x)
    (hp : ∀ x ∈ xs, x ≠ m → x ≠ nx m → pv' x = pv x) :
    Linked nx' pv' z (if pv m = z then nx m else head)
      (if nx m = z then pv m else tail) (xs.erase m) := by
  obtain ⟨as, bs, rfl⟩ := List.append_of_mem hm
  have hseg := segment_append.mp h.segment
  obtain ⟨hsa, hpv, hnx, hsb⟩ := hseg
  have hnd := h.nodup
  rw [List.nodup_append, List.nodup_cons] at hnd
  obtain ⟨hnda, ⟨hmbs, hndb⟩, hdisj⟩ := hnd
  have hmas : m ∉ as := by
    intro hmem
    exact hdisj m hmem m (by simp) rfl
  have herase : (as ++ m :: bs).erase m = as ++ bs := by
    rw [List.erase_append_right _ hmas, List.erase_cons_head]
  have hz : ∀ x ∈ as ++ m :: bs, x ≠ z := by
    rintro x hx rfl
    exact h.sentinel hx
  have hsub : (as ++ bs).Sublist (as ++ m :: bs) :=
    (List.sublist_cons_self m bs).append_left as
  rw [herase]
  have hsent : z ∉ as ++ bs := fun hmem => h.sentinel (hsub.subset hmem)
  have hnodup : (as ++ bs).Nodup := h.nodup.sublist hsub
  have hsegA : Segment nx' pv' z as (bs.headD z) := by
    rcases as.eq_nil_or_concat' with rfl | ⟨as', a, rfl⟩
    · trivial
    · obtain ⟨h1, h2, _⟩ := segment_snoc.mp hsa
      have hpa : pv m = a := by simpa using hpv
      have haz : a ≠ z := hz a (by simp)
      have ha' : a ∉ as' := by
        rw [List.nodup_append] at hnda
        intro hmem
        exact hnda.2.2 a hmem a (by simp) rfl
      have hnxm : nx m ∉ as' ++ [a] := by
        intro hmem
        rw [hnx] at hmem
        cases bs with
        | nil =>
            exact hz z (List.mem_append_left _ hmem) rfl
        | cons b bs =>
            exact hdisj b hmem b (by simp) rfl
      rw [segment_snoc]
      refine ⟨segment_congr ?_ ?_ h1, ?_, ?_⟩
      · intro x hx
        apply hn x (by simp [hx])
        · rintro rfl
          exact hmas (by simp [hx])
        · rw [hpa]
          rintro rfl
          exact ha' hx
      · intro x hx
        apply hp x (by simp [hx])
        · rintro rfl
          exact hmas (by simp [hx])
        · rintro rfl
          exact hnxm (by simp [hx])
      · rw [hp a (by simp), h2]
        · rintro rfl
          exact hmas (by simp)
        · rintro rfl
          exact hnxm (by simp)
      · have := hpn (by rw [hpa]; exact haz)
        rw [hpa] at this
        rw [this, hnx]
  have hsegB : Segment nx' pv' (as.getLastD z) bs z := by
    cases bs with
    | nil =>
        trivial
    | cons b bs =>
        have hnb : nx m = b := hnx
        have hbz : b ≠ z := hz b (by simp)
        obtain ⟨_, h2, h3⟩ := hsb
        rw [List.nodup_cons] at hndb
        have hpvm : pv m ∉ b :: bs := by
          intro hmem
          rw [hpv] at hmem
          rcases as.eq_nil_or_concat' with rfl | ⟨as', a, rfl⟩
          · exact hz z (by simp at hmem; simp [hmem]) rfl
          · simp only [List.getLastD_concat] at hmem
            exact hdisj a (by simp) a (List.mem_cons_of_mem _ hmem) rfl
        refine ⟨?_, ?_, segment_congr ?_ ?_ h3⟩
        · have := hnp (by rw [hnb]; exact hbz)
          rw [hnb] at this
          rw [this, hpv]
        · rw [hn b (by simp), h2]
          · rintro rfl
            exact hmbs (by simp)
          · rintro rfl
            exact hpvm (by simp)
        · intro x hx
          apply hn x (by simp [hx])
          · rintro rfl
            exact hmbs (by simp [hx])
          · rintro rfl
            exact hpvm (by simp [hx])
        · intro x hx
          apply hp x (by simp [hx])
          · rintro rfl
            exact hmbs (by simp [hx])
          · rw [hnb]
            rintro rfl
            exact hndb.1 hx
  refine ⟨?_, ?_, segment_append.mpr ⟨hsegA, hsegB⟩, hnodup, hsent⟩
  · cases as with
    | nil =>
        have hpz : pv m = z := hpv
        rw [if_pos hpz, hnx]
        rfl
    | cons a as =>
        have hpz : pv m ≠ z := by
          rw [hpv]
          apply hz
          rcases (a :: as).eq_nil_or_concat' with h0 | ⟨as', c, h0⟩
          · simp at h0
          · rw [h0]
            simp
        rw [if_neg hpz, h.head_eq]
        rfl
  · cases bs with
    | nil =>
        have hnz : nx m = z := hnx
        rw [if_pos hnz, hpv]
        simp
    | cons b bs =>
        have hnz : nx m ≠ z := by
          rw [hnx]
          exact hz b (by simp)
        rw [if_neg hnz, h.tail_eq]
        simp [List.getLastD_eq_getLast?, List.getLast?_append]

end Linked

/-- The identifiers met by following `nx` from `x` to the sentinel, at most
`fuel` of them. -/
def walk (nx : ι → ι) (z : ι) : Nat → ι → List ι
  | 0, _ => []
  | fuel + 1, x => if x = z then [] else x :: walk nx z fuel (nx x)

theorem walk_segment {nx pv : ι → ι} {z p : ι} {xs : List ι} {fuel : Nat}
    (h : Segment nx pv p xs z) (hz : z ∉ xs) (hfuel : xs.length ≤ fuel) :
    walk nx z fuel (xs.headD z) = xs := by
  induction xs generalizing p fuel with
  | nil =>
      cases fuel with
      | zero =>
          rfl
      | succ fuel =>
          simp [walk]
  | cons x xs ih =>
      cases fuel with
      | zero =>
          simp at hfuel
      | succ fuel =>
          obtain ⟨-, hnx, hrest⟩ := h
          have hx : x ≠ z := by
            rintro rfl
            simp at hz
          have hz' : z ∉ xs := fun hm => hz (List.mem_cons_of_mem x hm)
          simp only [List.headD_cons, walk, if_neg hx, hnx]
          rw [ih hrest hz' (by simpa using hfuel)]

/-- Following the links from the head gives the represented list. -/
theorem Linked.walk_eq {nx pv : ι → ι} {z head tail : ι} {xs : List ι}
    (h : Linked nx pv z head tail xs) {fuel : Nat}
    (hfuel : xs.length ≤ fuel) : walk nx z fuel head = xs := by
  rw [h.head_eq]
  exact walk_segment h.segment h.sentinel hfuel

end Lib
end Qdb
