import Mathlib.Tactic

/-!
# Hash tables with separate chaining

A table is a fixed array of buckets, each a list of entries; new entries are
linked in at the front of their chain, as an intrusive C hash table does.
Entries carry their own key.  Lookup, in-place modification and removal act on
the first entry of the chain with the requested key.

`WellPlaced` is the invariant of such a table: every entry lies in the bucket
of its key and no key occurs twice.  Under it the table is a finite map, which
the lookup lemmas state, and the traversal `toList` lists every entry exactly
once, which the permutation lemmas state.
-/

namespace Qdb
namespace Lib

/-- Buckets of a chained hash table. -/
abbrev Table (n : Nat) (α : Type) := Fin n → List α

namespace Table

variable {n : Nat} {κ α : Type} [DecidableEq κ]

/-- Apply `f` to the first entry of a chain that satisfies `p`. -/
def modifyFirst (p : α → Bool) (f : α → α) : List α → List α
  | [] => []
  | a :: l => if p a then f a :: l else a :: modifyFirst p f l

/-- The table without entries. -/
def empty : Table n α := fun _ => []

/-- All entries, bucket by bucket. -/
def toList (t : Table n α) : List α :=
  (List.finRange n).flatMap t

section Ops

variable (bucket : κ → Fin n) (key : α → κ)

/-- First entry with key `k`. -/
def lookup (t : Table n α) (k : κ) : Option α :=
  (t (bucket k)).find? (fun a => decide (key a = k))

/-- Link an entry in at the front of its chain. -/
def insert (t : Table n α) (a : α) : Table n α :=
  Function.update t (bucket (key a)) (a :: t (bucket (key a)))

/-- Change the first entry with key `k` in place. -/
def modify (t : Table n α) (k : κ) (f : α → α) : Table n α :=
  Function.update t (bucket k)
    (modifyFirst (fun a => decide (key a = k)) f (t (bucket k)))

/-- Unlink the first entry with key `k`. -/
def remove (t : Table n α) (k : κ) : Table n α :=
  Function.update t (bucket k)
    ((t (bucket k)).eraseP (fun a => decide (key a = k)))

/-- Every entry is in the bucket of its key, and no key occurs twice. -/
structure WellPlaced (t : Table n α) : Prop where
  placed : ∀ b a, a ∈ t b → bucket (key a) = b
  nodup : ∀ b, ((t b).map key).Nodup

end Ops

theorem mem_toList {t : Table n α} {a : α} :
    a ∈ toList t ↔ ∃ b, a ∈ t b := by
  simp [toList]

@[simp] theorem toList_empty : toList (empty : Table n α) = [] := by
  simp [toList, empty]

/-- A table splits into one of its buckets and a remainder that does not
depend on that bucket. -/
theorem toList_update_perm (t : Table n α) (b : Fin n) :
    ∃ rest : List α,
      (toList t).Perm (t b ++ rest) ∧
        ∀ l, (toList (Function.update t b l)).Perm (l ++ rest) := by
  classical
  have hb : (List.finRange n).Perm (b :: (List.finRange n).erase b) :=
    List.perm_cons_erase (List.mem_finRange b)
  refine ⟨((List.finRange n).erase b).flatMap t, ?_, ?_⟩
  · have h := hb.flatMap_right t
    simpa [toList] using h
  · intro l
    have h := hb.flatMap_right (Function.update t b l)
    have hrest : ((List.finRange n).erase b).flatMap (Function.update t b l) =
        ((List.finRange n).erase b).flatMap t := by
      apply List.flatMap_congr
      intro c hc
      have hne : c ≠ b := by
        rintro rfl
        exact ((List.nodup_finRange n).not_mem_erase) hc
      simp [hne]
    simpa [toList, hrest] using h

section Lookup

variable {bucket : κ → Fin n} {key : α → κ}

@[simp] theorem lookup_empty (k : κ) :
    lookup bucket key (empty : Table n α) k = none := by
  rfl

theorem lookup_some_key
    {t : Table n α} {k : κ} {a : α}
    (h : lookup bucket key t k = some a) : key a = k := by
  simpa using List.find?_some h

theorem lookup_some_mem
    {t : Table n α} {k : κ} {a : α}
    (h : lookup bucket key t k = some a) : a ∈ toList t :=
  mem_toList.mpr ⟨_, List.mem_of_find?_eq_some h⟩

theorem lookup_insert (t : Table n α) (a : α) (k : κ) :
    lookup bucket key (insert bucket key t a) k =
      if key a = k then some a else lookup bucket key t k := by
  unfold lookup insert
  by_cases hb : bucket k = bucket (key a)
  · rw [hb, Function.update_self, List.find?_cons]
    by_cases hk : key a = k <;> simp [hk]
  · have hk : key a ≠ k := by
      rintro rfl
      exact hb rfl
    rw [Function.update_of_ne hb]
    simp [hk]

theorem find?_modifyFirst_same
    (k : κ) (f : α → α) (hf : ∀ a, key a = k → key (f a) = k) :
    ∀ l : List α,
      (modifyFirst (fun a => decide (key a = k)) f l).find?
          (fun a => decide (key a = k)) =
        (l.find? (fun a => decide (key a = k))).map f
  | [] => rfl
  | a :: l => by
      by_cases ha : key a = k
      · simp [modifyFirst, ha, hf a ha]
      · simp [modifyFirst, ha, find?_modifyFirst_same k f hf l]

theorem find?_modifyFirst_ne
    {k k' : κ} (hne : k' ≠ k)
    (f : α → α) (hf : ∀ a, key a = k → key (f a) = k) :
    ∀ l : List α,
      (modifyFirst (fun a => decide (key a = k)) f l).find?
          (fun a => decide (key a = k')) =
        l.find? (fun a => decide (key a = k'))
  | [] => rfl
  | a :: l => by
      by_cases ha : key a = k
      · have h1 : key a ≠ k' := by
          rw [ha]
          exact hne.symm
        have h2 : key (f a) ≠ k' := by
          rw [hf a ha]
          exact hne.symm
        simp [modifyFirst, ha, h2, hne.symm]
      · simp only [modifyFirst, ha, decide_false, Bool.false_eq_true,
          if_false, List.find?_cons]
        rw [find?_modifyFirst_ne hne f hf l]

theorem lookup_modify
    (t : Table n α) (k k' : κ) (f : α → α)
    (hf : ∀ a, key a = k → key (f a) = k) :
    lookup bucket key (modify bucket key t k f) k' =
      if k' = k then (lookup bucket key t k).map f
      else lookup bucket key t k' := by
  unfold lookup modify
  by_cases hk : k' = k
  · subst hk
    rw [Function.update_self, find?_modifyFirst_same k' f hf]
    simp
  · rw [if_neg hk]
    by_cases hb : bucket k' = bucket k
    · rw [hb, Function.update_self, find?_modifyFirst_ne hk f hf]
    · rw [Function.update_of_ne hb]

theorem modify_of_lookup_none
    {t : Table n α} {k : κ} (f : α → α)
    (h : lookup bucket key t k = none) :
    modify bucket key t k f = t := by
  have hl : ∀ l : List α,
      l.find? (fun a => decide (key a = k)) = none →
      modifyFirst (fun a => decide (key a = k)) f l = l := by
    intro l
    induction l with
    | nil =>
        intro _
        rfl
    | cons a l ih =>
        intro hn
        have ha : ¬ key a = k := by
          simpa using List.find?_eq_none.mp hn a (by simp)
        have hn' : l.find? (fun a => decide (key a = k)) = none := by
          simpa [ha] using hn
        simp [modifyFirst, ha, ih hn']
  unfold modify
  rw [hl _ h, Function.update_eq_self]

theorem find?_eraseP_same
    (k : κ) :
    ∀ l : List α, (l.map key).Nodup →
      (l.eraseP (fun a => decide (key a = k))).find?
        (fun a => decide (key a = k)) = none
  | [], _ => rfl
  | a :: l, hnd => by
      simp only [List.map_cons, List.nodup_cons] at hnd
      by_cases ha : key a = k
      · rw [List.eraseP_cons_of_pos (by simp [ha]), List.find?_eq_none]
        intro x hx
        have hxk : key x ≠ k := by
          rintro rfl
          exact hnd.1 (by
            rw [ha]
            exact List.mem_map_of_mem hx)
        simp [hxk]
      · rw [List.eraseP_cons_of_neg (by simp [ha]), List.find?_cons]
        simp [ha, find?_eraseP_same k l hnd.2]

theorem find?_eraseP_ne
    {k k' : κ} (hne : k' ≠ k) :
    ∀ l : List α,
      (l.eraseP (fun a => decide (key a = k))).find?
        (fun a => decide (key a = k')) =
      l.find? (fun a => decide (key a = k'))
  | [] => rfl
  | a :: l => by
      by_cases ha : key a = k
      · rw [List.eraseP_cons_of_pos (by simp [ha]), List.find?_cons]
        have h1 : ¬ key a = k' := by
          rw [ha]
          exact hne.symm
        simp [h1]
      · rw [List.eraseP_cons_of_neg (by simp [ha]), List.find?_cons,
          List.find?_cons, find?_eraseP_ne hne l]

theorem lookup_remove
    {t : Table n α} (ht : WellPlaced bucket key t) (k k' : κ) :
    lookup bucket key (remove bucket key t k) k' =
      if k' = k then none else lookup bucket key t k' := by
  unfold lookup remove
  by_cases hk : k' = k
  · subst hk
    rw [Function.update_self, find?_eraseP_same k' _ (ht.nodup _)]
    simp
  · rw [if_neg hk]
    by_cases hb : bucket k' = bucket k
    · rw [hb, Function.update_self, find?_eraseP_ne hk]
    · rw [Function.update_of_ne hb]

/-- In a well-placed table the entries are exactly what lookup finds. -/
theorem WellPlaced.mem_iff
    {t : Table n α} (ht : WellPlaced bucket key t) {a : α} :
    a ∈ toList t ↔ lookup bucket key t (key a) = some a := by
  constructor
  · intro h
    obtain ⟨b, hb⟩ := mem_toList.mp h
    have hbk := ht.placed b a hb
    unfold lookup
    rw [hbk]
    have hnd := ht.nodup b
    revert hb hnd
    induction t b with
    | nil =>
        intro hb
        simp at hb
    | cons x l ih =>
        intro hb hnd
        simp only [List.map_cons, List.nodup_cons] at hnd
        rcases List.mem_cons.mp hb with rfl | hl
        · simp
        · have hne : key x ≠ key a := by
            intro he
            exact hnd.1 (he ▸ List.mem_map_of_mem hl)
          simp [hne, ih hl hnd.2]
  · exact lookup_some_mem

omit [DecidableEq κ] in
theorem wellPlaced_empty :
    WellPlaced bucket key (empty : Table n α) where
  placed := by
    intro b a h
    simp [empty] at h
  nodup := by
    intro b
    simp [empty]

theorem WellPlaced.insert
    {t : Table n α} (ht : WellPlaced bucket key t) {a : α}
    (hnew : lookup bucket key t (key a) = none) :
    WellPlaced bucket key (insert bucket key t a) where
  placed := by
    intro b x hx
    by_cases hb : b = bucket (key a)
    · subst hb
      simp only [Table.insert, Function.update_self, List.mem_cons] at hx
      rcases hx with rfl | hx
      · rfl
      · exact ht.placed _ _ hx
    · simp only [Table.insert, Function.update_of_ne hb] at hx
      exact ht.placed _ _ hx
  nodup := by
    intro b
    by_cases hb : b = bucket (key a)
    · subst hb
      simp only [Table.insert, Function.update_self, List.map_cons,
        List.nodup_cons]
      refine ⟨?_, ht.nodup _⟩
      intro hmem
      obtain ⟨x, hx, hxa⟩ := List.mem_map.mp hmem
      have hn := List.find?_eq_none.mp hnew x hx
      simp [hxa] at hn
    · simp only [Table.insert, Function.update_of_ne hb]
      exact ht.nodup b

theorem map_key_modifyFirst
    (k : κ) (f : α → α) (hf : ∀ a, key a = k → key (f a) = k) :
    ∀ l : List α,
      (modifyFirst (fun a => decide (key a = k)) f l).map key = l.map key
  | [] => rfl
  | a :: l => by
      by_cases ha : key a = k
      · simp [modifyFirst, ha, hf a ha]
      · simp [modifyFirst, ha, map_key_modifyFirst k f hf l]

theorem WellPlaced.modify
    {t : Table n α} (ht : WellPlaced bucket key t) (k : κ) (f : α → α)
    (hf : ∀ a, key a = k → key (f a) = k) :
    WellPlaced bucket key (modify bucket key t k f) where
  placed := by
    intro b x hx
    by_cases hb : b = bucket k
    · subst hb
      simp only [Table.modify, Function.update_self] at hx
      have hkey : key x ∈ (t (bucket k)).map key := by
        rw [← map_key_modifyFirst k f hf]
        exact List.mem_map_of_mem hx
      obtain ⟨y, hy, hyx⟩ := List.mem_map.mp hkey
      rw [← hyx]
      exact ht.placed _ _ hy
    · simp only [Table.modify, Function.update_of_ne hb] at hx
      exact ht.placed _ _ hx
  nodup := by
    intro b
    by_cases hb : b = bucket k
    · subst hb
      simp only [Table.modify, Function.update_self,
        map_key_modifyFirst k f hf]
      exact ht.nodup _
    · simp only [Table.modify, Function.update_of_ne hb]
      exact ht.nodup b

theorem WellPlaced.remove
    {t : Table n α} (ht : WellPlaced bucket key t) (k : κ) :
    WellPlaced bucket key (remove bucket key t k) where
  placed := by
    intro b x hx
    by_cases hb : b = bucket k
    · subst hb
      simp only [Table.remove, Function.update_self] at hx
      exact ht.placed _ _ (List.mem_of_mem_eraseP hx)
    · simp only [Table.remove, Function.update_of_ne hb] at hx
      exact ht.placed _ _ hx
  nodup := by
    intro b
    by_cases hb : b = bucket k
    · subst hb
      simp only [Table.remove, Function.update_self]
      exact (ht.nodup _).sublist (List.eraseP_sublist.map key)
    · simp only [Table.remove, Function.update_of_ne hb]
      exact ht.nodup b

end Lookup

section Traversal

variable {bucket : κ → Fin n} {key : α → κ}

omit [DecidableEq κ] in
theorem toList_insert_perm (t : Table n α) (a : α) :
    (toList (insert bucket key t a)).Perm (a :: toList t) := by
  obtain ⟨rest, h1, h2⟩ := toList_update_perm t (bucket (key a))
  calc (toList (insert bucket key t a)).Perm
        ((a :: t (bucket (key a))) ++ rest) := h2 _
    _ = a :: (t (bucket (key a)) ++ rest) := rfl
    List.Perm _ (a :: toList t) := h1.symm.cons a

theorem modifyFirst_split
    (p : α → Bool) (f : α → α) (a : α) :
    ∀ l : List α, l.find? p = some a →
      ∃ l₁ l₂, l = l₁ ++ a :: l₂ ∧
        modifyFirst p f l = l₁ ++ f a :: l₂ ∧
        l.eraseP p = l₁ ++ l₂
  | [], h => by simp at h
  | x :: l, h => by
      by_cases hx : p x
      · have hxa : x = a := by simpa [hx] using h
        subst hxa
        exact ⟨[], l, rfl, by simp [modifyFirst, hx], by simp [hx]⟩
      · have hl : l.find? p = some a := by simpa [hx] using h
        obtain ⟨l₁, l₂, e1, e2, e3⟩ := modifyFirst_split p f a l hl
        refine ⟨x :: l₁, l₂, by simp [e1], by simp [modifyFirst, hx, e2], ?_⟩
        rw [List.eraseP_cons_of_neg hx, e3]
        rfl

/-- Modifying an entry replaces it in the traversal. -/
theorem toList_modify_perm
    {t : Table n α} {k : κ} {a : α} (f : α → α)
    (h : lookup bucket key t k = some a) :
    ∃ rest, (toList t).Perm (a :: rest) ∧
      (toList (modify bucket key t k f)).Perm (f a :: rest) := by
  obtain ⟨rest, h1, h2⟩ := toList_update_perm t (bucket k)
  obtain ⟨l₁, l₂, e1, e2, _⟩ := modifyFirst_split _ f a _ h
  refine ⟨l₁ ++ l₂ ++ rest, ?_, ?_⟩
  · refine h1.trans ?_
    rw [e1]
    exact (List.perm_middle.append_right rest)
  · refine (h2 _).trans ?_
    rw [e2]
    exact (List.perm_middle.append_right rest)

/-- Removing an entry deletes it from the traversal. -/
theorem toList_remove_perm
    {t : Table n α} {k : κ} {a : α}
    (h : lookup bucket key t k = some a) :
    (toList t).Perm (a :: toList (remove bucket key t k)) := by
  obtain ⟨rest, h1, h2⟩ := toList_update_perm t (bucket k)
  obtain ⟨l₁, l₂, e1, _, e3⟩ := modifyFirst_split _ id a _ h
  have h3 := h2 ((t (bucket k)).eraseP (fun a => decide (key a = k)))
  rw [e3] at h3
  have h4 : (t (bucket k) ++ rest).Perm (a :: (l₁ ++ l₂ ++ rest)) := by
    rw [e1]
    exact (List.perm_middle.append_right rest)
  unfold remove
  rw [e3]
  exact h1.trans (h4.trans (h3.symm.cons a))

omit [DecidableEq κ] in
theorem WellPlaced.nodup_toList
    {t : Table n α} (ht : WellPlaced bucket key t) :
    ((toList t).map key).Nodup := by
  unfold toList
  rw [List.map_flatMap, List.nodup_flatMap]
  refine ⟨fun b _ => ht.nodup b, ?_⟩
  apply (List.nodup_finRange n).imp
  intro b c hbc
  simp only [Function.onFun]
  intro k hb hc
  obtain ⟨x, hx, rfl⟩ := List.mem_map.mp hb
  obtain ⟨y, hy, hxy⟩ := List.mem_map.mp hc
  apply hbc
  rw [← ht.placed b x hx, ← ht.placed c y hy, hxy]

end Traversal

end Table

end Lib
end Qdb
