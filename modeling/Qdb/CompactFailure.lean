import Qdb.Footprint
import Qdb.Reached

/-!
# Compactions that fail

`Failing P` is the machine of `posix` on which any operation in `P` may fail.
-/

namespace Qdb

open Lib

/-- How an operation may fail: it reports an error and changes nothing, except
that a failed write has transferred some of its bytes. -/
def Op.Breaks : (o : Op) → World → o.Resp → World → Prop
  | .fileOpen .., w, r, w' => r = .error .errIo ∧ w' = w
  | .lockfileOpen, w, r, w' => r = .error .errIo ∧ w' = w
  | .fileSync _, w, r, w' => r = .errIo ∧ w' = w
  | .fileSize _, w, r, w' => r = .error .errIo ∧ w' = w
  | .fileTruncate .., w, r, w' => r = .errIo ∧ w' = w
  | .pread .., w, r, w' => r = .error .errIo ∧ w' = w
  | .pwrite fd bs off, w, r, w' => (Op.pwrite fd bs off).Fails w r w'
  | .fileLock _, w, r, w' => r = .errIo ∧ w' = w
  | .fileDelete _, w, r, w' => r = .errIo ∧ w' = w
  | .fileRename .., w, r, w' => r = .errIo ∧ w' = w
  | .alloc, w, r, w' => r = false ∧ w' = w
  | _, _, _, _ => False

/-- The machine on which the operations in `P` may fail. -/
def Failing (P : Op → Prop) (o : Op) (w : World) (r : o.Resp)
    (w' : World) : Prop :=
  (r, w') = posix o w ∨ (P o ∧ o.Breaks w r w')

theorem failing_posix (P : Op → Prop) (o : Op) (w : World) :
    Failing P o w (posix o w).1 (posix o w).2 :=
  Or.inl rfl

/-- Every name is bound to a file of its own, and nobody has left a WAL. -/
structure World.Named (w : World) : Prop where
  below : ∀ p i, w.dir p = some i → i < w.nextIno
  inj : ∀ p q i, w.dir p = some i → w.dir q = some i → p = q
  wal : w.dir .wal = none

theorem World.setDir_dir (w : World) (p q : Path) (j : Option Nat) :
    (w.setDir p j).dir q = if q = p then j else w.dir q :=
  Function.update_apply _ _ _ _

theorem World.create_dir (w : World) (p q : Path) :
    (w.create p).dir q = if q = p then some w.nextIno else w.dir q :=
  Function.update_apply _ _ _ _

namespace World.Named

variable {w : World}

/-- Nothing counts but the names. -/
theorem congr {w' : World} (h : w.Named) (hdir : w'.dir = w.dir)
    (hino : w'.nextIno = w.nextIno) : w'.Named where
  below p i hp := by
    rw [hino]
    exact h.below p i (hdir ▸ hp)
  inj p q i hp hq := h.inj p q i (hdir ▸ hp) (hdir ▸ hq)
  wal := by
    rw [hdir]
    exact h.wal

theorem unbind (h : w.Named) (p : Path) : (w.setDir p none).Named where
  below q i hq := by
    rw [World.setDir_dir] at hq
    split at hq
    · cases hq
    · exact h.below q i hq
  inj q q' i hq hq' := by
    rw [World.setDir_dir] at hq hq'
    split at hq
    · cases hq
    · split at hq'
      · cases hq'
      · exact h.inj q q' i hq hq'
  wal := by
    rw [World.setDir_dir]
    split
    · rfl
    · exact h.wal

theorem create (h : w.Named) {p : Path} (hp : p ≠ .wal) :
    (w.create p).Named where
  below q i hq := by
    rw [World.create_dir] at hq
    split at hq
    · cases hq
      exact Nat.lt_succ_self _
    · exact Nat.lt_succ_of_lt (h.below q i hq)
  inj q q' i hq hq' := by
    rw [World.create_dir] at hq hq'
    split at hq
    · split at hq'
      · rename_i hqp hqp'
        exact hqp.trans hqp'.symm
      · cases hq
        exact absurd (h.below q' _ hq') (Nat.lt_irrefl _)
    · split at hq'
      · cases hq'
        exact absurd (h.below q _ hq) (Nat.lt_irrefl _)
      · exact h.inj q q' i hq hq'
  wal := by
    rw [World.create_dir, if_neg (Ne.symm hp)]
    exact h.wal

theorem rename (h : w.Named) {k : Nat} (hk : w.dir .compact = some k) :
    ((w.setDir .main (some k)).setDir .compact none).Named where
  below p i hp := by
    rw [World.setDir_dir, World.setDir_dir] at hp
    split at hp
    · cases hp
    · split at hp
      · cases hp
        exact h.below .compact k hk
      · exact h.below p i hp
  inj p q i hp hq := by
    have hwal := h.wal
    rw [World.setDir_dir, World.setDir_dir] at hp hq
    cases p <;> cases q <;> simp_all
  wal := by
    rw [World.setDir_dir, World.setDir_dir]
    simpa using h.wal

end World.Named

section Staging

variable {P : Op → Prop} {k : Nat} {db : Db} {w w' : World}

/-- What the staging file is written with. -/
def stagingAccess (k : Nat) : Access where
  reads := Eq
  writes fd fd' := fd = some k ∧ fd' = some k
  opens _ _ := False
  deletes _ := False
  renames _ _ := False
  locks := False

/-- A write to the file `k`, or a read. -/
theorem Failing.sameBut {o : Op} {r : o.Resp}
    (ho : o.Alike (stagingAccess k) o) (h : Failing P o w r w') :
    o.Agree (stagingAccess k) o r r ∧ w.SameBut k w' := by
  have hsame : ∀ w' : World, w' = w → w.SameBut k w' := by
    rintro _ rfl
    exact World.SameBut.refl k _
  cases o with
  | fileOpen p c =>
      exact ho.1.elim
  | lockfileOpen =>
      exact ho.elim
  | lockfileClose fd =>
      exact ho.1.elim
  | fileLock fd =>
      exact ho.1.elim
  | fileUnlock fd =>
      exact ho.1.elim
  | fileDelete p =>
      exact ho.1.elim
  | fileRename p q =>
      exact ho.1.elim
  | fileClose fd =>
      rcases h with h | ⟨-, h⟩
      · cases h
        exact ⟨trivial, hsame _ rfl⟩
      · exact h.elim
  | fileSync fd =>
      obtain ⟨rfl, -⟩ := ho
      rcases h with h | ⟨-, -, rfl⟩
      · cases h
        exact ⟨rfl, World.SameBut.setFile k w _⟩
      · exact ⟨rfl, hsame _ rfl⟩
  | fileSize fd =>
      rcases h with h | ⟨-, -, rfl⟩
      · cases fd <;> cases h <;> exact ⟨rfl, hsame _ rfl⟩
      · exact ⟨rfl, hsame _ rfl⟩
  | fileTruncate fd n =>
      obtain ⟨⟨rfl, -⟩, -⟩ := ho
      rcases h with h | ⟨-, -, rfl⟩
      · simp only [posix] at h
        split at h <;> cases h
        · exact ⟨rfl, World.SameBut.setFile k w _⟩
        · exact ⟨rfl, hsame _ rfl⟩
      · exact ⟨rfl, hsame _ rfl⟩
  | pread fd len off =>
      rcases h with h | ⟨-, -, rfl⟩
      · refine ⟨rfl, hsame _ ?_⟩
        have h2 := congrArg Prod.snd h
        simp only [posix] at h2
        split at h2
        · exact h2
        · cases fd with
          | none =>
              exact h2
          | some i =>
              dsimp only at h2
              split at h2 <;> exact h2
      · exact ⟨rfl, hsame _ rfl⟩
  | pwrite fd bs off =>
      obtain ⟨⟨rfl, -⟩, -⟩ := ho
      refine ⟨rfl, ?_⟩
      rcases h with h | ⟨-, -, rfl | ⟨i, n, hi, -, -, rfl⟩⟩
      · have h2 := congrArg Prod.snd h
        simp only [posix] at h2
        split at h2
        · exact hsame _ h2
        · split at h2
          · rw [show w' = _ from h2]
            exact World.SameBut.setFile k w _
          · split at h2
            · rw [show w' = _ from h2]
              exact World.SameBut.setFile k w _
            · exact hsame _ h2
      · exact hsame _ rfl
      · cases hi
        exact World.SameBut.setFile k w _
  | timeUs =>
      rcases h with h | ⟨-, h⟩
      · cases h
        exact ⟨rfl, hsame _ rfl⟩
      · exact h.elim
  | alloc =>
      rcases h with h | ⟨-, -, rfl⟩
      · cases h
        exact ⟨rfl, hsame _ rfl⟩
      · exact ⟨rfl, hsame _ rfl⟩

/-- Filling the staging file changes no other file. -/
theorem exec_compactStage {rc : Rc}
    (h : Prog.Exec (Failing P) (compactStage db (some k)) w rc w') :
    w.SameBut k w' := by
  have htwin : Twin (stagingAccess k) Same (compactStage db (some k))
      (compactStage db (some k)) :=
    twin_compactStage rfl ⟨rfl, rfl⟩
  refine (htwin.keeps (I := w.SameBut k) ?_ (World.SameBut.refl k w) h).2
  intro o s r t ho hs hr
  obtain ⟨hagree, hst⟩ := hr.sameBut ho
  exact ⟨hagree, hs.trans hst⟩

/-- Only the staging file `k` and its name differ. -/
structure World.Staged (k : Nat) (w w' : World) : Prop where
  dir : ∀ p, p ≠ .compact → w'.dir p = w.dir p
  files : ∀ j, j ≠ k → w'.files j = w.files j
  nextIno : w.nextIno ≤ w'.nextIno
  lockOwner : w'.lockOwner = w.lockOwner
  nextLockFd : w'.nextLockFd = w.nextLockFd
  now : w'.now = w.now

theorem World.SameBut.staged (h : w.SameBut k w') : w.Staged k w' where
  dir _ _ := by rw [h.dir]
  files := h.files
  nextIno := Nat.le_of_eq h.nextIno.symm
  lockOwner := h.lockOwner
  nextLockFd := h.nextLockFd
  now := h.now

theorem World.Staged.trans {w'' : World} (h : w.Staged k w')
    (h' : w'.Staged k w'') : w.Staged k w'' where
  dir p hp := (h'.dir p hp).trans (h.dir p hp)
  files j hj := (h'.files j hj).trans (h.files j hj)
  nextIno := le_trans h.nextIno h'.nextIno
  lockOwner := h'.lockOwner.trans h.lockOwner
  nextLockFd := h'.nextLockFd.trans h.nextLockFd
  now := h'.now.trans h.now

theorem World.Staged.setDir (w : World) (j : Option Nat) :
    w.Staged k (w.setDir .compact j) where
  dir _ hp := Function.update_of_ne hp _ _
  files _ _ := rfl
  nextIno := Nat.le_refl _
  lockOwner := rfl
  nextLockFd := rfl
  now := rfl

/-- Deleting the staging file, or failing to. -/
theorem exec_fileDelete {rc : Rc}
    (h : Prog.Exec (Failing P) (fileDelete .compact) w rc w') :
    w.Staged k w' ∧ (w' = w ∨ w' = w.setDir .compact none) := by
  rcases Prog.exec_perform.mp h with h | ⟨-, -, rfl⟩
  · cases h
    exact ⟨World.Staged.setDir w none, Or.inr rfl⟩
  · exact ⟨(World.SameBut.refl k _).staged, Or.inl rfl⟩

theorem exec_fileClose {fd : Fd} {u : Unit}
    (h : Prog.Exec (Failing P) (fileClose fd) w u w') : w' = w := by
  rcases Prog.exec_perform.mp h with h | ⟨-, h⟩
  · cases h
    rfl
  · exact h.elim

/-- The handle `qdb_compact` holds at the rename. -/
def Target.atRename : Target → Db → Db
  | .posix, db => db
  | .win32, db => { db with fd := none }

/-- How the part of a compaction up to the rename may end. -/
inductive ReplaceEnd (P : Op → Prop) (target : Target) (k : Nat) (db : Db)
    (w : World) : Except (Rc × Db) Db → World → Prop
  /-- A failure before the rename. -/
  | staging {rc : Rc} {w' : World} (hrc : rc ≠ .ok) (h : w.Staged k w') :
      ReplaceEnd P target k db w (.error (rc, db)) w'
  /-- The rename fails. -/
  | rename {rc : Rc} {w' : World} (hrc : rc ≠ .ok)
      (hP : P (.fileRename .compact .main)) (h : w.Staged k w') :
      ReplaceEnd P target k db w (.error (rc, target.atRename db)) w'
  /-- The staging file has become the database. -/
  | replaced {w' : World} (h : w.SameBut k w') :
      ReplaceEnd P target k db w (.ok (target.atRename db))
        ((w'.setDir .main (some k)).setDir .compact none)

theorem exec_rename (target : Target) {x : Except (Rc × Db) Db} {w0 : World}
    (hk : w.dir .compact = some k) (h0 : w0.SameBut k w)
    (h : Prog.Exec (Failing P) (do
      let rc ← fileRename .compact .main
      if rc ≠ .ok then
        let _ ← fileDelete .compact
        return .error (rc, target.atRename db)
      return .ok (target.atRename db)) w x w') :
    ReplaceEnd P target k db w0 x w' := by
  obtain ⟨rc, w1, hren, hrest⟩ := Prog.exec_bind.mp h
  rcases Prog.exec_perform.mp hren with hren | ⟨hP, rfl, rfl⟩
  · simp only [posix, hk] at hren
    cases hren
    rw [if_neg (by simp)] at hrest
    obtain ⟨rfl, rfl⟩ := hrest
    exact .replaced h0
  · rw [if_pos (by simp)] at hrest
    obtain ⟨rc', w2, hdel, hend⟩ := Prog.exec_bind.mp hrest
    obtain ⟨rfl, rfl⟩ := hend
    exact .rename (by simp) hP (h0.staged.trans (exec_fileDelete hdel).1)

theorem exec_compactReplace {target : Target} {x : Except (Rc × Db) Db}
    (hk : w.dir .compact = some k)
    (h : Prog.Exec (Failing P) (compactReplace target db (some k)) w x w') :
    ReplaceEnd P target k db w x w' := by
  unfold compactReplace at h
  obtain ⟨rc, w1, hstage, h⟩ := Prog.exec_bind.mp h
  obtain ⟨_, w2, hclose, h⟩ := Prog.exec_bind.mp h
  have hsame := exec_compactStage hstage
  cases exec_fileClose hclose
  have hk1 : w1.dir .compact = some k := by
    rw [hsame.dir]
    exact hk
  by_cases hrc : rc ≠ .ok
  · rw [if_pos hrc] at h
    obtain ⟨rc', w2, hdel, h⟩ := Prog.exec_bind.mp h
    obtain ⟨rfl, rfl⟩ := h
    exact .staging hrc (hsame.staged.trans (exec_fileDelete hdel).1)
  · rw [if_neg hrc] at h
    cases target with
    | posix =>
        rw [if_neg (by simp)] at h
        exact exec_rename .posix hk1 hsame h
    | win32 =>
        rw [if_pos rfl] at h
        obtain ⟨_, w2, hclose, h⟩ := Prog.exec_bind.mp h
        cases exec_fileClose hclose
        exact exec_rename .win32 hk1 hsame h

/-- No other name is bound to the file. -/
def World.Apart (w : World) (k : Nat) : Prop :=
  ∀ p, p ≠ .compact → w.dir p ≠ some k

/-- Creating the staging file, with whatever has been left under its name. -/
theorem exec_openStaging (hw : w.Named) {r : Except Rc (Fd × Bool)}
    (h : Prog.Exec (Failing P) (fileOpen .compact true) w r w') :
    (r = .error .errIo ∧ w' = w) ∨
      ∃ k b, r = .ok (some k, b) ∧ w.Apart k ∧ w.Staged k w' ∧
        w'.dir .compact = some k ∧ w'.Named := by
  rcases Prog.exec_perform.mp h with h | ⟨-, h⟩
  · cases hc : w.dir .compact with
    | some j =>
        simp only [posix, hc] at h
        cases h
        refine Or.inr ⟨j, false, rfl, ?_, (World.SameBut.refl j _).staged, hc,
          hw⟩
        intro p hp hj
        exact hp (hw.inj p .compact j hj hc)
    | none =>
        simp only [posix, hc] at h
        cases h
        refine Or.inr ⟨w.nextIno, true, rfl, ?_, ?_, ?_, hw.create (by simp)⟩
        · intro p hp hj
          exact absurd (hw.below p _ hj) (Nat.lt_irrefl _)
        · exact
            { dir := fun p hp => Function.update_of_ne hp _ _
              files := fun j hj => Function.update_of_ne hj _ _
              nextIno := Nat.le_succ _
              lockOwner := rfl
              nextLockFd := rfl
              now := rfl }
        · simp [World.create, World.setDir]
  · exact Or.inl h

/-- How a compaction may end: the database file is still there and at most the
staging file differs, or `qdb__reopen_after_compact` has had the last word. -/
theorem exec_qdbCompactOn (hw : w.Named) {target : Target} {x : Rc × Db}
    (h : Prog.Exec (Failing P) (qdbCompactOn target db) w x w') :
    (∃ k, w.Apart k ∧ w.Staged k w' ∧ x.1 ≠ .ok ∧
      (x.2 = db ∨
        (P (.fileRename .compact .main) ∧ x.2 = target.atRename db))) ∨
      ∃ k w1, w.Apart k ∧ w1.dir .main = some k ∧ w1.Named ∧
        Prog.Exec (Failing P) (reopenAfterCompact (target.atRename db))
          w1 x w' := by
  have hfresh : w.Apart w.nextIno := by
    intro p _ hp
    exact absurd (hw.below p _ hp) (Nat.lt_irrefl _)
  rw [qdbCompactOn_eq] at h
  obtain ⟨b, w1, halloc, h⟩ := Prog.exec_bind.mp h
  have hw1 : w1 = w := by
    rcases Prog.exec_perform.mp halloc with h | ⟨-, -, h⟩
    · cases h
      rfl
    · exact h
  subst hw1
  cases b with
  | false =>
      rw [if_pos (by simp)] at h
      obtain ⟨rfl, rfl⟩ := h
      exact Or.inl ⟨_, hfresh, (World.SameBut.refl _ _).staged, by simp,
        Or.inl rfl⟩
  | true =>
      rw [if_neg (by simp)] at h
      obtain ⟨rc, w2, hdel, h⟩ := Prog.exec_bind.mp h
      have hdel' : ∀ k, w1.Staged k w2 := fun k => (exec_fileDelete hdel).1
      have hw2 : w2.Named := by
        rcases (exec_fileDelete (k := 0) hdel).2 with rfl | rfl
        · exact hw
        · exact hw.unbind .compact
      have hapart : ∀ k, w2.Apart k → w1.Apart k := by
        intro k hk p hp
        rw [← (hdel' k).dir p hp]
        exact hk p hp
      obtain ⟨r, w3, hopen, hrest⟩ := Prog.exec_bind.mp h
      rcases exec_openStaging hw2 hopen with
        ⟨rfl, rfl⟩ | ⟨k, b, rfl, hk, hstaged, hkdir, hw3⟩
      · obtain ⟨rc', w4, hdel2, hend⟩ := Prog.exec_bind.mp hrest
        obtain ⟨rfl, rfl⟩ := hend
        exact Or.inl ⟨_, hfresh,
          (hdel' _).trans (exec_fileDelete hdel2).1, by simp, Or.inl rfl⟩
      · obtain ⟨y, w4, hrep, hend⟩ := Prog.exec_bind.mp hrest
        have hpre := (hdel' k).trans hstaged
        cases exec_compactReplace hkdir hrep with
        | staging hrc hstage =>
            obtain ⟨rfl, rfl⟩ := hend
            exact Or.inl ⟨k, hapart k hk, hpre.trans hstage, hrc, Or.inl rfl⟩
        | rename hrc hP hstage =>
            obtain ⟨rfl, rfl⟩ := hend
            exact Or.inl ⟨k, hapart k hk, hpre.trans hstage, hrc,
              Or.inr ⟨hP, rfl⟩⟩
        | @replaced w5 hsame =>
            refine Or.inr ⟨k, _, hapart k hk, ?_, ?_, hend⟩
            · simp [World.setDir]
            · refine (hw3.congr hsame.dir hsame.nextIno).rename ?_
              rw [hsame.dir]
              exact hkdir

/-- What `qdb__reopen_after_compact` does with names. -/
def reopenAccess : Access where
  reads := Eq
  writes := Eq
  opens _ create := create = false
  deletes p := p = .wal
  renames _ _ := False
  locks := False

theorem reopenAccess_proper : reopenAccess.Proper where
  reads_none := rfl
  writes_none := rfl
  valid := by
    rintro fd _ rfl
    exact Iff.rfl

/-- Such an operation leaves the name of the database alone. -/
theorem Failing.keepsMain {o : Op} {r : o.Resp}
    (ho : o.Alike reopenAccess o) (h : Failing P o w r w') :
    o.Agree reopenAccess o r r ∧ w'.dir .main = w.dir .main := by
  cases o with
  | fileOpen p c =>
      obtain ⟨hc, -, -⟩ := ho
      have hagree : OpenAgree reopenAccess r r := by
        cases r with
        | error rc =>
            rfl
        | ok x =>
            exact ⟨rfl, rfl, rfl⟩
      refine ⟨hagree, ?_⟩
      rcases h with h | ⟨-, -, rfl⟩
      · have h2 := congrArg Prod.snd h
        simp only [posix] at h2
        cases hd : w.dir p with
        | none =>
            rw [hd, if_neg (by rw [show c = false from hc]; simp)] at h2
            rw [show w' = w from h2]
        | some i =>
            rw [hd] at h2
            rw [show w' = w from h2]
      · rfl
  | fileDelete p =>
      obtain ⟨hp, -⟩ := ho
      refine ⟨rfl, ?_⟩
      rcases h with h | ⟨-, -, rfl⟩
      · cases h
        rw [World.setDir_dir, if_neg (by rw [show p = .wal from hp]; simp)]
      · rfl
  | fileRename p q =>
      exact ho.1.elim
  | lockfileOpen =>
      exact ho.elim
  | lockfileClose fd =>
      exact ho.1.elim
  | fileLock fd =>
      exact ho.1.elim
  | fileUnlock fd =>
      exact ho.1.elim
  | fileClose fd =>
      rcases h with h | ⟨-, h⟩
      · cases h
        exact ⟨trivial, rfl⟩
      · exact h.elim
  | fileSync fd =>
      refine ⟨rfl, ?_⟩
      rcases h with h | ⟨-, -, rfl⟩
      · cases fd <;> cases h <;> rfl
      · rfl
  | fileSize fd =>
      refine ⟨rfl, ?_⟩
      rcases h with h | ⟨-, -, rfl⟩
      · cases fd <;> cases h <;> rfl
      · rfl
  | fileTruncate fd n =>
      refine ⟨rfl, ?_⟩
      rcases h with h | ⟨-, -, rfl⟩
      · cases fd with
        | none =>
            cases h
            rfl
        | some i =>
            simp only [posix] at h
            split at h <;> cases h <;> rfl
      · rfl
  | pread fd len off =>
      refine ⟨rfl, ?_⟩
      rcases h with h | ⟨-, -, rfl⟩
      · have h2 := congrArg Prod.snd h
        simp only [posix] at h2
        split at h2
        · rw [show w' = w from h2]
        · cases fd with
          | none =>
              rw [show w' = w from h2]
          | some i =>
              dsimp only at h2
              split at h2 <;> rw [show w' = w from h2]
      · rfl
  | pwrite fd bs off =>
      refine ⟨rfl, ?_⟩
      rcases h with h | ⟨-, -, rfl | ⟨i, n, -, -, -, rfl⟩⟩
      · have h2 := congrArg Prod.snd h
        simp only [posix] at h2
        split at h2
        · rw [show w' = w from h2]
        · cases fd with
          | none =>
              rw [show w' = w from h2]
          | some i =>
              dsimp only at h2
              split at h2
              · rw [show w' = _ from h2]
                rfl
              · split at h2
                · rw [show w' = _ from h2]
                  rfl
                · rw [show w' = w from h2]
      · rfl
      · rfl
  | timeUs =>
      rcases h with h | ⟨-, h⟩
      · cases h
        exact ⟨rfl, rfl⟩
      · exact h.elim
  | alloc =>
      rcases h with h | ⟨-, -, rfl⟩
      · cases h
        exact ⟨rfl, rfl⟩
      · exact ⟨rfl, rfl⟩

theorem exec_reopen_main {x : Rc × Db}
    (h : Prog.Exec (Failing P) (reopenAfterCompact db) w x w') :
    w'.dir .main = w.dir .main := by
  have htwin : Twin reopenAccess (Handled reopenAccess)
      (reopenAfterCompact db) (reopenAfterCompact db) :=
    twin_reopenAfterCompact reopenAccess_proper rfl rfl rfl rfl
  refine (htwin.keeps (I := fun t => t.dir .main = w.dir .main) ?_ rfl h).2
  intro o s r t ho hs hr
  obtain ⟨hagree, hmain⟩ := hr.keepsMain ho
  exact ⟨hagree, hmain.trans hs⟩

/-- A compaction that has not replaced the database file has failed and has
left the handle and every file but the staging file alone, unless the rename
failed. -/
theorem exec_compact_failed (hw : w.Named) {target : Target} {x : Rc × Db}
    (h : Prog.Exec (Failing P) (qdbCompactOn target db) w x w')
    (hkept : w'.dir .main = w.dir .main) :
    ∃ k, w.Apart k ∧ w.Staged k w' ∧ x.1 ≠ .ok ∧
      (x.2 = db ∨
        (P (.fileRename .compact .main) ∧ x.2 = target.atRename db)) := by
  rcases exec_qdbCompactOn hw h with h | ⟨k, w1, hk, hw1, -, hre⟩
  · exact h
  · rw [exec_reopen_main hre, hw1] at hkept
    exact absurd hkept.symm (hk .main (by simp))

end Staging

/-- The rename of `qdb_compact` and what follows it. -/
def compactSwap (target : Target) (db : Db) : Cmd (Except (Rc × Db) Db) := do
  let rc ← fileRename .compact .main
  if rc ≠ .ok then
    let _ ← fileDelete .compact
    return .error (rc, target.atRename db)
  return .ok (target.atRename db)

/-- A machine with room for the staging file gets to the rename. -/
theorem exec_to_rename {P : Op → Prop} {w : World} {db : Db} {v : View}
    {i : Nat} {c : Content} (target : Target) (h : Live False w db v i)
    (hwf : v.Wf c) (hfit : Fits hdrSize (v.compactRecords w.now)) :
    ∃ k w3, w3.dir .compact = some k ∧ w3.dir .main = w.dir .main ∧ ∀ x w',
      Prog.Exec (Failing P) (compactSwap target db >>= compactReopen)
        w3 x w' →
      Prog.Exec (Failing P) (qdbCompactOn target db) w x w' := by
  have hne : i ≠ w.nextIno := Nat.ne_of_lt h.ino
  obtain ⟨rc, w3, hrun, hstage⟩ := (wp_compactStage h.staging
    hwf.shows.rep.walkable hwf.located_msg hne (staging_file w)).run
      (faulty_posix False)
  rcases hstage with ⟨rfl, hs3, -⟩ | ⟨-, hF | hno, -⟩
  · refine ⟨w.nextIno, w3, ?_, ?_, ?_⟩
    · rw [hs3.dir, staging_compact]
    · rw [hs3.dir, staging_main]
    · intro x w' hswap
      obtain ⟨y, w4, hy, hend⟩ := Prog.exec_bind.mp hswap
      rw [qdbCompactOn_eq]
      refine Prog.exec_bind.mpr ⟨true, w,
        Prog.exec_perform.mpr (failing_posix P _ _), ?_⟩
      rw [if_neg (by simp)]
      refine Prog.exec_bind.mpr ⟨_, _,
        Prog.exec_perform.mpr (failing_posix P _ _), ?_⟩
      have hnone : (w.setDir .compact none).dir .compact = none := by
        simp [World.setDir]
      have hopen := failing_posix P (.fileOpen .compact true)
        (w.setDir .compact none)
      simp only [posix, hnone, if_true] at hopen
      refine Prog.exec_bind.mpr
        ⟨_, w.staging, Prog.exec_perform.mpr hopen, ?_⟩
      refine Prog.exec_bind.mpr ⟨y, w4, ?_, hend⟩
      unfold compactReplace
      refine Prog.exec_bind.mpr ⟨.ok, w3,
        Prog.Exec.of_run (failing_posix P) hrun, ?_⟩
      refine Prog.exec_bind.mpr ⟨(), w3,
        Prog.exec_perform.mpr (failing_posix P _ _), ?_⟩
      rw [if_neg (by simp)]
      cases target with
      | posix =>
          rw [if_neg (by simp)]
          exact hy
      | win32 =>
          rw [if_pos rfl]
          exact Prog.exec_bind.mpr ⟨(), w3,
            Prog.exec_perform.mpr (failing_posix P _ _), hy⟩
  · exact hF.elim
  · exact absurd hfit hno

end Qdb
