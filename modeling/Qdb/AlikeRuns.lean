import Qdb.CompactFailure
import Qdb.Stats

/-!
# Machines that look alike through a handle

Inode numbers, the staging file and the files nobody has a name for do not
matter: two machines with the same database file, the same lock and the same
handle answer every later call alike (`Sys.Alike.serveAll`).
-/

namespace Qdb

open Lib

/-- Descriptors of two machines that stand for each other. -/
structure Matching (ρ : Fd → Fd → Prop) : Prop where
  none : ρ none none
  valid : ∀ fd fd', ρ fd fd' → (fd' = .none ↔ fd = .none)
  inj : ∀ i j i' j', ρ (some i) (some j) → ρ (some i') (some j') →
    (i = i' ↔ j = j')

/-- Matched descriptors are both invalid or both those of matched files. -/
theorem Matching.files {ρ : Fd → Fd → Prop} (h : Matching ρ) {fd fd' : Fd}
    (hfd : ρ fd fd') : (fd = .none ∧ fd' = .none) ∨
      ∃ i j, fd = some i ∧ fd' = some j ∧ ρ (some i) (some j) := by
  have hiff := h.valid _ _ hfd
  cases fd with
  | none =>
      exact Or.inl ⟨rfl, hiff.mpr rfl⟩
  | some i =>
      cases fd' with
      | none =>
          cases hiff.mp rfl
      | some j =>
          exact Or.inr ⟨i, j, rfl, rfl, hfd⟩

/-- The pair of `i` and `j`, besides the invalid descriptors. -/
def pairOf (i j : Nat) (fd fd' : Fd) : Prop :=
  (fd = none ∧ fd' = none) ∨ (fd = some i ∧ fd' = some j)

theorem matching_pairOf (i j : Nat) : Matching (pairOf i j) where
  none := Or.inl ⟨rfl, rfl⟩
  valid := by
    rintro fd fd' (⟨rfl, rfl⟩ | ⟨rfl, rfl⟩)
    · exact Iff.rfl
    · simp
  inj := by
    rintro a b a' b' (⟨h, -⟩ | ⟨h1, h2⟩) (⟨h', -⟩ | ⟨h1', h2'⟩)
    · cases h
    · cases h
    · cases h'
    · cases h1
      cases h2
      cases h1'
      cases h2'
      simp

/-- A further pair of files. -/
def addPair (ρ : Fd → Fd → Prop) (k l : Nat) (fd fd' : Fd) : Prop :=
  ρ fd fd' ∨ (fd = some k ∧ fd' = some l)

theorem matching_addPair {ρ : Fd → Fd → Prop} (h : Matching ρ) {k l : Nat}
    (hk : ∀ j, ¬ ρ (some k) (some j)) (hl : ∀ i, ¬ ρ (some i) (some l)) :
    Matching (addPair ρ k l) where
  none := Or.inl h.none
  valid := by
    rintro fd fd' (h' | ⟨rfl, rfl⟩)
    · exact h.valid fd fd' h'
    · simp
  inj := by
    rintro a b a' b' (h1 | ⟨h1, h2⟩) (h1' | ⟨h1', h2'⟩)
    · exact h.inj a b a' b' h1 h1'
    · cases h1'
      cases h2'
      refine ⟨?_, ?_⟩
      · rintro rfl
        exact absurd h1 (hk b)
      · rintro rfl
        exact absurd h1 (hl a)
    · cases h1
      cases h2
      refine ⟨?_, ?_⟩
      · rintro rfl
        exact absurd h1' (hk b')
      · rintro rfl
        exact absurd h1' (hl a')
    · cases h1
      cases h2
      cases h1'
      cases h2'
      simp

/-- What the calls on a handle do with names; `c` tells whether the staging
file may become the database. -/
def handleAccess (ρ : Fd → Fd → Prop) (c : Prop) : Access where
  reads := ρ
  writes := ρ
  opens p create := p = .main ∨ (p = .wal ∧ create = false)
  deletes p := p ≠ .main
  renames p q := c ∧ p = .compact ∧ q = .main
  locks := True

theorem Matching.proper {ρ : Fd → Fd → Prop} (h : Matching ρ) (c : Prop) :
    (handleAccess ρ c).Proper where
  reads_none := h.none
  writes_none := h.none
  valid := h.valid

/-- The machines agree on everything that is visible through the matching. -/
structure World.Twins (ρ : Fd → Fd → Prop) (c : Prop) (w w' : World) :
    Prop where
  main : ∃ i j, w.dir .main = some i ∧ w'.dir .main = some j ∧
    ρ (some i) (some j)
  wal : w.dir .wal = none ∧ w'.dir .wal = none
  compact : c → ρ (w.dir .compact) (w'.dir .compact)
  content : ∀ {i j}, ρ (some i) (some j) → w'.content j = w.content i
  below : ∀ i j, ρ (some i) (some j) → i < w.nextIno ∧ j < w'.nextIno
  lockOwner : w'.lockOwner = w.lockOwner
  nextLockFd : w'.nextLockFd = w.nextLockFd
  now : w'.now = w.now

namespace World.Twins

variable {ρ : Fd → Fd → Prop} {c : Prop} {w w' : World}

/-- The same change of a file on both machines. -/
theorem setFile (h : w.Twins ρ c w') (hρ : Matching ρ) {i j : Nat}
    (hij : ρ (some i) (some j)) {f f' : FileState}
    (hf : f'.content = f.content) :
    (w.setFile i f).Twins ρ c (w'.setFile j f') where
  main := h.main
  wal := h.wal
  compact := h.compact
  content {a b} hab := by
    have hiff := hρ.inj a b i j hab hij
    by_cases ha : a = i
    · cases ha
      cases hiff.mp rfl
      unfold World.content
      rw [World.setFile_files_self, World.setFile_files_self, hf]
    · have hb : b ≠ j := fun hb => ha (hiff.mpr hb)
      calc (w'.setFile j f').content b
          = w'.content b := congrArg FileState.content
            ((World.SameBut.setFile j w' f').files b hb)
        _ = w.content a := h.content hab
        _ = (w.setFile i f).content a := congrArg FileState.content
            ((World.SameBut.setFile i w f).files a ha).symm
  below := h.below
  lockOwner := h.lockOwner
  nextLockFd := h.nextLockFd
  now := h.now

theorem issue (h : w.Twins ρ c w') (hρ : Matching ρ) {i j : Nat}
    (hij : ρ (some i) (some j)) (q : Pending) :
    (w.issue i q).Twins ρ c (w'.issue j q) := by
  unfold World.issue
  refine h.setFile hρ hij ?_
  rw [FileState.content_issue, FileState.content_issue]
  exact congrArg q.apply (h.content hij)

theorem unlock (h : w.Twins ρ c w') (fd : Fd) :
    (w.unlock fd).Twins ρ c (w'.unlock fd) := by
  unfold World.unlock
  rw [h.lockOwner]
  split
  · exact { h with lockOwner := rfl }
  · exact h

theorem unbind (h : w.Twins ρ c w') (hρ : Matching ρ) {p : Path}
    (hp : p ≠ .main) :
    (w.setDir p none).Twins ρ c (w'.setDir p none) where
  main := by
    obtain ⟨i, j, hi, hj, hij⟩ := h.main
    refine ⟨i, j, ?_, ?_, hij⟩
    · rw [World.setDir_dir, if_neg (Ne.symm hp)]
      exact hi
    · rw [World.setDir_dir, if_neg (Ne.symm hp)]
      exact hj
  wal := by
    rw [World.setDir_dir, World.setDir_dir]
    split
    · exact ⟨rfl, rfl⟩
    · exact h.wal
  compact hc := by
    rw [World.setDir_dir, World.setDir_dir]
    split
    · exact hρ.none
    · exact h.compact hc
  content := h.content
  below := h.below
  lockOwner := h.lockOwner
  nextLockFd := h.nextLockFd
  now := h.now

/-- The staging files become the databases. -/
theorem rename (h : w.Twins ρ c w') (hρ : Matching ρ) (hc : c) :
    (posix (.fileRename .compact .main) w').1 =
        (posix (.fileRename .compact .main) w).1 ∧
      (posix (.fileRename .compact .main) w).2.Twins ρ c
        (posix (.fileRename .compact .main) w').2 := by
  have hkl := h.compact hc
  generalize hk : w.dir .compact = k at hkl
  generalize hl : w'.dir .compact = l at hkl
  rcases hρ.files hkl with ⟨rfl, rfl⟩ | ⟨i, j, rfl, rfl, hij⟩
  · simp only [posix, hk, hl]
    exact ⟨trivial, h⟩
  · simp only [posix, hk, hl]
    refine ⟨trivial, ?_⟩
    exact
      { main := ⟨i, j, by simp [World.setDir_dir],
          by simp [World.setDir_dir], hij⟩
        wal := by simpa [World.setDir_dir] using h.wal
        compact := fun _ => by
          simpa [World.setDir_dir] using hρ.none
        content := h.content
        below := h.below
        lockOwner := h.lockOwner
        nextLockFd := h.nextLockFd
        now := h.now }

/-- Related operations answer alike on such machines. -/
theorem op (h : w.Twins ρ c w') (hρ : Matching ρ) {o o' : Op}
    (ho : o.Alike (handleAccess ρ c) o') :
    o.Agree (handleAccess ρ c) o' (posix o w).1 (posix o' w').1 ∧
      (posix o w).2.Twins ρ c (posix o' w').2 := by
  cases o <;> cases o' <;> try exact ho.elim
  case fileOpen.fileOpen p b p' b' =>
      obtain ⟨hopen, rfl, rfl⟩ := ho
      obtain ⟨i, j, hi, hj, hij⟩ := h.main
      rcases hopen with rfl | ⟨rfl, rfl⟩
      · simp only [posix, hi, hj]
        exact ⟨⟨hij, hij, rfl⟩, h⟩
      · simp only [posix, h.wal.1, h.wal.2]
        exact ⟨rfl, h⟩
  case lockfileOpen.lockfileOpen =>
      refine ⟨?_, { h with nextLockFd := ?_ }⟩
      · change Except.ok (some w'.nextLockFd) = Except.ok (some w.nextLockFd)
        rw [h.nextLockFd]
      · change w'.nextLockFd + 1 = w.nextLockFd + 1
        rw [h.nextLockFd]
  case fileClose.fileClose fd fd' =>
      exact ⟨trivial, h⟩
  case lockfileClose.lockfileClose fd fd' =>
      obtain ⟨-, rfl⟩ := ho
      exact ⟨trivial, h.unlock _⟩
  case fileSync.fileSync fd fd' =>
      rcases hρ.files ho with ⟨rfl, rfl⟩ | ⟨i, j, rfl, rfl, hij⟩
      · exact ⟨rfl, h⟩
      · refine ⟨rfl, h.setFile hρ hij ?_⟩
        rw [FileState.content_sync, FileState.content_sync]
        exact h.content hij
  case fileSize.fileSize fd fd' =>
      rcases hρ.files ho with ⟨rfl, rfl⟩ | ⟨i, j, rfl, rfl, hij⟩
      · exact ⟨rfl, h⟩
      · simp only [posix]
        rw [h.content hij]
        exact ⟨rfl, h⟩
  case fileTruncate.fileTruncate fd n fd' n' =>
      obtain ⟨hfd, rfl⟩ := ho
      rcases hρ.files hfd with ⟨rfl, rfl⟩ | ⟨i, j, rfl, rfl, hij⟩
      · exact ⟨rfl, h⟩
      · simp only [posix]
        split
        · exact ⟨rfl, h.issue hρ hij _⟩
        · exact ⟨rfl, h⟩
  case pread.pread fd len off fd' len' off' =>
      obtain ⟨hfd, rfl, rfl⟩ := ho
      by_cases hlen : len' = 0
      · simp only [posix, if_pos hlen]
        exact ⟨rfl, h⟩
      rcases hρ.files hfd with ⟨rfl, rfl⟩ | ⟨i, j, rfl, rfl, hij⟩
      · simp only [posix, if_neg hlen]
        exact ⟨rfl, h⟩
      · simp only [posix, if_neg hlen]
        rw [h.content hij]
        split
        · exact ⟨rfl, h⟩
        · exact ⟨rfl, h⟩
  case pwrite.pwrite fd bs off fd' bs' off' =>
      obtain ⟨hfd, rfl, rfl⟩ := ho
      by_cases hbs : bs' = []
      · simp only [posix, if_pos hbs]
        exact ⟨rfl, h⟩
      rcases hρ.files hfd with ⟨rfl, rfl⟩ | ⟨i, j, rfl, rfl, hij⟩
      · simp only [posix, if_neg hbs]
        exact ⟨rfl, h⟩
      · simp only [posix, if_neg hbs]
        split
        · exact ⟨rfl, h.issue hρ hij _⟩
        · split
          · exact ⟨rfl, h.issue hρ hij _⟩
          · exact ⟨rfl, h⟩
  case fileLock.fileLock fd fd' =>
      obtain ⟨-, rfl⟩ := ho
      simp only [posix]
      rw [h.lockOwner]
      split
      · exact ⟨rfl, { h with lockOwner := rfl }⟩
      · exact ⟨rfl, h⟩
  case fileUnlock.fileUnlock fd fd' =>
      obtain ⟨-, rfl⟩ := ho
      exact ⟨trivial, h.unlock _⟩
  case fileDelete.fileDelete p p' =>
      obtain ⟨hp, rfl⟩ := ho
      exact ⟨rfl, h.unbind hρ hp⟩
  case fileRename.fileRename p q p' q' =>
      obtain ⟨⟨hc, rfl, rfl⟩, rfl, rfl⟩ := ho
      exact h.rename hρ hc
  case timeUs.timeUs =>
      exact ⟨h.now, h⟩
  case alloc.alloc =>
      exact ⟨rfl, h⟩

/-- Twin programs run alike on such machines. -/
theorem run {α β : Type} {Q : α → β → Prop} {p : Cmd α} {p' : Cmd β}
    (h : w.Twins ρ c w') (hρ : Matching ρ)
    (hp : Twin (handleAccess ρ c) Q p p') :
    Option.Rel (fun x x' => Q x.1 x'.1 ∧ x.2.Twins ρ c x'.2)
      (Prog.run posix p w) (Prog.run posix p' w') :=
  hp.run (fun _ _ _ _ ho hw => hw.op hρ ho) h

end World.Twins

/-- The same answer and handle. -/
def Answered {α : Type} (A : Access) (x x' : α × Option Db) : Prop :=
  x'.1 = x.1 ∧ Option.Rel (Db.Alike A) x.2 x'.2

theorem Db.Alike.some {A : Access} {db db' : Db} (h : db.Alike A db') :
    Option.Rel (Db.Alike A) (some db) (some db') :=
  .some h

section Calls

variable {A : Access} {db : Db} {fd : Fd}

/-- What the calls of the API other than compaction do with names. -/
structure Access.Serves (A : Access) : Prop where
  proper : A.Proper
  locks : A.locks
  deletes : ∀ p, p ≠ .main → A.deletes p
  main : ∀ create, A.opens .main create
  wal : A.opens .wal false

theorem Matching.serves {ρ : Fd → Fd → Prop} (h : Matching ρ) (c : Prop) :
    (handleAccess ρ c).Serves where
  proper := h.proper c
  locks := trivial
  deletes _ hp := hp
  main _ := Or.inl rfl
  wal := Or.inr ⟨rfl, rfl⟩

/-- A call on the handle, other than `qdb_open` and `qdb_compact`. -/
theorem twin_callCmd (hA : A.Serves) (hr : A.reads db.fd fd)
    (hw : A.writes db.fd fd) {call : Call} (hopen : ¬ call.Opens)
    (hc : call ≠ .compact) :
    Twin A (Answered A) (callCmd (some db) call)
      (callCmd (some { db with fd := fd }) call) := by
  have hhandled : ∀ {p p' : Cmd (Rc × Db)}, Twin A (Handled A) p p' →
      Twin A (Answered A)
        (p >>= fun x => pure (Result.code x.1, some x.2))
        (p' >>= fun x => pure (Result.code x.1, some x.2)) := by
    intro p p' hp
    refine Prog.twin_bind hp ?_
    rintro ⟨rc, db1⟩ ⟨rc', db1'⟩ ⟨hrc, hdb⟩
    exact Prog.twin_pure ⟨congrArg Result.code hrc, .some hdb⟩
  cases call with
  | openDb t =>
      exact absurd trivial hopen
  | close =>
      refine Prog.twin_bind (twin_qdbClose hA.proper hA.locks hr hw) ?_
      intro _ _ _
      exact Prog.twin_pure ⟨rfl, .none⟩
  | push queue data =>
      exact hhandled (twin_qdbPush hr hw queue data)
  | pop queue out =>
      refine Prog.twin_bind (twin_qdbPop hr hw queue out) ?_
      rintro ⟨rc, db1, m⟩ ⟨rc', db1', m'⟩ ⟨rfl, hdb, rfl⟩
      exact Prog.twin_pure ⟨rfl, .some hdb⟩
  | popAny out =>
      refine Prog.twin_bind (twin_qdbPopAny hr hw out) ?_
      rintro ⟨rc, db1, m⟩ ⟨rc', db1', m'⟩ ⟨rfl, hdb, rfl⟩
      exact Prog.twin_pure ⟨rfl, .some hdb⟩
  | ack id l =>
      exact hhandled (twin_resolveCall _ _ hr hw id l)
  | nack id l =>
      exact hhandled (twin_resolveCall _ _ hr hw id l)
  | processExpired =>
      refine Prog.twin_bind (twin_processExpired hr hw) ?_
      rintro ⟨rc, db1, n⟩ ⟨rc', db1', n'⟩ ⟨rfl, hdb, rfl⟩
      exact Prog.twin_pure ⟨rfl, .some hdb⟩
  | compact =>
      exact absurd rfl hc

/-- A call without a handle does nothing; `qdb_open` leaves the one there is
alone. -/
theorem twin_callOpen (hA : A.Serves) {db? db?' : Option Db}
    (hdb : Option.Rel (Db.Alike A) db? db?') (t : UInt32) :
    Twin A (Answered A) (callCmd db? (.openDb t))
      (callCmd db?' (.openDb t)) := by
  refine Prog.twin_bind (twin_qdbOpenErr hA.proper hA.locks
    (hA.deletes .compact nofun) (hA.main true) hA.wal
    (hA.deletes .wal nofun) t) ?_
  rintro ⟨rc, db1⟩ ⟨rc', db1'⟩ ⟨rfl, h⟩
  refine Prog.twin_pure ⟨rfl, ?_⟩
  dsimp only at h ⊢
  cases h with
  | none =>
      exact hdb
  | some h =>
      exact .some h

/-- A call that is not a compaction of the open handle. -/
theorem serve_call {target : Target} {db? : Option Db} {c : Call}
    (h : c ≠ .compact ∨ db? = none) : serve target db? (.call c) =
      callCmd db? c >>= fun x => pure (.result x.1, x.2) := by
  cases c with
  | compact =>
      rw [h.resolve_left (fun hne => hne rfl)]
      rfl
  | _ =>
      cases db? <;> rfl

theorem twin_callNull {c : Call} (hc : ¬ c.Opens) :
    Twin A (Answered A) (callCmd none c) (callCmd none c) := by
  cases c with
  | openDb t =>
      exact absurd trivial hc
  | _ =>
      exact Prog.twin_pure ⟨rfl, .none⟩

/-- A read of the handle. -/
theorem twin_read {α : Type} {p p' : Cmd α} {db db' : Db}
    (hdb : db.Alike A db') (f : α → Answer) (hp : Twin A Same p p') :
    Twin A (Answered A) (p >>= fun x => pure (f x, some db))
      (p' >>= fun x => pure (f x, some db')) := by
  refine Prog.twin_bind hp ?_
  rintro x _ rfl
  exact Prog.twin_pure ⟨rfl, .some hdb⟩

/-- Every request other than a compaction of the open handle. -/
theorem twin_serve (hA : A.Serves) (target : Target) {db? db?' : Option Db}
    (hdb : Option.Rel (Db.Alike A) db? db?') {req : Request}
    (hreq : req ≠ .call .compact ∨ db? = none) :
    Twin A (Answered A) (serve target db? req) (serve target db?' req) := by
  cases req with
  | call c =>
      have hc : c ≠ .compact ∨ db? = none :=
        hreq.imp_left fun h heq => h (congrArg Request.call heq)
      have hc' : c ≠ .compact ∨ db?' = none := by
        refine hc.imp_right fun h => ?_
        subst h
        cases hdb
        rfl
      rw [serve_call hc, serve_call hc']
      refine Prog.twin_bind (P := Answered A) ?_ ?_
      · cases hdb with
        | none =>
            cases c with
            | openDb t =>
                exact twin_callOpen hA .none t
            | _ =>
                exact twin_callNull id
        | some h =>
            cases c with
            | openDb t =>
                exact twin_callOpen hA (.some h) t
            | _ =>
                obtain ⟨fd, rfl, hr, hw⟩ := h
                exact twin_callCmd hA hr hw id (hc.resolve_right nofun)
      · rintro ⟨r, db1⟩ ⟨r', db1'⟩ ⟨rfl, h⟩
        exact Prog.twin_pure ⟨rfl, h⟩
  | stats out =>
      cases hdb with
      | none =>
          exact Prog.twin_pure ⟨rfl, .none⟩
      | some h =>
          obtain ⟨fd, rfl, hr, hw⟩ := id h
          exact twin_read h (fun x => .stats x.1 x.2) (twin_qdbStats hr out)
  | queueStats queue out =>
      cases hdb with
      | none =>
          exact Prog.twin_pure ⟨rfl, .none⟩
      | some h =>
          obtain ⟨fd, rfl, hr, hw⟩ := id h
          exact twin_read h (fun x => .queueStats x.1 x.2)
            (twin_qdbQueueStats queue out)
  | queueList out cap outCount =>
      cases hdb with
      | none =>
          exact Prog.twin_pure ⟨rfl, .none⟩
      | some h =>
          obtain ⟨fd, rfl, hr, hw⟩ := id h
          exact twin_read h (fun x => .queueList x.1 x.2.1 x.2.2)
            (twin_qdbQueueList out cap outCount)
  | compactRecommended out =>
      cases hdb with
      | none =>
          exact Prog.twin_pure ⟨rfl, .none⟩
      | some h =>
          obtain ⟨fd, rfl, hr, hw⟩ := id h
          exact twin_read h (fun x => .recommended x.1 x.2)
            (twin_qdbCompactRecommended hr out)

end Calls

namespace World.Twins

variable {ρ : Fd → Fd → Prop} {w w' : World}

/-- Both machines create the staging file. -/
theorem staging (h : w.Twins ρ False w') :
    w.staging.Twins (addPair ρ w.nextIno w'.nextIno) True w'.staging where
  main := by
    obtain ⟨i, j, hi, hj, hij⟩ := h.main
    refine ⟨i, j, ?_, ?_, Or.inl hij⟩
    · rw [staging_main, hi]
    · rw [staging_main, hj]
  wal := by
    rw [staging_wal, staging_wal]
    exact h.wal
  compact _ := by
    right
    exact ⟨staging_compact w, staging_compact w'⟩
  content {i j} hij := by
    unfold World.content
    rcases hij with hij | ⟨hi, hj⟩
    · obtain ⟨hi, hj⟩ := h.below i j hij
      rw [staging_files w (Nat.ne_of_lt hi), staging_files w' (Nat.ne_of_lt hj)]
      exact h.content hij
    · cases hi
      cases hj
      rw [staging_file, staging_file]
  below i j hij := by
    rcases hij with hij | ⟨hi, hj⟩
    · obtain ⟨hi, hj⟩ := h.below i j hij
      exact ⟨Nat.lt_succ_of_lt hi, Nat.lt_succ_of_lt hj⟩
    · cases hi
      cases hj
      exact ⟨Nat.lt_succ_self _, Nat.lt_succ_self _⟩
  lockOwner := h.lockOwner
  nextLockFd := h.nextLockFd
  now := h.now

theorem matching_staging (h : w.Twins ρ False w') (hρ : Matching ρ) :
    Matching (addPair ρ w.nextIno w'.nextIno) := by
  refine matching_addPair hρ ?_ ?_
  · intro j hj
    exact absurd (h.below _ _ hj).1 (Nat.lt_irrefl _)
  · intro i hi
    exact absurd (h.below _ _ hi).2 (Nat.lt_irrefl _)

/-- The staging file does not matter. -/
theorem unstaged {c : Prop} (h : w.Twins ρ c w') : w.Twins ρ False w' :=
  { h with compact := False.elim }

/-- `qdb_compact` on both machines. -/
theorem compacts (h : w.Twins ρ False w') (hρ : Matching ρ) (target : Target)
    {db db' : Db} (hdb : db.Alike (handleAccess ρ False) db') :
    ∃ ρ', Matching ρ' ∧ Option.Rel
      (fun x x' => Handled (handleAccess ρ' False) x.1 x'.1 ∧
        x.2.Twins ρ' False x'.2)
      (Prog.run posix (qdbCompactOn target db) w)
      (Prog.run posix (qdbCompactOn target db') w') := by
  have hρ' := h.matching_staging hρ
  obtain ⟨fd, rfl, hr, -⟩ := hdb
  refine ⟨_, hρ', ?_⟩
  have hA := hρ'.serves True
  have htwin := Prog.twin_bind (twin_compactReplace hA.proper target
    (hA.deletes .compact nofun) ⟨trivial, rfl, rfl⟩ (Or.inl hr) (Or.inl hr)
    (Or.inr ⟨rfl, rfl⟩) (Or.inr ⟨rfl, rfl⟩))
    (fun _ _ hx => twin_compactReopen hA.proper (hA.main false) hA.wal
      (hA.deletes .wal nofun) hx)
  have hrun := h.staging.run hρ' htwin
  have hopen : ∀ (db : Db) (w : World), Prog.run posix
      (qdbCompactOn target db) w =
        Prog.run posix (compactReplace target db (some w.nextIno) >>=
          compactReopen) w.staging := by
    intro db w
    rw [qdbCompactOn_eq]
    simp [alloc, fileDelete, fileOpen, posix, World.setDir_dir]
    rfl
  rw [hopen, hopen]
  exact rel_mono hrun fun x x' hx => ⟨hx.1, hx.2.unstaged⟩

end World.Twins

/-- One request on the ideal machine. -/
def Sys.serve (target : Target) (s : Sys) (now : UInt64) (req : Request) :
    Option (Answer × Sys) :=
  (Prog.run posix (Qdb.serve target s.db req)
    { s.world with now := now }).map fun r => (r.1.1, ⟨r.2, r.1.2⟩)

/-- A list of requests, each with the clock reading it sees. -/
def Sys.serveAll (target : Target) :
    List (UInt64 × Request) → Sys → Option (List Answer × Sys)
  | [], s => some ([], s)
  | (now, req) :: reqs, s => do
      let (a, s) ← s.serve target now req
      let (as, s) ← Sys.serveAll target reqs s
      return (a :: as, s)

/-- The machines look alike through the handles the applications hold. -/
def Sys.Alike (s s' : Sys) : Prop :=
  ∃ ρ, Matching ρ ∧ s.world.Twins ρ False s'.world ∧
    Option.Rel (Db.Alike (handleAccess ρ False)) s.db s'.db

section Systems

variable {s s' : Sys} {target : Target}

theorem World.Twins.atTime {ρ : Fd → Fd → Prop} {c : Prop} {w w' : World}
    (h : w.Twins ρ c w') (now : UInt64) :
    ({ w with now := now } : World).Twins ρ c { w' with now := now } :=
  { h with now := rfl }

/-- One request is answered alike. -/
theorem Sys.Alike.serve (h : s.Alike s') (now : UInt64) (req : Request) :
    Option.Rel (fun x x' => x'.1 = x.1 ∧ x.2.Alike x'.2)
      (s.serve target now req) (s'.serve target now req) := by
  obtain ⟨w, db⟩ := s
  obtain ⟨w', db'⟩ := s'
  obtain ⟨ρ, hρ, hw0, hdb⟩ := h
  have hw := World.Twins.atTime hw0 now
  unfold Sys.serve
  dsimp only at hw hdb ⊢
  by_cases hreq : req ≠ .call .compact ∨ db = none
  · have hrun := hw.run hρ (twin_serve (hρ.serves False) target hdb hreq)
    refine rel_map hrun ?_
    rintro x x' ⟨⟨ha, hdb1⟩, hw1⟩
    exact ⟨ha, ρ, hρ, hw1, hdb1⟩
  · obtain ⟨hc, hne⟩ := not_or.mp hreq
    cases not_not.mp hc
    cases hdb with
    | none =>
        exact absurd rfl hne
    | some hdb =>
        obtain ⟨ρ', hρ', hrun⟩ := hw.compacts hρ target hdb
        have hmap : ∀ (db : Db) (w : World), (Prog.run posix
            (Qdb.serve target (some db) (.call .compact)) w).map
              (fun r => (r.1.1, (⟨r.2, r.1.2⟩ : Sys))) =
            (Prog.run posix (qdbCompactOn target db) w).map (fun r =>
              (Answer.result (.code r.1.1), ⟨r.2, some r.1.2⟩)) := by
          intro db w
          unfold Qdb.serve
          dsimp only
          rw [Prog.run_bind]
          cases Prog.run posix (qdbCompactOn target db) w <;> rfl
        rw [hmap, hmap]
        refine rel_map hrun ?_
        rintro x x' ⟨⟨hrc, hdb1⟩, hw1⟩
        refine ⟨?_, ρ', hρ', hw1, .some hdb1⟩
        exact congrArg (fun rc => Answer.result (.code rc)) hrc

/-- So is a list of requests. -/
theorem Sys.Alike.serveAll (h : s.Alike s') (reqs : List (UInt64 × Request)) :
    (Sys.serveAll target reqs s').map Prod.fst =
      (Sys.serveAll target reqs s).map Prod.fst := by
  induction reqs generalizing s s' with
  | nil =>
      rfl
  | cons req reqs ih =>
      obtain ⟨now, req⟩ := req
      unfold Sys.serveAll
      have hone : Option.Rel (fun x x' => x'.1 = x.1 ∧ x.2.Alike x'.2)
          (s.serve target now req) (s'.serve target now req) :=
        h.serve now req
      generalize s.serve target now req = r at hone
      generalize s'.serve target now req = r' at hone
      cases hone with
      | none =>
          rfl
      | @some x x' hx =>
          obtain ⟨a, t⟩ := x
          obtain ⟨a', t'⟩ := x'
          obtain ⟨rfl, ht⟩ := hx
          have hrest := ih ht
          simp only [Option.bind_eq_bind, Option.bind_some, Option.pure_def]
          cases h1 : Sys.serveAll target reqs t with
          | none =>
              rw [h1] at hrest
              rw [Option.map_eq_none_iff.mp hrest]
          | some y =>
              rw [h1] at hrest
              obtain ⟨y', hy', heq⟩ := Option.map_eq_some_iff.mp hrest
              rw [hy']
              simp [heq]

end Systems

end Qdb
