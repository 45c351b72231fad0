import Qdb.CompactContract
import Qdb.CrashSafety
import Qdb.PopOrder

/-!
# Renames that a crash undoes

`qdb_compact` renames the staging file over the database file and does not sync
the directory, so that a crash may bring back a file that has been replaced.
`DirSys` is the machine with the replaced files, `DirSys.Next` its steps: a
crash leaves the name of the database as it is or on one of these files.

No call touches a replaced file (`always_detached`), and `qdb_compact` does not
touch the file it replaces (`always_compact`).  What a crash brings back is
therefore the state before a compaction, which lacks the records that calls have
logged since (`rename_loses_push`).  As long as no crash brings back a file
behind which calls have logged records, every call that returned has taken
effect (`renames_durable`).
-/

namespace Qdb

open Lib

section Frames

variable {w : World} {i o : Nat} {g : FileState} {db? : Option Db}
variable {call : Call}

/-- What the calls do that leave the file `o` alone. -/
def detachedAccess (o : Nat) : Access where
  reads := Eq
  writes fd fd' := fd' = fd ∧ fd ≠ some o
  opens p create := p = .wal → create = false
  deletes _ := True
  renames p q := p = .compact ∧ q = .main
  locks := True

theorem detachedAccess_serves (o : Nat) : (detachedAccess o).Serves where
  proper :=
    { reads_none := rfl
      writes_none := ⟨rfl, by simp⟩
      valid := by
        rintro fd _ rfl
        exact Iff.rfl }
  locks := trivial
  deletes _ _ := trivial
  main _ := by
    intro h
    cases h
  wal := fun _ => rfl

/-- The file `o` has the state `g` and no name. -/
structure World.Detached (o : Nat) (g : FileState) (w : World) : Prop where
  file : w.files o = g
  below : o < w.nextIno
  unbound : ∀ p, w.dir p ≠ some o
  wal : w.dir .wal = none

theorem World.Detached.congr (h : w.Detached o g) {w' : World}
    (hfile : w'.files o = w.files o) (hino : w'.nextIno = w.nextIno)
    (hdir : w'.dir = w.dir) : w'.Detached o g where
  file := hfile.trans h.file
  below := by
    rw [hino]
    exact h.below
  unbound p := by
    rw [hdir]
    exact h.unbound p
  wal := by
    rw [hdir]
    exact h.wal

theorem World.Detached.setFile (h : w.Detached o g) (hio : i ≠ o)
    (s : FileState) : (w.setFile i s).Detached o g :=
  h.congr (Function.update_of_ne (Ne.symm hio) _ _) rfl rfl

theorem World.Detached.setDir (h : w.Detached o g) {p : Path} {j : Option Nat}
    (hj : j ≠ some o) (hp : p = .wal → j = none) :
    (w.setDir p j).Detached o g where
  file := h.file
  below := h.below
  unbound q := by
    rw [World.setDir_dir]
    split
    · exact hj
    · exact h.unbound q
  wal := by
    rw [World.setDir_dir]
    split
    · next hw =>
      exact hp hw.symm
    · exact h.wal

/-- The operations that change no names leave them alone. -/
theorem posix_names_kept {a : Op} (hn : ¬ a.Names) (w : World) :
    (posix a w).2.dir = w.dir ∧ (posix a w).2.nextIno = w.nextIno := by
  cases a <;> first | exact absurd trivial hn | skip
  all_goals
    simp only [posix, World.unlock]
    repeat' split
    all_goals constructor <;> first | rfl | trivial

/-- They write no file but their own. -/
theorem posix_file_kept {a : Op} (ha : a.Alike (detachedAccess o) a)
    (hn : ¬ a.Names) (w : World) : (posix a w).2.files o = w.files o := by
  have hset : ∀ {j : Nat} (t : FileState),
      (some j : Fd) = some j ∧ (some j : Fd) ≠ some o →
      (w.setFile j t).files o = w.files o := fun t hj =>
    Function.update_of_ne (fun heq => hj.2 (congrArg some heq.symm)) _ _
  cases a <;> first | exact absurd trivial hn | skip
  all_goals
    simp only [posix, World.unlock]
    repeat' split
    all_goals first | rfl | exact hset _ ha | exact hset _ ha.1

/-- Such an operation leaves the file alone. -/
theorem World.Detached.op (h : w.Detached o g) {a : Op}
    (ha : a.Alike (detachedAccess o) a) :
    a.Agree (detachedAccess o) a (posix a w).1 (posix a w).1 ∧
      (posix a w).2.Detached o g := by
  by_cases hn : a.Names
  · cases a with
    | fileOpen p create =>
        simp only [posix]
        cases hd : w.dir p with
        | some j =>
            refine ⟨⟨rfl, ⟨rfl, ?_⟩, rfl⟩, h⟩
            rw [← hd]
            exact h.unbound p
        | none =>
            dsimp only
            split
            · next hc =>
              have hne : w.nextIno ≠ o := (Nat.ne_of_lt h.below).symm
              have hfd : (some w.nextIno : Fd) ≠ some o :=
                fun heq => hne (Option.some.inj heq)
              have h1 := (h.setFile hne ⟨[], []⟩).setDir (p := p) hfd (by
                rintro rfl
                rw [ha.1 rfl] at hc
                cases hc)
              exact ⟨⟨rfl, ⟨rfl, hfd⟩, rfl⟩, h1.file,
                Nat.lt_succ_of_lt h1.below, h1.unbound, h1.wal⟩
            · exact ⟨rfl, h⟩
    | fileDelete p =>
        exact ⟨rfl, h.setDir (by simp) fun _ => rfl⟩
    | fileRename p q =>
        obtain ⟨⟨rfl, rfl⟩, -⟩ := ha
        simp only [posix]
        cases hk : w.dir .compact with
        | none =>
            exact ⟨rfl, h⟩
        | some k =>
            refine ⟨rfl, (h.setDir ?_ (by simp)).setDir (by simp) fun _ => rfl⟩
            rw [← hk]
            exact h.unbound .compact
    | _ =>
        exact hn.elim
  · obtain ⟨hdir, hino⟩ := posix_names_kept hn w
    exact ⟨Op.agree_kept hn _, h.congr (posix_file_kept ha hn w) hino hdir⟩

/-- A call, next to itself. -/
theorem twin_callCmd_self {A : Access} (hA : A.Serves)
    (hdb : ∀ db, db? = some db → A.reads db.fd db.fd ∧ A.writes db.fd db.fd)
    (hc : call = .compact → A.opens .compact true ∧ A.renames .compact .main ∨
      db? = none) :
    Twin A (fun _ _ => True) (callCmd db? call) (callCmd db? call) := by
  cases db? with
  | none =>
      by_cases hopen : call.Opens
      · cases call with
        | openDb t =>
            exact (twin_callOpen hA .none t).mono fun _ _ _ => trivial
        | _ =>
            exact hopen.elim
      · exact (twin_callNull hopen).mono fun _ _ _ => trivial
  | some db =>
      obtain ⟨hr, hw⟩ := hdb db rfl
      cases call with
      | openDb t =>
          exact (twin_callOpen hA (.some ⟨db.fd, rfl, hr, hw⟩) t).mono
            fun _ _ _ => trivial
      | compact =>
          obtain ⟨hopen, hren⟩ := (hc rfl).resolve_right (by simp)
          have htwin : Twin A (Handled A) (qdbCompact db) (qdbCompact db) :=
            twin_qdbCompactOn hA.proper hA.deletes (hA.main false) hA.wal hopen
              hren .posix hr hw
          exact Prog.twin_bind htwin fun _ _ _ => Prog.twin_pure trivial
      | _ =>
          exact (twin_callCmd hA hr hw id (by simp)).mono fun _ _ _ => trivial

/-- No call touches a file that has no name. -/
theorem always_detached (h : w.Detached o g)
    (hdb : ∀ db, db? = some db → db.fd ≠ some o) :
    Prog.Always posix (World.Detached o g) (callCmd db? call) w :=
  (twin_callCmd_self (detachedAccess_serves o)
    (fun db hsome => ⟨rfl, rfl, hdb db hsome⟩)
    (fun _ => Or.inl ⟨fun hp => (by cases hp), rfl, rfl⟩)).always
    (fun _ _ ha hs => hs.op ha) h

/-- An operation in front of the rest of a program. -/
theorem always_op {β : Type} {I : World → Prop} {a : Op} {k : a.Resp → Cmd β}
    (h : I w) (hk : Prog.Always posix I (k (posix a w).1) (posix a w).2) :
    Prog.Always posix I (Prog.perform a >>= k) w :=
  Prog.always_call h hk

/-- What the calls other than `qdb_compact` do with names. -/
def settledAccess : Access where
  reads := Eq
  writes := Eq
  opens _ _ := True
  deletes p := p ≠ .main
  renames _ _ := False
  locks := True

theorem settledAccess_serves : settledAccess.Serves where
  proper :=
    { reads_none := rfl
      writes_none := rfl
      valid := by
        rintro fd _ rfl
        exact Iff.rfl }
  locks := trivial
  deletes _ hp := hp
  main _ := trivial
  wal := trivial

/-- Such an operation leaves the name of the database alone. -/
theorem settled_op {a : Op} (ha : a.Alike settledAccess a)
    (hm : w.dir .main = some i) :
    a.Agree settledAccess a (posix a w).1 (posix a w).1 ∧
      (posix a w).2.dir .main = some i := by
  by_cases hn : a.Names
  · cases a with
    | fileOpen p create =>
        simp only [posix]
        cases hd : w.dir p with
        | some j =>
            exact ⟨⟨rfl, rfl, rfl⟩, hm⟩
        | none =>
            dsimp only
            split
            · refine ⟨⟨rfl, rfl, rfl⟩, ?_⟩
              rw [World.create_dir, if_neg]
              · exact hm
              · rintro rfl
                rw [hd] at hm
                cases hm
            · exact ⟨rfl, hm⟩
    | fileDelete p =>
        refine ⟨rfl, ?_⟩
        simp only [posix]
        rw [World.setDir_dir, if_neg (fun h => ha.1 h.symm)]
        exact hm
    | fileRename p q =>
        exact ha.1.elim
    | _ =>
        exact hn.elim
  · refine ⟨Op.agree_kept hn _, ?_⟩
    rw [(posix_names_kept hn w).1]
    exact hm

/-- Only `qdb_compact` on a handle gives the name of the database away. -/
theorem always_main (hm : w.dir .main = some i)
    (hc : call ≠ .compact ∨ db? = none) :
    Prog.Always posix (fun w' => w'.dir .main = some i) (callCmd db? call) w :=
  (twin_callCmd_self settledAccess_serves (fun _ _ => ⟨rfl, rfl⟩)
    (fun h => Or.inr (hc.resolve_left (not_not.mpr h)))).always
    (fun _ _ ha hs => settled_op ha hs) hm

/-- The file `i` has the state `g`; it is the database file or has no name. -/
structure World.Behind (i : Nat) (g : FileState) (w : World) : Prop where
  file : w.files i = g
  below : i < w.nextIno
  wal : w.dir .wal = none
  named : w.dir .main = some i ∨ ∀ p, w.dir p ≠ some i

theorem World.Detached.behind (h : w.Detached i g) : w.Behind i g :=
  ⟨h.file, h.below, h.wal, Or.inr h.unbound⟩

/-- The steps of `qdb_compact` before the staging file is filled. -/
theorem always_compact_of_staged {I : World → Prop} {db : Db} (hw : I w)
    (hw' : I (w.setDir .compact none))
    (h : Prog.Always posix I (compactReplace .posix db (some w.nextIno) >>=
      compactReopen) w.staging) : Prog.Always posix I (qdbCompact db) w := by
  change Prog.Always posix I (qdbCompactOn .posix db) w
  rw [qdbCompactOn_eq]
  refine always_op hw ?_
  dsimp only [posix]
  rw [if_neg (by simp)]
  refine always_op hw ?_
  refine always_op hw' ?_
  have hnone : (w.setDir .compact none).dir .compact = none := by
    simp [World.setDir]
  simp only [posix, hnone, if_true]
  exact h

/-- A machine that differs from the one before a compaction in the staging file
only. -/
theorem World.Behind.of_staging {t : World} (hfile : w.files i = g)
    (hi : i < w.nextIno) (hwal : w.dir .wal = none)
    (hm : w.dir .main = some i) (ht : w.staging.SameBut w.nextIno t) :
    t.Behind i g where
  file := (ht.files i (Nat.ne_of_lt hi)).trans
    ((staging_files w (Nat.ne_of_lt hi)).trans hfile)
  below := by
    rw [ht.nextIno]
    exact Nat.lt_succ_of_lt hi
  wal := by
    rw [ht.dir, staging_wal]
    exact hwal
  named := by
    left
    rw [ht.dir, staging_main]
    exact hm

theorem World.Behind.unstage {t : World} (h : t.Behind i g)
    (hm : t.dir .main = some i) : (t.setDir .compact none).Behind i g where
  file := h.file
  below := h.below
  wal := by
    rw [World.setDir_dir, if_neg (by decide)]
    exact h.wal
  named := by
    left
    rw [World.setDir_dir, if_neg (by decide)]
    exact hm

/-- The rename takes the name from the old file. -/
theorem World.Behind.replaced {t : World} {k : Nat} (h : t.Behind i g)
    (hne : k ≠ i) :
    ((t.setDir .main (some k)).setDir .compact none).Detached i g := by
  have hnot : (some k : Option Nat) ≠ some i := fun h => hne (Option.some.inj h)
  have hwal := h.wal
  refine ⟨h.file, h.below, ?_, ?_⟩
  · intro p
    rw [World.setDir_dir, World.setDir_dir]
    cases p with
    | main =>
        simpa using hnot
    | wal =>
        simp [hwal]
    | compact =>
        simp
  · rw [World.setDir_dir, World.setDir_dir]
    simpa using hwal

/-- Filling the staging file and renaming it does not touch the old file, and
behind the rename that has no name. -/
theorem always_compactReplace (db : Db) (hfile : w.files i = g)
    (hi : i < w.nextIno) (hwal : w.dir .wal = none)
    (hm : w.dir .main = some i) :
    Prog.Always posix (World.Behind i g)
      (compactReplace .posix db (some w.nextIno)) w.staging ∧
    ∀ x w', Prog.run posix (compactReplace .posix db (some w.nextIno))
      w.staging = some (x, w') →
        x = .ok db ∧ w'.Detached i g ∨ ∃ y, x = .error y := by
  have hsame : ∀ t, w.staging.SameBut w.nextIno t → t.Behind i g :=
    fun t ht => World.Behind.of_staging hfile hi hwal hm ht
  have hfill : Prog.Always posix (w.staging.SameBut w.nextIno)
      (compactStage db (some w.nextIno)) w.staging := by
    have hstage : Twin (stagingAccess w.nextIno) Same
        (compactStage db (some w.nextIno)) (compactStage db (some w.nextIno)) :=
      twin_compactStage rfl ⟨rfl, rfl⟩
    refine hstage.always ?_ (World.SameBut.refl _ _)
    intro a t ha ht
    obtain ⟨hagree, hst⟩ := (failing_posix (fun _ => False) a t).sameBut ha
    exact ⟨hagree, ht.trans hst⟩
  -- what stands behind the filled staging file
  have hrest : ∀ (rc : Rc) (w3 : World), w.staging.SameBut w.nextIno w3 →
      (rc ≠ .ok ∧ (w3.setDir .compact none).Behind i g) ∨
      (rc = .ok ∧ w3.dir .compact = some w.nextIno ∧
        ((w3.setDir .main (some w.nextIno)).setDir .compact none).Detached
          i g) := by
    intro rc w3 h3
    by_cases hrc : rc = .ok
    · refine Or.inr ⟨hrc, ?_, (hsame _ h3).replaced (Nat.ne_of_lt hi).symm⟩
      rw [h3.dir, staging_compact]
    · refine Or.inl ⟨hrc, (hsame _ h3).unstage ?_⟩
      rw [h3.dir, staging_main]
      exact hm
  unfold compactReplace
  constructor
  · refine Prog.always_bind (hfill.mono hsame) ?_
    intro rc w3 hrun
    have h3 := hfill.final hrun
    refine always_op (hsame _ h3) ?_
    dsimp only [posix]
    rcases hrest rc w3 h3 with ⟨hrc, hun⟩ | ⟨rfl, hk, hdet⟩
    · rw [if_pos hrc]
      exact always_op (hsame _ h3) (Prog.always_pure hun)
    · rw [if_neg (by simp), if_neg (by decide)]
      refine always_op (hsame _ h3) ?_
      simp only [posix, hk]
      rw [if_neg (by simp)]
      exact Prog.always_pure hdet.behind
  · intro x w' hrun
    rw [Prog.run_bind] at hrun
    obtain ⟨⟨rc, w3⟩, hstage, hrun⟩ := Option.bind_eq_some_iff.mp hrun
    rcases hrest rc w3 (hfill.final hstage) with ⟨hrc, -⟩ | ⟨rfl, hk, hdet⟩
    · rw [Prog.run_bind] at hrun
      dsimp only at hrun
      rw [if_pos hrc] at hrun
      cases hrun
      exact Or.inr ⟨_, rfl⟩
    · rw [Prog.run_bind] at hrun
      dsimp only at hrun
      rw [if_neg (by simp), if_neg (by decide)] at hrun
      simp only [fileClose, fileRename, Prog.run_bind, Prog.run_perform,
        Option.bind_some, posix, hk] at hrun
      rw [if_neg (by simp)] at hrun
      cases hrun
      exact Or.inl ⟨rfl, hdet⟩

/-- `qdb_compact` does not touch the file it replaces. -/
theorem always_compact {db : Db} (hfile : w.files i = g)
    (hi : i < w.nextIno) (hwal : w.dir .wal = none)
    (hm : w.dir .main = some i) :
    Prog.Always posix (World.Behind i g) (callCmd (some db) .compact) w := by
  have h0 : w.Behind i g := ⟨hfile, hi, hwal, Or.inl hm⟩
  obtain ⟨hreplace, hend⟩ := always_compactReplace db hfile hi hwal hm
  have hp : Prog.Always posix (World.Behind i g) (qdbCompact db) w := by
    apply always_compact_of_staged h0 (h0.unstage hm)
    refine Prog.always_bind hreplace ?_
    intro x w' hrun
    rcases hend x w' hrun with ⟨rfl, hdet⟩ | ⟨y, rfl⟩
    · have hA := detachedAccess_serves i
      have hreopen : Twin (detachedAccess i) (Handled (detachedAccess i))
          (reopenAfterCompact db) (reopenAfterCompact db) :=
        twin_reopenAfterCompact hA.proper (hA.main false) hA.wal
          (hA.deletes .wal (by simp)) rfl
      exact (hreopen.always (fun _ _ ha hs => hs.op ha) hdet).mono
        fun _ ht => ht.behind
    · exact Prog.always_pure (hreplace.final hrun)
  change Prog.Always posix _ (qdbCompact db >>= fun x =>
    pure (Result.code x.1, some x.2)) w
  refine Prog.always_bind hp ?_
  intro x w' hrun
  exact Prog.always_pure (hp.final hrun)

end Frames

namespace Broker

variable {b b' : Broker} {now : UInt64} {call : Call} {res : Result}

/-- Queues, leases and counters, with the retry counts forgotten. -/
def core (b : Broker) : Broker :=
  b.down.compacted

theorem core_compacted (b : Broker) : b.compacted.core = b.core := by
  ext1
  · rfl
  · rfl
  · rfl
  · funext n
    change ((b.queue n).map _).map _ = (b.queue n).map _
    rw [List.map_map]
    rfl
  · funext l
    change ((b.lease l).map _).map _ = (b.lease l).map _
    rw [Option.map_map]
    rfl

end Broker

/-- The leases of the handle that have expired. -/
def Sys.overdue (s : Sys) (now : UInt64) : List Lease :=
  match s.db.bind Db.state with
  | none => []
  | some st => Qdb.overdue now st.leases

/-- The call `e` with the result `res` has logged a record. -/
def Sys.logs (s : Sys) (e : Event) (res : Result) : Bool :=
  match e.call with
  | .openDb _ => false
  | .close => false
  | .compact => false
  | .processExpired =>
      res.rc = .errIo ∨ (res.rc = .ok ∧ s.overdue e.now ≠ [])
  | _ => res.rc = .ok

/-- No lease of the abstract machine has expired if none of the handle has. -/
theorem Sys.Shows.expired_nil {s : Sys} {b : Broker} {now : UInt64}
    {ls : List (UInt64 × Held)} (h : s.Shows b) (hopen : b.session.isSome)
    (hls : b.Expired now ls) (hnone : s.overdue now = []) : ls = [] := by
  obtain ⟨db, hdb⟩ := Option.isSome_iff_exists.mp (h.session_isSome.mp hopen)
  obtain ⟨st, hst⟩ := h.state_isSome hdb
  have hover : Qdb.overdue now st.leases = [] := by
    unfold Sys.overdue at hnone
    rw [hdb, Option.bind_some, hst] at hnone
    exact hnone
  have hlen := h.expired_length hdb hst hls
  rw [length_overdue, hover] at hlen
  exact List.length_eq_zero_iff.mp hlen

/-- A call that logs no record leaves queues, leases and counters alone. -/
theorem Sys.Shows.core {s : Sys} {b b' : Broker} {e : Event} {res : Result}
    (hs : s.Shows b) (h : b.Ends e.now e.call res b')
    (hlog : s.logs e res = false) : b'.core = b.core := by
  obtain ⟨now, call⟩ := e
  rcases h with ⟨-, h⟩ | ⟨rfl, h⟩
  · cases h with
    | push _ _ =>
        cases hlog
    | pop _ _ _ =>
        cases hlog
    | popAny _ _ _ =>
        cases hlog
    | ack _ _ _ =>
        cases hlog
    | nack _ _ _ =>
        cases hlog
    | @expire ls hopen hls =>
        have hnot := of_decide_eq_false hlog
        have hnone : s.overdue now = [] := by
          by_contra hne
          exact hnot (Or.inr ⟨rfl, hne⟩)
        rw [hs.expired_nil hopen hls hnone]
        rfl
    | compact _ =>
        exact b.core_compacted
    | _ =>
        rfl
  · cases h with
    | same _ _ =>
        rfl
    | expire _ =>
        cases hlog

/-- A step of the abstract machine, or a crash behind which every call has its
effect and the retry counts may be older. -/
inductive Broker.NextKept (b : Broker) : Act → Broker → Prop
  | next {a : Act} {b' : Broker} (h : b.Next a b') : NextKept b a b'
  | undo {e : Event} {b' : Broker} (hn : b.Counting) (hs : b'.session = none)
      (h : b'.core = b.core) : NextKept b (.crash e) b'

/-- The replaced database files once the machine has gone from `w` to `w'`. -/
def replacedBy (w w' : World) (olds : List Nat) : List Nat :=
  match w.dir .main with
  | none => olds
  | some i => if w'.dir .main = some i then olds else i :: olds

/-- The machine and the replaced database files that a crash may bring back;
`stale` are those behind which calls have logged records. -/
structure DirSys where
  sys : Sys
  replaced : List Nat
  stale : List Nat

namespace DirSys

/-- The replaced files when a call has gone on to `w`. -/
def replacedAt (s : DirSys) (w : World) : List Nat :=
  replacedBy s.sys.world w s.replaced

/-- The machine where a call is made. -/
def called (s : DirSys) (e : Event) (n : Nat) : World :=
  Prog.after posix n (callCmd s.sys.db e.call)
    { s.sys.world with now := e.now }

/-- A call returns, or a crash happens once it has issued `n` operations; the
name of the database is then as it was or on a replaced file. -/
inductive Next (s : DirSys) : Act → DirSys → Prop
  | call {e : Event} {id : Option UInt64} {res : Result} {t : Sys}
      (h : s.sys.Returns (.call e id res) t) :
      Next s (.call e id res) ⟨t, s.replacedAt t.world,
        if s.sys.logs e res then s.replacedAt t.world else s.stale⟩
  | crash {e : Event} {n : Nat} {w : World} (h : (s.called e n).Crash w) :
      Next s (.crash e) ⟨⟨w, none⟩, [], []⟩
  | undo {e : Event} {n o : Nat} {w : World} (h : (s.called e n).Crash w)
      (ho : o ∈ s.replacedAt w) :
      Next s (.crash e) ⟨⟨w.setDir .main (some o), none⟩, [], []⟩

/-- The same before an id counter has wrapped. -/
def CountedNext (s : DirSys) (a : Act) (t : DirSys) : Prop :=
  s.sys.Counting ∧ s.Next a t

/-- It does not bring back a file behind which calls have logged records. -/
def KeptNext (s : DirSys) (a : Act) (t : DirSys) : Prop :=
  s.CountedNext a t ∧ ∀ o ∈ s.stale, t.sys.world.dir .main ≠ some o

end DirSys

/-- The file `o` has no name and holds the state `b`. -/
def World.Retains (w : World) (o : Nat) (b : Broker) : Prop :=
  ∃ (g : FileState) (v : View), w.Detached o g ∧ v.Holds False g ∧
    (Phase.closed v.file).Shows b

/-- The machine shows `b`, and so do the files that can come back and are not
stale. -/
structure DirSys.Shows (s : DirSys) (b : Broker) : Prop where
  sys : s.sys.Shows b
  main : s.sys.world.dir .main ≠ none
  retains : ∀ o ∈ s.replaced, ∃ b₀, s.sys.world.Retains o b₀ ∧
    (o ∉ s.stale → b₀.core = b.core)

section Steps

variable {s t : DirSys} {b : Broker} {e : Event} {w w' : World} {o : Nat}

/-- The handle is on the database file. -/
theorem Sys.Shows.fd_ne {s : Sys} (h : s.Shows b)
    (ho : ∀ p, s.world.dir p ≠ some o) (db : Db) (hdb : s.db = some db) : db.fd ≠ some o := by
  obtain ⟨ph, his, -⟩ := h
  cases ph with
  | opened v =>
      obtain ⟨db', i, hdb', hlive⟩ := his
      rw [hdb] at hdb'
      cases hdb'
      rw [hlive.fd, ← hlive.main]
      exact ho .main
  | _ =>
      rw [his.db_none (by simp)] at hdb
      cases hdb

theorem World.Retains.unbound (h : w.Retains o b) (p : Path) :
    w.dir p ≠ some o := by
  obtain ⟨g, v, hdet, -⟩ := h
  exact hdet.unbound p

theorem World.Retains.atTime (h : w.Retains o b) (now : UInt64) :
    { w with now := now }.Retains o b := by
  obtain ⟨g, v, hdet, hv, hb⟩ := h
  exact ⟨g, v, hdet.congr rfl rfl rfl, hv, hb⟩

/-- A file without a name keeps its state at every point of a call. -/
theorem World.Retains.always (h : w.Retains o b) {db? : Option Db}
    {call : Call} (hdb : ∀ db, db? = some db → db.fd ≠ some o) :
    Prog.Always posix (fun w' => w'.Retains o b) (callCmd db? call) w := by
  obtain ⟨g, v, hdet, hv, hb⟩ := h
  exact (always_detached hdet hdb).mono fun _ hd => ⟨g, v, hd, hv, hb⟩

/-- The replaced files at every point of a call. -/
theorem DirSys.Shows.always (h : s.Shows b) (e : Event) (n : Nat) :
    ∀ o ∈ s.replacedAt (s.called e n), ∃ b₀,
      (s.called e n).Retains o b₀ ∧ (o ∉ s.stale → b₀.core = b.core) := by
  have hold : ∀ o ∈ s.replaced, ∃ b₀,
      (s.called e n).Retains o b₀ ∧ (o ∉ s.stale → b₀.core = b.core) := by
    intro o ho
    obtain ⟨b₀, hret, hcore⟩ := h.retains o ho
    exact ⟨b₀, (hret.atTime e.now).always (h.sys.fd_ne hret.unbound) n, hcore⟩
  intro o ho
  obtain ⟨i, hi⟩ := Option.ne_none_iff_exists'.mp h.main
  unfold DirSys.replacedAt replacedBy at ho
  rw [hi] at ho
  dsimp only at ho
  split at ho
  · exact hold o ho
  · next hmoved =>
    rcases List.mem_cons.mp ho with rfl | ho
    · by_cases hc : e.call ≠ .compact ∨ s.sys.db = none
      · have hmain : Prog.Always posix (fun w => w.dir .main = some o)
            (callCmd s.sys.db e.call) { s.sys.world with now := e.now } :=
          always_main hi hc
        exact absurd (hmain n) hmoved
      · obtain ⟨hcall, hdb⟩ := not_or.mp hc
        obtain ⟨ph, his, hph⟩ := h.sys
        cases ph with
        | opened v =>
            obtain ⟨c, hinv, rfl⟩ := hph
            obtain ⟨db, j, hdb', hlive⟩ := his
            have hj : j = o := by
              rw [hlive.main] at hi
              exact Option.some.inj hi
            subst hj
            have hbehind : Prog.Always posix
                (World.Behind j (s.sys.world.files j))
                (callCmd (some db) .compact)
                { s.sys.world with now := e.now } :=
              always_compact rfl hlive.ino hlive.wal hi
            have hpoint : (s.called e n).Behind j (s.sys.world.files j) := by
              unfold DirSys.called
              rw [hdb', not_not.mp hcall]
              exact hbehind n
            have hdet : (s.called e n).Detached j (s.sys.world.files j) :=
              ⟨hpoint.file, hpoint.below,
                hpoint.named.resolve_left hmoved, hpoint.wal⟩
            exact ⟨(v.live c).down, ⟨_, v, hdet, hlive.keeps,
              hinv.shows_closed rfl⟩, fun _ => rfl⟩
        | _ =>
            exact absurd (his.db_none (by simp)) hdb
    · exact hold o ho

theorem World.Crash.setMain (h : w.Crash w') (o : Nat) :
    (w.setDir .main (some o)).Crash (w'.setDir .main (some o)) where
  main := by
    rw [World.setDir_dir, World.setDir_dir]
    rfl
  wal := by
    rw [World.setDir_dir, World.setDir_dir, if_neg (by decide),
      if_neg (by decide)]
    exact h.wal
  files := h.files
  nextIno := h.nextIno
  lockOwner := h.lockOwner

/-- What a crash shows that brings back a file. -/
theorem World.Retains.undo (h : w.Retains o b) (hc : w.Crash w') :
    (⟨w'.setDir .main (some o), none⟩ : Sys).Shows b := by
  obtain ⟨g, v, hdet, hv, hb⟩ := h
  have hdisk : OnDisk o (v.Holds False) (w.setDir .main (some o)) :=
    { main := by
        rw [World.setDir_dir, if_pos rfl]
      wal := by
        rw [World.setDir_dir, if_neg (by decide)]
        exact hdet.wal
      ino := hdet.below
      file := by
        change v.Holds False (w.files o)
        rw [hdet.file]
        exact hv }
  exact ⟨_, hdisk.crash_holds (hc.setMain o), hb⟩

/-- A step that brings back no stale file. -/
theorem DirSys.Shows.next (h : s.Shows b) {a : Act} (hs : s.KeptNext a t) :
    ∃ b', b.NextKept a b' ∧ t.Shows b' := by
  obtain ⟨⟨hn, hs⟩, hkept⟩ := hs
  cases hs with
  | @call e id res u hret =>
      obtain ⟨b', hr, hb'⟩ := h.sys.returns ⟨hn, hret⟩
      have hends : b.Ends e.now e.call res b' := by
        cases hr with
        | call _ hends =>
            exact hends
      refine ⟨b', .next (.returns hr), hb',
        h.sys.main_next h.main ⟨hn, .returns hret⟩, ?_⟩
      obtain ⟨-, hstep⟩ := hret.inv
      obtain ⟨⟨⟨r, db'⟩, w1⟩, hrun, heq⟩ := Option.map_eq_some_iff.mp hstep
      cases heq
      have hall : Prog.Always posix (fun w => ∀ o ∈ s.replacedAt w, ∃ b₀,
          w.Retains o b₀ ∧ (o ∉ s.stale → b₀.core = b.core))
          (callCmd s.sys.db e.call) { s.sys.world with now := e.now } :=
        h.always e
      intro o ho
      obtain ⟨b₀, hret, hcore⟩ := hall.final hrun o ho
      refine ⟨b₀, hret, fun hstale => ?_⟩
      dsimp only at hstale ho
      cases hlog : s.sys.logs e r with
      | true =>
          rw [hlog, if_pos rfl] at hstale
          exact absurd ho hstale
      | false =>
          rw [hlog, if_neg (by simp)] at hstale
          exact (hcore hstale).trans (h.sys.core hends hlog).symm
  | crash hc =>
      obtain ⟨b', hcr, hb'⟩ := h.sys.crash hn h.main hc
      exact ⟨b', .next (.crash (h.sys.broker_counting hn) hcr), hb',
        h.sys.main_next h.main ⟨hn, .crash hc⟩, by simp⟩
  | @undo e n o w hc ho =>
      have ho' : o ∈ s.replacedAt (s.called e n) := by
        unfold DirSys.replacedAt replacedBy at ho ⊢
        rw [hc.main] at ho
        exact ho
      obtain ⟨b₀, hret, hcore⟩ := h.always e n o ho'
      have hshow := hret.undo hc
      have hback : (w.setDir .main (some o)).dir .main = some o := by
        rw [World.setDir_dir, if_pos rfl]
      have hnot : o ∉ s.stale := fun hin => hkept o hin hback
      refine ⟨b₀, .undo (h.sys.broker_counting hn) (hshow.session_none rfl)
        (hcore hnot), hshow, ?_, by simp⟩
      change (w.setDir .main (some o)).dir .main ≠ none
      rw [hback]
      simp

/-- As long as no crash brings back a file behind which calls have logged
records, and until an id counter wraps, every call that returned has taken
effect after every crash. -/
theorem renames_durable {now : UInt64} {t : UInt32} {s₀ : Sys} {s : DirSys}
    {as : List Act}
    (hcreate : Sys.init.step ⟨now, .openDb t⟩ = some (.code .ok, s₀))
    (hrun : Run DirSys.KeptNext ⟨s₀, [], []⟩ as s) :
    ∃ b, Run Broker.NextKept
        { Broker.new with session := some (leaseTimeoutOf t) } as b ∧
      s.sys.Recovers b := by
  obtain ⟨hb, hmain⟩ := Sys.Shows.created hcreate
  have h0 : DirSys.Shows ⟨s₀, [], []⟩ _ := ⟨hb, hmain, by simp⟩
  obtain ⟨b, hb', hs⟩ := hrun.simulate (R := DirSys.Shows) h0
    fun _ _ _ _ ht hs => ht.next hs
  exact ⟨b, hb', hs.sys.recovers⟩

end Steps

section Rounds

/-- A call keeps the names apart. -/
theorem Sys.step_named {s t : Sys} {e : Event} {r : Result}
    (hs : s.world.Named) (h : s.step e = some (r, t)) : t.world.Named := by
  have hserve : s.serve .posix e.now (.call e.call) = some (.result r, t) := by
    rw [s.serve_step e, h]
    rfl
  exact Sys.serve_named hs hserve

/-- A call other than `qdb_compact` leaves the name of the database alone. -/
theorem Sys.step_main {s t : Sys} {e : Event} {r : Result} {i : Nat}
    (hi : s.world.dir .main = some i) (hc : e.call ≠ .compact)
    (h : s.step e = some (r, t)) : t.world.dir .main = some i := by
  obtain ⟨⟨⟨r', db'⟩, w1⟩, hrun, heq⟩ := Option.map_eq_some_iff.mp h
  cases heq
  have hmain : Prog.Always posix (fun w => w.dir .main = some i)
      (callCmd s.db e.call) { s.world with now := e.now } :=
    always_main hi (Or.inl hc)
  exact hmain.final hrun

/-- A successful `qdb_compact` gives it to another file. -/
theorem Sys.compact_moves {s t : Sys} {db : Db} {i : Nat} {now : UInt64}
    (hw : s.world.Named) (hdb : s.db = some db)
    (hi : s.world.dir .main = some i)
    (h : s.step ⟨now, .compact⟩ = some (.code .ok, t)) :
    t.world.dir .main ≠ some i := by
  obtain ⟨⟨⟨r, db'⟩, w1⟩, hrun, heq⟩ := Option.map_eq_some_iff.mp h
  cases heq
  rw [hdb] at hrun
  change Prog.run posix (qdbCompact db >>= fun x =>
    pure (Result.code x.1, some x.2)) _ = _ at hrun
  rw [Prog.run_bind] at hrun
  obtain ⟨⟨⟨rc, db2⟩, w2⟩, hx, hret⟩ := Option.bind_eq_some_iff.mp hrun
  cases hret
  intro hkept
  have hw' : World.Named { s.world with now := now } := hw.congr rfl rfl
  have hmain : w2.dir .main = s.world.dir .main :=
    Eq.trans hkept hi.symm
  have hexec : Prog.Exec (Failing fun _ => False) (qdbCompactOn .posix db)
      { s.world with now := now } (.ok, db2) w2 :=
    Prog.Exec.of_run (failing_posix _) hx
  obtain ⟨-, -, -, hno, -⟩ := exec_compact_failed hw' hexec hmain
  exact hno rfl

namespace DirSys

variable {s : DirSys} {w : World} {i o : Nat}

theorem replacedAt_same (hi : s.sys.world.dir .main = some i)
    (hw : w.dir .main = some i) : s.replacedAt w = s.replaced := by
  unfold replacedAt replacedBy
  rw [hi]
  dsimp only
  rw [if_pos hw]

theorem replacedAt_moved (hi : s.sys.world.dir .main = some i)
    (hw : w.dir .main ≠ some i) : s.replacedAt w = i :: s.replaced := by
  unfold replacedAt replacedBy
  rw [hi]
  dsimp only
  rw [if_neg hw]

theorem mem_replacedAt (h : o ∈ s.replaced) (w : World) :
    o ∈ s.replacedAt w := by
  unfold replacedAt replacedBy
  split
  · exact h
  · split
    · exact h
    · exact List.mem_cons_of_mem _ h

end DirSys

/-- A database with one message, compacted; a crash may bring back `o`. -/
theorem exists_compacted : ∃ (s₀ s : Sys) (o : Nat) (b : Broker),
    Sys.init.step ⟨0, .openDb 0⟩ = some (.code .ok, s₀) ∧
    Run DirSys.KeptNext ⟨s₀, [], []⟩
      [.call ⟨0, .push roundQueue (.buf [])⟩ (some 1) (.code .ok),
        .call ⟨0, .compact⟩ (some 2) (.code .ok)] ⟨s, [o], []⟩ ∧
    DirSys.Shows ⟨s, [o], []⟩ b ∧ RoundPushed s 1 1 0 (3 * maxRecord) := by
  obtain ⟨s₀, ⟨-, hcreate⟩, hidle⟩ := Idle.create 0 0
  obtain ⟨s₁, ⟨hn₁, hpush⟩, hpushed⟩ := hidle.push (by decide) (by decide)
  obtain ⟨s₂, ⟨hn₂, hcompact⟩, hcompacted⟩ :=
    hpushed.compact (by decide) (by decide)
  obtain ⟨-, hcreate⟩ := hcreate.inv
  have hshow := Sys.Shows.created hcreate
  obtain ⟨i, hi⟩ := Option.ne_none_iff_exists'.mp hshow.2
  obtain ⟨-, hstep₁⟩ := hpush.inv
  obtain ⟨-, hstep₂⟩ := hcompact.inv
  have hi₁ := Sys.step_main hi (by simp) hstep₁
  obtain ⟨v, c, hsmall, -⟩ := id hpushed
  obtain ⟨db, -, hdb, -⟩ := hsmall.is
  have hnamed := Sys.step_named (Sys.step_named World.empty_named hcreate)
    hstep₁
  have hi₂ := Sys.compact_moves hnamed hdb hi₁ hstep₂
  have h1 : DirSys.Next ⟨s₀, [], []⟩
      (.call ⟨0, .push roundQueue (.buf [])⟩ (some 1) (.code .ok))
      ⟨s₁, [], []⟩ := by
    have hnext := DirSys.Next.call (s := ⟨s₀, [], []⟩) hpush
    rw [DirSys.replacedAt_same hi hi₁] at hnext
    exact hnext
  have h2 : DirSys.Next ⟨s₁, [], []⟩
      (.call ⟨0, .compact⟩ (some 2) (.code .ok)) ⟨s₂, [i], []⟩ := by
    have hnext := DirSys.Next.call (s := ⟨s₁, [], []⟩) hcompact
    rw [DirSys.replacedAt_moved hi₁ hi₂] at hnext
    exact hnext
  have hfirst : Run DirSys.KeptNext ⟨s₀, [], []⟩ [_] ⟨s₁, [], []⟩ :=
    Run.single ⟨⟨hn₁, h1⟩, by simp⟩
  have hrun := hfirst.snoc ⟨⟨hn₂, h2⟩, by simp⟩
  have h0 : DirSys.Shows ⟨s₀, [], []⟩ _ := ⟨hshow.1, hshow.2, by simp⟩
  obtain ⟨b, -, hs⟩ := hrun.simulate (R := DirSys.Shows) h0
    fun _ _ _ _ ht hs => ht.next hs
  exact ⟨s₀, s₂, i, b, hcreate, hrun, hs, hcompacted⟩

/-- A crash undoes the rename of a compaction behind which nothing has been
called. -/
theorem renames_durable_round : ∃ (s₀ : Sys) (s : DirSys) (b : Broker),
    Sys.init.step ⟨0, .openDb 0⟩ = some (.code .ok, s₀) ∧
    Run DirSys.KeptNext ⟨s₀, [], []⟩
      [.call ⟨0, .push roundQueue (.buf [])⟩ (some 1) (.code .ok),
        .call ⟨0, .compact⟩ (some 2) (.code .ok),
        .crash ⟨0, .close⟩] s ∧ s.sys.Recovers b := by
  obtain ⟨s₀, s, o, b, hcreate, hrun, hs, v, c, hsmall, -, -, hm, hl⟩ :=
    exists_compacted
  have hn : s.Counting := hsmall.sys_counting
    ⟨by rw [hm]; decide, by rw [hl]; decide⟩
  have hcrash : DirSys.KeptNext ⟨s, [o], []⟩ (.crash ⟨0, .close⟩) _ :=
    ⟨⟨hn, .undo (n := 0) (World.crash_crashed _)
      (DirSys.mem_replacedAt (List.mem_singleton.mpr rfl) _)⟩, by simp⟩
  have hrun' := hrun.snoc hcrash
  obtain ⟨b', -, hb'⟩ := renames_durable hcreate hrun'
  exact ⟨s₀, _, b', hcreate, hrun', hb'⟩

/-- A push that has returned is lost when a crash undoes the rename of the
compaction before it: the second message is in no queue and under no lease. -/
theorem rename_loses_push : ∃ (s₀ : Sys) (s : DirSys) (s' : Sys) (b : Broker),
    Sys.init.step ⟨0, .openDb 0⟩ = some (.code .ok, s₀) ∧
    Run DirSys.CountedNext ⟨s₀, [], []⟩
      [.call ⟨0, .push roundQueue (.buf [])⟩ (some 1) (.code .ok),
        .call ⟨0, .compact⟩ (some 2) (.code .ok),
        .call ⟨0, .push roundQueue (.buf [])⟩ (some 2) (.code .ok),
        .crash ⟨0, .close⟩] s ∧
    s.sys.step ⟨0, .openDb 0⟩ = some (.code .ok, s') ∧ s'.broker = some b ∧
    (∀ n, ∀ m ∈ b.queue n, m.id ≠ 2) ∧ ∀ l, b.lease l = none := by
  obtain ⟨s₀, s, o, b, hcreate, hrun, hs, v, c, hsmall, hqueue, hlease, hm,
    hl⟩ := exists_compacted
  have hv : s.Shows (v.live c) := ⟨_, hsmall.is, c, hsmall.inv, rfl⟩
  have hb : b = v.live c := by
    obtain ⟨db, -, hdb, -⟩ := hsmall.is
    exact Option.some.inj
      ((hs.sys.broker_eq hdb).symm.trans (hv.broker_eq hdb))
  have hsm : s.ShowsSmall (v.live c) (3 * maxRecord) := ⟨v, c, hsmall, rfl⟩
  have hid : (v.live c).nextMsgId = 2 := hm
  obtain ⟨res, s₁, b₁, ⟨hn, hpush⟩, hsm₁, hstep⟩ := hsm.call (by decide)
    (by rw [hid]; decide) (by
      rw [show (v.live c).nextLeaseId = 1 from hl]
      decide)
    (.push roundQueue (.buf [])) (fun _ => rfl)
  obtain ⟨rfl, rfl⟩ := hstep.push_inv rfl pushArg_round
  rw [hid] at hpush
  obtain ⟨v₁, c₁, hsmall₁, hb₁⟩ := hsm₁
  have hm₁ : v₁.mem.nextMsgId = 2 + 1 :=
    (congrArg Broker.nextMsgId hb₁).trans (congrArg (· + 1) hid)
  have hl₁ : v₁.mem.nextLeaseId = 1 :=
    (congrArg Broker.nextLeaseId hb₁).trans hl
  have hn₁ : s₁.Counting := hsmall₁.sys_counting
    ⟨by rw [hm₁]; decide, by rw [hl₁]; decide⟩
  -- the file that comes back
  obtain ⟨b₀, hret, hcore⟩ := hs.retains o (List.mem_singleton.mpr rfl)
  have hcore : b₀.core = (v.live c).core := by
    rw [hcore (by simp), hb]
  obtain ⟨⟨⟨r, db'⟩, w1⟩, hx, heq⟩ := Option.map_eq_some_iff.mp hpush.inv.2
  cases heq
  have hret₁ : w1.Retains o b₀ :=
    ((hret.atTime 0).always (hv.fd_ne hret.unbound)).final hx
  have h3 := DirSys.Next.call (s := ⟨s, [o], []⟩) hpush
  have hc : (DirSys.called ⟨⟨w1, db'⟩, DirSys.replacedAt ⟨s, [o], []⟩ w1,
      DirSys.replacedAt ⟨s, [o], []⟩ w1⟩ ⟨0, .close⟩ 0).Crash
      ((World.crashed { w1 with now := 0 }).setDir .compact
        (w1.dir .main)) := by
    have h := World.crash_crashed { w1 with now := 0 }
    exact ⟨h.main, h.wal, h.files, h.nextIno, h.lockOwner⟩
  have h4 := DirSys.Next.undo hc (DirSys.mem_replacedAt
    (DirSys.mem_replacedAt (List.mem_singleton.mpr rfl) w1) _)
  have hshow := (hret₁.atTime 0).undo hc
  obtain ⟨s', hopen, hbroker⟩ := hshow.reopens rfl 0 0
  refine ⟨s₀, _, s', _, hcreate, ((hrun.mono fun _ _ _ h => h.1).snoc
    ⟨hn, h3⟩).snoc ⟨hn₁, h4⟩, hopen, hbroker, ?_, ?_⟩
  · intro n m hmem
    have hq := congrFun (congrArg Broker.queue hcore) n
    change (b₀.queue n).map Message.fresh =
      ((v.live c).queue n).map Message.fresh at hq
    have hfresh : m.fresh ∈ (b₀.queue n).map Message.fresh :=
      List.mem_map_of_mem hmem
    rw [hq, hqueue, Function.update_apply] at hfresh
    split at hfresh
    · have hm1 : m.fresh = (roundMessage 1 0).fresh :=
        List.mem_singleton.mp hfresh
      have hid1 : m.id = 1 := congrArg Message.id hm1
      rw [hid1]
      decide
    · cases hfresh
  · intro l
    have hq := congrFun (congrArg Broker.lease hcore) l
    change (b₀.lease l).map Held.fresh =
      ((v.live c).lease l).map Held.fresh at hq
    rw [hlease] at hq
    exact Option.map_eq_none_iff.mp hq

end Rounds

end Qdb
