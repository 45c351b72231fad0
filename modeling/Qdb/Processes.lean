import Qdb.FailedWrites
import Qdb.Fifo
import Qdb.LockDiscipline
import Qdb.SharedOpen

/-!
# Processes that share a database

Any number of processes open, use and close the database, take their steps in
any order and may be killed between any two of them.  Any operation may fail.
An exclusive lock serializes them: a process touches the files only while it
holds the lock, a call that ends without a handle has given it back, and a
successful `qdb_open` is an undisturbed execution on the files that the session
before has left.  No call creates a WAL file, so that the tables of the handle
are those of the log in the main file (`sessions_serialized`).
-/

namespace Qdb

open Lib

/-- Names, files and inode numbers. -/
def World.disk (w : World) : (Path → Option Nat) × (Nat → FileState) × Nat :=
  (w.dir, w.files, w.nextIno)

/-- The same files under another lock and clock. -/
def World.reframe (w v : World) : World :=
  { w with
    lockOwner := v.lockOwner
    nextLockFd := v.nextLockFd
    now := v.now }

/-- Close the lock descriptors in `ls`. -/
def World.unlockAll (w : World) (ls : List Nat) : World :=
  ls.foldl (fun w l => w.unlock (some l)) w

/-- A process: between two calls, inside one, or killed. -/
inductive Client
  | ready (db : Option Db)
  | busy (req : Request) (p : Cmd (Answer × Option Db))
  | dead

/-- The machine with its processes and the lock descriptors they have open. -/
structure Processes where
  world : World
  client : Nat → Client
  lockFds : Nat → List Nat

/-- What a process does next. -/
inductive Turn
  | begins (req : Request)
  | issues (o : Op)
  | returns
  | killed

/-- The open lock descriptors after an operation. -/
def Op.lockFds : (o : Op) → o.Resp → List Nat → List Nat
  | .lockfileOpen, .ok (some l), ls => l :: ls
  | .lockfileClose (some l), _, ls => ls.erase l
  | _, _, ls => ls

namespace Processes

/-- One step of the process `pid`.  A handle is opened by a process that has
none; two handles in one process are two processes here.  The lock descriptors
of a killed process are closed. -/
inductive Step (target : Target) (m : Processes) :
    Nat × Turn → Processes → Prop
  | begins {pid : Nat} {db : Option Db} {req : Request}
      (h : m.client pid = .ready db)
      (hreq : db = none ∨ ∀ t, req ≠ .call (.openDb t)) :
      Step target m (pid, .begins req)
        { m with
          client := Function.update m.client pid
            (.busy req (serve target db req)) }
  | issues {pid : Nat} {req : Request} {o : Op}
      {k : o.Resp → Cmd (Answer × Option Db)} {r : o.Resp} {w : World}
      (h : m.client pid = .busy req (.call o k))
      (hr : Shared o m.world r w) :
      Step target m (pid, .issues o)
        { world := w
          client := Function.update m.client pid (.busy req (k r))
          lockFds := Function.update m.lockFds pid
            (o.lockFds r (m.lockFds pid)) }
  | returns {pid : Nat} {req : Request} {a : Answer} {db : Option Db}
      (h : m.client pid = .busy req (.ret (a, db))) :
      Step target m (pid, .returns)
        { m with client := Function.update m.client pid (.ready db) }
  | killed {pid : Nat} :
      Step target m (pid, .killed)
        { world := m.world.unlockAll (m.lockFds pid)
          client := Function.update m.client pid .dead
          lockFds := Function.update m.lockFds pid [] }

/-- The process holds the lock. -/
def Holds (m : Processes) (pid : Nat) : Prop :=
  ∃ l ∈ m.lockFds pid, m.world.lockOwner = some l

/-- Before the first step: no process has opened anything. -/
structure Idle (m : Processes) : Prop where
  client : ∀ pid, m.client pid = .ready none
  lockFds : ∀ pid, m.lockFds pid = []
  lock : m.world.lockOwner = none

end Processes

/-- The files as the last session has left them, `d` if there was none. -/
def leftBy (d : (Path → Option Nat) × (Nat → FileState) × Nat)
    (xs : List (Transition Processes (Nat × Turn))) :
    (Path → Option Nat) × (Nat → FileState) × Nat :=
  xs.foldl (fun d x =>
    if x.before.world.lockOwner ≠ none ∧ x.after.world.lockOwner = none then
      x.after.world.disk
    else d) d

section Platform

variable {o : Op} {r : o.Resp} {w w' v : World}

/-- An operation on the files neither reads nor changes the lock. -/
theorem posix_reframe (ho : o.Touches) (w v : World) :
    posix o (w.reframe v) =
      ((posix o w).1, (posix o w).2.reframe v) := by
  cases o <;> first | exact ho.elim | skip
  all_goals
    simp only [posix, World.reframe, World.content]
    repeat' split
    all_goals rfl

theorem Op.Breaks.reframe (ho : o.Touches) (h : o.Breaks w r w') (v : World) :
    o.Breaks (w.reframe v) r (w'.reframe v) := by
  cases o with
  | pwrite fd bs off =>
      obtain ⟨hr, rfl | ⟨i, k, hi, hk, hoff, rfl⟩⟩ := h
      · exact ⟨hr, Or.inl rfl⟩
      · exact ⟨hr, Or.inr ⟨i, k, hi, hk, hoff, rfl⟩⟩
  | _ =>
      first
        | exact ho.elim
        | exact h.elim
        | exact ⟨h.1, congrArg (fun u => World.reframe u v) h.2⟩

theorem Shared.reframe (ho : o.Touches) (h : Shared o w r w') (v : World) :
    Shared o (w.reframe v) r (w'.reframe v) := by
  have hf : Failing (fun _ => True) o w r w' →
      Failing (fun _ => True) o (w.reframe v) r (w'.reframe v) := by
    rintro (hp | ⟨-, hb⟩)
    · left
      rw [posix_reframe ho, ← hp]
    · exact Or.inr ⟨trivial, hb.reframe ho v⟩
  cases o <;> first | exact ho.elim | exact hf h

theorem World.unlock_disk (w : World) (fd : Fd) :
    (w.unlock fd).disk = w.disk ∧ (w.unlock fd).nextLockFd = w.nextLockFd := by
  unfold World.unlock
  split <;> exact ⟨rfl, rfl⟩

theorem World.unlockAll_disk (w : World) (ls : List Nat) :
    (w.unlockAll ls).disk = w.disk ∧
      (w.unlockAll ls).nextLockFd = w.nextLockFd := by
  induction ls generalizing w with
  | nil =>
      exact ⟨rfl, rfl⟩
  | cons l ls ih =>
      obtain ⟨h1, h2⟩ := ih (w.unlock (some l))
      obtain ⟨h3, h4⟩ := w.unlock_disk (some l)
      exact ⟨h1.trans h3, h2.trans h4⟩

theorem World.unlock_owner (w : World) {l l' : Nat} :
    (w.unlock (some l)).lockOwner = some l' ↔
      w.lockOwner = some l' ∧ l' ≠ l := by
  unfold World.unlock
  split
  · next howner =>
    simp only [howner, Option.some.injEq, reduceCtorEq, false_iff]
    rintro ⟨rfl, hne⟩
    exact hne rfl
  · next howner =>
    constructor
    · intro hl
      exact ⟨hl, fun he => howner (he ▸ hl)⟩
    · exact fun hl => hl.1

/-- A closed descriptor does not hold the lock. -/
theorem World.unlockAll_owner (w : World) (ls : List Nat) {l : Nat} :
    (w.unlockAll ls).lockOwner = some l ↔
      w.lockOwner = some l ∧ l ∉ ls := by
  induction ls generalizing w with
  | nil =>
      simp [World.unlockAll]
  | cons l' ls ih =>
      have h := ih (w.unlock (some l'))
      rw [World.unlock_owner] at h
      rw [List.mem_cons, not_or]
      exact h.trans and_assoc

theorem World.eq_reframe (h : v.disk = w.disk) : v = w.reframe v := by
  obtain ⟨hdir, hfiles, hino⟩ : v.dir = w.dir ∧ v.files = w.files ∧
      v.nextIno = w.nextIno := by simpa [World.disk] using h
  cases v
  cases w
  simp_all [World.reframe]

theorem posix_lock_kept (ho : o.Touches) (w : World) :
    (posix o w).2.lockOwner = w.lockOwner ∧
      (posix o w).2.nextLockFd = w.nextLockFd := by
  cases o <;> first | exact ho.elim | skip
  all_goals
    simp only [posix]
    repeat' split
    all_goals exact ⟨by first | rfl | trivial, by first | rfl | trivial⟩

/-- What an operation on the files leaves of the lock. -/
theorem Shared.lock_kept (ho : o.Touches) (h : Shared o w r w') :
    w'.lockOwner = w.lockOwner ∧ w'.nextLockFd = w.nextLockFd := by
  have hf : Failing (fun _ => True) o w r w' →
      w'.lockOwner = w.lockOwner ∧ w'.nextLockFd = w.nextLockFd := by
    rintro (hp | ⟨-, hb⟩)
    · have hkept := posix_lock_kept ho w
      rw [← hp] at hkept
      exact hkept
    · cases o with
      | pwrite fd bs off =>
          obtain ⟨-, rfl | ⟨i, k, -, -, -, rfl⟩⟩ := hb
          · exact ⟨rfl, rfl⟩
          · exact ⟨rfl, rfl⟩
      | _ =>
          first
            | exact ho.elim
            | exact hb.elim
            | exact hb.2 ▸ ⟨rfl, rfl⟩
  cases o <;> first | exact ho.elim | exact hf h

end Platform

/-- The kernel agrees that a process is in the phase. -/
def LockPhase.Fits : LockPhase → List Nat → Option Nat → Prop
  | .free, ls, _ => ls = []
  | .opened l, ls, owner => ls = [l] ∧ owner ≠ some l
  | .held l, ls, owner => ls = [l] ∧ owner = some l
  | .dropped l, ls, owner => ls = [l] ∧ owner ≠ some l
  | .done, ls, _ => ls = []

/-- What one operation that keeps to the protocol does to the lock. -/
inductive LockStep (g : LockPhase) (w : World) (ls : List Nat) :
    LockPhase → World → List Nat → Prop
  | still {w' : World} (howner : w'.lockOwner = w.lockOwner)
      (hnext : w'.nextLockFd = w.nextLockFd)
      (hdisk : w'.disk = w.disk ∨ ∃ l, g = .held l) :
      LockStep g w ls g w' ls
  | opens (hg : g = .free) :
      LockStep g w ls (.opened w.nextLockFd)
        { w with nextLockFd := w.nextLockFd + 1 } (w.nextLockFd :: ls)
  | locks {l : Nat} (hg : g = .opened l) (hfree : w.lockOwner = none) :
      LockStep g w ls (.held l) { w with lockOwner := some l } ls
  | unlocks {l : Nat} (hg : g = .held l) :
      LockStep g w ls (.dropped l) { w with lockOwner := none } ls
  | refused {l : Nat} (hg : g = .opened l) :
      LockStep g w ls (.dropped l) w ls
  | closes {l : Nat} (hg : g = .dropped l) :
      LockStep g w ls .done w (ls.erase l)
  | dies : LockStep g w ls .done (w.unlockAll ls) []

section Kernel

variable {o : Op} {r : o.Resp} {w w' : World} {g : LockPhase} {ls : List Nat}

theorem LockPhase.held_of_touches (h : g.Allows o) (ho : o.Touches) :
    ∃ l, g = .held l := by
  cases o <;> first | exact ho.elim | exact h

theorem LockPhase.next_of_touches (ho : o.Touches) (g : LockPhase) :
    LockPhase.Next o g r g := by
  cases o <;> first | exact ho.elim | rfl

theorem lockFds_of_touches (ho : o.Touches) (r : o.Resp) (ls : List Nat) :
    o.lockFds r ls = ls := by
  cases o <;> first | exact ho.elim | rfl

/-- An operation that the protocol allows makes a step of the lock. -/
theorem Shared.lockStep (h : Shared o w r w') (hg : g.Allows o)
    (hfit : g.Fits ls w.lockOwner) :
    ∃ g', LockPhase.Next o g r g' ∧
      LockStep g w ls g' w' (o.lockFds r ls) := by
  by_cases ho : o.Touches
  · obtain ⟨l, rfl⟩ := LockPhase.held_of_touches hg ho
    obtain ⟨h1, h2⟩ := h.lock_kept ho
    refine ⟨_, LockPhase.next_of_touches ho _, ?_⟩
    rw [lockFds_of_touches ho]
    exact .still h1 h2 (Or.inr ⟨l, rfl⟩)
  cases o with
  | lockfileOpen =>
      rcases h with h | ⟨-, rfl, rfl⟩
      · cases h
        exact ⟨_, ⟨_, rfl, rfl⟩, .opens hg⟩
      · exact ⟨g, rfl, .still rfl rfl (Or.inl rfl)⟩
  | lockfileClose fd =>
      obtain ⟨l, rfl, rfl⟩ := hg
      rcases h with h | ⟨-, h⟩
      · have hw : w' = w := by
          cases h
          exact if_neg hfit.2
        subst hw
        exact ⟨.done, rfl, .closes rfl⟩
      · exact h.elim
  | fileLock fd =>
      obtain ⟨l, rfl, rfl⟩ := hg
      rcases h with h | ⟨-, rfl, rfl⟩
      · simp only [posix] at h
        split at h
        · next hfree =>
          cases h
          exact ⟨.held l, ⟨l, rfl, rfl⟩,
            .locks rfl (hfree.resolve_right hfit.2)⟩
        · cases h
          exact ⟨.dropped l, ⟨l, rfl, rfl⟩, .refused rfl⟩
      · exact ⟨.dropped l, ⟨l, rfl, rfl⟩, .refused rfl⟩
  | fileUnlock fd =>
      obtain ⟨l, rfl, rfl⟩ := hg
      rcases h with h | ⟨-, h⟩
      · have hw : w' = { w with lockOwner := none } := by
          cases h
          exact if_pos hfit.2
        subst hw
        exact ⟨_, ⟨l, rfl, rfl⟩, .unlocks rfl⟩
      · exact h.elim
  | timeUs =>
      cases h
      exact ⟨g, rfl, .still rfl rfl (Or.inl rfl)⟩
  | alloc =>
      rcases h with h | ⟨-, -, rfl⟩
      · cases h
        exact ⟨g, rfl, .still rfl rfl (Or.inl rfl)⟩
      · exact ⟨g, rfl, .still rfl rfl (Or.inl rfl)⟩
  | _ =>
      exact absurd trivial ho

theorem LockPhase.Fits.congr (h : g.Fits ls w.lockOwner)
    (howner : ∀ l ∈ ls, w'.lockOwner = some l ↔ w.lockOwner = some l) :
    g.Fits ls w'.lockOwner := by
  cases g with
  | free =>
      exact h
  | opened l =>
      obtain ⟨rfl, hl⟩ := h
      exact ⟨rfl, fun h' => hl ((howner l (by simp)).mp h')⟩
  | held l =>
      obtain ⟨rfl, hl⟩ := h
      exact ⟨rfl, (howner l (by simp)).mpr hl⟩
  | dropped l =>
      obtain ⟨rfl, hl⟩ := h
      exact ⟨rfl, fun h' => hl ((howner l (by simp)).mp h')⟩
  | done =>
      exact h

end Kernel

namespace LockStep

variable {g g' : LockPhase} {w w' : World} {ls ls' : List Nat}

theorem fits (h : LockStep g w ls g' w' ls') (hfit : g.Fits ls w.lockOwner)
    (hbelow : ∀ l, w.lockOwner = some l → l < w.nextLockFd) :
    g'.Fits ls' w'.lockOwner := by
  cases h with
  | still howner hnext hdisk =>
      rw [howner]
      exact hfit
  | opens hg =>
      subst hg
      have hls : ls = [] := hfit
      subst hls
      refine ⟨rfl, fun h => ?_⟩
      exact Nat.lt_irrefl _ (hbelow _ h)
  | locks hg hfree =>
      subst hg
      exact ⟨hfit.1, rfl⟩
  | unlocks hg =>
      subst hg
      exact ⟨hfit.1, nofun⟩
  | refused hg =>
      subst hg
      exact hfit
  | @closes l hg =>
      subst hg
      obtain ⟨rfl, -⟩ := hfit
      simp [LockPhase.Fits]
  | dies =>
      rfl

/-- A descriptor is new or was there before. -/
theorem lockFds (h : LockStep g w ls g' w' ls') :
    w.nextLockFd ≤ w'.nextLockFd ∧
      ∀ l ∈ ls', l ∈ ls ∨ l = w.nextLockFd ∧ l < w'.nextLockFd := by
  cases h with
  | still howner hnext hdisk =>
      exact ⟨Nat.le_of_eq hnext.symm, fun l hl => Or.inl hl⟩
  | opens hg =>
      refine ⟨Nat.le_succ _, fun l hl => ?_⟩
      rcases List.mem_cons.mp hl with rfl | hl
      · exact Or.inr ⟨rfl, Nat.lt_succ_self _⟩
      · exact Or.inl hl
  | locks hg hfree =>
      exact ⟨Nat.le_refl _, fun l hl => Or.inl hl⟩
  | unlocks hg =>
      exact ⟨Nat.le_refl _, fun l hl => Or.inl hl⟩
  | refused hg =>
      exact ⟨Nat.le_refl _, fun l hl => Or.inl hl⟩
  | closes hg =>
      exact ⟨Nat.le_refl _, fun l hl => Or.inl (List.mem_of_mem_erase hl)⟩
  | dies =>
      exact ⟨Nat.le_of_eq (w.unlockAll_disk ls).2.symm, nofun⟩

/-- The lock is passed on by its holder only. -/
theorem owner (h : LockStep g w ls g' w' ls') (hfit : g.Fits ls w.lockOwner)
    {l : Nat} (hl : l ∉ ls) :
    w'.lockOwner = some l ↔ w.lockOwner = some l := by
  cases h with
  | still howner hnext hdisk =>
      rw [howner]
  | opens hg =>
      exact Iff.rfl
  | locks hg hfree =>
      subst hg
      rw [hfit.1, List.mem_singleton] at hl
      rw [hfree]
      simp [Ne.symm hl]
  | unlocks hg =>
      subst hg
      rw [hfit.2]
      rw [hfit.1, List.mem_singleton] at hl
      simp [Ne.symm hl]
  | refused hg =>
      exact Iff.rfl
  | closes hg =>
      exact Iff.rfl
  | dies =>
      rw [World.unlockAll_owner]
      exact and_iff_left hl

theorem owned (h : LockStep g w ls g' w' ls') (hfit : g.Fits ls w.lockOwner)
    {l : Nat} (hl : w'.lockOwner = some l) (hin : l ∈ ls) : l ∈ ls' := by
  cases h with
  | still howner hnext hdisk =>
      exact hin
  | opens hg =>
      exact List.mem_cons_of_mem _ hin
  | locks hg hfree =>
      exact hin
  | unlocks hg =>
      exact hin
  | refused hg =>
      exact hin
  | closes hg =>
      subst hg
      rw [hfit.1, List.mem_singleton] at hin
      subst hin
      exact absurd hl hfit.2
  | dies =>
      exact absurd hin (World.unlockAll_owner _ _ |>.mp hl).2

/-- Without the lock the files stay as they are. -/
theorem disk (h : LockStep g w ls g' w' ls') (hg : ∀ l, g ≠ .held l) :
    w'.disk = w.disk := by
  cases h with
  | still howner hnext hdisk =>
      rcases hdisk with hdisk | ⟨l, hl⟩
      · exact hdisk
      · exact absurd hl (hg l)
  | dies =>
      exact (w.unlockAll_disk ls).1
  | _ =>
      rfl

end LockStep

/-- How far an open that began with `start` has come.  Before it holds the lock
it has not looked at a file; then it is an undisturbed execution on `d`. -/
def Opening (start : Cmd (Answer × Option Db))
    (d : (Path → Option Nat) × (Nat → FileState) × Nat) (w : World)
    (p : Cmd (Answer × Option Db)) : LockPhase → Prop
  | .free => ∀ v, Prog.Leads Shared start v p v
  | .opened l => ∀ v, v.nextLockFd = l →
      Prog.Leads Shared start v p { v with nextLockFd := l + 1 }
  | .held l => ∃ v v', v.disk = d ∧ v.lockOwner = none ∧
      Prog.Leads Shared start v p v' ∧ v'.disk = w.disk ∧
      v'.lockOwner = some l
  | _ => True

section Open

variable {start : Cmd (Answer × Option Db)} {o : Op}
  {k : o.Resp → Cmd (Answer × Option Db)} {r : o.Resp} {w w' : World}
  {g g' : LockPhase} {ls : List Nat}
  {d : (Path → Option Nat) × (Nat → FileState) × Nat}

theorem shared_alloc (b : Bool) (w : World) : Shared .alloc w b w := by
  cases b with
  | true =>
      exact Or.inl rfl
  | false =>
      exact Or.inr ⟨trivial, rfl, rfl⟩

/-- An operation without effect that is answered alike everywhere. -/
theorem Opening.idle (h : Opening start d w (.call o k) g)
    (hr : ∀ v, Shared o v r v) : Opening start d w (k r) g := by
  cases g with
  | free =>
      exact fun v => (h v).step (hr v)
  | opened l =>
      exact fun v hv => (h v hv).step (hr _)
  | held l =>
      obtain ⟨v, v', hv, hfree, hlead, hdisk, howner⟩ := h
      exact ⟨v, v', hv, hfree, hlead.step (hr v'), hdisk, howner⟩
  | dropped l =>
      trivial
  | done =>
      trivial

/-- One operation of an open. -/
theorem Opening.step (h : Opening start d w (.call o k) g)
    (hg : g.Allows o) (hfit : g.Fits ls w.lockOwner)
    (hr : Shared o w r w') (hnext : LockPhase.Next o g r g')
    (hidle : w.lockOwner = none → w.disk = d) :
    Opening start d w' (k r) g' := by
  by_cases ho : o.Touches
  · obtain ⟨l, rfl⟩ := LockPhase.held_of_touches hg ho
    have hg' : g' = .held l := by
      cases o <;> first | exact ho.elim | exact hnext
    subst hg'
    obtain ⟨v, v', hv, hfree, hlead, hdisk, howner⟩ := h
    have hstep := hr.reframe ho v'
    rw [← World.eq_reframe hdisk] at hstep
    exact ⟨v, w'.reframe v', hv, hfree, hlead.step hstep, rfl, howner⟩
  cases o with
  | lockfileOpen =>
      cases (show g = .free from hg)
      rcases hr with hr | ⟨-, rfl, rfl⟩
      · cases hr
        obtain ⟨l, hl, rfl⟩ := hnext
        cases hl
        intro v hv
        have hstep : Shared .lockfileOpen v (.ok (some w.nextLockFd))
            { v with nextLockFd := w.nextLockFd + 1 } := by
          left
          rw [← hv]
          rfl
        exact (h v).step hstep
      · cases (show g' = .free from hnext)
        exact fun v => (h v).step (Or.inr ⟨trivial, rfl, rfl⟩)
  | lockfileClose fd =>
      cases (show g' = .done from hnext)
      trivial
  | fileLock fd =>
      obtain ⟨l, rfl, rfl⟩ := hg
      obtain ⟨l', hl', rfl⟩ := hnext
      cases hl'
      by_cases hrc : r = .ok
      · subst hrc
        rw [if_pos rfl]
        rcases hr with hr | ⟨-, hbad, -⟩
        · simp only [posix] at hr
          split at hr
          · next hfree =>
            have hnone := hfree.resolve_right hfit.2
            cases hr
            refine ⟨{ w with lockOwner := none, nextLockFd := l },
              { w with lockOwner := some l, nextLockFd := l + 1 },
              hidle hnone, rfl, (h _ rfl).step (Or.inl ?_), rfl, rfl⟩
            simp [posix]
          · cases hr
        · cases hbad
      · rw [if_neg hrc]
        trivial
  | fileUnlock fd =>
      obtain ⟨l, -, rfl⟩ := hnext
      trivial
  | timeUs =>
      cases hr
      cases (show g' = g from hnext)
      exact h.idle fun _ => rfl
  | alloc =>
      cases (show g' = g from hnext)
      have hw : w' = w := by
        rcases hr with hr | ⟨-, -, rfl⟩
        · cases hr
          rfl
        · rfl
      subst hw
      exact h.idle fun v => shared_alloc r v
  | _ =>
      exact absurd trivial ho

/-- The step of another process. -/
theorem Opening.other {p : Cmd (Answer × Option Db)}
    {d' : (Path → Option Nat) × (Nat → FileState) × Nat}
    (h : Opening start d w p g)
    (hheld : ∀ l, g = .held l → w'.disk = w.disk ∧ d' = d) :
    Opening start d' w' p g := by
  cases g with
  | free =>
      exact h
  | opened l =>
      exact h
  | held l =>
      obtain ⟨hw, rfl⟩ := hheld l rfl
      obtain ⟨v, v', hv, hfree, hlead, hdisk, howner⟩ := h
      exact ⟨v, v', hv, hfree, hlead, hdisk.trans hw.symm, howner⟩
  | dropped l =>
      trivial
  | done =>
      trivial

end Open

/-- What a process may do from here, in its phase. -/
def Client.Ok (target : Target)
    (d : (Path → Option Nat) × (Nat → FileState) × Nat) (w : World) :
    Client → LockPhase → Prop
  | .ready db, g => LockLeft db g
  | .busy req p, g => Obeys (fun x g => LockLeft x.2 g) p g ∧
      ∀ t, req = .call (.openDb t) → Opening (serve target none req) d w p g
  | .dead, g => g = .done

/-- The invariant of the machine; `d` is what the last session has left. -/
structure Processes.Inv (target : Target)
    (d : (Path → Option Nat) × (Nat → FileState) × Nat) (m : Processes) :
    Prop where
  phase : ∀ pid, ∃ g, g.Fits (m.lockFds pid) m.world.lockOwner ∧
    (m.client pid).Ok target d m.world g
  apart : ∀ p q l, l ∈ m.lockFds p → l ∈ m.lockFds q → p = q
  below : ∀ p l, l ∈ m.lockFds p → l < m.world.nextLockFd
  owned : ∀ l, m.world.lockOwner = some l → ∃ p, l ∈ m.lockFds p
  idle : m.world.lockOwner = none → m.world.disk = d

/-- What the last session has left, after one more step. -/
def leftAfter (d : (Path → Option Nat) × (Nat → FileState) × Nat)
    (w w' : World) : (Path → Option Nat) × (Nat → FileState) × Nat :=
  if w.lockOwner ≠ none ∧ w'.lockOwner = none then w'.disk else d

theorem Client.Ok.other {target : Target} {c : Client} {g : LockPhase}
    {d d' : (Path → Option Nat) × (Nat → FileState) × Nat} {w w' : World}
    (h : c.Ok target d w g)
    (hheld : ∀ l, g = .held l → w'.disk = w.disk ∧ d' = d) :
    c.Ok target d' w' g := by
  cases c with
  | ready db =>
      exact h
  | busy req p =>
      exact ⟨h.1, fun t ht => (h.2 t ht).other hheld⟩
  | dead =>
      exact h

namespace Processes.Inv

variable {target : Target} {m : Processes} {pid : Nat} {g g' : LockPhase}
  {d : (Path → Option Nat) × (Nat → FileState) × Nat}

theorem owner_below (h : m.Inv target d) {l : Nat}
    (hl : m.world.lockOwner = some l) : l < m.world.nextLockFd := by
  obtain ⟨p, hp⟩ := h.owned l hl
  exact h.below p l hp

/-- A process whose phase says so holds the lock. -/
theorem holds (hfit : g.Fits (m.lockFds pid) m.world.lockOwner) :
    m.Holds pid ↔ ∃ l, g = .held l := by
  constructor
  · rintro ⟨l, hl, howner⟩
    cases g with
    | free =>
        rw [hfit] at hl
        cases hl
    | opened l' =>
        rw [hfit.1, List.mem_singleton] at hl
        exact absurd (hl ▸ howner) hfit.2
    | held l' =>
        exact ⟨l', rfl⟩
    | dropped l' =>
        rw [hfit.1, List.mem_singleton] at hl
        exact absurd (hl ▸ howner) hfit.2
    | done =>
        rw [hfit] at hl
        cases hl
  · rintro ⟨l, rfl⟩
    exact ⟨l, by rw [hfit.1]; simp, hfit.2⟩

/-- At most one process holds the lock. -/
theorem exclusive (h : m.Inv target d) {p q : Nat} (hp : m.Holds p)
    (hq : m.Holds q) : p = q := by
  obtain ⟨l, hl, hpl⟩ := hp
  obtain ⟨l', hl', hql⟩ := hq
  rw [hpl] at hql
  cases hql
  exact h.apart p q l hl hl'

/-- A step of the lock by one process. -/
theorem move (h : m.Inv target d) {c : Client} {w : World} {ls : List Nat}
    (hfit : g.Fits (m.lockFds pid) m.world.lockOwner)
    (hstep : LockStep g m.world (m.lockFds pid) g' w ls)
    (hc : c.Ok target (leftAfter d m.world w) w g') :
    Inv target (leftAfter d m.world w)
      { world := w
        client := Function.update m.client pid c
        lockFds := Function.update m.lockFds pid ls } where
  phase := by
    intro q
    by_cases hq : q = pid
    · subst hq
      refine ⟨g', ?_, ?_⟩
      · simp only [Function.update_self]
        exact hstep.fits hfit fun l hl => h.owner_below hl
      · simp only [Function.update_self]
        exact hc
    · obtain ⟨gq, hfq, hok⟩ := h.phase q
      refine ⟨gq, ?_, ?_⟩
      · simp only [Function.update_of_ne hq]
        apply hfq.congr
        intro l hl
        exact hstep.owner hfit fun hl' => hq (h.apart q pid l hl hl')
      · simp only [Function.update_of_ne hq]
        apply hok.other
        rintro l rfl
        -- another process holds the lock, so this one does not
        have hg : ∀ l', g ≠ .held l' := by
          rintro l' rfl
          exact hq (h.exclusive ((holds hfq).mpr ⟨l, rfl⟩)
            ((holds hfit).mpr ⟨l', rfl⟩))
        have hout : l ∉ m.lockFds pid := by
          intro hl
          exact hq (h.apart q pid l (by rw [hfq.1]; simp) hl)
        refine ⟨hstep.disk hg, ?_⟩
        have howner := (hstep.owner hfit hout).mpr hfq.2
        unfold leftAfter
        rw [if_neg (by simp [howner])]
  apart := by
    intro p q l hp hq
    have hnew : ∀ q', q' ≠ pid → l ∈ ls → l ∈ m.lockFds q' → q' = pid := by
      intro q' hq' hl hlq
      rcases hstep.lockFds.2 l hl with hin | ⟨rfl, -⟩
      · exact h.apart q' pid l hlq hin
      · exact absurd (h.below q' _ hlq) (Nat.lt_irrefl _)
    by_cases hp' : p = pid <;> by_cases hq' : q = pid
    · rw [hp', hq']
    · subst hp'
      simp only [Function.update_self, Function.update_of_ne hq'] at hp hq
      exact (hnew q hq' hp hq).symm
    · subst hq'
      simp only [Function.update_self, Function.update_of_ne hp'] at hp hq
      exact hnew p hp' hq hp
    · simp only [Function.update_of_ne hp', Function.update_of_ne hq'] at hp hq
      exact h.apart p q l hp hq
  below := by
    intro p l hl
    obtain ⟨hmono, hin⟩ := hstep.lockFds
    by_cases hp : p = pid
    · subst hp
      simp only [Function.update_self] at hl
      rcases hin l hl with hl | ⟨-, hl⟩
      · exact Nat.lt_of_lt_of_le (h.below p l hl) hmono
      · exact hl
    · simp only [Function.update_of_ne hp] at hl
      exact Nat.lt_of_lt_of_le (h.below p l hl) hmono
  owned := by
    intro l hl
    by_cases hin : l ∈ m.lockFds pid
    · exact ⟨pid, by simpa using hstep.owned hfit hl hin⟩
    · rw [hstep.owner hfit hin] at hl
      obtain ⟨p, hp⟩ := h.owned l hl
      have hne : p ≠ pid := by
        rintro rfl
        exact hin hp
      exact ⟨p, by simpa [Function.update_of_ne hne] using hp⟩
  idle := by
    intro hnone
    by_cases hold : m.world.lockOwner = none
    · have hg : ∀ l, g ≠ .held l := by
        rintro l rfl
        rw [hfit.2] at hold
        cases hold
      unfold leftAfter
      rw [if_neg (by simp [hold])]
      exact (hstep.disk hg).trans (h.idle hold)
    · unfold leftAfter
      rw [if_pos ⟨hold, hnone⟩]

/-- Before the first step. -/
theorem start (h : m.Idle) : m.Inv target m.world.disk where
  phase pid := by
    rw [h.client, h.lockFds]
    exact ⟨.free, rfl, Or.inl rfl⟩
  apart p q l hl := by
    rw [h.lockFds] at hl
    cases hl
  below p l hl := by
    rw [h.lockFds] at hl
    cases hl
  owned l hl := by
    rw [h.lock] at hl
    cases hl
  idle _ := rfl

/-- A step that is not an operation leaves the lock to the process. -/
theorem still (h : m.Inv target d) {c : Client}
    (hfit : g.Fits (m.lockFds pid) m.world.lockOwner)
    (hc : c.Ok target d m.world g) :
    Inv target (leftAfter d m.world m.world)
      { m with client := Function.update m.client pid c } := by
  have hleft : leftAfter d m.world m.world = d := by
    unfold leftAfter
    split
    · next hbad =>
      exact absurd hbad.2 hbad.1
    · rfl
  have hmove := h.move hfit (.still rfl rfl (Or.inl rfl))
    (by rw [hleft]; exact hc)
  rwa [Function.update_eq_self] at hmove

/-- Every step of every process keeps the invariant. -/
theorem step (h : m.Inv target d) {x : Nat × Turn} {m' : Processes}
    (hs : m.Step target x m') :
    m'.Inv target (leftAfter d m.world m'.world) := by
  cases hs with
  | @begins pid db req hclient hreq =>
      obtain ⟨g, hfit, hok⟩ := h.phase pid
      rw [hclient] at hok
      cases db with
      | none =>
          have hfree : LockPhase.free.Fits (m.lockFds pid)
              m.world.lockOwner := by
            rcases hok with rfl | rfl
            · exact hfit
            · exact hfit
          exact h.still hfree ⟨obeys_serve_none target req,
            fun t ht v => .refl⟩
      | some db =>
          obtain ⟨l, hl, rfl⟩ := hok
          have hreq := hreq.resolve_left nofun
          exact h.still hfit ⟨obeys_serve hl target hreq,
            fun t ht => absurd ht (hreq t)⟩
  | @issues pid req o k r w hclient hr =>
      obtain ⟨g, hfit, hok⟩ := h.phase pid
      rw [hclient] at hok
      obtain ⟨hobeys, hopen⟩ := hok
      obtain ⟨g', hnext, hstep⟩ := hr.lockStep hobeys.1 hfit
      have howner := hstep.fits hfit fun l hl => h.owner_below hl
      refine h.move hfit hstep ⟨hobeys.2 r g' hnext, fun t ht => ?_⟩
      apply ((hopen t ht).step hobeys.1 hfit hr hnext h.idle).other
      rintro l rfl
      refine ⟨rfl, ?_⟩
      unfold leftAfter
      rw [if_neg (by simp [howner.2])]
  | @returns pid req a db hclient =>
      obtain ⟨g, hfit, hok⟩ := h.phase pid
      rw [hclient] at hok
      exact h.still hfit hok.1
  | @killed pid =>
      obtain ⟨g, hfit, -⟩ := h.phase pid
      exact h.move hfit .dies rfl

end Processes.Inv

theorem leftBy_append (d : (Path → Option Nat) × (Nat → FileState) × Nat)
    (xs : List (Transition Processes (Nat × Turn)))
    (x : Transition Processes (Nat × Turn)) :
    leftBy d (xs ++ [x]) =
      leftAfter (leftBy d xs) x.before.world x.after.world := by
  unfold leftBy
  rw [List.foldl_append]
  rfl

section Sessions

variable {target : Target} {m m' : Processes} {w w' : World}
  {xs : List (Transition Processes (Nat × Turn))}

theorem Processes.inv_run (h : m.Idle)
    (hrun : Run (Traced (Processes.Step target)) m xs m') :
    m'.Inv target (leftBy m.world.disk xs) := by
  refine hrun.invariant (P := fun xs m' =>
    m'.Inv target (leftBy m.world.disk xs)) (.start h) ?_
  rintro xs m1 x m2 - hinv ⟨rfl, rfl, hs⟩
  rw [leftBy_append]
  exact hinv.step hs

/-- The operation of a step is one that the lock covers. -/
def Turn.Touches : Turn → Prop
  | .issues o => o.Touches
  | _ => False

/-- Every step on a file is one of the process that holds the lock. -/
theorem Processes.Inv.covered {d : (Path → Option Nat) × (Nat → FileState) × Nat}
    (h : m.Inv target d) {pid : Nat} {a : Turn}
    (hs : m.Step target (pid, a) m') :
    (a.Touches → m.Holds pid) ∧
      (m'.world.disk ≠ m.world.disk → m.Holds pid) := by
  obtain ⟨g, hfit, hok⟩ := h.phase pid
  generalize hx : (pid, a) = x at hs
  cases hs with
  | @issues pid req o k r w hclient hr =>
      cases hx
      rw [hclient] at hok
      obtain ⟨g', hnext, hstep⟩ := hr.lockStep hok.1.1 hfit
      constructor
      · intro ho
        exact (Inv.holds hfit).mpr (LockPhase.held_of_touches hok.1.1 ho)
      · intro hne
        by_contra hno
        refine hne (hstep.disk fun l hl => hno ?_)
        exact (Inv.holds hfit).mpr ⟨l, hl⟩
  | begins hclient hreq =>
      cases hx
      exact ⟨False.elim, fun hne => absurd rfl hne⟩
  | returns hclient =>
      cases hx
      exact ⟨False.elim, fun hne => absurd rfl hne⟩
  | killed =>
      cases hx
      exact ⟨False.elim, fun hne => absurd (World.unlockAll_disk _ _).1 hne⟩

/-- Sessions do not overlap; `d` is what the last one has left. -/
structure Processes.Serialized (target : Target)
    (d : (Path → Option Nat) × (Nat → FileState) × Nat) (m : Processes) :
    Prop where
  /-- A step on a file, or one that changes a file or a name, is taken by a
  process that holds the lock. -/
  covered : ∀ pid a m', m.Step target (pid, a) m' →
    (a.Touches → m.Holds pid) ∧ (m'.world.disk ≠ m.world.disk → m.Holds pid)
  exclusive : ∀ p q, m.Holds p → m.Holds q → p = q
  held : ∀ l, m.world.lockOwner = some l → ∃ pid, m.Holds pid
  /-- A failed open, a close and the death of a process leave the lock free. -/
  released : ∀ pid, m.client pid = .ready none ∨ m.client pid = .dead →
    ¬ m.Holds pid
  between : m.world.lockOwner = none → m.world.disk = d
  /-- A successful open holds the lock; it is an undisturbed execution on what
  the session before has left. -/
  opened : ∀ pid t a db, m.client pid = .busy (.call (.openDb t))
      (.ret (a, some db)) → m.Holds pid ∧
    ∃ w w', w.disk = d ∧ w.lockOwner = none ∧ w'.disk = m.world.disk ∧
      Prog.Exec Shared (qdbOpenErr t) w (.ok, some db) w'

theorem Processes.Inv.serialized
    {d : (Path → Option Nat) × (Nat → FileState) × Nat}
    (h : m.Inv target d) : m.Serialized target d where
  covered _ _ _ hs := h.covered hs
  exclusive _ _ hp hq := h.exclusive hp hq
  held l hl := by
    obtain ⟨pid, hpid⟩ := h.owned l hl
    exact ⟨pid, l, hpid, hl⟩
  released := by
    intro pid hclient
    obtain ⟨g, hfit, hok⟩ := h.phase pid
    rw [Inv.holds hfit]
    rintro ⟨l, rfl⟩
    rcases hclient with hclient | hclient
    · rw [hclient] at hok
      rcases hok with hok | hok <;> cases hok
    · rw [hclient] at hok
      cases hok
  between := h.idle
  opened := by
    intro pid t a db hclient
    obtain ⟨g, hfit, hok⟩ := h.phase pid
    rw [hclient] at hok
    obtain ⟨⟨l, hl, rfl⟩, hopen⟩ := hok
    refine ⟨(Inv.holds hfit).mpr ⟨l, rfl⟩, ?_⟩
    obtain ⟨w, w', hw, hfree, hlead, hdisk, -⟩ := hopen t rfl
    refine ⟨w, w', hw, hfree, hdisk, ?_⟩
    obtain ⟨x, w1, hcall, hx, rfl⟩ := Prog.exec_bind.mp hlead.exec
    obtain ⟨⟨rc, db'⟩, w2, hrun, hy, rfl⟩ := Prog.exec_bind.mp hcall
    have hx : x.2 = some db := (congrArg Prod.snd hx).symm
    have hy : x.2 = db'.or none := congrArg Prod.snd hy
    rw [hx, Option.or_none] at hy
    subst hy
    have hrc : rc = .ok := (post_openErr_code t).of_exec hrun rfl
    subst hrc
    exact hrun

theorem World.Tidy.of_disk (h : w.Tidy) (hdisk : w'.disk = w.disk) :
    w'.Tidy := by
  obtain ⟨hdir, hfiles, hino⟩ : w'.dir = w.dir ∧ w'.files = w.files ∧
      w'.nextIno = w.nextIno := by simpa [World.disk] using hdisk
  exact h.congr hdir hfiles hino

/-- The file system is in order, and no process is about to change that. -/
structure Processes.Tidy (d : (Path → Option Nat) × (Nat → FileState) × Nat)
    (m : Processes) : Prop where
  world : m.world.Tidy
  client : ∀ pid req p, m.client pid = .busy req p →
    Twin namedAccess (fun _ _ => True) p p
  left : ∀ w : World, w.disk = d → w.Tidy

/-- What the processes are about to do stays in order. -/
theorem Processes.Tidy.update
    {d : (Path → Option Nat) × (Nat → FileState) × Nat} (h : m.Tidy d)
    {pid : Nat} {c : Client} (hc : ∀ req p, c = .busy req p →
      Twin namedAccess (fun _ _ => True) p p) {q : Nat} {req : Request}
    {p : Cmd (Answer × Option Db)}
    (hq : Function.update m.client pid c q = .busy req p) :
    Twin namedAccess (fun _ _ => True) p p := by
  by_cases hpid : q = pid
  · subst hpid
    rw [Function.update_self] at hq
    exact hc req p hq
  · rw [Function.update_of_ne hpid] at hq
    exact h.client q req p hq

theorem Processes.Tidy.step
    {d : (Path → Option Nat) × (Nat → FileState) × Nat} (h : m.Tidy d)
    {x : Nat × Turn} (hs : m.Step target x m') :
    m'.Tidy (leftAfter d m.world m'.world) := by
  have hall : m'.world.Tidy ∧ ∀ pid req p, m'.client pid = .busy req p →
      Twin namedAccess (fun _ _ => True) p p := by
    cases hs with
    | @begins pid db req hclient hreq =>
        refine ⟨h.world, fun q req' p hq => h.update ?_ hq⟩
        rintro _ _ ⟨⟩
        exact twin_serve_self target db req
    | @issues pid req o k r w hclient hr =>
        obtain ⟨ho, hk⟩ := h.client pid req _ hclient
        refine ⟨hr.tidy ho h.world, fun q req' p hq => h.update ?_ hq⟩
        rintro _ _ ⟨⟩
        exact hk r r (Op.agree_self (fun _ => ⟨rfl, rfl⟩) o r)
    | returns hclient =>
        refine ⟨h.world, fun q req' p hq => h.update ?_ hq⟩
        rintro _ _ ⟨⟩
    | killed =>
        refine ⟨h.world.of_disk (World.unlockAll_disk _ _).1,
          fun q req' p hq => h.update ?_ hq⟩
        rintro _ _ ⟨⟩
  refine ⟨hall.1, hall.2, ?_⟩
  unfold leftAfter
  split
  · exact fun w hw => hall.1.of_disk hw
  · exact h.left

theorem Processes.tidy_run (h : m.Idle) (htidy : m.world.Tidy)
    (hrun : Run (Traced (Processes.Step target)) m xs m') :
    m'.Tidy (leftBy m.world.disk xs) := by
  refine hrun.invariant (P := fun xs m' =>
    m'.Tidy (leftBy m.world.disk xs)) ?_ ?_
  · refine ⟨htidy, ?_, fun w hw => htidy.of_disk hw⟩
    intro pid req p hp
    rw [h.client] at hp
    cases hp
  · rintro xs m1 x m2 - hinv ⟨rfl, rfl, hs⟩
    rw [leftBy_append]
    exact hinv.step hs

/-- Every open that has succeeded has the tables of the log in `d`. -/
def Processes.Restored (d : (Path → Option Nat) × (Nat → FileState) × Nat)
    (m : Processes) : Prop :=
  ∀ pid t a db, m.client pid = .busy (.call (.openDb t)) (.ret (a, some db)) →
    ∀ w : World, w.disk = d → w.Restores db

theorem Processes.Serialized.restored
    {d : (Path → Option Nat) × (Nat → FileState) × Nat}
    (h : m.Serialized target d) (htidy : m.Tidy d) : m.Restored d := by
  intro pid t a db hclient v hv
  obtain ⟨-, w, w', hw, hfree, -, hexec⟩ := h.opened pid t a db hclient
  have hres := (htidy.left w hw).restores hfree hexec
  obtain ⟨hdir, hfiles, -⟩ : v.dir = w.dir ∧ v.files = w.files ∧
      v.nextIno = w.nextIno := by simpa [World.disk] using hv.trans hw.symm
  unfold World.Restores World.content at hres ⊢
  rw [hdir, hfiles]
  exact hres

/-- Whatever the processes do, in whatever order, and wherever they are killed,
their sessions do not overlap.  Where no WAL file was at the start, a successful
open has the tables that the session before has left in the log. -/
theorem sessions_serialized (h : m.Idle)
    (hrun : Run (Traced (Processes.Step target)) m xs m') :
    m'.Serialized target (leftBy m.world.disk xs) ∧
      (m.world.Tidy → m'.Restored (leftBy m.world.disk xs)) := by
  have hser := (Processes.inv_run h hrun).serialized
  exact ⟨hser, fun htidy => hser.restored (Processes.tidy_run h htidy hrun)⟩

end Sessions

section Handing

variable {target : Target} {m : Processes} {pid : Nat} {req : Request}

theorem shared_posix (o : Op) (w : World) :
    Shared o w (posix o w).1 (posix o w).2 := by
  cases o with
  | timeUs =>
      exact rfl
  | _ =>
      exact Or.inl rfl

/-- A step is a run. -/
theorem Processes.Step.run {m' : Processes} {x : Nat × Turn}
    (h : m.Step target x m') :
    Run (Traced (Processes.Step target)) m [⟨m, x, m'⟩] m' :=
  .single ⟨rfl, rfl, h⟩

theorem posix_now (o : Op) (w : World) : (posix o w).2.now = w.now := by
  cases o <;> simp only [posix, World.unlock] <;> repeat' split
  all_goals rfl

/-- A process that nothing disturbs comes to the end of its request. -/
theorem Processes.exists_issued (target : Target) {p : Cmd (Answer × Option Db)}
    (h : m.client pid = .busy req p) {y : Answer × Option Db} {w : World}
    (hrun : Prog.run posix p m.world = some (y, w)) :
    ∃ xs m', Run (Traced (Processes.Step target)) m xs m' ∧ m'.world = w ∧
      w.now = m.world.now ∧ m'.client pid = .busy req (.ret y) ∧
      ∀ q, q ≠ pid → m'.client q = m.client q := by
  induction p generalizing m with
  | ret a =>
      cases hrun
      exact ⟨[], m, .nil, rfl, rfl, h, fun _ _ => rfl⟩
  | call o k ih =>
      obtain ⟨m1, hstep, hw1, hc1, ho1⟩ : ∃ m1, m.Step target (pid, .issues o) m1 ∧
          m1.world = (posix o m.world).2 ∧
          m1.client pid = .busy req (k (posix o m.world).1) ∧
          ∀ q, q ≠ pid → m1.client q = m.client q :=
        ⟨_, .issues h (shared_posix o m.world), rfl, Function.update_self ..,
          fun q hq => Function.update_of_ne hq _ _⟩
      rw [← posix_now o m.world, ← hw1]
      obtain ⟨xs, m', hrest, hw, hnow, hclient, hother⟩ :=
        ih _ hc1 (by rw [hw1]; exact hrun)
      exact ⟨_, m', hstep.run.trans hrest, hw, hnow,
        hclient, fun q hq => (hother q hq).trans (ho1 q hq)⟩
  | stuck =>
      cases hrun

/-- A call of a process that nothing disturbs. -/
theorem Processes.exists_called {s s' : Sys} {call : Call} {res : Result}
    (h : m.client pid = .ready s.db) (hw : m.world = s.world)
    (hnow : s.world.now = 0) (hopen : s.db = none ∨ ∀ t, call ≠ .openDb t)
    (hs : s.step ⟨0, call⟩ = some (res, s')) :
    ∃ xs m', Run (Traced (Processes.Step .posix)) m xs m' ∧
      m'.world = s'.world ∧ s'.world.now = 0 ∧
      m'.client pid = .busy (.call call) (.ret (.result res, s'.db)) ∧
      ∀ q, q ≠ pid → m'.client q = m.client q := by
  have hserve := s.serve_step ⟨0, call⟩
  rw [hs] at hserve
  obtain ⟨⟨a, db⟩, w, hrun, ha, rfl⟩ := Sys.serve_inv hserve
  have ha : .result res = a := ha
  subst ha
  obtain ⟨m1, hstep, hw1, hc1, ho1⟩ : ∃ m1,
      m.Step .posix (pid, .begins (.call call)) m1 ∧ m1.world = m.world ∧
      m1.client pid = .busy (.call call) (serve .posix s.db (.call call)) ∧
      ∀ q, q ≠ pid → m1.client q = m.client q :=
    ⟨_, .begins h (hopen.imp_right fun hne t heq =>
        hne t (Request.call.inj heq)), rfl, Function.update_self ..,
      fun q hq => Function.update_of_ne hq _ _⟩
  have hworld : { s.world with now := 0 } = m1.world := by
    rw [hw1, hw, ← hnow]
  rw [hworld] at hrun
  obtain ⟨xs, m', hrest, hw', hn', hclient, hother⟩ :=
    exists_issued .posix hc1 hrun
  refine ⟨_, m', hstep.run.trans hrest, hw', ?_, hclient,
    fun q hq => (hother q hq).trans (ho1 q hq)⟩
  rw [hn', hw1, hw, hnow]

/-- The same call, up to its return. -/
theorem Processes.exists_returned {s s' : Sys} {call : Call} {res : Result}
    (h : m.client pid = .ready s.db) (hw : m.world = s.world)
    (hnow : s.world.now = 0) (hopen : s.db = none ∨ ∀ t, call ≠ .openDb t)
    (hs : s.step ⟨0, call⟩ = some (res, s')) :
    ∃ xs m', Run (Traced (Processes.Step .posix)) m xs m' ∧
      m'.world = s'.world ∧ s'.world.now = 0 ∧
      m'.client pid = .ready s'.db ∧
      ∀ q, q ≠ pid → m'.client q = m.client q := by
  obtain ⟨xs, m1, hrun, hw1, hn1, hc1, ho1⟩ :=
    exists_called h hw hnow hopen hs
  refine ⟨_, _, hrun.trans (Step.returns hc1).run, hw1, hn1,
    Function.update_self .., ?_⟩
  exact fun q hq => (Function.update_of_ne hq _ _).trans (ho1 q hq)

/-- A database is created, a message is pushed, and the next session finds
it. -/
theorem exists_sessions : ∃ s₁ s₂ s₃ s₄ db st,
    Sys.init.step ⟨0, .openDb 0⟩ = some (.code .ok, s₁) ∧
    s₁.step ⟨0, .push roundQueue (.buf [])⟩ = some (.code .ok, s₂) ∧
    s₂.step ⟨0, .close⟩ = some (.code .ok, s₃) ∧ s₃.db = none ∧
    s₃.step ⟨0, .openDb 0⟩ = some (.code .ok, s₄) ∧
    s₄.db = some db ∧ db.state = some st ∧ st.pendingIds roundName = [1] := by
  obtain ⟨s₁, ⟨-, hcreate⟩, hidle⟩ := Idle.create 0 0
  obtain ⟨s₂, ⟨-, hpush⟩, v, c, hsmall, hqueue, -, -, -⟩ :=
    hidle.push (by decide) (by decide)
  obtain ⟨db, i, hdb, hlive⟩ := hsmall.is
  obtain ⟨s₃, hclose, hclosed⟩ := Live.closes hlive 0
  have hnone : s₃.db = none := hclosed.db_none (by simp)
  have hshow : s₃.Shows (v.live c).down :=
    ⟨_, hclosed, hsmall.inv.shows_closed rfl⟩
  obtain ⟨s₄, hopen, -⟩ := hshow.reopens hnone 0 0
  have hn : s₃.Counting := by
    intro db' hdb'
    rw [hnone] at hdb'
    cases hdb'
  obtain ⟨b, hends, hshow'⟩ := hshow.step hn hopen
  obtain ⟨-, rfl⟩ := hends.open_inv rfl
  obtain ⟨db', hdb'⟩ := Option.isSome_iff_exists.mp
    (hshow'.session_isSome.mp rfl)
  obtain ⟨st, hst⟩ := hshow'.state_isSome hdb'
  obtain ⟨w₂, db?⟩ := s₂
  cases hdb
  refine ⟨s₁, _, s₃, s₄, db', st, hcreate.inv.2, hpush.inv.2, hclose, hnone,
    hopen, hdb', hst, ?_⟩
  rw [hshow'.pendingIds hdb' hst]
  change ((v.live c).queue roundName).map Message.id = _
  rw [hqueue, Function.update_self]
  rfl

/-- Processes without a handle, and no file. -/
def Processes.init : Processes where
  world := World.empty
  client := fun _ => .ready none
  lockFds := fun _ => []

theorem World.empty_tidy : World.empty.Tidy where
  named := World.empty_named
  bounded _ := Nat.zero_le _

/-- Process 0 opens the database, pushes a message and closes it; process 1
holds the lock when its open returns, and finds the message. -/
theorem sessions_serialized_handed : ∃ xs m db st,
    Run (Traced (Processes.Step .posix)) Processes.init xs m ∧
      m.client 1 = .busy (.call (.openDb 0))
        (.ret (.result (.code .ok), some db)) ∧
      db.state = some st ∧ st.pendingIds roundName = [1] ∧
      m.Holds 1 ∧ ¬ m.Holds 0 ∧
      ∀ w : World, w.disk = leftBy World.empty.disk xs → w.Restores db := by
  obtain ⟨s₁, s₂, s₃, s₄, db, st, h1, h2, h3, hnone, h4, hdb, hst, hids⟩ :=
    exists_sessions
  have hidle : Processes.init.Idle := ⟨fun _ => rfl, fun _ => rfl, rfl⟩
  have hfirst : Processes.init.client 0 = .ready Sys.init.db := rfl
  obtain ⟨xs₁, m₁, hr₁, hw₁, hn₁, hc₁, ho₁⟩ :=
    Processes.exists_returned hfirst rfl rfl (Or.inl rfl) h1
  obtain ⟨xs₂, m₂, hr₂, hw₂, hn₂, hc₂, ho₂⟩ := Processes.exists_returned
    hc₁ hw₁ hn₁ (Or.inr (by simp)) h2
  obtain ⟨xs₃, m₃, hr₃, hw₃, hn₃, hc₃, ho₃⟩ := Processes.exists_returned
    hc₂ hw₂ hn₂ (Or.inr (by simp)) h3
  have hready : m₃.client 1 = .ready s₃.db := by
    rw [ho₃ 1 (by decide), ho₂ 1 (by decide), ho₁ 1 (by decide), hnone]
    rfl
  obtain ⟨xs₄, m₄, hr₄, -, -, hc₄, ho₄⟩ := Processes.exists_called
    hready hw₃ hn₃ (Or.inl hnone) h4
  have hrun := ((hr₁.trans hr₂).trans hr₃).trans hr₄
  obtain ⟨hser, hres⟩ := sessions_serialized hidle hrun
  rw [hdb] at hc₄
  have hfree : m₄.client 0 = .ready none := by
    rw [ho₄ 0 (by decide), hc₃, hnone]
  exact ⟨_, m₄, db, st, hrun, hc₄, hst, hids, (hser.opened 1 0 _ db hc₄).1,
    hser.released 0 (Or.inl hfree),
    hres World.empty_tidy 1 0 _ db hc₄⟩

end Handing

end Qdb
