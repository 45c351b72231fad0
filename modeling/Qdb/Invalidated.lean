import Qdb.CompactFailure
import Qdb.Exhaustion
import Qdb.Lib.Paired
import Qdb.Stats

/-!
# Handles without a file

When `qdb__reopen_after_compact` fails, the handle has neither a descriptor nor
tables (`exec_reopen_failed`), and no later call gives it new ones
(`Handle.Lost.served`).  A push fails on the descriptor before it reaches the
tables, and a close has nothing to write; every other call that its argument
checks let through goes to the tables first (`invalidated_safe_iff`), as
`qdb_pop` on a queue name (`invalidated_pop`).
-/

namespace Qdb

open Lib

/-- A handle that `qdb__reopen_after_compact` has given up. -/
structure Db.Invalidated (db : Db) : Prop where
  fd : db.fd = none
  state : db.state = none

/-- The call does not get to the tables of an invalidated handle. -/
def Request.Guarded : Request → Prop
  | .call .close => True
  | .call (.push _ _) => True
  | .call (.pop queue out) => out = false ∨ queueArg queue = none
  | .call (.popAny out) => out = false
  | .stats out => out = false
  | .queueStats queue out => out = false ∨ queueArg queue = none
  | .queueList out cap outCount => outCount = false ∨ (out = none ∧ cap > 0)
  | .compactRecommended out => out = false
  | _ => False

/-- The answer is an error; `qdb_close` has none to return. -/
def Request.Fails (req : Request) (a : Answer) : Prop :=
  req = .call .close ∨ a.rc ≠ .ok

/-- Whatever fails, the call returns an error without the tables. -/
def Request.Safe (target : Target) (db : Db) (req : Request) (w : World) :
    Prop :=
  ∀ P, Prog.Wp (Failing P) (fun _ => True) (serve target (some db) req) w
    fun y _ => req.Fails y.1

/-- A call on the handle the application holds that has returned, whatever has
failed in it.  The machine may be in any state. -/
def Served (target : Target) (db? : Option Db) (req : Request)
    (db?' : Option Db) : Prop :=
  (∀ t, req ≠ .call (.openDb t)) ∧ ∃ (P : Op → Prop) (w w' : World)
    (a : Answer), Prog.Exec (Failing P) (serve target db? req) w (a, db?') w'

/-- The handle is invalidated or has been closed. -/
def Handle.Lost (db? : Option Db) : Prop :=
  ∀ db, db? = some db → db.Invalidated

section Reopen

variable {P : Op → Prop} {db : Db} {w w' : World} {x : Rc × Db}

theorem post_reopenFail (db : Db) (rc : Rc) :
    Prog.Post (fun x => x.2.Invalidated) (reopenFail db rc) := by
  unfold reopenFail
  by_cases hfd : db.fd = none
  · rw [if_neg (not_not.mpr hfd)]
    exact ⟨rfl, rfl⟩
  · rw [if_pos hfd]
    refine Prog.post_bind (Prog.post_true _) fun _ _ => ?_
    exact ⟨rfl, rfl⟩

theorem post_reopenMain (db : Db) :
    Prog.Post (fun x => x.1 ≠ .ok → x.2.Invalidated) (reopenMain db) := by
  have hfail : ∀ (db : Db) (rc : Rc), Prog.Post
      (fun x => x.1 ≠ .ok → x.2.Invalidated) (reopenFail db rc) :=
    fun db rc => (post_reopenFail db rc).mono fun _ hx _ => hx
  unfold reopenMain
  refine Prog.post_bind (Prog.post_true _) fun r _ => ?_
  match r with
  | .error rc =>
      exact hfail db rc
  | .ok (fd, _) =>
      refine Prog.post_bind (Prog.post_true _) ?_
      rintro ⟨rc, db1⟩ -
      dsimp only
      split
      · exact hfail db1 rc
      refine Prog.post_bind (Prog.post_true _) ?_
      rintro ⟨rc2, db2⟩ -
      dsimp only
      split
      · exact hfail db2 rc2
      exact fun hno => absurd rfl hno

/-- A failed reopen leaves neither a descriptor nor tables. -/
theorem exec_reopen_failed
    (h : Prog.Exec (Failing P) (reopenAfterCompact db) w x w')
    (hx : x.1 ≠ .ok) : x.2.Invalidated := by
  have hpost : Prog.Post (fun x => x.1 ≠ .ok → x.2.Invalidated)
      (reopenAfterCompact db) := by
    rw [reopenAfterCompact_eq]
    split
    · exact Prog.post_bind (Prog.post_true _) fun _ _ => post_reopenMain _
    · exact post_reopenMain _
  exact hpost.of_exec h hx

end Reopen

section Calls

variable {P : Op → Prop} {db : Db} {w : World} {target : Target}
variable {req : Request}

/-- Without a descriptor no record is appended. -/
theorem wp_appendRecord_none (type : UInt8) (payload : Bytes)
    (offset : UInt64) :
    Prog.Wp (Failing P) (fun _ => True)
      (appendRecord none type payload offset) w (fun x _ => x.1 ≠ .ok) := by
  have hwrite : Prog.Wp (Failing P) (fun _ => True)
      (writeFull none (recordHeader type payload) offset) w
      (fun rc _ => rc ≠ .ok) := by
    refine Prog.wp_perform trivial fun r t hr => ⟨trivial, ?_⟩
    rcases hr with hr | ⟨-, hr, -⟩
    · cases hr
      simp
    · rw [hr]
      simp
  unfold appendRecord
  refine Prog.wp_bind hwrite fun rc t hrc => ?_
  rw [if_pos hrc]
  exact Prog.wp_pure trivial (by simp)

/-- `qdb_push` fails before it gets to the tables. -/
theorem wp_qdbPush_invalidated (h : db.Invalidated) (queue : Option CString)
    (data : DataArg) :
    Prog.Wp (Failing P) (fun _ => True) (qdbPush db queue data) w
      (fun x _ => x.1 ≠ .ok) := by
  unfold qdbPush
  cases queueArg queue with
  | none =>
      exact Prog.wp_pure trivial (by simp)
  | some name =>
      dsimp only
      split
      · exact Prog.wp_pure trivial (by simp)
      split
      · exact Prog.wp_pure trivial (by simp)
      refine Prog.wp_bind (Prog.Total.wp (Prog.total_perform Op.alloc) w)
        fun b t _ => ?_
      split
      · exact Prog.wp_pure trivial (by simp)
      rw [h.fd]
      refine Prog.wp_bind (wp_appendRecord_none _ _ _) ?_
      rintro ⟨rc, newEnd⟩ t hrc
      dsimp only at hrc ⊢
      rw [if_pos hrc]
      exact Prog.wp_pure trivial hrc

theorem total_qdbClose (h : db.Invalidated) :
    Prog.Total (fun _ => True) (qdbClose db) := by
  have hfree : Prog.Total (fun _ => True) (freeDb db) := by
    unfold freeDb
    rw [if_neg (not_not.mpr h.fd)]
    by_cases hlock : db.lockFd = none
    · rw [if_neg (not_not.mpr hlock)]
      exact Prog.total_pure trivial
    · rw [if_pos hlock]
      exact Prog.total_op fun _ => Prog.total_perform _
  unfold qdbClose
  rw [if_neg (not_not.mpr h.fd)]
  exact hfree

/-- A guarded call fails without the tables. -/
theorem wp_serve_guarded (h : db.Invalidated) (hreq : req.Guarded) :
    Prog.Wp (Failing P) (fun _ => True) (serve target (some db) req) w
      (fun x _ => req.Fails x.1) := by
  cases req with
  | call c =>
      cases c with
      | close =>
          refine Prog.wp_bind ?_ (P := fun _ _ => True) fun _ t _ =>
            Prog.wp_pure trivial (Or.inl rfl)
          exact Prog.wp_bind (Prog.Total.wp (total_qdbClose h) w)
            fun _ t _ => Prog.wp_pure trivial trivial
      | push queue data =>
          refine Prog.wp_bind ?_ (P := fun x _ => x.1.rc ≠ .ok) fun _ t hx =>
            Prog.wp_pure trivial (Or.inr hx)
          exact Prog.wp_bind (wp_qdbPush_invalidated h queue data)
            fun _ t hx => Prog.wp_pure trivial hx
      | pop queue out =>
          have heq : qdbPop db queue out = pure (.errInval, db, none) := by
            unfold qdbPop
            cases out with
            | false =>
                rfl
            | true =>
                rw [hreq.resolve_left (by simp)]
                rfl
          unfold serve callCmd
          dsimp only
          rw [heq]
          exact Prog.wp_pure trivial (Or.inr nofun)
      | popAny out =>
          cases (show out = false from hreq)
          exact Prog.wp_pure trivial (Or.inr nofun)
      | _ =>
          exact hreq.elim
  | stats out =>
      cases (show out = false from hreq)
      exact Prog.wp_pure trivial (Or.inr nofun)
  | queueStats queue out =>
      have heq : qdbQueueStats db queue out = pure (.errInval, none) := by
        unfold qdbQueueStats
        cases out with
        | false =>
            rfl
        | true =>
            rw [hreq.resolve_left (by simp)]
            rfl
      unfold serve
      dsimp only
      rw [heq]
      exact Prog.wp_pure trivial (Or.inr nofun)
  | queueList out cap outCount =>
      have heq : qdbQueueList db out cap outCount =
          pure (.errInval, out, none) := by
        unfold qdbQueueList
        cases outCount with
        | false =>
            rfl
        | true =>
            obtain ⟨rfl, hcap⟩ := hreq.resolve_left (by simp)
            rw [if_neg (by simp), if_pos ⟨rfl, hcap⟩]
      unfold serve
      dsimp only
      rw [heq]
      exact Prog.wp_pure trivial (Or.inr nofun)
  | compactRecommended out =>
      cases (show out = false from hreq)
      exact Prog.wp_pure trivial (Or.inr nofun)

/-- `qdb_compact` writes the header of the staging file, then walks the
tables. -/
theorem run_compact_invalidated (h : db.Invalidated) :
    Prog.run posix (qdbCompactOn target db) w = none := by
  have hstage : ∀ k w, Prog.run posix (compactStage db (some k)) w = none := by
    intro k w
    have hlen := length_headerEncode (compactMeta db)
    have hne : headerEncode (compactMeta db) ≠ [] := by
      intro hnil
      rw [hnil] at hlen
      cases hlen
    have hfit : (headerEncode (compactMeta db)).length ≤ maxFileSize := by
      have hmx := maxFileSize_eq
      omega
    unfold compactStage headerWrite writeFull pwrite fileSync
    rw [h.state]
    simp [posix, hne, hfit]
  unfold qdbCompactOn alloc fileDelete fileOpen
  simp [posix, World.setDir_dir, hstage]

/-- Any other call gets stuck on them, on the machine without failures. -/
theorem run_serve_unguarded (h : db.Invalidated) (hreq : ¬ req.Guarded)
    (hopen : ∀ t, req ≠ .call (.openDb t)) :
    Prog.run posix (serve target (some db) req) w = none := by
  cases req with
  | call c =>
      cases c with
      | openDb t =>
          exact absurd rfl (hopen t)
      | close =>
          exact absurd trivial hreq
      | push queue data =>
          exact absurd trivial hreq
      | pop queue out =>
          have heq : qdbPop db queue out = .stuck := by
            obtain ⟨hout, harg⟩ := not_or.mp hreq
            obtain ⟨name, harg⟩ := Option.ne_none_iff_exists'.mp harg
            unfold qdbPop
            rw [if_neg (by simpa using hout), harg, h.state]
          unfold serve callCmd
          dsimp only
          rw [heq]
          rfl
      | popAny out =>
          have heq : qdbPopAny db out = .stuck := by
            unfold qdbPopAny
            rw [if_neg (by simpa [Request.Guarded] using hreq), h.state]
          unfold serve callCmd
          dsimp only
          rw [heq]
          rfl
      | ack id l =>
          have heq : qdbAck db id l = .stuck := by
            unfold qdbAck resolveCall
            rw [h.state]
          unfold serve callCmd
          dsimp only
          rw [heq]
          rfl
      | nack id l =>
          have heq : qdbNack db id l = .stuck := by
            unfold qdbNack resolveCall
            rw [h.state]
          unfold serve callCmd
          dsimp only
          rw [heq]
          rfl
      | processExpired =>
          have heq : Prog.run posix (qdbProcessExpiredLeases db) w = none := by
            obtain ⟨b, bs, hbs⟩ := List.exists_cons_of_ne_nil
              (List.ne_nil_of_mem (List.mem_finRange (0 : Fin 1024)))
            unfold qdbProcessExpiredLeases
            rw [hbs]
            unfold expireBuckets
            rw [h.state]
            rfl
          unfold serve callCmd
          dsimp only
          rw [Prog.run_bind, Prog.run_bind, heq]
          rfl
      | compact =>
          have heq : Prog.run posix (qdbCompactOn target db) w = none :=
            run_compact_invalidated h
          unfold serve
          dsimp only
          rw [Prog.run_bind, heq]
          rfl
  | stats out =>
      have heq : qdbStats db out = .stuck := by
        unfold qdbStats
        rw [if_neg (by simpa [Request.Guarded] using hreq), h.state]
      unfold serve
      dsimp only
      rw [heq]
      rfl
  | queueStats queue out =>
      have heq : qdbQueueStats db queue out = .stuck := by
        obtain ⟨hout, harg⟩ := not_or.mp hreq
        obtain ⟨name, harg⟩ := Option.ne_none_iff_exists'.mp harg
        unfold qdbQueueStats
        rw [if_neg (by simpa using hout), harg, h.state]
      unfold serve
      dsimp only
      rw [heq]
      rfl
  | queueList out cap outCount =>
      have heq : qdbQueueList db out cap outCount = .stuck := by
        obtain ⟨hcount, hout⟩ := not_or.mp hreq
        unfold qdbQueueList
        rw [if_neg (by simpa using hcount), if_neg (by simpa using hout),
          h.state]
      unfold serve
      dsimp only
      rw [heq]
      rfl
  | compactRecommended out =>
      have heq : qdbStats db true = .stuck := by
        unfold qdbStats
        rw [if_neg (by simp), h.state]
      unfold serve qdbCompactRecommended
      dsimp only
      rw [if_neg (by simpa [Request.Guarded] using hreq), heq]
      rfl

end Calls

section Later

variable {db : Db} {target : Target} {req : Request}

theorem post_qdbPush_invalidated (h : db.Invalidated)
    (queue : Option CString) (data : DataArg) :
    Prog.Post (fun x => x.2.Invalidated) (qdbPush db queue data) := by
  unfold qdbPush
  dsimp only
  rw [h.state]
  repeat' first
    | exact h
    | exact ⟨h.fd, rfl⟩
    | trivial
    | refine Prog.post_bind (Prog.post_true _) fun _ _ => ?_
    | split

theorem post_compactOn_invalidated (h : db.Invalidated) :
    Prog.Post (fun x => x.2.Invalidated) (qdbCompactOn target db) := by
  have hstage : ∀ fd, Prog.Post (· ≠ .ok) (compactStage db fd) := by
    intro fd
    unfold compactStage
    refine Prog.post_bind (Prog.post_true _) fun rc _ => ?_
    rw [h.state]
    split
    · assumption
    · trivial
  unfold qdbCompactOn
  refine Prog.post_bind (Prog.post_true _) fun _ _ => ?_
  split
  · exact h
  refine Prog.post_bind (Prog.post_true _) fun _ _ => ?_
  refine Prog.post_bind (Prog.post_true _) fun r _ => ?_
  split
  · exact Prog.post_bind (Prog.post_true _) fun _ _ => h
  · refine Prog.post_bind (hstage _) fun rc hrc => ?_
    refine Prog.post_bind (Prog.post_true _) fun _ _ => ?_
    rw [if_pos hrc]
    exact Prog.post_bind (Prog.post_true _) fun _ _ => h

theorem Handle.lost_some (h : db.Invalidated) : Handle.Lost (some db) := by
  intro db' heq
  cases heq
  exact h

theorem Handle.lost_none : Handle.Lost none :=
  fun _ heq => nomatch heq

theorem post_callCmd_invalidated (h : db.Invalidated) {c : Call}
    (hc : ∀ t, c ≠ .openDb t) :
    Prog.Post (fun y => Handle.Lost y.2) (callCmd (some db) c) := by
  cases c with
  | openDb t =>
      exact absurd rfl (hc t)
  | close =>
      exact Prog.post_bind (Prog.post_true _) fun _ _ => Handle.lost_none
  | push queue data =>
      exact Prog.post_bind (post_qdbPush_invalidated h queue data)
        fun _ hx => Handle.lost_some hx
  | pop queue out =>
      refine Prog.post_bind (R := fun x => x.2.1.Invalidated) ?_
        fun _ hx => Handle.lost_some hx
      unfold qdbPop
      rw [h.state]
      repeat' first
        | exact h
        | trivial
        | split
  | popAny out =>
      refine Prog.post_bind (R := fun x => x.2.1.Invalidated) ?_
        fun _ hx => Handle.lost_some hx
      unfold qdbPopAny
      rw [h.state]
      repeat' first
        | exact h
        | trivial
        | split
  | ack id l =>
      refine Prog.post_bind (R := fun x => x.2.Invalidated) ?_
        fun _ hx => Handle.lost_some hx
      unfold qdbAck resolveCall
      rw [h.state]
      trivial
  | nack id l =>
      refine Prog.post_bind (R := fun x => x.2.Invalidated) ?_
        fun _ hx => Handle.lost_some hx
      unfold qdbNack resolveCall
      rw [h.state]
      trivial
  | processExpired =>
      obtain ⟨b, bs, hbs⟩ := List.exists_cons_of_ne_nil
        (List.ne_nil_of_mem (List.mem_finRange (0 : Fin 1024)))
      unfold callCmd qdbProcessExpiredLeases
      dsimp only
      rw [hbs]
      unfold expireBuckets
      rw [h.state]
      exact Prog.post_bind (Prog.post_bind (Prog.post_true _) fun _ _ => trivial)
        fun _ hx => Handle.lost_some hx
  | compact =>
      exact Prog.post_bind (post_compactOn_invalidated h)
        fun _ hx => Handle.lost_some hx

/-- No call gives the handle a descriptor or tables. -/
theorem post_serve_invalidated (h : db.Invalidated)
    (hreq : ∀ t, req ≠ .call (.openDb t)) :
    Prog.Post (fun y => Handle.Lost y.2) (serve target (some db) req) := by
  cases req with
  | call c =>
      have hcall := post_callCmd_invalidated h (c := c)
        fun t hc => hreq t (congrArg Request.call hc)
      cases c with
      | compact =>
          exact Prog.post_bind (post_compactOn_invalidated h)
            fun _ hx => Handle.lost_some hx
      | _ =>
          unfold serve
          dsimp only
          generalize callCmd (some db) _ = p at hcall ⊢
          exact Prog.post_bind hcall fun _ hx => hx
  | _ =>
      exact Prog.post_bind (Prog.post_true _) fun _ _ => Handle.lost_some h

/-- A closed handle stays closed. -/
theorem post_serve_none (hreq : ∀ t, req ≠ .call (.openDb t)) :
    Prog.Post (fun y => Handle.Lost y.2) (serve target none req) := by
  cases req with
  | call c =>
      cases c with
      | openDb t =>
          exact absurd rfl (hreq t)
      | _ =>
          exact Handle.lost_none
  | _ =>
      exact Handle.lost_none

theorem Handle.Lost.served {db? db?' : Option Db} (h : Handle.Lost db?)
    (hs : Served target db? req db?') : Handle.Lost db?' := by
  obtain ⟨hreq, P, w, w', a, hexec⟩ := hs
  cases db? with
  | none =>
      exact (post_serve_none hreq).of_exec hexec
  | some db =>
      exact (post_serve_invalidated (h db rfl) hreq).of_exec hexec

end Later

/-- After a failed reopen the handle stays invalidated, whatever calls are made
on it, and each next one returns an error without the tables exactly if it is
guarded. -/
theorem invalidated_safe_iff {P : Op → Prop} {db db' : Db} {w w' : World}
    {x : Rc × Db} {target : Target} {reqs : List Request}
    (h : Prog.Exec (Failing P) (reopenAfterCompact db) w x w')
    (hx : x.1 ≠ .ok)
    (hcalls : Run (Served target) (some x.2) reqs (some db')) :
    db'.Invalidated ∧ ∀ (req : Request) (w₁ : World),
      (∀ t, req ≠ .call (.openDb t)) →
        (req.Safe target db' w₁ ↔ req.Guarded) := by
  have hinv : db'.Invalidated :=
    hcalls.invariant (P := fun _ db? => Handle.Lost db?)
      (Handle.lost_some (exec_reopen_failed h hx))
      (fun _ _ _ _ _ ht hs => ht.served hs) db' rfl
  refine ⟨hinv, fun req w₁ hreq => ⟨?_, ?_⟩⟩
  · intro hsafe
    by_contra hno
    obtain ⟨a, t, hrun, -⟩ := (hsafe P).run (failing_posix P)
    rw [run_serve_unguarded hinv hno hreq] at hrun
    cases hrun
  · intro hg P'
    exact wp_serve_guarded hinv hg

/-- The open of the main file by name fails. -/
def OpensMain (o : Op) : Prop :=
  o = .fileOpen .main false

/-- A new database is compacted and the reopen of its file fails. -/
theorem exists_reopen_failed : ∃ s db w x w',
    Sys.init.CountedReturns (.call ⟨0, .openDb 0⟩ none (.code .ok)) s ∧
      s.db = some db ∧
      Prog.Exec (Failing OpensMain) (qdbCompact db) s.world x w' ∧
      Prog.Exec (Failing OpensMain) (reopenAfterCompact db) w x w' ∧
      x.1 ≠ .ok := by
  obtain ⟨s, hs, v, c, hsmall, hempty, -, -⟩ := Idle.create 0 0
  obtain ⟨db, i, hdb, hlive⟩ := hsmall.is
  have hfit : Fits hdrSize (v.compactRecords s.world.now) := by
    rw [hsmall.inv.wf.compactRecords_empty hempty]
    exact fits_checkpoint _ _ _
  obtain ⟨k, w3, hk, -, hall⟩ := exec_to_rename
    (P := OpensMain) .posix hlive hsmall.inv.wf hfit
  have hrename := failing_posix OpensMain (.fileRename .compact .main) w3
  simp only [posix, hk] at hrename
  have hreopen : Prog.Exec (Failing OpensMain) (reopenAfterCompact db)
      ((w3.setDir .main (some k)).setDir .compact none)
      (.errIo, { db with fd := none, state := none })
      ((w3.setDir .main (some k)).setDir .compact none) := by
    rw [reopenAfterCompact_eq, if_pos (by rw [hlive.fd]; simp)]
    refine Prog.exec_bind.mpr ⟨(), _,
      Prog.exec_perform.mpr (failing_posix _ _ _), ?_⟩
    refine Prog.exec_bind.mpr ⟨.error .errIo, _,
      Prog.exec_perform.mpr (Or.inr ⟨rfl, rfl, rfl⟩), ?_⟩
    exact ⟨rfl, rfl⟩
  have hexec := hall (.errIo, { db with fd := none, state := none })
    ((w3.setDir .main (some k)).setDir .compact none) (by
      refine Prog.exec_bind.mpr ⟨.ok db,
        (w3.setDir .main (some k)).setDir .compact none,
        Prog.exec_bind.mpr ⟨.ok, _, Prog.exec_perform.mpr hrename, ?_⟩,
        hreopen⟩
      rw [if_neg (by simp)]
      exact ⟨rfl, rfl⟩)
  exact ⟨s, db, _, _, _, hs, hdb, hexec, hreopen, by simp⟩

/-- A pop behind it gets stuck on the tables. -/
theorem invalidated_pop : ∃ s db x w',
    Sys.init.CountedReturns (.call ⟨0, .openDb 0⟩ none (.code .ok)) s ∧
      s.db = some db ∧
      Prog.Exec (Failing OpensMain) (qdbCompact db) s.world x w' ∧
      x.1 ≠ .ok ∧
      Prog.run posix (serve .posix (some x.2) (.call (.pop roundQueue true)))
        w' = none := by
  obtain ⟨s, db, w, x, w', hs, hdb, hexec, hreopen, hx⟩ := exists_reopen_failed
  refine ⟨s, db, x, w', hs, hdb, hexec, hx, ?_⟩
  refine run_serve_unguarded (exec_reopen_failed hreopen hx) ?_ (by simp)
  rintro (hout | harg)
  · cases hout
  · rw [queueArg_round] at harg
    cases harg

/-- A push behind it fails on the descriptor.  Then a second push and a close
are safe, and a pop is not. -/
theorem invalidated_safe_iff_pushed : ∃ s db x w' db',
    Sys.init.CountedReturns (.call ⟨0, .openDb 0⟩ none (.code .ok)) s ∧
      s.db = some db ∧
      Prog.Exec (Failing OpensMain) (qdbCompact db) s.world x w' ∧
      Run (Served .posix) (some x.2) [.call (.push roundQueue (.buf []))]
        (some db') ∧
      Request.Safe .posix db' (.call (.push roundQueue (.buf []))) w' ∧
      Request.Safe .posix db' (.call .close) w' ∧
      ¬ Request.Safe .posix db' (.call (.pop roundQueue true)) w' := by
  obtain ⟨s, db, w, x, w', hs, hdb, hexec, hreopen, hx⟩ := exists_reopen_failed
  have hinv := exec_reopen_failed hreopen hx
  have hwp := (wp_qdbPush_invalidated (P := OpensMain) (w := w') hinv
    roundQueue (.buf [])).run (failing_posix OpensMain)
  obtain ⟨⟨rc, db'⟩, w₁, hrun, -⟩ := hwp
  have hpush : Prog.Exec (Failing OpensMain)
      (serve .posix (some x.2) (.call (.push roundQueue (.buf [])))) w'
      (.result (.code rc), some db') w₁ := by
    refine Prog.exec_bind.mpr ⟨_, w₁, Prog.exec_bind.mpr ⟨_, w₁,
      Prog.Exec.of_run (failing_posix OpensMain) hrun, rfl, rfl⟩, rfl, rfl⟩
  have hcalls : Run (Served .posix) (some x.2)
      [.call (.push roundQueue (.buf []))] (some db') :=
    .single ⟨by simp, OpensMain, w', w₁, _, hpush⟩
  obtain ⟨-, hsafe⟩ := invalidated_safe_iff hreopen hx hcalls
  refine ⟨s, db, x, w', db', hs, hdb, hexec, hcalls,
    (hsafe _ _ (by simp)).mpr trivial, (hsafe _ _ (by simp)).mpr trivial, ?_⟩
  rw [hsafe _ _ (by simp)]
  rintro (hout | harg)
  · cases hout
  · rw [queueArg_round] at harg
    cases harg

end Qdb
