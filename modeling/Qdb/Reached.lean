import Qdb.Restart
import Qdb.Runs

/-!
# Handles that a run reaches

A run starts in an empty directory or with a database file that `qdb_open`
accepts, whoever has written it.  Replay builds well-formed tables out of every
log it accepts (`View.wf_of_replay`), and every call keeps them well formed as
long as the ids it gives out are nonzero and not in use (`Sys.Sound.step`).
Nothing is assumed of the counters otherwise: a file may hold ids above them.
-/

namespace Qdb

open Lib

section Tables

variable {v v' : View} {c : Content} {now : UInt64} {call : Call}

/-- The view of a log that replay accepts is well formed. -/
theorem View.wf_of_replay {s n t ct : UInt64} {fl : UInt32}
    {rs : List Record} {mem : Mem} (hfit : Qdb.Fits s rs)
    (hrep : replayRecords s rs (Mem.start n) = some mem) :
    ∃ c, View.Wf ⟨rs, mem, t, ct, s, fl⟩ c := by
  induction rs using List.reverseRecOn generalizing mem with
  | nil =>
      cases hrep
      exact ⟨Content.empty, State.Shows.start, fun id x hx => nomatch hx⟩
  | append_singleton rs r ih =>
      rw [replayRecords_append] at hrep
      obtain ⟨mem', hmem', hr⟩ := Option.bind_eq_some_iff.mp hrep
      rw [replayRecords_singleton] at hr
      obtain ⟨c, hwf⟩ := ih hfit.of_append hmem'
      obtain ⟨c', -, hwf'⟩ := View.Wf.logged hwf hr hfit
      exact ⟨c', hwf'⟩

/-- A move on well-formed tables leaves well-formed tables. -/
theorem View.Wf.outcome (h : v.Wf c) (hf : v.Fresh call) {mv : Move}
    {res : Result} (hmv : v.move now call = some mv)
    (ho : mv.Outcome False v res v') : ∃ c', v'.Wf c' := by
  cases ho with
  | refuse res =>
      exact ⟨c, h⟩
  | io hio =>
      exact ⟨c, h⟩
  | half hF =>
      exact hF.elim
  | full hfit =>
      obtain ⟨c', -, hwf⟩ := h.logged (h.logs_replays hf (h.logs hmv)) hfit
      exact ⟨c', hwf⟩

/-- So does the expiry of leases of the table. -/
theorem View.Wf.expireAll (h : v.Wf c) {ls : List Lease}
    (hnd : (ls.map Lease.leaseId).Nodup)
    (hls : ∀ l ∈ ls, c.lease l.leaseId = some l)
    (hfit : (v.expireAll now ls).Fits) :
    ∃ c', (v.expireAll now ls).Wf c' := by
  induction ls generalizing v c with
  | nil =>
      exact ⟨c, h⟩
  | cons l ls ih =>
      rw [View.expireAll_cons] at hfit ⊢
      rw [List.map_cons, List.nodup_cons] at hnd
      by_cases hlt : l.expiryUs < now
      · have hstep : v.expireStep now l =
            v.after (v.expire l.leaseId l.msgId) := if_pos hlt
        rw [hstep] at hfit ⊢
        have hfit1 : (v.after (v.expire l.leaseId l.msgId)).Fits := by
          obtain ⟨-, hs, -, -, rest, hrs⟩ :=
            (v.after (v.expire l.leaseId l.msgId)).expireAll_fields now ls
          unfold View.Fits at hfit ⊢
          rw [hs, ← hrs] at hfit
          exact hfit.of_append
        obtain ⟨x, -, -, -, hwf⟩ :=
          h.expire_logged (hls l List.mem_cons_self) hfit1
        refine ih hwf hnd.2 ?_ hfit
        intro k hk
        have hne : k.leaseId ≠ l.leaseId := by
          intro heq
          exact hnd.1 (List.mem_map.mpr ⟨k, hk, heq⟩)
        exact (Function.update_of_ne hne _ _).trans
          (hls k (List.mem_cons_of_mem _ hk))
      · have hstep : v.expireStep now l = v := if_neg hlt
        rw [hstep] at hfit ⊢
        exact ih h hnd.2 (fun k hk => hls k (List.mem_cons_of_mem _ hk)) hfit

theorem View.Wf.expireEnd (h : v.Wf c) {rc : Rc}
    (hend : ExpireEnd False now v v.mem.st.leases rc v') (hfit : v'.Fits) :
    ∃ c', v'.Wf c' := by
  obtain ⟨hnd, hget, -⟩ := h.leases
  generalize v.mem.st.leases = ls at hend hnd hget
  rcases hend with ⟨-, rfl⟩ | ⟨-, ls1, l, ls2, rfl, -, ho⟩
  · exact h.expireAll hnd hget hfit
  · have hv : v' = v.expireAll now ls1 := by
      rcases ho.inv with ⟨hres, -⟩ | ⟨-, _, _, _, _, -, hv | ⟨hF, -⟩⟩
      · rw [View.expire_result] at hres
        cases hres
      · exact hv
      · exact hF.elim
    subst hv
    rw [List.map_append] at hnd
    exact h.expireAll (List.nodup_append.mp hnd).1
      (fun k hk => hget k (List.mem_append_left _ hk)) hfit

end Tables

/-- The id that a call on the tables `st` is about to give is nonzero and not in
use. -/
def Db.Fresh (db : Db) (st : State) : Call → Prop
  | .push _ _ => db.nextMsgId ≠ 0 ∧ st.msgGet db.nextMsgId = none
  | .pop _ _ => db.nextLeaseId ≠ 0 ∧ st.leaseGet db.nextLeaseId = none
  | .popAny _ => db.nextLeaseId ≠ 0 ∧ st.leaseGet db.nextLeaseId = none
  | _ => True

namespace Sys

/-- The same for a call on the open handle. -/
def Fresh (s : Sys) (call : Call) : Prop :=
  ∀ db st, s.db = some db → db.state = some st → db.Fresh st call

/-- A call returns that gives out a fresh id, if any. -/
def FreshReturns (s : Sys) (a : Act) (s' : Sys) : Prop :=
  (∀ e id res, a = .call e id res → s.Fresh e.call) ∧ s.Returns a s'

/-- Where runs start: in an empty directory, or with a database file on which
`qdb_open` has succeeded. -/
inductive Starts : Sys → Prop
  | new : Starts Sys.init
  | image {w : World} {i : Nat} {f : Bytes} {now : UInt64} {t : UInt32}
      {s : Sys} (h : Image w i f)
      (hopen : (⟨w, none⟩ : Sys).step ⟨now, .openDb t⟩ =
        some (.code .ok, s)) : Starts s

/-- The tables of the open handle are well formed. -/
def Sound (s : Sys) : Prop :=
  ∃ ph, s.Is ph ∧ ph.WellFormed

end Sys

section Steps

variable {s s' : Sys} {ph ph' : Phase} {now : UInt64} {call : Call}
variable {res : Result}

theorem Live.fresh {w : World} {db : Db} {v : View} {i : Nat}
    (h : Live False w db v i) (hf : db.Fresh v.mem.st call) :
    v.Fresh call := by
  unfold Db.Fresh at hf
  rw [h.nextMsgId, h.nextLeaseId] at hf
  cases call <;> exact hf

/-- A call keeps the tables well formed. -/
theorem Phase.Step.wellFormed (h : ph.Step now call res ph')
    (hwf : ph.WellFormed) (hf : ∀ v, ph = .opened v → v.Fresh call)
    (hfit : ∀ d, ph = .closed d → Fits d.start d.rs) : ph'.WellFormed := by
  intro v' hv'
  cases h with
  | null hph hcall =>
      exact absurd hv' (hph v')
  | create t =>
      cases hv'
      exact ⟨_, (newFile_inv now _).wf⟩
  | openBroken t =>
      cases hv'
  | openDb t hrep =>
      cases hv'
      exact View.wf_of_replay (hfit _ rfl) hrep
  | openCorrupt t hrep =>
      cases hv'
  | openLocked t =>
      exact hwf v' hv'
  | close =>
      cases hv'
  | move hmv ho =>
      cases hv'
      obtain ⟨c, hc⟩ := hwf _ rfl
      exact hc.outcome (hf _ rfl) hmv ho
  | expire hend hfit' =>
      cases hv'
      obtain ⟨c, hc⟩ := hwf _ rfl
      exact hc.expireEnd hend hfit'
  | compact hmem hfit' =>
      cases hv'
      obtain ⟨c, hc⟩ := hwf _ rfl
      obtain ⟨mem, d, hmem', hs, hcomp, -⟩ := hc.compact now
      have heq := hmem.symm.trans hmem'
      cases heq
      exact ⟨d, hc.compacted hs hcomp hfit'⟩
  | compactIo hfit' =>
      exact hwf v' hv'

/-- The log of a database at rest is inside the file size limit. -/
theorem Sys.Is.fits {d : DbFile} (h : s.Is (.closed d)) :
    Fits d.start d.rs := by
  obtain ⟨-, i, hrest⟩ := h
  exact (DbFile.Kept.content hrest.disk.file).fits

/-- The tables of an open handle are those of its view. -/
theorem Sys.Is.state {v : View} (h : s.Is (.opened v)) {db : Db}
    (hdb : s.db = some db) : db.state = some v.mem.st := by
  obtain ⟨db', i, hdb', hlive⟩ := h
  rw [hdb] at hdb'
  cases hdb'
  exact hlive.state

theorem Sys.Is.fresh {v : View} (h : s.Is (.opened v)) (hf : s.Fresh call) :
    v.Fresh call := by
  obtain ⟨db, i, hdb, hlive⟩ := h
  exact hlive.fresh (hf db _ hdb hlive.state)

/-- The handle of a database file that `qdb_open` accepts. -/
theorem Image.opened {w : World} {i : Nat} {f : Bytes} (h : Image w i f)
    {t : UInt32}
    (hopen : (⟨w, none⟩ : Sys).step ⟨now, .openDb t⟩ = some (.code .ok, s)) :
    ∃ m rs v mem db, Scanned f m rs v ∧ Settles m rs v ∧
      replayRecords m.logStartOffset rs (Mem.start m.nextMsgId) = some mem ∧
      s.db = some db ∧
      Live False s.world db ((m.fileOf rs).opened mem (leaseTimeoutOf t))
        i := by
  have himg : Image { w with now := now } i f :=
    ⟨⟨h.disk.main, h.disk.wal, h.disk.ino, h.disk.file⟩, h.limit, h.lock⟩
  obtain ⟨y, hrun, hy⟩ := Option.map_eq_some_iff.mp hopen
  change Prog.run posix (qdbOpenErr t >>= fun x =>
    pure (Result.code x.1, x.2.or none)) _ = _ at hrun
  rw [Prog.run_bind] at hrun
  obtain ⟨⟨⟨rc, db?⟩, w1⟩, hx, hret⟩ := Option.bind_eq_some_iff.mp hrun
  cases hret
  cases hy
  obtain ⟨db, m, rs, v, mem, heq, hs, hset, hrep, hlive⟩ :=
    himg.accepted hx rfl
  cases heq
  exact ⟨m, rs, v, mem, db, hs, hset, hrep, rfl, hlive⟩

/-- No call gets stuck, and it leaves well-formed tables. -/
theorem Sys.Sound.step (h : s.Sound) {e : Event} (hf : s.Fresh e.call) :
    ∃ res s', s.step e = some (res, s') ∧ s'.Sound := by
  obtain ⟨ph, his, hwf⟩ := h
  obtain ⟨res, s', ph', hstep, hst, his'⟩ := his.step hwf e
  refine ⟨res, s', hstep, ph', his', hst.wellFormed hwf ?_ ?_⟩
  · rintro v rfl
    exact his.fresh hf
  · rintro d rfl
    exact his.fits

theorem Sys.Sound.returns (h : s.Sound) {a : Act}
    (hs : s.FreshReturns a s') : s'.Sound := by
  obtain ⟨hf, ⟨hstep⟩⟩ := hs
  obtain ⟨res, t, ht, hsound⟩ := h.step (hf _ _ _ rfl)
  rw [hstep] at ht
  cases ht
  exact hsound

theorem Sys.Starts.sound (h : s.Starts) : s.Sound := by
  cases h with
  | new =>
      exact ⟨.absent, ⟨rfl, rfl, rfl, rfl⟩, fun v hv => nomatch hv⟩
  | @image w i f now t s h hopen =>
      obtain ⟨m, rs, v, mem, db, -, -, hrep, hdb, hlive⟩ := h.opened hopen
      refine ⟨.opened _, ⟨db, i, hdb, hlive⟩, ?_⟩
      intro v' hv'
      cases hv'
      exact View.wf_of_replay hlive.fits hrep

/-- Counters above all ids give out fresh ones. -/
theorem Sys.Shows.fresh {b : Broker} (h : s.Shows b) (hn : s.Counting)
    (call : Call) : s.Fresh call := by
  intro db st hdb hst
  obtain ⟨ph, his, hph⟩ := h
  cases ph with
  | opened v =>
      obtain ⟨c, hinv, -⟩ := hph
      have heq := hst.symm.trans (his.state hdb)
      cases heq
      have hf := hinv.wf.fresh hinv.bounded (counting his hn v rfl) call
      obtain ⟨db', i, hdb', hlive⟩ := his
      rw [hdb] at hdb'
      cases hdb'
      unfold Db.Fresh
      rw [hlive.nextMsgId, hlive.nextLeaseId]
      revert hf
      cases call <;> exact fun hf => hf
  | _ =>
      rw [his.db_none (by simp)] at hdb
      cases hdb

theorem Sys.Shows.freshReturns {b : Broker} (h : s.Shows b) {a : Act}
    (hs : s.CountedReturns a s') : s.FreshReturns a s' :=
  ⟨fun e _ _ _ => h.fresh hs.1 e.call, hs.2⟩

theorem Sys.fresh_of_counted {as : List Act}
    (hrun : Run Sys.CountedReturns Sys.init as s) :
    Run Sys.FreshReturns Sys.init as s := by
  have hP : ∃ b, Sys.init.Shows b := ⟨_, Sys.Shows.init⟩
  refine (hrun.strengthen (P := fun t => ∃ b, t.Shows b) hP ?_).1
  rintro t a u ⟨b, hb⟩ hs
  obtain ⟨b', -, hb'⟩ := hb.returns hs
  exact ⟨hb.freshReturns hs, b', hb'⟩

/-- A file whose log replay accepts is opened. -/
theorem logFile_opens {rs : List Record} {mem : Mem}
    (hshort : (encodeLog rs).length ≤ 2 ^ 62)
    (hrep : replayRecords hdrSize rs (Mem.start 0) = some mem)
    (t : UInt32) :
    ∃ s : Sys, Image (World.ofFile (logFile rs)) 0 (logFile rs) ∧
      (⟨World.ofFile (logFile rs), none⟩ : Sys).step ⟨0, .openDb t⟩ =
        some (.code .ok, s) ∧
      s.Is (.opened (((logDb rs).fileOf rs).opened mem (leaseTimeoutOf t))) := by
  obtain ⟨himg, hs⟩ := logFile_scanned hshort
  obtain ⟨db, w', hopen, hlive⟩ :=
    himg.open_step hs (Or.inl rfl) hrep 0 t
  exact ⟨⟨w', some db⟩, himg, hopen, db, 0, rfl, hlive⟩

/-- The handle of a file whose log replay accepts. -/
theorem logFile_starts {rs : List Record} {mem : Mem}
    (hshort : (encodeLog rs).length ≤ 2 ^ 62)
    (hrep : replayRecords hdrSize rs (Mem.start 0) = some mem)
    (t : UInt32) :
    ∃ s : Sys, s.Starts ∧ s.Is
      (.opened (((logDb rs).fileOf rs).opened mem (leaseTimeoutOf t))) := by
  obtain ⟨s, himg, hopen, his⟩ := logFile_opens hshort hrep t
  exact ⟨s, .image himg hopen, his⟩

/-- Every state of a run is sound. -/
theorem Sys.Starts.run {as : List Act} (h : s.Starts)
    (hrun : Run Sys.FreshReturns s as s') : s'.Sound :=
  hrun.invariant (P := fun _ t => t.Sound) h.sound
    fun _ _ _ _ _ ht hs => ht.returns hs

end Steps

end Qdb
