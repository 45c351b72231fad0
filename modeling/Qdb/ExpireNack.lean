import Qdb.Isolation
import Qdb.Payload

/-!
# Expiry is a nack of every overdue lease

`qdb_process_expired_leases` leaves the tables that `qdb_nack` on one overdue
lease after the other leaves, in the order of the lease buckets; the records
that the two append differ in their type only.  When an append fails, the leases
in front of it have been requeued and the others are still active
(`expire_is_nacks`).

This needs ids that are not in use twice.  A message that has been pushed under
the id of a leased one hides it from the expiry, and the overdue lease stays
(`expire_skips_hidden`).
-/

namespace Qdb

open Lib

/-- The overdue ones among the leases `ls`. -/
def overdue (now : UInt64) (ls : List Lease) : List Lease :=
  ls.filter fun l => decide (l.expiryUs < now)

/-- The tables after `qdb_nack` on the message of a lease. -/
def State.nackLease (st : State) (l : Lease) : State :=
  match st.msgGet l.msgId with
  | none => st
  | some m => qdbNackState st m l.leaseId

/-- The tables after `qdb_nack` on one lease after the other. -/
def State.nackAll (st : State) (ls : List Lease) : State :=
  ls.foldl State.nackLease st

/-- The records of a nack and of an expiry of a lease. -/
def nackRec (l : Lease) : Record :=
  nackRecord l.msgId l.leaseId

def expireRec (l : Lease) : Record :=
  expireRecord l.msgId l.leaseId

/-- The leases `ls` have been requeued. -/
structure Content.Requeued (ls : List Lease) (c c' : Content) : Prop where
  gone : ∀ l ∈ ls, c'.lease l.leaseId = none
  lease : ∀ k, k ∉ ls.map Lease.leaseId → c'.lease k = c.lease k
  msg : ∀ id, id ∉ ls.map Lease.msgId → c'.msg id = c.msg id

/-- A log of requeued leases with the records `rec`. -/
def View.requeue (rec : Lease → Record) (v : View) (l : Lease) : View :=
  v.log (rec l) { v.mem with st := v.mem.st.nackLease l }

def View.requeueAll (rec : Lease → Record) (ls : List Lease) (v : View) :
    View :=
  ls.foldl (View.requeue rec) v

/-- Records that replay as a nack. -/
def Requeues (rec : Lease → Record) : Prop :=
  ∀ v c l, View.Wf v c → c.lease l.leaseId = some l →
    (rec l).replay v.logEnd v.mem =
      some { v.mem with st := v.mem.st.nackLease l } ∧
    ∃ x, c.msg l.msgId = some x ∧
      (rec l).effect v.logEnd c = some (c.nackMsg x l.leaseId)

section Requeue

variable {v : View} {c : Content} {rec : Lease → Record} {ls : List Lease}

theorem View.requeueAll_rs (rec : Lease → Record) (ls : List Lease)
    (v : View) : (v.requeueAll rec ls).rs = v.rs ++ ls.map rec ∧
      (v.requeueAll rec ls).start = v.start ∧
      (v.requeueAll rec ls).mem =
        { v.mem with st := v.mem.st.nackAll ls } := by
  induction ls generalizing v with
  | nil =>
      exact ⟨(List.append_nil _).symm, rfl, rfl⟩
  | cons l ls ih =>
      obtain ⟨h1, h2, h3⟩ := ih (v.requeue rec l)
      refine ⟨?_, h2, h3⟩
      change (View.requeueAll rec ls (v.requeue rec l)).rs = _
      rw [h1]
      change (v.rs ++ [rec l]) ++ ls.map rec = v.rs ++ (rec l :: ls.map rec)
      rw [List.append_assoc]
      rfl

/-- A lease of the table is on a leased message. -/
theorem View.Wf.nackLease_eq (h : v.Wf c) {l : Lease}
    (hl : c.lease l.leaseId = some l) :
    ∃ m, v.mem.st.msgGet l.msgId = some m ∧ m.state = .leased ∧
      m.leaseId = l.leaseId ∧
      v.mem.st.nackLease l = qdbNackState v.mem.st m l.leaseId := by
  obtain ⟨m, hm, hs, hlm, -⟩ := h.expire_eq hl
  refine ⟨m, hm, hs, hlm, ?_⟩
  unfold State.nackLease
  rw [hm]

theorem requeues_nack : Requeues nackRec := by
  intro v c l h hl
  obtain ⟨m, hm, hs, hlm, heq⟩ := h.nackLease_eq hl
  obtain ⟨x, hx, hxs, hxl, -⟩ := h.lease_get hl
  refine ⟨?_, x, hx, ?_⟩
  · rw [heq]
    exact (h.resolve_replays hm hs hlm).2.1
  · unfold Record.effect nackRec
    rw [entry_nackRecord, Option.bind_some]
    change (c.held l.msgId l.leaseId).map _ = _
    rw [Content.held_eq_some.mpr ⟨hx, hxs, hxl⟩]
    rfl

theorem requeues_expire : Requeues expireRec := by
  intro v c l h hl
  obtain ⟨m, hm, hs, hlm, heq⟩ := h.nackLease_eq hl
  obtain ⟨x, hx, hxs, hxl, -⟩ := h.lease_get hl
  refine ⟨?_, x, hx, ?_⟩
  · rw [heq]
    exact (h.resolve_replays hm hs hlm).2.2
  · unfold Record.effect expireRec
    rw [entry_expireRecord, Option.bind_some]
    change (c.held l.msgId l.leaseId).map _ = _
    rw [Content.held_eq_some.mpr ⟨hx, hxs, hxl⟩]
    rfl

/-- Requeueing one lease of well-formed tables. -/
theorem View.Wf.requeue (hrec : Requeues rec) (h : v.Wf c) {l : Lease}
    (hl : c.lease l.leaseId = some l) (hfit : (v.requeue rec l).Fits) :
    ∃ x, c.msg l.msgId = some x ∧
      (v.requeue rec l).Wf (c.nackMsg x l.leaseId) := by
  obtain ⟨hrep, x, hx, heff⟩ := hrec v c l h hl
  obtain ⟨c', hc', hwf⟩ := h.logged hrep hfit
  rw [heff] at hc'
  cases hc'
  exact ⟨x, hx, hwf⟩

theorem View.Fits.of_requeueAll {l : Lease}
    (hfit : (v.requeueAll rec (l :: ls)).Fits) : (v.requeue rec l).Fits := by
  have hrs := View.requeueAll_rs rec ls (v.requeue rec l)
  have hfit : Qdb.Fits (View.requeueAll rec ls (v.requeue rec l)).start
      (View.requeueAll rec ls (v.requeue rec l)).rs := hfit
  rw [hrs.1, hrs.2.1] at hfit
  exact hfit.of_append

/-- The requeued leases are gone, and nothing else has changed. -/
theorem View.Wf.requeueAll (hrec : Requeues rec) (h : v.Wf c)
    (hnd : (ls.map Lease.leaseId).Nodup)
    (hls : ∀ l ∈ ls, c.lease l.leaseId = some l)
    (hfit : (v.requeueAll rec ls).Fits) :
    replayRecords v.logEnd (ls.map rec) v.mem =
        some (v.requeueAll rec ls).mem ∧
      ∃ c', (v.requeueAll rec ls).Wf c' ∧ Content.Requeued ls c c' := by
  induction ls generalizing v c with
  | nil =>
      exact ⟨rfl, c, h, nofun, fun _ _ => rfl, fun _ _ => rfl⟩
  | cons l ls ih =>
      have hl := hls l List.mem_cons_self
      rw [List.map_cons, List.nodup_cons] at hnd
      obtain ⟨x, hx, hwf⟩ := h.requeue hrec hl hfit.of_requeueAll
      have hid : x.id = l.msgId := h.key hx
      have hrest : ∀ k ∈ ls,
          (c.nackMsg x l.leaseId).lease k.leaseId = some k := by
        intro k hk
        have hne : k.leaseId ≠ l.leaseId := fun heq =>
          hnd.1 (List.mem_map.mpr ⟨k, hk, heq⟩)
        exact (Function.update_of_ne hne _ _).trans
          (hls k (List.mem_cons_of_mem _ hk))
      obtain ⟨hrep, c', hwf', hreq⟩ := ih hwf hnd.2 hrest hfit
      refine ⟨?_, c', hwf', ?_, ?_, ?_⟩
      · have hone := (hrec v c l h hl).1
        rw [List.map_cons]
        change ((rec l).replay v.logEnd v.mem).bind _ = _
        rw [hone, Option.bind_some]
        have hend : (v.requeue rec l).logEnd =
            v.logEnd + UInt64.ofNat (rec l).size := by
          unfold View.logEnd
          exact logEndOf_snoc _ _ _
        rw [hend] at hrep
        exact hrep
      · intro k hk
        rcases List.mem_cons.mp hk with rfl | hk
        · rw [hreq.lease _ hnd.1]
          exact Function.update_self ..
        · exact hreq.gone k hk
      · intro k hk
        rw [List.map_cons, List.mem_cons, not_or] at hk
        rw [hreq.lease k hk.2]
        exact Function.update_of_ne hk.1 _ _
      · intro id hid'
        rw [List.map_cons, List.mem_cons, not_or] at hid'
        rw [hreq.msg id hid'.2]
        refine Function.update_of_ne ?_ _ _
        rw [hid]
        exact hid'.1

/-- On well-formed tables the expiry skips no overdue lease. -/
theorem View.Wf.expireAll_eq (h : v.Wf c) {now : UInt64}
    (hnd : (ls.map Lease.leaseId).Nodup)
    (hls : ∀ l ∈ ls, c.lease l.leaseId = some l)
    (hfit : (v.expireAll now ls).Fits) :
    v.expireAll now ls = v.requeueAll expireRec (overdue now ls) := by
  induction ls generalizing v c with
  | nil =>
      rfl
  | cons l ls ih =>
      have hl := hls l List.mem_cons_self
      rw [List.map_cons, List.nodup_cons] at hnd
      rw [View.expireAll_cons] at hfit ⊢
      by_cases hlt : l.expiryUs < now
      · have hstep : v.expireStep now l = v.requeue expireRec l := by
          obtain ⟨m, hm, hs, hlm, hmv⟩ := h.expire_eq hl
          obtain ⟨m', hm', -, -, heq⟩ := h.nackLease_eq hl
          rw [hm] at hm'
          cases hm'
          unfold View.expireStep View.requeue
          rw [if_pos hlt, hmv, heq]
          rfl
        have hover : overdue now (l :: ls) = l :: overdue now ls :=
          List.filter_cons_of_pos (by simpa using hlt)
        rw [hstep] at hfit ⊢
        rw [hover]
        have hfit1 : (v.requeue expireRec l).Fits := by
          obtain ⟨-, hs, -, -, rest, hrs⟩ :=
            (v.requeue expireRec l).expireAll_fields now ls
          unfold View.Fits at hfit ⊢
          rw [hs, ← hrs] at hfit
          exact hfit.of_append
        obtain ⟨x, -, hwf⟩ := h.requeue requeues_expire hl hfit1
        refine ih hwf hnd.2 ?_ hfit
        intro k hk
        have hne : k.leaseId ≠ l.leaseId := fun heq =>
          hnd.1 (List.mem_map.mpr ⟨k, hk, heq⟩)
        exact (Function.update_of_ne hne _ _).trans
          (hls k (List.mem_cons_of_mem _ hk))
      · have hstep : v.expireStep now l = v := if_neg hlt
        have hover : overdue now (l :: ls) = overdue now ls :=
          List.filter_cons_of_neg (by simpa using hlt)
        rw [hstep] at hfit ⊢
        rw [hover]
        exact ih h hnd.2 (fun k hk => hls k (List.mem_cons_of_mem _ hk)) hfit

end Requeue

section Nacks

variable {s : Sys} {v : View} {c : Content} {ls : List Lease}

/-- `qdb_nack` on one lease after the other. -/
def nackEvents (now : UInt64) (ls : List Lease) : List Event :=
  ls.map fun l => ⟨now, .nack l.msgId l.leaseId⟩

/-- A nack of an active lease whose record fits into the file. -/
theorem Sys.Is.nack_step (his : s.Is (.opened v)) (h : v.Wf c) {l : Lease}
    (hl : c.lease l.leaseId = some l) (hfit : (v.requeue nackRec l).Fits)
    (now : UInt64) :
    ∃ s' : Sys, s.step ⟨now, .nack l.msgId l.leaseId⟩ = some (.code .ok, s') ∧
      s'.Is (.opened (v.requeue nackRec l)) := by
  have hph : (Phase.opened v).WellFormed := by
    rintro _ ⟨⟩
    exact ⟨c, h⟩
  obtain ⟨m, hm, hs, hlm, heq⟩ := h.nackLease_eq hl
  have hmv : v.nack l.msgId l.leaseId = .log (nackRec l) v.mem
      { v.mem with st := v.mem.st.nackLease l } (.code .ok) := by
    unfold View.nack View.resolveCall
    rw [hm]
    dsimp only
    rw [if_neg (not_not.mpr hs), if_neg (not_not.mpr hlm), heq]
    rfl
  obtain ⟨res, s', ph', hstep, hst, his'⟩ :=
    his.step hph ⟨now, .nack l.msgId l.leaseId⟩
  cases hst with
  | null hne _ =>
      exact absurd rfl (hne v)
  | @move _ v' _ mv _ hmv' ho =>
      cases hmv'
      rw [hmv] at ho
      cases ho with
      | io hio =>
          rcases hio with hF | hno
          · exact hF.elim
          · exact absurd hfit hno
      | half hF =>
          exact hF.elim
      | full _ =>
          exact ⟨s', hstep, his'⟩

/-- Nacks of active leases whose records fit into the file. -/
theorem Sys.Is.nack_run (his : s.Is (.opened v)) (h : v.Wf c) (now : UInt64)
    (hnd : (ls.map Lease.leaseId).Nodup)
    (hls : ∀ l ∈ ls, c.lease l.leaseId = some l)
    (hfit : (v.requeueAll nackRec ls).Fits) :
    ∃ s' : Sys, Sys.run (nackEvents now ls) s =
        some (List.replicate ls.length (.code .ok), s') ∧
      s'.Is (.opened (v.requeueAll nackRec ls)) := by
  induction ls generalizing s v c with
  | nil =>
      exact ⟨s, rfl, his⟩
  | cons l ls ih =>
      have hl := hls l List.mem_cons_self
      rw [List.map_cons, List.nodup_cons] at hnd
      obtain ⟨s₁, hstep, his₁⟩ :=
        his.nack_step h hl hfit.of_requeueAll now
      obtain ⟨x, -, hwf⟩ := h.requeue requeues_nack hl hfit.of_requeueAll
      have hrest : ∀ k ∈ ls,
          (c.nackMsg x l.leaseId).lease k.leaseId = some k := by
        intro k hk
        have hne : k.leaseId ≠ l.leaseId := fun heq =>
          hnd.1 (List.mem_map.mpr ⟨k, hk, heq⟩)
        exact (Function.update_of_ne hne _ _).trans
          (hls k (List.mem_cons_of_mem _ hk))
      obtain ⟨s', hrun, his'⟩ := ih his₁ hwf hnd.2 hrest hfit
      refine ⟨s', ?_, his'⟩
      unfold nackEvents at hrun ⊢
      rw [List.map_cons, Sys.run, hstep]
      change (Sys.run (ls.map _) s₁).bind _ = _
      rw [hrun]
      rfl

/-- Records of the two kinds take the same room. -/
theorem fits_nack_of_expire (h : (v.requeueAll expireRec ls).Fits) :
    (v.requeueAll nackRec ls).Fits := by
  have hsize : ∀ ls : List Lease, (encodeLog (ls.map nackRec)).length =
      (encodeLog (ls.map expireRec)).length := by
    intro ls
    induction ls with
    | nil =>
        rfl
    | cons l ls ih =>
        rw [List.map_cons, List.map_cons, encodeLog_cons, encodeLog_cons,
          List.length_append, List.length_append, ih, Record.length_encode,
          Record.length_encode]
        rfl
  obtain ⟨h1, h2, -⟩ := View.requeueAll_rs nackRec ls v
  obtain ⟨h1', h2', -⟩ := View.requeueAll_rs expireRec ls v
  unfold View.Fits at h ⊢
  rw [h1', h2'] at h
  rw [h1, h2]
  rcases h with h | h
  · left
    rw [List.append_eq_nil_iff, List.map_eq_nil_iff] at h ⊢
    exact h
  · right
    rw [encodeLog_append, List.length_append] at h ⊢
    rw [hsize]
    exact h

end Nacks

section Leases

variable {v v' : View} {c c' : Content} {ls : List Lease} {now : UInt64}

/-- The lease table once the leases `ls` have been requeued. -/
theorem View.Wf.mem_leases_requeued (h : v.Wf c) (h' : v'.Wf c')
    (hls : ∀ l ∈ ls, c.lease l.leaseId = some l)
    (hreq : Content.Requeued ls c c') (k : Lease) :
    k ∈ v'.mem.st.leases ↔ k ∈ v.mem.st.leases ∧ k ∉ ls := by
  obtain ⟨-, hget, hall⟩ := h.leases
  obtain ⟨-, hget', hall'⟩ := h'.leases
  constructor
  · intro hk
    have hlease := hget' k hk
    have hnot : k.leaseId ∉ ls.map Lease.leaseId := by
      intro hin
      obtain ⟨l, hl, heq⟩ := List.mem_map.mp hin
      rw [← heq, hreq.gone l hl] at hlease
      cases hlease
    rw [hreq.lease _ hnot] at hlease
    exact ⟨(hall _ _ hlease).1,
      fun hin => hnot (List.mem_map.mpr ⟨k, hin, rfl⟩)⟩
  · rintro ⟨hk, hnot⟩
    have hlease := hget k hk
    have hnot' : k.leaseId ∉ ls.map Lease.leaseId := by
      intro hin
      obtain ⟨l, hl, heq⟩ := List.mem_map.mp hin
      have hk' := hls l hl
      rw [heq, hlease] at hk'
      cases hk'
      exact hnot hl
    rw [← hreq.lease _ hnot'] at hlease
    exact (hall' _ _ hlease).1

/-- The message of a lease that has not been requeued. -/
theorem View.Wf.msg_requeued (h : v.Wf c)
    (hls : ∀ l ∈ ls, c.lease l.leaseId = some l)
    (hreq : Content.Requeued ls c c') {k : Lease} (hk : k ∈ v.mem.st.leases)
    (hnot : k ∉ ls) : c'.msg k.msgId = c.msg k.msgId := by
  refine hreq.msg _ ?_
  intro hin
  obtain ⟨l, hl, heq⟩ := List.mem_map.mp hin
  have hlease := h.leases.2.1 k hk
  obtain ⟨x, hx, -⟩ := h.lease_get hlease
  have h1 := h.lease_inj hlease hx
  have h2 := h.lease_inj (hls l hl) (by rw [heq]; exact hx)
  have hls' := hls l hl
  rw [← h2, h1, hlease] at hls'
  cases hls'
  exact hnot hl

theorem overdue_sub {l : Lease} (h : l ∈ overdue now ls) :
    l ∈ ls ∧ l.expiryUs < now := by
  obtain ⟨h1, h2⟩ := List.mem_filter.mp h
  exact ⟨h1, of_decide_eq_true h2⟩

theorem nodup_overdue (h : (ls.map Lease.leaseId).Nodup) :
    ((overdue now ls).map Lease.leaseId).Nodup :=
  h.sublist (List.Sublist.map _ List.filter_sublist)

theorem length_overdue : expiredCount now ls = (overdue now ls).length :=
  List.countP_eq_length_filter

end Leases

/-- What the call leaves when no append fails. -/
structure ExpiresAll (now : UInt64) (n : Int32) (s : Sys) (db : Db)
    (st : State) (s' : Sys) (db' : Db) (st' : State) : Prop where
  count : n = Int32.ofNat (overdue now st.leases).length
  /-- The `int` does not overflow. -/
  number : (overdue now st.leases).length < 2 ^ 31 →
    n.toInt = (overdue now st.leases).length
  /-- Exactly the overdue leases are gone. -/
  leases : ∀ l, l ∈ st'.leases ↔ l ∈ st.leases ∧ ¬ l.expiryUs < now
  untouched : ∀ l ∈ st.leases, ¬ l.expiryUs < now →
    st'.coreGet l.msgId = st.coreGet l.msgId
  /-- `qdb_nack` on the overdue leases leaves the same tables. -/
  nacks : ∃ s₁ db₁, Sys.run (nackEvents now (overdue now st.leases)) s =
      some (List.replicate (overdue now st.leases).length (.code .ok), s₁) ∧
    s₁.db = some db₁ ∧ db₁.state = some st' ∧ db₁.nextMsgId = db'.nextMsgId ∧
    db₁.nextLeaseId = db'.nextLeaseId
  /-- The records that were appended replay to these tables. -/
  replay : replayRecords db.logEndOffset
    ((overdue now st.leases).map expireRec) (memOf db st) =
      some (memOf db' st')
  logged : ∃ i, db'.fd = some i ∧
    slice (s'.world.content i) db.logEndOffset.toNat
      (encodeLog ((overdue now st.leases).map expireRec)).length =
      encodeLog ((overdue now st.leases).map expireRec)

/-- What the call leaves when an append fails: the overdue leases in front of
one that is overdue have been requeued, and no others. -/
def ExpiresSome (now : UInt64) (st st' : State) : Prop :=
  ∃ ls l ls', st.leases = ls ++ l :: ls' ∧ l.expiryUs < now ∧
    st' = st.nackAll (overdue now ls) ∧
    ∀ k, k ∈ st'.leases ↔ k ∈ st.leases ∧ k ∉ overdue now ls

section Expiry

variable {s : Sys} {v : View} {c : Content} {now : UInt64}

theorem Live.faulty {w : World} {db : Db} {i : Nat}
    (h : Live False w db v i) : Live True w db v i :=
  { h with
    keeps := DbFile.Kept.mono h.keeps (fun _ _ => Or.inl trivial) }

/-- The file behind the old end of the log holds the records appended. -/
theorem Live.logged_requeueAll {F : Prop} {w w' : World} {db db' : Db}
    {i i' : Nat} {ls : List Lease} (h : Live F w db v i)
    (h' : Live F w' db' (v.requeueAll expireRec ls) i') :
    slice (w'.content i') db.logEndOffset.toNat
      (encodeLog (ls.map expireRec)).length =
      encodeLog (ls.map expireRec) := by
  obtain ⟨hrs, hstart, -⟩ := View.requeueAll_rs expireRec ls v
  have hbody := h'.content.body
  change slice _ (v.requeueAll expireRec ls).start.toNat
    (encodeLog (v.requeueAll expireRec ls).rs).length =
      encodeLog (v.requeueAll expireRec ls).rs at hbody
  rw [hrs, hstart, encodeLog_append] at hbody
  rw [h.logEnd]
  unfold View.logEnd
  rw [toNat_logEndOf h.fits]
  exact (slice_append_iff.mp hbody).2

/-- The call without I/O failure. -/
theorem Sys.Is.expires_all (his : s.Is (.opened v)) (h : v.Wf c) {db : Db}
    (hdb : s.db = some db) {n : Int32} {s' : Sys}
    (hstep : s.step ⟨now, .processExpired⟩ = some (.count n, s')) :
    ∃ db' st', s'.db = some db' ∧ db'.state = some st' ∧
      ExpiresAll now n s db v.mem.st s' db' st' := by
  have hph : (Phase.opened v).WellFormed := by
    rintro _ ⟨⟩
    exact ⟨c, h⟩
  obtain ⟨res, t, ph', hstep', hst, his'⟩ := his.step hph ⟨now, .processExpired⟩
  rw [hstep] at hstep'
  obtain ⟨rfl, rfl⟩ := Prod.mk.inj (Option.some.inj hstep')
  generalize hres : Result.count n = res at hst
  cases hst with
  | null hne _ =>
      exact absurd rfl (hne v)
  | move hmv _ =>
      cases hmv
  | @expire _ v' rc hend hfit =>
      have hrc : rc = .ok ∧
          n = Int32.ofNat (expiredCount now v.mem.st.leases) := by
        unfold Result.ofExpire at hres
        split at hres
        · next hok => exact ⟨hok, Result.count.inj hres⟩
        · cases hres
      obtain ⟨rfl, hn⟩ := hrc
      rw [length_overdue] at hn
      rcases hend with ⟨-, hv'⟩ | ⟨hio, -⟩
      swap
      · cases hio
      rw [hv'] at hfit his'
      obtain ⟨hnd, hget, -⟩ := h.leases
      have heq := h.expireAll_eq hnd hget hfit
      rw [heq] at hfit his'
      have hls : ∀ l ∈ overdue now v.mem.st.leases,
          c.lease l.leaseId = some l := fun l hl => hget l (overdue_sub hl).1
      obtain ⟨hrep, c', hwf', hreq⟩ :=
        h.requeueAll requeues_expire (nodup_overdue hnd) hls hfit
      obtain ⟨s₁, hrun, db₁, i₁, hdb₁, hlive₁⟩ :=
        his.nack_run h now (nodup_overdue hnd) hls (fits_nack_of_expire hfit)
      obtain ⟨db₀, i₀, hdb₀, hlive₀⟩ := his
      rw [hdb] at hdb₀
      cases hdb₀
      obtain ⟨db', i, hdb', hlive'⟩ := his'
      obtain ⟨hrs', hstart', hmem'⟩ := View.requeueAll_rs expireRec
        (overdue now v.mem.st.leases) v
      obtain ⟨-, -, hmem₁⟩ := View.requeueAll_rs nackRec
        (overdue now v.mem.st.leases) v
      have hiff : ∀ l, l ∈ v.mem.st.leases →
          (l ∉ overdue now v.mem.st.leases ↔ ¬ l.expiryUs < now) := by
        intro l hl
        refine not_congr ⟨fun hin => (overdue_sub hin).2, fun hlt => ?_⟩
        exact List.mem_filter.mpr ⟨hl, decide_eq_true hlt⟩
      refine ⟨db', _, hdb', hlive'.state, ?_⟩
      refine
        { count := hn
          number := fun hlt => hn ▸ Int32.toInt_ofNat_of_lt hlt
          leases := ?_
          untouched := ?_
          nacks := ?_
          replay := ?_
          logged := ?_ }
      · intro l
        rw [h.mem_leases_requeued hwf' hls hreq l]
        exact and_congr_right (hiff l)
      · intro l hl hlt
        rw [hwf'.shows.msg, h.shows.msg]
        exact h.msg_requeued hls hreq hl ((hiff l hl).mpr hlt)
      · refine ⟨s₁, db₁, ?_, hdb₁, ?_, ?_, ?_⟩
        · exact hrun
        · rw [hlive₁.state, hmem₁, hmem']
        · rw [hlive₁.nextMsgId, hlive'.nextMsgId, hmem₁, hmem']
        · rw [hlive₁.nextLeaseId, hlive'.nextLeaseId, hmem₁, hmem']
      · have hm : memOf db v.mem.st = v.mem := by
          unfold memOf
          rw [hlive₀.nextMsgId, hlive₀.nextLeaseId]
        rw [hlive₀.logEnd, hm, hrep]
        unfold memOf
        rw [hlive'.nextMsgId, hlive'.nextLeaseId]
      · exact ⟨i, hlive'.fd, hlive₀.logged_requeueAll hlive'⟩

/-- A failed expiry leaves the tables. -/
theorem View.expire_fails {F : Prop} {v' : View} {k id : UInt64}
    (ho : (v.expire k id).Outcome F v (.code .errIo) v') :
    v'.mem = v.mem ∧ v'.start = v.start ∧ v.rs <+: v'.rs := by
  obtain ⟨hstart, hpre⟩ := ho.grows
  refine ⟨?_, hstart, hpre⟩
  rcases ho.inv with ⟨hres, -⟩ | ⟨-, r, half, full, res, hmv, hv'⟩
  · rw [View.expire_result] at hres
    cases hres
  · rcases hv' with rfl | ⟨-, rfl⟩
    · rfl
    · unfold View.expire at hmv
      split at hmv
      · cases hmv
      · split at hmv
        · cases hmv
        · unfold View.resolve at hmv
          cases hmv
          rfl

/-- The call when an operation fails. -/
theorem Sys.Is.expires_some (his : s.Is (.opened v)) (h : v.Wf c) {db : Db}
    (hdb : s.db = some db) {x : Result × Option Db} {w' : World}
    (hexec : Prog.Exec (Faulty True) (callCmd (some db) .processExpired)
      { s.world with now := now } x w') (hx : ∀ n, x.1 ≠ .count n) :
    x.1 = .code .errIo ∧ ∃ db' st', x.2 = some db' ∧ db'.state = some st' ∧
      ExpiresSome now v.mem.st st' := by
  obtain ⟨db₀, i, hdb₀, hlive⟩ := his.atTime now
  have hdb₀ : s.db = some db₀ := hdb₀
  rw [hdb] at hdb₀
  cases hdb₀
  obtain ⟨-, rc, v', db', hres, hdb', hend, hlive'⟩ :=
    (wp_processExpired hlive.faulty h.shows.rep.placed.leases).exec hexec
  rcases hend with ⟨rfl, -⟩ | ⟨rfl, ls, l, ls', hsplit, hl, ho⟩
  · exact absurd hres (hx _)
  refine ⟨hres, db', _, hdb', hlive'.state, ls, l, ls', hsplit, hl, ?_⟩
  obtain ⟨hmem, hstart, hpre⟩ := View.expire_fails ho
  obtain ⟨hnd, hget, -⟩ := h.leases
  rw [hsplit] at hnd hget
  have hnd' : (ls.map Lease.leaseId).Nodup := by
    rw [List.map_append] at hnd
    exact hnd.of_append_left
  have hget' : ∀ k ∈ ls, c.lease k.leaseId = some k := fun k hk =>
    hget k (List.mem_append_left _ hk)
  have hfit : (v.expireAll now ls).Fits := by
    obtain ⟨rs, hrs⟩ := hpre
    have hf := hlive'.fits
    rw [hstart, ← hrs] at hf
    exact hf.of_append
  have heq := h.expireAll_eq hnd' hget' hfit
  rw [heq] at hfit hmem
  have hls : ∀ k ∈ overdue now ls, c.lease k.leaseId = some k :=
    fun k hk => hget' k (overdue_sub hk).1
  obtain ⟨-, c', hwf', hreq⟩ :=
    h.requeueAll requeues_expire (nodup_overdue hnd') hls hfit
  rw [hmem]
  refine ⟨?_, fun k => ?_⟩
  · rw [(View.requeueAll_rs expireRec (overdue now ls) v).2.2]
  · exact h.mem_leases_requeued hwf' hls hreq k

end Expiry

/-- Expiry is a nack of every overdue lease, as long as the ids that are given
out are unused. -/
theorem expire_is_nacks {s₀ s : Sys} {as : List Act} (h0 : s₀.Starts)
    (hrun : Run Sys.FreshReturns s₀ as s) {db : Db} {st : State}
    (hdb : s.db = some db) (hst : db.state = some st) (now : UInt64) :
    (∃ res s', s.step ⟨now, .processExpired⟩ = some (res, s')) ∧
    (∀ n s', s.step ⟨now, .processExpired⟩ = some (.count n, s') →
      ∃ db' st', s'.db = some db' ∧ db'.state = some st' ∧
        ExpiresAll now n s db st s' db' st') ∧
    ∀ x w', Prog.Exec (Faulty True) (callCmd (some db) .processExpired)
        { s.world with now := now } x w' → (∀ n, x.1 ≠ .count n) →
      x.1 = .code .errIo ∧ ∃ db' st', x.2 = some db' ∧
        db'.state = some st' ∧ ExpiresSome now st st' := by
  obtain ⟨ph, his, hwf⟩ := h0.run hrun
  cases ph with
  | absent =>
      rw [his.1] at hdb
      cases hdb
  | broken =>
      rw [his.1] at hdb
      cases hdb
  | closed d =>
      rw [his.1] at hdb
      cases hdb
  | opened v =>
      obtain ⟨c, hc⟩ := hwf v rfl
      obtain ⟨db₀, i, hdb₀, hlive⟩ := id his
      rw [hdb] at hdb₀
      cases hdb₀
      cases hst.symm.trans hlive.state
      obtain ⟨res, s', ph', hstep, -, -⟩ := his.step hwf ⟨now, .processExpired⟩
      exact ⟨⟨res, s', hstep⟩, fun n s' hstep => his.expires_all hc hdb hstep,
        fun x w' hexec hx => his.expires_some hc hdb hexec hx⟩

/-- A log with a lease of the first message until the time 10. -/
def leasedLog : List Record :=
  [pushRecord 1 roundBody, leaseRecord 1 10 1]

theorem leasedLog_replay :
    ∃ mem, replayRecords hdrSize leasedLog (Mem.start 0) = some mem ∧
      mem.st.leases = [⟨1, 1, 10⟩] := by
  have h : (replayRecords hdrSize leasedLog (Mem.start 0)).map
      (fun mem => mem.st.leases) = some [⟨1, 1, 10⟩] := by
    decide +kernel
  exact Option.map_eq_some_iff.mp h

theorem length_leasedLog : (encodeLog leasedLog).length ≤ 2 ^ 29 :=
  le_trans (length_encodeLog_le _) (by decide)

/-- One overdue lease. -/
theorem expire_is_nacks_one : ∃ (s : Sys) (st : State) (res : Result)
    (s' : Sys), overdue 100 st.leases = [⟨1, 1, 10⟩] ∧
      s.step ⟨100, .processExpired⟩ = some (res, s') ∧
      ∀ n, res = .count n → n = 1 := by
  obtain ⟨mem, hrep, hls⟩ := leasedLog_replay
  obtain ⟨s, v, c, hs, ⟨db, i, hdb, hlive⟩, -, rfl, -⟩ :=
    shortLog_starts length_leasedLog hrep
  obtain ⟨⟨res, s', hstep⟩, hall, -⟩ :=
    expire_is_nacks hs .nil hdb hlive.state 100
  have hover : overdue 100 v.mem.st.leases = [⟨1, 1, 10⟩] := by
    rw [hls]
    decide
  refine ⟨s, v.mem.st, res, s', hover, hstep, ?_⟩
  rintro n rfl
  obtain ⟨db', st', -, -, h⟩ := hall n s' hstep
  rw [h.count, hover]
  rfl

/-- The log of a handle that gives the id of a leased message out again. -/
def hiddenLog : List Record :=
  leasedLog ++ [pushRecord 0xFFFFFFFFFFFFFFFF secondBody,
    checkpointRecord 0 1 5]

theorem hiddenLog_replay :
    ∃ mem, replayRecords hdrSize hiddenLog (Mem.start 0) = some mem ∧
      mem.nextMsgId = 1 ∧ mem.st.leases = [⟨1, 1, 10⟩] := by
  have h : (replayRecords hdrSize hiddenLog (Mem.start 0)).map
      (fun mem => (mem.nextMsgId, mem.st.leases)) =
      some (1, [⟨1, 1, 10⟩]) := by
    decide +kernel
  obtain ⟨mem, hmem, heq⟩ := Option.map_eq_some_iff.mp h
  injection heq with h1 h2
  exact ⟨mem, hmem, h1, h2⟩

/-- After a push that hides its message an overdue lease stays. -/
theorem expire_skips_hidden :
    ¬ ∀ (s₀ s s' : Sys) (as : List Act) (now : UInt64) (n : Int32) (db : Db)
        (st : State), s₀.Starts → Run Sys.Returns s₀ as s →
      s.step ⟨now, .processExpired⟩ = some (.count n, s') →
      s'.db = some db → db.state = some st →
      ∀ l ∈ st.leases, ¬ l.expiryUs < now := by
  intro hall
  have hlen : (encodeLog hiddenLog).length ≤ 2 ^ 29 :=
    le_trans (length_encodeLog_le _) (by decide)
  obtain ⟨mem, hrep, hnext, hls⟩ := hiddenLog_replay
  obtain ⟨s₀, v, c, hs, his, hc, hmem, hroom⟩ := shortLog_starts hlen hrep
  obtain ⟨s, hpush, his'⟩ := his.push_second hc hroom
  obtain ⟨db, i, hdb, hlive⟩ := his'.atTime 100
  have hdb : s.db = some db := hdb
  generalize hv' : v.log (pushRecord v.mem.nextMsgId secondBody)
    (v.pushed secondBody) = v' at hlive
  obtain ⟨m, hid, hm, hst⟩ : ∃ m, m.id = v.mem.nextMsgId ∧
      m.state = .pending ∧ v'.mem.st = v.mem.st.addMsg m := by
    rw [← hv']
    exact ⟨_, rfl, rfl, rfl⟩
  have hb : v'.mem.st.leaseBuckets = v.mem.st.leaseBuckets := by
    rw [hst, State.leaseBuckets_addMsg]
  have hls' : v'.mem.st.leases = [⟨1, 1, 10⟩] := by
    rw [← hls, ← hmem]
    exact congrArg Table.toList hb
  obtain ⟨x, hx, hpend⟩ : ∃ x, v'.mem.st.msgGet 1 = some x ∧
      x.state = .pending := by
    have hcore := State.coreGet_addMsg v.mem.st m 1
    rw [hid, hmem, hnext, if_pos rfl, ← hmem, ← hst] at hcore
    obtain ⟨x, hx, hxm⟩ := Option.map_eq_some_iff.mp hcore
    exact ⟨x, hx, (congrArg Msg.state hxm).trans hm⟩
  have hr : v'.expire 1 1 = .refuse (.code .ok) := by
    unfold View.expire
    rw [hx]
    exact if_pos (Or.inl (by rw [hpend]; decide))
  have hskip : v'.expireAll 100 [⟨1, 1, 10⟩] = v' := by
    rw [View.expireAll_cons, View.expireAll_nil]
    unfold View.expireStep
    rw [if_pos (by decide), hr]
    rfl
  have hplaced := hc.shows.rep.placed.leases
  rw [← hb] at hplaced
  obtain ⟨⟨res, db'⟩, w', hexp, -, rc, v'', db'', hres, hdb', hend, hlive'⟩ :=
    (wp_processExpired hlive hplaced).run (faulty_posix False)
  rw [hls'] at hres hend
  rcases hend with ⟨rfl, hv''⟩ | ⟨rfl, ls1, l, ls2, hsplit, -, ho⟩
  swap
  · obtain ⟨rfl, rfl⟩ : ls1 = [] ∧ (⟨1, 1, 10⟩ : Lease) = l := by
      cases ls1 with
      | nil =>
          exact ⟨rfl, (List.cons.inj hsplit).1⟩
      | cons k ls1 =>
          exact absurd (List.cons.inj hsplit).2.symm (by simp)
    rw [View.expireAll_nil] at ho
    dsimp only at ho
    rw [hr] at ho
    cases ho
  have hw : ({ s.world with now := 100 } : World).now = 100 := rfl
  rw [hv'', hw, hskip] at hlive'
  have hstep : s.step ⟨100, .processExpired⟩ =
      some (.count 1, ⟨w', some db''⟩) := by
    unfold Sys.step
    rw [hdb]
    change (Prog.run posix (callCmd (some db) .processExpired)
      { s.world with now := 100 }).map _ = _
    rw [hexp, Option.map_some]
    obtain rfl : res = _ := hres
    obtain rfl : db' = _ := hdb'
    rfl
  have hno := hall s₀ s _ _ 100 1 db'' v'.mem.st hs
    (.snoc .nil (.call hpush)) hstep rfl hlive'.state ⟨1, 1, 10⟩
    (by rw [hls']; exact List.mem_singleton_self _)
  exact hno (by decide)

end Qdb
