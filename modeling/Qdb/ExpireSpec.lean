import Qdb.CallSpec

/-!
# Expiry on an open handle

`qdb_process_expired_leases` walks the buckets of the lease table and expires
one lease after the other, each with a record and a header update of its own.
Expiring a lease changes no other bucket, so the whole call expires the leases
in the order in which the table lists them at the start.
-/

namespace Qdb

open Lib

/-- The file while the leases `ls` expire one after the other. -/
def ExpireDuring (F : Prop) (now : UInt64) (v : View) (ls : List Lease)
    (s : FileState) : Prop :=
  (∃ ls1 ls2, ls = ls1 ++ ls2 ∧ (v.expireAll now ls1).Holds F s) ∨
    (∃ ls1 l ls2, ls = ls1 ++ l :: ls2 ∧
      During F (v.expireAll now ls1) (v.expireAll now (ls1 ++ [l])) s)

/-- How the expiry of the leases `ls` may end: all of them are done, or one
failed. -/
def ExpireEnd (F : Prop) (now : UInt64) (v : View) (ls : List Lease)
    (rc : Rc) (v' : View) : Prop :=
  (rc = .ok ∧ v' = v.expireAll now ls) ∨
    (rc = .errIo ∧ ∃ ls1 l ls2, ls = ls1 ++ l :: ls2 ∧ l.expiryUs < now ∧
      ((v.expireAll now ls1).expire l.leaseId l.msgId).Outcome F
        (v.expireAll now ls1) (.code .errIo) v')

/-- The number of leases among `ls` that have expired. -/
def expiredCount (now : UInt64) (ls : List Lease) : Nat :=
  ls.countP (fun l => decide (l.expiryUs < now))

section Lists

variable {F : Prop} {now : UInt64} {v v' : View} {ls ls' : List Lease}
variable {s : FileState} {rc : Rc}

theorem ExpireDuring.start (h : v.Holds F s) : ExpireDuring F now v ls s :=
  Or.inl ⟨[], ls, rfl, h⟩

theorem ExpireDuring.left (h : ExpireDuring F now v ls s) :
    ExpireDuring F now v (ls ++ ls') s := by
  rcases h with ⟨ls1, ls2, rfl, h⟩ | ⟨ls1, l, ls2, rfl, h⟩
  · exact Or.inl ⟨ls1, ls2 ++ ls', by simp, h⟩
  · exact Or.inr ⟨ls1, l, ls2 ++ ls', by simp, h⟩

theorem ExpireDuring.right (ls : List Lease)
    (h : ExpireDuring F now (v.expireAll now ls) ls' s) :
    ExpireDuring F now v (ls ++ ls') s := by
  rcases h with ⟨ls1, ls2, rfl, h⟩ | ⟨ls1, l, ls2, rfl, h⟩
  · refine Or.inl ⟨ls ++ ls1, ls2, by simp, ?_⟩
    rw [View.expireAll_append]
    exact h
  · refine Or.inr ⟨ls ++ ls1, l, ls2, by simp, ?_⟩
    rw [List.append_assoc, View.expireAll_append, View.expireAll_append]
    exact h

theorem ExpireEnd.left (h : ExpireEnd F now v ls .errIo v') :
    ExpireEnd F now v (ls ++ ls') .errIo v' := by
  rcases h with ⟨h, -⟩ | ⟨-, ls1, l, ls2, rfl, hl, h⟩
  · cases h
  · exact Or.inr ⟨rfl, ls1, l, ls2 ++ ls', by simp, hl, h⟩

theorem ExpireEnd.right (ls : List Lease)
    (h : ExpireEnd F now (v.expireAll now ls) ls' rc v') :
    ExpireEnd F now v (ls ++ ls') rc v' := by
  rcases h with ⟨rfl, rfl⟩ | ⟨rfl, ls1, l, ls2, rfl, hl, h⟩
  · exact Or.inl ⟨rfl, (View.expireAll_append ..).symm⟩
  · refine Or.inr ⟨rfl, ls ++ ls1, l, ls2, by simp, hl, ?_⟩
    rw [View.expireAll_append]
    exact h

theorem ExpireEnd.rc_eq (h : ExpireEnd F now v ls rc v') (hrc : rc ≠ .ok) :
    rc = .errIo := by
  rcases h with ⟨rfl, -⟩ | ⟨rfl, -⟩
  · exact absurd rfl hrc
  · rfl

end Lists

section Buckets

variable {now : UInt64} {v : View}

theorem leaseBuckets_qdbNackState (st : State) (m : Msg) (l : UInt64) :
    (qdbNackState st m l).leaseBuckets = (st.leaseRemove l).leaseBuckets := by
  unfold qdbNackState
  cases st.queueGet m.queueName with
  | none =>
      rfl
  | some q =>
      dsimp only
      rw [State.leaseBuckets_queuePendingAppend]
      rfl

theorem leaseBuckets_leaseRemove (st : State) {l : UInt64} {b : Fin 1024}
    (hb : leaseBucket l ≠ b) :
    (st.leaseRemove l).leaseBuckets b = st.leaseBuckets b := by
  unfold State.leaseRemove
  cases st.leaseGet l with
  | none =>
      rfl
  | some _ =>
      exact Function.update_of_ne hb.symm _ _

/-- Expiry of a lease changes no other bucket. -/
theorem leaseBuckets_expireStep {l : Lease} {b : Fin 1024}
    (hb : leaseBucket l.leaseId ≠ b) :
    (v.expireStep now l).mem.st.leaseBuckets b =
      v.mem.st.leaseBuckets b := by
  unfold View.expireStep View.expire
  split
  · cases v.mem.st.msgGet l.msgId with
    | none =>
        rfl
    | some m =>
        dsimp only
        split
        · rfl
        · change (qdbNackState v.mem.st m l.leaseId).leaseBuckets b = _
          rw [leaseBuckets_qdbNackState, leaseBuckets_leaseRemove _ hb]
  · rfl

theorem leaseBuckets_expireAll {ls : List Lease} {b : Fin 1024}
    (hb : ∀ l ∈ ls, leaseBucket l.leaseId ≠ b) :
    (v.expireAll now ls).mem.st.leaseBuckets b =
      v.mem.st.leaseBuckets b := by
  induction ls generalizing v with
  | nil =>
      rfl
  | cons l ls ih =>
      rw [View.expireAll_cons, ih (fun l' hl' => hb l' (by simp [hl'])),
        leaseBuckets_expireStep (hb l (by simp))]

end Buckets

section Loops

variable {F : Prop} {w : World} {db : Db} {v : View} {i : Nat}

/-- The counter behind one list of leases and another one. -/
theorem count_append (n : Int32) (k j : Nat) :
    n + Int32.ofNat k + Int32.ofNat j = n + Int32.ofNat (k + j) := by
  rw [Int32.ofNat_add, Int32.add_assoc]

/-- The chain loop. -/
theorem wp_expireChain (now : UInt64) (ls : List Lease)
    (h : Live F w db v i) (n : Int32) :
    Prog.Wp (Faulty F) (InFile i w (ExpireDuring F now v ls))
      (expireChain now ls db n) w (fun x w' =>
        w.SameBut i w' ∧
          (x.1 = .ok → x.2.2 = n + Int32.ofNat (expiredCount now ls)) ∧
          ∃ v', ExpireEnd F now v ls x.1 v' ∧ Live F w' x.2.1 v' i) := by
  induction ls generalizing w db v n with
  | nil =>
      exact Prog.wp_pure (InFile.refl (ExpireDuring.start h.keeps))
        ⟨World.SameBut.refl i w, fun _ => (Int32.add_zero n).symm, v,
          Or.inl ⟨rfl, rfl⟩, h⟩
  | cons l ls ih =>
      unfold expireChain
      by_cases hl : l.expiryUs < now
      swap
      · have hv : v.expireStep now l = v := if_neg hl
        have hc : expiredCount now (l :: ls) = expiredCount now ls :=
          List.countP_cons_of_neg (by simpa using hl)
        rw [if_neg hl, hc]
        apply (ih h n).mono
        · rintro w' ⟨hs, hw'⟩
          refine ⟨hs, ExpireDuring.right [l] ?_⟩
          rw [View.expireAll_cons, hv]
          exact hw'
        · rintro x w' ⟨hs, hx, v', hv', h'⟩
          refine ⟨hs, hx, v', ExpireEnd.right [l] ?_, h'⟩
          rw [View.expireAll_cons, hv]
          exact hv'
      have hv : v.expireStep now l = v.after (v.expire l.leaseId l.msgId) :=
        if_pos hl
      have hc : expiredCount now (l :: ls) = expiredCount now ls + 1 :=
        List.countP_cons_of_pos (by simpa using hl)
      rw [if_pos hl, h.state]
      dsimp only
      apply Prog.wp_seq ((wp_expireOne h l.leaseId l.msgId).mono
        (J := InFile i w (ExpireDuring F now v (l :: ls))) ?_
        (fun _ _ hq => hq))
      swap
      · rintro w' ⟨hs, hw'⟩
        refine ⟨hs, Or.inr ⟨[], l, ls, rfl, ?_⟩⟩
        rw [List.nil_append, View.expireAll_cons, View.expireAll_nil,
          View.expireAll_nil, hv]
        exact hw'
      rintro ⟨rc, db1⟩ w1 hi1 ⟨hs1, ⟨v1, ho, h1⟩, -⟩
      dsimp only at ho h1 ⊢
      rcases ho.inv with ⟨hres, rfl⟩ | ⟨hres, -⟩
      swap
      · cases hres
        rw [if_pos (by simp)]
        refine Prog.wp_pure hi1 ⟨hs1, fun h0 => ?_, v1, ?_, h1⟩
        · cases h0
        · exact Or.inr ⟨rfl, [], l, ls, rfl, hl, ho⟩
      rw [View.expire_result] at hres
      cases hres
      rw [if_neg (by simp)]
      apply (ih h1 (n + 1)).mono
      · rintro w' ⟨hs, hw'⟩
        refine ⟨hs1.trans hs, ExpireDuring.right [l] ?_⟩
        rw [View.expireAll_cons, hv]
        exact hw'
      · rintro x w' ⟨hs, hx, v', hv', h'⟩
        refine ⟨hs1.trans hs, ?_, v', ExpireEnd.right [l] ?_, h'⟩
        · intro h0
          rw [hx h0, hc, Nat.add_comm, ← count_append]
          rfl
        · rw [View.expireAll_cons, hv]
          exact hv'

/-- The bucket loop; `chain` is the lease table at its start. -/
theorem wp_expireBuckets (now : UInt64) (chain : Fin 1024 → List Lease)
    (hplaced : ∀ b, ∀ l ∈ chain b, leaseBucket l.leaseId = b)
    (bs : List (Fin 1024)) (hnd : bs.Nodup)
    (h : Live F w db v i)
    (hchain : ∀ b ∈ bs, v.mem.st.leaseBuckets b = chain b) (n : Int32) :
    Prog.Wp (Faulty F) (InFile i w (ExpireDuring F now v (bs.flatMap chain)))
      (expireBuckets now bs db n) w (fun x w' =>
        w.SameBut i w' ∧
          (x.1 = .ok →
            x.2.2 = n + Int32.ofNat (expiredCount now (bs.flatMap chain))) ∧
          ∃ v', ExpireEnd F now v (bs.flatMap chain) x.1 v' ∧
            Live F w' x.2.1 v' i) := by
  induction bs generalizing w db v n with
  | nil =>
      exact Prog.wp_pure (InFile.refl (ExpireDuring.start h.keeps))
        ⟨World.SameBut.refl i w, fun _ => (Int32.add_zero n).symm, v,
          Or.inl ⟨rfl, rfl⟩, h⟩
  | cons b bs ih =>
      obtain ⟨hb, hnd⟩ := List.nodup_cons.mp hnd
      unfold expireBuckets
      rw [h.state]
      dsimp only
      rw [hchain b (by simp), List.flatMap_cons]
      apply Prog.wp_seq ((wp_expireChain now (chain b) h n).mono
        (fun w' hw' => ⟨hw'.1, ExpireDuring.left hw'.2⟩) (fun _ _ hq => hq))
      rintro ⟨rc, db1, n1⟩ w1 hi1 ⟨hs1, hn1, v1, hv1, h1⟩
      dsimp only at hn1 hv1 h1 ⊢
      by_cases hrc : rc = .ok
      swap
      · have hio := hv1.rc_eq hrc
        subst hio
        rw [if_pos hrc]
        exact Prog.wp_pure hi1
          ⟨hs1, fun h0 => absurd h0 hrc, v1, hv1.left, h1⟩
      subst hrc
      rw [if_neg (by simp)]
      rcases hv1 with ⟨-, rfl⟩ | ⟨h0, -⟩
      swap
      · cases h0
      have hchain1 : ∀ b' ∈ bs,
          (v.expireAll now (chain b)).mem.st.leaseBuckets b' = chain b' := by
        intro b' hb'
        rw [leaseBuckets_expireAll, hchain b' (by simp [hb'])]
        intro l hl heq
        rw [hplaced b l hl] at heq
        exact hb (heq ▸ hb')
      apply (ih hnd h1 hchain1 n1).mono
      · rintro w' ⟨hs, hw'⟩
        exact ⟨hs1.trans hs, ExpireDuring.right _ hw'⟩
      · rintro x w' ⟨hs, hx, v', hv', h'⟩
        refine ⟨hs1.trans hs, ?_, v', ExpireEnd.right _ hv', h'⟩
        intro h0
        rw [hx h0, hn1 rfl, count_append]
        unfold expiredCount
        rw [List.countP_append]

/-- `qdb_process_expired_leases` -/
theorem wp_processExpired (h : Live F w db v i)
    (hplaced : Table.WellPlaced leaseBucket Lease.leaseId
      v.mem.st.leaseBuckets) :
    Prog.Wp (Faulty F)
      (InFile i w (ExpireDuring F w.now v v.mem.st.leases))
      (callCmd (some db) .processExpired) w (fun x w' =>
        w.SameBut i w' ∧ ∃ rc v' db',
          x.1 = .ofExpire rc
            (Int32.ofNat (expiredCount w.now v.mem.st.leases)) ∧
          x.2 = some db' ∧ ExpireEnd F w.now v v.mem.st.leases rc v' ∧
          Live F w' db' v' i) := by
  have hls : v.mem.st.leases =
      (List.finRange 1024).flatMap v.mem.st.leaseBuckets := rfl
  have hnd := List.nodup_finRange 1024
  rw [hls]
  unfold callCmd qdbProcessExpiredLeases
  generalize List.finRange 1024 = bs at *
  apply Prog.wp_seq (wp_reads (reads_timeUs w)
    (wp_expireBuckets w.now v.mem.st.leaseBuckets hplaced.placed
      bs hnd h (fun _ _ => rfl) 0))
  rintro ⟨rc, db1, n1⟩ w1 hi1 ⟨hs1, hn1, v1, hv1, h1⟩
  refine Prog.wp_pure hi1 ⟨hs1, rc, v1, db1, ?_, rfl, hv1, h1⟩
  dsimp only at hn1 ⊢
  unfold Result.ofExpire
  split
  · next hrc =>
    rw [hn1 hrc, Int32.zero_add]
  · rfl

end Loops

end Qdb
