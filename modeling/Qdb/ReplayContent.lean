import Qdb.Content

/-!
# Replay of a list of records

Replay of a log seen through the content of the tables: which logs are accepted
and what they say does not depend on the counters replay starts with, and the
counters are a fold of their own over the records.  Once the message counter is
above all ids, replaying the same log from it leaves it where it is; this is why
the counter in the header can be any value a run has stored there.
-/

namespace Qdb

open Lib

/-- Effect of one record whose first byte is at `off` on the content. -/
def Record.effect (r : Record) (off : UInt64) (c : Content) :
    Option Content :=
  r.entry.bind (c.apply (off + recHdrSize))

/-- Effect of a list of records that starts at `off`. -/
def replayContent : UInt64 → List Record → Content → Option Content
  | _, [], c => some c
  | off, r :: rs, c =>
      (r.effect off c).bind (replayContent (off + UInt64.ofNat r.size) rs)

/-- `next_msg_id` after a record. -/
def Record.bumpMsg (n : UInt64) (r : Record) : UInt64 :=
  (r.entry.map (Entry.bumpMsg n)).getD n

/-- `next_lease_id` after a record. -/
def Record.bumpLease (n : UInt64) (r : Record) : UInt64 :=
  (r.entry.map (Entry.bumpLease n)).getD n

/-- `next_msg_id` after a list of records. -/
def countMsg (rs : List Record) (n : UInt64) : UInt64 :=
  rs.foldl Record.bumpMsg n

/-- `next_lease_id` after a list of records. -/
def countLease (rs : List Record) (n : UInt64) : UInt64 :=
  rs.foldl Record.bumpLease n

theorem replayContent_append (rs rs' : List Record) (off : UInt64)
    (c : Content) :
    replayContent off (rs ++ rs') c =
      (replayContent off rs c).bind
        (replayContent (off + UInt64.ofNat (encodeLog rs).length) rs') := by
  induction rs generalizing off c with
  | nil =>
      simp [replayContent]
  | cons r rs ih =>
      simp only [List.cons_append, replayContent, Option.bind_assoc]
      congr 1
      funext c'
      rw [ih]
      congr 2
      simp [UInt64.add_assoc]

theorem replayContent_singleton (r : Record) (off : UInt64) (c : Content) :
    replayContent off [r] c = r.effect off c := by
  simp [replayContent]

theorem replayRecords_singleton (r : Record) (off : UInt64) (mem : Mem) :
    replayRecords off [r] mem = r.replay off mem := by
  simp [replayRecords]

section Counters

variable {mem mem' : Mem} {off : UInt64}

/-- An entry moves the counters in a way that depends on nothing else. -/
theorem Mem.apply_counters {e : Entry} (h : mem.apply off e = some mem')
    (a b : UInt64) :
    Mem.apply ⟨a, b, mem.st⟩ off e =
      some ⟨e.bumpMsg a, e.bumpLease b, mem'.st⟩ := by
  have hresolve : ∀ {resolve : State → Queue → Msg → UInt64 → State}
      {id l : UInt64}, mem.applyResolve resolve id l = some mem' →
      Mem.applyResolve ⟨a, b, mem.st⟩ resolve id l =
        some ⟨a, b, mem'.st⟩ := by
    intro resolve id l h
    unfold Mem.applyResolve at h ⊢
    cases hm : mem.st.msgGet id with
    | none =>
        rw [hm] at h
        cases h
    | some m =>
        rw [hm] at h
        dsimp only at h ⊢
        split at h
        · cases h
        rename_i h1
        split at h
        · cases h
        rename_i h2
        rw [if_neg h1, if_neg h2]
        cases hq : mem.st.queueGet m.queueName with
        | none =>
            rw [hq] at h
            cases h
        | some q =>
            rw [hq] at h
            cases h
            rfl
  cases e with
  | push id name data =>
      simp only [Mem.apply] at h ⊢
      split at h
      · cases h
      rename_i h1
      split at h
      · cases h
      rename_i h2
      cases h
      rw [if_neg h1, if_neg h2]
      rfl
  | lease id e l =>
      change Mem.applyLease _ id e l = _
      change Mem.applyLease _ id e l = _ at h
      unfold Mem.applyLease at h ⊢
      split at h
      · cases h
      rename_i h1
      rw [if_neg h1]
      cases hm : mem.st.msgGet id with
      | none =>
          rw [hm] at h
          cases h
      | some m =>
          rw [hm] at h
          dsimp only at h ⊢
          split at h
          · cases h
          rename_i h2
          split at h
          · cases h
          rename_i h3
          rw [if_neg h2, if_neg h3]
          cases hq : mem.st.queueGet m.queueName with
          | none =>
              rw [hq] at h
              cases h
          | some q =>
              rw [hq] at h
              cases h
              rfl
  | ack id l =>
      exact hresolve h
  | nack id l =>
      exact hresolve h
  | expire id l =>
      exact hresolve h
  | checkpoint nm nl =>
      cases h
      rfl
  | padding =>
      cases h
      rfl

theorem Record.replay_counters {r : Record} (h : r.replay off mem = some mem')
    (a b : UInt64) :
    r.replay off ⟨a, b, mem.st⟩ =
      some ⟨r.bumpMsg a, r.bumpLease b, mem'.st⟩ := by
  unfold Record.replay at h ⊢
  obtain ⟨e, he, ha⟩ := Option.bind_eq_some_iff.mp h
  rw [he, Option.bind_some, Mem.apply_counters ha a b]
  simp [Record.bumpMsg, Record.bumpLease, he]

/-- The tables replay builds do not depend on the counters. -/
theorem replayRecords_counters {rs : List Record}
    (h : replayRecords off rs mem = some mem') (a b : UInt64) :
    replayRecords off rs ⟨a, b, mem.st⟩ =
      some ⟨countMsg rs a, countLease rs b, mem'.st⟩ := by
  induction rs generalizing off mem a b with
  | nil =>
      cases h
      rfl
  | cons r rs ih =>
      obtain ⟨mem1, h1, h2⟩ := Option.bind_eq_some_iff.mp h
      unfold replayRecords
      rw [Record.replay_counters h1 a b, Option.bind_some]
      exact ih h2 _ _

theorem replayRecords_counts {rs : List Record}
    (h : replayRecords off rs mem = some mem') :
    mem'.nextMsgId = countMsg rs mem.nextMsgId ∧
      mem'.nextLeaseId = countLease rs mem.nextLeaseId := by
  have hc := replayRecords_counters h mem.nextMsgId mem.nextLeaseId
  rw [show (⟨mem.nextMsgId, mem.nextLeaseId, mem.st⟩ : Mem) = mem from rfl,
    h] at hc
  have he := Option.some.inj hc
  rw [he]
  exact ⟨rfl, rfl⟩

end Counters

section Refinement

variable {mem mem' : Mem} {c c' : Content} {off : UInt64}

theorem State.Shows.replay_record (h : mem.st.Shows c) (off : UInt64)
    (r : Record) :
    match r.effect off c with
    | none => r.replay off mem = none
    | some c' => ∃ mem', r.replay off mem = some mem' ∧ mem'.st.Shows c' := by
  unfold Record.effect Record.replay
  cases r.entry with
  | none =>
      rfl
  | some e =>
      have ha := h.apply (off + recHdrSize) e
      simp only [Option.bind_some]
      cases hc : c.apply (off + recHdrSize) e with
      | none =>
          rw [hc] at ha
          exact ha
      | some c' =>
          rw [hc] at ha
          obtain ⟨st', hst, hs⟩ := ha
          exact ⟨_, hst, hs⟩

/-- Replay refines its effect on the content. -/
theorem State.Shows.replay (h : mem.st.Shows c) (off : UInt64)
    (rs : List Record) :
    match replayContent off rs c with
    | none => replayRecords off rs mem = none
    | some c' => ∃ mem', replayRecords off rs mem = some mem' ∧
        mem'.st.Shows c' := by
  induction rs generalizing off mem c with
  | nil =>
      exact ⟨mem, rfl, h⟩
  | cons r rs ih =>
      have hr := h.replay_record off r
      unfold replayContent replayRecords
      cases hc : r.effect off c with
      | none =>
          rw [hc] at hr
          rw [hr]
          rfl
      | some c1 =>
          rw [hc] at hr
          obtain ⟨mem1, hm1, hs1⟩ := hr
          rw [hm1, Option.bind_some, Option.bind_some]
          exact ih hs1 _

theorem State.Shows.replay_some (h : mem.st.Shows c) {rs : List Record}
    (hc : replayContent off rs c = some c') :
    ∃ mem', replayRecords off rs mem = some mem' ∧ mem'.st.Shows c' := by
  have hr := h.replay off rs
  rw [hc] at hr
  exact hr

theorem State.Shows.of_replay (h : mem.st.Shows c) {rs : List Record}
    (hm : replayRecords off rs mem = some mem') :
    ∃ c', replayContent off rs c = some c' ∧ mem'.st.Shows c' := by
  have hr := h.replay off rs
  cases hc : replayContent off rs c with
  | none =>
      rw [hc] at hr
      rw [hr] at hm
      cases hm
  | some c' =>
      rw [hc] at hr
      obtain ⟨mem1, hm1, hs1⟩ := hr
      rw [hm1] at hm
      cases hm
      exact ⟨c', rfl, hs1⟩

end Refinement

section Above

variable {c c' : Content} {off : UInt64}

/-- A message stays in the tables. -/
theorem Content.apply_msg_isSome {e : Entry} (h : c.apply off e = some c')
    {id : UInt64} (hid : (c.msg id).isSome) : (c'.msg id).isSome := by
  have hupd : ∀ (k : UInt64) (m : Msg),
      (Function.update c.msg k (some m) id).isSome := by
    intro k m
    by_cases hk : id = k
    · subst hk
      simp
    · rw [Function.update_of_ne hk]
      exact hid
  cases e with
  | push id' name data =>
      obtain ⟨-, -, rfl⟩ := Content.apply_push.mp h
      exact hupd _ _
  | lease id' e l =>
      obtain ⟨m, -, rfl⟩ := Option.map_eq_some_iff.mp h
      exact hupd _ _
  | ack id' l =>
      obtain ⟨m, -, rfl⟩ := Option.map_eq_some_iff.mp h
      exact hupd _ _
  | nack id' l =>
      obtain ⟨m, -, rfl⟩ := Option.map_eq_some_iff.mp h
      exact hupd _ _
  | expire id' l =>
      obtain ⟨m, -, rfl⟩ := Option.map_eq_some_iff.mp h
      exact hupd _ _
  | checkpoint nm nl =>
      cases h
      exact hid
  | padding =>
      cases h
      exact hid

theorem replayContent_msg_isSome {rs : List Record}
    (h : replayContent off rs c = some c') {id : UInt64}
    (hid : (c.msg id).isSome) : (c'.msg id).isSome := by
  induction rs generalizing off c with
  | nil =>
      cases h
      exact hid
  | cons r rs ih =>
      obtain ⟨c1, h1, h2⟩ := Option.bind_eq_some_iff.mp h
      obtain ⟨e, -, ha⟩ := Option.bind_eq_some_iff.mp h1
      exact ih h2 (Content.apply_msg_isSome ha hid)

/-- A counter above all ids is where it was after one more replay. -/
theorem countMsg_above {rs : List Record}
    (h : replayContent off rs c = some c') {a : UInt64}
    (hid : ∀ id, (c'.msg id).isSome → id < countMsg rs a) :
    a ≤ countMsg rs a ∧ ∀ b, countMsg rs a ≤ b → countMsg rs b = b := by
  induction rs generalizing off c a with
  | nil =>
      exact ⟨UInt64.le_refl _, fun _ _ => rfl⟩
  | cons r rs ih =>
      obtain ⟨c1, h1, h2⟩ := Option.bind_eq_some_iff.mp h
      obtain ⟨e, he, ha⟩ := Option.bind_eq_some_iff.mp h1
      obtain ⟨hle, hfix⟩ := ih h2 hid
      have hbump : ∀ n, r.bumpMsg n = e.bumpMsg n := by
        intro n
        simp [Record.bumpMsg, he]
      change a ≤ countMsg rs (r.bumpMsg a) ∧ _
      change ∀ id, _ → id < countMsg rs (r.bumpMsg a) at hid
      obtain ⟨n, hn⟩ : ∃ n, n = countMsg rs (r.bumpMsg a) := ⟨_, rfl⟩
      rw [hbump] at hle hfix hid hn ⊢
      rw [← hn] at hle hfix hid ⊢
      suffices hstep : a ≤ n ∧ ∀ b, n ≤ b → e.bumpMsg b = b by
        refine ⟨hstep.1, fun b hb => ?_⟩
        have hb' : n ≤ b := by
          rw [hn, ← hbump]
          exact hb
        change countMsg rs (r.bumpMsg b) = b
        rw [hbump, hstep.2 b hb']
        exact hfix b hb'
      cases e with
      | push id name data =>
          have hid1 : (c1.msg id).isSome := by
            obtain ⟨-, -, rfl⟩ := Content.apply_push.mp ha
            simp [Content.addMsg, newMsg]
          have hlt := hid id (replayContent_msg_isSome h2 hid1)
          unfold Entry.bumpMsg at hle ⊢
          grind
      | checkpoint nm nl =>
          unfold Entry.bumpMsg at hle ⊢
          grind
      | lease id e l =>
          exact ⟨hle, fun _ _ => rfl⟩
      | ack id l =>
          exact ⟨hle, fun _ _ => rfl⟩
      | nack id l =>
          exact ⟨hle, fun _ _ => rfl⟩
      | expire id l =>
          exact ⟨hle, fun _ _ => rfl⟩
      | padding =>
          exact ⟨hle, fun _ _ => rfl⟩

end Above

end Qdb
