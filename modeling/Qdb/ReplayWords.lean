import Qdb.ReplaySpec
import Qdb.ReplayContent
import Qdb.Image

/-!
# The language of accepted logs

Replay walks the log once and checks every record against three tables.  What it
accepts can be said without tables: payloads have the shape of their type, no
message is pushed twice, the records about one message come after its PUSH and
spell a word

  (LEASE (NACK | EXPIRE))* (nothing | LEASE | LEASE ACK)

with equal lease ids in each pair, and at no point do two messages hold leases
of one id.  `replayLog_accepts` proves that `qdb__replay_log` accepts exactly
these logs, reports corruption on all others, and leaves every message in the
state its own word spells.
-/

namespace Qdb

open Lib

/-- What a record can do to a message that is there. -/
inductive MsgOp
  | lease (l : UInt64)
  | ack (l : UInt64)
  | nack (l : UInt64)
  | expire (l : UInt64)
deriving DecidableEq

namespace MsgOp

/-- The history of one message after its PUSH. -/
inductive Word : List MsgOp → Prop
  | waiting : Word []
  | leased (l : UInt64) : Word [.lease l]
  | acked (l : UInt64) : Word [.lease l, .ack l]
  | nacked (l : UInt64) {w : List MsgOp} (hw : Word w) :
      Word (.lease l :: .nack l :: w)
  | expired (l : UInt64) {w : List MsgOp} (hw : Word w) :
      Word (.lease l :: .expire l :: w)

/-- State a message is in after its last operation. -/
def stateAfter : Option MsgOp → MsgState
  | some (.lease _) => .leased
  | some (.ack _) => .acked
  | _ => .pending

/-- Lease a message is held under after its last operation. -/
def leaseAfter : Option MsgOp → Option UInt64
  | some (.lease l) => some l
  | _ => none

/-- A nack or an expiry. -/
def returns : MsgOp → Bool
  | .nack _ => true
  | .expire _ => true
  | _ => false

/-- The next operation fits the last one. -/
def Follows (last : Option MsgOp) : MsgOp → Prop
  | .lease _ => stateAfter last = .pending
  | .ack l => leaseAfter last = some l
  | .nack l => leaseAfter last = some l
  | .expire l => leaseAfter last = some l

/-- A returned message is as good as one never leased. -/
theorem follows_return {last : MsgOp} (h : last.returns = true)
    (w : List MsgOp) (o x : MsgOp) :
    Follows (o :: last :: w).getLast? x ↔ Follows w.getLast? x := by
  rw [List.getLast?_cons_cons]
  cases w with
  | nil =>
      cases last <;> cases x <;>
        simp_all [Follows, stateAfter, leaseAfter, returns]
  | cons y w =>
      rw [List.getLast?_cons_cons]

theorem Word.append {w : List MsgOp} (h : Word w) {x : MsgOp}
    (hx : Follows w.getLast? x) : Word (w ++ [x]) := by
  induction h with
  | waiting =>
      cases x with
      | lease l =>
          exact .leased l
      | ack l =>
          cases hx
      | nack l =>
          cases hx
      | expire l =>
          cases hx
  | leased l =>
      cases x with
      | lease l' =>
          cases hx
      | ack l' =>
          cases hx
          exact .acked l
      | nack l' =>
          cases hx
          exact .nacked l .waiting
      | expire l' =>
          cases hx
          exact .expired l .waiting
  | acked l =>
      cases x <;> cases hx
  | nacked l hw ih =>
      exact .nacked l (ih ((follows_return rfl _ _ x).mp hx))
  | expired l hw ih =>
      exact .expired l (ih ((follows_return rfl _ _ x).mp hx))

/-- A lease and its return in front: either the return is the last letter, or
the rest of the word ends in the same letter. -/
theorem of_append_return {l : UInt64} {o x : MsgOp} {u w : List MsgOp}
    (ho : o.returns = true) (hfirst : Follows (some (.lease l)) o)
    (hword : ∀ {u' : List MsgOp}, Word u' → Word (.lease l :: o :: u'))
    (ih : ∀ {w' : List MsgOp} {x' : MsgOp}, u = w' ++ [x'] →
      Word w' ∧ Follows w'.getLast? x')
    (heq : MsgOp.lease l :: o :: u = w ++ [x]) :
    Word w ∧ Follows w.getLast? x := by
  rcases List.eq_nil_or_concat u with rfl | ⟨u', y, rfl⟩
  · have hsplit : [MsgOp.lease l] ++ [o] = w ++ [x] := heq
    obtain ⟨rfl, hx⟩ := List.append_inj' hsplit rfl
    cases hx
    exact ⟨.leased l, hfirst⟩
  · have hsplit : (MsgOp.lease l :: o :: u') ++ [y] = w ++ [x] := by
      simpa using heq
    obtain ⟨rfl, hx⟩ := List.append_inj' hsplit rfl
    cases hx
    obtain ⟨hw, hf⟩ := ih (List.concat_eq_append ..)
    exact ⟨hword hw, (follows_return ho _ _ _).mpr hf⟩

theorem Word.of_append {v : List MsgOp} (h : Word v) :
    ∀ {w : List MsgOp} {x : MsgOp}, v = w ++ [x] →
      Word w ∧ Follows w.getLast? x := by
  induction h with
  | waiting =>
      intro w x heq
      simp at heq
  | leased l =>
      intro w x heq
      have hsplit : [] ++ [MsgOp.lease l] = w ++ [x] := heq
      obtain ⟨rfl, hx⟩ := List.append_inj' hsplit rfl
      cases hx
      exact ⟨.waiting, rfl⟩
  | acked l =>
      intro w x heq
      have hsplit : [MsgOp.lease l] ++ [MsgOp.ack l] = w ++ [x] := heq
      obtain ⟨rfl, hx⟩ := List.append_inj' hsplit rfl
      cases hx
      exact ⟨.leased l, rfl⟩
  | nacked l hw ih =>
      intro w x heq
      exact of_append_return (o := .nack l) rfl rfl (Word.nacked l) ih heq
  | expired l hw ih =>
      intro w x heq
      exact of_append_return (o := .expire l) rfl rfl (Word.expired l) ih heq

/-- A word grows by the operations that follow its last one. -/
theorem word_append_iff {w : List MsgOp} {x : MsgOp} :
    Word (w ++ [x]) ↔ Word w ∧ Follows w.getLast? x := by
  constructor
  · intro h
    exact h.of_append rfl
  · rintro ⟨h, hx⟩
    exact h.append hx

end MsgOp

/-- The operation an entry applies to the message `id`. -/
def Entry.op (id : UInt64) : Entry → Option MsgOp
  | .lease id' _ l => if id = id' then some (.lease l) else none
  | .ack id' l => if id = id' then some (.ack l) else none
  | .nack id' l => if id = id' then some (.nack l) else none
  | .expire id' l => if id = id' then some (.expire l) else none
  | _ => none

/-- The id an entry pushes. -/
def Entry.pushed : Entry → Option UInt64
  | .push id _ _ => some id
  | _ => none

namespace Record

/-- The payload has the shape its type asks for. -/
def Shaped (r : Record) : Prop :=
  if r.type = rtMsgPush then
    10 ≤ r.payload.length ∧ 1 ≤ (r.payload.getD 8 0).toNat ∧
      9 + (r.payload.getD 8 0).toNat ≤ r.payload.length
  else if r.type = rtMsgLease then r.payload.length = 24
  else if r.type = rtMsgAck then r.payload.length = 16
  else if r.type = rtMsgNack then r.payload.length = 16
  else if r.type = rtMsgExpire then r.payload.length = 16
  else if r.type = rtCheckpoint then r.payload.length = 24
  else True

theorem shaped_iff (r : Record) : r.Shaped ↔ r.entry.isSome := by
  unfold Shaped entry decodePush decodeLease decodeResolve decodeCheckpoint
  repeat' split
  all_goals simp_all

/-- The operation a record applies to the message `id`. -/
def op (id : UInt64) (r : Record) : Option MsgOp :=
  r.entry.bind (Entry.op id)

/-- The id a record pushes. -/
def pushed (r : Record) : Option UInt64 :=
  r.entry.bind Entry.pushed

end Record

/-- The ids pushed by a log. -/
def pushIds (rs : List Record) : List UInt64 :=
  rs.filterMap Record.pushed

/-- What a log does to the message `id` after its PUSH. -/
def word (id : UInt64) (rs : List Record) : List MsgOp :=
  rs.filterMap (Record.op id)

/-- The lease the message `id` is held under at the end of a log. -/
def openLease (rs : List Record) (id : UInt64) : Option UInt64 :=
  MsgOp.leaseAfter (word id rs).getLast?

/-- Lease ids are nonzero and no two messages share one. -/
def Apart (held : UInt64 → Option UInt64) : Prop :=
  ∀ id l, held id = some l → l ≠ 0 ∧ ∀ id', held id' = some l → id' = id

/-- The logs `qdb__replay_log` is meant to accept. -/
structure ValidLog (rs : List Record) : Prop where
  shaped : ∀ r ∈ rs, r.Shaped
  nonzero : 0 ∉ pushIds rs
  once : (pushIds rs).Nodup
  after : ∀ pre r, pre ++ [r] <+: rs → ∀ id o, r.op id = some o →
    id ∈ pushIds pre
  words : ∀ id, MsgOp.Word (word id rs)
  apart : ∀ pre, pre <+: rs → Apart (openLease pre)

/-- What the word of a message says about it. -/
structure SpelledBy (m : Msg) (w : List MsgOp) : Prop where
  state : m.state = MsgOp.stateAfter w.getLast?
  leaseId : m.leaseId = (MsgOp.leaseAfter w.getLast?).getD 0
  retryCount : m.retryCount = UInt32.ofNat (w.countP MsgOp.returns)

section Snoc

variable {rs : List Record} {r : Record} {id : UInt64}

theorem pushIds_append (rs : List Record) (r : Record) :
    pushIds (rs ++ [r]) = pushIds rs ++ r.pushed.toList := by
  unfold pushIds
  rw [List.filterMap_append]
  cases h : r.pushed <;> simp [h]

theorem word_append (id : UInt64) (rs : List Record) (r : Record) :
    word id (rs ++ [r]) = word id rs ++ (r.op id).toList := by
  unfold word
  rw [List.filterMap_append]
  cases h : r.op id <;> simp [h]

theorem word_append_none (h : r.op id = none) :
    word id (rs ++ [r]) = word id rs := by
  rw [word_append, h]
  exact List.append_nil _

theorem word_append_some {o : MsgOp} (h : r.op id = some o) :
    word id (rs ++ [r]) = word id rs ++ [o] := by
  rw [word_append, h]
  rfl

theorem openLease_none (h : r.op id = none) :
    openLease (rs ++ [r]) id = openLease rs id := by
  unfold openLease
  rw [word_append_none h]

theorem openLease_some {o : MsgOp} (h : r.op id = some o) :
    openLease (rs ++ [r]) id = MsgOp.leaseAfter (some o) := by
  unfold openLease
  rw [word_append_some h, List.getLast?_concat]

/-- What makes one more record of a valid log valid. -/
structure Admits (rs : List Record) (r : Record) : Prop where
  shaped : r.Shaped
  fresh : ∀ id, r.pushed = some id → id ≠ 0 ∧ id ∉ pushIds rs
  follows : ∀ id o, r.op id = some o →
    id ∈ pushIds rs ∧ MsgOp.Follows (word id rs).getLast? o
  apart : Apart (openLease (rs ++ [r]))

theorem ValidLog.nil : ValidLog [] where
  shaped := by simp
  nonzero := by simp [pushIds]
  once := by simp [pushIds]
  after := by simp
  words := fun _ => .waiting
  apart := by
    intro pre hpre id l hl
    rw [List.prefix_nil.mp hpre] at hl
    cases hl

theorem ValidLog.init (h : ValidLog (rs ++ [r])) : ValidLog rs where
  shaped := fun x hx => h.shaped x (List.mem_append_left _ hx)
  nonzero := by
    have h0 := h.nonzero
    rw [pushIds_append] at h0
    exact fun hmem => h0 (List.mem_append_left _ hmem)
  once := by
    have h0 := h.once
    rw [pushIds_append] at h0
    exact (List.nodup_append.mp h0).1
  after := fun pre x hpre => h.after pre x (hpre.trans (List.prefix_append _ _))
  words := by
    intro id
    have hw := h.words id
    cases ho : r.op id with
    | none =>
        rw [word_append_none ho] at hw
        exact hw
    | some o =>
        rw [word_append_some ho] at hw
        exact (MsgOp.word_append_iff.mp hw).1
  apart := fun pre hpre => h.apart pre (hpre.trans (List.prefix_append _ _))

theorem ValidLog.admits (h : ValidLog (rs ++ [r])) : Admits rs r where
  shaped := h.shaped r (by simp)
  fresh := by
    intro id hid
    have h0 := h.nonzero
    have h1 := h.once
    rw [pushIds_append, hid] at h0 h1
    constructor
    · rintro rfl
      exact h0 (by simp)
    · intro hmem
      exact (List.nodup_append.mp h1).2.2 id hmem id (by simp) rfl
  follows := by
    intro id o ho
    have hw := h.words id
    rw [word_append_some ho] at hw
    exact ⟨h.after rs r (List.prefix_refl _) id o ho,
      (MsgOp.word_append_iff.mp hw).2⟩
  apart := h.apart _ (List.prefix_refl _)

theorem ValidLog.append (h : ValidLog rs) (hr : Admits rs r) :
    ValidLog (rs ++ [r]) where
  shaped := by
    intro x hx
    rcases List.mem_append.mp hx with hx | hx
    · exact h.shaped x hx
    · rw [List.mem_singleton.mp hx]
      exact hr.shaped
  nonzero := by
    rw [pushIds_append, List.mem_append]
    rintro (hmem | hmem)
    · exact h.nonzero hmem
    · exact (hr.fresh 0 (Option.mem_toList.mp hmem)).1 rfl
  once := by
    rw [pushIds_append, List.nodup_append]
    refine ⟨h.once, ?_, ?_⟩
    · cases r.pushed <;> simp
    · rintro id hid id' hid' rfl
      exact (hr.fresh id (Option.mem_toList.mp hid')).2 hid
  after := by
    intro pre x hpre id o ho
    rcases List.prefix_concat_iff.mp hpre with heq | hpre
    · obtain ⟨rfl, hx⟩ := List.append_inj' heq rfl
      cases hx
      exact (hr.follows id o ho).1
    · exact h.after pre x hpre id o ho
  words := by
    intro id
    cases ho : r.op id with
    | none =>
        rw [word_append_none ho]
        exact h.words id
    | some o =>
        rw [word_append_some ho]
        exact (h.words id).append (hr.follows id o ho).2
  apart := by
    intro pre hpre
    rcases List.prefix_concat_iff.mp hpre with rfl | hpre
    · exact hr.apart
    · exact h.apart pre hpre

/-- A message never pushed has no history. -/
theorem ValidLog.word_eq_nil (h : ValidLog rs) (hid : id ∉ pushIds rs) :
    word id rs = [] := by
  unfold word
  rw [List.filterMap_eq_nil_iff]
  intro x hx
  by_contra hne
  obtain ⟨o, ho⟩ := Option.ne_none_iff_exists'.mp hne
  obtain ⟨pre, post, rfl⟩ := List.append_of_mem hx
  have hpre : pre ++ [x] <+: pre ++ x :: post := ⟨post, by simp⟩
  have hmem := h.after pre x hpre id o ho
  apply hid
  unfold pushIds at hmem ⊢
  rw [List.filterMap_append]
  exact List.mem_append_left _ hmem

end Snoc

section Held

variable {held : UInt64 → Option UInt64} {id l : UInt64}

theorem Apart.release (h : Apart held) (id : UInt64) :
    Apart (Function.update held id none) := by
  intro id1 l hl
  have hne : id1 ≠ id := by
    rintro rfl
    simp at hl
  rw [Function.update_of_ne hne] at hl
  refine ⟨(h id1 l hl).1, ?_⟩
  intro id2 hl2
  have hne2 : id2 ≠ id := by
    rintro rfl
    simp at hl2
  rw [Function.update_of_ne hne2] at hl2
  exact (h id1 l hl).2 id2 hl2

/-- A new lease keeps the open leases apart when its id is new. -/
theorem Apart.take_iff (h : Apart held) (hid : held id = none) :
    Apart (Function.update held id (some l)) ↔
      l ≠ 0 ∧ ¬ ∃ id', held id' = some l := by
  constructor
  · intro hnew
    have hself : Function.update held id (some l) id = some l := by simp
    refine ⟨(hnew id l hself).1, ?_⟩
    rintro ⟨id', hl⟩
    have hne : id' ≠ id := by
      rintro rfl
      rw [hid] at hl
      cases hl
    exact hne ((hnew id l hself).2 id' (by rw [Function.update_of_ne hne, hl]))
  · rintro ⟨hl0, hnew⟩ id1 l1 h1
    by_cases he : id1 = id
    · subst he
      have h1 : l = l1 := by simpa using h1
      subst h1
      refine ⟨hl0, ?_⟩
      intro id2 h2
      by_contra hne
      rw [Function.update_of_ne hne] at h2
      exact hnew ⟨id2, h2⟩
    · rw [Function.update_of_ne he] at h1
      refine ⟨(h id1 l1 h1).1, ?_⟩
      intro id2 h2
      by_cases he2 : id2 = id
      · subst he2
        have h2 : l = l1 := by simpa using h2
        subst h2
        exact absurd ⟨id1, h1⟩ hnew
      · rw [Function.update_of_ne he2] at h2
        exact (h id1 l1 h1).2 id2 h2

end Held

/-- The record `r` does `o` to the message `id` and nothing else. -/
structure Record.Acts (r : Record) (id : UInt64) (o : MsgOp) : Prop where
  shaped : r.Shaped
  pushed : r.pushed = none
  op : ∀ id', r.op id' = if id' = id then some o else none

/-- The tables say what the words of the messages spell. -/
structure Tracks (rs : List Record) (c : Content) : Prop where
  ids : ∀ id, (c.msg id).isSome ↔ id ∈ pushIds rs
  msgs : ∀ id m, c.msg id = some m → m.id = id ∧ SpelledBy m (word id rs)
  leases : ∀ l, (c.lease l).isSome ↔ ∃ id, openLease rs id = some l

namespace SpelledBy

variable {m : Msg} {w : List MsgOp}

theorem leasedAs (h : SpelledBy m w) (l e : UInt64) :
    SpelledBy (m.leasedAs l e) (w ++ [.lease l]) where
  state := by
    rw [List.getLast?_concat]
    rfl
  leaseId := by
    rw [List.getLast?_concat]
    rfl
  retryCount := by
    rw [List.countP_append]
    exact h.retryCount

theorem asAcked (h : SpelledBy m w) (l : UInt64) :
    SpelledBy m.asAcked (w ++ [.ack l]) where
  state := by
    rw [List.getLast?_concat]
    rfl
  leaseId := by
    rw [List.getLast?_concat]
    rfl
  retryCount := by
    rw [List.countP_append]
    exact h.retryCount

theorem returned (h : SpelledBy m w) {o : MsgOp} (ho : o.returns = true) :
    SpelledBy m.returned (w ++ [o]) where
  state := by
    rw [List.getLast?_concat]
    cases o <;> first | rfl | cases ho
  leaseId := by
    rw [List.getLast?_concat]
    cases o <;> first | rfl | cases ho
  retryCount := by
    have hone : [o].countP MsgOp.returns = 1 := by simp [ho]
    rw [List.countP_append, hone, UInt32.ofNat_add, ← h.retryCount]
    rfl

theorem held_iff (h : SpelledBy m w) {l : UInt64} :
    MsgOp.leaseAfter w.getLast? = some l ↔
      m.state = .leased ∧ m.leaseId = l := by
  rw [h.state, h.leaseId]
  rcases w.getLast? with _ | o
  · simp [MsgOp.leaseAfter, MsgOp.stateAfter]
  · cases o <;> simp [MsgOp.leaseAfter, MsgOp.stateAfter]

end SpelledBy

section Step

variable {rs : List Record} {r : Record} {c : Content} {id l : UInt64}
  {o : MsgOp} {m : Msg}

theorem Record.Acts.admits_iff (ha : r.Acts id o) :
    Admits rs r ↔ (id ∈ pushIds rs ∧
      MsgOp.Follows (word id rs).getLast? o) ∧
      Apart (openLease (rs ++ [r])) := by
  constructor
  · intro h
    exact ⟨h.follows id o (by rw [ha.op, if_pos rfl]), h.apart⟩
  · rintro ⟨hf, hapart⟩
    refine ⟨ha.shaped, ?_, ?_, hapart⟩
    · intro id' hid'
      rw [ha.pushed] at hid'
      cases hid'
    · intro id' o' ho'
      rw [ha.op] at ho'
      split at ho'
      · cases ho'
        subst id'
        exact hf
      · cases ho'

theorem Record.Acts.openLease (ha : r.Acts id o) :
    openLease (rs ++ [r]) = Function.update (Qdb.openLease rs) id
      (MsgOp.leaseAfter (some o)) := by
  funext id'
  by_cases he : id' = id
  · subst he
    rw [Function.update_self, openLease_some (by rw [ha.op, if_pos rfl])]
  · rw [Function.update_of_ne he, openLease_none (by rw [ha.op, if_neg he])]

/-- A step on one message keeps the others' words. -/
theorem Tracks.update (h : Tracks rs c) (ha : r.Acts id o) {m' : Msg}
    {c' : Content} (hm : c.msg id = some m) (hid : m'.id = id)
    (hs : SpelledBy m' (word id rs ++ [o]))
    (hmsg : c'.msg = Function.update c.msg id (some m'))
    (hlease : ∀ l, (c'.lease l).isSome ↔
      ∃ id, openLease (rs ++ [r]) id = some l) :
    Tracks (rs ++ [r]) c' where
  ids := by
    intro id'
    rw [pushIds_append, ha.pushed, hmsg, Option.toList_none,
      List.append_nil]
    by_cases he : id' = id
    · subst he
      have hmem := (h.ids id').mp (by simp [hm])
      simpa using hmem
    · rw [Function.update_of_ne he]
      exact h.ids id'
  msgs := by
    intro id' x hx
    rw [hmsg] at hx
    by_cases he : id' = id
    · subst he
      have hx : m' = x := by simpa using hx
      subst hx
      rw [word_append_some (by rw [ha.op, if_pos rfl])]
      exact ⟨hid, hs⟩
    · rw [Function.update_of_ne he] at hx
      rw [word_append_none (by rw [ha.op, if_neg he])]
      exact h.msgs id' x hx
  leases := hlease

theorem Record.Acts.of_entry {e : Entry} (he : r.entry = some e)
    (hp : e.pushed = none)
    (ho : ∀ id', e.op id' = if id' = id then some o else none) :
    r.Acts id o where
  shaped := by
    rw [Record.shaped_iff, he]
    rfl
  pushed := by
    rw [Record.pushed, he]
    exact hp
  op := by
    intro id'
    rw [Record.op, he]
    exact ho id'

theorem Tracks.not_mem (h : Tracks rs c) (hm : c.msg id = none) :
    id ∉ pushIds rs := by
  rw [← h.ids, hm]
  simp

theorem Tracks.mem (h : Tracks rs c) (hm : c.msg id = some m) :
    id ∈ pushIds rs := by
  rw [← h.ids, hm]
  rfl

/-- `replay_lease` -/
theorem Tracks.admits_lease (hv : ValidLog rs) (h : Tracks rs c)
    (ha : r.Acts id (.lease l)) :
    Admits rs r ↔ (c.leasable id l).isSome := by
  have hlease : c.lease l = none ↔ ¬ ∃ id, openLease rs id = some l := by
    rw [← h.leases]
    simp
  rw [ha.admits_iff, ha.openLease, Option.isSome_iff_exists]
  simp only [Content.leasable_eq_some]
  cases hm : c.msg id with
  | none =>
      have hid := h.not_mem hm
      simp [hid]
  | some m =>
      have hid := h.mem hm
      have hs := (h.msgs id m hm).2.state
      have hfollow : MsgOp.Follows (word id rs).getLast? (.lease l) ↔
          m.state = .pending := by
        rw [hs]
        rfl
      have hopen : m.state = .pending → openLease rs id = none := by
        rw [hs]
        unfold openLease
        rcases (word id rs).getLast? with _ | o
        · exact fun _ => rfl
        · cases o <;> simp [MsgOp.stateAfter, MsgOp.leaseAfter]
      have htake : m.state = .pending →
          (Apart (Function.update (openLease rs) id
            (MsgOp.leaseAfter (some (.lease l)))) ↔
          l ≠ 0 ∧ c.lease l = none) := by
        intro hp
        rw [hlease]
        exact (hv.apart rs (List.prefix_refl _)).take_iff (hopen hp)
      constructor
      · rintro ⟨⟨-, hf⟩, hapart⟩
        have hp := hfollow.mp hf
        obtain ⟨hl0, hl⟩ := (htake hp).mp hapart
        exact ⟨m, hl0, hl, rfl, hp⟩
      · rintro ⟨x, hl0, hl, hx, hp⟩
        cases hx
        exact ⟨⟨hid, hfollow.mpr hp⟩, (htake hp).mpr ⟨hl0, hl⟩⟩

theorem Tracks.lease (h : Tracks rs c) (ha : r.Acts id (.lease l))
    (hm : c.leasable id l = some m) (e : UInt64) :
    Tracks (rs ++ [r]) (c.leaseMsg m l e) := by
  obtain ⟨-, -, hget, hp⟩ := Content.leasable_eq_some.mp hm
  obtain ⟨hid, hs⟩ := h.msgs id m hget
  have hopen : openLease rs id = none := by
    have hstate := hs.state
    rw [hp] at hstate
    unfold openLease
    rcases hlast : (word id rs).getLast? with _ | o
    · rfl
    · rw [hlast] at hstate
      cases o <;> first | rfl | cases hstate
  have hid' : (m.leasedAs l e).id = id := hid
  apply h.update ha hget hid' (hs.leasedAs l e)
  · rw [← hid]
    rfl
  · intro l'
    rw [ha.openLease]
    by_cases he : l' = l
    · subst he
      simp only [Content.leaseMsg, Function.update_self, Option.isSome_some,
        true_iff]
      exact ⟨id, by rw [Function.update_self]; rfl⟩
    · simp only [Content.leaseMsg, Function.update_of_ne he]
      rw [h.leases]
      constructor
      · rintro ⟨id', hl⟩
        have hne : id' ≠ id := by
          rintro rfl
          rw [hopen] at hl
          cases hl
        exact ⟨id', by rw [Function.update_of_ne hne, hl]⟩
      · rintro ⟨id', hl⟩
        by_cases hid' : id' = id
        · subst hid'
          rw [Function.update_self] at hl
          cases hl
          exact absurd rfl he
        · rw [Function.update_of_ne hid'] at hl
          exact ⟨id', hl⟩

/-- `replay_ack`, `replay_nack` and `replay_expire` -/
theorem Tracks.admits_resolve (hv : ValidLog rs) (h : Tracks rs c)
    (ha : r.Acts id o)
    (hf : ∀ last, MsgOp.Follows last o ↔ MsgOp.leaseAfter last = some l)
    (hn : MsgOp.leaseAfter (some o) = none) :
    Admits rs r ↔ (c.held id l).isSome := by
  have hapart : Apart (Function.update (openLease rs) id none) :=
    (hv.apart rs (List.prefix_refl _)).release id
  rw [ha.admits_iff, ha.openLease, hn, hf, Option.isSome_iff_exists]
  simp only [Content.held_eq_some]
  cases hm : c.msg id with
  | none =>
      have hid := h.not_mem hm
      simp [hid]
  | some m =>
      rw [(h.msgs id m hm).2.held_iff]
      simp [h.mem hm, hapart]

theorem Tracks.resolve (hv : ValidLog rs) (h : Tracks rs c)
    (ha : r.Acts id o) (hn : MsgOp.leaseAfter (some o) = none)
    (hm : c.held id l = some m) {m' : Msg} {c' : Content} (hid : m'.id = m.id)
    (hs : SpelledBy m (word id rs) → SpelledBy m' (word id rs ++ [o]))
    (hmsg : c'.msg = Function.update c.msg m.id (some m'))
    (hlease : c'.lease = Function.update c.lease l none) :
    Tracks (rs ++ [r]) c' := by
  obtain ⟨hget, hheld⟩ := Content.held_eq_some.mp hm
  obtain ⟨hmid, hsp⟩ := h.msgs id m hget
  have hopen : openLease rs id = some l := hsp.held_iff.mpr hheld
  have hapart := hv.apart rs (List.prefix_refl _)
  apply h.update ha hget (hid.trans hmid) (hs hsp) (hmid ▸ hmsg)
  intro l'
  rw [ha.openLease, hn, hlease]
  by_cases he : l' = l
  · subst he
    simp only [Function.update_self, Option.isSome_none, Bool.false_eq_true,
      false_iff]
    rintro ⟨id', hl⟩
    by_cases hid' : id' = id
    · subst hid'
      rw [Function.update_self] at hl
      cases hl
    · rw [Function.update_of_ne hid'] at hl
      exact hid' ((hapart id l' hopen).2 id' hl)
  · rw [Function.update_of_ne he, h.leases]
    constructor
    · rintro ⟨id', hl⟩
      have hne : id' ≠ id := by
        rintro rfl
        rw [hopen] at hl
        cases hl
        exact he rfl
      exact ⟨id', by rw [Function.update_of_ne hne, hl]⟩
    · rintro ⟨id', hl⟩
      by_cases hid' : id' = id
      · subst hid'
        rw [Function.update_self] at hl
        cases hl
      · rw [Function.update_of_ne hid'] at hl
        exact ⟨id', hl⟩

theorem openLease_still (ho : ∀ id, r.op id = none) :
    openLease (rs ++ [r]) = openLease rs := by
  funext id
  exact openLease_none (ho id)

/-- `replay_push` -/
theorem Tracks.admits_push (hv : ValidLog rs) (h : Tracks rs c)
    (hshape : r.Shaped) (hp : r.pushed = some id)
    (ho : ∀ id, r.op id = none) :
    Admits rs r ↔ id ≠ 0 ∧ c.msg id = none := by
  have hnone : c.msg id = none ↔ id ∉ pushIds rs := by
    rw [← h.ids]
    simp
  rw [hnone]
  constructor
  · intro hr
    exact hr.fresh id hp
  · intro hid
    refine ⟨hshape, ?_, ?_, ?_⟩
    · intro id' hid'
      rw [hp] at hid'
      cases hid'
      exact hid
    · intro id' o ho'
      rw [ho id'] at ho'
      cases ho'
    · rw [openLease_still ho]
      exact hv.apart rs (List.prefix_refl _)

theorem Tracks.push (hv : ValidLog rs) (h : Tracks rs c)
    (hp : r.pushed = some id) (ho : ∀ id, r.op id = none)
    (hget : c.msg id = none) (off : UInt64) (len : UInt32)
    (name : QueueName) :
    Tracks (rs ++ [r]) (c.addMsg (newMsg id off len name)) where
  ids := by
    intro id'
    rw [pushIds_append, hp]
    by_cases he : id' = id
    · subst he
      simp [Content.addMsg, newMsg]
    · have hne : id' ≠ (newMsg id off len name).id := he
      simp only [Content.addMsg, Function.update_of_ne hne]
      simp [h.ids, he]
  msgs := by
    intro id' x hx
    rw [word_append_none (ho id')]
    by_cases he : id' = id
    · subst he
      have hx : newMsg id' off len name = x := by
        simpa [Content.addMsg, newMsg] using hx
      subst hx
      rw [hv.word_eq_nil (h.not_mem hget)]
      exact ⟨rfl, rfl, rfl, rfl⟩
    · have hne : id' ≠ (newMsg id off len name).id := he
      simp only [Content.addMsg, Function.update_of_ne hne] at hx
      exact h.msgs id' x hx
  leases := by
    intro l
    rw [openLease_still ho]
    exact h.leases l

/-- Records about no message. -/
theorem Tracks.still (hv : ValidLog rs) (h : Tracks rs c)
    (hshape : r.Shaped) (hp : r.pushed = none) (ho : ∀ id, r.op id = none) :
    Admits rs r ∧ Tracks (rs ++ [r]) c := by
  constructor
  · refine ⟨hshape, ?_, ?_, ?_⟩
    · intro id hid
      rw [hp] at hid
      cases hid
    · intro id o ho'
      rw [ho id] at ho'
      cases ho'
    · rw [openLease_still ho]
      exact hv.apart rs (List.prefix_refl _)
  · refine ⟨?_, ?_, ?_⟩
    · intro id
      rw [pushIds_append, hp, Option.toList_none, List.append_nil]
      exact h.ids id
    · intro id x hx
      rw [word_append_none (ho id)]
      exact h.msgs id x hx
    · intro l
      rw [openLease_still ho]
      exact h.leases l

/-- A resolving entry against the tables. -/
theorem Tracks.resolves (hv : ValidLog rs) (h : Tracks rs c)
    (ha : r.Acts id o)
    (hf : ∀ last, MsgOp.Follows last o ↔ MsgOp.leaseAfter last = some l)
    (hn : MsgOp.leaseAfter (some o) = none) {eff : Msg → Content}
    (after : Msg → Msg) (hid : ∀ m, (after m).id = m.id)
    (hs : ∀ m w, SpelledBy m w → SpelledBy (after m) (w ++ [o]))
    (hmsg : ∀ m, (eff m).msg = Function.update c.msg m.id (some (after m)))
    (hlease : ∀ m, (eff m).lease = Function.update c.lease l none) :
    match (c.held id l).map eff with
    | none => ¬ Admits rs r
    | some c' => Admits rs r ∧ Tracks (rs ++ [r]) c' := by
  have hadm := h.admits_resolve hv ha hf hn
  cases hm : c.held id l with
  | none =>
      rw [hm] at hadm
      simpa using hadm
  | some m =>
      rw [hm] at hadm
      exact ⟨hadm.mpr rfl, h.resolve hv ha hn hm (hid m) (hs m _) (hmsg m)
        (hlease m)⟩

/-- One record is accepted exactly when it keeps the log valid. -/
theorem Tracks.step (hv : ValidLog rs) (h : Tracks rs c) (off : UInt64)
    (r : Record) :
    match r.effect off c with
    | none => ¬ Admits rs r
    | some c' => Admits rs r ∧ Tracks (rs ++ [r]) c' := by
  unfold Record.effect
  cases he : r.entry with
  | none =>
      intro hr
      have hshape := r.shaped_iff.mp hr.shaped
      rw [he] at hshape
      cases hshape
  | some e =>
      have hshape : r.Shaped := r.shaped_iff.mpr (by rw [he]; rfl)
      have hp : r.pushed = e.pushed := by rw [Record.pushed, he]; rfl
      have ho : ∀ id, r.op id = e.op id := by
        intro id
        rw [Record.op, he]
        rfl
      rw [Option.bind_some]
      cases e with
      | push id name data =>
          have hadm := h.admits_push hv hshape hp ho
          cases hc : c.apply (off + recHdrSize) (.push id name data) with
          | none =>
              intro hr
              obtain ⟨h0, hget⟩ := hadm.mp hr
              rw [Content.apply_push.mpr ⟨h0, hget, rfl⟩] at hc
              cases hc
          | some c' =>
              obtain ⟨h0, hget, rfl⟩ := Content.apply_push.mp hc
              exact ⟨hadm.mpr ⟨h0, hget⟩, h.push hv hp ho hget _ _ _⟩
      | lease id e l =>
          have ha : r.Acts id (.lease l) := .of_entry he rfl fun _ => rfl
          have hadm := h.admits_lease hv ha
          simp only [Content.apply]
          cases hm : c.leasable id l with
          | none =>
              rw [hm] at hadm
              simpa using hadm
          | some m =>
              rw [hm] at hadm
              exact ⟨hadm.mpr rfl, h.lease ha hm e⟩
      | ack id l =>
          exact h.resolves hv (.of_entry he rfl fun _ => rfl)
            (fun _ => Iff.rfl) rfl Msg.asAcked (fun _ => rfl)
            (fun _ _ hs => hs.asAcked l) (fun _ => rfl) (fun _ => rfl)
      | nack id l =>
          exact h.resolves hv (.of_entry he rfl fun _ => rfl)
            (fun _ => Iff.rfl) rfl Msg.returned (fun _ => rfl)
            (fun _ _ hs => hs.returned rfl) (fun _ => rfl) (fun _ => rfl)
      | expire id l =>
          exact h.resolves hv (.of_entry he rfl fun _ => rfl)
            (fun _ => Iff.rfl) rfl Msg.returned (fun _ => rfl)
            (fun _ _ hs => hs.returned rfl) (fun _ => rfl) (fun _ => rfl)
      | checkpoint nm nl =>
          exact h.still hv hshape hp ho
      | padding =>
          exact h.still hv hshape hp ho

end Step

theorem Tracks.start : Tracks [] Content.empty where
  ids := by
    intro id
    simp [Content.empty, pushIds]
  msgs := by
    intro id m hm
    cases hm
  leases := by
    intro l
    simp [Content.empty, openLease, word, MsgOp.leaseAfter]

/-- The tables accept exactly the valid logs. -/
theorem replayContent_valid (off : UInt64) (rs : List Record) :
    match replayContent off rs .empty with
    | none => ¬ ValidLog rs
    | some c => ValidLog rs ∧ Tracks rs c := by
  induction rs using List.reverseRecOn with
  | nil =>
      exact ⟨.nil, .start⟩
  | append_singleton rs r ih =>
      rw [replayContent_append]
      cases hc : replayContent off rs .empty with
      | none =>
          rw [hc] at ih
          exact fun hv => ih hv.init
      | some c =>
          rw [hc] at ih
          obtain ⟨hv, ht⟩ := ih
          rw [Option.bind_some, replayContent_singleton]
          have hstep := ht.step hv (off + UInt64.ofNat (encodeLog rs).length) r
          cases he : r.effect (off + UInt64.ofNat (encodeLog rs).length) c with
          | none =>
              rw [he] at hstep
              exact fun hv' => hstep hv'.admits
          | some c' =>
              rw [he] at hstep
              exact ⟨hv.append hstep.1, hstep.2⟩

section Replay

variable {w : World} {i : Nat} {db : Db} {rs : List Record}

/-- `qdb__replay_log` accepts the valid logs and no others, and leaves every
message in the state its own records spell. -/
theorem replayLog_accepts (h : Framed w i db rs) :
    ∃ rc db', CmdReads (replayLog db) w (rc, db') ∧
      (rc = .ok ↔ ValidLog rs) ∧ (rc ≠ .ok → rc = .errCorrupt) ∧
      (rc = .ok → ∃ st, db'.state = some st ∧
        (∀ id, (st.msgGet id).isSome ↔ id ∈ pushIds rs) ∧
        ∀ id m, st.msgGet id = some m → SpelledBy m (word id rs)) := by
  have hvalid := replayContent_valid db.logStartOffset rs
  have hshow : (memOf db .empty).st.Shows .empty := State.Shows.start
  have hrep := hshow.replay db.logStartOffset rs
  cases hc : replayContent db.logStartOffset rs .empty with
  | none =>
      rw [hc] at hvalid hrep
      obtain ⟨db', -, -, hrun⟩ := h.reads_replayLog_corrupt hrep
      refine ⟨.errCorrupt, db', hrun, ?_, fun _ => rfl, ?_⟩
      · simp [hvalid]
      · intro hrc
        cases hrc
  | some c =>
      rw [hc] at hvalid hrep
      obtain ⟨hv, ht⟩ := hvalid
      obtain ⟨mem, hmem, hs⟩ := hrep
      refine ⟨.ok, _, h.reads_replayLog hmem, ?_, ?_, ?_⟩
      · simp [hv]
      · intro hrc
        exact absurd rfl hrc
      · intro _
        refine ⟨mem.st, rfl, ?_, ?_⟩
        · intro id
          rw [← ht.ids, Option.isSome_iff_ne_none, Option.isSome_iff_ne_none]
          exact not_congr hs.msg_none
        · intro id m hm
          obtain ⟨-, hsp⟩ := ht.msgs id _ (hs.msgGet hm)
          exact ⟨hsp.state, hsp.leaseId, hsp.retryCount⟩

/-- A message that has come back once. -/
def returnedLog : List Record :=
  [pushRecord 7 ⟨⟨[113], by decide, by decide⟩, [], by decide⟩,
    leaseRecord 7 100 3, nackRecord 7 3]

/-- A file with `returnedLog` behind its header page. -/
def returnedFile : Bytes :=
  List.replicate 4096 0 ++ (encodeLog returnedLog ++ [])

/-- A handle on `returnedFile` before the replay. -/
def returnedDb : Db :=
  { Db.zero with
    fd := some 0
    logStartOffset := 4096
    logEndOffset := 4176 }

theorem returnedLog_framed :
    Framed (World.ofFile returnedFile) 0 returnedDb returnedLog := by
  have hlen : (encodeLog returnedLog).length = 80 := by decide +kernel
  have hfile : (World.ofFile returnedFile).content 0 = returnedFile := rfl
  have hpage : (List.replicate 4096 (0 : UInt8)).length = 4096 :=
    List.length_replicate
  refine ⟨rfl, ?_, ?_, ?_⟩
  · rw [hfile, returnedFile, List.length_append, hpage, List.append_nil, hlen]
    decide
  · rw [hfile, returnedFile]
    have hmid := slice_mid (List.replicate 4096 0) (encodeLog returnedLog) []
    rw [hpage] at hmid
    exact hmid
  · rw [hlen]
    rfl

/-- The message is pending again, with a retry count of one. -/
theorem replayLog_accepts_returned :
    Framed (World.ofFile returnedFile) 0 returnedDb returnedLog ∧
      word 7 returnedLog = [.lease 3, .nack 3] ∧
      ∃ rc db', CmdReads (replayLog returnedDb) (World.ofFile returnedFile)
          (rc, db') ∧
        (rc = .ok ↔ ValidLog returnedLog) ∧ (rc ≠ .ok → rc = .errCorrupt) ∧
        (rc = .ok → ∃ st, db'.state = some st ∧
          (∀ id, (st.msgGet id).isSome ↔ id ∈ pushIds returnedLog) ∧
          ∀ id m, st.msgGet id = some m →
            SpelledBy m (word id returnedLog)) :=
  ⟨returnedLog_framed, by decide +kernel,
    replayLog_accepts returnedLog_framed⟩

end Replay

end Qdb
