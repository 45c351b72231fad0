import Qdb.Delivery

/-!
# Payloads

A pop returns the queue name and the data that were pushed under the id of the
message.  Between two compactions the log in the file only grows.
-/

namespace Qdb

open Lib

/-- The log in the database file, from the header page to the
`log_end_offset` in the header. -/
def Sys.log (s : Sys) : Bytes :=
  match s.world.dir .main with
  | none => []
  | some i =>
      slice (s.world.content i) hdrSize.toNat
        ((getU64le ((s.world.content i).drop 40)).toNat - hdrSize.toNat)

/-- The records of the log. -/
def Phase.records : Phase → List Record
  | .closed d => d.rs
  | .opened v => v.rs
  | _ => []

/-- The log starts behind the header page. -/
def Phase.Anchored : Phase → Prop
  | .absent => True
  | .broken => False
  | .closed d => d.start = hdrSize
  | .opened v => v.start = hdrSize

section Log

variable {now : UInt64} {call : Call} {res : Result} {ph ph' : Phase}

theorem Move.Outcome.grows {F : Prop} {v v' : View} {mv : Move}
    (h : mv.Outcome F v res v') : v'.start = v.start ∧ v.rs <+: v'.rs := by
  cases h with
  | refuse =>
      exact ⟨rfl, List.prefix_refl _⟩
  | io _ =>
      exact ⟨rfl, List.prefix_refl _⟩
  | half _ =>
      exact ⟨rfl, List.prefix_append _ _⟩
  | full _ =>
      exact ⟨rfl, List.prefix_append _ _⟩

theorem ExpireEnd.grows {F : Prop} {v v' : View} {ls : List Lease} {rc : Rc}
    (h : ExpireEnd F now v ls rc v') : v'.start = v.start ∧ v.rs <+: v'.rs := by
  rcases h with ⟨-, rfl⟩ | ⟨-, ls1, l, ls2, -, -, ho⟩
  · obtain ⟨-, h1, -, -, h2⟩ := v.expireAll_fields now ls
    exact ⟨h1, h2⟩
  · obtain ⟨-, h1, -, -, h2⟩ := v.expireAll_fields now ls1
    exact ⟨ho.grows.1.trans h1, h2.trans ho.grows.2⟩

theorem Phase.Step.anchored (h : Phase.Step now ph call res ph')
    (ha : ph.Anchored) : ph'.Anchored := by
  cases h with
  | create t =>
      rfl
  | move _ ho =>
      exact ho.grows.1.trans ha
  | expire he _ =>
      exact he.grows.1.trans ha
  | compact _ _ =>
      rfl
  | _ =>
      exact ha

/-- Only a compaction rewrites the log. -/
theorem Phase.Step.records_prefix (h : Phase.Step now ph call res ph')
    (hc : ¬ (call = .compact ∧ res = .code .ok)) :
    ph.records <+: ph'.records := by
  cases h with
  | move _ ho =>
      exact ho.grows.2
  | expire he _ =>
      exact he.grows.2
  | compact _ _ =>
      exact absurd ⟨rfl, rfl⟩ hc
  | _ =>
      exact List.prefix_refl _

/-- The log that the header and the bytes of a file show. -/
theorem DbFile.KeptBytes.log_eq {d : DbFile} {f : Bytes}
    (h : d.KeptBytes (fun B => B = d.patch) f) (hs : d.start = hdrSize) :
    slice f hdrSize.toNat ((getU64le (f.drop 40)).toNat - hdrSize.toNat) =
      encodeLog d.rs := by
  have hpatch : slice f 24 32 = d.patch := Begins.patch h
  have hend : getU64le (f.drop 40) = logEndOf d.start d.rs := by
    have h24 : f.drop 24 = d.patch ++ (f.drop 24).drop 32 := by
      rw [← hpatch, slice, List.take_append_drop]
    rw [show 40 = 24 + 16 from rfl, ← List.drop_drop, h24, DbFile.patch,
      headerPatch]
    simp only [List.append_assoc]
    exact getU64le_third _ _ _ _
  have hlen : (logEndOf d.start d.rs).toNat - hdrSize.toNat =
      (encodeLog d.rs).length := by
    rw [toNat_logEndOf (DbFile.KeptBytes.fits h), hs, Nat.add_sub_cancel_left]
  rw [hend, hlen, ← hs]
  exact Begins.body h

theorem Sys.Is.log_eq {s : Sys} (h : s.Is ph) (ha : ph.Anchored) :
    s.log = encodeLog ph.records := by
  cases ph with
  | absent =>
      unfold Sys.log
      rw [h.2.1]
      rfl
  | broken =>
      exact ha.elim
  | closed d =>
      obtain ⟨-, i, hrest⟩ := h
      unfold Sys.log
      rw [hrest.disk.main]
      exact (DbFile.Kept.content hrest.disk.file).log_eq ha
  | opened v =>
      obtain ⟨db, i, -, hlive⟩ := h
      have hkeep : v.file.KeptBytes (fun B => B = v.file.patch)
          (s.world.content i) :=
        Begins.mono hlive.content (fun B hB => hB.resolve_left (fun h => h))
      unfold Sys.log
      rw [hlive.main]
      exact hkeep.log_eq ha

/-- A machine at some point of a run. -/
def Sys.Anchored (s : Sys) : Prop :=
  ∃ ph b, s.Is ph ∧ ph.Shows b ∧ ph.Anchored

theorem Sys.Anchored.returns {s s' : Sys} {a : Act} (h : s.Anchored)
    (hs : s.CountedReturns a s') :
    s'.Anchored ∧ (¬ a.Compacts → s.log <+: s'.log) := by
  obtain ⟨ph, b, his, hph, ha⟩ := h
  obtain ⟨hn, ⟨hstep⟩⟩ := hs
  obtain ⟨res', s'', ph', hs', hst, his'⟩ := his.step hph.wellFormed _
  rw [hstep] at hs'
  cases hs'
  obtain ⟨b', hb', -⟩ := hph.step (Sys.Shows.counting his hn) hst
  have ha' := hst.anchored ha
  refine ⟨⟨ph', b', his', hb', ha'⟩, fun hc => ?_⟩
  rw [his.log_eq ha, his'.log_eq ha']
  obtain ⟨rs, hrs⟩ := hst.records_prefix hc
  rw [← hrs, encodeLog_append]
  exact List.prefix_append _ _

/-- Between compactions the log only grows. -/
theorem Sys.Anchored.run {s s' : Sys} {as : List Act} (h : s.Anchored)
    (hrun : Run Sys.CountedReturns s as s') :
    s'.Anchored ∧ ((∀ a ∈ as, ¬ a.Compacts) → s.log <+: s'.log) := by
  refine hrun.invariant (P := fun as s' => s'.Anchored ∧
    ((∀ a ∈ as, ¬ a.Compacts) → s.log <+: s'.log))
    ⟨h, fun _ => List.prefix_refl _⟩ ?_
  intro as t a u _ ih hs
  obtain ⟨hu, hlog⟩ := ih.1.returns hs
  refine ⟨hu, fun hall => ?_⟩
  exact (ih.2 (fun x hx => hall x (List.mem_append_left _ hx))).trans
    (hlog (hall a (by simp)))

theorem Sys.Anchored.init : Sys.init.Anchored :=
  ⟨.absent, Broker.new, ⟨rfl, rfl, rfl, rfl⟩, rfl, trivial⟩

end Log

/-- The ids of the pushed messages are among those assigned. -/
theorem pushes_sublist (as : List Act) :
    ((pushes as).map Message.id).Sublist (pushedIds as) := by
  induction as with
  | nil =>
      exact List.Sublist.refl _
  | cons a as ih =>
      cases hp : a.pushed with
      | none =>
          have hcons : pushes (a :: as) = pushes as := by
            simp [pushes, hp]
          rw [hcons]
          refine ih.trans ?_
          unfold pushedIds
          exact (List.sublist_cons_self a as).filterMap _
      | some x =>
          have hcons : pushes (a :: as) = x :: pushes as := by
            simp [pushes, hp]
          have hcons' : pushedIds (a :: as) = x.id :: pushedIds as := by
            simp [pushedIds, Act.pushed_id hp]
          rw [hcons, hcons']
          exact ih.cons_cons _

/-- Pushes under one id are the same push. -/
theorem pushes_inj {as : List Act} {m m' : Message}
    (hids : (pushedIds as).Pairwise (· < ·)) (hm : m ∈ pushes as)
    (hm' : m' ∈ pushes as) (hid : m.id = m'.id) : m = m' := by
  have hnodup : ((pushes as).map Message.id).Nodup :=
    (hids.imp (fun h => UInt64.ne_of_lt h)).sublist (pushes_sublist as)
  exact List.inj_on_of_nodup_map hnodup hm hm' hid

/-- A pop returns queue name and data of the push that created the message, and
between compactions the log only grows. -/
theorem payload_fidelity {as : List Act} {s : Sys}
    (hrun : Run Sys.CountedReturns Sys.init as s) :
    (∀ e id q s', s.CountedReturns (.call e id (.msg q)) s' →
      (∃ m ∈ pushes as, m.id = q.id) ∧
      ∀ m ∈ pushes as, m.id = q.id → q.queue = m.queue ∧ q.data = m.data) ∧
    (∀ bs s', Run Sys.CountedReturns s bs s' → (∀ a ∈ bs, ¬ a.Compacts) →
      s.log <+: s'.log) := by
  obtain ⟨b, hb⟩ := Sys.recounts hrun
  constructor
  · intro e id q s' hs
    obtain ⟨n, k, hk, rfl⟩ := hb.shows.popped hs
    have hpush := hb.hist.pushed k (.of_mem (List.mem_of_head? hk))
    refine ⟨⟨k.fresh, hpush, rfl⟩, ?_⟩
    intro m hm hid
    have heq : m = k.fresh := pushes_inj hb.msgs.increasing hm hpush hid
    rw [heq]
    exact ⟨rfl, rfl⟩
  · intro bs s' hbs hnc
    exact ((Sys.Anchored.init.run hrun).1.run hbs).2 hnc

/-- A message with a payload. -/
def wordBody : Body :=
  ⟨roundName, [104, 105], by decide⟩

theorem pushArg_word :
    pushArg roundQueue (.buf [104, 105]) = some wordBody := by
  rfl

/-- The acts that push it. -/
def wordActs : List Act :=
  [.call ⟨0, .openDb 0⟩ none (.code .ok),
    .call ⟨0, .push roundQueue (.buf [104, 105])⟩ (some 1) (.code .ok)]

/-- A payload of two bytes is delivered as it was pushed. -/
theorem payload_fidelity_word : ∃ s s' q,
    Run Sys.CountedReturns Sys.init wordActs s ∧
      s.CountedReturns (.call ⟨0, .pop roundQueue true⟩ (some 2) (.msg q)) s' ∧
      q.queue = roundName ∧ q.data = [104, 105] ∧ s.log <+: s'.log := by
  obtain ⟨s₁, h1, hs₁⟩ := Sys.ShowsSmall.create
  obtain ⟨_, s₂, _, h2, hs₂, hpush⟩ := hs₁.call (by decide) (by decide)
    (by decide) (.push roundQueue (.buf [104, 105])) (fun _ => rfl)
  obtain ⟨rfl, rfl⟩ := hpush.push_inv rfl pushArg_word
  obtain ⟨_, s₃, _, h3, -, hpop⟩ := hs₂.call (by decide) (by decide)
    (by decide) (.pop roundQueue true) (fun _ => rfl)
  obtain ⟨rfl, -⟩ := hpop.pop_inv (m := ⟨1, roundName, [104, 105], 0⟩) rfl
    queueArg_round ⟨by decide, by unfold seen32; decide⟩
  have hrun : Run Sys.CountedReturns Sys.init wordActs s₂ :=
    (Run.nil.snoc h1).snoc h2
  obtain ⟨hpops, hlog⟩ := payload_fidelity hrun
  obtain ⟨hqueue, hdata⟩ := (hpops _ _ _ _ h3).2 ⟨1, roundName, [104, 105], 0⟩
    List.mem_cons_self rfl
  refine ⟨s₂, s₃, _, hrun, h3, hqueue, hdata, hlog _ _ (Run.single h3) ?_⟩
  intro a ha
  rw [List.mem_singleton.mp ha]
  rintro ⟨hc, -⟩
  cases hc

section Wrapped

/-- A push keeps every message where its data is, whatever its id. -/
theorem View.located_pushed {v : View}
    (hloc : ∀ id m, v.mem.st.msgGet id = some m → Located v.start v.rs m)
    {b : Body}
    (hfit : Qdb.Fits v.start (v.rs ++ [pushRecord v.mem.nextMsgId b])) :
    ∀ id m, (v.pushed b).st.msgGet id = some m →
      Located v.start (v.rs ++ [pushRecord v.mem.nextMsgId b]) m := by
  intro id m hm
  have hcore := State.coreGet_of_msgGet hm
  change (v.mem.st.addMsg _).coreGet id = _ at hcore
  rw [State.coreGet_addMsg] at hcore
  split at hcore
  · have hpush := (located_push (entry_pushRecord v.mem.nextMsgId b) hfit).1
    have heq := Option.some.inj hcore
    exact hpush.of_fields (congrArg Msg.dataFileOffset heq).symm
      (congrArg Msg.dataLen heq).symm (congrArg Msg.queueName heq).symm
  · obtain ⟨x, hx, heq⟩ := Option.map_eq_some_iff.mp hcore
    exact ((hloc id x hx).append _).of_fields
      (congrArg Msg.dataFileOffset heq).symm
      (congrArg Msg.dataLen heq).symm (congrArg Msg.queueName heq).symm

theorem mem_pushes_rounds (a l : UInt64) {n : Nat} (hn : 0 < n) :
    roundMessage a 0 ∈ pushes (roundsActs a l n) := by
  induction n with
  | zero =>
      cases hn
  | succ n ih =>
      rw [roundsActs, pushes, List.filterMap_append]
      cases n with
      | zero =>
          refine List.mem_append_right _ ?_
          have h0 : a + UInt64.ofNat 0 = a := by simp
          rw [h0]
          exact List.mem_cons_self
      | succ n =>
          exact List.mem_append_left _ (ih (Nat.succ_pos _))

theorem Sys.Is.nextId {s : Sys} {v : View} (h : s.Is (.opened v)) :
    s.nextId = some v.mem.nextMsgId := by
  obtain ⟨db, i, hdb, hlive⟩ := h
  rw [Sys.nextId, hdb, Option.map_some, hlive.nextMsgId]

/-- A push into a short file, whatever the next id is. -/
theorem Sys.Is.push {s : Sys} {v : View} (h : s.Is (.opened v))
    (hloc : ∀ id m, v.mem.st.msgGet id = some m → Located v.start v.rs m)
    (hfit : ∀ r, Fits v.start (v.rs ++ [r])) {queue : Option CString}
    {data : DataArg} {b : Body} (harg : pushArg queue data = some b) :
    ∃ s', s.Returns (.call ⟨0, .push queue data⟩ (some v.mem.nextMsgId)
        (.code .ok)) s' ∧
      s'.Is (.opened (v.log (pushRecord v.mem.nextMsgId b) (v.pushed b))) := by
  have hmv : v.move 0 (.push queue data) =
      some (.log (pushRecord v.mem.nextMsgId b)
        { v.mem with nextMsgId := v.mem.nextMsgId + 1 } (v.pushed b)
        (.code .ok)) := by
    simp only [View.move, View.push, harg]
  obtain ⟨s', hs, his⟩ := h.move hloc hmv hfit
  refine ⟨s', ?_, his⟩
  rw [← h.nextId]
  exact .call hs

/-- A message pushed into an empty queue is the next one there. -/
theorem View.pop_pushed {v : View} {b : Body} {r : Record}
    (hid : v.mem.nextMsgId ≠ 0)
    (hcount : (v.mem.st.queueOr b.name).pendingCount = 0)
    (htail : (v.mem.st.queueOr b.name).pendingTail = 0)
    {queue : Option CString} (harg : queueArg queue = some b.name) :
    ∃ q m, (v.log r (v.pushed b)).pop 0 queue true =
        (v.log r (v.pushed b)).deliver 0 q m ∧
      m.core = newMsg v.mem.nextMsgId
        (v.logEnd + recHdrSize + 9 + b.name.len.toUInt64)
        (UInt32.ofNat b.data.length) b.name := by
  obtain ⟨q, hq, hhead, hne⟩ : ∃ q,
      (v.pushed b).st.queueGet b.name = some q ∧
      q.pendingHead = v.mem.nextMsgId ∧ q.pendingCount ≠ 0 := by
    refine ⟨_, (State.queueGet_addMsg _ _ b.name).trans (if_pos rfl),
      if_pos htail, ?_⟩
    change (v.mem.st.queueOr b.name).pendingCount + 1 ≠ 0
    rw [hcount]
    decide
  obtain ⟨m, hm, hcore⟩ := Option.map_eq_some_iff.mp
    ((State.coreGet_addMsg v.mem.st _ v.mem.nextMsgId).trans (if_pos rfl) :
      (v.pushed b).st.coreGet v.mem.nextMsgId = some _)
  refine ⟨q, m, ?_, hcore⟩
  unfold View.pop
  rw [if_neg (by simp), harg]
  dsimp only
  rw [show (v.log r (v.pushed b)).mem = v.pushed b from rfl, hq]
  dsimp only
  rw [hhead, if_neg (not_or.mpr ⟨hne, hid⟩),
    show (v.pushed b).st.msgGet v.mem.nextMsgId = some m from hm]

/-- A message pushed into an empty queue is delivered by the next pop there,
whatever else is in the tables. -/
theorem Sys.Is.push_pop {s : Sys} {v : View} (h : s.Is (.opened v))
    (hloc : ∀ id m, v.mem.st.msgGet id = some m → Located v.start v.rs m)
    (hstart : v.start = hdrSize) (hlen : (encodeLog v.rs).length ≤ 2 ^ 61)
    {b : Body} (hid : v.mem.nextMsgId ≠ 0) (hdata : b.data = [])
    (hcount : (v.mem.st.queueOr b.name).pendingCount = 0)
    (htail : (v.mem.st.queueOr b.name).pendingTail = 0)
    {queue : Option CString} (harg : pushArg queue (.buf []) = some b)
    (hname : queueArg queue = some b.name) :
    ∃ s₁ s₂ l, s.Returns (.call ⟨0, .push queue (.buf [])⟩
        (some v.mem.nextMsgId) (.code .ok)) s₁ ∧
      s₁.Returns (.call ⟨0, .pop queue true⟩ (some (v.mem.nextMsgId + 1))
        (.msg ⟨v.mem.nextMsgId, l, b.name, [], 0⟩)) s₂ := by
  have hfit : ∀ r, Fits v.start (v.rs ++ [r]) := by
    rw [hstart]
    exact fits_snoc (le_trans hlen (by decide))
  obtain ⟨s₁, h1, his⟩ := h.push hloc hfit harg
  have hloc1 := View.located_pushed hloc (hfit (pushRecord v.mem.nextMsgId b))
  obtain ⟨q, m, hpop, hcore⟩ := View.pop_pushed
    (r := pushRecord v.mem.nextMsgId b) hid hcount htail hname
  have hfit1 : ∀ r, Fits v.start
      ((v.rs ++ [pushRecord v.mem.nextMsgId b]) ++ [r]) := by
    rw [hstart]
    refine fits_snoc ?_
    have hsize := (pushRecord v.mem.nextMsgId b).size_le
    rw [encodeLog_snoc, List.length_append, Record.length_encode]
    unfold maxRecord at hsize
    omega
  obtain ⟨s₂, h2, -⟩ := his.move hloc1
    (show View.move _ 0 (.pop queue true) = some _ from congrArg some hpop)
    hfit1
  have hzero : m.dataLen = 0 := by
    have hl := congrArg Msg.dataLen hcore
    rw [hdata] at hl
    exact hl
  have hbytes : dataOf v.start (v.rs ++ [pushRecord v.mem.nextMsgId b]) m =
      [] := by
    refine dataOf_of_zero _ _ ?_
    rw [hzero]
    simp
  refine ⟨s₁, s₂, v.mem.nextLeaseId, h1, ?_⟩
  have hres : ((v.log (pushRecord v.mem.nextMsgId b) (v.pushed b)).deliver 0 q
      m).result = .msg ⟨v.mem.nextMsgId, v.mem.nextLeaseId, b.name, [], 0⟩ := by
    change Result.msg ⟨m.id, v.mem.nextLeaseId, m.queueName,
      dataOf v.start (v.rs ++ [pushRecord v.mem.nextMsgId b]) m,
      m.retryCount⟩ = _
    rw [hbytes, show m.id = v.mem.nextMsgId from congrArg Msg.id hcore,
      show m.queueName = b.name from congrArg Msg.queueName hcore,
      show m.retryCount = 0 from congrArg Msg.retryCount hcore]
  rw [hres] at h2
  have hnext : s₁.nextId = some (v.mem.nextMsgId + 1) := his.nextId
  rw [← hnext]
  exact .call h2

/-- Behind the push with the id zero, the id one is issued again. -/
theorem exists_reused_id :
    ∃ s s' l, Run Sys.Returns Sys.init (wrapActs 0 0 ++
        [.call ⟨0, .push roundQueue (.buf [])⟩ (some 0) (.code .ok)] ++
        [.call ⟨0, .push secondQueue (.buf [])⟩ (some 1) (.code .ok)]) s ∧
      s.Returns (.call ⟨0, .pop secondQueue true⟩ (some 2)
        (.msg ⟨1, l, secondName, [], 0⟩)) s' := by
  obtain ⟨s₀, hrun, v, c, hsmall, hqueue, -, hmsg, -⟩ := exists_wrap 0 0
  have hzero : v.mem.nextMsgId = 0 := hmsg
  have hwf := hsmall.inv.wf
  have hfit := hsmall.fits (by decide)
  obtain ⟨s₁, h1, his⟩ := hsmall.is.push hwf.located_msg hfit pushArg_round
  have hloc := View.located_pushed hwf.located_msg
    (hfit (pushRecord v.mem.nextMsgId roundBody))
  have hnext : (v.pushed roundBody).nextMsgId = 1 := by
    change v.mem.nextMsgId + 1 = 1
    rw [hzero]
    rfl
  have hempty : c.pend secondName = [] := by
    have hlength := hwf.queue_length (o := some v.leaseTimeoutUs) secondName
    change ((v.live c).queue secondName).length = _ at hlength
    rw [hqueue, Function.update_of_ne (by decide)] at hlength
    exact List.length_eq_zero_iff.mp hlength.symm
  have hother : (v.pushed roundBody).st.queueOr secondName =
      v.mem.st.queueOr secondName := by
    have hne : secondName ≠ roundBody.name := by decide
    unfold State.queueOr
    rw [show (v.pushed roundBody).st.queueGet secondName = _ from
      (State.queueGet_addMsg _ _ secondName).trans (if_neg hne)]
  have hlists := hwf.shows.rep.lists
  have hlen : (encodeLog (v.rs ++ [pushRecord v.mem.nextMsgId
      roundBody])).length ≤ 2 ^ 61 := by
    have hsize := (pushRecord v.mem.nextMsgId roundBody).size_le
    have hshort := hsmall.short
    rw [encodeLog_snoc, List.length_append, Record.length_encode]
    unfold maxRecord at hsize hshort
    omega
  obtain ⟨s₂, s₃, l, h2, h3⟩ := his.push_pop hloc hsmall.start hlen
    (b := secondBody)
    (show (v.pushed roundBody).nextMsgId ≠ 0 by rw [hnext]; decide) rfl
    (by
      change ((v.pushed roundBody).st.queueOr secondName).pendingCount = 0
      rw [hother, hlists.count, hempty]
      rfl)
    (by
      change ((v.pushed roundBody).st.queueOr secondName).pendingTail = 0
      rw [hother, (hlists.linked secondName).tail_eq, hempty]
      rfl)
    pushArg_second
    queueArg_second
  change s₁.Returns (.call _ (some (v.pushed roundBody).nextMsgId) _) s₂ at h2
  change s₂.Returns (.call _ (some ((v.pushed roundBody).nextMsgId + 1))
    (.msg ⟨(v.pushed roundBody).nextMsgId, _, _, _, _⟩)) s₃ at h3
  rw [hnext] at h2 h3
  rw [hzero] at h1
  refine ⟨s₂, s₃, l, ?_, h3⟩
  exact ((hrun.mono (fun _ _ _ => Sys.CountedReturns.returns)).snoc h1).snoc h2

/-- Once the ids have wrapped, two pushes have the same id and a pop cannot
return what both have pushed. -/
theorem payload_of_reused_id :
    ¬ ∀ as s, Run Sys.Returns Sys.init as s →
      ∀ e id q s', s.Returns (.call e id (.msg q)) s' →
        ∀ m ∈ pushes as, m.id = q.id → q.queue = m.queue ∧ q.data = m.data := by
  intro hall
  obtain ⟨s, s', l, hrun, hpop⟩ := exists_reused_id
  have hmem : roundMessage 1 0 ∈ pushes (wrapActs 0 0 ++
      [.call ⟨0, .push roundQueue (.buf [])⟩ (some 0) (.code .ok)] ++
      [.call ⟨0, .push secondQueue (.buf [])⟩ (some 1) (.code .ok)]) := by
    refine Hist.mem_pushes.mpr (Or.inl (Hist.mem_pushes.mpr (Or.inl ?_)))
    have hfirst := mem_pushes_rounds 1 1 (n := 2 ^ 64 - 2) (by decide)
    obtain ⟨n, hn⟩ : ∃ n : Nat, n = 2 ^ 64 - 2 := ⟨_, rfl⟩
    rw [← hn] at hfirst
    rw [wrapActs, ← hn, pushes, List.filterMap_cons_none rfl,
      List.filterMap_append]
    exact List.mem_append_left _ hfirst
  obtain ⟨hname, -⟩ := hall _ s hrun _ _ _ s' hpop _ hmem rfl
  have hname : secondName = roundName := hname
  exact absurd hname (by decide)

end Wrapped

end Qdb
