import Qdb.Moves

/-!
# The abstract queue machine

What the database is for, without files and tables: every queue name has a list
of messages, delivered messages are held under a lease, and an application has
a session open or not.

`Broker.Step` says what each call does and returns.  Its parameter `seen` tells
which lengths of a list a pop takes for not empty: all of them for the intended
machine, and those the 32-bit counter of a queue does not show as zero for the
code.  `Broker.Refused` and `Broker.Crash` say what remains of a call that the
machine refuses or a crash interrupts.
-/

namespace Qdb

open Lib

/-- A message as the application sees it. -/
structure Message where
  id : UInt64
  queue : QueueName
  data : Bytes
  retryCount : UInt32
deriving DecidableEq

/-- The message when it returns to its queue. -/
def Message.retried (m : Message) : Message :=
  { m with retryCount := m.retryCount + 1 }

/-- The message with its retry count forgotten. -/
def Message.fresh (m : Message) : Message :=
  { m with retryCount := 0 }

/-- A message under a lease. -/
structure Held where
  msg : Message
  expiryUs : UInt64
deriving DecidableEq

/-- The lease with the retry count of its message forgotten. -/
def Held.fresh (x : Held) : Held :=
  { x with msg := x.msg.fresh }

/-- What a call returns that is made on the NULL handle. -/
def nullResult : Call → Result
  | .close => .code .ok
  | _ => .code .errInval

/-- The call opens the database. -/
def Call.Opens : Call → Prop
  | .openDb _ => True
  | _ => False

/-- The call may append to a file, so that the machine can refuse it. -/
def Call.Appends : Call → Prop
  | .openDb _ => False
  | .close => False
  | _ => True

/-- Queues, leases and counters, and the lease timeout of the open session. -/
@[ext] structure Broker where
  session : Option UInt64
  nextMsgId : UInt64
  nextLeaseId : UInt64
  queue : QueueName → List Message
  lease : UInt64 → Option Held

namespace Broker

/-- A new database. -/
def new : Broker where
  session := none
  nextMsgId := 1
  nextLeaseId := 1
  queue := fun _ => []
  lease := fun _ => none

/-- The message a push appends. -/
def pushed (b : Broker) (body : Body) : Message :=
  ⟨b.nextMsgId, body.name, body.data, 0⟩

def push (b : Broker) (body : Body) : Broker :=
  { b with
    nextMsgId := b.nextMsgId + 1
    queue := Function.update b.queue body.name
      (b.queue body.name ++ [b.pushed body]) }

/-- What a pop of the message `m` returns. -/
def delivery (b : Broker) (m : Message) : QMsg :=
  ⟨m.id, b.nextLeaseId, m.queue, m.data, m.retryCount⟩

/-- The head `m` of the queue `n` is leased until `e`. -/
def deliver (b : Broker) (n : QueueName) (m : Message) (e : UInt64) :
    Broker :=
  { b with
    nextLeaseId := b.nextLeaseId + 1
    queue := Function.update b.queue n (b.queue n).tail
    lease := Function.update b.lease b.nextLeaseId (some ⟨m, e⟩) }

/-- The lease `l` is gone together with its message. -/
def drop (b : Broker) (l : UInt64) : Broker :=
  { b with lease := Function.update b.lease l none }

/-- The message `m` of the lease `l` returns to the tail of its queue. -/
def requeue (b : Broker) (l : UInt64) (m : Message) : Broker :=
  { b with
    queue := Function.update b.queue m.queue
      (b.queue m.queue ++ [m.retried])
    lease := Function.update b.lease l none }

/-- Several leases, one after the other. -/
def requeueAll (b : Broker) (ls : List (UInt64 × Held)) : Broker :=
  ls.foldl (fun b x => b.requeue x.1 x.2.msg) b

/-- A compaction forgets the retry counts. -/
def compacted (b : Broker) : Broker :=
  { b with
    queue := fun n => (b.queue n).map Message.fresh
    lease := fun l => (b.lease l).map Held.fresh }

/-- The session is over. -/
def down (b : Broker) : Broker :=
  { b with session := none }

/-- A pop finds the message `m` at the head of the queue `n`. -/
def Offers (seen : Nat → Prop) (b : Broker) (n : QueueName) (m : Message) :
    Prop :=
  (b.queue n).head? = some m ∧ seen (b.queue n).length

/-- The leases `ls` are those that have expired at the time `now`. -/
structure Expired (now : UInt64) (b : Broker) (ls : List (UInt64 × Held)) :
    Prop where
  nodup : (ls.map Prod.fst).Nodup
  mem : ∀ l x, (l, x) ∈ ls ↔ b.lease l = some x ∧ x.expiryUs < now

/-- One call at the time `now`. -/
inductive Step (seen : Nat → Prop) (now : UInt64) :
    Broker → Call → Result → Broker → Prop
  | null {b : Broker} {call : Call} (hs : b.session = none)
      (hcall : ¬ call.Opens) : Step seen now b call (nullResult call) b
  | openDb {b : Broker} (t : UInt32) (hs : b.session = none) :
      Step seen now b (.openDb t) (.code .ok)
        { b with session := some (leaseTimeoutOf t) }
  | openLocked {b : Broker} (t : UInt32) (hs : b.session.isSome) :
      Step seen now b (.openDb t) (.code .errLocked) b
  | close {b : Broker} (hs : b.session.isSome) :
      Step seen now b .close (.code .ok) b.down
  | pushInval {b : Broker} {queue : Option CString} {data : DataArg}
      (hs : b.session.isSome) (harg : pushArg queue data = none) :
      Step seen now b (.push queue data) (.code .errInval) b
  | push {b : Broker} {queue : Option CString} {data : DataArg} {body : Body}
      (hs : b.session.isSome) (harg : pushArg queue data = some body) :
      Step seen now b (.push queue data) (.code .ok) (b.push body)
  | popInval {b : Broker} {queue : Option CString} {out : Bool}
      (hs : b.session.isSome) (harg : out = false ∨ queueArg queue = none) :
      Step seen now b (.pop queue out) (.code .errInval) b
  | popEmpty {b : Broker} {queue : Option CString} {n : QueueName}
      (hs : b.session.isSome) (harg : queueArg queue = some n)
      (hn : ∀ m, ¬ b.Offers seen n m) :
      Step seen now b (.pop queue true) (.code .errEmpty) b
  | pop {b : Broker} {queue : Option CString} {n : QueueName} {m : Message}
      {t : UInt64} (hs : b.session = some t) (harg : queueArg queue = some n)
      (hm : b.Offers seen n m) :
      Step seen now b (.pop queue true) (.msg (b.delivery m))
        (b.deliver n m (now + t))
  | popAnyInval {b : Broker} (hs : b.session.isSome) :
      Step seen now b (.popAny false) (.code .errInval) b
  | popAnyEmpty {b : Broker} (hs : b.session.isSome)
      (hn : ∀ n m, ¬ b.Offers seen n m) :
      Step seen now b (.popAny true) (.code .errEmpty) b
  | popAny {b : Broker} {n : QueueName} {m : Message} {t : UInt64}
      (hs : b.session = some t) (hm : b.Offers seen n m)
      (hmin : ∀ n' m', b.Offers seen n' m' → m.id ≤ m'.id) :
      Step seen now b (.popAny true) (.msg (b.delivery m))
        (b.deliver n m (now + t))
  | noent {b : Broker} {call : Call} {id l : UInt64}
      (hs : b.session.isSome) (hcall : call = .ack id l ∨ call = .nack id l)
      (hn : ∀ l' x, b.lease l' = some x → x.msg.id ≠ id) :
      Step seen now b call (.code .errNoent) b
  | inval {b : Broker} {call : Call} {id l l' : UInt64} {x : Held}
      (hs : b.session.isSome) (hcall : call = .ack id l ∨ call = .nack id l)
      (hx : b.lease l' = some x) (hid : x.msg.id = id) (hl : l' ≠ l) :
      Step seen now b call (.code .errInval) b
  | ack {b : Broker} {id l : UInt64} {x : Held} (hs : b.session.isSome)
      (hx : b.lease l = some x) (hid : x.msg.id = id) :
      Step seen now b (.ack id l) (.code .ok) (b.drop l)
  | nack {b : Broker} {id l : UInt64} {x : Held} (hs : b.session.isSome)
      (hx : b.lease l = some x) (hid : x.msg.id = id) :
      Step seen now b (.nack id l) (.code .ok) (b.requeue l x.msg)
  | expire {b : Broker} {ls : List (UInt64 × Held)} (hs : b.session.isSome)
      (hls : b.Expired now ls) :
      Step seen now b .processExpired (.count (Int32.ofNat ls.length))
        (b.requeueAll ls)
  | compact {b : Broker} (hs : b.session.isSome) :
      Step seen now b .compact (.code .ok) b.compacted

section Inversion

variable {seen : Nat → Prop} {now : UInt64} {b b' : Broker} {res : Result}

theorem Step.push_inv {queue : Option CString} {data : DataArg} {body : Body}
    (h : b.Step seen now (.push queue data) res b') (hs : b.session.isSome)
    (harg : pushArg queue data = some body) :
    res = .code .ok ∧ b' = b.push body := by
  cases h with
  | null hn _ =>
      rw [hn] at hs
      cases hs
  | pushInval _ hnone =>
      rw [harg] at hnone
      cases hnone
  | push _ hsome =>
      rw [harg] at hsome
      cases hsome
      exact ⟨rfl, rfl⟩
  | noent _ hcall _ =>
      rcases hcall with hc | hc <;> cases hc
  | inval _ hcall _ _ _ =>
      rcases hcall with hc | hc <;> cases hc

theorem Step.pop_inv {queue : Option CString} {n : QueueName} {m : Message}
    {t : UInt64} (h : b.Step seen now (.pop queue true) res b')
    (hs : b.session = some t) (harg : queueArg queue = some n)
    (hm : b.Offers seen n m) :
    res = .msg (b.delivery m) ∧ b' = b.deliver n m (now + t) := by
  cases h with
  | null hn _ =>
      rw [hs] at hn
      cases hn
  | popInval _ hno =>
      rw [harg] at hno
      simp at hno
  | popEmpty _ hsome hn =>
      rw [harg] at hsome
      cases hsome
      exact absurd hm (hn m)
  | pop ht hsome hm' =>
      rw [harg] at hsome
      cases hsome
      rw [hs] at ht
      cases ht
      have heq := hm'.1.symm.trans hm.1
      cases heq
      exact ⟨rfl, rfl⟩
  | noent _ hcall _ =>
      rcases hcall with hc | hc <;> cases hc
  | inval _ hcall _ _ _ =>
      rcases hcall with hc | hc <;> cases hc

theorem Step.ack_inv {id l : UInt64} {x : Held}
    (h : b.Step seen now (.ack id l) res b') (hs : b.session.isSome)
    (hx : b.lease l = some x) (hid : x.msg.id = id)
    (huniq : ∀ l' y, b.lease l' = some y → y.msg.id = id → l' = l) :
    res = .code .ok ∧ b' = b.drop l := by
  cases h with
  | null hn _ =>
      rw [hn] at hs
      cases hs
  | noent _ hcall hn =>
      rcases hcall with hc | hc
      · cases hc
        exact absurd hid (hn l x hx)
      · cases hc
  | inval _ hcall hy hyid hl =>
      rcases hcall with hc | hc
      · cases hc
        exact absurd (huniq _ _ hy hyid) hl
      · cases hc
  | ack _ _ _ =>
      exact ⟨rfl, rfl⟩

theorem Step.nack_inv {id l : UInt64} {x : Held}
    (h : b.Step seen now (.nack id l) res b') (hs : b.session.isSome)
    (hx : b.lease l = some x) (hid : x.msg.id = id)
    (huniq : ∀ l' y, b.lease l' = some y → y.msg.id = id → l' = l) :
    res = .code .ok ∧ b' = b.requeue l x.msg := by
  cases h with
  | null hn _ =>
      rw [hn] at hs
      cases hs
  | noent _ hcall hn =>
      rcases hcall with hc | hc
      · cases hc
      · cases hc
        exact absurd hid (hn l x hx)
  | inval _ hcall hy hyid hl =>
      rcases hcall with hc | hc
      · cases hc
      · cases hc
        exact absurd (huniq _ _ hy hyid) hl
  | nack _ hy _ =>
      rw [hx] at hy
      cases hy
      exact ⟨rfl, rfl⟩

end Inversion

/-- What a call leaves that returns `QDB_ERR_IO`. -/
inductive Refused (now : UInt64) : Broker → Call → Broker → Prop
  | same {b : Broker} {call : Call} (hs : b.session.isSome)
      (hcall : call.Appends) : Refused now b call b
  | expire {b : Broker} {ls ls' : List (UInt64 × Held)}
      (hls : b.Expired now (ls ++ ls')) :
      Refused now b .processExpired (b.requeueAll ls)

/-- What a crash inside a call leaves. -/
inductive Crash (seen : Nat → Prop) (now : UInt64) :
    Broker → Call → Broker → Prop
  | before {b : Broker} {call : Call} : Crash seen now b call b.down
  | refused {b b' : Broker} {call : Call} (h : Refused now b call b') :
      Crash seen now b call b'.down
  | done {b b' : Broker} {call : Call} {res : Result}
      (h : Step seen now b call res b') : Crash seen now b call b'.down

end Broker

end Qdb
