import Xeros.Kernel.State

/-!
# The queues (`disp.c`)

Every queue is threaded through the one `next` field of the pcbs. `ready` and
`next` keep the ready queue between `head` and `tail`; `append` and `remove`
work on a queue through the address of its head.
-/

namespace Xeros

open Lib

/-- The address of a queue head (`pcb **`). -/
inductive QRef where
  | head | running | deadQ | blockedQ
  deriving DecidableEq, Repr

/-- `get_q`: the queue that holds the pcbs in a state, `none` for `NULL`. -/
def getQ : PState → Option QRef
  | .ready => some .head
  | .running => some .running
  | .dead => some .deadQ
  | .stopped => some .deadQ
  | .blocked => some .blockedQ
  | .sleep => none

/-- `*q`. -/
def QRef.get (k : Kernel) : QRef → Option Slot
  | .head => k.head
  | .running => k.running
  | .deadQ => k.deadQ
  | .blockedQ => k.blockedQ

/-- `*q = v`. -/
def QRef.set (k : Kernel) (v : Option Slot) : QRef → Kernel
  | .head => k.setHead v
  | .running => k.setRunning v
  | .deadQ => k.setDeadQ v
  | .blockedQ => k.setBlockedQ v

/-- Link `p` to the end of the ready queue. -/
def enqueue (k : Kernel) (p : Slot) : Kernel :=
  match k.tail with
  | some t => (k.upd t fun c => c.setNext (some p)).setTail (some p)
  | none => (k.setHead (some p)).setTail (some p)

/-- `ready`: put `p` at the tail of the ready queue. The idle process changes
its state but stays out of the queue. -/
def ready (k : Kernel) (p : Slot) : Run Kernel := do
  let pid := (k.proctab p).pid
  kassert (pid = (k.proctab (slotOf pid)).pid)
  let k := k.upd p fun c => (c.setNext none).setState .ready
  kassert (p ≠ 0)
  kassert (pid = (k.proctab (slotOf pid)).pid)
  if pid = k.idleprocPid then return k else return enqueue k p

/-- `head = p->next; p->next=NULL; if( !head ) tail = NULL;`. -/
def takeHead (k : Kernel) (p : Slot) : Kernel :=
  let k := (k.setHead (k.proctab p).next).upd p fun c => c.setNext none
  if k.head = none then k.setTail none else k

/-- The end of `next`, with `p` taken from the queue: the idle process is left
out if another process follows it, and is put off the processor if it runs. At
boot `running` is `NULL` and is read through. -/
def choose (k : Kernel) (p : Slot) : Kernel × Slot :=
  match if (k.proctab p).pid = k.idleprocPid then k.head else none with
  | some q => ((takeHead k q).upd p fun c => c.setNext none, q)
  | none =>
    if (k.deref k.running).pid = k.idleprocPid ∧ (k.proctab p).pid ≠ k.idleprocPid then
      (k.updPtr k.running fun c => c.setState .ready, p)
    else (k, p)

/-- `next`: unlink and return the process to run, the idle process when the
queue is empty. -/
def next (k : Kernel) : Run (Kernel × Slot) :=
  match k.head with
  | none => return (k, slotOf k.idleprocPid)
  | some p => do
    kassert ((k.proctab p).pid = (k.proctab (slotOf (k.proctab p).pid)).pid)
    kassert ((k.proctab p).state = .ready)
    return choose (takeHead k p) p

/-- The loop of `remove`, at the node `c`. `prev` is never advanced, so every
node passed becomes the head of the queue. -/
def removeLoop (q : QRef) (pid : Word) : Nat → Kernel → Option Slot → Run (Kernel × Int)
  | 0, _, _ => .error .spin
  | _ + 1, k, none => return (k, -1)
  | fuel + 1, k, some c =>
    if (k.proctab c).pid = pid then
      return ((q.set k (k.proctab c).next).upd c fun c => c.setNext none, pid.toInt)
    else
      removeLoop q pid fuel (q.set k (some c)) (k.proctab c).next

/-- `remove`: delete the pcb with the given pid from a queue; the result is
the pid or -1. The address of the queue may be `NULL` (`getQ`). -/
def remove (k : Kernel) (fuel : Nat) (q : Option QRef) (pid : Word) : Run (Kernel × Int) :=
  match q with
  | none => .error .wild
  | some q => removeLoop q pid fuel k (q.get k)

/-- The walk of `append` to the end of the queue: `nxt` is the node reached,
`prev` the one before it. -/
def appendLoop (p : Slot) : Nat → Kernel → Option Slot → Slot → Run Kernel
  | 0, _, _, _ => .error .spin
  | _ + 1, k, none, prev => return k.upd prev fun c => c.setNext (some p)
  | fuel + 1, k, some n, _ =>
    -- an existing member is not added again
    if n = p then return k else appendLoop p fuel k (k.proctab n).next n

/-- `append`: put `p` at the end of a queue. -/
def append (k : Kernel) (fuel : Nat) (q : QRef) (p : Slot) : Run Kernel :=
  let k := k.upd p fun c => c.setNext none
  match q.get k with
  | none => return q.set k (some p)
  | some h => appendLoop p fuel k (some h) h

/-- `p->state=STATE_RUNNING; running=p;`. -/
def run (k : Kernel) (p : Slot) : Kernel :=
  (k.upd p fun c => c.setState .running).setRunning (some p)

/-- `p = next(); p->state=STATE_RUNNING; running=p;`, the end of every case of
the dispatcher that gives up the processor. -/
def reschedule (k : Kernel) : Run (Kernel × Slot) := do
  let (k, p) ← next k
  return (run k p, p)

/-- The argument of the call that `q` is blocked in, as `notify_waiters` reads
it: the pid it waits on, left as it was for a call that is neither a send nor a
receive. -/
def waitsOn (k : Kernel) (q : Slot) (destpid : Word) : Word :=
  if (k.proctab q).ret = Request.send.code then k.arg q 0
  else if (k.proctab q).ret = Request.recv.code then k.mem.word (k.arg q 0)
  else destpid

/-- The loop of `notify_waiters`. -/
def notifyWaitersLoop (pid : Word) :
    Nat → Kernel → Slot → Option Slot → Word → Run Kernel
  | 0, _, _, _, _ => .error .spin
  | _ + 1, k, _, none, _ => return k
  | fuel + 1, k, prev, some q, destpid =>
    if waitsOn k q destpid = pid then do
      let k := k.upd prev fun c => c.setNext (k.proctab q).next
      let k ← ready (k.setRet q (toWord badPid)) q
      notifyWaitersLoop pid fuel k q (k.proctab q).next pid
    else
      notifyWaitersLoop pid fuel k q (k.proctab q).next (waitsOn k q destpid)

/-- `notify_waiters`: wake the processes that wait on a process that stops. -/
def notifyWaiters (k : Kernel) (a : Ambient) (pid : Word) : Run Kernel :=
  match k.blockedQ with
  | none => return k
  | some q => notifyWaitersLoop pid a.fuel k q (some q) a.destpid

end Xeros
