import Xeros.Kernel.Msg
import Xeros.Kernel.Sleep
import Xeros.Kernel.Create
import Xeros.Kernel.DiCalls
import Xeros.Lib.TSys

/-!
# The dispatcher (`disp.c`, `ctsw.c`, `init.c`)

The state of the system is taken at the call of `contextswitch`: the kernel and
the process about to run. A step is one turn of the loop of `dispatch`: the
process runs until it enters the kernel again, its request is served, and the
loop comes back to `contextswitch`. What the process does to the memory in
between is arbitrary and part of the step's label.
-/

namespace Xeros

open Lib

/-- How a process enters the kernel: through `syscall`, with the request in
`eax` and the address of the arguments in `edx`, or interrupted, with the `eax`
it had. -/
inductive Cause where
  | syscall (req args : Word)
  | timer (eax : Word)
  | keyboard (eax : Word)
  deriving DecidableEq, Repr

/-- One run of a process: what it does to the memory, the stack pointer and the
cause with which it enters the kernel, and what the kernel then finds there. -/
structure Trap where
  user : Bytes → Bytes
  esp : Word
  cause : Cause
  ambient : Ambient

/-- The request that `contextswitch` returns. -/
def Cause.request : Cause → Request
  | .syscall req _ => Request.ofWord req
  | .timer _ => .timer
  | .keyboard _ => .keyboard

/-- What `contextswitch` leaves in the pcb of the process that ran. An
interrupt keeps `eax` in `ret`. -/
def Pcb.enter (c : Pcb) (esp : Word) : Cause → Pcb
  | .syscall _ args => { c with esp := esp, args := args }
  | .timer eax => { c with esp := esp, ret := eax }
  | .keyboard eax => { c with esp := esp, ret := eax }

/-- `contextswitch`: the return value is stored in the place of the saved `eax`,
the process runs and comes back. -/
def contextswitch (k : Kernel) (p : Slot) (t : Trap) : Kernel :=
  let resumed := k.mem.putWord ((k.proctab p).esp + 28) (k.proctab p).ret
  (k.setMem (t.user resumed)).upd p fun c => c.enter t.esp t.cause

/-- `p->state=STATE_BLOCKED; p->ret=code; append(&blocked_q,p)`. -/
def block (k : Kernel) (fuel : Nat) (p : Slot) (code : Word) : Run Kernel :=
  append (k.upd p fun c => (c.setState .blocked).setRet code) fuel .blockedQ p

/-- `SYS_SEND`, up to the choice of the next process. -/
def sysSend (k : Kernel) (p : Slot) (a : Ambient) : Run Kernel := do
  let destPid := k.arg p 0
  let dest := slotOf destPid
  let (sent, k) := send k a destPid (k.arg p 1) (k.arg p 2).toInt p
  if 0 < sent then
    let k := (k.setRet p (toWord sent)).setRet dest (toWord sent)
    let k ← ready k p
    let (k, _) ← remove k a.fuel (getQ (k.proctab dest).state) (k.proctab dest).pid
    ready k dest
  else if sent < 0 then
    ready (k.setRet p (toWord sent)) p
  else
    block k a.fuel p Request.send.code

/-- `SYS_RECV`, up to the choice of the next process. The sender is looked up
again through `*from_pid`, after the message has been copied. -/
def sysRecv (k : Kernel) (p : Slot) (a : Ambient) : Run Kernel := do
  let fromPid := k.arg p 0
  let (recvd, k) ← recv k a fromPid (k.arg p 1) (k.arg p 2).toInt p
  let sndr := slotOf (k.mem.word fromPid)
  if 0 < recvd then
    let k := (k.setRet p (toWord recvd)).setRet sndr (toWord recvd)
    let k ← ready k p
    if (k.proctab sndr).pid ≠ 0 then
      let (k, _) ← remove k a.fuel (getQ (k.proctab sndr).state) (k.proctab sndr).pid
      ready k sndr
    else return k
  else if recvd < 0 then
    ready (k.setRet p (toWord recvd)) p
  else
    block k a.fuel p Request.recv.code

/-- `SYS_CREATE`. -/
def sysCreate (k : Kernel) (p : Slot) (a : Ambient) : Run Kernel := do
  let (pid, k) ← create k a.fuel (k.arg p 0) (k.arg p 1)
  return k.setRet p pid

/-- `SYS_STOP`, up to the choice of the next process. -/
def sysStop (k : Kernel) (p : Slot) (a : Ambient) : Run Kernel := do
  let k ← append (k.upd p fun c => (c.setState .stopped).setNext none) a.fuel .deadQ p
  notifyWaiters k a (k.proctab p).pid

/-- `SYS_TIMER`: the next process is chosen before the sleepers are counted
down. -/
def sysTimer (k : Kernel) (p : Slot) (a : Ambient) : Run (Kernel × Slot) := do
  let k ← ready k p
  let (k, p) ← reschedule k
  let k ← tick k a.fuel
  return (k, p)

/-- `SYS_SLEEP`, up to the choice of the next process. -/
def sysSleep (k : Kernel) (p : Slot) (a : Ambient) : Run Kernel := do
  kassert ((k.proctab p).state = .running)
  kassert ((k.proctab p).next = none)
  sleep k a.fuel (k.arg p 0) p

/-- The handler and the mask after `SYS_SIGHANDLER` has installed `fp`. -/
def Pcb.install (c : Pcb) (signum : Int) (fp : Word) : Pcb :=
  let c := c.setHandler signum fp
  if fp = 0 then { c with sigAllow := c.sigAllow &&& ~~~bit signum }
  else { c with sigAllow := c.sigAllow ||| bit signum }

/-- `SYS_SIGHANDLER`. -/
def sysSighandler (k : Kernel) (p : Slot) : Kernel :=
  let signum := (k.arg p 0).toInt
  let fp := k.arg p 1
  let oldFp := k.arg p 2
  if signum < 0 ∨ signum > maxSignal then k.setRet p (toWord invalidSignal)
  else
    let k := k.setMem (k.mem.putWord oldFp ((k.proctab p).handler signum))
    (k.upd p fun c => c.install signum fp).setRet p (toWord sighdlrOk)

/-- The pcb after `SYS_SIGRETURN`: the signal is recovered from the priority
mask, the mask and `ret` from the words saved below `oldSp`. -/
def Pcb.sigreturn (c : Pcb) (m : Bytes) (sig : Int) (oldSp : Word) : Pcb :=
  let completed := prMaskToSignum c.sigPriority sig
  let c := { c with
    sigPriority := m.word (oldSp - 8)
    ret := m.word (oldSp - 4)
    esp := oldSp
    sigPending := c.sigPending &&& ~~~bit completed }
  if c.sigPending = 0 then
    if c.sigwaiter = 1 then { c with ret := toWord completed, sigwaiter := 0 }
    else { c with ret := toWord eintr }
  else c

/-- `SYS_SIGRETURN`. -/
def sysSigreturn (k : Kernel) (p : Slot) (a : Ambient) : Kernel :=
  k.upd p fun c => c.sigreturn k.mem a.sig (k.arg p 0)

/-- `SYS_SIGKILL`. -/
def sysSigkill (k : Kernel) (p : Slot) (a : Ambient) : Run Kernel := do
  let (rc, k) ← signal k a (k.arg p 0).toInt (k.arg p 1).toInt
  return k.setRet p (toWord rc)

/-- `SYS_SIGWAIT`, when the process has a handler. -/
def sysSigwait (k : Kernel) (p : Slot) (a : Ambient) : Run Kernel :=
  block (k.upd p fun c => { c with sigwaiter := 1, next := none }) a.fuel p
    Request.sigwait.code

/-- `printbuffer`: `blkcopy` takes the destination first, so the buffer of the
caller is overwritten. A length that does not fit the local buffer destroys the
kernel stack. -/
def printbuffer (k : Kernel) (a : Ambient) (buff : Word) (len : Int) : Run Kernel :=
  if 0 ≤ len ∧ len < 256 then
    return k.setMem (k.mem.splice buff len.toNat a.localbuff)
  else .error .wild

/-- `SYS_WRITE`. -/
def sysWrite (k : Kernel) (p : Slot) (a : Ambient) : Run Kernel := do
  let fd := (k.arg p 0).toInt
  let buff := k.arg p 1
  let bufflen := (k.arg p 2).toInt
  let k ← printbuffer k a buff bufflen
  let (rc, k) := diWrite k p fd buff bufflen
  return k.setRet p (toWord rc)

/-- `SYS_READ`: the process blocks when its read has been registered. -/
def sysRead (k : Kernel) (p : Slot) (a : Ambient) : Run (Kernel × Slot) := do
  let (rc, k) := diRead k p (k.arg p 0).toInt (k.arg p 1) (k.arg p 2).toInt
  if rc = eof then return (k.setRet p 0, p)
  else if rc = registeredKbdread then
    let k ← block (k.upd p fun c => c.setNext none) a.fuel p Request.read.code
    reschedule k
  else if rc < 0 then return (k.setRet p (toWord rc), p)
  else return (k.setRet p (-1), p)

/-- `SYS_KEYBOARD`. -/
def sysKeyboard (k : Kernel) (a : Ambient) : Run Kernel :=
  if a.control &&& 1 ≠ 0 then processKey k a else return k

/-- The `switch` of `dispatch`: serve a request of `p` and choose the process
that runs next. -/
def serve (k : Kernel) (p : Slot) (a : Ambient) : Request → Run (Kernel × Slot)
  | .create => do return (← sysCreate k p a, p)
  | .yield => do reschedule (← ready k p)
  | .stop => do reschedule (← sysStop k p a)
  | .getpid => return (k.setRet p (k.proctab p).pid, p)
  | .puts => return (k, p)
  | .send => do reschedule (← sysSend k p a)
  | .recv => do reschedule (← sysRecv k p a)
  | .timer => sysTimer k p a
  | .sleep => do reschedule (← sysSleep k p a)
  | .sighandler => return (sysSighandler k p, p)
  | .sigreturn => return (sysSigreturn k p a, p)
  | .sigkill => do return (← sysSigkill k p a, p)
  | .sigwait =>
    if (k.proctab p).sigAllow = 0 then return (k.setRet p (toWord signalInvalid), p)
    else do reschedule (← sysSigwait k p a)
  | .openDev =>
    let (rc, k) := diOpen k p (k.arg p 0)
    return (k.setRet p (toWord rc), p)
  | .close =>
    let (rc, k) := diClose k p (k.arg p 0).toInt
    return (k.setRet p (toWord rc), p)
  | .write => do return (← sysWrite k p a, p)
  | .read => sysRead k p a
  | .ioctl =>
    let (rc, k) := diIoctl k a p (k.arg p 0).toInt (k.arg p 1).toInt (k.arg p 2)
    return (k.setRet p (toWord rc), p)
  | .keyboard => do return (← sysKeyboard k a, p)
  | .bad => return (k, p)

/-- The state of the system at a call of `contextswitch`. -/
structure Disp where
  k : Kernel
  p : Slot

/-- The head of the loop: `p` is to run, and gets its signals. -/
def loopTop (k : Kernel) (p : Slot) : Disp :=
  { k := deliverSignalsIfany (run k p) p, p := p }

/-- One turn of the loop of `dispatch`. -/
def turn (s : Disp) (t : Trap) : Run Disp := do
  let (k, p) ← serve (contextswitch s.k s.p t) s.p t.ambient t.cause.request
  return loopTop k p

/-- The pcb that `dispatchinit` fills the table with. -/
def zeroPcb : Pcb :=
  { esp := 0, next := none, state := .stopped, pid := 0, ret := 0, args := 0,
    sleepticks := 0, sigPending := 0, sigAllow := 0, sigPriority := 0,
    sigHandler := fun _ => 0,
    fd := fun _ => { major := 0, devTab := 0, status := .closed }, sigwaiter := 0 }

/-- `dispatchinit`: all pcbs are zero, and no variable has been set. -/
def dispatchinit (img : Image) : Kernel :=
  { img := img, proctab := fun _ => zeroPcb, nullPcb := img.low, pastPid := 0,
    head := none, tail := none, running := none, blockedQ := none, deadQ := none,
    headsleeper := none, idleprocPid := 0, devtab := fun _ => unsupportedDevice,
    kbd :=
      { kbdbuffer := 0, kbdbufidx := 0, applbuffer := 0, applbufsize := 0,
        applbufidx := 0, reader := none, eofReceived := false, eofEndbyte := 0x20,
        keyState := 0 },
    heap := { head := 0, hdr := fun _ => { next := 0, prev := 0, size := 0 } },
    mem := img.mem }

/-- `idleproc_pid = pid`. -/
@[simps -fullyApplied] def Kernel.setIdle (k : Kernel) (pid : Word) : Kernel := { k with idleprocPid := pid }

/-- `initproc` up to the call of `dispatch`: the root process and the idle
process are created. -/
def initproc (img : Image) : Run Kernel := do
  let k := dispatchinit img
  let k := deviceinit (k.setHeap (kmeminit img.freemem k.heap.hdr))
  let (_, k) ← create k 2 img.root procStack
  let (pid, k) ← create k 2 img.idleproc procStack
  return k.setIdle pid

/-- The first process reaches `contextswitch`. -/
def boot (img : Image) : Run Disp := do
  let k ← initproc img
  let (k, p) ← next k
  return loopTop k p

/-- The dispatcher as a transition system. -/
def dispatcher : TSys Disp Trap where
  init s := ∃ img, boot img = .ok s
  step s t s' := turn s t = .ok s'

end Xeros
