import Xeros.Kernel.Queue

/-!
# Signals (`signal.c`, and the delivery in `disp.c`)

A signal is posted by setting its bit in `sig_pending` and delivered by
building a frame on the process's stack that makes it enter `sigtramp`. The
handler table has one entry fewer than there are signals: entry 31 is the word
that follows the table in the pcb, the major number of descriptor 0.
-/

namespace Xeros

open Lib

/-- `p->sig_handler[signum]`. -/
def Pcb.handler (c : Pcb) (signum : Int) : Word :=
  let n := signum.toNat
  if h : n < 31 then c.sigHandler ⟨n, h⟩ else (c.fd 0).major

/-- `p->sig_handler[signum] = fp`. -/
def Pcb.setHandler (c : Pcb) (signum : Int) (fp : Word) : Pcb :=
  let n := signum.toNat
  if n < 31 then
    { c with sigHandler := fun i => if i.val = n then fp else c.sigHandler i }
  else
    { c with fd := fun i => if i = 0 then { c.fd 0 with major := fp } else c.fd i }

/-- The `state` that `proctab[pid%MAX_PROC]` shows; a negative `pid` indexes
below the table. -/
def stateOfPid (k : Kernel) (a : Ambient) (pid : Int) : PState :=
  let i := pid.tmod maxProc
  if h : 0 ≤ i ∧ i.toNat < maxProc then (k.proctab ⟨i.toNat, h.2⟩).state
  else a.stateBelow i

/-- `validpid`. -/
def validpid (k : Kernel) (a : Ambient) (pid : Int) : Int :=
  if stateOfPid k a pid = .dead ∨ stateOfPid k a pid = .stopped then invalidPid else 1

/-- `validsignal`. The range that is checked is that of `pid`. -/
def validsignal (k : Kernel) (signo pid : Int) : Int :=
  if pid < minSignal ∨ pid > maxSignal then invalidSig
  else if bit signo &&& (k.proctab (slotOf (toWord pid))).sigAllow = 0 then signalInvalid
  else 1

/-- `p->sig_pending = (p->sig_pending)|(1<<sig_no)`. -/
@[simps -fullyApplied] def Pcb.pend (c : Pcb) (signo : Int) : Pcb :=
  { c with sigPending := c.sigPending ||| bit signo }

/-- Note a signal of `t` as pending. A blocked or sleeping target is made ready. -/
def post (k : Kernel) (t : Slot) (signo : Int) : Run Kernel :=
  let k := k.upd t fun c => c.pend signo
  match (k.proctab t).state with
  | .blocked => do
    let k ← ready k t
    if (k.proctab t).ret = Request.sigwait.code then return k.setRet t (toWord signo)
    else return k.setRet t (toWord eintr)
  | .sleep => do
    let k ← ready k t
    return k.setRet t (k.proctab t).sleepticks
  | _ => return k

/-- `signal`: post a signal to the process with the given pid. -/
def signal (k : Kernel) (a : Ambient) (pid signo : Int) : Run (Int × Kernel) := do
  if validpid k a pid = 0 then return (invalidPid, k)
  if validsignal k signo pid < 0 then return (invalidSignal, k)
  return (sighdlrOk, ← post k (slotOf (toWord pid)) signo)

/-- The loop of `pr_mask_to_signum`: the first set bit among `i ≤ 30`, or the
uninitialised `sig`. -/
def firstSet (mask : Word) (sig : Int) : Nat → Nat → Int
  | 0, _ => sig
  | n + 1, i => if mask &&& bit i ≠ 0 then i else firstSet mask sig n (i + 1)

/-- `pr_mask_to_signum`: the signal whose handler runs under a priority mask. -/
def prMaskToSignum (mask : Word) (sig : Int) : Int :=
  if mask = 0 then maxSignal
  else if mask = -1 then minSignal
  else firstSet mask sig 31 0 - 1

/-- `get_priority_mask`: the mask that accepts the higher signals only. -/
def getPriorityMask (signalnumber : Int) : Word :=
  if signalnumber = maxSignal then 0
  else (-1 : Word) <<< ((signalnumber + 1) % 32).toNat

/-- The loop of `get_next_signal`, downwards from bit `n - 1`. -/
def highestSet (pending : Word) : Nat → Int
  | 0 => -1
  | n + 1 => if pending &&& bit n ≠ 0 then n else highestSet pending n

/-- `get_next_signal`: the highest signal of a set, -1 for the empty set. -/
def getNextSignal (pendingSignals : Word) : Int := highestSet pendingSignals 32

/-- `sizeof(sigtramp_setup_frame)`. -/
abbrev sigtrampFrameSize : Word := 68

/-- `INTR_ENA_EFLAGS`. -/
abbrev intrEnaEflags : Word := 0x3200

/-- The frame that `modify_process_stack` builds below `sp`. -/
def setupFrame (k : Kernel) (c : Pcb) (signum : Int) : Bytes :=
  let ssf := c.esp - sigtrampFrameSize
  let m := k.mem.splice ssf 68 fun _ => 0x81
  let m := m.putWord (ssf + 12) (ssf + 68)              -- esp
  let m := m.putWord (ssf + 8) c.esp                    -- ebp
  let m := m.putWord (ssf + 32) k.img.sigtramp          -- eip
  let m := m.putWord (ssf + 36) k.img.cs                -- cs
  let m := m.putWord (ssf + 40) intrEnaEflags           -- flags
  let m := m.putWord (ssf + 44) (m.word (c.esp + 8))    -- ret_addr
  let m := m.putWord (ssf + 48) (c.handler signum)      -- handler
  let m := m.putWord (ssf + 52) c.esp                   -- context_ptr
  let m := m.putWord (ssf + 56) c.esp                   -- old_sp
  let m := m.putWord (ssf + 60) c.sigPriority           -- saved_priority_mask
  m.putWord (ssf + 64) c.ret                            -- saved_retval

/-- `modify_process_stack`: make `p` enter `sigtramp` for the signal. -/
def modifyProcessStack (k : Kernel) (p : Slot) (signum : Int) : Kernel :=
  (k.setMem (setupFrame k (k.proctab p) signum)).upd p
    fun c => { c with esp := c.esp - sigtrampFrameSize }

/-- The test of `deliver_signals_ifany`. -/
def deliverable (c : Pcb) : Prop :=
  0 < c.sigPending ∧ c.sigPending &&& c.sigAllow &&& c.sigPriority ≠ 0

instance (c : Pcb) : Decidable (deliverable c) :=
  inferInstanceAs (Decidable (_ ∧ _))

/-- `deliver_signals_ifany`. -/
def deliverSignalsIfany (k : Kernel) (p : Slot) : Kernel :=
  if deliverable (k.proctab p) then
    let signum := getNextSignal (k.proctab p).sigPending
    let k := modifyProcessStack k p signum
    k.upd (slotOf (k.proctab p).pid)
      fun c => { c with sigPriority := getPriorityMask signum }
  else k

end Xeros
