import Xeros.Lib.Bytes
import Mathlib.Tactic.Simps.Basic

/-!
# Kernel state (`xeroskernel.h`)

The process table, the queue heads and the other kernel variables that the
dispatcher reads and writes. A pointer to a pcb is an `Option Slot`: every
pcb the kernel ever points to is an element of `proctab`, and `none` is `NULL`.
Address 0 is ordinary memory on this machine, so a `NULL` pcb pointer can be
read and written through; `nullPcb` is what is found there.

`mem` is the memory user code and the kernel share (stacks, buffers, argument
words). The kernel's own variables are not part of it: the model assumes user
code does not write them.
-/

namespace Xeros

open Lib

/-- `MAX_PROC`, `MAXFILES`, `MAX_DEVICE`. -/
abbrev maxProc : Nat := 64
abbrev maxFiles : Nat := 4
abbrev maxDevice : Nat := 16

instance : @NeZero Nat Zero.ofOfNat0 maxProc := ⟨Nat.succ_ne_zero _⟩
instance : @NeZero Nat Zero.ofOfNat0 maxFiles := ⟨Nat.succ_ne_zero _⟩
instance : @NeZero Nat Zero.ofOfNat0 maxDevice := ⟨Nat.succ_ne_zero _⟩

/-- An index into `proctab`. -/
abbrev Slot := Fin maxProc

/-- `pid % MAX_PROC`. -/
def slotOf (pid : Word) : Slot := ⟨pid.toNat % maxProc, Nat.mod_lt _ (by decide)⟩

/-- `SYS_*`, the request types. `bad` is any other number. -/
inductive Request where
  | stop | yield | create | timer | getpid | puts | send | recv | sleep | sighandler
  | sigreturn | sigkill | sigwait | openDev | close | write | read | ioctl | keyboard
  | bad
  deriving DecidableEq, Repr

/-- The request number, which is also the tag a blocked process carries in
`ret`. -/
def Request.code : Request → Word
  | .stop => 0 | .yield => 1 | .create => 2 | .timer => 3 | .getpid => 4
  | .puts => 5 | .send => 6 | .recv => 7 | .sleep => 8 | .sighandler => 9
  | .sigreturn => 10 | .sigkill => 11 | .sigwait => 12 | .openDev => 13
  | .close => 14 | .write => 15 | .read => 16 | .ioctl => 17 | .keyboard => 18
  | .bad => -1

/-- The case of the dispatcher that a request number selects. -/
def Request.ofWord (r : Word) : Request :=
  match r.toNat with
  | 0 => .stop | 1 => .yield | 2 => .create | 3 => .timer | 4 => .getpid
  | 5 => .puts | 6 => .send | 7 => .recv | 8 => .sleep | 9 => .sighandler
  | 10 => .sigreturn | 11 => .sigkill | 12 => .sigwait | 13 => .openDev
  | 14 => .close | 15 => .write | 16 => .read | 17 => .ioctl | 18 => .keyboard
  | _ => .bad

/-- Return codes of messages, signals and devices. -/
abbrev badPid : Int := -1
abbrev srcDstSame : Int := -2
abbrev badBufferParm : Int := -3
abbrev wouldDeadlock : Int := -4
abbrev sighdlrOk : Int := 0
abbrev invalidSignal : Int := -1
abbrev invalidPid : Int := -1
abbrev invalidSig : Int := -2
abbrev signalInvalid : Int := -3
abbrev eintr : Int := -128
abbrev eof : Int := -2
abbrev registeredKbdread : Int := 1
abbrev unsupportedDevOp : Int := -1

/-- `MAXSIGNAL`, `MINSIGNAL`. -/
abbrev maxSignal : Int := 31
abbrev minSignal : Int := 0

/-- `HOLESTART`, `HOLEEND`. -/
abbrev holeStart : Word := 0xA0000
abbrev holeEnd : Word := 0x196000

/-- An `int` as it is stored in a word. -/
abbrev toWord (n : Int) : Word := BitVec.ofInt 32 n

/-- `1 << n`: the shift counts modulo 32. -/
def bit (n : Int) : Word := 1#32 <<< (n % 32).toNat

/-- `STATE_*`. -/
inductive PState where
  | stopped | ready | running | dead | blocked | sleep
  deriving DecidableEq, Repr

/-- `DEV_CLOSED`, `DEV_OPEN`. -/
inductive DevStatus where
  | closed | opened
  deriving DecidableEq, Repr

/-- `fildes`, less the fields that no code reads. `devTab` is the entry of
`devtab` that `dev_tab` points to. -/
structure Fildes where
  major : Word
  devTab : Fin maxDevice
  status : DevStatus

/-- `pcb`. -/
structure Pcb where
  esp : Word
  next : Option Slot
  state : PState
  pid : Word
  ret : Word
  args : Word
  sleepticks : Word
  sigPending : Word
  sigAllow : Word
  sigPriority : Word
  sigHandler : Fin 31 → Word
  fd : Fin maxFiles → Fildes
  sigwaiter : Word

/-- The registered `dvopen` functions. -/
inductive OpenFn where
  | unsupported | kbdOpen
  deriving DecidableEq, Repr

/-- The registered `dvclose` functions. -/
inductive CloseFn where
  | unsupported | kbdClose
  deriving DecidableEq, Repr

/-- The registered `dvread` and `dvwrite` functions. -/
inductive TransferFn where
  | unsupported | kbdRead | ekbdRead
  deriving DecidableEq, Repr

/-- The registered `dvioctl` functions. -/
inductive IoctlFn where
  | unsupported | kbdIoctl
  deriving DecidableEq, Repr

/-- `devsw`, less the number that no code reads. -/
structure Devsw where
  dvopen : OpenFn
  dvclose : CloseFn
  dvwrite : TransferFn
  dvread : TransferFn
  dvioctl : IoctlFn

/-- The variables of the keyboard driver (`kbd.c`) and of the scan code
translation (`scanToASCII.c`, `keyState` for its `state`). `device` only
decides about the echo and is left out. -/
structure Kbd where
  kbdbuffer : Word
  kbdbufidx : Int
  applbuffer : Word
  applbufsize : Int
  applbufidx : Int
  reader : Option Slot
  eofReceived : Bool
  eofEndbyte : Byte
  keyState : Word

/-- `struct_mem`, the header of a free block. -/
structure MemHdr where
  next : Word
  prev : Word
  size : Word

/-- The allocator (`mem.c`): its list head and the headers by address. They are kept apart from
the bytes of the memory: setting a header changes none of these. -/
structure Heap where
  head : Word
  hdr : Word → MemHdr

/-- What linking and loading fix. The kernel and its stack end well below the
hole, so that the two processes made at boot get their stacks. -/
structure Image where
  freemem : Word
  maxaddr : Word
  cs : Word
  sigtramp : Word
  sysstop : Word
  root : Word
  idleproc : Word
  mem : Bytes
  /-- What lies at address 0, read as a pcb. -/
  low : Pcb
  freemem_lt : freemem.toNat < 0x90000

/-- The kernel variables and the memory. This answers at every address: the limit of the data
segment and the exception beyond it are left out. -/
structure Kernel where
  img : Image
  proctab : Slot → Pcb
  nullPcb : Pcb
  /-- `proctab[MAX_PROC].pid`, the word just past the table that `create`
  writes when the table is full. -/
  pastPid : Word
  head : Option Slot
  tail : Option Slot
  running : Option Slot
  blockedQ : Option Slot
  deadQ : Option Slot
  headsleeper : Option Slot
  idleprocPid : Word
  devtab : Fin maxDevice → Devsw
  kbd : Kbd
  heap : Heap
  mem : Bytes

/-- Why a trip through the kernel does not come back to user code. -/
inductive Halt where
  /-- A `kassert` failed: the kernel executes `halt`. -/
  | kassert
  /-- A loop has not ended within the iterations allowed to the trip. -/
  | spin
  /-- A wild pointer was followed or the kernel stack overwritten. -/
  | wild
  deriving DecidableEq, Repr

/-- A kernel computation: it may stop for good. -/
abbrev Run := Except Halt

/-- `kassert`. -/
def kassert (b : Prop) [Decidable b] : Run Unit :=
  if b then .ok () else .error .kassert

/-- What the code reads that no variable of it holds: uninitialised locals,
words outside an array, device ports. `fuel` bounds the iterations of each
loop over links in one trip through the kernel; a run may choose it afresh for
every trip, so no run is lost. -/
structure Ambient where
  fuel : Nat
  /-- The uninitialised `destpid` of `notify_waiters`. -/
  destpid : Word
  /-- The uninitialised `sig` of `pr_mask_to_signum`. -/
  sig : Int
  /-- The uninitialised `localbuff` of `printbuffer`. -/
  localbuff : Word → Byte
  /-- The `state` found at a negative index into `proctab`. -/
  stateBelow : Int → PState
  /-- Whether a word past the end of `cmds` equals the command. -/
  strayCmd : Int → Bool
  /-- `inb(i8042_control_port)`. -/
  control : Byte
  /-- `inb(i8042_datasrc_port)`. -/
  datasrc : Byte

@[simp] theorem kassert_eq_ok {b : Prop} [Decidable b] {u : Unit} :
    kassert b = .ok u ↔ b := by
  unfold kassert
  split <;> simp_all

/-- A computation that comes back came back at each of its parts. -/
theorem Run.bind_eq_ok {α β : Type} {x : Run α} {f : α → Run β} {b : β} :
    x >>= f = .ok b ↔ ∃ a, x = .ok a ∧ f a = .ok b := by
  cases x with
  | error e => simp [bind, Except.bind]
  | ok a => simp [bind, Except.bind]

namespace Pcb

/-- `p->next = o`. -/
@[simps -fullyApplied] def setNext (c : Pcb) (o : Option Slot) : Pcb := { c with next := o }

/-- `p->state = s`. -/
@[simps -fullyApplied] def setState (c : Pcb) (s : PState) : Pcb := { c with state := s }

/-- `p->ret = v`. -/
@[simps -fullyApplied] def setRet (c : Pcb) (v : Word) : Pcb := { c with ret := v }

/-- `p->sleepticks = n`. -/
@[simps -fullyApplied] def setTicks (c : Pcb) (n : Word) : Pcb := { c with sleepticks := n }

end Pcb

namespace Kernel

/-- `head = o`. -/
@[simps -fullyApplied] def setHead (k : Kernel) (o : Option Slot) : Kernel := { k with head := o }

/-- `tail = o`. -/
@[simps -fullyApplied] def setTail (k : Kernel) (o : Option Slot) : Kernel := { k with tail := o }

/-- `running = o`. -/
@[simps -fullyApplied] def setRunning (k : Kernel) (o : Option Slot) : Kernel := { k with running := o }

/-- `blocked_q = o`. -/
@[simps -fullyApplied] def setBlockedQ (k : Kernel) (o : Option Slot) : Kernel := { k with blockedQ := o }

/-- `dead_q = o`. -/
@[simps -fullyApplied] def setDeadQ (k : Kernel) (o : Option Slot) : Kernel := { k with deadQ := o }

/-- `headsleeper = o`. -/
@[simps -fullyApplied] def setSleeper (k : Kernel) (o : Option Slot) : Kernel := { k with headsleeper := o }

/-- The memory is overwritten. -/
@[simps -fullyApplied] def setMem (k : Kernel) (m : Bytes) : Kernel := { k with mem := m }

/-- The variables of the keyboard driver are overwritten. -/
@[simps -fullyApplied] def setKbd (k : Kernel) (b : Kbd) : Kernel := { k with kbd := b }

/-- Update the pcb in slot `q`. -/
def upd (k : Kernel) (q : Slot) (f : Pcb → Pcb) : Kernel :=
  { k with proctab := fun r => if r = q then f (k.proctab q) else k.proctab r }

section Upd

variable (k : Kernel) (q : Slot) (f : Pcb → Pcb)

theorem upd_proctab (r : Slot) :
    (k.upd q f).proctab r = if r = q then f (k.proctab q) else k.proctab r := rfl

@[simp] theorem upd_proctab_self : (k.upd q f).proctab q = f (k.proctab q) := by
  simp [upd_proctab]

@[simp] theorem upd_proctab_ne {r : Slot} (h : r ≠ q) :
    (k.upd q f).proctab r = k.proctab r := by
  simp [upd_proctab, h]

@[simp] theorem upd_head : (k.upd q f).head = k.head := rfl
@[simp] theorem upd_tail : (k.upd q f).tail = k.tail := rfl
@[simp] theorem upd_running : (k.upd q f).running = k.running := rfl
@[simp] theorem upd_blockedQ : (k.upd q f).blockedQ = k.blockedQ := rfl
@[simp] theorem upd_deadQ : (k.upd q f).deadQ = k.deadQ := rfl
@[simp] theorem upd_headsleeper : (k.upd q f).headsleeper = k.headsleeper := rfl
@[simp] theorem upd_idleprocPid : (k.upd q f).idleprocPid = k.idleprocPid := rfl
@[simp] theorem upd_img : (k.upd q f).img = k.img := rfl
@[simp] theorem upd_kbd : (k.upd q f).kbd = k.kbd := rfl
@[simp] theorem upd_devtab : (k.upd q f).devtab = k.devtab := rfl
@[simp] theorem upd_heap : (k.upd q f).heap = k.heap := rfl
@[simp] theorem upd_mem : (k.upd q f).mem = k.mem := rfl

end Upd

/-- The pcb a pointer leads to. -/
def deref (k : Kernel) : Option Slot → Pcb
  | some q => k.proctab q
  | none => k.nullPcb

/-- Write through a pointer to a pcb. -/
def updPtr (k : Kernel) (o : Option Slot) (f : Pcb → Pcb) : Kernel :=
  match o with
  | some q => k.upd q f
  | none => { k with nullPcb := f k.nullPcb }

/-- `p->ret = v`. -/
def setRet (k : Kernel) (p : Slot) (v : Word) : Kernel := k.upd p fun c => c.setRet v

/-- The `i`-th of the words that `args` points to (`va_arg`). -/
def arg (k : Kernel) (p : Slot) (i : Nat) : Word :=
  k.mem.word ((k.proctab p).args + BitVec.ofNat 32 (4 * i))

end Kernel

end Xeros
