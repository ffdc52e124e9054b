import Xeros.Kernel.DiCalls
import Mathlib.Logic.Function.Basic

/-!
# Device-independent calls over any drivers

`di_calls.c` knows a driver by the function pointers of its entry in `devtab` only. Here
these functions are a parameter: what they are, what the table holds and what a call of one
does. A call says which function it has invoked. `kernelDrivers` is the instance that the
kernel is built with.
-/

namespace Xeros

open Lib

/-- The function pointers of `devsw`. -/
inductive DevOp where
  | dvopen | dvclose | dvwrite | dvread | dvioctl

/-- A device-independent call and its arguments. -/
inductive DeviceCall where
  | openDev (devno : Word)
  | close (fd : Int)
  | write (fd : Int) (buff : Word) (bufflen : Int)
  | read (fd : Int) (buff : Word) (bufflen : Int)
  | ioctl (fd : Int) (a : Ambient) (command : Int) (arg : Word)

/-- The function pointer that a call goes through. -/
def DeviceCall.op : DeviceCall → DevOp
  | .openDev _ => .dvopen
  | .close _ => .dvclose
  | .write _ _ _ => .dvwrite
  | .read _ _ _ => .dvread
  | .ioctl _ _ _ _ => .dvioctl

/-- Descriptors, a table of devices and their functions. A driver leaves the descriptors
alone. -/
structure Drivers (σ : Type) (φ : DevOp → Type) where
  fd : σ → Slot → Fin maxFiles → Fildes
  setFd : σ → Slot → Fin maxFiles → Fildes → σ
  /-- The slot of `proctab[p->pid%MAX_PROC]`. -/
  home : σ → Slot → Slot
  devtab : σ → Fin maxDevice → (o : DevOp) → φ o
  call : (c : DeviceCall) → φ c.op → σ → Slot → Int × σ
  fd_setFd : ∀ s p i d,
    fd (setFd s p i d) = Function.update (fd s) p (Function.update (fd s p) i d)
  devtab_setFd : ∀ s p i d, devtab (setFd s p i d) = devtab s
  fd_call : ∀ c f s p, fd (call c f s p).2 = fd s

namespace Drivers

variable {σ : Type} {φ : DevOp → Type} (D : Drivers σ φ)

/-- `validate_fd`. -/
def validateFd (s : σ) (p : Slot) (fd : Int) : Option (Fin maxFiles) :=
  if h : 0 ≤ fd ∧ fd < maxFiles then
    let i : Fin maxFiles := ⟨fd.toNat, (Int.toNat_lt h.1).mpr h.2⟩
    if (D.fd s p i).status = .opened then some i else none
  else none

/-- The call of the function that descriptor `i` leads to, and this function. -/
def invoke (c : DeviceCall) (s : σ) (p : Slot) (i : Fin maxFiles) : (Int × σ) × φ c.op :=
  let f := D.devtab s (D.fd s p i).devTab c.op
  (D.call c f s p, f)

/-- `di_open`. -/
def diOpen (s : σ) (p : Slot) (devno : Word) : (Int × σ) × Option (φ .dvopen) :=
  if devno.toInt ≤ maxDevice then
    let t := D.home s p
    let s := D.setFd s t 0 { D.fd s t 0 with devTab := 0 }
    match scanFds (D.fd s t) devno (List.finRange maxFiles) with
    | none => ((-1, s), none)
    | some i =>
      let s := D.setFd s t i { major := devno, devTab := 0, status := .opened }
      let ((rc, s), f) := D.invoke (.openDev devno) s p i
      (if 0 < rc then (i.val, s) else (rc, s), some f)
  else ((-1, s), none)

/-- `di_close`. -/
def diClose (s : σ) (p : Slot) (fd : Int) : (Int × σ) × Option (φ .dvclose) :=
  match D.validateFd s p fd with
  | none => ((-1, s), none)
  | some i =>
    let ((result, s), f) := D.invoke (.close fd) s p i
    (if result = 0 then (result, D.setFd s p i { D.fd s p i with status := .closed })
      else (result, s), some f)

/-- The calls that go through an open descriptor and no more. -/
def through (c : DeviceCall) (s : σ) (p : Slot) (fd : Int) : (Int × σ) × Option (φ c.op) :=
  match D.validateFd s p fd with
  | none => ((-1, s), none)
  | some i => ((D.invoke c s p i).1, some (D.invoke c s p i).2)

/-- `di_write`. -/
def diWrite (s : σ) (p : Slot) (fd : Int) (buff : Word) (bufflen : Int) :
    (Int × σ) × Option (φ .dvwrite) := D.through (.write fd buff bufflen) s p fd

/-- `di_read`. -/
def diRead (s : σ) (p : Slot) (fd : Int) (buff : Word) (bufflen : Int) :
    (Int × σ) × Option (φ .dvread) := D.through (.read fd buff bufflen) s p fd

/-- `di_ioctl`. -/
def diIoctl (s : σ) (p : Slot) (fd : Int) (a : Ambient) (command : Int) (arg : Word) :
    (Int × σ) × Option (φ .dvioctl) := D.through (.ioctl fd a command arg) s p fd

/-- A call: the code it returns, the state after it, and the function it has invoked. -/
def run (s : σ) (p : Slot) : (c : DeviceCall) → (Int × σ) × Option (φ c.op)
  | .openDev devno => D.diOpen s p devno
  | .close fd => D.diClose s p fd
  | .write fd buff bufflen => D.diWrite s p fd buff bufflen
  | .read fd buff bufflen => D.diRead s p fd buff bufflen
  | .ioctl fd a command arg => D.diIoctl s p fd a command arg

end Drivers

/-! ## The drivers of the kernel -/

/-- The functions that the kernel registers. -/
abbrev KernelFn : DevOp → Type
  | .dvopen => OpenFn
  | .dvclose => CloseFn
  | .dvwrite => TransferFn
  | .dvread => TransferFn
  | .dvioctl => IoctlFn

/-- The function registered under a pointer of `devsw`. -/
def Devsw.fn (d : Devsw) : (o : DevOp) → KernelFn o
  | .dvopen => d.dvopen
  | .dvclose => d.dvclose
  | .dvwrite => d.dvwrite
  | .dvread => d.dvread
  | .dvioctl => d.dvioctl

/-- Call a function of the kernel. -/
def callDriver : (c : DeviceCall) → KernelFn c.op → Kernel → Slot → Int × Kernel
  | .openDev _, f, k, p => callOpen f k p
  | .close _, f, k, _ => callClose f k
  | .write _ buff bufflen, f, k, p => callTransfer f k p buff bufflen
  | .read _ buff bufflen, f, k, p => callTransfer f k p buff bufflen
  | .ioctl _ a command arg, f, k, _ => callIoctl f k a command arg

/-- No function of the kernel changes a pcb. -/
theorem callDriver_proctab (c : DeviceCall) (f : KernelFn c.op) (k : Kernel) (p : Slot) :
    (callDriver c f k p).2.proctab = k.proctab := by
  have hecho : ∀ buff len, (ekbdRead k p buff len).2.proctab = k.proctab := by
    intro buff len
    unfold ekbdRead
    split
    · rfl
    · rfl
  have htransfer : ∀ (f : TransferFn) buff len,
      (callTransfer f k p buff len).2.proctab = k.proctab := by
    intro f buff len
    cases f with
    | unsupported => rfl
    | kbdRead =>
        unfold callTransfer kbdRead
        dsimp only
        split
        · rfl
        · exact hecho buff len
    | ekbdRead => exact hecho buff len
  cases c with
  | openDev devno =>
      change OpenFn at f
      cases f with
      | unsupported => rfl
      | kbdOpen => rfl
  | close fd =>
      change CloseFn at f
      cases f with
      | unsupported => rfl
      | kbdClose => rfl
  | write fd buff len => exact htransfer f buff len
  | read fd buff len => exact htransfer f buff len
  | ioctl fd a command arg =>
      change IoctlFn at f
      cases f with
      | unsupported => rfl
      | kbdIoctl =>
          unfold callDriver callIoctl kbdIoctl
          dsimp only
          split
          · rfl
          split
          · rfl
          · rfl

/-- The drivers of the kernel. -/
def kernelDrivers : Drivers Kernel KernelFn where
  fd k p := (k.proctab p).fd
  setFd k p i d := k.upd p fun c => c.setFd i d
  home k p := slotOf (k.proctab p).pid
  devtab k i := (k.devtab i).fn
  call := callDriver
  fd_setFd k p i d := by
    funext q j
    by_cases hq : q = p
    · subst hq
      rw [Kernel.upd_proctab_self, Function.update_self]
      by_cases hj : j = i
      · simp [Pcb.setFd, hj]
      · simp [Pcb.setFd, hj]
    · rw [Kernel.upd_proctab_ne _ _ _ hq, Function.update_of_ne hq]
  devtab_setFd _ _ _ _ := rfl
  fd_call c f k p := by rw [callDriver_proctab]

end Xeros
