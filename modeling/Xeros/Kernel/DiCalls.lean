import Xeros.Kernel.Kbd

/-!
# Device-independent calls (`di_calls.c`)

A descriptor points into the device table and the call goes through the entry
found there. `createFDTentry` always stores the base of the table, so the entry
is that of device 0 whatever the device number.
-/

namespace Xeros

open Lib

/-- `UNSUPPORTED_DEV_OP` from every function. -/
def unsupportedDevice : Devsw :=
  { dvopen := .unsupported, dvclose := .unsupported, dvwrite := .unsupported,
    dvread := .unsupported, dvioctl := .unsupported }

/-- `deviceinit`. -/
def deviceinit (k : Kernel) : Kernel :=
  keyboardInit { k with devtab := fun _ => unsupportedDevice }

/-- Call through `dvopen`. -/
def callOpen (f : OpenFn) (k : Kernel) (p : Slot) : Int × Kernel :=
  match f with
  | .unsupported => (unsupportedDevOp, k)
  | .kbdOpen => kbdOpen k p

/-- Call through `dvclose`. -/
def callClose (f : CloseFn) (k : Kernel) : Int × Kernel :=
  match f with
  | .unsupported => (unsupportedDevOp, k)
  | .kbdClose => kbdClose k

/-- Call through `dvread` or `dvwrite`. -/
def callTransfer (f : TransferFn) (k : Kernel) (p : Slot) (buff : Word)
    (bufflen : Int) : Int × Kernel :=
  match f with
  | .unsupported => (unsupportedDevOp, k)
  | .kbdRead => kbdRead k p buff bufflen
  | .ekbdRead => ekbdRead k p buff bufflen

/-- Call through `dvioctl`. -/
def callIoctl (f : IoctlFn) (k : Kernel) (a : Ambient) (command : Int) (arg : Word) :
    Int × Kernel :=
  match f with
  | .unsupported => (unsupportedDevOp, k)
  | .kbdIoctl => kbdIoctl k a command arg

/-- Replace descriptor `i`. -/
def Pcb.setFd (c : Pcb) (i : Fin maxFiles) (d : Fildes) : Pcb :=
  { c with fd := fun j => if j = i then d else c.fd j }

/-- `validate_fd`: the descriptor, if the number is that of an open one. -/
def validateFd (k : Kernel) (p : Slot) (fd : Int) : Option (Fin maxFiles) :=
  if h : 0 ≤ fd ∧ fd.toNat < maxFiles then
    let i : Fin maxFiles := ⟨fd.toNat, h.2⟩
    if ((k.proctab p).fd i).status = .opened then some i else none
  else none

/-- The device entry that descriptor `i` leads to. -/
def devOf (k : Kernel) (p : Slot) (i : Fin maxFiles) : Devsw :=
  k.devtab ((k.proctab p).fd i).devTab

/-- The scan of `di_open` over the descriptors: the first one that is not open,
unless an open one met before it excludes the device or there is none. -/
def scanFds (fd : Fin maxFiles → Fildes) (devno : Word) : List (Fin maxFiles) → Option (Fin maxFiles)
  | [] => none
  | i :: rest =>
    if (fd i).status = .opened then
      if (devno = 0 ∧ (fd i).major = 1) ∨ (devno = 1 ∧ (fd i).major = 0) then none
      else if (fd i).major = devno then none
      else scanFds fd devno rest
    else some i

/-- `di_open`. -/
def diOpen (k : Kernel) (p : Slot) (devno : Word) : Int × Kernel :=
  if devno.toInt ≤ maxDevice then
    let t := slotOf (k.proctab p).pid
    let k := k.upd t fun c => c.setFd 0 { c.fd 0 with devTab := 0 }
    match scanFds (k.proctab t).fd devno (List.finRange maxFiles) with
    | none => (-1, k)
    | some i =>
      let k := k.upd t fun c => c.setFd i { major := devno, devTab := 0, status := .opened }
      let (rc, k) := callOpen (devOf k p i).dvopen k p
      if 0 < rc then (i.val, k) else (rc, k)
  else (-1, k)

/-- `di_close`. -/
def diClose (k : Kernel) (p : Slot) (fd : Int) : Int × Kernel :=
  match validateFd k p fd with
  | none => (-1, k)
  | some i =>
    let (result, k) := callClose (devOf k p i).dvclose k
    if result = 0 then
      (result, k.upd p fun c => c.setFd i { c.fd i with status := .closed })
    else (result, k)

/-- `di_write`. -/
def diWrite (k : Kernel) (p : Slot) (fd : Int) (buff : Word) (bufflen : Int) :
    Int × Kernel :=
  match validateFd k p fd with
  | none => (-1, k)
  | some i => callTransfer (devOf k p i).dvwrite k p buff bufflen

/-- `di_read`. -/
def diRead (k : Kernel) (p : Slot) (fd : Int) (buff : Word) (bufflen : Int) :
    Int × Kernel :=
  match validateFd k p fd with
  | none => (-1, k)
  | some i => callTransfer (devOf k p i).dvread k p buff bufflen

/-- `di_ioctl`. The driver uses the first of the two arguments only. -/
def diIoctl (k : Kernel) (a : Ambient) (p : Slot) (fd : Int) (command : Int)
    (arg : Word) : Int × Kernel :=
  match validateFd k p fd with
  | none => (-1, k)
  | some i => callIoctl (devOf k p i).dvioctl k a command arg

end Xeros
