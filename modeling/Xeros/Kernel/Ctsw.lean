import Mathlib.Logic.Function.Basic
import Xeros.Kernel.Dispatch
import Xeros.Lib.I386

/-!
# The context switch (`ctsw.c`) and its gates (`evec.c`)

`contextswitch` is assembly between two pieces of C. The first block saves the kernel's
registers on its stack, takes up the stack of the process and leaves with `iret`. A process
comes back through one of three gates; each entry saves the registers of the process on its
stack, notes the cause and goes on to the common block, which takes up the kernel's stack
again and falls out of the assembly.

The gates are trap gates: an interrupt can come between a gate and the `cli` behind it.
-/

namespace Xeros

open Lib

/-! ## The assembly -/

/-- The static variables. -/
inductive Static where
  | saveESP | rc | args | interrupt
  deriving DecidableEq, Repr

/-- The labels. -/
inductive Label where
  | keyBoardIntEntry | timerEntryPoint | kernelEntryPoint | commonEntryPoint
  deriving DecidableEq, Repr

/-- A piece of the assembly. -/
abbrev Asm := List (Instr Static Label)

/-- From the beginning to `iret`. -/
def toProcess : Asm :=
  [.pushf,
   .pusha,
   .movl (.var .rc) (.reg .eax),
   .movl (.var .saveESP) (.reg .edx),
   .movl (.reg .esp) (.var .saveESP),
   .movl (.reg .edx) (.reg .esp),
   .movl (.reg .eax) (.ind 28 .esp),
   .popa,
   .iret]

/-- `_KeyBoardIntEntry`. -/
def keyBoardIntEntry : Asm :=
  [.cli,
   .pusha,
   .movl (.imm 2) (.var .interrupt),
   .movl (.reg .eax) (.var .rc),
   .jmp .commonEntryPoint]

/-- `_TimerEntryPoint`. -/
def timerEntryPoint : Asm :=
  [.cli,
   .pusha,
   .movl (.imm 1) (.var .interrupt),
   .movl (.reg .eax) (.var .rc),
   .jmp .commonEntryPoint]

/-- `_KernelEntryPoint`. -/
def kernelEntryPoint : Asm :=
  [.cli,
   .pusha,
   .movl (.imm 0) (.var .interrupt),
   .movl (.reg .eax) (.var .rc),
   .movl (.reg .edx) (.var .args)]

/-- `_CommonEntryPoint`. -/
def commonEntryPoint : Asm :=
  [.movl (.var .saveESP) (.reg .eax),
   .movl (.reg .esp) (.var .saveESP),
   .movl (.reg .eax) (.reg .esp),
   .movl (.reg .ebx) (.ind 28 .esp),
   .movl (.reg .edx) (.ind 20 .esp),
   .popa,
   .popf]

/-- The assembly of `contextswitch`. -/
def ctswAsm : Asm :=
  toProcess ++ keyBoardIntEntry ++ timerEntryPoint ++ kernelEntryPoint ++ commonEntryPoint

/-- The index of the instruction at a label. -/
def labelIndex : Label → ℕ
  | .keyBoardIntEntry => toProcess.length
  | .timerEntryPoint => (toProcess ++ keyBoardIntEntry).length
  | .kernelEntryPoint => (toProcess ++ keyBoardIntEntry ++ timerEntryPoint).length
  | .commonEntryPoint =>
    (toProcess ++ keyBoardIntEntry ++ timerEntryPoint ++ kernelEntryPoint).length

/-- The assembly with its labels. -/
def ctswListing : Listing Static Label := { code := ctswAsm, label := labelIndex }

/-- The index of the end, where the C code goes on. -/
abbrev ctswEnd : ℕ := 31

/-- What linking fixes of `contextswitch`: the addresses of its instructions and of the end,
and the stack pointer with which the assembly begins. `idt` is the table that `initevec`
leaves. -/
structure Linked where
  text : ℕ → Word
  inj : ∀ i j, i ≤ ctswEnd → j ≤ ctswEnd → text i = text j → i = j
  kstack : Word
  idt : ℕ → Gate

/-- The assembly in its place. -/
def Linked.prog (L : Linked) : Program Static Label where
  toListing := ctswListing
  text := L.text
  inj := L.inj

/-! ## The gates -/

/-- The interrupts that lead into the kernel. -/
inductive Intr where
  | kernel | timer | keybd
  deriving DecidableEq, Repr

/-- `KERNEL_INT`, `TIMER_INT`, `KEYBD_INT`. -/
def Intr.vector : Intr → ℕ
  | .kernel => 80
  | .timer => 32
  | .keybd => 33

/-- The entry of an interrupt. -/
def Intr.entry : Intr → Label
  | .kernel => .kernelEntryPoint
  | .timer => .timerEntryPoint
  | .keybd => .keyBoardIntEntry

/-- The index of its first instruction. -/
def Intr.index (v : Intr) : ℕ := labelIndex v.entry

/-- `set_evec`. -/
def setEvec (idt : ℕ → Gate) (xnum : ℕ) (handler : Word) : ℕ → Gate :=
  Function.update idt xnum { idt xnum with
    loffset := handler.setWidth 16
    segsel := 0x8                                       -- kernel code segment
    mbz := 0
    type := 15                                          -- IGDT_TRAPG
    dpl := 0
    present := 1
    hoffset := (handler >>> 16).setWidth 16 }

/-- `set_evec( n, (int) entry )` for an interrupt. -/
def Linked.setEntry (L : Linked) (v : Intr) (idt : ℕ → Gate) : ℕ → Gate :=
  setEvec idt v.vector (L.text v.index)

/-- `contextinit`, less the programming of the timer. -/
def contextinit (L : Linked) : ℕ → Gate :=
  L.setEntry .keybd (L.setEntry .timer (L.setEntry .kernel L.idt))

/-! ## The C code around the assembly -/

/-- `saveESP = p->esp; rc = p->ret; interrupt=0;`. -/
def beforeSwitch (c : Pcb) (v : Static → Word) : Static → Word
  | .saveESP => c.esp
  | .rc => c.ret
  | .args => v .args
  | .interrupt => 0

/-- The end of `contextswitch`, from `p->esp = saveESP`, with the request that it returns. -/
def afterSwitch (k : Kernel) (p : Slot) (v : Static → Word) : Kernel × Word :=
  let k := k.upd p fun c => { c with esp := v .saveESP }
  if v .interrupt = 1 then (k.setRet p (v .rc), Request.timer.code)
  else if v .interrupt = 2 then (k.setRet p (v .rc), Request.keyboard.code)
  else (k.upd p fun c => { c with args := v .args }, v .rc)

end Xeros
