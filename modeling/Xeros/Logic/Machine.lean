import Xeros.Kernel.Ctsw
import Xeros.Logic.History

/-!
# The machine

The processor runs user code, or the assembly of `contextswitch` one instruction at a time.
Interrupts come whenever they are not masked, in the middle of the assembly as well. The C
code between two calls of `contextswitch` is one step.

`Phase` says where the processor can be since a call of `contextswitch`. A state in the
assembly is given by the state in which the block was entered and the number of instructions
executed since, so that what is needed of it can be computed.
-/

namespace Xeros

open Lib

/-! ## States and steps -/

/-- The processor, and the kernel as it was at the last call of `contextswitch`. -/
structure Machine where
  cpu : Cpu Static
  s : Recorded

/-- What happens in a step. -/
inductive MachStep where
  /-- An instruction of the assembly is executed. -/
  | exec
  /-- User code runs. -/
  | user (r : Regs) (eip eflags : Word) (mem : Bytes)
  /-- An interrupt comes, or user code executes `int` with `eip` past it. -/
  | intr (v : Intr)
  /-- The C code runs, from the end of the assembly to its beginning. -/
  | serve (a : Ambient) (r : Regs) (eflags : Word)

/-- The process that `contextswitch` has been called for. -/
abbrev Machine.p (m : Machine) : Slot := m.s.d.p

/-- Its pcb. -/
abbrev Machine.pcb (m : Machine) : Pcb := m.s.d.k.proctab m.p

/-- How the process has entered the kernel, by the static variables. -/
def causeOf (v : Static → Word) : Cause :=
  if v .interrupt = 1 then .timer (v .rc)
  else if v .interrupt = 2 then .keyboard (v .rc)
  else .syscall (v .rc) (v .args)

/-- The C code: the end of `contextswitch`, the `switch` of `dispatch` and the head of its
loop. -/
def Machine.dispatch (m : Machine) (a : Ambient) : Run Recorded := do
  let (k, r) := afterSwitch (m.s.d.k.setMem m.cpu.mem) m.p m.cpu.var
  let (k', p') ← serve k m.p a (Request.ofWord r)
  let h := (m.s.h.setCall m.p (causeOf m.cpu.var).call).served k m.p a (Request.ofWord r)
  return { d := loopTop k' p', h := (h.deliver (run k' p') p').setCall p' none }

namespace Linked

variable (L : Linked)

/-- The address is none of the assembly. -/
def Outside (x : Word) : Prop := ∀ i, i ≤ ctswEnd → x ≠ L.text i

/-- The address is that of user code, or of an entry whose first instruction has not been
executed. -/
def AtProcess (x : Word) : Prop := L.Outside x ∨ ∃ v : Intr, x = L.text v.index

/-- The address is within the assembly, where the kernel is at work. -/
def Within (x : Word) : Prop := ¬ L.AtProcess x

/-- Where the first block saves the kernel's registers: 36 bytes. -/
def kframe : Word := L.kstack - 4 - 32

/-- The processor at the call of `contextswitch`. -/
structure AtCall (s : Recorded) (c : Cpu Static) : Prop where
  eip : c.eip = L.text 0
  esp : c.reg.esp = L.kstack
  masked : c.Masked
  var : c.var = beforeSwitch (s.d.k.proctab s.d.p) c.var
  mem : c.mem = s.d.k.mem

/-- A step of the machine. -/
inductive Step (m : Machine) : MachStep → Machine → Prop
  | exec (i : ℕ) (hi : i < ctswEnd) (he : m.cpu.eip = L.text i) :
      Step m .exec { m with cpu := L.prog.execAt i m.cpu }
  | user (r : Regs) (eip eflags : Word) (mem : Bytes) (ho : L.Outside m.cpu.eip) :
      Step m (.user r eip eflags mem)
        { m with cpu := { m.cpu with reg := r, eip := eip, eflags := eflags, mem := mem } }
  | intr (v : Intr) (hk : v = .kernel → L.Outside m.cpu.eip)
      (hm : v ≠ .kernel → ¬ m.cpu.Masked) :
      Step m (.intr v) { m with cpu := m.cpu.enter (contextinit L v.vector) }
  | serve (a : Ambient) (r : Regs) (eflags : Word) (s' : Recorded)
      (he : m.cpu.eip = L.text ctswEnd) (hs : m.dispatch a = .ok s')
      (hr : r.esp = m.cpu.reg.esp) (hf : eflags &&& intrFlag = m.cpu.eflags &&& intrFlag) :
      Step m (.serve a r eflags)
        { cpu :=
            { reg := r, eip := L.text 0, cs := m.cpu.cs, eflags := eflags, mem := s'.d.k.mem,
              var := beforeSwitch (s'.d.k.proctab s'.d.p) m.cpu.var }
          s := s' }

/-- The machine, from the first call of `contextswitch` on. -/
def machine : TSys Machine MachStep where
  init m := recorder.init m.s ∧ L.AtCall m.s m.cpu
  step := L.Step

/-- User code and its stacks stay away from the kernel's frame and from the assembly: at a
call the context of the process to run does, user code does, and so does the context that an
interrupt makes. -/
def Orderly (m : Machine) : MachStep → Prop
  | .exec => m.cpu.eip = L.text 0 →
      Apart m.pcb.esp 44 L.kframe 36 ∧ L.AtProcess (m.cpu.mem.word (m.pcb.esp + 32))
  | .user _ eip _ mem => L.Outside eip ∧ Bytes.AgreeOn (InRange L.kframe 36) m.cpu.mem mem
  | .intr _ => Apart (m.cpu.reg.esp - 44) 44 L.kframe 36
  | .serve .. => True

end Linked

/-! ## The C code and the dispatcher -/

/-- The trap that the dispatcher sees when the assembly ends. -/
def Machine.trap (m : Machine) (a : Ambient) : Trap where
  user := fun _ => m.cpu.mem
  esp := m.cpu.var .saveESP
  cause := causeOf m.cpu.var
  ambient := a

theorem afterSwitch_eq (m : Machine) (a : Ambient) :
    (afterSwitch (m.s.d.k.setMem m.cpu.mem) m.p m.cpu.var).1
        = contextswitch m.s.d.k m.p (m.trap a)
      ∧ Request.ofWord (afterSwitch (m.s.d.k.setMem m.cpu.mem) m.p m.cpu.var).2
        = (m.trap a).cause.request := by
  unfold afterSwitch Machine.trap causeOf contextswitch
  dsimp only
  split
  · exact ⟨by rw [Kernel.setRet, upd_upd]; rfl, rfl⟩
  split
  · exact ⟨by rw [Kernel.setRet, upd_upd]; rfl, rfl⟩
  · exact ⟨by rw [upd_upd]; rfl, rfl⟩

/-- The C code makes a turn of the dispatcher. -/
theorem Machine.dispatch_eq (m : Machine) (a : Ambient) : m.dispatch a = m.s.turn (m.trap a) := by
  obtain ⟨hk, hr⟩ := afterSwitch_eq m a
  unfold dispatch Recorded.turn
  dsimp only
  rw [hk, hr]
  rfl

end Xeros
