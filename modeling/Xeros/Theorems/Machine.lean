import Xeros.Logic.Phase

/-!
# The context switch

`contextswitch` looks to its caller like a function call, and to the processes like an
instruction that takes some time, whatever the user code does and whenever interrupts come:

* the kernel is never interrupted, although its gates do not mask the interrupts;
* it finds its registers, its stack and its flags again, and the pcb gets the stack pointer
  and the registers that the process had;
* every step of the C code is a turn of the dispatcher, for the trap that these registers
  tell.
-/

namespace Xeros

open Lib

variable {L : Linked} {m m₀ m' : Machine} {e : MachStep} {u : Cpu Static} {v : Intr} {n : ℕ}
  {C : Machine → MachStep → Prop}

/-! ## The kernel is not interrupted -/

/-- Within the assembly the interrupts are masked, and no interrupt comes. -/
theorem kernel_uninterrupted (hr : L.machine.ReachableUnder L.Orderly m)
    (hw : L.Within m.cpu.eip) :
    m.cpu.Masked ∧ ∀ v m', ¬ L.Step m (.intr v) m' := by
  obtain ⟨c₀, hc, hp⟩ := phase_of_reachable hr
  rcases hp.process_or_masked hc with ⟨hin, -⟩ | hmask
  · exact absurd hin.place hw
  · exact ⟨hmask.1, fun v m' hst => hst.not_masked hmask⟩

/-- The timer has interrupted the root process, and the `cli` behind the gate is executed. -/
def sampleGated : Machine := sampleKernel.gated sampleRoot .timer 1

/-- Another interrupt could come before, and none comes now. -/
theorem sampleGated_uninterrupted : ¬ (sampleKernel.gated sampleRoot .timer 0).cpu.Masked ∧
    sampleGated.cpu.Masked ∧ ∀ v m', ¬ sampleKernel.Step sampleGated (.intr v) m' := by
  have h : ¬ (sampleKernel.gated sampleRoot .timer 0).cpu.Masked ∧
      sampleGated.cpu.eip = sampleKernel.text 15 := by decide +kernel
  obtain ⟨ho, m', hst⟩ := sampleRoot_intr
  have hr : sampleKernel.machine.ReachableUnder sampleKernel.Orderly sampleGated :=
    ((sampleMachine_reachable.path (sampleRoot_path fun _ h => h)).tail ho hst).path
      (gated_path hst (by decide) fun _ _ h => h)
  refine ⟨h.1, kernel_uninterrupted hr ?_⟩
  rw [h.2]
  rintro (hout | ⟨v, hv⟩)
  · exact hout 15 (by decide) rfl
  · have h15 : 15 = v.index := sampleKernel.inj _ _ (by decide) (Nat.le_of_lt v.index_lt) hv
    cases v <;> exact absurd h15 (by decide)

/-! ## The call and the return -/

/-- Where the processor is on a run since the call. -/
theorem phase_of_path (hc : L.AtCall m₀.s m₀.cpu) (hp : L.machine.Path (NotServing L) m₀ m) :
    m.s = m₀.s ∧
      Phase L m₀.cpu (fun u => L.machine.Path (NotServing L) m₀ ⟨u, m₀.s⟩) m.cpu := by
  induction hp with
  | refl =>
      exact ⟨rfl, .leaving 0 (by decide) fun h => absurd h (Nat.lt_irrefl 0)⟩
  | @tail t m' e hp ho hst ih =>
      obtain ⟨hs, hph⟩ := ih
      have hs' : m'.s = m₀.s := (hst.s_eq ho.2).trans hs
      refine ⟨hs', hph.step (hs ▸ hc) ho.1 hst ho.2 fun _ => ?_⟩
      have hm : (⟨m'.cpu, m₀.s⟩ : Machine) = m' := by
        rw [← hs']
      rw [hm]
      exact hp.tail ho hst

/-- When the assembly ends the process has entered the kernel in a state `u`. The kernel has
its registers, its stack pointer and its flags as at the call, but for `eax` and `edx`; the
static variables tell the stack pointer of the process, its `eax` and `edx` and the entry;
and nothing but the kernel's frame and the registers on the stack of the process has been
written since. -/
theorem switch_returns (hc : L.AtCall m₀.s m₀.cpu)
    (hp : L.machine.Path (NotServing L) m₀ m) (he : m.cpu.eip = L.text ctswEnd) :
    ∃ u v, L.machine.Path (NotServing L) m₀ ⟨u, m₀.s⟩ ∧ u.eip = L.text v.index ∧
      m.s = m₀.s ∧
      m.cpu.reg = { m₀.cpu.reg with eax := u.reg.ebx, edx := u.reg.edx } ∧
      m.cpu.eflags = m₀.cpu.eflags ∧
      m.cpu.var = entryVars v u ∧
      m.cpu.mem.regs (u.reg.esp - 32) = u.reg ∧
      ∀ x, ¬ InRange (u.reg.esp - 32) 32 x → ¬ InRange L.kframe 36 x →
        m.cpu.mem x = u.mem x := by
  obtain ⟨hs, hph⟩ := phase_of_path hc hp
  obtain ⟨u, v, hin, hpath, hu, hcpu⟩ := hph.at_end hc he
  obtain ⟨hregs, hmem⟩ := swapped_process hin.saveESP (hin.stack (L.not_outside_entry hu))
  refine ⟨u, v, hpath, hu, hs, ?_⟩
  rw [hcpu]
  exact ⟨rfl, rfl, rfl, hregs, hmem⟩

/-- The first trip of the sample machine to its root process. -/
theorem sampleTicked_returns :
    ∃ u v, u.eip = sampleKernel.text v.index ∧
      sampleTicked.cpu.reg = { sampleMachine.cpu.reg with eax := u.reg.ebx, edx := u.reg.edx } ∧
      sampleTicked.cpu.eflags = sampleMachine.cpu.eflags ∧
      sampleTicked.cpu.var = entryVars v u := by
  have hpath : sampleKernel.machine.Path (NotServing sampleKernel) sampleMachine sampleTicked :=
    sampleTicked_path (fun _ h => ⟨h, fun _ _ _ he => by cases he⟩)
      ⟨sampleRoot_intr.1, fun _ _ _ he => by cases he⟩
  obtain ⟨u, v, -, hu, -, hreg, hflags, hvar, -⟩ :=
    switch_returns (sampleCpu_atCall _) hpath (by decide +kernel)
  exact ⟨u, v, hu, hreg, hflags, hvar⟩

/-! ## The dispatcher -/

/-- The cause that an entry notes. -/
def Intr.cause (v : Intr) (u : Cpu Static) : Cause :=
  match v with
  | .kernel => .syscall u.reg.eax u.reg.edx
  | .timer => .timer u.reg.eax
  | .keybd => .keyboard u.reg.eax

theorem causeOf_entryVars (v : Intr) (u : Cpu Static) : causeOf (entryVars v u) = v.cause u := by
  cases v <;> rfl

/-- The kernel that the machine has reached is reached by the dispatcher. -/
theorem recorder_of_machine (hr : L.machine.ReachableUnder C m) : recorder.Reachable m.s := by
  refine TSys.Inductive.holds (I := fun m => recorder.Reachable m.s) ⟨?_, ?_⟩ hr
  · rintro m ⟨hi, -⟩
    exact ⟨m.s, hi, .refl⟩
  · rintro m e m' hm - hst
    cases hst with
    | serve a r f s' he hs hr hf =>
        rw [Machine.dispatch_eq] at hs
        exact hm.tail trivial hs
    | _ => exact hm

/-- Every step of the C code in a run of the machine is a turn of the dispatcher, from a state
that the dispatcher reaches. The trap is what the process did: in a state `u` of the run, since
which the C code has not run, it entered the kernel, and its `eax` and `edx`, the place of its
registers on its stack and, but for these and the kernel's frame, its memory are those of the
turn. -/
theorem machine_refines {a : Ambient} {r : Regs} {f : Word} (hi : L.machine.init m₀)
    (hp : L.machine.Path L.Orderly m₀ m) (hst : L.Step m (.serve a r f) m') :
    recorder.Reachable m.s ∧
      ∃ (u : Cpu Static) (v : Intr) (t : Trap), recorder.step m.s t m'.s ∧
        L.machine.Path L.Orderly m₀ ⟨u, m.s⟩ ∧ L.machine.Path (NotServing L) ⟨u, m.s⟩ m ∧
        u.eip = L.text v.index ∧ t.cause = v.cause u ∧ t.esp = u.reg.esp - 32 ∧ t.ambient = a ∧
        ((contextswitch m.s.d.k m.p t).mem.regs t.esp = u.reg) ∧
        ∀ x, ¬ InRange t.esp 32 x → ¬ InRange L.kframe 36 x →
          (contextswitch m.s.d.k m.p t).mem x = u.mem x := by
  refine ⟨recorder_of_machine ⟨m₀, hi, hp⟩, ?_⟩
  obtain ⟨c₀, hc, hph⟩ := phase_of_run hi hp
  cases hst with
  | serve _ _ _ s' he hs hesp hf =>
      obtain ⟨u, v, hin, hu, hv, hcpu⟩ := hph.at_end hc he
      obtain ⟨hregs, hmem⟩ := swapped_process hin.saveESP (hin.stack (L.not_outside_entry hv))
      have htrap : m.trap a = { user := fun _ => swapped u, esp := u.reg.esp - 32,
                                cause := v.cause u, ambient := a } := by
        unfold Machine.trap
        rw [hcpu, causeOf_entryVars]
        rfl
      rw [Machine.dispatch_eq, htrap] at hs
      exact ⟨u, v, _, hs, hu.1, hu.2, hv, rfl, rfl, rfl, hregs, hmem⟩

/-- The timer interrupt of the sample machine is served as the dispatcher does. -/
theorem sampleTicked_refines :
    ∃ (u : Cpu Static) (v : Intr) (t : Trap), recorder.step sampleStart t sampleAgain.s ∧
      u.eip = sampleKernel.text v.index ∧ t.cause = v.cause u ∧ t.esp = u.reg.esp - 32 := by
  have hpath : sampleKernel.machine.Path sampleKernel.Orderly sampleMachine sampleTicked :=
    sampleTicked_path (fun _ h => h) sampleRoot_intr.1
  obtain ⟨-, u, v, t, hst, -, -, hu, hc, he, -⟩ :=
    machine_refines ⟨⟨sampleBoot_init, rfl⟩, sampleCpu_atCall sampleStart⟩ hpath sampleTicked_serve
  exact ⟨u, v, t, hst, hu, hc, he⟩

end Xeros
