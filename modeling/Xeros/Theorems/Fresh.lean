import Xeros.Logic.Boot
import Xeros.Logic.Links

/-!
# What a new process finds in its pcb

`create` gives a slot a new pid, a priority, a stack and a context. Whatever else
the process before it has left in the pcb goes over to the new one: pending
signals, handlers, a wait for a signal, open descriptors.
-/

namespace Xeros

open Lib

variable {k k' : Kernel} {p i : Slot} {fuel : Nat} {fp stack pid : Word}

/-- What a process leaves in its pcb that the kernel acts upon: signals, handlers, whether it
waits for a signal, and which descriptors are open. -/
def Pcb.legacy (c : Pcb) : Word × Word × Word × (Fin maxFiles → DevStatus) :=
  (c.sigPending, c.sigAllow, c.sigwaiter, fun d => (c.fd d).status)

/-- No signal is pending, no handler installed, no signal waited for, no descriptor open. -/
structure Pcb.Clean (c : Pcb) : Prop where
  pending : c.sigPending = 0
  handlers : c.sigAllow = 0
  waiter : c.sigwaiter = 0
  closed : ∀ d, (c.fd d).status = .closed

theorem Pcb.clean_iff (c : Pcb) : c.Clean ↔ c.legacy = (0, 0, 0, fun _ => .closed) := by
  unfold Pcb.legacy
  constructor
  · rintro ⟨h₁, h₂, h₃, h₄⟩
    rw [h₁, h₂, h₃]
    exact congrArg (fun f => ((0 : Word), (0 : Word), (0 : Word), f)) (funext h₄)
  · intro h
    simp only [Prod.mk.injEq] at h
    exact ⟨h.1, h.2.1, h.2.2.1, fun d => congrFun h.2.2.2 d⟩

theorem Relinked.legacy (h : Relinked k k') (q : Slot) :
    (k'.proctab q).legacy = (k.proctab q).legacy := by
  obtain ⟨o, ho⟩ := h.pcb q
  rw [ho]
  rfl

/-- A process that `create` makes has the pcb of the free slot, with what was left in it. -/
theorem create_legacy (h : create k fuel fp stack = .ok (pid, k')) (hpid : pid ≠ -1) :
    ∃ i, freeSlot k = some i ∧ (k'.proctab i).pid = pid ∧ (k'.proctab i).state = .ready ∧
      (k'.proctab i).legacy = (k.proctab i).legacy := by
  rcases create_cases h with ⟨_, _, -, -, rfl, -⟩ | ⟨i, k₁, r, block, heap, hf, h₁, -, h⟩
  · exact absurd rfl hpid
  rcases h with ⟨-, rfl, -⟩ | ⟨-, hp, h₂⟩
  · exact absurd rfl hpid
  unfold launch at h₂
  generalize hk₃ : Kernel.upd _ i _ = k₃ at h₂
  have hu : k₃.Used i := by
    rw [← hk₃]
    refine ⟨(freeSlot_spec hf).1, ?_⟩
    simpa using nextPid_used (k₁.proctab i).pid i
  have hlegacy : (k₃.proctab i).legacy = (k.proctab i).legacy := by
    rw [← (Relinked.remove h₁).legacy i, ← hk₃]
    simp [Pcb.legacy, Pcb.start, Pcb.renew]
  rw [ready_of_used hu, Except.ok.injEq] at h₂
  subst h₂
  refine ⟨i, hf, hp.symm, readied_state k₃ i, ?_⟩
  rw [(Relinked.readied k₃ i).legacy i, ← hlegacy]
  simp [Pcb.legacy]

/-- The root process makes a process and gives way to it. -/
def reused₁ : Disp := (turn sampleBoot (sampleCall .create [0x1400, 0])).getD sampleBoot

@[inherit_doc reused₁]
def reused₂ : Disp := (turn reused₁ (sampleCall .yield [])).getD reused₁

/-- That process installs a handler for signal 5 and opens the keyboard. -/
def reused₃ : Disp := (turn reused₂ (sampleCall .sighandler [5, 0x1500, 0x60100])).getD reused₂

@[inherit_doc reused₃]
def reused₄ : Disp := (turn reused₃ (sampleCall .openDev [0])).getD reused₃

/-- It stops, and the root process makes another one. -/
def reused₅ : Disp := (turn reused₄ (sampleCall .stop [])).getD reused₄

@[inherit_doc reused₅]
def reused₆ : Word × Kernel := (create reused₅.k 100 0x1600 0).getD (0, reused₅.k)

theorem reused₅_reachable : dispatcher.Reachable reused₅ := by
  have h₀ : dispatcher.Reachable sampleBoot := ⟨_, sampleBoot_init, .refl⟩
  have h₁ : dispatcher.Reachable reused₁ := h₀.tail trivial
    (Run.eq_getD (s := sampleBoot) (by decide +kernel) :
      turn sampleBoot (sampleCall .create [0x1400, 0]) = .ok reused₁)
  have h₂ : dispatcher.Reachable reused₂ := h₁.tail trivial
    (Run.eq_getD (s := reused₁) (by decide +kernel) :
      turn reused₁ (sampleCall .yield []) = .ok reused₂)
  have h₃ : dispatcher.Reachable reused₃ := h₂.tail trivial
    (Run.eq_getD (s := reused₂) (by decide +kernel) :
      turn reused₂ (sampleCall .sighandler [5, 0x1500, 0x60100]) = .ok reused₃)
  have h₄ : dispatcher.Reachable reused₄ := h₃.tail trivial
    (Run.eq_getD (s := reused₃) (by decide +kernel) :
      turn reused₃ (sampleCall .openDev [0]) = .ok reused₄)
  exact h₄.tail trivial (Run.eq_getD (s := reused₄) (by decide +kernel) :
    turn reused₄ (sampleCall .stop []) = .ok reused₅)

/-- Instead, the process in slot 3 stops right away. -/
def vacated : Disp := (turn reused₂ (sampleCall .stop [])).getD reused₂

end Xeros
