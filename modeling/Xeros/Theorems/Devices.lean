import Xeros.Logic.Sessions

/-!
# Whose functions a descriptor reaches

A descriptor that `di_open` has filled for device `m` holds the base of `devtab`, and the
calls follow that pointer without looking at the major number. So they invoke the functions
of device 0, which are those of device `m` where `devtab[m]` registers the same ones.
-/

namespace Xeros

open Lib

namespace Drivers

variable {σ : Type} {φ : DevOp → Type} {D : Drivers σ φ} {p : Slot} {c : DeviceCall}

/-- The function that `devtab[m]` registers, if the table has such an entry. -/
def registered (D : Drivers σ φ) (s : σ) (m : Word) (o : DevOp) : Option (φ o) :=
  if h : 0 ≤ m.toInt ∧ m.toInt.toNat < maxDevice then
    some (D.devtab s ⟨m.toInt.toNat, h.2⟩ o)
  else none

/-- A call that is about a device comes to a driver. -/
theorem target_of_device {x : Session σ} {m : Word} (h : D.device x p c = some m) :
    ∃ i, D.target x.s p c = some i := by
  have hbind : ∀ {o : Option (Fin maxFiles)} {f : Fin maxFiles → Option Word},
      o.bind f = some m → ∃ i, o = some i := by
    intro o f ho
    obtain ⟨i, hi, -⟩ := Option.bind_eq_some_iff.mp ho
    exact ⟨i, hi⟩
  cases c with
  | openDev devno =>
      obtain ⟨i, hi, -⟩ := Option.map_eq_some_iff.mp h
      exact ⟨i, hi⟩
  | close fd => exact hbind h
  | write fd buff len => exact hbind h
  | read fd buff len => exact hbind h
  | ioctl fd a cmd arg => exact hbind h

/-- In every state that device calls of any processes lead to, over any drivers and any
contents of the table, a call about device `m` invokes the function that `devtab[m]`
registers exactly if `devtab[0]` registers the same one. -/
theorem invokes_own_driver_iff {x : Session σ} {m : Word} (hx : D.calls.Reachable x)
    (hm : D.device x p c = some m) :
    (D.run x.s p c).2 = D.registered x.s m c.op ↔
      D.registered x.s m c.op = some (D.devtab x.s 0 c.op) := by
  obtain ⟨i, hi⟩ := target_of_device hm
  have hrun : (D.run x.s p c).2 = some (D.devtab x.s 0 c.op) := by
    rw [(run_onBase (onBase_of_reachable hx) p c).1, hi]
    rfl
  rw [hrun]
  exact eq_comm

end Drivers

/-- The first process can open the second keyboard when it starts, and reaches its own
`dvopen`: the two keyboards share it. -/
theorem echo_keyboard_opened : ∃ o, kernelDrivers.calls.Reachable ⟨sampleBoot.k, o⟩ ∧
    (kernelDrivers.run sampleBoot.k 1 (.openDev 1)).2 =
      kernelDrivers.registered sampleBoot.k 1 .dvopen := by
  obtain ⟨o, ho⟩ := session_of_init sampleBoot_init
  have hfree : kernelDrivers.freeFd sampleBoot.k 1 1 = some 0 := by decide +kernel
  have hdev : kernelDrivers.device ⟨sampleBoot.k, o⟩ 1 (.openDev 1) = some 1 := by
    show (kernelDrivers.freeFd sampleBoot.k 1 1).map (fun _ => (1 : Word)) = some 1
    rw [hfree]
    rfl
  refine ⟨o, ho, (Drivers.invokes_own_driver_iff ho hdev).mpr ?_⟩
  show (kernelDrivers.registered sampleBoot.k 1 .dvopen : Option OpenFn) =
    some (sampleBoot.k.devtab 0).dvopen
  decide +kernel

/-- The kernel once its first process has opened the second keyboard. -/
def echoOpen : Kernel := (kernelDrivers.run sampleBoot.k 1 (.openDev 1)).1.2

/-- Reading the second keyboard invokes `kbd_read`, although `ekbd_read` is registered. -/
theorem echo_keyboard_misread : ¬ ∀ (x : Drivers.Session Kernel) (p : Slot) (c : DeviceCall)
    (m : Word), kernelDrivers.calls.Reachable x → kernelDrivers.device x p c = some m →
    (kernelDrivers.run x.s p c).2 = kernelDrivers.registered x.s m c.op := by
  intro h
  obtain ⟨o, ho⟩ := session_of_init sampleBoot_init
  have hopen : kernelDrivers.calls.Reachable
      ⟨echoOpen, kernelDrivers.opened ⟨sampleBoot.k, o⟩ 1 (.openDev 1)⟩ :=
    ho.tail (a := .call 1 (.openDev 1)) trivial rfl
  have hdev : kernelDrivers.device
      ⟨echoOpen, kernelDrivers.opened ⟨sampleBoot.k, o⟩ 1 (.openDev 1)⟩ 1
      (.read 0 0x70000 8) = some 1 := by
    have hfree : kernelDrivers.freeFd sampleBoot.k 1 1 = some 0 := by decide +kernel
    have hhome : kernelDrivers.home sampleBoot.k 1 = 1 := by decide +kernel
    have hvalid : kernelDrivers.validateFd echoOpen 1 0 = some 0 := by decide +kernel
    show (kernelDrivers.validateFd echoOpen 1 0).bind
      (kernelDrivers.opened ⟨sampleBoot.k, o⟩ 1 (.openDev 1) 1) = some 1
    rw [hvalid]
    unfold Drivers.opened
    dsimp only
    rw [hfree, hhome]
    simp
  have hrun : (kernelDrivers.diRead echoOpen 1 0 0x70000 8).2 = some TransferFn.kbdRead := by
    decide +kernel
  have hreg : kernelDrivers.registered echoOpen 1 .dvread = some TransferFn.ekbdRead := by
    decide +kernel
  have hsame : some TransferFn.kbdRead = some TransferFn.ekbdRead :=
    (hrun.symm.trans (h _ 1 (.read 0 0x70000 8) 1 hopen hdev)).trans hreg
  cases hsame

end Xeros
