import Xeros.Kernel.Devices
import Xeros.Logic.Driver

/-!
# Where a descriptor leads

`dispatchinit` and `createFDTentry` are all that writes `dev_tab`, and both write the base of
`devtab`. So in every run, whatever the drivers are and whatever the table holds, a call goes
through the entry of device 0.

The device-independent calls of the kernel are those calls at its own drivers, and a turn of
the dispatcher is a run of them, with steps between that leave `dev_tab` alone.
-/

namespace Xeros

open Lib

/-! ## The calls of the kernel -/

section Kernel

variable (k : Kernel) (p : Slot)

theorem kernelDrivers_validateFd (fd : Int) :
    kernelDrivers.validateFd k p fd = validateFd k p fd := by
  unfold Drivers.validateFd validateFd
  by_cases hfd : 0 ≤ fd ∧ fd < maxFiles
  · rw [dif_pos hfd, dif_pos ⟨hfd.1, (Int.toNat_lt hfd.1).mpr hfd.2⟩]
    rfl
  · rw [dif_neg hfd, dif_neg fun h => hfd ⟨h.1, (Int.toNat_lt h.1).mp h.2⟩]

theorem kernelDrivers_diOpen (devno : Word) :
    (kernelDrivers.diOpen k p devno).1 = diOpen k p devno := by
  unfold Drivers.diOpen diOpen
  by_cases hdev : devno.toInt ≤ maxDevice
  · rw [if_pos hdev, if_pos hdev]
    dsimp only
    -- the scans of the two are the same by definition, so one case split serves both
    have hscan : scanFds (kernelDrivers.fd (kernelDrivers.setFd k (kernelDrivers.home k p) 0
        { kernelDrivers.fd k (kernelDrivers.home k p) 0 with devTab := 0 })
        (kernelDrivers.home k p)) devno (List.finRange maxFiles) =
        scanFds ((k.upd (slotOf (k.proctab p).pid) fun c =>
          c.setFd 0 { c.fd 0 with devTab := 0 }).proctab (slotOf (k.proctab p).pid)).fd devno
          (List.finRange maxFiles) := rfl
    rw [hscan]
    cases scanFds ((k.upd (slotOf (k.proctab p).pid) fun c =>
        c.setFd 0 { c.fd 0 with devTab := 0 }).proctab (slotOf (k.proctab p).pid)).fd devno
        (List.finRange maxFiles) with
    | none => rfl
    | some i => rfl
  · rw [if_neg hdev, if_neg hdev]

theorem kernelDrivers_diClose (fd : Int) :
    (kernelDrivers.diClose k p fd).1 = diClose k p fd := by
  unfold Drivers.diClose diClose
  rw [kernelDrivers_validateFd]
  cases validateFd k p fd with
  | none => rfl
  | some i => rfl

theorem kernelDrivers_diWrite (fd : Int) (buff : Word) (len : Int) :
    (kernelDrivers.diWrite k p fd buff len).1 = diWrite k p fd buff len := by
  unfold Drivers.diWrite Drivers.through diWrite
  rw [kernelDrivers_validateFd]
  cases validateFd k p fd with
  | none => rfl
  | some i => rfl

theorem kernelDrivers_diRead (fd : Int) (buff : Word) (len : Int) :
    (kernelDrivers.diRead k p fd buff len).1 = diRead k p fd buff len := by
  unfold Drivers.diRead Drivers.through diRead
  rw [kernelDrivers_validateFd]
  cases validateFd k p fd with
  | none => rfl
  | some i => rfl

theorem kernelDrivers_diIoctl (a : Ambient) (fd command : Int) (arg : Word) :
    (kernelDrivers.diIoctl k p fd a command arg).1 = diIoctl k a p fd command arg := by
  unfold Drivers.diIoctl Drivers.through diIoctl
  rw [kernelDrivers_validateFd]
  cases validateFd k p fd with
  | none => rfl
  | some i => rfl

end Kernel

/-! ## One call -/

namespace Drivers

variable {σ : Type} {φ : DevOp → Type} {D : Drivers σ φ} {s : σ} {p : Slot} {c : DeviceCall}
  {i : Fin maxFiles}

/-- Every descriptor points to the base of the table. -/
def OnBase (D : Drivers σ φ) (s : σ) : Prop := ∀ q j, (D.fd s q j).devTab = 0

/-- The descriptor that `di_open` fills for device `devno`. -/
def freeFd (D : Drivers σ φ) (s : σ) (p : Slot) (devno : Word) : Option (Fin maxFiles) :=
  if devno.toInt ≤ maxDevice then
    scanFds (D.fd s (D.home s p)) devno (List.finRange maxFiles)
  else none

/-- The descriptor that a call is about, if it comes to that of a driver. -/
def target (D : Drivers σ φ) (s : σ) (p : Slot) : DeviceCall → Option (Fin maxFiles)
  | .openDev devno => D.freeFd s p devno
  | .close fd => D.validateFd s p fd
  | .write fd _ _ => D.validateFd s p fd
  | .read fd _ _ => D.validateFd s p fd
  | .ioctl fd _ _ _ => D.validateFd s p fd

theorem OnBase.setFd (h : D.OnBase s) {d : Fildes} (hd : d.devTab = 0) :
    D.OnBase (D.setFd s p i d) := by
  intro q j
  rw [D.fd_setFd]
  by_cases hq : q = p
  · subst hq
    rw [Function.update_self]
    by_cases hj : j = i
    · rw [hj, Function.update_self, hd]
    · rw [Function.update_of_ne hj]
      exact h q j
  · rw [Function.update_of_ne hq]
    exact h q j

theorem OnBase.invoke (h : D.OnBase s) : D.OnBase (D.invoke c s p i).1.2 := by
  intro q j
  show (D.fd (D.call c _ s p).2 q j).devTab = 0
  rw [D.fd_call]
  exact h q j

/-- A call goes through entry 0. -/
theorem OnBase.invoked (h : D.OnBase s) : (D.invoke c s p i).2 = D.devtab s 0 c.op := by
  show D.devtab s (D.fd s p i).devTab c.op = _
  rw [h p i]

/-- The refresh of descriptor 0 does not change what the scan sees. -/
theorem scanFds_refresh (D : Drivers σ φ) (s : σ) (t : Slot) (devno : Word) :
    scanFds (D.fd (D.setFd s t 0 { D.fd s t 0 with devTab := 0 }) t) devno
      (List.finRange maxFiles) = scanFds (D.fd s t) devno (List.finRange maxFiles) := by
  refine scanFds_congr (fun j => ?_) _
  rw [D.fd_setFd, Function.update_self]
  by_cases hj : j = 0
  · rw [hj, Function.update_self]
    exact ⟨rfl, rfl⟩
  · rw [Function.update_of_ne hj]
    exact ⟨rfl, rfl⟩

theorem diOpen_onBase (h : D.OnBase s) (devno : Word) :
    (D.diOpen s p devno).2 = (D.freeFd s p devno).map (fun _ => D.devtab s 0 .dvopen) ∧
      D.OnBase (D.diOpen s p devno).1.2 := by
  unfold diOpen freeFd
  split
  · dsimp only
    rw [D.scanFds_refresh]
    have h₁ : D.OnBase (D.setFd s (D.home s p) 0 { D.fd s (D.home s p) 0 with devTab := 0 }) :=
      h.setFd rfl
    cases scanFds (D.fd s (D.home s p)) devno (List.finRange maxFiles) with
    | none => exact ⟨rfl, h₁⟩
    | some i =>
        have h₂ := h₁.setFd (p := D.home s p) (i := i)
          (d := { major := devno, devTab := 0, status := .opened }) rfl
        refine ⟨?_, ?_⟩
        · show some (D.invoke (.openDev devno) _ p i).2 = some (D.devtab s 0 .dvopen)
          rw [h₂.invoked, D.devtab_setFd, D.devtab_setFd]
          rfl
        · have h₃ := h₂.invoke (c := .openDev devno) (p := p) (i := i)
          dsimp only
          split
          · exact h₃
          · exact h₃
  · exact ⟨rfl, h⟩

theorem diClose_onBase (h : D.OnBase s) (fd : Int) :
    (D.diClose s p fd).2 = (D.validateFd s p fd).map (fun _ => D.devtab s 0 .dvclose) ∧
      D.OnBase (D.diClose s p fd).1.2 := by
  unfold diClose
  cases D.validateFd s p fd with
  | none => exact ⟨rfl, h⟩
  | some i =>
      have h₁ := h.invoke (c := .close fd) (p := p) (i := i)
      refine ⟨congrArg some h.invoked, ?_⟩
      dsimp only
      split
      · exact h₁.setFd (h₁ p i)
      · exact h₁

theorem through_onBase (h : D.OnBase s) (c : DeviceCall) (fd : Int) :
    (D.through c s p fd).2 = (D.validateFd s p fd).map (fun _ => D.devtab s 0 c.op) ∧
      D.OnBase (D.through c s p fd).1.2 := by
  unfold through
  cases D.validateFd s p fd with
  | none => exact ⟨rfl, h⟩
  | some i => exact ⟨congrArg some h.invoked, h.invoke⟩

/-- A call that comes to a driver invokes the function of entry 0, and leaves every
descriptor on the base. -/
theorem run_onBase (h : D.OnBase s) (p : Slot) (c : DeviceCall) :
    (D.run s p c).2 = (D.target s p c).map (fun _ => D.devtab s 0 c.op) ∧
      D.OnBase (D.run s p c).1.2 := by
  cases c with
  | openDev devno => exact diOpen_onBase h devno
  | close fd => exact diClose_onBase h fd
  | write fd buff len => exact through_onBase h (.write fd buff len) fd
  | read fd buff len => exact through_onBase h (.read fd buff len) fd
  | ioctl fd a cmd arg => exact through_onBase h (.ioctl fd a cmd arg) fd

/-! ## Sessions -/

/-- The state, and the device that each descriptor was last opened for. -/
structure Session (σ : Type) where
  s : σ
  openFor : Slot → Fin maxFiles → Option Word

/-- The devices of the descriptors after a call: `di_open` fills one. -/
def opened (D : Drivers σ φ) (x : Session σ) (p : Slot) :
    DeviceCall → Slot → Fin maxFiles → Option Word
  | .openDev devno =>
    match D.freeFd x.s p devno with
    | none => x.openFor
    | some i =>
      let t := D.home x.s p
      Function.update x.openFor t (Function.update (x.openFor t) i (some devno))
  | _ => x.openFor

/-- The device that a call is about: the one that is opened, or the one that the descriptor
was opened for. -/
def device (D : Drivers σ φ) (x : Session σ) (p : Slot) (c : DeviceCall) : Option Word :=
  match c with
  | .openDev devno => (D.target x.s p c).map fun _ => devno
  | c => (D.target x.s p c).bind (x.openFor p)

/-- A step: a device-independent call of a process, or anything else. -/
inductive Event where
  | call (p : Slot) (c : DeviceCall)
  | other

/-- Calls of any processes in any order from the descriptors that `dispatchinit` leaves. What
else happens may change anything, the table of devices included, but no `dev_tab`. -/
def calls (D : Drivers σ φ) : TSys (Session σ) Event where
  init x := ∀ q j, D.fd x.s q j = { major := 0, devTab := 0, status := .closed } ∧
    x.openFor q j = none
  step x e y := match e with
    | .call p c => y = ⟨(D.run x.s p c).1.2, D.opened x p c⟩
    | .other => (∀ q j, (D.fd y.s q j).devTab = (D.fd x.s q j).devTab) ∧ y.openFor = x.openFor

theorem onBase_of_reachable {x : Session σ} (h : D.calls.Reachable x) : D.OnBase x.s := by
  have hind : D.calls.Inductive TSys.anyStep fun x => D.OnBase x.s := by
    constructor
    · intro x hx q j
      rw [(hx q j).1]
    · intro x e y hx _ hst
      cases e with
      | call p c =>
          obtain rfl : y = _ := hst
          exact (run_onBase hx p c).2
      | other =>
          intro q j
          rw [hst.1 q j]
          exact hx q j
  exact hind.holds h

end Drivers

end Xeros
