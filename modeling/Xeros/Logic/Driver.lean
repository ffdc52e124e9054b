import Xeros.Logic.Aside

/-!
# Who reaches the driver

Most requests leave the variables of the keyboard driver and the device table alone.
`serve_driver` is the inversion of a request with respect to them: they are kept, or the
request is one of the device calls or the keyboard interrupt, and they are what that leaves.
-/

namespace Xeros

open Lib

variable {k k' k₁ k₂ : Kernel} {p p' q : Slot} {a : Ambient} {req : Request} {fuel : Nat}

/-- The variables of the driver and the devices are the same. -/
structure KeepsDriver (k k' : Kernel) : Prop where
  kbd : k'.kbd = k.kbd
  devtab : k'.devtab = k.devtab

namespace KeepsDriver

theorem refl (k : Kernel) : KeepsDriver k k := ⟨rfl, rfl⟩

theorem trans (h₁ : KeepsDriver k k₁) (h₂ : KeepsDriver k₁ k₂) : KeepsDriver k k₂ :=
  ⟨h₂.kbd.trans h₁.kbd, h₂.devtab.trans h₁.devtab⟩

theorem of_rest (h : Rest k k') : KeepsDriver k k' := ⟨h.kbd, h.devtab⟩

theorem upd (k : Kernel) (q : Slot) (f : Pcb → Pcb) : KeepsDriver k (k.upd q f) := ⟨rfl, rfl⟩

theorem setRet (k : Kernel) (q : Slot) (v : Word) : KeepsDriver k (k.setRet q v) := ⟨rfl, rfl⟩

theorem setMem (k : Kernel) (m : Bytes) : KeepsDriver k (k.setMem m) := ⟨rfl, rfl⟩

theorem aside : Kernel.Aside fun k => (k.kbd, k.devtab) where
  rest h := Prod.ext h.kbd h.devtab
  setMem _ _ := rfl

theorem of_eq (h : (k'.kbd, k'.devtab) = (k.kbd, k.devtab)) : KeepsDriver k k' :=
  ⟨congrArg Prod.fst h, congrArg Prod.snd h⟩

theorem launch {i : Slot} {cf fp : Word} (h : launch k i cf fp = .ok k') : KeepsDriver k k' :=
  of_eq (aside.launch h)

theorem create {fp stack pid : Word} (h : create k fuel fp stack = .ok (pid, k')) :
    KeepsDriver k k' := by
  rcases create_cases h with ⟨k₁, n, -, h₁, -, rfl⟩ | ⟨i, k₁, n, b, heap, -, h₁, -, h₂⟩
  · exact (of_rest (Rest.remove h₁)).trans ⟨rfl, rfl⟩
  · have hk : KeepsDriver k ((k₁.upd i fun c => c.renew i).setHeap heap) :=
      (of_rest (Rest.remove h₁)).trans ⟨rfl, rfl⟩
    rcases h₂ with ⟨-, -, rfl⟩ | ⟨-, -, h₃⟩
    · exact hk
    · exact hk.trans (launch h₃)

theorem sysSend (h : sysSend k p a = .ok k') : KeepsDriver k k' := of_eq (aside.sysSend h)

theorem sysRecv (h : sysRecv k p a = .ok k') : KeepsDriver k k' := of_eq (aside.sysRecv h)

theorem sysSigkill (h : sysSigkill k p a = .ok k') : KeepsDriver k k' :=
  of_eq (aside.sysSigkill h)

theorem sysSighandler (k : Kernel) (p : Slot) : KeepsDriver k (sysSighandler k p) :=
  of_eq (aside.sysSighandler k p)

theorem loopTop (k : Kernel) (p : Slot) : KeepsDriver k (loopTop k p).k :=
  of_eq (aside.loopTop k p)

theorem contextswitch (k : Kernel) (p : Slot) (t : Trap) : KeepsDriver k (contextswitch k p t) :=
  of_eq (aside.contextswitch k p t)

end KeepsDriver

/-! ## The calls of the driver -/

/-- `SYS_OPEN` finds a free descriptor, so that the device is opened. -/
def opensDevice (k : Kernel) (p : Slot) : Prop :=
  (k.arg p 0).toInt ≤ maxDevice ∧
    (scanFds (k.proctab p).fd (k.arg p 0) (List.finRange maxFiles)).isSome

/-- `SYS_CLOSE` and `SYS_READ` name an open descriptor. -/
def namesOpen (k : Kernel) (p : Slot) : Prop := (validateFd k p (k.arg p 0).toInt).isSome

/-- The buffer and the size that `SYS_READ` asks for. -/
def readArgs (k : Kernel) (p : Slot) : Word × Int := (k.arg p 1, (k.arg p 2).toInt)

/-- No device can be written to. -/
def NoWrite (k : Kernel) : Prop := ∀ i, (k.devtab i).dvwrite = .unsupported

/-- The scan reads the states and the major numbers of the descriptors only. -/
theorem scanFds_congr {fd fd' : Fin maxFiles → Fildes} {devno : Word}
    (h : ∀ i, (fd' i).status = (fd i).status ∧ (fd' i).major = (fd i).major)
    (l : List (Fin maxFiles)) : scanFds fd' devno l = scanFds fd devno l := by
  induction l with
  | nil => rfl
  | cons i l ih =>
      simp only [scanFds]
      rw [(h i).1, (h i).2, ih]

/-! ## The driver after a call -/

/-- The driver once `p` has opened it. -/
@[simps] def Kbd.openFor (b : Kbd) (p : Slot) : Kbd :=
  { b with reader := some p, eofReceived := false }

/-- The driver once it has been closed. -/
@[simps] def Kbd.closed (b : Kbd) : Kbd :=
  { b with applbuffer := 0, applbufsize := 0, reader := none, eofReceived := false }

/-- The driver once the read of `p` is registered. -/
@[simps] def Kbd.register (b : Kbd) (p : Slot) (buff : Word) (len : Int) : Kbd :=
  { b with applbuffer := buff, applbufsize := len, applbufidx := 0, kbdbufidx := 0,
           reader := some p }

theorem diOpen_driver (hu : k.Used p) :
    KeepsDriver k (diOpen k p (k.arg p 0)).2 ∨
      (opensDevice k p ∧ (diOpen k p (k.arg p 0)).2.kbd = k.kbd.openFor p ∧
        (diOpen k p (k.arg p 0)).2.devtab = (keyboardInit k).devtab) := by
  unfold diOpen
  rw [hu.2.1]
  dsimp only
  split
  · rename_i hdev
    have hscan : scanFds ((k.upd p fun c => c.setFd 0 { c.fd 0 with devTab := 0 }).proctab p).fd
        (k.arg p 0) (List.finRange maxFiles)
        = scanFds (k.proctab p).fd (k.arg p 0) (List.finRange maxFiles) := by
      refine scanFds_congr (fun i => ?_) _
      rw [Kernel.upd_proctab_self]
      unfold Pcb.setFd
      dsimp only
      split
      · rename_i hi
        exact ⟨by rw [hi], by rw [hi]⟩
      · exact ⟨rfl, rfl⟩
    rw [hscan]
    split
    · exact .inl ⟨rfl, rfl⟩
    · rename_i i hi
      have hopen : opensDevice k p := ⟨hdev, by rw [hi]; rfl⟩
      generalize hk₁ : Kernel.upd (k.upd p fun c => c.setFd 0 { c.fd 0 with devTab := 0 }) p
        (fun c => c.setFd i { major := k.arg p 0, devTab := 0, status := .opened }) = k₁
      have hcall : KeepsDriver k (callOpen (devOf k₁ p i).dvopen k₁ p).2 ∨
          (callOpen (devOf k₁ p i).dvopen k₁ p).2.kbd = k.kbd.openFor p ∧
            (callOpen (devOf k₁ p i).dvopen k₁ p).2.devtab = (keyboardInit k).devtab := by
        unfold callOpen
        split
        · exact .inl (hk₁ ▸ ⟨rfl, rfl⟩)
        · refine .inr ⟨?_, ?_⟩
          · rw [← hk₁]
            rfl
          · rw [← hk₁]
            rfl
      split
      · exact hcall.imp id fun h => ⟨hopen, h⟩
      · exact hcall.imp id fun h => ⟨hopen, h⟩
  · exact .inl (.refl k)

theorem diClose_driver :
    KeepsDriver k (diClose k p (k.arg p 0).toInt).2 ∨
      (namesOpen k p ∧ (diClose k p (k.arg p 0).toInt).2.kbd = k.kbd.closed ∧
        (diClose k p (k.arg p 0).toInt).2.devtab = k.devtab) := by
  unfold diClose
  split
  · exact .inl (.refl k)
  · rename_i i hi
    have hname : namesOpen k p := by
      unfold namesOpen
      rw [hi]
      rfl
    cases (devOf k p i).dvclose with
    | unsupported => exact .inl (.refl k)
    | kbdClose => exact .inr ⟨hname, rfl, rfl⟩

/-- `di_read` registers a read, or keeps the driver. -/
theorem diRead_driver (k : Kernel) (p : Slot) (fd : Int) (buff : Word) (len : Int) :
    (KeepsDriver k (diRead k p fd buff len).2 ∧
      (diRead k p fd buff len).1 ≠ registeredKbdread) ∨
    ((validateFd k p fd).isSome ∧ k.kbd.eofReceived = false ∧
      (diRead k p fd buff len).1 = registeredKbdread ∧
      (diRead k p fd buff len).2 = k.setKbd (k.kbd.register p buff len)) := by
  unfold diRead
  split
  · exact .inl ⟨.refl k, (by decide : (-1 : Int) ≠ registeredKbdread)⟩
  · rename_i i hi
    rw [hi]
    have hecho : (KeepsDriver k (ekbdRead k p buff len).2 ∧
          (ekbdRead k p buff len).1 ≠ registeredKbdread) ∨
        (k.kbd.eofReceived = false ∧ (ekbdRead k p buff len).1 = registeredKbdread ∧
          (ekbdRead k p buff len).2 = k.setKbd (k.kbd.register p buff len)) := by
      unfold ekbdRead
      split
      · exact .inl ⟨.refl k, (by decide : eof ≠ registeredKbdread)⟩
      · rename_i he
        exact .inr ⟨by simpa using he, rfl, rfl⟩
    unfold callTransfer
    split
    · exact .inl ⟨.refl k, (by decide : unsupportedDevOp ≠ registeredKbdread)⟩
    · unfold kbdRead
      split
      · exact .inl ⟨.setMem k _, (by decide : eof ≠ registeredKbdread)⟩
      · exact hecho.imp id fun h => ⟨rfl, h⟩
    · exact hecho.imp id fun h => ⟨rfl, h⟩

/-- No driver of the kernel writes. -/
theorem diWrite_unsupported (hw : NoWrite k) (fd : Int) (buff : Word) (len : Int) :
    diWrite k p fd buff len = (-1, k) := by
  unfold diWrite
  split
  · rfl
  · rename_i i _
    rw [show (devOf k p i).dvwrite = .unsupported from hw _]
    rfl

/-- `di_ioctl` installs an end-of-file key at most. -/
theorem diIoctl_driver (k : Kernel) (a : Ambient) (p : Slot) (fd cmd : Int) (arg : Word) :
    KeepsDriver k (diIoctl k a p fd cmd arg).2 ∨
      ∃ c, (diIoctl k a p fd cmd arg).2 = k.setKbd { k.kbd with eofEndbyte := c } := by
  unfold diIoctl
  split
  · exact .inl (.refl k)
  · unfold callIoctl
    split
    · exact .inl (.refl k)
    · unfold kbdIoctl
      split
      · exact .inl (.refl k)
      split
      · exact .inr ⟨_, rfl⟩
      · exact .inl (.refl k)

/-! ## The inversion of `serve` -/

/-- What serving a request of `p` does to the driver: nothing, or what a call of the device
does, or a key. -/
inductive DriverStep (k : Kernel) (p : Slot) (a : Ambient) (req : Request) (k' : Kernel)
    (p' : Slot) : Prop
  | kept (h : KeepsDriver k k') (hread : req = .read → p' = p) (hkey : req = .keyboard → k' = k)
  | opened (hreq : req = .openDev) (ho : opensDevice k p) (hk : k'.kbd = k.kbd.openFor p)
      (hd : k'.devtab = (keyboardInit k).devtab)
  | closed (hreq : req = .close) (hc : namesOpen k p) (hk : k'.kbd = k.kbd.closed)
      (hd : k'.devtab = k.devtab)
  | registered (hreq : req = .read) (hn : namesOpen k p) (he : k.kbd.eofReceived = false)
      (hrc : (diRead k p (k.arg p 0).toInt (k.arg p 1) (k.arg p 2).toInt).1 = registeredKbdread)
      (hk : k'.kbd = k.kbd.register p (readArgs k p).1 (readArgs k p).2)
      (hd : k'.devtab = k.devtab)
  | endbyte (hreq : req = .ioctl) (c : Byte) (hk : k'.kbd = { k.kbd with eofEndbyte := c })
      (hd : k'.devtab = k.devtab)
  | key (hreq : req = .keyboard) (h : processKey k a = .ok k') (hstay : p' = p)

theorem serve_driver (hu : k.Used p) (hw : NoWrite k) (h : serve k p a req = .ok (k', p')) :
    DriverStep k p a req k' p' := by
  -- requests after which `p` stays on the processor
  have hstay : ∀ {req : Request} {k₁ : Kernel}, req ≠ .keyboard → KeepsDriver k k₁ →
      DriverStep k p a req k₁ p := by
    intro req k₁ hkey hk
    exact .kept hk (fun _ => rfl) fun hreq => absurd hreq hkey
  -- requests that give it up
  have hleave : ∀ {req : Request} {k₁ : Kernel}, req ≠ .read ∧ req ≠ .keyboard →
      KeepsDriver k k₁ → reschedule k₁ = .ok (k', p') → DriverStep k p a req k' p' := by
    intro req k₁ hne hk hr
    exact .kept (hk.trans (.of_rest (Rest.reschedule hr))) (fun hreq => absurd hreq hne.1)
      fun hreq => absurd hreq hne.2
  cases serve_cases h with
  | stop h₁ h₂ => exact hleave (by decide) (.of_rest (Rest.sysStop h₁)) h₂
  | yield h₁ h₂ => exact hleave (by decide) (.of_rest (Rest.ready h₁)) h₂
  | create h₁ =>
      obtain ⟨pid, k₂, h₂, rfl⟩ := sysCreate_cases h₁
      exact hstay (by decide) ((KeepsDriver.create h₂).trans (.setRet _ p pid))
  | timer h₁ => exact .kept (.of_rest (Rest.sysTimer h₁)) (by rintro ⟨⟩) (by rintro ⟨⟩)
  | getpid => exact hstay (by decide) (.setRet k p _)
  | puts => exact hstay (by decide) (.refl k)
  | send h₁ h₂ => exact hleave (by decide) (.sysSend h₁) h₂
  | recv h₁ h₂ => exact hleave (by decide) (.sysRecv h₁) h₂
  | sleep h₁ h₂ => exact hleave (by decide) (.of_rest (Rest.sysSleep h₁)) h₂
  | sighandler => exact hstay (by decide) (.sysSighandler k p)
  | sigreturn => exact hstay (by decide) (.upd k p _)
  | sigkill h₁ => exact hstay (by decide) (.sysSigkill h₁)
  | noHandler _ => exact hstay (by decide) (.setRet k p _)
  | sigwait _ h₁ h₂ =>
      exact hleave (by decide) ((KeepsDriver.upd k p _).trans (.of_rest (Rest.block h₁))) h₂
  | openDev =>
      rcases diOpen_driver hu with hk | ⟨ho, hk, hd⟩
      · exact hstay (by decide) (hk.trans (.setRet _ p _))
      · exact .opened rfl ho hk hd
  | close =>
      rcases diClose_driver (k := k) (p := p) with hk | ⟨hc, hk, hd⟩
      · exact hstay (by decide) (hk.trans (.setRet _ p _))
      · exact .closed rfl hc hk hd
  | write h₁ =>
      obtain ⟨m, rfl⟩ := sysWrite_cases h₁
      have hw₁ : NoWrite (k.setMem m) := hw
      rw [diWrite_unsupported hw₁]
      exact hstay (by decide) ((KeepsDriver.setMem k m).trans (.setRet _ p _))
  | read h₁ =>
      rcases diRead_driver k p (k.arg p 0).toInt (k.arg p 1) (k.arg p 2).toInt with
        ⟨hk, hne⟩ | ⟨hn, he, hrc, hk⟩
      · obtain ⟨-, rfl, v, rfl⟩ := (sysRead_cases h₁).resolve_right fun hc => hne hc.1
        exact hstay (by decide) (hk.trans (.setRet _ p' v))
      · obtain ⟨-, k₁, h₁, h₂⟩ := (sysRead_cases h₁).resolve_left fun hc => hc.1 hrc
        have hd := ((KeepsDriver.upd _ p _).trans (.of_rest (Rest.block h₁))).trans
          (.of_rest (Rest.reschedule h₂))
        rw [hk] at hd
        exact .registered rfl hn he hrc hd.kbd hd.devtab
  | ioctl =>
      rcases diIoctl_driver k a p (k.arg p 0).toInt (k.arg p 1).toInt (k.arg p 2) with
        hk | ⟨c, hk⟩
      · exact hstay (by decide) (hk.trans (.setRet _ p _))
      · exact .endbyte rfl c (by rw [hk]; rfl) (by rw [hk]; rfl)
  | keyboard h₁ =>
      unfold sysKeyboard at h₁
      split at h₁
      · exact .key rfl h₁ rfl
      · obtain rfl : k = k' := Except.ok.inj h₁
        exact .kept (.refl k) (by rintro ⟨⟩) fun _ => rfl
  | bad => exact hstay (by decide) (.refl k)

end Xeros
