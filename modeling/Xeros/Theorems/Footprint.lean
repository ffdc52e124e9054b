import Xeros.Logic.Stores
import Xeros.Theorems.Missed
import Xeros.Theorems.Overrun
import Xeros.Theorems.Stacks
import Xeros.Theorems.Starts

/-!
# What the kernel writes

Processes and the kernel share one address space, so what a system call may write is part of
its interface. A request writes what its arguments name, what the partner of a message has
named, the first context of a process or the places of the keyboard; the end of a turn writes
a signal frame; the assembly writes its own frame, the registers of the process that enters
and the `eax` of the one that leaves. Everything else stays as it is.

The headers of the free blocks lie in the same memory. The model keeps them in a map of their
own, so that what is said of the bytes of the memory is said of these headers separately.
-/

namespace Xeros

open Lib

variable {k k' : Kernel} {p p' : Slot} {a : Ambient} {req : Request} {w x : Word} {L : Linked}
  {m m₀ m' : Machine} {e : MachStep} {h h' : Heap} {fuel : Nat} {size b c : Word}

/-! ## Requests -/

/-- What a request may write. -/
def Writes (k : Kernel) (p : Slot) (a : Ambient) (w : Word) : Request → Prop
  | .sighandler => ¬ ((k.arg p 0).toInt < 0 ∨ (k.arg p 0).toInt > maxSignal) ∧
      InRange (k.arg p 2) 4 w
  | .write => InRange (k.arg p 1) (k.arg p 2).toInt.toNat w
  | .read => k.kbd.eofReceived = true ∧ InRange (k.arg p 1) (k.arg p 2).toInt.toNat w
  | .keyboard => KeyStores k w
  | req => Stores k p a w req

/-- A driver writes to the buffer that it is given only. -/
theorem callTransfer_frame {f : TransferFn} {b : Word} {len : Int}
    (h : ¬ (k.kbd.eofReceived = true ∧ InRange b len.toNat w)) :
    (callTransfer f k p b len).2.mem w = k.mem w := by
  have hecho : (ekbdRead k p b len).2.mem w = k.mem w := by
    unfold ekbdRead
    split
    · rfl
    · rfl
  cases f with
  | unsupported => rfl
  | kbdRead =>
      show (kbdRead k p b len).2.mem w = k.mem w
      unfold kbdRead
      split
      · rename_i heof
        show k.mem.splice b len.toNat (fun _ => 0) w = k.mem w
        exact Bytes.splice_of_not_inRange fun hx => h ⟨heof, hx⟩
      · exact hecho
  | ekbdRead => exact hecho

theorem diRead_frame {fd : Int} {b : Word} {len : Int}
    (h : ¬ (k.kbd.eofReceived = true ∧ InRange b len.toNat w)) :
    (diRead k p fd b len).2.mem w = k.mem w := by
  unfold diRead
  split
  · rfl
  · exact callTransfer_frame h

theorem diOpen_mem (k : Kernel) (p : Slot) (devno : Word) : (diOpen k p devno).2.mem = k.mem := by
  have hopen : ∀ (f : OpenFn) (k : Kernel), (callOpen f k p).2.mem = k.mem := by
    intro f k
    cases f <;> rfl
  unfold diOpen
  dsimp only
  split
  · split
    · rfl
    · split <;> exact hopen _ _
  · rfl

theorem diClose_mem (k : Kernel) (p : Slot) (fd : Int) : (diClose k p fd).2.mem = k.mem := by
  have hclose : ∀ f : CloseFn, (callClose f k).2.mem = k.mem := by
    intro f
    cases f <;> rfl
  unfold diClose
  dsimp only
  split
  · rfl
  · split <;> exact hclose _

theorem diIoctl_mem (k : Kernel) (a : Ambient) (p : Slot) (fd cmd : Int) (arg : Word) :
    (diIoctl k a p fd cmd arg).2.mem = k.mem := by
  have hioctl : ∀ f : IoctlFn, (callIoctl f k a cmd arg).2.mem = k.mem := by
    intro f
    cases f with
    | unsupported => rfl
    | kbdIoctl =>
        unfold callIoctl kbdIoctl
        dsimp only
        split
        · rfl
        · split <;> rfl
  unfold diIoctl
  split
  · rfl
  · exact hioctl _

theorem sysWrite_frame (h : sysWrite k p a = .ok k')
    (hw : ¬ InRange (k.arg p 1) (k.arg p 2).toInt.toNat w) : k'.mem w = k.mem w := by
  simp only [sysWrite, Run.bind_eq_ok, pure, Except.pure, Except.ok.injEq] at h
  obtain ⟨k₁, h₁, rfl⟩ := h
  have hprint : k₁.mem w = k.mem w := by
    unfold printbuffer at h₁
    split at h₁
    · obtain rfl := Except.ok.inj h₁
      exact Bytes.splice_of_not_inRange hw
    · cases h₁
  refine Eq.trans ?_ hprint
  show (diWrite k₁ p _ _ _).2.mem w = k₁.mem w
  unfold diWrite
  split
  · rfl
  · exact callTransfer_frame fun h => hw h.2

theorem sysRead_frame (h : sysRead k p a = .ok (k', p')) (hw : ¬ Writes k p a w .read) :
    k'.mem w = k.mem w := by
  have hread : (diRead k p (k.arg p 0).toInt (k.arg p 1) (k.arg p 2).toInt).2.mem w = k.mem w :=
    diRead_frame hw
  rw [← hread]
  rcases sysRead_cases h with ⟨-, -, v, rfl⟩ | ⟨-, k₁, h₁, h₂⟩
  · rfl
  · exact congrFun ((Rest.block h₁).trans (.reschedule h₂)).mem w

theorem sysSigkill_mem (h : sysSigkill k p a = .ok k') : k'.mem = k.mem := by
  rcases sysSigkill_cases h with ⟨-, k₁, h₁, rfl⟩ | ⟨-, rfl⟩
  · rcases post_cases h₁ with ⟨-, k₂, v, h₂, rfl⟩ | ⟨-, rfl⟩
    · exact (Rest.ready h₂).mem
    · rfl
  · rfl

theorem sysSighandler_frame (hw : ¬ Writes k p a w .sighandler) :
    (sysSighandler k p).mem w = k.mem w := by
  unfold sysSighandler
  dsimp only
  split
  · rfl
  · rename_i hsig
    show k.mem.putWord (k.arg p 2) _ w = k.mem w
    exact Bytes.putWord_of_not_inRange fun hx => hw ⟨hsig, hx⟩

/-- A byte that a request does not name is not written. -/
theorem serve_writes (hx : Indexed k.kbd) (h : serve k p a req = .ok (k', p'))
    (hw : ¬ Writes k p a w req) : k'.mem w = k.mem w := by
  cases serve_cases h with
  | create _ => exact serve_frame (.inl rfl) h hw
  | yield _ _ => exact serve_frame (.inr (.inl rfl)) h hw
  | stop h₁ h₂ => exact congrFun ((Rest.sysStop h₁).trans (.reschedule h₂)).mem w
  | getpid => rfl
  | puts => rfl
  | send _ _ => exact serve_frame (.inr (.inr (.inl rfl))) h hw
  | recv _ _ => exact serve_frame (.inr (.inr (.inr (.inl rfl)))) h hw
  | timer h₁ => exact congrFun (Rest.sysTimer h₁).mem w
  | sleep h₁ h₂ => exact congrFun ((Rest.sysSleep h₁).trans (.reschedule h₂)).mem w
  | sighandler => exact sysSighandler_frame hw
  | sigreturn => rfl
  | sigkill h₁ => exact congrFun (sysSigkill_mem h₁) w
  | noHandler _ => rfl
  | sigwait _ h₁ h₂ => exact congrFun ((Rest.block h₁).trans (.reschedule h₂)).mem w
  | openDev => exact congrFun (diOpen_mem k p _) w
  | close => exact congrFun (diClose_mem k p _) w
  | write h₁ => exact sysWrite_frame h₁ hw
  | read h₁ => exact sysRead_frame h₁ hw
  | ioctl => exact congrFun (diIoctl_mem k a p _ _ _) w
  | keyboard h₁ =>
      unfold sysKeyboard at h₁
      split at h₁
      · exact processKey_footprint hx h₁ hw
      · obtain rfl := Except.ok.inj h₁
        rfl
  | bad => rfl

/-! ## Turns -/

/-- What a turn of the dispatcher writes of the memory that the process leaves: what its
request may write, and a frame below the stack pointer of the process that runs next, if that
has a signal to be delivered. -/
theorem Turn.writes {s s' : Recorded} {t : Trap} {k₂ : Kernel} {h₂ : History}
    (ht : Turn s t k₂ h₂ s') (hx : Indexed s.d.k.kbd)
    (hne : s'.d.k.mem w ≠ (contextswitch s.d.k s.d.p t).mem w) :
    Writes (contextswitch s.d.k s.d.p t) s.d.p t.ambient w t.cause.request ∨
      deliverable (k₂.proctab s'.d.p) ∧ InRange (s'.d.k.proctab s'.d.p).esp 68 w := by
  by_cases hw : Writes (contextswitch s.d.k s.d.p t) s.d.p t.ambient w t.cause.request
  · exact .inl hw
  refine .inr ?_
  by_contra hno
  refine hne (Eq.trans ?_ (serve_writes hx ht.serve hw))
  have hpcb := loopTop_proctab ht.used s'.d.p
  rw [← ht.loopTop, if_pos rfl] at hpcb
  rw [ht.loopTop]
  refine loopTop_mem_of_not_inRange ht.used fun hd hin => hno ⟨hd, ?_⟩
  rw [hpcb, if_pos hd]
  exact hin

/-! ## Headers -/

/-- `kmalloc` writes the header at `b` for a request: that of the rest, or of the free block
before or behind the one that it hands out. -/
def WritesHeader (h : Heap) (fuel : Nat) (size b : Word) : Prop :=
  ∃ c, findBlock h (paragraphs size) fuel h.head = .ok c ∧ c ≠ 0 ∧
    (b = c + paragraphs size ∨ b = (h.hdr c).next ∨ b = (h.hdr c).prev)

theorem Heap.updAt_hdr_ne {f : MemHdr → MemHdr} (hb : b ≠ c) :
    (h.updAt c f).hdr b = h.hdr b := by
  rw [updAt_hdr, if_neg fun he => hb (pointer_eq_some.mp he).1.symm]

theorem Heap.linkAt_hdr_ne {v : Word} (hb : b ≠ c) : (h.linkAt c v).hdr b = h.hdr b := by
  rw [linkAt_hdr, if_neg fun he => hb (pointer_eq_some.mp he).1.symm]

/-- A block that is handed out whole: its neighbours are linked. -/
theorem Heap.unlink_hdr_ne (hn : b ≠ (h.hdr c).next) (hp : b ≠ (h.hdr c).prev) :
    (h.unlink c).hdr b = h.hdr b := by
  have hprev : ((h.updAt (h.hdr c).next fun d => { d with prev := (h.hdr c).prev }).hdr c).prev
      = (h.hdr c).prev := by
    rw [updAt_hdr]
    split <;> rfl
  unfold unlink
  dsimp only
  rw [linkAt_hdr_ne (by rwa [hprev]), updAt_hdr_ne hn]

/-- A block that is cut: the rest is linked with the neighbours. -/
theorem Heap.split_hdr_ne {r : Word} (hr : b ≠ r) (hn : b ≠ (h.hdr c).next)
    (hp : b ≠ (h.hdr c).prev) : (h.split c r).hdr b = h.hdr b := by
  have hc : (h.upd r fun _ => h.hdr c).hdr c = h.hdr c := by
    by_cases he : c = r
    · rw [← he, upd_hdr_self]
    · exact upd_hdr_ne h _ he
  have hprev : (((h.upd r fun _ => h.hdr c).updAt (h.hdr c).next
      fun d => { d with prev := r }).hdr c).prev = r ∨
      (((h.upd r fun _ => h.hdr c).updAt (h.hdr c).next
        fun d => { d with prev := r }).hdr c).prev = (h.hdr c).prev := by
    rw [updAt_hdr, hc]
    split
    · exact .inl rfl
    · exact .inr rfl
  unfold split
  dsimp only
  rw [hc]
  rw [linkAt_hdr_ne, updAt_hdr_ne hn, upd_hdr_ne h _ hr]
  rcases hprev with he | he
  · rwa [he]
  · rwa [he]

theorem kmalloc_writes (hk : kmalloc h fuel size = .ok (c, h')) (hne : h'.hdr b ≠ h.hdr b) :
    WritesHeader h fuel size b := by
  obtain ⟨hfind, hk⟩ := kmalloc_cases hk
  by_contra hno
  have hout : c ≠ 0 → b ≠ c + paragraphs size ∧ b ≠ (h.hdr c).next ∧ b ≠ (h.hdr c).prev := by
    intro hc
    refine ⟨fun he => ?_, fun he => ?_, fun he => ?_⟩
    · exact hno ⟨c, hfind, hc, .inl he⟩
    · exact hno ⟨c, hfind, hc, .inr (.inl he)⟩
    · exact hno ⟨c, hfind, hc, .inr (.inr he)⟩
  rcases hk with ⟨-, rfl⟩ | ⟨hc, -, rfl⟩ | ⟨hc, -, rfl⟩
  · exact hne rfl
  · obtain ⟨-, hn, hp⟩ := hout hc
    exact hne (Heap.unlink_hdr_ne hn hp)
  · obtain ⟨hr, hn, hp⟩ := hout hc
    exact hne (Heap.split_hdr_ne hr hn hp)

/-- A turn writes headers for a stack only. -/
theorem turn_writes_header {s s' : Disp} {t : Trap} (h : turn s t = .ok s')
    (hne : s'.k.heap.hdr b ≠ s.k.heap.hdr b) : t.cause.request = .create ∧
      WritesHeader s.k.heap t.ambient.fuel
        (stackSize ((contextswitch s.k s.p t).arg s.p 1) * 2) b := by
  obtain ⟨k₂, hserve, he⟩ := turn_cases h
  have htop := remote_heap.loopTop k₂ s'.p
  rw [← he] at htop
  have hheap : s'.k.heap = k₂.heap := congrArg Prod.fst htop
  rw [hheap] at hne
  generalize s'.p = p₂ at hserve
  by_cases hreq : t.cause.request = .create
  · refine ⟨hreq, ?_⟩
    rw [hreq] at hserve
    cases serve_cases hserve with
    | create h₁ =>
        obtain ⟨pid, k₁, hcreate, rfl⟩ := sysCreate_cases h₁
        rcases (create_heap hcreate).2 with ⟨hsame, -⟩ | ⟨-, c, -, hblock, -⟩
        · exact absurd (congrFun (congrArg Heap.hdr hsame) b) hne
        · exact kmalloc_writes hblock hne
  · have hkeep := remote_heap.serve hserve hreq
    have hsame : k₂.heap = s.k.heap := congrArg Prod.fst hkeep
    exact absurd (congrFun (congrArg Heap.hdr hsame) b) hne

/-! ## The machine -/

/-- What a step of the machine may write in a run from `m₀`, and why. -/
inductive MayWrite (L : Linked) (m₀ m : Machine) (x : Word) : MachStep → Machine → Prop
  /-- User code writes what it likes. -/
  | user {r : Regs} {eip f : Word} {b : Bytes} {m' : Machine} :
      MayWrite L m₀ m x (.user r eip f b) m'
  /-- A gate pushes three words. -/
  | gate {v : Intr} {m' : Machine} (h : InRange (m.cpu.reg.esp - 12) 12 x) :
      MayWrite L m₀ m x (.intr v) m'
  /-- The kernel's own registers. -/
  | frame {m' : Machine} (h : InRange L.kframe 36 x) : MayWrite L m₀ m x .exec m'
  /-- The value that a process is resumed with. -/
  | eax {m' : Machine} (h : InRange (m.pcb.esp + 28) 4 x) : MayWrite L m₀ m x .exec m'
  /-- The registers of the process that has entered the kernel in a state `u` of the run and
  executed `j` instructions of its entry since. -/
  | regs (u : Cpu Static) (v : Intr) (j : ℕ) {m' : Machine}
      (hr : L.machine.Path L.Orderly m₀ ⟨u, m.s⟩) (hu : u.eip = L.text v.index) (hj : j < 12)
      (hcpu : m.cpu = L.prog.run v.index j u) (h : InRange (u.reg.esp - 32) 32 x) :
      MayWrite L m₀ m x .exec m'
  /-- A request. -/
  | request {a : Ambient} {r : Regs} {f : Word} {m' : Machine}
      (h : Writes (contextswitch m.s.d.k m.p (m.trap a)) m.p a x (m.trap a).cause.request) :
      MayWrite L m₀ m x (.serve a r f) m'
  /-- A header of the allocator. -/
  | header {a : Ambient} {r : Regs} {f b : Word} {m' : Machine}
      (hreq : (m.trap a).cause.request = .create)
      (hb : WritesHeader m.s.d.k.heap a.fuel
        (stackSize ((contextswitch m.s.d.k m.p (m.trap a)).arg m.p 1) * 2) b)
      (h : InRange b memHdrSize x) : MayWrite L m₀ m x (.serve a r f) m'
  /-- The frame of a signal. -/
  | signal {a : Ambient} {r : Regs} {f : Word} {m' : Machine} {k₂ : Kernel}
      (hs : serve (contextswitch m.s.d.k m.p (m.trap a)) m.p a (m.trap a).cause.request
        = .ok (k₂, m'.p)) (hd : deliverable (k₂.proctab m'.p))
      (h : InRange m'.pcb.esp 68 x) : MayWrite L m₀ m x (.serve a r f) m'

/-- An instruction of the assembly. -/
theorem exec_writes (hi : L.machine.init m₀) (hp : L.machine.Path L.Orderly m₀ m)
    (hst : L.Step m .exec m') (hne : m'.cpu.mem x ≠ m.cpu.mem x) :
    MayWrite L m₀ m x .exec m' := by
  obtain ⟨c₀, hc, hph⟩ := phase_of_run hi hp
  -- an entry that has executed `j` instructions
  have hentry : ∀ (u : Cpu Static) (v : Intr) (j : ℕ), InProcess L c₀ u →
      L.machine.Path L.Orderly m₀ ⟨u, m.s⟩ → u.eip = L.text v.index → j < 12 →
      m.cpu = L.prog.run v.index j u → MayWrite L m₀ m x .exec m' := by
    intro u v j hin hru hu hj hcpu
    obtain ⟨-, hs, -, hlt⟩ := entry_path v
    obtain ⟨cpu, s⟩ := m
    subst hcpu
    have hnext := step_run (hs.mono (Nat.le_of_lt hj)) (hlt j hj).2 hu hst
    by_cases hf : InRange L.kframe 36 x
    · exact .frame hf
    refine .regs u v j hru hu hj rfl ?_
    by_contra hpush
    have hf' : ¬ InRange (u.var .saveESP) 36 x := hin.saveESP ▸ hf
    apply hne
    rw [hnext, run_entering_mem hj hpush hf', run_entering_mem (Nat.le_of_lt hj) hpush hf']
  obtain ⟨cpu, s⟩ := m
  cases hph with
  | leaving j hj _ =>
      obtain ⟨-, hs, hsucc⟩ := toProcess_path
      have hlt : ctswListing.succ^[j] 0 < ctswEnd := by
        rw [hsucc j (by omega)]
        exact Nat.lt_trans hj (by decide)
      have hnext := step_run (hs.mono (by omega)) hlt hc.eip hst
      have hesp : c₀.var .saveESP = (s.d.k.proctab s.d.p).esp := by
        rw [hc.var]
        rfl
      by_cases hf : InRange L.kframe 36 x
      · exact .frame hf
      refine .eax ?_
      by_contra heax
      have hk : c₀.reg.esp - 4 - 32 = L.kframe := by
        rw [hc.esp]
        rfl
      have hf' : ¬ InRange (c₀.reg.esp - 4 - 32) 36 x := hk ▸ hf
      have heax' : ¬ InRange (c₀.var .saveESP + 28) 4 x := hesp ▸ heax
      apply hne
      rw [hnext, run_leaving_mem hj hf' heax', run_leaving_mem (Nat.le_of_lt hj) hf' heax']
  | process _ hin hru =>
      rcases hin.place with hout | ⟨v, hv⟩
      · cases hst with
        | exec i hi hie => exact absurd hie (hout.ne (Nat.le_of_lt hi))
      · exact hentry cpu v 0 hin hru.1 hv (by decide) rfl
  | entering u v j hin hru hu hj =>
      rcases Nat.lt_or_ge (j + 1) 12 with hlt | hge
      · exact hentry u v (j + 1) hin hru.1 hu hlt rfl
      · -- the end of the assembly is no instruction
        obtain rfl : j = 11 := by omega
        have hend : L.prog.succ^[12] v.index = ctswEnd := (entry_path v).2.2.1
        cases hst with
        | exec i hi hie =>
            have heip := hie.symm.trans (run_entering hu hj).1
            rw [hend] at heip
            exact absurd (L.inj _ _ (Nat.le_of_lt hi) (Nat.le_refl _) heip) (Nat.ne_of_lt hi)

end Xeros
