import Xeros.Theorems.Contexts
import Xeros.Theorems.Creation

/-!
# Where code starts

`create` and `modify_process_stack` build contexts that no processor has left: the first one
of a process, and the one of a handler. `iret` starts the function of the process on its own
stack, with the return to `sysstop` on top, and it starts `sigtramp` with the arguments of a
call on the stack.
-/

namespace Xeros

open Lib

variable {k k' k₂ : Kernel} {p p' i : Slot} {a : Ambient} {L : Linked}
  {m m₁ m₃ m₄ : Machine} {b : Bytes} {img : Image} {cf fp : Word} {c : Pcb} {n : Int}

/-! ## The contexts -/

/-- The registers of a context that the kernel has filled with `0x81`. -/
def filledRegs (ebp esp : Word) : Regs where
  edi := 0x81818181
  esi := 0x81818181
  ebp := ebp
  esp := esp
  ebx := 0x81818181
  edx := 0x81818181
  ecx := 0x81818181
  eax := 0x81818181

/-- A processor that starts at `eip` in the code segment of the kernel, with the interrupts
enabled. -/
def starting (img : Image) (eip ebp esp : Word) : Cpu Static where
  reg := filledRegs ebp esp
  eip := eip
  cs := img.cs.setWidth 16
  eflags := intrEnaEflags
  mem := img.mem
  var _ := 0

/-- The step leaves the first context of a process alone, and the word above it. -/
structure Unstarted (L : Linked) (i : Slot) (cf : Word) (m : Machine) (e : MachStep) : Prop
    extends LeftAlone L i 0 cf m e where
  above : ∀ m', L.Step m e m' → m'.cpu.mem.word (cf + 44) = m.cpu.mem.word (cf + 44)

/-- The context that `create` builds, and the word above it. -/
theorem startContext_holds (b : Bytes) (img : Image) (cf fp : Word) :
    Holds (startContext b img cf fp) cf (starting img fp (cf + 48) (cf + 44)) ∧
      (startContext b img cf fp).word (cf + 44) = img.sysstop := by
  have hfill : ∀ d ∈ [0, 4, 16, 20, 24], (startContext b img cf fp).word (cf + d)
      = 0x81818181 := by
    intro d hd
    simp only [List.mem_cons, List.not_mem_nil, or_false] at hd
    unfold startContext
    rcases hd with rfl | rfl | rfl | rfl | rfl
    all_goals
      simp (disch := decide) only [Bytes.word_putWord_off]
      exact Bytes.word_fill (by decide)
  have hedi : (startContext b img cf fp).word cf = 0x81818181 := by
    have h := hfill 0 (by decide)
    rwa [show cf + 0 = cf by bv_omega] at h
  obtain ⟨h8, h32, h36, h40⟩ :
      (startContext b img cf fp).word (cf + 8) = cf + 48 ∧
      (startContext b img cf fp).word (cf + 32) = fp ∧
      (startContext b img cf fp).word (cf + 36) = img.cs ∧
      (startContext b img cf fp).word (cf + 40) = intrEnaEflags := by
    unfold startContext
    simp (disch := decide) only [Bytes.word_putWord_off, Bytes.word_putWord, and_self]
  refine ⟨⟨?_, h32, congrArg (BitVec.setWidth 16) h36, h40⟩, Bytes.word_putWord⟩
  unfold Bytes.regs starting filledRegs
  rw [hedi, h8, hfill 4 (by decide), hfill 16 (by decide), hfill 20 (by decide),
    hfill 24 (by decide)]

/-- The context that `modify_process_stack` builds, and the words above it: a return address
and the arguments of `sigtramp`. -/
theorem setupFrame_holds (k : Kernel) (c : Pcb) (n : Int) :
    Holds (setupFrame k c n) (c.esp - 68)
        (starting k.img k.img.sigtramp c.esp (c.esp - 68 + 44)) ∧
      (setupFrame k c n).words (c.esp - 68 + 48) 3 = [c.handler n, c.esp, c.esp] := by
  generalize hsp : c.esp - 68 = sp
  have hfill : ∀ d ∈ [0, 4, 16, 20, 24], (setupFrame k c n).word (sp + d) = 0x81818181 := by
    intro d hd
    simp only [List.mem_cons, List.not_mem_nil, or_false] at hd
    unfold setupFrame
    rw [show c.esp - sigtrampFrameSize = sp from hsp]
    rcases hd with rfl | rfl | rfl | rfl | rfl
    all_goals
      simp (disch := decide) only [Bytes.word_putWord_off]
      exact Bytes.word_fill (by decide)
  have hedi : (setupFrame k c n).word sp = 0x81818181 := by
    have h := hfill 0 (by decide)
    rwa [show sp + 0 = sp by bv_omega] at h
  obtain ⟨h8, h32, h36, h40, h48, h52, h56⟩ :
      (setupFrame k c n).word (sp + 8) = c.esp ∧
      (setupFrame k c n).word (sp + 32) = k.img.sigtramp ∧
      (setupFrame k c n).word (sp + 36) = k.img.cs ∧
      (setupFrame k c n).word (sp + 40) = intrEnaEflags ∧
      (setupFrame k c n).word (sp + 48) = c.handler n ∧
      (setupFrame k c n).word (sp + 52) = c.esp ∧
      (setupFrame k c n).word (sp + 56) = c.esp := by
    unfold setupFrame
    rw [show c.esp - sigtrampFrameSize = sp from hsp]
    simp (disch := decide) only [Bytes.word_putWord_off, Bytes.word_putWord, and_self]
  refine ⟨⟨?_, h32, congrArg (BitVec.setWidth 16) h36, h40⟩, ?_⟩
  · unfold Bytes.regs starting filledRegs
    rw [hedi, h8, hfill 4 (by decide), hfill 16 (by decide), hfill 20 (by decide),
      hfill 24 (by decide)]
  · simp only [Bytes.words, BitVec.add_assoc]
    exact congrArg₂ _ h48 (congrArg₂ _ h52 (congrArg (· :: []) h56))

/-- Only the 68 bytes of the frame are written. -/
theorem setupFrame_of_not_inRange {x : Word} (h : ¬ InRange (c.esp - 68) 68 x) :
    setupFrame k c n x = k.mem x := by
  have hpart : ∀ {d : Word} {j : ℕ}, d.toNat + j ≤ 68 → ¬ InRange (c.esp - 68 + d) j x :=
    fun hd hx => h (hx.of_part hd)
  unfold setupFrame Bytes.putWord
  rw [show c.esp - sigtrampFrameSize = c.esp - 68 from rfl]
  repeat rw [Bytes.splice_of_not_inRange (hpart (by decide))]
  exact Bytes.splice_of_not_inRange h

/-! ## The end of a turn -/

/-- The frame of a delivery is all that the head of the loop writes. -/
theorem loopTop_mem_of_not_inRange {x : Word} (hu : k.Used p)
    (h : deliverable (k.proctab p) → ¬ InRange ((k.proctab p).esp - 68) 68 x) :
    (loopTop k p).k.mem x = k.mem x := by
  have hr : (run k p).proctab p = (k.proctab p).setState .running := by simp [run]
  have hu' : (run k p).Used p := hu.congr (by rw [hr]; rfl)
  have hk : (loopTop k p).k = deliverSignalsIfany (run k p) p := rfl
  rw [hk, deliverSignalsIfany_eq hu', hr]
  split
  · rename_i hd
    exact setupFrame_of_not_inRange (h hd)
  · rfl

/-- The memory after a delivery. -/
theorem loopTop_mem_of_deliverable (hu : k.Used p) (hd : deliverable (k.proctab p)) :
    (loopTop k p).k.mem = setupFrame (run k p) ((k.proctab p).setState .running)
      (getNextSignal (k.proctab p).sigPending) := by
  have hr : (run k p).proctab p = (k.proctab p).setState .running := by simp [run]
  have hu' : (run k p).Used p := hu.congr (by rw [hr]; rfl)
  have hk : (loopTop k p).k = deliverSignalsIfany (run k p) p := rfl
  have hd' : deliverable ((k.proctab p).setState .running) := hd
  rw [hk, deliverSignalsIfany_eq hu', hr, if_pos hd']
  rfl

/-! ## Handlers -/

/-- A process that has a signal to be delivered starts `sigtramp` when it runs: the handler of
the highest pending signal and the address of the interrupted context, twice, are on its stack
as the arguments of a call, the interrupts are enabled, and the interrupted context is below,
untouched. -/
theorem handler_starts {r : Regs} {f : Word} (hr : L.machine.ReachableUnder L.Orderly m)
    (hst : L.Step m (.serve a r f) m₁)
    (hs : serve (contextswitch m.s.d.k m.p (m.trap a)) m.p a (m.trap a).cause.request
      = .ok (k₂, p'))
    (hd : deliverable (k₂.proctab p'))
    (hap : Apart ((k₂.proctab p').esp - 68) 68 L.kframe 36)
    (hp : L.machine.Path (NotServing L) m₁ m₃) (he : m₃.cpu.eip = L.text 8)
    (hx : L.Step m₃ .exec m₄) :
    m₄.cpu.eip = k₂.img.sigtramp ∧ m₄.cpu.eflags = intrEnaEflags ∧
      m₄.cpu.reg.esp = (k₂.proctab p').esp - 24 ∧
      m₄.cpu.mem.words (m₄.cpu.reg.esp + 4) 3 =
        [(k₂.proctab p').handler (getNextSignal (k₂.proctab p').sigPending),
          (k₂.proctab p').esp, (k₂.proctab p').esp] ∧
      ∀ x, ¬ InRange ((k₂.proctab p').esp - 68) 68 x → ¬ InRange L.kframe 36 x →
        m₄.cpu.mem x = k₂.mem x := by
  obtain ⟨c₀, hc₀, hph⟩ := phase_of_reachable hr
  have hc := hph.serve hc₀ hst
  have hsound := Recorded.sound_of_reachable (recorder_of_machine hr)
  have hturn : m.s.turn (m.trap a) = .ok m₁.s := by
    cases hst with
    | serve _ _ _ s' heip hturn hr' hf => rwa [Machine.dispatch_eq] at hturn
  obtain ⟨k', h₂, ht⟩ := Recorded.turn_cases hsound hturn
  obtain ⟨rfl, rfl⟩ : k' = k₂ ∧ m₁.p = p' := by
    have h := ht.serve.symm.trans hs
    simpa using h
  have hloop := ht.loopTop
  -- what the context holds and where it is
  generalize hsp : (k'.proctab m₁.p).esp = sp at *
  have hsave : m₁.cpu.var .saveESP = sp - 68 := by
    have hpcb := loopTop_proctab ht.used m₁.p
    rw [← ht.loopTop, if_pos rfl, if_pos hd] at hpcb
    rw [hc.var]
    show (m₁.s.d.k.proctab m₁.p).esp = sp - 68
    rw [hpcb, ← hsp]
    rfl
  have hmem : m₁.cpu.mem = setupFrame (run k' m₁.p) ((k'.proctab m₁.p).setState .running)
      (getNextSignal (k'.proctab m₁.p).sigPending) := by
    rw [hc.mem, hloop]
    exact loopTop_mem_of_deliverable ht.used hd
  have hkf : m₁.cpu.reg.esp - 4 - 32 = L.kframe := by
    rw [hc.esp]
    rfl
  -- on its way out the kernel writes its own frame and the place of `eax` only
  have hout : ∀ x, ¬ InRange L.kframe 36 x → ¬ InRange (sp - 68 + 28) 4 x →
      handed m₁.cpu x = m₁.cpu.mem x := by
    intro x hk hx
    unfold handed
    rw [hsave, Bytes.putWord_of_not_inRange hx]
    exact framed_of_not_inRange (hkf ▸ hk)
  obtain ⟨hholds, hwords⟩ := setupFrame_holds (run k' m₁.p)
    ((k'.proctab m₁.p).setState .running) (getNextSignal (k'.proctab m₁.p).sigPending)
  have hsp' : ((k'.proctab m₁.p).setState .running).esp = sp := hsp
  rw [hsp', ← hmem] at hholds hwords
  have hctx : Holds (handed m₁.cpu) (sp - 68) (starting k'.img k'.img.sigtramp sp (sp - 24)) := by
    rw [show sp - 24 = sp - 68 + 44 by bv_omega]
    refine hholds.congr fun x hx => hout x (hap x ?_) hx.2
    have hx' := hx.1
    unfold InRange at hx' ⊢
    omega
  obtain ⟨hcpu, -⟩ := (phase_of_path hc hp).2.iret hc he hx
  rw [hcpu, run_iret hc.eip, hsave]
  generalize hu : { m₁.cpu with
    mem := handed m₁.cpu
    var := Function.update m₁.cpu.var .saveESP (m₁.cpu.reg.esp - 4 - 32) } = u
  have humem : u.mem = handed m₁.cpu := by rw [← hu]
  have hesp : (resume u (sp - 68)).reg.esp = sp - 24 := by
    show sp - 68 + 44 = sp - 24
    bv_omega
  obtain ⟨-, heip, -, hflags⟩ := Holds.resume (humem ▸ hctx)
  refine ⟨heip, hflags, hesp, ?_, fun x hx hk => ?_⟩
  · rw [hesp]
    show u.mem.words (sp - 24 + 4) 3 = _
    rw [humem, show sp - 24 + 4 = sp - 68 + 48 by bv_omega]
    refine Eq.trans ?_ hwords
    refine Bytes.words_congr (by decide) fun x hx => hout x (hap x ?_) ?_
    · unfold InRange at hx ⊢
      bv_omega
    · unfold InRange at hx ⊢
      bv_omega
  · show u.mem x = k'.mem x
    rw [humem, hout x hk, hmem]
    · refine (setupFrame_of_not_inRange ?_).trans rfl
      rwa [hsp']
    · intro h
      apply hx
      unfold InRange at h ⊢
      bv_omega

/-- The root process of the sample machine has a handler for 5 and posts 5 to itself. -/
def sampleListens : Machine :=
  sampleServe (sampleEnter sampleMachine .sighandler [5, 0x2000, 0x61000])

@[inherit_doc sampleListens]
def samplePosts : Machine := sampleEnter sampleListens .sigkill [1, 5]

theorem sampleListens_at : sampleListens.cpu.var .saveESP = 0x24fe0 ∧
    sampleListens.cpu.mem.word (sampleListens.cpu.var .saveESP + 32) = 0x1200 ∧
    (sampleKernel.prog.run 0 9 sampleListens.cpu).eip = 0x1200 ∧
    (sampleKernel.prog.run 0 9 sampleListens.cpu).reg.esp = 0x2500c := by decide +kernel

/-- A call of the root process, before it has made any other. -/
theorem sampleFirst_reachable {req : Request} {args : List Word} (hargs : args.length ≤ 3) :
    sampleKernel.machine.ReachableUnder sampleKernel.Orderly
      (sampleEnter sampleMachine req args) := by
  have h : sampleMachine.cpu.var .saveESP = 0x24fe0 ∧
      sampleMachine.cpu.mem.word (sampleMachine.cpu.var .saveESP + 32) = 0x1200 ∧
      (sampleKernel.prog.run 0 9 sampleMachine.cpu).eip = 0x1200 ∧
      (sampleKernel.prog.run 0 9 sampleMachine.cpu).reg.esp = 0x2500c := by decide +kernel
  exact sampleEnter_reachable sampleMachine_reachable hargs (sampleCpu_atCall _) h.1 h.2.1 h.2.2

theorem samplePosts_reachable :
    sampleKernel.machine.ReachableUnder sampleKernel.Orderly samplePosts := by
  have h : (sampleEnter sampleMachine .sighandler [5, 0x2000, 0x61000]).cpu.eip
        = sampleKernel.text ctswEnd ∧
      (sampleStart.turn ((sampleEnter sampleMachine .sighandler [5, 0x2000, 0x61000]).trap
        sampleAmbient)).isOk = true ∧
      (sampleEnter sampleMachine .sighandler [5, 0x2000, 0x61000]).cpu.reg.esp = 0x18000 ∧
      (sampleEnter sampleMachine .sighandler [5, 0x2000, 0x61000]).cpu.Masked := by
    decide +kernel
  obtain ⟨he, hok, hesp, hmask⟩ := h
  obtain ⟨h₁, h₂, h₃⟩ := sampleListens_at
  have hr : sampleKernel.machine.ReachableUnder sampleKernel.Orderly sampleListens :=
    (sampleFirst_reachable (by decide)).tail (a := .serve _ _ _) trivial
      (sampleServe_step he hok)
  exact sampleEnter_reachable hr (by decide) (sampleServe_atCall hesp hmask) h₁ h₂ h₃

/-- It is on its way to `sigtramp`. -/
def sampleHandles : Machine :=
  { sampleServe samplePosts with
    cpu := sampleKernel.prog.run 0 8 (sampleServe samplePosts).cpu }

/-- The kernel that has served the post. -/
def samplePosted : Kernel × Slot :=
  (serve (contextswitch samplePosts.s.d.k samplePosts.p (samplePosts.trap sampleAmbient))
    samplePosts.p sampleAmbient (samplePosts.trap sampleAmbient).cause.request).getD
      (samplePosts.s.d.k, 0)

/-- `sigtramp` is at `0x1000`, and is called with the handler and the context. -/
theorem sampleHandles_starts : ∃ m', sampleKernel.Step sampleHandles .exec m' ∧
    m'.cpu.eip = 0x1000 ∧
    m'.cpu.mem.words (m'.cpu.reg.esp + 4) 3 = [0x2000, 0x24fe0, 0x24fe0] := by
  have hok : samplePosts.cpu.eip = sampleKernel.text ctswEnd ∧
      (samplePosts.s.turn (samplePosts.trap sampleAmbient)).isOk = true ∧
      samplePosts.cpu.reg.esp = 0x18000 ∧ samplePosts.cpu.Masked ∧
      (serve (contextswitch samplePosts.s.d.k samplePosts.p (samplePosts.trap sampleAmbient))
        samplePosts.p sampleAmbient (samplePosts.trap sampleAmbient).cause.request).isOk
          = true := by decide +kernel
  have hposted : deliverable (samplePosted.1.proctab samplePosted.2) ∧
      (samplePosted.1.proctab samplePosted.2).esp = 0x24fe0 ∧
      (samplePosted.1.proctab samplePosted.2).handler
        (getNextSignal (samplePosted.1.proctab samplePosted.2).sigPending) = 0x2000 ∧
      samplePosted.1.img.sigtramp = 0x1000 := by decide +kernel
  have hctx : (sampleServe samplePosts).cpu.var .saveESP = 0x24f9c ∧
      (sampleServe samplePosts).cpu.mem.word ((sampleServe samplePosts).cpu.var .saveESP + 32)
        = 0x1000 ∧ sampleHandles.cpu.eip = sampleKernel.text 8 := by decide +kernel
  obtain ⟨he, hturn, hesp, hmask, hserve⟩ := hok
  obtain ⟨hd, hsp, hh, hsig⟩ := hposted
  obtain ⟨hsave, heip, he₈⟩ := hctx
  have hapart : Apart (0x24fe0 - 68) 68 sampleKernel.kframe 36 := by
    intro x hx hk
    have hk' : InRange (0x18000 - 4 - 32) 36 x := hk
    unfold InRange at hx hk'
    bv_omega
  have hpath : sampleKernel.machine.Path (NotServing sampleKernel) (sampleServe samplePosts)
      sampleHandles := by
    have hok := sampleKernel_context hsave heip (by decide) (by decide)
    exact leaving_path (sampleServe_atCall hesp hmask) hok (by decide)
      fun _ _ h => ⟨h, fun _ _ _ he => by cases he⟩
  have hx := Linked.Step.exec (L := sampleKernel) (m := sampleHandles) 8 (by decide) he₈
  have hk : serve (contextswitch samplePosts.s.d.k samplePosts.p (samplePosts.trap sampleAmbient))
      samplePosts.p sampleAmbient (samplePosts.trap sampleAmbient).cause.request
        = .ok (samplePosted.1, samplePosted.2) :=
    Run.eq_getD (s := (samplePosts.s.d.k, 0)) hserve
  have hstart := handler_starts samplePosts_reachable (sampleServe_step he hturn) hk hd
    (hsp ▸ hapart) hpath he₈ hx
  rw [hsp, hh, hsig] at hstart
  exact ⟨_, hx, hstart.1, hstart.2.2.2.1⟩

/-! ## Processes -/

/-- `SYS_CREATE` that returns a pid leaves the first context of the process in place. -/
theorem created_suspended {s s' : Recorded} {t : Trap} (hs : Sound s.d)
    (hreq : t.cause.request = .create) (hi : freeSlot (contextswitch s.d.k s.d.p t) = some i)
    (hst : s.turn t = .ok s') (hret : (s'.d.k.proctab s.d.p).ret ≠ -1)
    (hap : Apart (t.esp - 68) 68 (s'.d.k.proctab i).esp 48) :
    (s'.d.k.proctab i).alive ∧ s'.h.frames i = [] ∧
      ∀ x, InRange (s'.d.k.proctab i).esp 48 x →
        s'.d.k.mem x = startContext (contextswitch s.d.k s.d.p t).mem s.d.k.img
          (s'.d.k.proctab i).esp ((contextswitch s.d.k s.d.p t).arg s.d.p 0) x := by
  obtain ⟨k₂, h₂, ht⟩ := Recorded.turn_cases hs hst
  have hserve := ht.serve
  rw [hreq] at hserve
  obtain ⟨k₃, h₃, hk₃⟩ := Run.bind_eq_ok.mp hserve
  obtain ⟨rfl, hp⟩ : k₃ = k₂ ∧ s.d.p = s'.d.p := by simpa [pure, Except.pure] using hk₃
  obtain ⟨pid, k₁, h₁, rfl⟩ := sysCreate_cases h₃
  have hproc := loopTop_proctab ht.used
  rw [← ht.loopTop, ← hp] at hproc
  have hpid : pid ≠ -1 := by
    rintro rfl
    apply hret
    rw [hproc, if_pos rfl]
    split <;> simp [Pcb.deliver, Kernel.setRet, Pcb.setState]
  have hrun : ((contextswitch s.d.k s.d.p t).proctab s.d.p).state = .running := by
    rw [contextswitch_state]
    exact hs.running
  have hne : i ≠ s.d.p := by
    rintro rfl
    obtain ⟨-, h | h⟩ := freeSlot_spec hi <;> cases hrun.symm.trans h
  -- `create` has found the slot and a block
  rcases create_cases h₁ with ⟨_, _, hnone, -⟩ | ⟨i', k₀, n, b, heap, hi', h₀, -, hend⟩
  · cases hi.symm.trans hnone
  obtain rfl : i = i' := Option.some.inj (hi.symm.trans hi')
  rcases hend with ⟨-, hpid', -⟩ | ⟨-, -, hl⟩
  · exact absurd hpid' hpid
  obtain ⟨hesp, hmem⟩ := launch_context hl
  have hpcb : s'.d.k.proctab i = k₁.proctab i := by
    rw [hproc, if_neg hne]
    exact Kernel.upd_proctab_ne _ _ _ hne
  have hready : (k₁.proctab i).state = .ready := by
    unfold launch at hl
    rw [ready_eq hl]
    exact readied_state _ i
  rw [hpcb] at hap ⊢
  refine ⟨by simp [Pcb.alive, hready], ?_, fun x hx => ?_⟩
  · rcases ht.delivery i with ⟨he, -⟩ | ⟨-, -, hf, -⟩
    · exact absurd (he.trans hp.symm) hne
    · rw [hf, ht.noted, hreq]
      simp [History.served, hi]
  · have hcaller : ((k₁.setRet s.d.p pid).proctab s.d.p).esp = t.esp := by
      rw [ht.served.esp (by simp [Pcb.alive, hs.running]) fun he => (by rw [hreq] at he; cases he),
        contextswitch_proctab, if_pos rfl]
      cases t.cause <;> rfl
    have hrest := Rest.remove h₀
    have hk₁ : k₁.mem = startContext (contextswitch s.d.k s.d.p t).mem s.d.k.img
        (k₁.proctab i).esp ((contextswitch s.d.k s.d.p t).arg s.d.p 0) := by
      rw [hmem, hesp, Kernel.setHeap_mem, Kernel.upd_mem, Kernel.setHeap_img, Kernel.upd_img,
        hrest.mem, hrest.img]
      rfl
    rw [ht.loopTop, ← hp, loopTop_mem_of_not_inRange (hp ▸ ht.used), ← hk₁]
    · rfl
    · rw [hcaller]
      exact fun _ hx' => hap x hx' hx

/-- A process that `create` has made starts the function that `create` was given, on its own
stack with the interrupts enabled and the return to `sysstop` on top. Until it runs anything may
happen that leaves its first context and the word above it alone, and no handler that it has
inherited may have been started. -/
theorem created_starts {r : Regs} {f : Word} (hr : L.machine.ReachableUnder L.Orderly m)
    (hst : L.Step m (.serve a r f) m₁) (hreq : (m.trap a).cause.request = .create)
    (hi : freeSlot (contextswitch m.s.d.k m.p (m.trap a)) = some i)
    (hret : (m₁.s.d.k.proctab m.p).ret ≠ -1) (hcf : (m₁.s.d.k.proctab i).esp = cf)
    (hap : Apart ((m.trap a).esp - 68) 68 cf 48)
    (hp : L.machine.Path (Unstarted L i cf) m₁ m₃) (hrun : m₃.p = i)
    (hn : m₃.s.h.frames i = []) (he : m₃.cpu.eip = L.text 8) (hx : L.Step m₃ .exec m₄) :
    m₄.cpu.eip = (contextswitch m.s.d.k m.p (m.trap a)).arg m.p 0 ∧
      m₄.cpu.cs = m.s.d.k.img.cs.setWidth 16 ∧ m₄.cpu.eflags = intrEnaEflags ∧
      m₄.cpu.reg = { filledRegs (cf + 48) (cf + 44) with eax := m₃.pcb.ret } ∧
      m₄.cpu.mem.word m₄.cpu.reg.esp = m.s.d.k.img.sysstop := by
  have hrec := recorder_of_machine hr
  obtain ⟨c₀, hc₀, hph⟩ := phase_of_reachable hr
  have hc := hph.serve hc₀ hst
  have hturn : m.s.turn (m.trap a) = .ok m₁.s := by
    cases hst with
    | serve _ _ _ s' heip hturn hr' hf => rwa [Machine.dispatch_eq] at hturn
  obtain ⟨halive, hframes, hmem⟩ := created_suspended (Recorded.sound_of_reachable hrec) hreq hi
    hturn hret (hcf ▸ hap)
  rw [hcf, ← hc.mem] at hmem
  obtain ⟨hholds, htop⟩ := startContext_holds (contextswitch m.s.d.k m.p (m.trap a)).mem
    m.s.d.k.img cf ((contextswitch m.s.d.k m.p (m.trap a)).arg m.p 0)
  have hsusp : Suspended i 0 cf (starting m.s.d.k.img
      ((contextswitch m.s.d.k m.p (m.trap a)).arg m.p 0) (cf + 48) (cf + 44)) m₁ := by
    refine ⟨hrec.tail trivial hturn, halive, .top (by rw [hframes]; rfl) hcf, ?_⟩
    refine hholds.congr fun x hx => hmem x ?_
    have hx' := hx.1
    unfold InRange at hx' ⊢
    omega
  have htop₁ : m₁.cpu.mem.word (cf + 44) = m.s.d.k.img.sysstop := by
    rw [← htop]
    refine Bytes.word_congr fun x hx => hmem x ?_
    exact hx.of_part (by decide)
  -- until the process runs
  have hsusp₃ := hsusp.path (hp.mono fun _ _ h => h.toLeftAlone)
  have htop₃ : m₃.cpu.mem.word (cf + 44) = m.s.d.k.img.sysstop :=
    hp.preserves (I := fun m' => m'.cpu.mem.word (cf + 44) = m.s.d.k.img.sysstop) htop₁
      fun _ _ _ h hu hst => (hu.above _ hst).trans h
  have ho : L.Orderly m (.serve a r f) := trivial
  have hreach : L.machine.ReachableUnder L.Orderly m₃ :=
    (hr.tail ho hst).path (hp.mono fun _ _ h => h.orderly)
  rw [← hrun] at hsusp₃
  obtain ⟨hreg, heip, hcs, hflags⟩ := hsusp₃.resumed hreach (by rw [hrun, hn]; rfl) he hx
  have hmem₄ : m₄.cpu.mem = m₃.cpu.mem := by
    cases hx with
    | exec j hj hje =>
        obtain rfl : j = 8 := L.inj _ _ (Nat.le_of_lt hj) (by decide) (hje.symm.trans he)
        rfl
  refine ⟨heip, hcs, hflags, hreg, ?_⟩
  rw [hreg, hmem₄]
  exact htop₃

/-- The bytes of the first context, but for `eax`, and of the word above it. -/
def FirstByte (cf x : Word) : Prop := InRange cf 48 x ∧ ¬ InRange (cf + 28) 4 x

theorem Unstarted.of_agree {e : MachStep} (ho : L.Orderly m e)
    (hw : ∀ a r f, e = .serve a r f → Unresumed i 0 m.s (m.trap a))
    (h : ∀ m', L.Step m e m' → Bytes.AgreeOn (FirstByte cf) m.cpu.mem m'.cpu.mem) :
    Unstarted L i cf m e := by
  refine ⟨⟨ho, hw, fun m' hst x hx => h m' hst x ⟨?_, hx.2⟩⟩, fun m' hst => ?_⟩
  · have hx' := hx.1
    unfold InRange at hx' ⊢
    omega
  · refine (h m' hst).word fun x hx => ⟨hx.of_part (by decide), ?_⟩
    unfold InRange at hx ⊢
    bv_omega

/-- The root process of the sample machine creates process 3. -/
def sampleCreates : Machine := sampleEnter sampleMachine .create [0x1400, 0]

/-- It is interrupted as soon as it runs again. -/
def sampleLeft : Machine :=
  { sampleServe sampleCreates with
    cpu := sampleKernel.prog.run 0 9 (sampleServe sampleCreates).cpu }

@[inherit_doc sampleLeft]
def sampleYields : Machine := sampleKernel.entered sampleLeft .timer

/-- Process 3 is on its way to the processor. -/
def sampleFirst : Machine :=
  { sampleServe sampleYields with
    cpu := sampleKernel.prog.run 0 8 (sampleServe sampleYields).cpu }

/-- On the way to a process the context of process 3 is left alone. -/
theorem sampleLeaving_unstarted {c : Cpu Static} {s : Recorded} {sp : Word} {n : ℕ}
    (hc : sampleKernel.AtCall s c) (hok : ContextOk sampleKernel c)
    (hesp : c.var .saveESP = sp) (hsp : sp = 0x38fe0 ∨ sp = 0x24fe0) (hn : n ≤ 9) :
    sampleKernel.machine.Path (Unstarted sampleKernel 3 0x38fe0) ⟨c, s⟩
      ⟨sampleKernel.prog.run 0 n c, s⟩ := by
  obtain ⟨-, hs, hsucc⟩ := toProcess_path
  have hmem : ∀ j, j ≤ 9 → Bytes.AgreeOn (FirstByte 0x38fe0) c.mem
      (sampleKernel.prog.run 0 j c).mem := by
    rintro j hj x ⟨hx, hx'⟩
    refine run_leaving_mem hj (fun hk => ?_) (fun hk => ?_)
    · rw [hc.esp] at hk
      have hk' : InRange (0x18000 - 4 - 32) 36 x := hk
      unfold InRange at hx hk'
      bv_omega
    · rw [hesp] at hk
      rcases hsp with rfl | rfl
      · exact hx' hk
      · unfold InRange at hx hk
        bv_omega
  refine leaving_path hc hok hn fun j hj ho =>
    .of_agree ho (fun _ _ _ he => by cases he) fun m' hst => ?_
  have hcpu : m'.cpu = sampleKernel.prog.run 0 (j + 1) c := by
    refine step_run (hs.mono (by omega)) ?_ hc.eip hst
    rw [hsucc j (by omega)]
    exact Nat.lt_of_lt_of_le hj (Nat.le_trans hn (by decide))
  rw [hcpu]
  exact (hmem j (by omega)).symm.trans (hmem (j + 1) (by omega))

/-- On the way back of the root process, too. -/
theorem sampleEntering_unstarted {m : Machine} (hesp : m.cpu.reg.esp = 0x2500c)
    (hsave : m.cpu.var .saveESP = sampleKernel.kframe) (hmask : ¬ m.cpu.Masked) :
    sampleKernel.machine.Path (Unstarted sampleKernel 3 0x38fe0) m
      (sampleKernel.entered m .timer) := by
  have hkf : sampleKernel.kframe = 0x18000 - 4 - 32 := rfl
  have hst := Linked.Step.intr (L := sampleKernel) (m := m) .timer (fun h => by cases h)
    fun _ => hmask
  have hcesp : (m.cpu.enter (contextinit sampleKernel Intr.timer.vector)).reg.esp
      = 0x2500c - 12 := by
    show m.cpu.reg.esp - 12 = 0x2500c - 12
    rw [hesp]
  obtain ⟨-, hs, -, hlt⟩ := entry_path .timer
  have hmem : ∀ j, j ≤ 12 → Bytes.AgreeOn (FirstByte 0x38fe0)
      (m.cpu.enter (contextinit sampleKernel Intr.timer.vector)).mem
      (sampleKernel.prog.run Intr.timer.index j
        (m.cpu.enter (contextinit sampleKernel Intr.timer.vector))).mem := by
    rintro j hj x ⟨hx, -⟩
    refine run_entering_mem hj (fun hk => ?_) (fun hk => ?_)
    · rw [hcesp] at hk
      unfold InRange at hx hk
      bv_omega
    · have hk' : InRange (m.cpu.var .saveESP) 36 x := hk
      rw [hsave, hkf] at hk'
      unfold InRange at hx hk'
      bv_omega
  have hintr : Unstarted sampleKernel 3 0x38fe0 m (.intr .timer) := by
    refine .of_agree (fun x hx hk => ?_) (fun _ _ _ he => by cases he) fun m' he => ?_
    · rw [hesp] at hx
      rw [hkf] at hk
      unfold InRange at hx hk
      bv_omega
    · cases he
      refine .of_putWords fun x hx hp => ?_
      have hp' : InRange (m.cpu.reg.esp - 12) 12 x := hp
      have hx' := hx.1
      rw [hesp] at hp'
      unfold InRange at hx' hp'
      bv_omega
  refine (TSys.Path.refl.tail hintr hst).trans (entered_path hst fun j hj ho =>
    .of_agree ho (fun _ _ _ he => by cases he) fun m' he => ?_)
  have hcpu := step_run (hs.mono (Nat.le_of_lt hj)) (hlt j hj).2 (contextinit_offset .timer).1 he
  rw [hcpu]
  exact (hmem j (by omega)).symm.trans (hmem (j + 1) (by omega))

/-- Process 3 starts at `0x1400`, with the return to `sysstop` on its stack. -/
theorem sampleFirst_starts : ∃ m', sampleKernel.Step sampleFirst .exec m' ∧
    m'.cpu.eip = 0x1400 ∧ m'.cpu.mem.word m'.cpu.reg.esp = 0x1100 := by
  have hcreate : sampleCreates.cpu.eip = sampleKernel.text ctswEnd ∧
      (sampleCreates.s.turn (sampleCreates.trap sampleAmbient)).isOk = true ∧
      sampleCreates.cpu.reg.esp = 0x18000 ∧ sampleCreates.cpu.Masked ∧
      (sampleCreates.trap sampleAmbient).cause.request = .create ∧
      (sampleCreates.trap sampleAmbient).esp = 0x24fe0 := by decide +kernel
  have hcreated : freeSlot (contextswitch sampleCreates.s.d.k sampleCreates.p
        (sampleCreates.trap sampleAmbient)) = some 3 ∧
      ((sampleServe sampleCreates).s.d.k.proctab sampleCreates.p).ret ≠ -1 ∧
      ((sampleServe sampleCreates).s.d.k.proctab 3).esp = 0x38fe0 ∧
      (contextswitch sampleCreates.s.d.k sampleCreates.p
        (sampleCreates.trap sampleAmbient)).arg sampleCreates.p 0 = 0x1400 ∧
      sampleCreates.s.d.k.img.sysstop = 0x1100 := by decide +kernel
  have hback : (sampleServe sampleCreates).cpu.var .saveESP = 0x24fe0 ∧
      (sampleServe sampleCreates).cpu.mem.word
        ((sampleServe sampleCreates).cpu.var .saveESP + 32) = 0x1200 ∧
      sampleLeft.cpu.reg.esp = 0x2500c ∧ sampleLeft.cpu.var .saveESP = sampleKernel.kframe ∧
      ¬ sampleLeft.cpu.Masked := by decide +kernel
  have hyield : sampleYields.cpu.eip = sampleKernel.text ctswEnd ∧
      (sampleYields.s.turn (sampleYields.trap sampleAmbient)).isOk = true ∧
      sampleYields.cpu.reg.esp = 0x18000 ∧ sampleYields.cpu.Masked ∧ sampleYields.p = 1 ∧
      (∀ j, j < 48 → (sampleServe sampleYields).cpu.mem (0x38fe0 + BitVec.ofNat 32 j)
        = sampleYields.cpu.mem (0x38fe0 + BitVec.ofNat 32 j)) := by decide +kernel
  have hfirst : (sampleServe sampleYields).cpu.var .saveESP = 0x38fe0 ∧
      (sampleServe sampleYields).cpu.mem.word
        ((sampleServe sampleYields).cpu.var .saveESP + 32) = 0x1400 ∧
      sampleFirst.p = 3 ∧ sampleFirst.s.h.frames 3 = [] ∧
      sampleFirst.cpu.eip = sampleKernel.text 8 := by decide +kernel
  obtain ⟨he, hturn, hesp, hmask, hreq, hsp⟩ := hcreate
  obtain ⟨hfree, hret, hcf, harg, hstop⟩ := hcreated
  obtain ⟨hsave, heip, hesp₁, hsave₁, hmask₁⟩ := hback
  obtain ⟨he₂, hturn₂, hesp₂, hmask₂, hp₂, hmem₂⟩ := hyield
  obtain ⟨hsave₃, heip₃, hp₃, hn₃, he₃⟩ := hfirst
  have hout : sampleKernel.machine.Path (Unstarted sampleKernel 3 0x38fe0)
      (sampleServe sampleCreates) sampleYields :=
    (sampleLeaving_unstarted (sampleServe_atCall hesp hmask)
      (sampleKernel_context hsave heip (by decide) (by decide)) hsave (.inr rfl)
        (Nat.le_refl 9)).trans (sampleEntering_unstarted hesp₁ hsave₁ hmask₁)
  have hother : sampleYields.s.d.p ≠ 3 := by
    rw [show sampleYields.s.d.p = 1 from hp₂]
    decide
  have hserve : Unstarted sampleKernel 3 0x38fe0 sampleYields (.serve sampleAmbient
      sampleYields.cpu.reg sampleYields.cpu.eflags) := by
    refine .of_agree trivial (fun _ _ _ _ => .of_other hother) fun m' hst x hx => ?_
    have hj := hmem₂ (x - 0x38fe0).toNat hx.1
    rw [sampleServe_mem hturn₂ hst]
    rwa [BitVec.ofNat_toNat, BitVec.setWidth_eq,
      show (0x38fe0 : Word) + (x - 0x38fe0) = x by bv_omega] at hj
  have hlast : sampleKernel.machine.Path (Unstarted sampleKernel 3 0x38fe0)
      (sampleServe sampleYields) sampleFirst :=
    sampleLeaving_unstarted (sampleServe_atCall hesp₂ hmask₂)
      (sampleKernel_context hsave₃ heip₃ (by decide) (by decide)) hsave₃ (.inl rfl) (by decide)
  have hapart : Apart ((sampleCreates.trap sampleAmbient).esp - 68) 68 0x38fe0 48 := by
    rw [hsp]
    intro x hx hx'
    unfold InRange at hx hx'
    bv_omega
  have hx := Linked.Step.exec (L := sampleKernel) (m := sampleFirst) 8 (by decide) he₃
  have hpath := (hout.tail hserve (sampleServe_step he₂ hturn₂)).trans hlast
  obtain ⟨heip₄, -, -, -, hword⟩ := created_starts (sampleFirst_reachable (by decide))
    (sampleServe_step he hturn) hreq hfree hret hcf hapart hpath hp₃ hn₃ he₃ hx
  exact ⟨_, hx, heip₄.trans harg, hword.trans hstop⟩

end Xeros
