import Xeros.Theorems.Machine
import Xeros.Theorems.Resume

/-!
# Where the context of a process is

When a process enters the kernel its registers are on its stack, and `esp` of its pcb leads
there. A handler that is delivered runs below; `old_sp` in its frame leads to the context it
has interrupted. Until the context is resumed it is found in one of these places, and if
nobody writes to it the processor finds there what it has left.
-/

namespace Xeros

open Lib

variable {k k' k₂ : Kernel} {h h₂ : History} {p p' q : Slot} {a : Ambient} {req : Request}
  {s s' : Recorded} {t : Trap} {n : ℕ} {sp w : Word} {c : Pcb} {fs : List SigFrame}
  {L : Linked} {m m' m₁ m₂ m₃ : Machine} {v : Intr} {b b' : Bytes} {u u' : Cpu Static}

/-! ## The place of a context -/

/-- The context, below which `n` handlers are in progress, is at `sp`: `esp` leads there, or
the `old_sp` of the handler above. -/
inductive Located (n : ℕ) (sp : Word) (c : Pcb) (fs : List SigFrame) : Prop
  | top (hn : fs.length = n) (hesp : c.esp = sp)
  | below (gs : List SigFrame) (f : SigFrame) (rest : List SigFrame)
      (hfs : fs = gs ++ f :: rest) (hn : rest.length = n) (hsp : f.oldSp = sp)

/-- Serving a request moves no stack pointer but that of a process that returns from a
handler. -/
theorem Served.esp (h : Served k p a req k' p') (hq : (k.proctab q).alive)
    (hret : req = .sigreturn → q ≠ p) : (k'.proctab q).esp = (k.proctab q).esp := by
  have hupd : ∀ {i : Slot} {f : Pcb → Pcb}, Quiet (· = p) (k.upd i f) k' →
      (q = i → (f (k.proctab q)).esp = (k.proctab q).esp) →
        (k'.proctab q).esp = (k.proctab q).esp := by
    intro i f hx hf
    rw [(hx.same q).esp, Kernel.upd_proctab]
    by_cases hi : q = i
    · subst hi
      rw [if_pos rfl, hf rfl]
    · rw [if_neg hi]
  cases h with
  | quiet _ hx => exact (hx.same q).esp
  | create _ _ i esp hi hx =>
      apply hupd hx
      rintro rfl
      obtain ⟨-, hs | hs⟩ := freeSlot_spec hi
      · exact absurd hs hq.1
      · exact absurd hs hq.2
  | install _ _ _ hx =>
      apply hupd hx
      intro _
      unfold Pcb.install Pcb.setHandler
      dsimp only
      split <;> split <;> rfl
  | sigreturn hreq _ hk =>
      rw [hk, sysSigreturn, Kernel.upd_proctab_ne _ _ _ (hret hreq)]
  | post _ _ _ hx _ => exact hupd hx fun _ => rfl
  | openFirst _ _ _ hx => exact hupd hx fun _ => rfl

theorem Pcb.sigreturn_esp (c : Pcb) (m : Bytes) (sig : Int) (sp : Word) :
    (c.sigreturn m sig sp).esp = sp := by
  unfold sigreturn
  dsimp only
  split
  · split <;> rfl
  · rfl

/-- The end of a turn delivers above the context, if it delivers. -/
theorem Turn.located (ht : Turn s t k₂ h₂ s') (h : Located n sp (k₂.proctab q) (h₂.frames q)) :
    Located n sp (s'.d.k.proctab q) (s'.h.frames q) := by
  have hk := loopTop_proctab ht.used q
  rw [← ht.loopTop] at hk
  rcases ht.delivery q with ⟨hq, hd, -, hf, -⟩ | ⟨hd, -, hf, -⟩
  · rw [hf]
    cases h with
    | top hn hesp =>
        refine .below [] _ _ rfl hn ((frameOf_words _ _).1.trans ?_)
        show ((run k₂ q).proctab q).esp = sp
        rw [← hesp, run, Kernel.setRunning_proctab, Kernel.upd_proctab_self]
        rfl
    | below gs f rest hfs hn hsp => exact .below (_ :: gs) f rest (congrArg _ hfs) hn hsp
  · rw [hf]
    cases h with
    | top hn hesp =>
        refine .top hn ?_
        by_cases hq : q = s'.d.p
        · rw [if_pos hq, ← hq, if_neg fun h => hd ⟨hq, h⟩] at hk
          rw [hk]
          exact hesp
        · rw [if_neg hq] at hk
          rw [hk]
          exact hesp
    | below gs f rest hfs hn hsp => exact .below gs f rest hfs hn hsp

/-- A step that does not resume the context leaves it where it is. -/
theorem Located.turn (hs : Sound s.d) (ha : (s.d.k.proctab q).alive)
    (h : Located n sp (s.d.k.proctab q) (s.h.frames q)) (hw : Unresumed q n s t)
    (hst : s.turn t = .ok s') : Located n sp (s'.d.k.proctab q) (s'.h.frames q) := by
  obtain ⟨k₂, h₂, ht⟩ := Recorded.turn_cases hs hst
  have ha' : ((contextswitch s.d.k s.d.p t).proctab q).alive := by
    unfold Pcb.alive
    rwa [contextswitch_state]
  have hsig := ht.served.sigStep (h := s.h.setCall s.d.p t.cause.call) ht.serve q
  rw [← ht.noted] at hsig
  have hframes := hsig.frames_cases ha'
  refine ht.located ?_
  cases h with
  | top hn hesp =>
      have hp : q ≠ s.d.p := by
        intro he
        have := hw.above he.symm
        omega
      have hq : (contextswitch s.d.k s.d.p t).proctab q = s.d.k.proctab q := by
        rw [contextswitch_proctab, if_neg hp]
      rcases hframes with hf | ⟨-, he, -, -⟩
      · exact .top (hf ▸ hn) ((ht.served.esp ha' fun _ => hp).trans (hq ▸ hesp))
      · exact absurd he hp
  | below gs f rest hfs hn hsp =>
      rcases hframes with hf | ⟨hreq, he, hf, hc⟩
      · exact .below gs f rest (hf.trans hfs) hn hsp
      · have hfs' : h₂.frames q = (s.h.frames q).tail := hf
        cases gs with
        | cons g gs =>
            refine .below gs f rest ?_ hn hsp
            rw [hfs', hfs]
            rfl
        | nil =>
            -- the return to the context itself
            obtain ⟨f', rest', hfs₂, hr⟩ := hw.returns he.symm hreq
            rw [hfs, List.nil_append] at hfs₂
            obtain ⟨rfl, rfl⟩ := List.cons.inj hfs₂
            refine .top ?_ ?_
            · rw [hfs', hfs]
              exact hn
            · rw [hc, Pcb.sigreturn_esp, ← hsp, ← hr.oldSp, he]

/-- A process that enters the kernel leaves its context at its stack pointer. -/
theorem Located.first (hs : Sound s.d) (hst : s.turn t = .ok s')
    (hreq : t.cause.request ≠ .sigreturn) :
    Located (s.h.frames s.d.p).length t.esp (s'.d.k.proctab s.d.p) (s'.h.frames s.d.p) := by
  obtain ⟨k₂, h₂, ht⟩ := Recorded.turn_cases hs hst
  have ha : ((contextswitch s.d.k s.d.p t).proctab s.d.p).alive := by
    unfold Pcb.alive
    rw [contextswitch_state, hs.running]
    decide
  have hsig := ht.served.sigStep (h := s.h.setCall s.d.p t.cause.call) ht.serve s.d.p
  rw [← ht.noted] at hsig
  have hframes : h₂.frames s.d.p = s.h.frames s.d.p :=
    (hsig.frames_cases ha).resolve_right fun he => hreq he.1
  refine ht.located (.top (congrArg _ hframes) ?_)
  rw [ht.served.esp ha fun he => absurd he hreq, contextswitch_proctab, if_pos rfl]
  cases t.cause <;> rfl

/-- The context that is resumed is where `esp` leads. -/
theorem Located.esp (h : Located n sp c fs) (hn : fs.length = n) : c.esp = sp := by
  cases h with
  | top _ hesp => exact hesp
  | below gs f rest hfs hn' =>
      have hlen : fs.length = gs.length + (rest.length + 1) := by
        rw [hfs, List.length_append]
        rfl
      omega

/-! ## What it holds -/

/-- The context at `sp` is that of a processor in the state `u`, but for `eax`. -/
structure Holds (b : Bytes) (sp : Word) (u : Cpu Static) : Prop where
  regs : { b.regs sp with esp := sp + 44, eax := u.reg.eax } = u.reg
  eip : b.word (sp + 32) = u.eip
  cs : (b.word (sp + 36)).setWidth 16 = u.cs
  eflags : b.word (sp + 40) = u.eflags

/-- The bytes of the context at `sp`, but for `eax`. -/
def ContextByte (sp x : Word) : Prop := InRange sp 44 x ∧ ¬ InRange (sp + 28) 4 x

theorem Holds.congr (h : Holds b sp u) (hb : Bytes.AgreeOn (ContextByte sp) b b') :
    Holds b' sp u := by
  have hword : ∀ d : Word, d.toNat ≤ 40 → d.toNat + 4 ≤ 28 ∨ 32 ≤ d.toNat →
      b'.word (sp + d) = b.word (sp + d) := by
    intro d hd hd'
    refine hb.word fun x hx => ?_
    unfold ContextByte InRange at *
    bv_omega
  have hedi : b'.word sp = b.word sp := by
    have h0 := hword 0 (by decide) (by decide)
    rwa [show sp + 0 = sp by bv_omega] at h0
  refine ⟨?_, ?_, ?_, ?_⟩
  · rw [← h.regs]
    unfold Bytes.regs
    rw [hedi, hword 4 (by decide) (by decide), hword 8 (by decide) (by decide),
      hword 16 (by decide) (by decide), hword 20 (by decide) (by decide),
      hword 24 (by decide) (by decide)]
  · rw [hword 32 (by decide) (by decide), h.eip]
  · rw [hword 36 (by decide) (by decide), h.cs]
  · rw [hword 40 (by decide) (by decide), h.eflags]

/-- The processor takes up what the context holds, with the `eax` that is stored there. -/
theorem Holds.resume (h : Holds u'.mem sp u) :
    (resume u' sp).reg = { u.reg with eax := u'.mem.word (sp + 28) } ∧
      (resume u' sp).eip = u.eip ∧ (resume u' sp).cs = u.cs ∧
        (resume u' sp).eflags = u.eflags := by
  refine ⟨?_, h.eip, h.cs, h.eflags⟩
  rw [← h.regs]
  rfl

/-! ## Into the kernel -/

/-- The kernel is reached when an interrupt comes and its entry is executed. -/
theorem entered_reachable (hr : L.machine.ReachableUnder L.Orderly m)
    (ho : L.Orderly m (.intr v)) (hst : L.Step m (.intr v) m') :
    L.machine.ReachableUnder L.Orderly (L.entered m v) :=
  (hr.tail ho hst).path (entered_path hst fun _ _ h => h)

/-- What the kernel then has: the stack pointer of the process and the cause, and the context
on the stack. -/
theorem entered_holds (hr : L.machine.ReachableUnder L.Orderly m)
    (ho : L.Orderly m (.intr v)) (hst : L.Step m (.intr v) m') :
    (L.entered m v).cpu.var .saveESP = m.cpu.reg.esp - 44 ∧
      causeOf (L.entered m v).cpu.var = v.cause m.cpu ∧
        Holds (L.entered m v).cpu.mem (m.cpu.reg.esp - 44) m.cpu := by
  obtain ⟨c₀, hc, hp⟩ := phase_of_reachable hr
  obtain ⟨hin, -⟩ := (hp.process_or_masked hc).resolve_right hst.not_masked
  obtain ⟨hin', heip⟩ := hin.enter (v := v) ho
  have hap := hin'.stack (L.not_outside_entry heip)
  obtain ⟨hregs, hmem⟩ := swapped_process hin'.saveESP hap
  have hesp : (m.cpu.enter (contextinit L v.vector)).reg.esp - 32 = m.cpu.reg.esp - 44 := by
    show m.cpu.reg.esp - 12 - 32 = _
    bv_omega
  have hcpu : (L.entered m v).cpu
      = L.prog.run v.index 12 (m.cpu.enter (contextinit L v.vector)) := rfl
  rw [hcpu, run_entry_restores heip hc.esp hin'.saveESP hin'.frame hap, causeOf_entryVars]
  rw [hesp] at hregs hmem
  refine ⟨hesp, by cases v <;> rfl, ?_⟩
  -- the three words that the gate has pushed
  have hwords : (swapped (m.cpu.enter (contextinit L v.vector))).words (m.cpu.reg.esp - 12) 3
      = [m.cpu.eip, m.cpu.cs.setWidth 32, m.cpu.eflags] := by
    refine (Bytes.words_congr (by decide) fun x hx => hmem x ?_ fun hk => ho x ?_ hk).trans
      (Bytes.words_putWords (Nat.le_of_ble_eq_true rfl))
    · unfold InRange at hx ⊢
      bv_omega
    · unfold InRange at hx ⊢
      bv_omega
  simp only [Bytes.words, List.cons.injEq, and_true] at hwords
  obtain ⟨hw₁, hw₂, hw₃⟩ := hwords
  refine ⟨?_, ?_, ?_, ?_⟩
  · show { (swapped _).regs _ with esp := m.cpu.reg.esp - 44 + 44, eax := m.cpu.reg.eax : Regs } = _
    rw [hregs, show m.cpu.reg.esp - 44 + 44 = m.cpu.reg.esp by bv_omega]
    rfl
  · rw [show m.cpu.reg.esp - 44 + 32 = m.cpu.reg.esp - 12 by bv_omega]
    exact hw₁
  · rw [show m.cpu.reg.esp - 44 + 36 = m.cpu.reg.esp - 12 + 4 by bv_omega]
    exact (congrArg (BitVec.setWidth 16) hw₂).trans (by simp)
  · rw [show m.cpu.reg.esp - 44 + 40 = m.cpu.reg.esp - 12 + 4 + 4 by bv_omega]
    exact hw₃

/-! ## Runs -/

/-- The step neither resumes the context of `q` at `sp`, with `n` handlers in progress below,
nor writes to it. -/
structure LeftAlone (L : Linked) (q : Slot) (n : ℕ) (sp : Word) (m : Machine)
    (e : MachStep) : Prop where
  orderly : L.Orderly m e
  unresumed : ∀ a r f, e = .serve a r f → Unresumed q n m.s (m.trap a)
  intact : ∀ m', L.Step m e m' → Bytes.AgreeOn (ContextByte sp) m.cpu.mem m'.cpu.mem

/-- The context is where it was and holds what it held. -/
structure Suspended (q : Slot) (n : ℕ) (sp : Word) (u : Cpu Static) (m : Machine) : Prop where
  reachable : recorder.Reachable m.s
  alive : (m.s.d.k.proctab q).alive
  located : Located n sp (m.s.d.k.proctab q) (m.s.h.frames q)
  holds : Holds m.cpu.mem sp u

theorem Suspended.step {e : MachStep} (h : Suspended q n sp u m) (hu : LeftAlone L q n sp m e)
    (hst : L.Step m e m') : Suspended q n sp u m' := by
  have hholds := h.holds.congr (hu.intact m' hst)
  have hs := Recorded.sound_of_reachable h.reachable
  by_cases he : ∃ a r f, e = .serve a r f
  · obtain ⟨a, r, f, rfl⟩ := he
    have hw := hu.unresumed a r f rfl
    cases hst with
    | serve _ _ _ s' heip hturn hr hf =>
        rw [Machine.dispatch_eq] at hturn
        exact ⟨h.reachable.tail trivial hturn, alive_turn hs (Recorded.turn_d hturn) h.alive hw.alive,
          h.located.turn hs h.alive hw hturn, hholds⟩
  · have hsame : m'.s = m.s := hst.s_eq fun a r f h => he ⟨a, r, f, h⟩
    exact ⟨hsame ▸ h.reachable, hsame ▸ h.alive, hsame ▸ h.located, hholds⟩

theorem Suspended.path (h : Suspended q n sp u m) (hp : L.machine.Path (LeftAlone L q n sp) m m') :
    Suspended q n sp u m' :=
  hp.preserves h fun _ _ _ hs hu hst => hs.step hu hst

/-- `iret` resumes the context. -/
theorem Suspended.resumed (hr : L.machine.ReachableUnder L.Orderly m)
    (h : Suspended m.p n sp u m) (hn : (m.s.h.frames m.p).length = n)
    (he : m.cpu.eip = L.text 8) (hst : L.Step m .exec m') :
    m'.cpu.reg = { u.reg with eax := m.pcb.ret } ∧ m'.cpu.eip = u.eip ∧ m'.cpu.cs = u.cs ∧
      m'.cpu.eflags = u.eflags := by
  obtain ⟨c₀, hc, hp⟩ := phase_of_reachable hr
  obtain ⟨hcpu, -⟩ := hp.at_iret hc he
  obtain ⟨hnext, -⟩ := hp.iret hc he hst
  have hsave : c₀.var .saveESP = sp := by
    rw [hc.var]
    exact h.located.esp hn
  have hret : c₀.var .rc = m.pcb.ret := by
    rw [hc.var]
    rfl
  have hmem : m.cpu.mem = handed c₀ := by
    rw [hcpu, run_toProcess hc.eip]
  have hholds : Holds (handed c₀) sp u := hmem ▸ h.holds
  have heax : (handed c₀).word (sp + 28) = m.pcb.ret := by
    unfold handed
    rw [hsave, hret, Bytes.word_putWord]
  rw [hnext, run_iret hc.eip, hsave, ← heax]
  generalize hv : { c₀ with
    mem := handed c₀
    var := Function.update c₀.var .saveESP (c₀.reg.esp - 4 - 32) } = v
  have hvmem : v.mem = handed c₀ := by rw [← hv]
  rw [← hvmem] at hholds ⊢
  exact hholds.resume

/-- The first trip through the kernel leaves the context on the stack of the process. -/
theorem Suspended.serve {r : Regs} {f : Word} (hr : L.machine.ReachableUnder L.Orderly m)
    (ho : L.Orderly m (.intr v)) (hst : L.Step m (.intr v) m')
    (hs : L.Step (L.entered m v) (.serve a r f) m₁)
    (hreq : (v.cause m.cpu).request ≠ .sigreturn ∧ (v.cause m.cpu).request ≠ .stop)
    (hin : Bytes.AgreeOn (ContextByte (m.cpu.reg.esp - 44)) (L.entered m v).cpu.mem m₁.cpu.mem) :
    Suspended m.p (m.s.h.frames m.p).length (m.cpu.reg.esp - 44) m.cpu m₁ := by
  obtain ⟨hesp, hcause, hholds⟩ := entered_holds hr ho hst
  have hrec : recorder.Reachable m.s := recorder_of_machine hr
  have hsound := Recorded.sound_of_reachable hrec
  have halive : (m.s.d.k.proctab m.p).alive := by
    simp [Pcb.alive, hsound.running]
  have hs' : (L.entered m v).s = m.s := rfl
  generalize L.entered m v = e at hs hs' hesp hcause hholds hin
  cases hs with
  | serve _ _ _ s' heip hturn hr' hf =>
      rw [Machine.dispatch_eq, hs'] at hturn
      rw [← hcause] at hreq
      have hloc := Located.first hsound hturn hreq.1
      rw [show (e.trap a).esp = _ from hesp] at hloc
      exact ⟨hrec.tail trivial hturn, alive_turn hsound (Recorded.turn_d hturn) halive
        fun _ => hreq.2, hloc, hholds.congr hin⟩

/-- From then on the context is left alone until it is resumed. -/
theorem Suspended.goes_on {r : Regs} {f : Word} {m₄ : Machine}
    (hr : L.machine.ReachableUnder L.Orderly m) (ho : L.Orderly m (.intr v))
    (hst : L.Step m (.intr v) m') (hs : L.Step (L.entered m v) (.serve a r f) m₁)
    (h : Suspended q n sp u m₁) (hp : L.machine.Path (LeftAlone L q n sp) m₁ m₃)
    (hrun : m₃.p = q) (hn : (m₃.s.h.frames q).length = n) (he : m₃.cpu.eip = L.text 8)
    (hx : L.Step m₃ .exec m₄) :
    m₄.cpu.reg = { u.reg with eax := m₃.pcb.ret } ∧ m₄.cpu.eip = u.eip ∧
      m₄.cpu.cs = u.cs ∧ m₄.cpu.eflags = u.eflags := by
  have hreach : L.machine.ReachableUnder L.Orderly m₃ := by
    refine TSys.ReachableUnder.path ?_ (hp.mono fun _ _ h => h.orderly)
    exact (entered_reachable hr ho hst).tail (a := .serve a r f) trivial hs
  have hsusp := h.path hp
  rw [← hrun] at hsusp hn
  exact hsusp.resumed hreach hn he hx

/-- A process that enters the kernel and is resumed goes on where it was, with the stack, the
flags and the registers that it had; only `eax` is what `ret` says. This holds in every run:
whatever other processes run in between, and whatever handlers the process itself runs, as
long as they return and nobody writes to the context. -/
theorem context_resumed {r : Regs} {f : Word} {m₄ : Machine}
    (hr : L.machine.ReachableUnder L.Orderly m) (ho : L.Orderly m (.intr v))
    (hst : L.Step m (.intr v) m') (hs : L.Step (L.entered m v) (.serve a r f) m₁)
    (hreq : (v.cause m.cpu).request ≠ .sigreturn ∧ (v.cause m.cpu).request ≠ .stop)
    (hin : Bytes.AgreeOn (ContextByte (m.cpu.reg.esp - 44)) (L.entered m v).cpu.mem m₁.cpu.mem)
    (hp : L.machine.Path
      (LeftAlone L m.p (m.s.h.frames m.p).length (m.cpu.reg.esp - 44)) m₁ m₃)
    (hrun : m₃.p = m.p) (hn : (m₃.s.h.frames m.p).length = (m.s.h.frames m.p).length)
    (he : m₃.cpu.eip = L.text 8) (hx : L.Step m₃ .exec m₄) :
    m₄.cpu.reg = { m.cpu.reg with eax := m₃.pcb.ret } ∧ m₄.cpu.eip = m.cpu.eip ∧
      m₄.cpu.cs = m.cpu.cs ∧ m₄.cpu.eflags = m.cpu.eflags := by
  have hsusp := Suspended.serve hr ho hst hs hreq hin
  exact hsusp.goes_on hr ho hst hs hp hrun hn he hx

/-- The root process of the sample machine is interrupted when it starts, and is on its way
to the processor again. -/
def sampleBack : Machine :=
  { sampleAgain with cpu := sampleKernel.prog.run 0 8 sampleAgain.cpu }

/-- The sample machine before and after the C code of this trip, which leaves the context alone. -/
theorem sampleAgain_at : sampleTicked.cpu.reg.esp = 0x18000 ∧ sampleTicked.cpu.Masked ∧
    sampleAgain.cpu.var .saveESP = 0x24fe0 ∧
    sampleAgain.cpu.mem.word (sampleAgain.cpu.var .saveESP + 32) = 0x1200 ∧
    ∀ i, i < 44 → sampleAgain.cpu.mem (0x24fe0 + BitVec.ofNat 32 i)
      = sampleTicked.cpu.mem (0x24fe0 + BitVec.ofNat 32 i) := by decide +kernel

/-- On this way its context is left alone. -/
theorem sampleBack_path {C : Machine → MachStep → Prop}
    (hC : ∀ m, LeftAlone sampleKernel 1 0 0x24fe0 m .exec → C m .exec) :
    sampleKernel.machine.Path C sampleAgain sampleBack := by
  obtain ⟨hsp, hmask, hesp, heip, -⟩ := sampleAgain_at
  have hc : sampleKernel.AtCall sampleAgain.s sampleAgain.cpu := sampleServe_atCall hsp hmask
  have hmem : ∀ j, j ≤ 8 → Bytes.AgreeOn (ContextByte 0x24fe0) sampleAgain.cpu.mem
      (sampleKernel.prog.run 0 j sampleAgain.cpu).mem := by
    rintro j hj x ⟨hx, hx'⟩
    refine run_leaving_mem (by omega) (fun hk => ?_) (by rwa [hesp])
    rw [hc.esp] at hk
    have hk' : InRange (0x18000 - 4 - 32) 36 x := hk
    unfold InRange at hx hk'
    bv_omega
  have hok := sampleKernel_context hesp heip (by decide) (by decide)
  refine leaving_path hc hok (by decide) fun j hj ho =>
    hC _ ⟨ho, fun _ _ _ he => (by cases he), fun m' hst => ?_⟩
  obtain ⟨-, hs, hsucc⟩ := toProcess_path
  have hcpu : m'.cpu = sampleKernel.prog.run 0 (j + 1) sampleAgain.cpu := by
    refine step_run (hs.mono (by omega)) ?_ hc.eip hst
    rw [hsucc j (by omega)]
    exact Nat.lt_trans hj (by decide)
  rw [hcpu]
  exact (hmem j (by omega)).symm.trans (hmem (j + 1) (by omega))

/-- What its context holds is left alone by the kernel, too. -/
theorem sampleAgain_agree :
    Bytes.AgreeOn (ContextByte 0x24fe0) sampleTicked.cpu.mem sampleAgain.cpu.mem := by
  obtain ⟨-, -, -, -, h⟩ := sampleAgain_at
  intro x hx
  have hi := h (x - 0x24fe0).toNat hx.1
  rwa [BitVec.ofNat_toNat, BitVec.setWidth_eq,
    show (0x24fe0 : Word) + (x - 0x24fe0) = x by bv_omega] at hi

/-- The process before the interrupt, and when it is back at the `iret`. -/
theorem sampleBack_at : (sampleRoot.p = 1 ∧ (sampleRoot.s.h.frames 1).length = 0 ∧
      sampleRoot.cpu.reg.esp - 44 = 0x24fe0 ∧ sampleRoot.cpu.eip = 0x1200) ∧
    sampleBack.p = 1 ∧ (sampleBack.s.h.frames 1).length = 0 ∧
      sampleBack.cpu.eip = sampleKernel.text 8 := by decide +kernel

theorem sampleBack_step : ∃ m', sampleKernel.Step sampleBack .exec m' :=
  ⟨_, .exec 8 (by decide) sampleBack_at.2.2.2⟩

/-- The process goes on. -/
theorem sampleRoot_resumed :
    ∃ m', sampleKernel.Step sampleBack .exec m' ∧
      m'.cpu.reg = { sampleRoot.cpu.reg with eax := sampleBack.pcb.ret } ∧
      m'.cpu.eip = 0x1200 := by
  obtain ⟨ho, m', hst⟩ := sampleRoot_intr
  obtain ⟨m₄, hx⟩ := sampleBack_step
  obtain ⟨⟨hp, hn, hsp, heip⟩, hp', hn', heip'⟩ := sampleBack_at
  have hres := context_resumed (L := sampleKernel) (v := .timer) (m := sampleRoot)
    (sampleMachine_reachable.path (sampleRoot_path fun _ h => h)) ho hst sampleTicked_serve
    (by decide) (by rw [hsp]; exact sampleAgain_agree)
    (by rw [hp, hn, hsp]; exact sampleBack_path fun _ h => h) (hp'.trans hp.symm)
    (by rw [hp, hn, hn']) heip' hx
  exact ⟨m₄, hx, hres.1, hres.2.1.trans heip⟩

/-! ## Interrupts -/

/-- The step does not overwrite the `eax` of the context either. -/
structure Transparent (L : Linked) (q : Slot) (n : ℕ) (sp eax : Word) (m : Machine)
    (e : MachStep) : Prop extends LeftAlone L q n sp m e where
  keeps : ∀ a r f, e = .serve a r f → KeepsValue q n eax m.s (m.trap a)

/-- An interrupted process has its `eax` in `ret`. -/
theorem Saved.first {eax : Word} (hs : Sound s.d)
    (hc : t.cause = .timer eax ∨ t.cause = .keyboard eax) (hst : s.turn t = .ok s') :
    Saved (s.h.frames s.d.p).length eax (s'.d.k.proctab s.d.p) (s'.h.frames s.d.p) := by
  obtain ⟨k₂, h₂, ht⟩ := Recorded.turn_cases hs hst
  have hg := contextswitch_good hs.good hs.used t
  have hu := contextswitch_used (p := s.d.p) hs.used t
  have hreq : t.cause.request = .timer ∨ t.cause.request = .keyboard := by
    rcases hc with he | he
    · exact .inl (by rw [he]; rfl)
    · exact .inr (by rw [he]; rfl)
  have hne : ∀ x, x ≠ .timer → x ≠ .keyboard → t.cause.request ≠ x := by
    rintro x h₁ h₂ rfl
    exact hreq.elim h₁ h₂
  have hret : ((contextswitch s.d.k s.d.p t).proctab s.d.p).ret = eax := by
    rw [contextswitch_proctab, if_pos rfl]
    rcases hc with he | he
    · rw [he]
      rfl
    · rw [he]
      rfl
  have hable : ((contextswitch s.d.k s.d.p t).proctab s.d.p).able :=
    .inr ((contextswitch_state _ _ _ _).trans hs.running)
  have hl : LeavesRet s.d.p (contextswitch s.d.k s.d.p t) s.d.p t.ambient t.cause.request :=
    ⟨.inr hreq, fun he => absurd he (hne _ (by decide) (by decide)),
      fun he => absurd he (hne _ (by decide) (by decide))⟩
  have hframes : h₂.frames s.d.p = s.h.frames s.d.p := by
    rw [ht.noted]
    rcases hreq with hx | hx <;> rw [hx] <;> rfl
  exact ht.saved (.top (congrArg _ hframes) (hl.able hg hu hable ht.serve)
    (Eq.trans (hl.sameRet hg hable ht.serve) hret))

theorem Suspended.saved {eax : Word} (h : Suspended q n sp u m)
    (hv : Saved n eax (m.s.d.k.proctab q) (m.s.h.frames q))
    (hp : L.machine.Path (Transparent L q n sp eax) m m') :
    Saved n eax (m'.s.d.k.proctab q) (m'.s.h.frames q) := by
  refine (hp.preserves (I := fun m => Suspended q n sp u m ∧
    Saved n eax (m.s.d.k.proctab q) (m.s.h.frames q)) ⟨h, hv⟩ ?_).2
  rintro m e m' ⟨h, hv⟩ hk hst
  refine ⟨h.step hk.toLeftAlone hst, ?_⟩
  by_cases he : ∃ a r f, e = .serve a r f
  · obtain ⟨a, r, f, rfl⟩ := he
    cases hst with
    | serve _ _ _ s' heip hturn hr hf =>
        rw [Machine.dispatch_eq] at hturn
        exact hv.turn (Recorded.sound_of_reachable h.reachable) h.alive
          (hk.unresumed a r f rfl) (hk.keeps a r f rfl) hturn
  · have hsame : m'.s = m.s := hst.s_eq fun a r f h => he ⟨a, r, f, h⟩
    rwa [hsame]

/-- An interrupt is not noticed: a process that the timer or the keyboard interrupts finds
every register as it was when it runs again outside the handlers that have started since, in
every run in which its context is left alone and its `eax` not overwritten. The process may be
anywhere, also between the gate of a system call and the `cli` behind it. -/
theorem interrupt_transparent {r : Regs} {f : Word} {m₄ : Machine}
    (hr : L.machine.ReachableUnder L.Orderly m) (ho : L.Orderly m (.intr v)) (hv : v ≠ .kernel)
    (hst : L.Step m (.intr v) m') (hs : L.Step (L.entered m v) (.serve a r f) m₁)
    (hin : Bytes.AgreeOn (ContextByte (m.cpu.reg.esp - 44)) (L.entered m v).cpu.mem m₁.cpu.mem)
    (hp : L.machine.Path (Transparent L m.p (m.s.h.frames m.p).length (m.cpu.reg.esp - 44)
      m.cpu.reg.eax) m₁ m₃)
    (hrun : m₃.p = m.p) (hn : (m₃.s.h.frames m.p).length = (m.s.h.frames m.p).length)
    (he : m₃.cpu.eip = L.text 8) (hx : L.Step m₃ .exec m₄) :
    m₄.cpu.reg = m.cpu.reg ∧ m₄.cpu.eip = m.cpu.eip ∧ m₄.cpu.cs = m.cpu.cs ∧
      m₄.cpu.eflags = m.cpu.eflags := by
  have hcause : v.cause m.cpu = .timer m.cpu.reg.eax ∨
      v.cause m.cpu = .keyboard m.cpu.reg.eax := by
    cases v with
    | kernel => exact absurd rfl hv
    | timer => exact .inl rfl
    | keybd => exact .inr rfl
  have hreq : (v.cause m.cpu).request ≠ .sigreturn ∧ (v.cause m.cpu).request ≠ .stop := by
    rcases hcause with h | h <;> rw [h] <;> simp [Cause.request]
  have hsusp := Suspended.serve hr ho hst hs hreq hin
  have hsaved : Saved (m.s.h.frames m.p).length m.cpu.reg.eax (m₁.s.d.k.proctab m.p)
      (m₁.s.h.frames m.p) := by
    have hc := (entered_holds hr ho hst).2.1
    have hs' : (L.entered m v).s = m.s := rfl
    generalize L.entered m v = e at hs hs' hc
    cases hs with
    | serve _ _ _ s' heip hturn hr' hf =>
        rw [Machine.dispatch_eq, hs'] at hturn
        exact Saved.first (Recorded.sound_of_reachable (recorder_of_machine hr))
          (by rw [show (e.trap a).cause = _ from hc]; exact hcause) hturn
  have hret : (m₃.s.d.k.proctab m.p).ret = m.cpu.reg.eax := (hsusp.saved hsaved hp).ret hn
  have hres := hsusp.goes_on hr ho hst hs (hp.mono fun _ _ h => h.toLeftAlone) hrun hn he hx
  rw [← hrun] at hret
  rw [show m₃.pcb.ret = m.cpu.reg.eax from hret] at hres
  exact hres

/-- The root process of the sample machine does not notice the timer. -/
theorem sampleRoot_transparent :
    ∃ m', sampleKernel.Step sampleBack .exec m' ∧ m'.cpu.reg = sampleRoot.cpu.reg ∧
      m'.cpu.eip = 0x1200 := by
  obtain ⟨ho, m', hst⟩ := sampleRoot_intr
  obtain ⟨m₄, hx⟩ := sampleBack_step
  obtain ⟨⟨hp, hn, hsp, heip⟩, hp', hn', heip'⟩ := sampleBack_at
  have hres := interrupt_transparent (L := sampleKernel) (v := .timer) (m := sampleRoot)
    (sampleMachine_reachable.path (sampleRoot_path fun _ h => h)) ho (by decide) hst
    sampleTicked_serve (by rw [hsp]; exact sampleAgain_agree)
    (by
      rw [hp, hn, hsp]
      exact sampleBack_path fun _ h => ⟨h, fun _ _ _ he => by cases he⟩)
    (hp'.trans hp.symm) (by rw [hp, hn, hn']) heip' hx
  exact ⟨m₄, hx, hres.1, hres.2.1.trans heip⟩

end Xeros
