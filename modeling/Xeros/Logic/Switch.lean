import Xeros.Logic.Machine

/-!
# What the assembly computes

The two ways through the assembly, from the call of `contextswitch` to `iret` and from the
`cli` of an entry to the end: what the processor holds at their ends, and that the flags
stay as they are in between.
-/

namespace Xeros

open Lib

variable {L : Linked} {c u : Cpu Static} {v : Intr} {a : Word} {m m' : Bytes}

/-! ## Paths -/

/-- What an entry executes, up to the end of the assembly. -/
def Intr.asm : Intr → Asm
  | .kernel => kernelEntryPoint ++ commonEntryPoint
  | .timer => timerEntryPoint ++ commonEntryPoint
  | .keybd => keyBoardIntEntry ++ commonEntryPoint

theorem toProcess_path : ctswListing.path 0 8 = toProcess.dropLast ∧ ctswListing.straight 0 8 ∧
    ∀ j, j < 10 → ctswListing.succ^[j] 0 = j := by decide

theorem entry_path (v : Intr) :
    ctswListing.path v.index 12 = v.asm ∧ ctswListing.straight v.index 12 ∧
      ctswListing.succ^[12] v.index = ctswEnd ∧
      ∀ j, j < 12 → 8 < ctswListing.succ^[j] v.index ∧
        ctswListing.succ^[j] v.index < ctswEnd := by
  cases v <;> decide

/-- The flags do not change on the way to `iret`. -/
theorem toProcess_plain : ∀ j, j < 9 → (ctswListing.path 0 j).all Instr.plain = true := by
  decide

/-- Behind its `cli` an entry does not change the flags until it restores the kernel's. -/
theorem entry_plain (v : Intr) : ∀ j, j < 11 →
    (ctswListing.path v.index (j + 1)).head? = some .cli ∧
      (ctswListing.path v.index (j + 1)).tail.all Instr.plain = true := by
  cases v <;> decide

/-- An entry writes to the memory three times. -/
theorem entry_quiet (v : Intr) : ∀ j, j < 12 → j = 1 ∨ j = 8 ∨ j = 9 ∨
    (ctswListing.code[ctswListing.succ^[j] v.index]?).all Instr.quiet = true := by
  cases v <;> decide

/-! ## From the call to the process -/

/-- The memory with the kernel's registers in its frame. -/
def framed (c : Cpu Static) : Bytes :=
  (c.mem.putWords (c.reg.esp - 4) [c.eflags]).putWords (c.reg.esp - 4 - 32)
    { c.reg with esp := c.reg.esp - 4 : Regs }.words

/-- Nothing else has been written. -/
theorem framed_of_not_inRange {x : Word} (h : ¬ InRange (c.reg.esp - 4 - 32) 36 x) :
    framed c x = c.mem x := by
  unfold framed
  rw [Bytes.putWords_of_not_inRange, Bytes.putWords_of_not_inRange]
  · intro hx
    apply h
    unfold InRange at hx ⊢
    simp only [List.length_cons, List.length_nil] at hx
    bv_omega
  · rw [Regs.length_words]
    intro hx
    apply h
    unfold InRange at hx ⊢
    omega

/-- The memory that the process finds, with the return value in the place of its `eax`. -/
def handed (c : Cpu Static) : Bytes := (framed c).putWord (c.var .saveESP + 28) (c.var .rc)

/-- The processor takes up the context at `a`. -/
def resume (c : Cpu Static) (a : Word) : Cpu Static :=
  { c with
    reg := { c.mem.regs a with esp := a + 44 }
    eip := c.mem.word (a + 32)
    cs := (c.mem.word (a + 36)).setWidth 16
    eflags := c.mem.word (a + 40) }

theorem run_toProcess (h : c.eip = L.text 0) :
    L.prog.run 0 8 c =
      { reg := { (handed c).regs (c.var .saveESP) with esp := c.var .saveESP + 32 }
        eip := L.text 8
        cs := c.cs
        eflags := c.eflags
        mem := handed c
        var := Function.update c.var .saveESP (c.reg.esp - 4 - 32) } := by
  obtain ⟨hp, hs, hn⟩ := toProcess_path
  have hpath : L.prog.path 0 8 = toProcess.dropLast := hp
  have hend : L.prog.succ^[8] 0 = 8 := hn 8 (by decide)
  rw [Program.run_eq (P := L.prog) hs h, hpath, hend]
  simp only [execs, toProcess, List.dropLast, List.foldl, Instr.exec, Cpu.push, Operand.read,
    Operand.write, Regs.get, Regs.set, handed, framed, List.length_cons, List.length_nil,
    Regs.length_words]
  rfl

/-- The process goes on with its context. -/
theorem run_iret (h : c.eip = L.text 0) :
    L.prog.run 0 9 c =
      resume { c with
        mem := handed c
        var := Function.update c.var .saveESP (c.reg.esp - 4 - 32) } (c.var .saveESP) := by
  have hend : L.prog.succ^[8] 0 = 8 := toProcess_path.2.2 8 (by decide)
  show L.prog.execAt (L.prog.succ^[8] 0) (L.prog.run 0 8 c) = _
  rw [hend, run_toProcess h]
  have hiret : L.prog.code[8]? = some .iret := rfl
  rw [Program.execAt_of hiret]
  simp only [Instr.exec, resume, BitVec.add_assoc]
  rfl

/-- Only the kernel's frame and the place of `eax` are written on the way to the process. -/
theorem run_leaving_mem {j : ℕ} {x : Word} (hj : j ≤ 9)
    (hx : ¬ InRange (c.reg.esp - 4 - 32) 36 x) (hs : ¬ InRange (c.var .saveESP + 28) 4 x) :
    (L.prog.run 0 j c).mem x = c.mem x := by
  have hflags : (c.mem.putWords (c.reg.esp - 4) [c.eflags]) x = c.mem x := by
    apply Bytes.putWords_of_not_inRange
    intro h
    apply hx
    unfold InRange at h ⊢
    simp only [List.length_cons, List.length_nil] at h
    bv_omega
  have hframed : framed c x = c.mem x := framed_of_not_inRange hx
  have hhanded : handed c x = c.mem x := (Bytes.putWord_of_not_inRange hs).trans hframed
  match j, hj with
  | 0, _ => rfl
  | 1, _ => exact hflags
  | 2, _ | 3, _ | 4, _ | 5, _ | 6, _ => exact hframed
  | 7, _ | 8, _ | 9, _ => exact hhanded

/-! ## From the entry to the end -/

/-- The number that an entry stores in `interrupt`. -/
def Intr.code : Intr → Word
  | .kernel => 0
  | .timer => 1
  | .keybd => 2

/-- The memory with the registers of the process on its stack. -/
def pushed (u : Cpu Static) : Bytes := u.mem.putWords (u.reg.esp - 32) u.reg.words

/-- The memory when the kernel's registers are restored: `ebx` and `edx` of the process are
in the places of the kernel's `eax` and `edx`. -/
def swapped (u : Cpu Static) : Bytes :=
  ((pushed u).putWord (u.var .saveESP + 28) u.reg.ebx).putWord (u.var .saveESP + 20) u.reg.edx

/-- The static variables at the end. -/
def entryVars (v : Intr) (u : Cpu Static) : Static → Word
  | .saveESP => u.reg.esp - 32
  | .rc => u.reg.eax
  | .args => if v = .kernel then u.reg.edx else u.var .args
  | .interrupt => v.code

theorem run_entry (h : u.eip = L.text v.index) :
    L.prog.run v.index 12 u =
      { reg := { (swapped u).regs (u.var .saveESP) with esp := u.var .saveESP + 36 }
        eip := L.text ctswEnd
        cs := u.cs
        eflags := (swapped u).word (u.var .saveESP + 32)
        mem := swapped u
        var := entryVars v u } := by
  obtain ⟨hp, hs, hend, -⟩ := entry_path v
  have hpath : L.prog.path v.index 12 = v.asm := hp
  have hlast : L.prog.succ^[12] v.index = ctswEnd := hend
  rw [Program.run_eq (P := L.prog) hs h, hpath, hlast]
  have hsp : u.var .saveESP + 32 + 4 = u.var .saveESP + 36 := by bv_omega
  rw [← hsp]
  cases v with
  | kernel =>
      simp only [execs, Intr.asm, kernelEntryPoint, commonEntryPoint, List.cons_append,
        List.nil_append, List.foldl, Instr.exec, Cpu.push, Operand.read, Operand.write, Regs.get,
        Regs.set]
      refine congrArg (Cpu.mk _ _ _ _ _) (funext fun x => ?_)
      cases x <;> rfl
  | timer =>
      simp only [execs, Intr.asm, timerEntryPoint, commonEntryPoint, List.cons_append,
        List.nil_append, List.foldl, Instr.exec, Cpu.push, Operand.read, Operand.write, Regs.get,
        Regs.set]
      refine congrArg (Cpu.mk _ _ _ _ _) (funext fun x => ?_)
      cases x <;> rfl
  | keybd =>
      simp only [execs, Intr.asm, keyBoardIntEntry, commonEntryPoint, List.cons_append,
        List.nil_append, List.foldl, Instr.exec, Cpu.push, Operand.read, Operand.write, Regs.get,
        Regs.set]
      refine congrArg (Cpu.mk _ _ _ _ _) (funext fun x => ?_)
      cases x <;> rfl

/-! ## The kernel's registers -/

/-- What the first block has saved. -/
theorem framed_frame (c : Cpu Static) :
    (framed c).regs (c.reg.esp - 4 - 32) = { c.reg with esp := c.reg.esp - 4 } ∧
      (framed c).word (c.reg.esp - 4) = c.eflags := by
  constructor
  · exact Bytes.regs_putWords _ _ _
  · have hflags : (c.mem.putWords (c.reg.esp - 4) [c.eflags]).word (c.reg.esp - 4) = c.eflags :=
      Bytes.word_putWord
    rw [← hflags]
    apply Bytes.word_congr
    intro x hx
    apply Bytes.putWords_of_not_inRange
    rw [Regs.length_words]
    unfold InRange at hx ⊢
    bv_omega

/-- An entry pushes the registers and nothing else. -/
theorem pushed_of_not_inRange {x : Word} (h : ¬ InRange (u.reg.esp - 32) 32 x) :
    pushed u x = u.mem x := Bytes.putWords_of_not_inRange h

/-- Only the place of these registers and the kernel's frame are written up to the end. -/
theorem run_entering_mem {j : ℕ} {x : Word} (hj : j ≤ 12)
    (hx : ¬ InRange (u.reg.esp - 32) 32 x) (hs : ¬ InRange (u.var .saveESP) 36 x) :
    (L.prog.run v.index j u).mem x = u.mem x := by
  have hslot : ∀ {b : Bytes} {w d : Word}, d.toNat + 4 ≤ 36 →
      b.putWord (u.var .saveESP + d) w x = b x :=
    fun hd => Bytes.putWord_of_not_inRange fun h => hs (h.of_part hd)
  induction j with
  | zero => rfl
  | succ j ih =>
      have hprev := ih (by omega)
      rcases entry_quiet v j (by omega) with rfl | rfl | rfl | hq
      · have hmem : (L.prog.run v.index 2 u).mem = pushed u := by cases v <;> rfl
        rw [hmem, pushed_of_not_inRange hx]
      · have hmem : (L.prog.run v.index 9 u).mem
            = (L.prog.run v.index 8 u).mem.putWord (u.var .saveESP + 28) u.reg.ebx := by
          cases v <;> rfl
        rw [hmem, hslot (by decide), hprev]
      · have hmem : (L.prog.run v.index 10 u).mem
            = (L.prog.run v.index 9 u).mem.putWord (u.var .saveESP + 20) u.reg.edx := by
          cases v <;> rfl
        rw [hmem, hslot (by decide), hprev]
      · exact (congrFun (Program.execAt_mem (P := L.prog) hq) x).trans hprev

/-- When it ends, the registers of the process are on its stack, and nothing else has been
written outside the kernel's frame. -/
theorem swapped_process (hsave : u.var .saveESP = L.kframe)
    (hstack : Apart (u.reg.esp - 32) 32 L.kframe 36) :
    (swapped u).regs (u.reg.esp - 32) = u.reg ∧
      ∀ x, ¬ InRange (u.reg.esp - 32) 32 x → ¬ InRange L.kframe 36 x →
        swapped u x = u.mem x := by
  have hout : ∀ x, ¬ InRange L.kframe 36 x → swapped u x = pushed u x := by
    intro x hx
    unfold swapped
    rw [hsave, Bytes.putWord_of_not_inRange, Bytes.putWord_of_not_inRange]
    · intro h
      apply hx
      unfold InRange at h ⊢
      bv_omega
    · intro h
      apply hx
      unfold InRange at h ⊢
      bv_omega
  have hregs : (pushed u).regs (u.reg.esp - 32) = u.reg := Bytes.regs_putWords _ _ _
  constructor
  · refine Eq.trans ?_ hregs
    exact Bytes.regs_congr fun x hx => hout x fun h => hstack x hx h
  · intro x h₁ h₂
    exact (hout x h₂).trans (pushed_of_not_inRange h₁)

/-- When an entry ends, the kernel's registers are restored from its frame, but for `eax` and
`edx`: these hold `ebx` and `edx` of the process. -/
theorem run_entry_restores (h : u.eip = L.text v.index) (hc : c.reg.esp = L.kstack)
    (hsave : u.var .saveESP = L.kframe)
    (hframe : Bytes.AgreeOn (InRange L.kframe 36) (framed c) u.mem)
    (hstack : Apart (u.reg.esp - 32) 32 L.kframe 36) :
    L.prog.run v.index 12 u =
      { reg := { c.reg with eax := u.reg.ebx, edx := u.reg.edx }
        eip := L.text ctswEnd
        cs := u.cs
        eflags := c.eflags
        mem := swapped u
        var := entryVars v u } := by
  have hk : c.reg.esp - 4 - 32 = L.kframe := by rw [hc]; rfl
  have hpushed : Bytes.AgreeOn (InRange L.kframe 36) (framed c) (pushed u) := fun x hx =>
    (pushed_of_not_inRange fun hp => hstack x hp hx).trans (hframe x hx)
  obtain ⟨hregs, hflags⟩ := framed_frame c
  rw [hk] at hregs
  have hr : (pushed u).regs L.kframe = { c.reg with esp := c.reg.esp - 4 } := by
    rw [← hregs]
    apply Bytes.regs_congr
    intro x hx
    apply hpushed
    unfold InRange at hx ⊢
    omega
  have hf : (swapped u).word (L.kframe + 32) = c.eflags := by
    unfold swapped
    rw [hsave, Bytes.word_putWord_ne (by bv_omega) (by bv_omega),
      Bytes.word_putWord_ne (by bv_omega) (by bv_omega)]
    have hat : L.kframe + 32 = c.reg.esp - 4 := by
      rw [← hk]
      bv_omega
    rw [hat, ← hflags]
    refine hpushed.word fun x hx => ?_
    rw [← hk]
    unfold InRange at hx ⊢
    bv_omega
  have hs : (swapped u).regs L.kframe
      = { c.reg with esp := c.reg.esp - 4, eax := u.reg.ebx, edx := u.reg.edx } := by
    unfold swapped
    rw [hsave, Bytes.regs_putWord_edx, Bytes.regs_putWord_eax, hr]
  have hesp : L.kframe + 36 = c.reg.esp := by
    rw [← hk]
    bv_omega
  rw [run_entry h, hsave, hf, hs, hesp]

end Xeros
