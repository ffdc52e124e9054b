import Xeros.Logic.Switch

/-!
# Where the processor is

Since the last call of `contextswitch` the processor is on its way to the process, at the
process, or on its way back, and it stays in this order whatever the user code does and
whenever interrupts come. On both ways the interrupts are masked, and in between the
kernel's registers lie in its frame.
-/

namespace Xeros

open Lib

variable {L : Linked} {c₀ c u : Cpu Static} {v : Intr} {m m' : Machine} {e : MachStep}
  {i j : ℕ} {x : Word} {s : Recorded} {R : Cpu Static → Prop}

/-! ## Addresses -/

theorem Intr.index_lt (v : Intr) : v.index < ctswEnd := by
  cases v <;> decide

/-- An address of the assembly is none of user code. -/
theorem Linked.Outside.ne (h : L.Outside x) (hi : i ≤ ctswEnd) : x ≠ L.text i := h i hi

/-- The gate of an interrupt leads to its entry. -/
theorem contextinit_offset (v : Intr) :
    (contextinit L v.vector).offset = L.text v.index ∧ (contextinit L v.vector).type = 15 := by
  have hg : ∀ (idt : ℕ → Gate) (n : ℕ) (w : Word),
      (setEvec idt n w n).offset = w ∧ (setEvec idt n w n).type = 15 := by
    intro idt n w
    unfold setEvec
    rw [Function.update_self]
    exact ⟨Gate.offset_eq rfl rfl, rfl⟩
  cases v with
  | kernel => exact hg L.idt 80 _
  | timer => exact hg (L.setEntry .kernel L.idt) 32 _
  | keybd => exact hg (L.setEntry .timer (L.setEntry .kernel L.idt)) 33 _

/-! ## The ways through the assembly -/

/-- On the way to the process. -/
theorem run_leaving (h : c₀.eip = L.text 0) (hj : j < 9) :
    (L.prog.run 0 j c₀).eip = L.text j ∧ (L.prog.run 0 j c₀).eflags = c₀.eflags := by
  obtain ⟨-, hs, hn⟩ := toProcess_path
  have hst : L.prog.straight 0 j := hs.mono (by omega)
  have hend : L.prog.succ^[j] 0 = j := hn j (by omega)
  rw [Program.run_eq hst h, hend]
  exact ⟨rfl, execs_eflags (toProcess_plain j hj)⟩

/-- On the way back. -/
theorem run_entering (h : u.eip = L.text v.index) (hj : j < 12) :
    (L.prog.run v.index (j + 1) u).eip = L.text (L.prog.succ^[j + 1] v.index) ∧
      (j < 11 → (L.prog.run v.index (j + 1) u).Masked) := by
  obtain ⟨-, hs, -, -⟩ := entry_path v
  have hst : L.prog.straight v.index (j + 1) := hs.mono (by omega)
  rw [Program.run_eq hst h]
  refine ⟨rfl, fun hlt => ?_⟩
  obtain ⟨hhead, htail⟩ := entry_plain v j hlt
  obtain ⟨rest, hrest⟩ := List.head?_eq_some_iff.mp hhead
  rw [hrest, List.tail_cons] at htail
  have hpath : L.prog.path v.index (j + 1) = .cli :: rest := hrest
  have hflags : (execs (L.prog.path v.index (j + 1)) u).eflags
      = u.eflags &&& ~~~intrFlag := by
    rw [hpath]
    exact execs_eflags htail
  show (execs (L.prog.path v.index (j + 1)) u).eflags &&& intrFlag = 0
  rw [hflags, BitVec.and_assoc, show ~~~intrFlag &&& intrFlag = 0 by decide]
  exact BitVec.and_zero

/-- Where the way back has got to. -/
theorem entry_succ (v : Intr) (hj : j ≤ 12) : L.prog.succ^[j] v.index ≤ ctswEnd := by
  obtain ⟨-, -, hend, hlt⟩ := entry_path v
  rcases Nat.lt_or_eq_of_le hj with h | rfl
  · exact Nat.le_of_lt (hlt j h).2
  · exact Nat.le_of_eq hend

/-! ## Phases -/

/-- The context of the process to run is away from the kernel's frame, and leads to user code
or to an entry. -/
def ContextOk (L : Linked) (c₀ : Cpu Static) : Prop :=
  Apart (c₀.var .saveESP) 44 L.kframe 36 ∧ L.AtProcess (c₀.mem.word (c₀.var .saveESP + 32))

/-- The processor between `iret` and the `cli` of an entry. -/
structure InProcess (L : Linked) (c₀ c : Cpu Static) : Prop where
  frame : Bytes.AgreeOn (InRange L.kframe 36) (framed c₀) c.mem
  saveESP : c.var .saveESP = L.kframe
  place : L.AtProcess c.eip
  stack : ¬ L.Outside c.eip → Apart (c.reg.esp - 32) 32 L.kframe 36

/-- Where the processor is since the call of `contextswitch` in `c₀`; `R` holds of the states
at the process. -/
inductive Phase (L : Linked) (c₀ : Cpu Static) (R : Cpu Static → Prop) : Cpu Static → Prop
  | leaving (j : ℕ) (hj : j < 9) (hok : 0 < j → ContextOk L c₀) :
      Phase L c₀ R (L.prog.run 0 j c₀)
  | process (c : Cpu Static) (h : InProcess L c₀ c) (hr : R c) : Phase L c₀ R c
  | entering (u : Cpu Static) (v : Intr) (j : ℕ) (hu : InProcess L c₀ u) (hr : R u)
      (he : u.eip = L.text v.index) (hj : j < 12) : Phase L c₀ R (L.prog.run v.index (j + 1) u)

theorem Linked.not_outside_entry (he : c.eip = L.text v.index) : ¬ L.Outside c.eip :=
  fun h => h.ne (Nat.le_of_lt v.index_lt) he

/-- `iret` leads to the process. -/
theorem inProcess_iret (hc : L.AtCall s c₀) (hok : ContextOk L c₀) :
    InProcess L c₀ (L.prog.run 0 9 c₀) := by
  obtain ⟨hap, hat⟩ := hok
  have hk : c₀.reg.esp - 4 - 32 = L.kframe := by rw [hc.esp]; rfl
  have hslot : ∀ y, InRange L.kframe 36 y → ¬ InRange (c₀.var .saveESP + 28) 4 y := by
    intro y hy hs
    refine hap y ?_ hy
    unfold InRange at hs ⊢
    bv_omega
  have hret : (handed c₀).word (c₀.var .saveESP + 32) = c₀.mem.word (c₀.var .saveESP + 32) := by
    unfold handed
    rw [Bytes.word_putWord_ne (by bv_omega) (by bv_omega)]
    apply Bytes.word_congr
    intro y hy
    apply framed_of_not_inRange
    rw [hk]
    apply hap
    unfold InRange at hy ⊢
    bv_omega
  rw [run_iret hc.eip]
  refine ⟨.of_putWord hslot, ?_, ?_, fun _ y hy hf => ?_⟩
  · show Function.update c₀.var .saveESP (c₀.reg.esp - 4 - 32) .saveESP = L.kframe
    rw [Function.update_self, hk]
  · show L.AtProcess ((handed c₀).word (c₀.var .saveESP + 32))
    rw [hret]
    exact hat
  · refine hap y ?_ hf
    have hy' : InRange (c₀.var .saveESP + 44 - 32) 32 y := hy
    unfold InRange at hy' ⊢
    bv_omega

/-- An interrupt leads to the entry. -/
theorem InProcess.enter (h : InProcess L c₀ c) (hap : Apart (c.reg.esp - 44) 44 L.kframe 36) :
    InProcess L c₀ (c.enter (contextinit L v.vector)) ∧
      (c.enter (contextinit L v.vector)).eip = L.text v.index := by
  have he : (c.enter (contextinit L v.vector)).eip = L.text v.index := (contextinit_offset v).1
  refine ⟨⟨h.frame.trans (.of_putWords fun x hx hp => hap x ?_ hx), h.saveESP, .inr ⟨v, he⟩,
    fun _ x hx hf => hap x ?_ hf⟩, he⟩
  · have hp' : InRange (c.reg.esp - 12) 12 x := hp
    unfold InRange at hp' ⊢
    bv_omega
  · have hx' : InRange (c.reg.esp - 12 - 32) 32 x := hx
    unfold InRange at hx' ⊢
    bv_omega

/-- Only the C code changes the kernel. -/
theorem Linked.Step.s_eq (hst : L.Step m e m') (he : ∀ a r f, e ≠ .serve a r f) :
    m'.s = m.s := by
  cases hst with
  | serve a r f => exact absurd rfl (he a r f)
  | _ => rfl

/-- At the process, or in the assembly with the interrupts masked. -/
theorem Phase.process_or_masked (hc : L.AtCall s c₀) (h : Phase L c₀ R c) :
    (InProcess L c₀ c ∧ R c) ∨ (c.Masked ∧ ¬ L.Outside c.eip) := by
  cases h with
  | leaving j hj _ =>
      obtain ⟨heip, hflags⟩ := run_leaving hc.eip hj
      refine .inr ⟨?_, fun hx => hx.ne (Nat.le_of_lt (Nat.lt_trans hj (by decide))) heip⟩
      unfold Cpu.Masked
      rw [hflags]
      exact hc.masked
  | process _ hin hr => exact .inl ⟨hin, hr⟩
  | entering u v j hu _ hv hj =>
      obtain ⟨heip, hmask⟩ := run_entering hv hj
      refine .inr ⟨?_, fun hx => hx.ne (entry_succ v hj) heip⟩
      rcases Nat.lt_or_ge j 11 with hlt | hge
      · exact hmask hlt
      · obtain rfl : j = 11 := by omega
        unfold Cpu.Masked
        rw [run_entry_restores hv hc.esp hu.saveESP hu.frame (hu.stack (L.not_outside_entry hv))]
        exact hc.masked

/-- Interrupts come at the process only. -/
theorem Linked.Step.not_masked (hst : L.Step m (.intr v) m') :
    ¬ (m.cpu.Masked ∧ ¬ L.Outside m.cpu.eip) := by
  rintro ⟨hmask, hnot⟩
  cases hst with
  | intr _ hk hm =>
      cases v with
      | kernel => exact hnot (hk rfl)
      | timer => exact hm (by decide) hmask
      | keybd => exact hm (by decide) hmask

/-- A step, other than of the C code, leads on. -/
theorem Phase.step (hc : L.AtCall m.s c₀) (h : Phase L c₀ R m.cpu) (ho : L.Orderly m e)
    (hst : L.Step m e m') (he : ∀ a r f, e ≠ .serve a r f)
    (hR : InProcess L c₀ m'.cpu → R m'.cpu) : Phase L c₀ R m'.cpu := by
  obtain ⟨cpu, s⟩ := m
  have heq : ∀ {i j : ℕ}, i ≤ ctswEnd → j ≤ ctswEnd → L.text i = L.text j → i = j :=
    fun hi hj h => L.inj _ _ hi hj h
  have hpm := h.process_or_masked hc
  cases hst with
  | exec i hi hie =>
      cases h with
      | leaving j hj hok =>
          have heip := (run_leaving hc.eip hj).1
          obtain rfl : i = j := heq (Nat.le_of_lt hi) (Nat.le_of_lt (Nat.lt_trans hj (by decide)))
            (hie.symm.trans heip)
          have hnext : L.prog.execAt i (L.prog.run 0 i c₀) = L.prog.run 0 (i + 1) c₀ := by
            show _ = L.prog.execAt (L.prog.succ^[i] 0) (L.prog.run 0 i c₀)
            rw [show L.prog.succ^[i] 0 = i from toProcess_path.2.2 i (by omega)]
          have hcontext : ContextOk L c₀ := by
            rcases Nat.eq_zero_or_pos i with rfl | hpos
            · have hv : c₀.var .saveESP = (s.d.k.proctab s.d.p).esp := by
                rw [hc.var]
                rfl
              have hcall := ho hc.eip
              unfold ContextOk
              rw [hv]
              exact hcall
            · exact hok hpos
          show Phase L c₀ R (L.prog.execAt i (L.prog.run 0 i c₀))
          replace hR : InProcess L c₀ (L.prog.execAt i (L.prog.run 0 i c₀)) →
            R (L.prog.execAt i (L.prog.run 0 i c₀)) := hR
          rw [hnext] at hR ⊢
          rcases Nat.lt_or_eq_of_le (Nat.le_of_lt_succ hj) with hlt | rfl
          · exact .leaving (i + 1) (by omega) fun _ => hcontext
          · have hin := inProcess_iret hc hcontext
            exact .process _ hin (hR hin)
      | process _ hin hr =>
          rcases hin.place with hx | ⟨v, hv⟩
          · exact absurd hie (hx.ne (Nat.le_of_lt hi))
          · obtain rfl : i = v.index := heq (Nat.le_of_lt hi) (Nat.le_of_lt v.index_lt)
              (hie.symm.trans hv)
            exact .entering cpu v 0 hin hr hv (by decide)
      | entering u v j hu hr hv hj =>
          obtain rfl : i = L.prog.succ^[j + 1] v.index := heq (Nat.le_of_lt hi) (entry_succ v hj)
            (hie.symm.trans (run_entering hv hj).1)
          have hlt : j + 1 < 12 := by
            rcases Nat.lt_or_ge (j + 1) 12 with hlt | hge
            · exact hlt
            · obtain rfl : j = 11 := by omega
              have hend : L.prog.succ^[12] v.index = ctswEnd := (entry_path v).2.2.1
              exact absurd hend (Nat.ne_of_lt hi)
          exact .entering u v (j + 1) hu hr hv hlt
  | user r eip f mem hx =>
      rcases hpm with ⟨hin, -⟩ | ⟨-, hnot⟩
      · obtain ⟨hout, hmem⟩ := ho
        have hin' : InProcess L c₀ { cpu with reg := r, eip := eip, eflags := f, mem := mem } :=
          ⟨hin.frame.trans hmem, hin.saveESP, .inl hout, fun hn => absurd hout hn⟩
        exact .process _ hin' (hR hin')
      · exact absurd hx hnot
  | intr v hk hm =>
      obtain ⟨hin, -⟩ := hpm.resolve_right (Linked.Step.intr (m := ⟨cpu, s⟩) v hk hm).not_masked
      exact .process _ (hin.enter ho).1 (hR (hin.enter ho).1)
  | serve a r f => exact absurd rfl (he a r f)

/-! ## The end of the assembly -/

/-- The processor is at the end of the assembly when an entry has been executed. -/
theorem Phase.at_end (hc : L.AtCall s c₀) (h : Phase L c₀ R c) (he : c.eip = L.text ctswEnd) :
    ∃ u v, InProcess L c₀ u ∧ R u ∧ u.eip = L.text v.index ∧
      c = { reg := { c₀.reg with eax := u.reg.ebx, edx := u.reg.edx }
            eip := L.text ctswEnd
            cs := u.cs
            eflags := c₀.eflags
            mem := swapped u
            var := entryVars v u } := by
  have hend : ctswEnd = 31 := rfl
  have heq : ∀ {i : ℕ}, i ≤ ctswEnd → c.eip = L.text i → i = ctswEnd := fun hi h =>
    L.inj _ _ hi (Nat.le_refl _) (h.symm.trans he)
  cases h with
  | leaving j hj _ =>
      have h := heq (by omega) (run_leaving hc.eip hj).1
      omega
  | process _ hin _ =>
      rcases hin.place with hx | ⟨v, hv⟩
      · exact absurd he (hx.ne (Nat.le_refl _))
      · exact absurd (heq (Nat.le_of_lt v.index_lt) hv) (Nat.ne_of_lt v.index_lt)
  | entering u v j hu hr hv hj =>
      have h := heq (entry_succ v hj) (run_entering hv hj).1
      have hlast : j = 11 := by
        by_contra hne
        have hlt : L.prog.succ^[j + 1] v.index < ctswEnd :=
          ((entry_path v).2.2.2 (j + 1) (by omega)).2
        exact absurd h (Nat.ne_of_lt hlt)
      subst hlast
      exact ⟨u, v, hu, hr, hv,
        run_entry_restores hv hc.esp hu.saveESP hu.frame (hu.stack (L.not_outside_entry hv))⟩

/-- The processor is at `iret` when the first block has been executed. -/
theorem Phase.at_iret (hc : L.AtCall s c₀) (h : Phase L c₀ R c) (he : c.eip = L.text 8) :
    c = L.prog.run 0 8 c₀ ∧ ContextOk L c₀ := by
  have heq : ∀ {i : ℕ}, i ≤ ctswEnd → c.eip = L.text i → i = 8 := fun hi h =>
    L.inj _ _ hi (by decide) (h.symm.trans he)
  cases h with
  | leaving j hj hok =>
      obtain rfl : j = 8 := heq (Nat.le_of_lt (Nat.lt_trans hj (by decide)))
        (run_leaving hc.eip hj).1
      exact ⟨rfl, hok (by decide)⟩
  | process _ hin _ =>
      rcases hin.place with hx | ⟨v, hv⟩
      · exact absurd he (hx.ne (by decide))
      · have hindex : v.index ≠ 8 := by cases v <;> decide
        exact absurd (heq (Nat.le_of_lt v.index_lt) hv) hindex
  | entering u v j hu hr hv hj =>
      have h8 := heq (entry_succ v hj) (run_entering hv hj).1
      obtain ⟨-, -, hend, hlt⟩ := entry_path v
      rcases Nat.lt_or_ge (j + 1) 12 with hj' | hj'
      · exact absurd h8 (Nat.ne_of_gt (hlt (j + 1) hj').1)
      · obtain rfl : j = 11 := by omega
        exact absurd (h8.symm.trans hend) (by decide)

/-- `iret` leaves the assembly. -/
theorem Phase.iret (hc : L.AtCall s c₀) (h : Phase L c₀ R m.cpu) (he : m.cpu.eip = L.text 8)
    (hst : L.Step m .exec m') : m'.cpu = L.prog.run 0 9 c₀ ∧ ContextOk L c₀ := by
  obtain ⟨hcpu, hok⟩ := h.at_iret hc he
  refine ⟨?_, hok⟩
  cases hst with
  | exec i hi hie =>
      obtain rfl : i = 8 := L.inj _ _ (Nat.le_of_lt hi) (by decide) (hie.symm.trans he)
      have hsucc : L.prog.succ^[8] 0 = 8 := toProcess_path.2.2 8 (by decide)
      show L.prog.execAt 8 m.cpu = L.prog.execAt (L.prog.succ^[8] 0) (L.prog.run 0 8 c₀)
      rw [hsucc, hcpu]

/-! ## Runs -/

/-- The instructions of a way are executed one after the other. -/
theorem path_run {C : Machine → MachStep → Prop} {n : ℕ}
    (hs : ∀ j, j < n → ctswListing.straight i j)
    (hlt : ∀ j, j < n → ctswListing.succ^[j] i < ctswEnd) (hc : c.eip = L.text i)
    (hC : ∀ j, j < n → C ⟨L.prog.run i j c, s⟩ .exec) :
    L.machine.Path C ⟨c, s⟩ ⟨L.prog.run i n c, s⟩ := by
  induction n with
  | zero => exact .refl
  | succ n ih =>
      have hn := Nat.lt_succ_self n
      have hpath := ih (fun j hj => hs j (Nat.lt_trans hj hn))
        (fun j hj => hlt j (Nat.lt_trans hj hn)) fun j hj => hC j (Nat.lt_trans hj hn)
      have heip : (L.prog.run i n c).eip = L.text (L.prog.succ^[n] i) := by
        have hst : L.prog.straight i n := hs n hn
        rw [Program.run_eq hst hc]
        rfl
      exact hpath.tail (hC n hn)
        (Linked.Step.exec (m := ⟨L.prog.run i n c, s⟩) _ (hlt n hn) heip)

/-- A step on a way. -/
theorem step_run {n : ℕ} (hs : ctswListing.straight i n)
    (hlt : ctswListing.succ^[n] i < ctswEnd) (hc : c.eip = L.text i)
    (hst : L.Step ⟨L.prog.run i n c, s⟩ .exec m') : m'.cpu = L.prog.run i (n + 1) c := by
  have hst' : L.prog.straight i n := hs
  cases hst with
  | exec j hj hje =>
      have heip : (L.prog.run i n c).eip = L.text j := hje
      rw [Program.run_eq hst' hc] at heip
      have heq := L.inj _ _ (Nat.le_of_lt hlt) (Nat.le_of_lt hj) heip
      show L.prog.execAt j _ = L.prog.execAt (L.prog.succ^[n] i) _
      rw [← heq]
      rfl

/-- The way to the process, when its context is in order. -/
theorem leaving_path {C : Machine → MachStep → Prop} {n : ℕ} (hc : L.AtCall s c)
    (hok : ContextOk L c) (hn : n ≤ 9)
    (hC : ∀ j, j < n → L.Orderly ⟨L.prog.run 0 j c, s⟩ .exec → C ⟨L.prog.run 0 j c, s⟩ .exec) :
    L.machine.Path C ⟨c, s⟩ ⟨L.prog.run 0 n c, s⟩ := by
  obtain ⟨-, hs, hsucc⟩ := toProcess_path
  have hend : ctswEnd = 31 := rfl
  refine path_run (fun j hj => hs.mono (by omega)) (fun j hj => ?_) hc.eip fun j hj =>
    hC j hj fun he => ?_
  · rw [hsucc j (by omega)]
    omega
  · -- only the first instruction is that of the call
    have he' : (L.prog.run 0 j c).eip = L.text 0 := he
    rw [(run_leaving hc.eip (by omega)).1] at he'
    obtain rfl : j = 0 := L.inj _ _ (by omega) (Nat.zero_le _) he'
    have hv : c.var .saveESP = (s.d.k.proctab s.d.p).esp := by
      rw [hc.var]
      rfl
    unfold ContextOk at hok
    rwa [hv] at hok

/-- The machine when an interrupt has come in `m` and `n` instructions of its entry have been
executed. -/
def Linked.gated (L : Linked) (m : Machine) (v : Intr) (n : ℕ) : Machine :=
  { m with cpu := L.prog.run v.index n (m.cpu.enter (contextinit L v.vector)) }

/-- It is reached when the entry is not preempted. -/
theorem gated_path {C : Machine → MachStep → Prop} {n : ℕ} (hst : L.Step m (.intr v) m')
    (hn : n ≤ 12) (hC : ∀ j, j < n → L.Orderly (L.gated m v j) .exec → C (L.gated m v j) .exec) :
    L.machine.Path C m' (L.gated m v n) := by
  obtain ⟨-, hs, -, hlt⟩ := entry_path v
  have heip : (m.cpu.enter (contextinit L v.vector)).eip = L.text v.index :=
    (contextinit_offset v).1
  have hm' : m' = { m with cpu := m.cpu.enter (contextinit L v.vector) } := by
    cases hst
    rfl
  rw [hm']
  refine path_run (fun j hj => hs.mono (by omega)) (fun j hj => (hlt j (by omega)).2) heip
    fun j hj => hC j hj fun he => ?_
  -- no instruction of the entry is that of the call
  have hst : L.prog.straight v.index j := hs.mono (by omega)
  have he' : (L.prog.run v.index j (m.cpu.enter (contextinit L v.vector))).eip = L.text 0 := he
  rw [Program.run_eq hst heip] at he'
  have hj' := hlt j (by omega)
  have h0 := L.inj _ _ (Nat.le_of_lt hj'.2) (Nat.zero_le _) he'
  have h8 := hj'.1
  rw [h0] at h8
  exact absurd h8 (by decide)

/-- The machine when an interrupt has come in `m` and its entry has been executed. -/
def Linked.entered (L : Linked) (m : Machine) (v : Intr) : Machine :=
  { m with cpu := L.prog.run v.index 12 (m.cpu.enter (contextinit L v.vector)) }

@[inherit_doc gated_path]
theorem entered_path {C : Machine → MachStep → Prop} (hst : L.Step m (.intr v) m')
    (hC : ∀ j, j < 12 → L.Orderly (L.gated m v j) .exec → C (L.gated m v j) .exec) :
    L.machine.Path C m' (L.entered m v) := gated_path hst (Nat.le_refl 12) hC

/-- The C code leads from the end of the assembly to the next call. -/
theorem Phase.serve {a : Ambient} {r : Regs} {f : Word} (hc : L.AtCall m.s c₀)
    (h : Phase L c₀ R m.cpu) (hst : L.Step m (.serve a r f) m') : L.AtCall m'.s m'.cpu := by
  cases hst with
  | serve _ _ _ s' he hs hr hf =>
      obtain ⟨u, v, -, -, -, hcpu⟩ := h.at_end hc he
      have hesp : r.esp = c₀.reg.esp := by
        rw [hr, hcpu]
      have hflags : f &&& intrFlag = 0 := by
        rw [hf, hcpu]
        exact hc.masked
      exact ⟨rfl, hesp.trans hc.esp, hflags, rfl, rfl⟩

theorem Phase.mono {R' : Cpu Static → Prop} (h : Phase L c₀ R c) (hR : ∀ u, R u → R' u) :
    Phase L c₀ R' c := by
  cases h with
  | leaving j hj hok => exact .leaving j hj hok
  | process c h hr => exact .process c h (hR c hr)
  | entering u v j hu hr he hj => exact .entering u v j hu (hR u hr) he hj

/-- The C code does not run. -/
def NotServing (L : Linked) (m : Machine) (e : MachStep) : Prop :=
  L.Orderly m e ∧ ∀ a r f, e ≠ .serve a r f

/-- In every run the processor is in a phase since the last call, and the states at the process
are those of the run since then. -/
theorem phase_of_run {m₀ : Machine} (hi : L.machine.init m₀)
    (hp : L.machine.Path L.Orderly m₀ m) : ∃ c₀, L.AtCall m.s c₀ ∧
      Phase L c₀ (fun u => L.machine.Path L.Orderly m₀ ⟨u, m.s⟩ ∧
        L.machine.Path (NotServing L) ⟨u, m.s⟩ m) m.cpu := by
  induction hp with
  | refl =>
      exact ⟨m₀.cpu, hi.2, .leaving 0 (by decide) fun h => absurd h (Nat.lt_irrefl 0)⟩
  | @tail m m' e hp ho hst ih =>
      obtain ⟨c₀, hc, hph⟩ := ih
      by_cases he : ∃ a r f, e = .serve a r f
      · obtain ⟨a, r, f, rfl⟩ := he
        have hc' := hph.serve hc hst
        exact ⟨m'.cpu, hc', .leaving 0 (by decide) fun h => absurd h (Nat.lt_irrefl 0)⟩
      · have hns : ∀ a r f, e ≠ .serve a r f := fun a r f h => he ⟨a, r, f, h⟩
        have hs : m'.s = m.s := hst.s_eq hns
        rw [hs]
        have hph' := hph.mono fun u hu => And.intro hu.1 (hu.2.tail ⟨ho, hns⟩ hst)
        refine ⟨c₀, hc, hph'.step hc ho hst hns fun _ => ?_⟩
        have hm : (⟨m'.cpu, m.s⟩ : Machine) = m' := by
          rw [← hs]
        rw [hm]
        exact ⟨hp.tail ho hst, .refl⟩

@[inherit_doc phase_of_run]
theorem phase_of_reachable (hr : L.machine.ReachableUnder L.Orderly m) :
    ∃ c₀, L.AtCall m.s c₀ ∧
      Phase L c₀ (fun u => L.machine.ReachableUnder L.Orderly ⟨u, m.s⟩) m.cpu := by
  obtain ⟨m₀, hi, hp⟩ := hr
  obtain ⟨c₀, hc, hph⟩ := phase_of_run hi hp
  exact ⟨c₀, hc, hph.mono fun u hu => ⟨m₀, hi, hu.1⟩⟩

/-! ## The sample machine, with its processor -/

/-- A kernel at `0x1500` with its stack below `0x18000`. -/
def sampleKernel : Linked where
  text i := 0x1500 + BitVec.ofNat 32 i
  inj i j hi hj h := by
    have hi' : i ≤ 31 := hi
    have hj' : j ≤ 31 := hj
    bv_omega
  kstack := 0x18000
  idt _ :=
    { loffset := 0, segsel := 0, rsvd := 0, mbz := 0, type := 0, dpl := 0, present := 0
      hoffset := 0 }

/-- The processor at its first call of `contextswitch`. -/
def sampleCpu (s : Recorded) : Cpu Static where
  reg := { edi := 0, esi := 0, ebp := 0, esp := 0x18000, ebx := 0, edx := 0, ecx := 0, eax := 0 }
  eip := sampleKernel.text 0
  cs := 8
  eflags := 2
  mem := s.d.k.mem
  var := beforeSwitch (s.d.k.proctab s.d.p) fun _ => 0

/-- The sample machine with this kernel. -/
def sampleMachine : Machine := { cpu := sampleCpu sampleStart, s := sampleStart }

/-- Its root process, when it starts. -/
def sampleRoot : Machine :=
  { sampleMachine with cpu := sampleKernel.prog.run 0 9 sampleMachine.cpu }

/-- A timer interrupt has come. -/
def sampleTicked : Machine := sampleKernel.entered sampleRoot .timer

/-- The C code has run. -/
def sampleServe (m : Machine) : Machine where
  cpu :=
    { reg := m.cpu.reg
      eip := sampleKernel.text 0
      cs := m.cpu.cs
      eflags := m.cpu.eflags
      mem := (m.s.after (m.trap sampleAmbient)).d.k.mem
      var := beforeSwitch ((m.s.after (m.trap sampleAmbient)).d.k.proctab
        (m.s.after (m.trap sampleAmbient)).d.p) m.cpu.var }
  s := m.s.after (m.trap sampleAmbient)

/-- The process of `m` has its arguments at `0x60000`, and the request in its registers. -/
def sampleUser (m : Machine) (req : Request) (args : List Word) : Machine :=
  let c := sampleKernel.prog.run 0 9 m.cpu
  { m with cpu := { c with
      reg := { c.reg with eax := req.code, edx := 0x60000 }
      mem := c.mem.putWords 0x60000 args } }

/-- It has made the system call. -/
def sampleEnter (m : Machine) (req : Request) (args : List Word) : Machine :=
  sampleKernel.entered (sampleUser m req args) .kernel

/-- The second call of `contextswitch`, for the root process again. -/
def sampleAgain : Machine := sampleServe sampleTicked

/-- The assembly is in one place. -/
theorem sampleKernel_outside (h : x < 0x1500 ∨ 0x151f < x) : sampleKernel.Outside x := by
  intro i hi hx
  have hi' : i ≤ 31 := hi
  have hx' : x = 0x1500 + BitVec.ofNat 32 i := hx
  bv_omega

/-- A context above the kernel's stack is in order if it leads to user code. -/
theorem sampleKernel_context {a : Word} (hesp : c.var .saveESP = a)
    (heip : c.mem.word (c.var .saveESP + 32) = x)
    (ha : 0x18000 ≤ a.toNat ∧ a.toNat < 0x80000000) (hx : x < 0x1500 ∨ 0x151f < x) :
    ContextOk sampleKernel c := by
  refine ⟨fun y hy hk => ?_, .inl ?_⟩
  · rw [hesp] at hy
    have hk' : InRange (0x18000 - 4 - 32) 36 y := hk
    unfold InRange at hy hk'
    bv_omega
  · rw [heip]
    exact sampleKernel_outside hx

theorem beforeSwitch_twice (c : Pcb) (v : Static → Word) :
    beforeSwitch c v = beforeSwitch c (beforeSwitch c v) := by
  funext x
  cases x <;> rfl

theorem sampleCpu_atCall (s : Recorded) : sampleKernel.AtCall s (sampleCpu s) :=
  ⟨rfl, rfl, (by decide : (2 : Word) &&& intrFlag = 0),
    beforeSwitch_twice (s.d.k.proctab s.d.p) fun _ => 0, rfl⟩

theorem sampleMachine_reachable {C : Machine → MachStep → Prop} :
    sampleKernel.machine.ReachableUnder C sampleMachine :=
  ⟨_, ⟨⟨sampleBoot_init, rfl⟩, sampleCpu_atCall sampleStart⟩, .refl⟩

/-- The root process starts. -/
theorem sampleRoot_path {C : Machine → MachStep → Prop}
    (hC : ∀ m, sampleKernel.Orderly m .exec → C m .exec) :
    sampleKernel.machine.Path C sampleMachine sampleRoot := by
  have h : sampleMachine.cpu.var .saveESP = 0x24fe0 ∧
      sampleMachine.cpu.mem.word (sampleMachine.cpu.var .saveESP + 32) = 0x1200 := by
    decide +kernel
  exact leaving_path (sampleCpu_atCall _)
    (sampleKernel_context h.1 h.2 (by decide) (by decide)) (by decide) fun _ _ h => hC _ h

/-- The timer interrupts it. -/
theorem sampleRoot_intr : sampleKernel.Orderly sampleRoot (.intr .timer) ∧
    ∃ m', sampleKernel.Step sampleRoot (.intr .timer) m' := by
  have h : sampleRoot.cpu.reg.esp = 0x2500c ∧ ¬ sampleRoot.cpu.Masked := by decide +kernel
  obtain ⟨hesp, hmask⟩ := h
  refine ⟨fun x hx hk => ?_, _, .intr .timer (fun h => by cases h) fun _ => hmask⟩
  rw [hesp] at hx
  have hk' : InRange (0x18000 - 4 - 32) 36 x := hk
  unfold InRange at hx hk'
  bv_omega

theorem sampleTicked_path {C : Machine → MachStep → Prop}
    (hC : ∀ m, sampleKernel.Orderly m .exec → C m .exec) (hi : C sampleRoot (.intr .timer)) :
    sampleKernel.machine.Path C sampleMachine sampleTicked := by
  obtain ⟨-, m', hst⟩ := sampleRoot_intr
  exact ((sampleRoot_path hC).tail hi hst).trans (entered_path hst fun _ _ h => hC _ h)

/-- The C code runs when the assembly has ended. -/
theorem sampleServe_step (he : m.cpu.eip = sampleKernel.text ctswEnd)
    (hok : (m.s.turn (m.trap sampleAmbient)).isOk = true) : sampleKernel.Step m
      (.serve sampleAmbient m.cpu.reg m.cpu.eflags) (sampleServe m) := by
  refine .serve _ _ _ (m.s.after (m.trap sampleAmbient)) he ?_ rfl rfl
  rw [Machine.dispatch_eq]
  exact Run.eq_getD hok

theorem sampleServe_mem {r : Regs} {f : Word}
    (hok : (m.s.turn (m.trap sampleAmbient)).isOk = true)
    (hst : sampleKernel.Step m (.serve sampleAmbient r f) m') :
    m'.cpu.mem = (sampleServe m).cpu.mem := by
  cases hst with
  | serve _ _ _ s' _ hs _ _ =>
      rw [Machine.dispatch_eq] at hs
      have hs' : m.s.turn (m.trap sampleAmbient) = .ok (sampleServe m).s := Run.eq_getD hok
      obtain rfl := Except.ok.inj (hs.symm.trans hs')
      rfl

theorem sampleServe_atCall (hesp : m.cpu.reg.esp = 0x18000) (hm : m.cpu.Masked) :
    sampleKernel.AtCall (sampleServe m).s (sampleServe m).cpu :=
  ⟨rfl, hesp, hm, beforeSwitch_twice _ m.cpu.var, rfl⟩

/-- The root process makes its call from where it is. -/
theorem sampleEnter_reachable {req : Request} {args : List Word}
    (hr : sampleKernel.machine.ReachableUnder sampleKernel.Orderly m) (hargs : args.length ≤ 3)
    (hc : sampleKernel.AtCall m.s m.cpu) (hesp : m.cpu.var .saveESP = 0x24fe0)
    (heip : m.cpu.mem.word (m.cpu.var .saveESP + 32) = 0x1200)
    (huser : (sampleKernel.prog.run 0 9 m.cpu).eip = 0x1200 ∧
      (sampleKernel.prog.run 0 9 m.cpu).reg.esp = 0x2500c) :
    sampleKernel.machine.ReachableUnder sampleKernel.Orderly (sampleEnter m req args) := by
  have hleave := hr.path (leaving_path hc
    (sampleKernel_context hesp heip (by decide) (by decide)) (Nat.le_refl 9) fun _ _ h => h)
  have hout : sampleKernel.Outside (sampleKernel.prog.run 0 9 m.cpu).eip := by
    rw [huser.1]
    exact sampleKernel_outside (.inl (by decide))
  have hkf : ∀ x, InRange sampleKernel.kframe 36 x →
      ¬ InRange 0x60000 (4 * args.length) x ∧ ¬ InRange (0x2500c - 44) 44 x := by
    intro x hx
    have hx' : InRange (0x18000 - 4 - 32) 36 x := hx
    unfold InRange at hx' ⊢
    bv_omega
  have hcode : sampleKernel.machine.ReachableUnder sampleKernel.Orderly (sampleUser m req args) :=
    hleave.tail (a := .user _ _ _ _)
      ⟨hout, .of_putWords fun x hx => (hkf x hx).1⟩ (.user _ _ _ _ hout)
  have hst := Linked.Step.intr (L := sampleKernel) (m := sampleUser m req args) .kernel
    (fun _ => hout) fun h => absurd rfl h
  have ho : sampleKernel.Orderly (sampleUser m req args) (.intr .kernel) := by
    intro x hx hk
    refine (hkf x hk).2 ?_
    rw [← huser.2]
    exact hx
  exact (hcode.tail ho hst).path (entered_path hst fun _ _ h => h)

/-- The C code chooses it again. -/
theorem sampleTicked_serve : sampleKernel.Step sampleTicked
    (.serve sampleAmbient sampleTicked.cpu.reg sampleTicked.cpu.eflags) sampleAgain :=
  sampleServe_step (by decide +kernel) (by decide +kernel)

end Xeros
