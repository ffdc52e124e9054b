import Mathlib.Data.Nat.Init
import Mathlib.Logic.Function.Iterate
import Xeros.Lib.Bytes

/-!
# A part of the 80386

The registers, the flags, gates of the interrupt table and the instructions with which an
interrupt handler saves one context and restores another. Everything runs in one segment and
at one privilege level, so an interrupt pushes on the stack that it finds.

A program is a list of instructions with labels. Where its instructions lie in the memory is
left open; `run` follows the flow of control by index.
-/

namespace Lib

/-! ## Consecutive words -/

namespace Bytes

variable {m m' : Bytes} {a w x : Word} {n k : ℕ} {ws vs : List Word} {S : Word → Prop}

/-- Store consecutive words. -/
def putWords (m : Bytes) (a : Word) : List Word → Bytes
  | [] => m
  | w :: ws => (putWords m (a + 4) ws).putWord a w

/-- The `n` words from `a`. -/
def words (m : Bytes) : Word → ℕ → List Word
  | _, 0 => []
  | a, n + 1 => m.word a :: words m (a + 4) n

theorem putWord_of_not_inRange (h : ¬ InRange a 4 x) : m.putWord a w x = m x :=
  splice_of_not_inRange h

/-- Only these words are stored. -/
theorem putWords_of_not_inRange (h : ¬ InRange a (4 * ws.length) x) :
    m.putWords a ws x = m x := by
  induction ws generalizing a with
  | nil => rfl
  | cons w ws ih =>
      rw [List.length_cons] at h
      have hfst : ¬ InRange a 4 x := by
        intro hx
        apply h
        unfold InRange at hx ⊢
        omega
      show (m.putWords (a + 4) ws).putWord a w x = m x
      rw [putWord_of_not_inRange hfst]
      apply ih
      intro hx
      apply h
      unfold InRange at hx hfst ⊢
      bv_omega

/-- Words depend on their bytes only. -/
theorem words_congr (hn : 4 * n ≤ 0x100000000) (h : ∀ x, InRange a (4 * n) x → m' x = m x) :
    m'.words a n = m.words a n := by
  induction n generalizing a with
  | zero => rfl
  | succ n ih =>
      have hfst : m'.word a = m.word a := by
        apply word_congr
        intro x hx
        apply h
        unfold InRange at hx ⊢
        omega
      have hrest : m'.words (a + 4) n = m.words (a + 4) n := by
        apply ih (by omega)
        intro x hx
        apply h
        unfold InRange at hx ⊢
        bv_omega
      show m'.word a :: _ = m.word a :: _
      rw [hfst, hrest]

@[simp] theorem length_words : (m.words a n).length = n := by
  induction n generalizing a with
  | zero => rfl
  | succ n ih => exact congrArg Nat.succ ih

/-- Words that have just been stored are read back. -/
theorem words_putWords (h : 4 * ws.length ≤ 0x100000000) :
    (m.putWords a ws).words a ws.length = ws := by
  induction ws generalizing a with
  | nil => rfl
  | cons w ws ih =>
      rw [List.length_cons] at h
      have hrest : ((m.putWords (a + 4) ws).putWord a w).words (a + 4) ws.length = ws := by
        refine (words_congr (by omega) fun x hx => ?_).trans (ih (by omega))
        apply putWord_of_not_inRange
        unfold InRange at hx ⊢
        bv_omega
      show ((m.putWords (a + 4) ws).putWord a w).word a
        :: ((m.putWords (a + 4) ws).putWord a w).words (a + 4) ws.length = w :: ws
      rw [word_putWord, hrest]

/-- Two words at a distance from the same address. -/
theorem word_putWord_off {d e : Word} (h₁ : 4 ≤ (d - e).toNat) (h₂ : (d - e).toNat ≤ 0xfffffffc) :
    (m.putWord (a + e) w).word (a + d) = m.word (a + d) := by
  have hd : a + d - (a + e) = d - e := by bv_omega
  exact word_putWord_ne (by rwa [hd]) (by rwa [hd])

/-- A word of a range that has been filled with one byte. -/
theorem word_fill {b : Byte} {d : Word} (h : d.toNat + 4 ≤ n) :
    (m.splice a n fun _ => b).word (a + d) = b ++ b ++ b ++ b := by
  have hbyte : ∀ e : Word, e.toNat < 4 → (m.splice a n fun _ => b) (a + d + e) = b := by
    intro e he
    apply splice_of_inRange
    unfold InRange
    bv_omega
  have h0 := hbyte 0 (by decide)
  rw [show a + d + 0 = a + d by bv_omega] at h0
  unfold word
  rw [hbyte 3 (by decide), hbyte 2 (by decide), hbyte 1 (by decide), h0]

namespace AgreeOn

theorem putWords (h : AgreeOn S m m') : AgreeOn S (m.putWords a ws) (m'.putWords a ws) := by
  induction ws generalizing a with
  | nil => exact h
  | cons w ws ih => exact ih.putWord

/-- Nothing is stored in `S`. -/
theorem of_putWords (h : ∀ x, S x → ¬ InRange a (4 * ws.length) x) :
    AgreeOn S m (m.putWords a ws) := fun x hx => putWords_of_not_inRange (h x hx)

@[inherit_doc of_putWords]
theorem of_putWord (h : ∀ x, S x → ¬ InRange a 4 x) : AgreeOn S m (m.putWord a w) :=
  fun x hx => putWord_of_not_inRange (h x hx)

end AgreeOn

end Bytes

/-! ## Registers -/

/-- The names of the general registers. -/
inductive Reg where
  | edi | esi | ebp | esp | ebx | edx | ecx | eax
  deriving DecidableEq, Repr

/-- The general registers, in the order in which `pusha` leaves them on the stack. -/
@[ext] structure Regs where
  edi : Word
  esi : Word
  ebp : Word
  esp : Word
  ebx : Word
  edx : Word
  ecx : Word
  eax : Word
  deriving DecidableEq

namespace Regs

/-- The value of a register. -/
def get (r : Regs) : Reg → Word
  | .edi => r.edi | .esi => r.esi | .ebp => r.ebp | .esp => r.esp
  | .ebx => r.ebx | .edx => r.edx | .ecx => r.ecx | .eax => r.eax

/-- A register gets a value. -/
def set (r : Regs) (w : Word) : Reg → Regs
  | .edi => { r with edi := w } | .esi => { r with esi := w }
  | .ebp => { r with ebp := w } | .esp => { r with esp := w }
  | .ebx => { r with ebx := w } | .edx => { r with edx := w }
  | .ecx => { r with ecx := w } | .eax => { r with eax := w }

/-- The words that `pusha` stores, lowest address first. -/
def words (r : Regs) : List Word := [r.edi, r.esi, r.ebp, r.esp, r.ebx, r.edx, r.ecx, r.eax]

@[simp] theorem length_words (r : Regs) : r.words.length = 8 := rfl

theorem words_inj {r r' : Regs} (h : r.words = r'.words) : r = r' := by
  simp only [words, List.cons.injEq] at h
  obtain ⟨h₁, h₂, h₃, h₄, h₅, h₆, h₇, h₈, -⟩ := h
  exact Regs.ext h₁ h₂ h₃ h₄ h₅ h₆ h₇ h₈

end Regs

/-- The registers that `pusha` has stored at an address. -/
def Bytes.regs (m : Bytes) (a : Word) : Regs where
  edi := m.word a
  esi := m.word (a + 4)
  ebp := m.word (a + 8)
  esp := m.word (a + 12)
  ebx := m.word (a + 16)
  edx := m.word (a + 20)
  ecx := m.word (a + 24)
  eax := m.word (a + 28)

theorem Bytes.words_regs (m : Bytes) (a : Word) : (m.regs a).words = m.words a 8 := by
  simp only [Bytes.words, Bytes.regs, Regs.words, BitVec.add_assoc]
  rfl

@[simp] theorem Bytes.regs_putWords (m : Bytes) (a : Word) (r : Regs) :
    (m.putWords a r.words).regs a = r := by
  apply Regs.words_inj
  rw [words_regs]
  exact words_putWords (Nat.le_of_ble_eq_true rfl)

/-- The registers depend on their bytes only. -/
theorem Bytes.regs_congr {m m' : Bytes} {a : Word} (h : ∀ x, InRange a 32 x → m' x = m x) :
    m'.regs a = m.regs a := by
  apply Regs.words_inj
  rw [words_regs, words_regs]
  exact words_congr (by decide) h

/-- A word stored in the place of `eax`. -/
theorem Bytes.regs_putWord_eax (m : Bytes) (a w : Word) :
    (m.putWord (a + 28) w).regs a = { m.regs a with eax := w } := by
  have hne : ∀ d : Word, d.toNat + 4 ≤ 28 → (m.putWord (a + 28) w).word (a + d) = m.word (a + d) :=
    fun d hd => word_putWord_ne (by bv_omega) (by bv_omega)
  apply Regs.ext
  · exact word_putWord_ne (by bv_omega) (by bv_omega)
  · exact hne 4 (by decide)
  · exact hne 8 (by decide)
  · exact hne 12 (by decide)
  · exact hne 16 (by decide)
  · exact hne 20 (by decide)
  · exact hne 24 (by decide)
  · exact word_putWord

/-- A word stored in the place of `edx`. -/
theorem Bytes.regs_putWord_edx (m : Bytes) (a w : Word) :
    (m.putWord (a + 20) w).regs a = { m.regs a with edx := w } := by
  have hne : ∀ d : Word, d.toNat + 4 ≤ 20 ∨ 24 ≤ d.toNat ∧ d.toNat ≤ 28 →
      (m.putWord (a + 20) w).word (a + d) = m.word (a + d) :=
    fun d hd => word_putWord_ne (by bv_omega) (by bv_omega)
  apply Regs.ext
  · exact word_putWord_ne (by bv_omega) (by bv_omega)
  · exact hne 4 (by decide)
  · exact hne 8 (by decide)
  · exact hne 12 (by decide)
  · exact hne 16 (by decide)
  · exact word_putWord
  · exact hne 24 (by decide)
  · exact hne 28 (by decide)

/-! ## The processor -/

/-- The state of the processor with the memory and the static variables, named by `ν`, that
the program reads and writes. -/
structure Cpu (ν : Type) where
  reg : Regs
  eip : Word
  cs : BitVec 16
  eflags : Word
  mem : Bytes
  var : ν → Word

/-- The trap, interrupt and nested task flags. -/
abbrev trapFlag : Word := 0x100

@[inherit_doc trapFlag]
abbrev intrFlag : Word := 0x200

@[inherit_doc trapFlag]
abbrev nestFlag : Word := 0x4000

/-- A descriptor of the interrupt table. -/
structure Gate where
  loffset : BitVec 16
  segsel : BitVec 16
  rsvd : BitVec 5
  mbz : BitVec 3
  type : BitVec 5
  dpl : BitVec 2
  present : BitVec 1
  hoffset : BitVec 16

/-- The address that a gate leads to. -/
def Gate.offset (g : Gate) : Word := g.hoffset ++ g.loffset

/-- A gate whose halves are those of an address leads there. -/
theorem Gate.offset_eq {g : Gate} {w : Word} (hl : g.loffset = w.setWidth 16)
    (hh : g.hoffset = (w >>> 16).setWidth 16) : g.offset = w := by
  unfold offset
  rw [hl, hh]
  apply BitVec.eq_of_getLsbD_eq
  intro k hk
  rw [BitVec.getLsbD_append]
  by_cases h : k < 16
  · simp [h]
  · have hsum : 16 + (k - 16) = k := by omega
    have hlt : k - 16 < 16 := by omega
    simp [h, hsum, hlt]

/-- The flags after a gate: one of type 14 masks the interrupts, one of type 15 does not. -/
def Gate.flags (g : Gate) (fl : Word) : Word :=
  if g.type = 14 then fl &&& ~~~(trapFlag ||| nestFlag ||| intrFlag)
  else fl &&& ~~~(trapFlag ||| nestFlag)

namespace Cpu

variable {ν : Type}

/-- Interrupts are not taken. -/
def Masked (c : Cpu ν) : Prop := c.eflags &&& intrFlag = 0

instance (c : Cpu ν) : Decidable c.Masked := inferInstanceAs (Decidable (_ = _))

/-- Words are pushed, the one at the lowest address first in the list. -/
def push (c : Cpu ν) (ws : List Word) : Cpu ν :=
  let sp := c.reg.esp - BitVec.ofNat 32 (4 * ws.length)
  { c with reg := { c.reg with esp := sp }, mem := c.mem.putWords sp ws }

/-- An interrupt goes through a gate. -/
def enter (c : Cpu ν) (g : Gate) : Cpu ν :=
  let p := c.push [c.eip, c.cs.setWidth 32, c.eflags]
  { p with eip := g.offset, cs := g.segsel, eflags := g.flags c.eflags }

end Cpu

/-! ## Instructions -/

/-- An operand: a constant, a register, a static variable, the word at a distance from a
register. -/
inductive Operand (ν : Type) where
  | imm (w : Word)
  | reg (r : Reg)
  | var (v : ν)
  | ind (d : Word) (r : Reg)
  deriving DecidableEq

/-- The instructions; `movl` has its source first. -/
inductive Instr (ν κ : Type) where
  | pushf
  | popf
  | pusha
  | popa
  | iret
  | cli
  | movl (s d : Operand ν)
  | jmp (l : κ)
  deriving DecidableEq

variable {ν κ : Type}

/-- The value of an operand. -/
def Operand.read (c : Cpu ν) : Operand ν → Word
  | .imm w => w
  | .reg r => c.reg.get r
  | .var v => c.var v
  | .ind d r => c.mem.word (c.reg.get r + d)

/-- A value is stored. -/
def Operand.write [DecidableEq ν] (c : Cpu ν) (w : Word) : Operand ν → Cpu ν
  | .imm _ => c
  | .reg r => { c with reg := c.reg.set w r }
  | .var v => { c with var := Function.update c.var v w }
  | .ind d r => { c with mem := c.mem.putWord (c.reg.get r + d) w }

/-- What an instruction does; `eip` is past it, or at the target of the jump. `popa` skips
the word of `esp`. -/
def Instr.exec [DecidableEq ν] (c : Cpu ν) : Instr ν κ → Cpu ν
  | .pushf => c.push [c.eflags]
  | .popf =>
    { c with reg := { c.reg with esp := c.reg.esp + 4 }, eflags := c.mem.word c.reg.esp }
  | .pusha => c.push c.reg.words
  | .popa => { c with reg := { c.mem.regs c.reg.esp with esp := c.reg.esp + 32 } }
  | .iret =>
    { c with
      reg := { c.reg with esp := c.reg.esp + 12 }
      eip := c.mem.word c.reg.esp
      cs := (c.mem.word (c.reg.esp + 4)).setWidth 16
      eflags := c.mem.word (c.reg.esp + 8) }
  | .cli => { c with eflags := c.eflags &&& ~~~intrFlag }
  | .movl s d => d.write c (s.read c)
  | .jmp _ => c

/-- The instruction does not touch the flags. -/
def Instr.plain : Instr ν κ → Bool
  | .popf | .iret | .cli => false
  | _ => true

/-- The instruction does not write to the memory. -/
def Instr.quiet : Instr ν κ → Bool
  | .pushf | .pusha | .movl _ (.ind _ _) => false
  | _ => true

theorem Operand.read_eip {c : Cpu ν} (e : Word) (d : Operand ν) :
    d.read { c with eip := e } = d.read c := by
  cases d <;> rfl

section Exec

variable [DecidableEq ν] {c : Cpu ν} {ins : Instr ν κ} {bs : List (Instr ν κ)}

theorem Operand.write_eip (w e : Word) (d : Operand ν) :
    d.write { c with eip := e } w = { d.write c w with eip := e } := by
  cases d <;> rfl

theorem Operand.write_eflags (w : Word) (d : Operand ν) : (d.write c w).eflags = c.eflags := by
  cases d <;> rfl

/-- Only `iret` has to do with `eip`. -/
theorem Instr.exec_eip (h : ins ≠ .iret) (e : Word) :
    ins.exec { c with eip := e } = { ins.exec c with eip := e } := by
  cases ins with
  | iret => exact absurd rfl h
  | movl s d =>
      show d.write { c with eip := e } (s.read { c with eip := e }) = _
      rw [Operand.read_eip, Operand.write_eip]
      rfl
  | _ => rfl

theorem Instr.exec_eflags (h : ins.plain = true) : (ins.exec c).eflags = c.eflags := by
  cases ins with
  | popf => cases h
  | iret => cases h
  | cli => cases h
  | movl s d => exact Operand.write_eflags _ d
  | _ => rfl

theorem Instr.exec_mem (h : ins.quiet = true) : (ins.exec c).mem = c.mem := by
  cases ins with
  | pushf => cases h
  | pusha => cases h
  | movl s d =>
      cases d with
      | ind => cases h
      | _ => rfl
  | _ => rfl

/-- Instructions are executed one after the other, whatever `eip` is. -/
def execs (bs : List (Instr ν κ)) (c : Cpu ν) : Cpu ν := bs.foldl Instr.exec c

theorem execs_snoc : execs (bs ++ [ins]) c = ins.exec (execs bs c) := by
  unfold execs
  rw [List.foldl_append]
  rfl

theorem execs_eflags (h : bs.all Instr.plain = true) : (execs bs c).eflags = c.eflags := by
  induction bs generalizing c with
  | nil => rfl
  | cons ins bs ih =>
      rw [List.all_cons, Bool.and_eq_true] at h
      show (execs bs (ins.exec c)).eflags = c.eflags
      rw [ih h.2, Instr.exec_eflags h.1]

end Exec

/-! ## Programs -/

/-- A list of instructions with labels. -/
structure Listing (ν κ : Type) where
  code : List (Instr ν κ)
  label : κ → ℕ

namespace Listing

variable (A : Listing ν κ)

/-- The index of the instruction after the `i`-th. -/
def succ (i : ℕ) : ℕ :=
  match A.code[i]? with
  | some (.jmp l) => A.label l
  | _ => i + 1

/-- The `n` instructions that are executed from the `i`-th on. -/
def path (i : ℕ) : ℕ → List (Instr ν κ)
  | 0 => []
  | n + 1 => path i n ++ (A.code[A.succ^[n] i]?).toList

/-- They are all there, and none of them is `iret`. -/
def straight [DecidableEq ν] [DecidableEq κ] (i n : ℕ) : Prop :=
  ∀ j, j < n → A.code[A.succ^[j] i]? ≠ none ∧ A.code[A.succ^[j] i]? ≠ some .iret

instance [DecidableEq ν] [DecidableEq κ] (i n : ℕ) : Decidable (A.straight i n) :=
  inferInstanceAs (Decidable (∀ j, j < n → _))

theorem straight.mono [DecidableEq ν] [DecidableEq κ] {A : Listing ν κ} {i n k : ℕ}
    (h : A.straight i n) (hk : k ≤ n) : A.straight i k :=
  fun j hj => h j (Nat.lt_of_lt_of_le hj hk)

end Listing

/-- A program in its place in the memory: the address of each instruction and of the end. -/
structure Program (ν κ : Type) extends Listing ν κ where
  text : ℕ → Word
  inj : ∀ i j, i ≤ code.length → j ≤ code.length → text i = text j → i = j

namespace Program

variable [DecidableEq ν] (P : Program ν κ) {c : Cpu ν} {ins : Instr ν κ} {i n : ℕ}

/-- The `i`-th instruction is executed. -/
def execAt (i : ℕ) (c : Cpu ν) : Cpu ν :=
  match P.code[i]? with
  | some ins => ins.exec { c with eip := P.text (P.succ i) }
  | none => c

/-- `n` instructions are executed, from the `i`-th on. -/
def run (i : ℕ) : ℕ → Cpu ν → Cpu ν
  | 0, c => c
  | n + 1, c => P.execAt (P.succ^[n] i) (run i n c)

variable {P}

theorem execAt_of (h : P.code[i]? = some ins) :
    P.execAt i c = ins.exec { c with eip := P.text (P.succ i) } := by
  unfold execAt
  rw [h]

theorem execAt_mem (h : (P.code[i]?).all Instr.quiet = true) : (P.execAt i c).mem = c.mem := by
  unfold execAt
  cases hc : P.code[i]? with
  | none => rfl
  | some ins =>
      rw [hc] at h
      exact Instr.exec_mem h

/-- A run without `iret` does what its instructions do, and ends behind them. -/
theorem run_eq [DecidableEq κ] (h : P.straight i n) (hc : c.eip = P.text i) :
    P.run i n c = { execs (P.path i n) c with eip := P.text (P.succ^[n] i) } := by
  induction n with
  | zero =>
      show c = { c with eip := P.text i }
      rw [← hc]
  | succ n ih =>
      obtain ⟨hsome, hne⟩ := h n (Nat.lt_succ_self n)
      obtain ⟨ins, hins⟩ := Option.ne_none_iff_exists'.mp hsome
      have hret : ins ≠ .iret := by
        rintro rfl
        exact hne hins
      show P.execAt (P.succ^[n] i) (P.run i n c) = _
      rw [ih fun j hj => h j (Nat.lt_succ_of_lt hj), execAt_of hins, Instr.exec_eip hret,
        Instr.exec_eip hret, Listing.path, hins, Option.toList_some, execs_snoc,
        Function.iterate_succ_apply']

end Program

end Lib
