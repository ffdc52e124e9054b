import Xeros.Logic.Aside
import Xeros.Theorems.Carve
import Xeros.Theorems.Creation

/-!
# The stack of a new process

`create` asks for twice the size of the stack, computed modulo `2 ^ 32`, and takes what `kmalloc`
finds by the headers for the block. Whether there is a stack in the memory is a question about the
blocks handed out before, which the kernel does not keep: `lender` is the dispatcher with these
blocks beside it.
-/

namespace Xeros

open Lib

variable {img : Image} {k k' : Kernel} {i : Slot} {fuel : Nat} {fp stack pid b n : Word}
  {h h' heap : Heap} {l : List Word} {given : List Block} {s s' : Lender} {t : Trap}

/-! ## The request -/

/-- The stack that `create` asks for: at least `PROC_STACK`. -/
def stackSize (stack : Word) : Word := if stack.slt procStack then procStack else stack

/-- The size of the block that `kmalloc` looks for. -/
def stackRequest (stack : Word) : Word := paragraphs (stackSize stack * 2)

theorem stackBlock_eq (k : Kernel) (fuel : Nat) (stack : Word) :
    stackBlock k fuel stack = kmalloc k.heap fuel (stackSize stack * 2) := rfl

theorem stackSize_toInt (stack : Word) :
    (stackSize stack).toInt = max stack.toInt procStack.toInt := by
  unfold stackSize
  by_cases h : stack.toInt < procStack.toInt
  · rw [if_pos (show stack.slt procStack = true from decide_eq_true h)]
    exact (max_eq_right (Int.le_of_lt h)).symm
  · rw [if_neg (show ¬ stack.slt procStack = true from fun hs => h (of_decide_eq_true hs))]
    exact (max_eq_left (Int.not_lt.mp h)).symm

/-- The size is a positive number. -/
theorem stackSize_toNat (stack : Word) :
    (stackSize stack).toInt = (stackSize stack).toNat ∧ 20480 ≤ (stackSize stack).toNat := by
  have hproc : procStack.toInt = 20480 := rfl
  have hge : 20480 ≤ (stackSize stack).toInt := stackSize_toInt stack ▸ le_max_right _ _
  have hlt := (stackSize stack).isLt
  rw [BitVec.toInt_eq_toNat_cond] at hge ⊢
  split at hge
  · rename_i hc
    rw [if_pos hc]
    exact ⟨rfl, by omega⟩
  · omega

/-- A size that fits the memory is doubled and rounded up without overflow. -/
theorem stackRequest_ge (hs : (stackSize stack).toNat < 0x400000) :
    (stackSize stack).toNat ≤ (stackRequest stack).toNat := by
  have h2 : (2 : Word).toNat = 2 := rfl
  have hmul : (stackSize stack * 2).toNat = 2 * (stackSize stack).toNat := by
    rw [BitVec.toNat_mul, h2]
    omega
  unfold stackRequest
  rw [toNat_paragraphs, hmul]
  split <;> omega

/-! ## The blocks that were handed out -/

/-- The block that `create` gets for a stack, as far as there is memory for it. -/
def lent (k : Kernel) (fuel : Nat) (stack : Word) : List Block :=
  match freeSlot k, stackBlock k fuel stack with
  | some _, .ok (b, _) => if b = 0 then [] else [realBlock b (stackRequest stack)]
  | _, _ => []

/-- A state of the system with the blocks that `kmalloc` has handed out, latest first. -/
structure Lender where
  d : Disp
  given : List Block

/-- The kernel that a request finds. -/
def Lender.entered (s : Lender) (t : Trap) : Kernel := contextswitch s.d.k s.d.p t

/-- The block that a turn hands out. -/
def Lender.lent (s : Lender) (t : Trap) : List Block :=
  if t.cause.request = .create then
    Xeros.lent (s.entered t) t.ambient.fuel ((s.entered t).arg s.d.p 1)
  else []

/-- A turn of the dispatcher, with the block that it hands out. -/
def Lender.turn (s : Lender) (t : Trap) : Run Lender := do
  return { d := ← Xeros.turn s.d t, given := s.lent t ++ s.given }

/-- The image leaves the room for the two stacks of boot, and for the header of the rest. -/
def Image.FitsBoot (img : Image) : Prop :=
  Block.InMemory img { base := img.start.toNat, size := 2 * 40960 + memHdrSize }

/-- The dispatcher with the blocks handed out. -/
def lender : TSys Lender Trap where
  init s := ∃ img pid k, img.FitsBoot ∧ create (blank img) 2 img.root procStack = .ok (pid, k) ∧
    boot img = .ok s.d ∧ s.given = Xeros.lent k 2 procStack ++ Xeros.lent (blank img) 2 procStack
  step s t s' := s.turn t = .ok s'

theorem Lender.turn_cases (h : s.turn t = .ok s') :
    Xeros.turn s.d t = .ok s'.d ∧ s'.given = s.lent t ++ s.given := by
  simp only [turn, Run.bind_eq_ok, pure, Except.pure, Except.ok.injEq] at h
  obtain ⟨d, hd, rfl⟩ := h
  exact ⟨hd, rfl⟩

/-! ## What `create` does to the allocator -/

/-- If a block is cut for the stack, the rest has the room for its header. -/
def LendsWell (k : Kernel) (fuel : Nat) (stack : Word) : Prop :=
  CanCreate k fuel stack → RestFits k.heap (stackRequest stack)

/-- The first free block that its header says is large enough for the request really has the
bytes of the stack before the end of the memory. -/
def HasRoom (h : Heap) (stack : Word) : Prop :=
  ∀ b, FirstLarge h (stackRequest stack) b →
    b.toNat + (stackSize stack).toNat ≤ memoryEnd b.toNat

/-- `create` hands out a block of the allocator or leaves it alone. -/
theorem create_heap (h : create k fuel fp stack = .ok (pid, k')) : k'.img = k.img ∧
    (k'.heap = k.heap ∧ lent k fuel stack = [] ∨
      CanCreate k fuel stack ∧ ∃ b, b ≠ 0 ∧ stackBlock k fuel stack = .ok (b, k'.heap) ∧
        lent k fuel stack = [realBlock b (stackRequest stack)]) := by
  rcases create_cases h with ⟨k₁, n, hf, h₁, -, rfl⟩ | ⟨i, k₁, n, b, heap, hf, h₁, hb, hend⟩
  · refine ⟨(Rest.remove h₁).img, .inl ⟨(Rest.remove h₁).heap, ?_⟩⟩
    unfold lent
    rw [hf]
  · have himg : ((k₁.upd i fun c => c.renew i).setHeap heap).img = k.img := (Rest.remove h₁).img
    have hb' : stackBlock k fuel stack = .ok (b, heap) := hb
    rcases hend with ⟨rfl, -, rfl⟩ | ⟨hb0, -, hl⟩
    · refine ⟨himg, .inl ⟨?_, ?_⟩⟩
      · rcases (kmalloc_cases hb).2 with ⟨-, rfl⟩ | ⟨h0, -⟩ | ⟨h0, -⟩
        · rfl
        · exact absurd rfl h0
        · exact absurd rfl h0
      · unfold lent
        rw [hf, hb']
        exact if_pos rfl
    · have hk := remote_heap.launch hl
      have hheap : k'.heap = heap := congrArg Prod.fst hk
      refine ⟨(congrArg Prod.snd hk).trans himg, .inr ⟨⟨⟨i, freeSlot_spec hf⟩, b, heap, hb, hb0⟩,
        b, hb0, hheap.symm ▸ hb', ?_⟩⟩
      unfold lent
      rw [hf, hb']
      exact if_neg hb0

/-- A block that leaves a rest with the room for its header is handed out. -/
theorem Carved.create (hc : Carved img k.heap given l) (hw : LendsWell k fuel stack)
    (h : create k fuel fp stack = .ok (pid, k')) :
    ∃ l', Carved img k'.heap (lent k fuel stack ++ given) l' ∧
      ∀ c ∈ l', c ∈ l ∨ ∃ b ∈ l, c = b + stackRequest stack := by
  rcases (create_heap h).2 with ⟨hheap, hlent⟩ | ⟨hcan, b, hb0, hb, hlent⟩
  · rw [hheap, hlent]
    exact ⟨l, hc, fun c hm => .inl hm⟩
  · rw [hlent]
    obtain ⟨l', hc', hl'⟩ := hc.kmalloc (hw hcan) hb hb0
    have hmem := (firstLarge_of_kmalloc hc.free hb hb0).2
    exact ⟨l', hc', fun c hm => (hl' c hm).imp_right fun he => ⟨b, hmem, he⟩⟩

/-! ## Runs -/

/-- Every free block has the room for the stacks of boot that are still to be handed out. -/
theorem restFits_of_boot {m : Nat} (hc : Carved img h given l)
    (hl : ∀ c ∈ l, Block.InMemory img { base := c.toNat, size := 40960 + m + memHdrSize }) :
    RestFits h (stackRequest procStack) := by
  have hreq : (stackRequest procStack).toNat = 40960 := by decide
  intro b hb _
  rw [hreq]
  refine ⟨by decide, ?_⟩
  rcases (hl b (hb.mem hc.free)).cases with ⟨-, hhi, hend⟩ | ⟨-, hhi, hend⟩ <;>
    dsimp only at hhi hend <;> omega

/-- The allocator when the first process starts. -/
theorem carved_boot {d : Disp} (hf : img.FitsBoot)
    (h₁ : create (blank img) 2 img.root procStack = .ok (pid, k)) (hb : boot img = .ok d) :
    d.k.img = img ∧
      ∃ l, Carved img d.k.heap (lent k 2 procStack ++ lent (blank img) 2 procStack) l := by
  have h12 : memHdrSize = 12 := rfl
  have hreq : (stackRequest procStack).toNat = 40960 := by decide
  have hc₀ : Carved img (blank img).heap [] [img.start, holeEnd] :=
    .kmeminit img (dispatchinit img).heap.hdr
  have hl₀ : ∀ c ∈ [img.start, holeEnd],
      Block.InMemory img { base := c.toNat, size := 40960 + 40960 + memHdrSize } := by
    intro c hm
    rcases List.mem_pair.mp hm with rfl | rfl
    · exact hf
    · exact .high (by decide) (by decide)
  obtain ⟨l₁, hc₁, hsub⟩ := hc₀.create (fun _ => restFits_of_boot hc₀ hl₀) h₁
  rw [List.append_nil] at hc₁
  have hl₁ : ∀ c ∈ l₁, Block.InMemory img { base := c.toNat, size := 40960 + 0 + memHdrSize } := by
    intro c hm
    rcases hsub c hm with hold | ⟨b, hold, rfl⟩
    · exact (hl₀ c hold).part (Nat.le_refl c.toNat) (by dsimp only; omega)
    · have hb := hl₀ b hold
      have hsum : (b + stackRequest procStack).toNat = b.toNat + 40960 := by
        rw [BitVec.toNat_add, hreq]
        rcases hb.cases with ⟨-, hhi, -⟩ | ⟨-, hhi, -⟩ <;> dsimp only at hhi <;> omega
      rw [hsum]
      exact hb.part (Nat.le_add_right b.toNat 40960) (by dsimp only; omega)
  simp only [boot, initproc, Run.bind_eq_ok, pure, Except.pure, Except.ok.injEq] at hb
  obtain ⟨k₀, ⟨⟨pid₁, k₁⟩, h₁', ⟨pid₂, k₂⟩, h₂, rfl⟩, ⟨k₃, p⟩, h₃, rfl⟩ := hb
  obtain ⟨rfl, rfl⟩ : pid₁ = pid ∧ k₁ = k := Prod.mk.inj (Except.ok.inj (h₁'.symm.trans h₁))
  obtain ⟨l₂, hc₂, -⟩ := hc₁.create (fun _ => restFits_of_boot hc₁ hl₁) h₂
  have hnext : (k₃.heap, k₃.img) = ((k₂.setIdle pid₂).heap, (k₂.setIdle pid₂).img) :=
    remote_heap.rest (Rest.next h₃)
  have hkeep := (remote_heap.loopTop k₃ p).trans hnext
  have himg : k₂.img = img := (create_heap h₂).1.trans (create_heap h₁).1
  dsimp only
  refine ⟨(congrArg Prod.snd hkeep).trans himg, l₂, ?_⟩
  rw [show (loopTop k₃ p).k.heap = k₂.heap from congrArg Prod.fst hkeep]
  exact hc₂

/-- A turn whose `create` leaves room for the header of the rest. -/
def StepLendsWell (s : Lender) (t : Trap) : Prop :=
  t.cause.request = .create →
    LendsWell (s.entered t) t.ambient.fuel ((s.entered t).arg s.d.p 1)

/-- A turn hands out a block of the allocator at most. -/
theorem Carved.turn (hc : Carved s.d.k.img s.d.k.heap s.given l) (hw : StepLendsWell s t)
    (h : s.turn t = .ok s') : ∃ l', Carved s'.d.k.img s'.d.k.heap s'.given l' := by
  obtain ⟨hturn, hgiven⟩ := Lender.turn_cases h
  simp only [Xeros.turn, Run.bind_eq_ok, pure, Except.pure, Except.ok.injEq] at hturn
  obtain ⟨⟨k₂, p₂⟩, hserve, hd⟩ := hturn
  have htop := remote_heap.loopTop k₂ p₂
  rw [hd] at htop
  have hheap : s'.d.k.heap = k₂.heap := congrArg Prod.fst htop
  have himg : s'.d.k.img = k₂.img := congrArg Prod.snd htop
  rw [hheap, himg, hgiven]
  unfold Lender.lent
  by_cases hreq : t.cause.request = .create
  · rw [if_pos hreq]
    rw [hreq] at hserve
    cases serve_cases hserve with
    | create h₁ =>
        obtain ⟨pid, k₁, hcreate, rfl⟩ := sysCreate_cases h₁
        have himg₁ : k₁.img = s.d.k.img := (create_heap hcreate).1
        obtain ⟨l', hc', -⟩ := Carved.create (k := s.entered t) hc (hw hreq) hcreate
        exact ⟨l', himg₁.symm ▸ hc'⟩
  · rw [if_neg hreq]
    have hkeep := remote_heap.serve hserve hreq
    rw [show k₂.heap = s.d.k.heap from congrArg Prod.fst hkeep,
      show k₂.img = s.d.k.img from congrArg Prod.snd hkeep]
    exact ⟨l, hc⟩

/-- In every run of this kind the blocks handed out lie in the memory and have no byte in
common. -/
theorem carved_of_reachable (hs : lender.ReachableUnder StepLendsWell s) :
    ∃ l, Carved s.d.k.img s.d.k.heap s.given l := by
  have hinv : lender.Inductive StepLendsWell
      fun s => ∃ l, Carved s.d.k.img s.d.k.heap s.given l := by
    constructor
    · rintro s ⟨img, pid, k, hf, h₁, hb, hgiven⟩
      obtain ⟨himg, l, hc⟩ := carved_boot hf h₁ hb
      rw [himg, hgiven]
      exact ⟨l, hc⟩
    · rintro s t s' ⟨l, hc⟩ hw h
      exact hc.turn hw h
  exact hinv.holds hs

/-- The allocator that the next request finds. -/
theorem carved_entered (hs : lender.ReachableUnder StepLendsWell s) (t : Trap) :
    ∃ l, Carved (s.entered t).img (s.entered t).heap s.given l := carved_of_reachable hs

/-! ## The stack -/

/-- The process in slot `i` has a real stack at `b`: there are as many bytes as it asked for, in
the memory and apart from every block handed out before, and its first context, the return
address above it and its `esp` lie in them. -/
structure RealStack (img : Image) (given : List Block) (k' : Kernel) (i : Slot)
    (stack b : Word) : Prop where
  size : max stack.toInt procStack.toInt ≤ (realBlock b (stackRequest stack)).size
  inside : (realBlock b (stackRequest stack)).InMemory img
  apart : ∀ g ∈ given, (realBlock b (stackRequest stack)).Apart g
  frame : ∀ x, InRange (k'.proctab i).esp 44 x →
    InRange b (realBlock b (stackRequest stack)).size x
  slot : ∀ x, InRange ((k'.proctab i).esp + 44) 4 x →
    InRange b (realBlock b (stackRequest stack)).size x
  esp : InRange b (realBlock b (stackRequest stack)).size (k'.proctab i).esp

/-- The context at the end of a stack of `m` bytes, the return address above it and its address
lie in these. -/
theorem context_inside {m : Nat} {e : Word} (he : e = b + stackSize stack - 4 - 44)
    (hm : (stackSize stack).toNat ≤ m) (hlt : (stackSize stack).toNat < 0x400000) :
    (∀ x, InRange e 44 x → InRange b m x) ∧ (∀ x, InRange (e + 44) 4 x → InRange b m x) ∧
      InRange b m e := by
  obtain ⟨-, hge⟩ := stackSize_toNat stack
  generalize stackSize stack = s at *
  -- the context begins 48 bytes below the end of the stack
  have hcf : b + s - 4 - 44 = b + (s - 48) := by bv_omega
  have hoff : (s - 48).toNat = s.toNat - 48 := by bv_omega
  have hslot : b + (s - 48) + 44 = b + (s - 4) := by bv_omega
  have hoff' : (s - 4).toNat = s.toNat - 4 := by bv_omega
  rw [he, hcf, hslot]
  refine ⟨fun x hx => hx.of_part (by omega), fun x hx => hx.of_part (by omega), ?_⟩
  unfold InRange
  bv_omega

/-- After any run in which the rest of every block that `create` cut had the room for its header,
a process that `create` starts has a real stack if and only if the block found has the bytes for
it, or `create` fails because it has no slot or no block. -/
theorem created_stack_iff (hs : lender.ReachableUnder StepLendsWell s)
    (h : create (s.entered t) fuel fp stack = .ok (pid, k')) :
    (pid ≠ -1 → ∃ i b heap, freeSlot (s.entered t) = some i ∧ pid = (k'.proctab i).pid ∧
      stackBlock (s.entered t) fuel stack = .ok (b, heap) ∧ b ≠ 0 ∧
      k'.mem = startContext (s.entered t).mem (s.entered t).img (k'.proctab i).esp fp ∧
      RealStack (s.entered t).img s.given k' i stack b) ↔
    (CanCreate (s.entered t) fuel stack → HasRoom (s.entered t).heap stack) := by
  obtain ⟨l, hc⟩ := carved_entered hs t
  obtain ⟨hsi, hge⟩ := stackSize_toNat stack
  generalize s.entered t = k at h hc ⊢
  constructor
  · intro hreal hcan b' hb'
    obtain ⟨i, b, heap, -, -, hb, hb0, -, hstack⟩ :=
      hreal fun hpid => (create_fails_iff h).mp hpid hcan
    obtain rfl := hb'.unique (firstLarge_of_kmalloc hc.free hb hb0).1
    have hsize := hstack.size
    rw [← stackSize_toInt, hsi, realBlock] at hsize
    dsimp only at hsize
    omega
  · intro hroom hpid
    rcases create_cases h with ⟨-, -, -, -, rfl, -⟩ | ⟨i, k₁, n, b, heap, hf, h₁, hb, hend⟩
    · exact absurd rfl hpid
    rcases hend with ⟨-, rfl, -⟩ | ⟨hb0, hp, hl⟩
    · exact absurd rfl hpid
    obtain ⟨hesp, hmem⟩ := launch_context hl
    obtain ⟨hfirst, hbl⟩ := firstLarge_of_kmalloc hc.free hb hb0
    have hend := hroom ⟨⟨i, freeSlot_spec hf⟩, b, heap, hb, hb0⟩ b hfirst
    have hlt : (stackSize stack).toNat < 0x400000 := by
      rcases (hc.header b hbl).cases with ⟨hlo, -, he⟩ | ⟨hlo, -, he⟩ <;> dsimp only at hlo he
      · omega
      · omega
    have hsize : (stackSize stack).toNat ≤ (realBlock b (stackRequest stack)).size := by
      have hn := stackRequest_ge hlt
      simp only [realBlock]
      omega
    have hrest := Rest.remove h₁
    obtain ⟨h₂, h₃, h₄⟩ := context_inside hesp hsize hlt
    refine ⟨i, b, heap, hf, hp, hb, hb0, ?_, ?_, (hc.header b hbl).real _,
      hc.apart_real hbl _, h₂, h₃, h₄⟩
    · rw [hmem, hesp, Kernel.setHeap_mem, Kernel.upd_mem, Kernel.setHeap_img, Kernel.upd_img,
        hrest.mem, hrest.img]
    · rw [← stackSize_toInt, hsi]
      exact Int.ofNat_le.mpr hsize

/-! ## Two large stacks -/

/-- The sample machine when its root process starts, with the two stacks of boot. -/
def lentBoot : Lender :=
  let k := ((create (blank sampleImage) 2 sampleImage.root procStack).getD
    (0, blank sampleImage)).2
  { d := sampleBoot, given := lent k 2 procStack ++ lent (blank sampleImage) 2 procStack }

/-- A call that creates a process with a stack of the given size. -/
def sampleCreate (stack : Word) : Trap := sampleCall .create [0x1400, stack]

/-- The root process has created a process with a stack of a megabyte. -/
def lentLarge : Lender := (lentBoot.turn (sampleCreate 0x100000)).getD lentBoot

theorem lentLarge_reachable : lender.ReachableUnder StepLendsWell lentLarge := by
  have hboot : lender.init lentBoot := by
    refine ⟨sampleImage, _, _, .inl ⟨Nat.le_refl _, by decide⟩,
      Run.eq_getD (s := (0, blank sampleImage)) (by decide +kernel),
      Run.eq_getD (s := ⟨dispatchinit sampleImage, 0⟩) (by decide +kernel), rfl⟩
  have hreach : lender.ReachableUnder StepLendsWell lentBoot := ⟨_, hboot, .refl⟩
  refine hreach.tail (fun _ _ => ?_) (Run.eq_getD (by decide +kernel))
  have harg : (lentBoot.entered (sampleCreate 0x100000)).arg lentBoot.d.p 1 = 0x100000 := by
    decide +kernel
  rw [harg]
  obtain ⟨l, hc⟩ := carved_entered hreach (sampleCreate 0x100000)
  have hk : stackBlock (lentBoot.entered (sampleCreate 0x100000)) 100 0x100000
      = .ok ((stackBlock (lentBoot.entered (sampleCreate 0x100000)) 100 0x100000).getD
        (0, lentBoot.d.k.heap)) := Run.eq_getD (by decide +kernel)
  exact restFits_of_kmalloc hc.free hk (by decide +kernel) (by decide +kernel)

/-- A process with a stack of the usual size, which is cut from the memory below the hole. -/
theorem created_stack_iff_of_large : lentLarge.given.length = 3 ∧
    ∃ pid k', create (lentLarge.entered (sampleCreate 0)) 10 0x1400 0 = .ok (pid, k') ∧
      pid ≠ -1 ∧ ∃ i b, pid = (k'.proctab i).pid ∧
        RealStack (lentLarge.entered (sampleCreate 0)).img lentLarge.given k' i 0 b := by
  have hok : create (lentLarge.entered (sampleCreate 0)) 10 0x1400 0
      = .ok ((create (lentLarge.entered (sampleCreate 0)) 10 0x1400 0).getD
        (0, lentLarge.entered (sampleCreate 0))) := Run.eq_getD (by decide +kernel)
  have hpid : ((create (lentLarge.entered (sampleCreate 0)) 10 0x1400 0).getD
      (0, lentLarge.entered (sampleCreate 0))).1 ≠ -1 := by decide +kernel
  obtain ⟨l, hc⟩ := carved_entered lentLarge_reachable (sampleCreate 0)
  have hk : stackBlock (lentLarge.entered (sampleCreate 0)) 10 0
      = .ok ((stackBlock (lentLarge.entered (sampleCreate 0)) 10 0).getD
        (0, lentLarge.d.k.heap)) := Run.eq_getD (by decide +kernel)
  have hroom : HasRoom (lentLarge.entered (sampleCreate 0)).heap 0 := by
    intro b hb
    obtain rfl := hb.unique (firstLarge_of_kmalloc hc.free hk (by decide +kernel)).1
    decide +kernel
  obtain ⟨i, b, heap, -, hp, -, -, -, hstack⟩ :=
    (created_stack_iff lentLarge_reachable hok).mpr (fun _ => hroom) hpid
  exact ⟨by decide +kernel, _, _, hok, hpid, i, b, hp, hstack⟩

/-- Of two stacks of a megabyte the second one begins in the last 424 kilobytes of the memory. -/
theorem created_without_stack : ¬ ∀ (s : Lender) (t : Trap) (fuel : Nat) (fp stack pid : Word)
    (k' : Kernel), lender.Reachable s → create (s.entered t) fuel fp stack = .ok (pid, k') →
    pid ≠ -1 → ∃ i b heap, pid = (k'.proctab i).pid ∧
      stackBlock (s.entered t) fuel stack = .ok (b, heap) ∧
      max stack.toInt procStack.toInt ≤ (realBlock b (stackRequest stack)).size := by
  intro h
  have hok : create (lentLarge.entered (sampleCreate 0x100000)) 10 0x1400 0x100000
      = .ok ((create (lentLarge.entered (sampleCreate 0x100000)) 10 0x1400 0x100000).getD
        (0, lentLarge.entered (sampleCreate 0x100000))) := Run.eq_getD (by decide +kernel)
  have hblock : ((stackBlock (lentLarge.entered (sampleCreate 0x100000)) 10 0x100000).getD
      (0, lentLarge.d.k.heap)).1 = 0x396000 := by decide +kernel
  obtain ⟨i, b, heap, -, hb, hsize⟩ := h lentLarge (sampleCreate 0x100000) 10 0x1400 0x100000 _ _
    lentLarge_reachable.reachable hok (by decide +kernel)
  rw [hb] at hblock
  obtain rfl : b = 0x396000 := hblock
  exact absurd hsize (by decide)

end Xeros
