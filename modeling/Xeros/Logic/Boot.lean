import Xeros.Logic.Turn

/-!
# The state when the first process starts

`initproc` creates the root process and the idle process from an empty kernel;
the root process is the first to run and the idle process waits in the ready
queue. The idle process was put there because its pid was noted only after it
had been created.
-/

namespace Xeros

open Lib

variable {k : Kernel}

/-! ## The allocator at boot -/

/-- Masking out the low bits of a number beyond them leaves something. -/
theorem and_not_ne_zero {x m : Word} (h : m < x) : x &&& ~~~m ≠ 0 := by
  intro h0
  have hx : x = x &&& m := by
    calc x = (x &&& m) ||| (x &&& ~~~m) := by
          ext i
          cases hm : m[i] <;> simp [hm]
      _ = x &&& m := by simp [h0]
  have hle : (x &&& m).toNat ≤ m.toNat := by
    rw [BitVec.toNat_and]
    exact Nat.and_le_right
  rw [← hx] at hle
  exact absurd (BitVec.lt_def.mp h) (by omega)

@[simp] theorem Heap.upd_hdr_self (h : Heap) (a : Word) (f : MemHdr → MemHdr) :
    (h.upd a f).hdr a = f (h.hdr a) := by simp [upd]

@[simp] theorem Heap.upd_hdr_ne (h : Heap) {a b : Word} (f : MemHdr → MemHdr) (hb : b ≠ a) :
    (h.upd a f).hdr b = h.hdr b := by simp [upd, hb]

@[simp] theorem Heap.upd_head (h : Heap) (a : Word) (f : MemHdr → MemHdr) :
    (h.upd a f).head = h.head := rfl

/-- The first block is cut when it is large enough, and the rest becomes the
first block. -/
theorem kmalloc_head {h : Heap} (fuel : Nat) (size : Word) (hal : size &&& 0xf = 0)
    (h0 : h.head ≠ 0) (hprev : (h.hdr h.head).prev = 0)
    (hnext : (h.hdr h.head).next ≠ h.head + size) (hloop : (h.hdr h.head).next ≠ h.head)
    (hsize : ¬ (h.hdr h.head).size.slt size)
    (hrest : ¬ ((h.hdr h.head).size - size).toNat < memHdrSize) :
    ∃ h', kmalloc h (fuel + 1) size = .ok (h.head, h') ∧ h'.head = h.head + size
      ∧ h'.hdr (h.head + size) = h.hdr h.head := by
  have hfind : findBlock h size (fuel + 1) h.head = .ok h.head := by
    simp [findBlock, hsize, pure, Except.pure]
  have hcut : (h.upd (h.head + size) fun _ => h.hdr h.head).hdr h.head = h.hdr h.head := by
    by_cases hr : h.head = h.head + size
    · rw [← hr]
      simp
    · simp [hr]
  unfold kmalloc
  simp only [hal, ne_eq, not_true_eq_false, if_false, hfind, bind, Except.bind, h0, hrest,
    pure, Except.pure, hcut, Except.ok.injEq, Prod.mk.injEq, true_and]
  refine ⟨_, rfl, ?_, ?_⟩ <;> by_cases hn : (h.hdr h.head).next = 0#32
  · simp [hn, hcut, hprev]
  · simp [hn, Ne.symm hloop, hcut, hprev]
  · simp [hn, hcut, hprev]
  · simp [hn, Ne.symm hloop, hcut, hprev, Ne.symm hnext]

/-! ## The state when the first process starts -/

/-- The state that `boot` ends in, as far as it does not depend on the image. -/
structure Booted (s : Disp) : Prop where
  p : s.p = 1
  pid : ∀ q, (s.k.proctab q).pid = if q = 1 then 1 else if q = 2 then 2 else 0
  state : ∀ q, (s.k.proctab q).state =
    if q = 1 then .running else if q = 2 then .ready else .stopped
  next : ∀ q, (s.k.proctab q).next = none
  sigPending : ∀ q, (s.k.proctab q).sigPending = 0
  sigAllow : ∀ q, (s.k.proctab q).sigAllow = 0
  sigPriority : ∀ q, (s.k.proctab q).sigPriority = if q = 1 ∨ q = 2 then -1 else 0
  head : s.k.head = some 2
  tail : s.k.tail = some 2
  running : s.k.running = some 1
  blockedQ : s.k.blockedQ = none
  deadQ : s.k.deadQ = none
  headsleeper : s.k.headsleeper = none
  reader : s.k.kbd.reader = none
  applbuffer : s.k.kbd.applbuffer = 0
  idle : s.k.idleprocPid = 2

/-- `create` while `dead_q` is empty and the allocator has a block. -/
theorem create_eq (fuel : Nat) (fp stack : Word) {b : Word} {i : Slot} {h : Heap}
    (hdead : k.deadQ = none) (hfree : freeSlot k = some i)
    (hmalloc : kmalloc k.heap (fuel + 1)
      ((if stack.slt procStack then procStack else stack) * 2) = .ok (b, h)) (hb : b ≠ 0) :
    ∃ cf m, create k (fuel + 1) fp stack = .ok (nextPid (k.proctab i).pid i.val,
      readied ((((k.upd i fun c => c.renew i).setHeap h).setMem m).upd i
        fun c => c.start cf) i) := by
  obtain ⟨hi, -⟩ := freeSlot_spec hfree
  have hrem : remove k (fuel + 1) (some .deadQ) (BitVec.ofNat 32 i.val) = .ok (k, -1) := by
    simp [remove, QRef.get, hdead, removeLoop, pure, Except.pure]
  generalize hcf : b + (if stack.slt procStack then procStack else stack) - 4 - 44 = cf
  refine ⟨cf, startContext k.mem k.img cf fp, ?_⟩
  have hu : ((((k.upd i fun c => c.renew i).setHeap h).setMem
      (startContext k.mem k.img cf fp)).upd i fun c => c.start cf).Used i := by
    refine ⟨hi, ?_⟩
    simpa using nextPid_used (k.proctab i).pid i
  have hpid : ((readied ((((k.upd i fun c => c.renew i).setHeap h).setMem
      (startContext k.mem k.img cf fp)).upd i fun c => c.start cf) i).proctab i).pid
        = nextPid (k.proctab i).pid i.val := by
    rw [readied_pid]
    simp
  unfold create
  simp only [hfree, hrem, hmalloc, bind, Except.bind, Kernel.upd_heap, if_neg hb, launch, hcf,
    Kernel.setHeap_mem, Kernel.upd_mem, Kernel.setHeap_img, Kernel.upd_img, ready_of_used hu,
    pure, Except.pure, hpid]

/-- The first block starts below the hole. -/
theorem kmeminit_head (img : Image) (hdr : Word → MemHdr) :
    (kmeminit img.freemem hdr).head ≠ 0
      ∧ (kmeminit img.freemem hdr).head.toNat < 0x90010 := by
  have hf := img.freemem_lt
  have h16 : (0x10 : Word).toNat = 0x10 := by decide
  have h15 : (0xf : Word).toNat = 0xf := by decide
  have hadd : (img.freemem + 0x10).toNat = img.freemem.toNat + 0x10 := by
    rw [BitVec.toNat_add]
    omega
  constructor
  · refine and_not_ne_zero ?_
    rw [BitVec.lt_def, hadd]
    omega
  · have hle : ((img.freemem + 0x10) &&& paragraphMask).toNat ≤ (img.freemem + 0x10).toNat := by
      rw [BitVec.toNat_and]
      exact Nat.and_le_left
    calc (kmeminit img.freemem hdr).head.toNat
        = ((img.freemem + 0x10) &&& paragraphMask).toNat := rfl
      _ ≤ (img.freemem + 0x10).toNat := hle
      _ < 0x90010 := by omega

/-- The size of a boot-time stack fits the first block. -/
theorem boot_block {s : Word} (hs : s.toNat < 0x90010) :
    ¬ (holeStart - s).slt (procStack * 2) ∧
      ¬ ((holeStart - s) - procStack * 2).toNat < memHdrSize := by
  have h0 : holeStart.toNat = 0xA0000 := by decide
  have h1 : (holeStart - s).toNat = 0xA0000 - s.toNat := by
    rw [BitVec.toNat_sub]
    omega
  constructor
  · rw [BitVec.slt, decide_eq_true_eq, BitVec.toInt_eq_toNat_of_lt (by omega), h1]
    have : (procStack * 2).toInt = 40960 := by decide
    omega
  · rw [BitVec.toNat_sub, h1]
    have : (procStack * 2).toNat = 40960 := by decide
    have : memHdrSize = 12 := rfl
    omega

/-- Both allocations of `initproc` succeed. -/
theorem boot_kmalloc (img : Image) (hdr : Word → MemHdr) :
    ∃ b₁ h₁ b₂ h₂, b₁ ≠ 0 ∧ b₂ ≠ 0
      ∧ kmalloc (kmeminit img.freemem hdr) 2 (procStack * 2) = .ok (b₁, h₁)
      ∧ kmalloc h₁ 2 (procStack * 2) = .ok (b₂, h₂) := by
  obtain ⟨h0, hlt⟩ := kmeminit_head img hdr
  generalize hs : (kmeminit img.freemem hdr).head = s at h0 hlt
  have hne : s ≠ holeEnd := by
    rintro rfl
    revert hlt
    decide
  have hhdr : (kmeminit img.freemem hdr).hdr s
      = { next := holeEnd, prev := 0, size := holeStart - s } := by
    have hs' : (img.freemem + 0x10) &&& paragraphMask = s := hs
    unfold kmeminit
    simp only [hs', Heap.upd_hdr_ne _ _ hne, Heap.upd_hdr_self]
  have hr : (s + procStack * 2).toNat = s.toNat + 40960 := by
    have : (procStack * 2).toNat = 40960 := by decide
    rw [BitVec.toNat_add]
    omega
  have hr0 : s + procStack * 2 ≠ 0 := by
    intro h
    rw [h] at hr
    simp at hr
  have hend : holeEnd.toNat = 0x196000 := by decide
  have hrn : holeEnd ≠ s + procStack * 2 := by
    intro h
    rw [← h] at hr
    omega
  obtain ⟨hbig, hrest⟩ := boot_block hlt
  obtain ⟨h₁, hk₁, hh₁, hd₁⟩ := kmalloc_head (h := kmeminit img.freemem hdr) 1
    (procStack * 2) (by decide) (hs ▸ h0) (by rw [hs, hhdr])
    (by rw [hs, hhdr]; exact hrn) (by rw [hs, hhdr]; exact Ne.symm hne)
    (by rw [hs, hhdr]; exact hbig) (by rw [hs, hhdr]; exact hrest)
  rw [hs] at hh₁ hd₁ hk₁
  rw [hhdr] at hd₁
  have hrn' : holeEnd ≠ s + procStack * 2 + procStack * 2 := by
    intro h
    have : (s + procStack * 2 + procStack * 2).toNat = s.toNat + 81920 := by
      have : (procStack * 2).toNat = 40960 := by decide
      rw [BitVec.toNat_add, hr]
      omega
    rw [← h] at this
    omega
  obtain ⟨h₂, hk₂, -, -⟩ := kmalloc_head (h := h₁) 1
    (procStack * 2) (by decide) (hh₁ ▸ hr0) (by rw [hh₁, hd₁])
    (by rw [hh₁, hd₁]; exact hrn') (by rw [hh₁, hd₁]; exact hrn)
    (by rw [hh₁, hd₁]; exact hbig) (by rw [hh₁, hd₁]; exact hrest)
  exact ⟨s, h₁, _, h₂, h0, hh₁ ▸ hr0, hk₁, hk₂⟩

/-- `create` takes the first slot that is not in use. -/
theorem freeSlot_eq {i : Slot} (hi : i ≠ 0) (hst : (k.proctab i).state = .stopped)
    (hlow : ∀ j, j < i → j ≠ 0 →
      (k.proctab j).state ≠ .stopped ∧ (k.proctab j).state ≠ .dead) :
    freeSlot k = some i := by
  unfold freeSlot
  rw [List.find?_eq_some_iff_getElem]
  refine ⟨by simp [hi, hst], i.val, by simp, by simp, ?_⟩
  intro j hj
  have hjl : (⟨j, by omega⟩ : Slot) < i := hj
  by_cases h0 : (⟨j, by omega⟩ : Slot) = 0
  · simp [h0]
  · have := hlow _ hjl h0
    simp [this.1, this.2]

/-- The kernel handed to the first `create`. -/
def blank (img : Image) : Kernel :=
  deviceinit ((dispatchinit img).setHeap (kmeminit img.freemem (dispatchinit img).heap.hdr))

/-- The kernel that `initproc` hands to `dispatch`, as far as it does not depend
on the image. -/
structure Initialised (k : Kernel) : Prop where
  pid : ∀ q, (k.proctab q).pid = if q = 1 then 1 else if q = 2 then 2 else 0
  state : ∀ q, (k.proctab q).state = if q = 1 ∨ q = 2 then .ready else .stopped
  next : ∀ q, (k.proctab q).next = if q = 1 then some 2 else none
  sigPending : ∀ q, (k.proctab q).sigPending = 0
  sigAllow : ∀ q, (k.proctab q).sigAllow = 0
  sigPriority : ∀ q, (k.proctab q).sigPriority = if q = 1 ∨ q = 2 then -1 else 0
  head : k.head = some 1
  tail : k.tail = some 2
  running : k.running = none
  blockedQ : k.blockedQ = none
  deadQ : k.deadQ = none
  headsleeper : k.headsleeper = none
  reader : k.kbd.reader = none
  applbuffer : k.kbd.applbuffer = 0
  idle : k.idleprocPid = 2

/-- The kernel once the root process has been created. -/
def rootMade (img : Image) (h : Heap) (m : Bytes) (cf : Word) : Kernel :=
  (((((((blank img).upd 1 fun c => c.renew 1).setHeap h).setMem m).upd 1
    fun c => ((c.start cf).setNext none).setState .ready)).setHead (some 1)).setTail (some 1)

/-- The idle process is behind it. -/
def idleMade (k : Kernel) (h : Heap) (m : Bytes) (cf : Word) : Kernel :=
  ((((((k.upd 2 fun c => c.renew 2).setHeap h).setMem m).upd 2
    fun c => ((c.start cf).setNext none).setState .ready)).upd 1
      fun c => c.setNext (some 2)).setTail (some 2)

theorem create_root (img : Image) {b : Word} {h : Heap}
    (hm : kmalloc (blank img).heap 2 (procStack * 2) = .ok (b, h)) (hb : b ≠ 0) :
    ∃ cf m, create (blank img) 2 img.root procStack = .ok (1, rootMade img h m cf) := by
  have hfree : freeSlot (blank img) = some 1 := by
    refine freeSlot_eq (by decide) rfl fun j hj hj0 => ?_
    exact absurd (Fin.ext (Nat.lt_one_iff.mp hj)) hj0
  obtain ⟨cf, m, hc⟩ := create_eq (k := blank img) 1 img.root procStack rfl hfree hm hb
  refine ⟨cf, m, hc.trans ?_⟩
  have hpid : nextPid ((blank img).proctab 1).pid (1 : Slot).val = 1 := by
    show nextPid 0 1 = 1
    decide
  have hready : readied (((((blank img).upd 1 fun c => c.renew 1).setHeap h).setMem m).upd 1
      fun c => c.start cf) 1 = rootMade img h m cf := by
    unfold readied enqueue
    dsimp only
    rw [if_neg, upd_upd]
    · rfl
    · show ¬ nextPid 0 1 = 0
      decide
  rw [hpid, hready]

theorem rootMade_state {img : Image} {h : Heap} {m : Bytes} {cf : Word} (q : Slot) :
    ((rootMade img h m cf).proctab q).state = if q = 1 then .ready else .stopped := by
  unfold rootMade
  by_cases hq : q = 1
  · subst hq
    simp
  · simp [hq]
    rfl

theorem create_idle (img : Image) {b : Word} {h h' : Heap} {m : Bytes} {cf : Word}
    (hm : kmalloc h 2 (procStack * 2) = .ok (b, h')) (hb : b ≠ 0) :
    ∃ cf' m', create (rootMade img h m cf) 2 img.idleproc procStack
      = .ok (2, idleMade (rootMade img h m cf) h' m' cf') := by
  have hfree : freeSlot (rootMade img h m cf) = some 2 := by
    refine freeSlot_eq (by decide) (rootMade_state 2) fun j hj hj0 => ?_
    have hone : j = 1 := Fin.ext (by
      have h1 : j.val < 2 := hj
      have h2 : j.val ≠ 0 := fun h => hj0 (Fin.ext h)
      show j.val = 1
      omega)
    subst hone
    rw [rootMade_state]
    decide
  obtain ⟨cf', m', hc⟩ := create_eq (k := rootMade img h m cf) 1 img.idleproc procStack rfl hfree
    hm hb
  refine ⟨cf', m', hc.trans ?_⟩
  have hpid : nextPid ((rootMade img h m cf).proctab 2).pid (2 : Slot).val = 2 := by
    show nextPid 0 2 = 2
    decide
  have hready : readied (((((rootMade img h m cf).upd 2 fun c => c.renew 2).setHeap h').setMem
      m').upd 2 fun c => c.start cf') 2 = idleMade (rootMade img h m cf) h' m' cf' := by
    unfold readied enqueue
    dsimp only
    rw [if_neg, upd_upd]
    · rfl
    · show ¬ nextPid 0 2 = 0
      decide
  rw [hpid, hready]

theorem idleMade_initialised (img : Image) (h h' : Heap) (m m' : Bytes) (cf cf' : Word) :
    Initialised ((idleMade (rootMade img h m cf) h' m' cf').setIdle 2) := by
  have hfields : ∀ q, ∀ c, c = (idleMade (rootMade img h m cf) h' m' cf').proctab q →
      c.pid = (if q = 1 then 1 else if q = 2 then 2 else 0) ∧
      c.state = (if q = 1 ∨ q = 2 then .ready else .stopped) ∧
      c.next = (if q = 1 then some 2 else none) ∧ c.sigPending = 0 ∧ c.sigAllow = 0 ∧
      c.sigPriority = (if q = 1 ∨ q = 2 then -1 else 0) := by
    rintro q c rfl
    unfold idleMade rootMade
    by_cases h1 : q = 1
    · subst h1
      exact ⟨by show nextPid 0 1 = 1; decide, rfl, rfl, rfl, rfl, rfl⟩
    by_cases h2 : q = 2
    · subst h2
      exact ⟨by show nextPid 0 2 = 2; decide, rfl, rfl, rfl, rfl, rfl⟩
    · simp [h1, h2]
      exact ⟨rfl, rfl, rfl, rfl, rfl, rfl⟩
  exact
    { pid := fun q => (hfields q _ rfl).1
      state := fun q => (hfields q _ rfl).2.1
      next := fun q => (hfields q _ rfl).2.2.1
      sigPending := fun q => (hfields q _ rfl).2.2.2.1
      sigAllow := fun q => (hfields q _ rfl).2.2.2.2.1
      sigPriority := fun q => (hfields q _ rfl).2.2.2.2.2
      head := rfl
      tail := rfl
      running := rfl
      blockedQ := rfl
      deadQ := rfl
      headsleeper := rfl
      reader := rfl
      applbuffer := rfl
      idle := rfl }

/-- Both processes are created. -/
theorem initproc_initialised (img : Image) : ∃ k, initproc img = .ok k ∧ Initialised k := by
  obtain ⟨b₁, h₁, b₂, h₂, hb₁, hb₂, hm₁, hm₂⟩ := boot_kmalloc img (dispatchinit img).heap.hdr
  obtain ⟨cf₁, m₁, hc₁⟩ := create_root img hm₁ hb₁
  obtain ⟨cf₂, m₂, hc₂⟩ := @create_idle img b₂ h₁ h₂ m₁ cf₁ hm₂ hb₂
  refine ⟨_, ?_, idleMade_initialised img h₁ h₂ m₁ m₂ cf₁ cf₂⟩
  show (create (blank img) (1 + 1) img.root procStack >>= _) = _
  rw [hc₁]
  show (create (rootMade img h₁ m₁ cf₁) (1 + 1) img.idleproc procStack >>= _) = _
  rw [hc₂]
  rfl

/-- `next` takes the root process. The idle process stays in the queue; `running` is null and
may be written through. -/
theorem Initialised.next_eq {k : Kernel} (hk : Initialised k) : ∃ n, Xeros.next k =
    .ok ({ (k.setHead (some 2)).upd 1 (fun c => c.setNext none) with nullPcb := n }, 1) := by
  have hpid₁ : (k.proctab 1).pid = 1 := hk.pid 1
  have hn : Xeros.next k = .ok (choose (takeHead k 1) 1) := by
    have hpid : (k.proctab 1).pid = (k.proctab (slotOf (k.proctab 1).pid)).pid := by
      rw [hpid₁]
      exact hpid₁.symm
    have hst : (k.proctab 1).state = .ready := hk.state 1
    unfold Xeros.next
    rw [hk.head]
    simp only [kassert, ← hpid, hst, if_true, bind, Except.bind, pure, Except.pure]
  have ht : takeHead k 1 = (k.setHead (some 2)).upd 1 fun c => c.setNext none := by
    have hnext : (k.proctab 1).next = some 2 := hk.next 1
    unfold takeHead
    simp [hnext]
  have hpid : ((takeHead k 1).proctab 1).pid ≠ (takeHead k 1).idleprocPid := by
    rw [ht]
    simp [hpid₁, hk.idle]
  have hrun : (takeHead k 1).running = none := by
    rw [ht]
    exact hk.running
  rw [hn, ← ht]
  unfold choose
  rw [if_neg hpid, hrun]
  dsimp only
  split
  · exact ⟨_, rfl⟩
  · exact ⟨_, rfl⟩

/-- The root process runs, the idle process is ready and nothing else has happened. -/
theorem Initialised.booted {k : Kernel} (hk : Initialised k) (n : Pcb) : Booted
    ⟨run { (k.setHead (some 2)).upd 1 (fun c => c.setNext none) with nullPcb := n } 1, 1⟩ := by
  generalize hk' : { (k.setHead (some 2)).upd 1 (fun c => c.setNext none) with nullPcb := n } = k'
  have hproc : ∀ q, (run k' 1).proctab q = if q = 1 then
      ((k.proctab 1).setNext none).setState .running else k.proctab q := by
    intro q
    rw [← hk']
    by_cases hq : q = 1
    · subst hq
      simp [run]
    · simp [run, hq]
  constructor
  case p => rfl
  case pid =>
    intro q
    rw [hproc, ← hk.pid q]
    split
    · rename_i h
      rw [h]
      rfl
    · rfl
  case state =>
    intro q
    rw [hproc]
    have := hk.state q
    by_cases hq : q = 1
    · simp [hq]
    · simpa [hq] using this
  case next =>
    intro q
    rw [hproc]
    have := hk.next q
    by_cases hq : q = 1
    · simp [hq]
    · simpa [hq] using this
  case sigPending =>
    intro q
    rw [hproc]
    split
    · exact hk.sigPending 1
    · exact hk.sigPending q
  case sigAllow =>
    intro q
    rw [hproc]
    split
    · exact hk.sigAllow 1
    · exact hk.sigAllow q
  case sigPriority =>
    intro q
    rw [hproc, ← hk.sigPriority q]
    split
    · rename_i h
      rw [h]
      rfl
    · rfl
  case head => rw [← hk']; rfl
  case tail => rw [← hk']; exact hk.tail
  case running => rfl
  case blockedQ => rw [← hk']; exact hk.blockedQ
  case deadQ => rw [← hk']; exact hk.deadQ
  case headsleeper => rw [← hk']; exact hk.headsleeper
  case reader => rw [← hk']; exact hk.reader
  case applbuffer => rw [← hk']; exact hk.applbuffer
  case idle => rw [← hk']; exact hk.idle

/-- The machine boots, into the state described. -/
theorem boot_booted (img : Image) : ∃ s, boot img = .ok s ∧ Booted s := by
  obtain ⟨k, hi, hk⟩ := initproc_initialised img
  obtain ⟨n, hn⟩ := hk.next_eq
  have hb := hk.booted n
  generalize { (k.setHead (some 2)).upd 1 (fun c => c.setNext none) with nullPcb := n } = k'
    at hn hb
  have hpend : ¬ deliverable ((run k' 1).proctab 1) := by
    have hnone : ((run k' 1).proctab 1).sigPending = 0 := hb.sigPending 1
    unfold deliverable
    simp [hnone]
  refine ⟨⟨run k' 1, 1⟩, ?_, hb⟩
  unfold boot
  simp only [hi, hn, bind, Except.bind, pure, Except.pure, loopTop, deliverSignalsIfany,
    if_neg hpend]

/-- The pointers are good at boot. -/
theorem Booted.sound {s : Disp} (h : Booted s) : Sound s := by
  have hused : ∀ q, q = 1 ∨ q = 2 → s.k.Used q := by
    rintro q (rfl | rfl)
    · exact ⟨by decide, by rw [h.pid]; decide, by rw [h.pid]; decide⟩
    · exact ⟨by decide, by rw [h.pid]; decide, by rw [h.pid]; decide⟩
  have hnone : ∀ {o : Option Slot}, o = none → ∀ q, o = some q → s.k.Used q := by
    rintro _ rfl q ⟨⟩
  refine ⟨⟨fun q => ?_, fun q => hnone (h.next q), ?_, ?_, ?_, hnone h.blockedQ,
    hnone h.deadQ, hnone h.headsleeper, hnone h.reader, ?_⟩, ?_, ?_⟩
  · by_cases hq : q = 1 ∨ q = 2
    · exact .inl (hused q hq)
    · obtain ⟨h1, h2⟩ := not_or.mp hq
      exact .inr ⟨by simp [h.pid, h1, h2], by simp [h.state, h1, h2], h.sigAllow q⟩
  · rw [h.head]
    rintro q ⟨⟩
    exact hused 2 (.inr rfl)
  · rw [h.tail]
    rintro q ⟨⟩
    exact hused 2 (.inr rfl)
  · rw [h.running]
    rintro q ⟨⟩
    exact hused 1 (.inl rfl)
  · rw [h.idle]
    exact hused 2 (.inr rfl)
  · rw [h.p]
    exact hused 1 (.inl rfl)
  · rw [h.p, h.state]
    rfl

/-- Every state from which a run starts is as described. -/
theorem booted_of_init {s : Disp} (h : dispatcher.init s) : Booted s := by
  obtain ⟨img, hs⟩ := h
  obtain ⟨s', hs', hb⟩ := boot_booted img
  rw [hs, Except.ok.injEq] at hs'
  exact hs' ▸ hb

/-- In every reachable state the pointers are good and a running process is on
the processor. -/
theorem sound_of_reachable {s : Disp} (h : dispatcher.Reachable s) : Sound s :=
  TSys.Inductive.holds
    ⟨fun _ h₀ => (booted_of_init h₀).sound, fun _ _ _ hs _ ht => hs.turn ht⟩ h

/-! ## A sample machine

A small image and the traps of a program on it, for runs that show a behaviour
on concrete inputs. -/

/-- The result of a computation, or `s` where it stops for good. -/
def Run.getD {α : Type} (r : Run α) (s : α) : α :=
  match r with
  | .ok s' => s'
  | .error _ => s

theorem Run.eq_getD {α : Type} {r : Run α} {s : α} (h : r.isOk = true) : r = .ok (r.getD s) := by
  cases r with
  | ok s' => rfl
  | error e => cases h

/-- An image with an empty memory. -/
def sampleImage : Image where
  freemem := 0x20000
  maxaddr := 0x400000
  cs := 8
  sigtramp := 0x1000
  sysstop := 0x1100
  root := 0x1200
  idleproc := 0x1300
  mem := fun _ => 0
  low := zeroPcb
  freemem_lt := by decide

/-- Zero wherever the code reads what no variable holds. -/
def sampleAmbient : Ambient where
  fuel := 100
  destpid := 0
  sig := 0
  localbuff := fun _ => 0
  stateBelow := fun _ => .stopped
  strayCmd := fun _ => false
  control := 0
  datasrc := 0

/-- Store words from an address on. -/
def storeWords (a : Word) : List Word → Bytes → Bytes
  | [], m => m
  | w :: ws, m => storeWords (a + 4) ws (m.putWord a w)

/-- A system call whose argument words are stored at `a`. -/
def sampleCallAt (a : Word) (req : Request) (args : List Word) : Trap where
  user := storeWords a args
  esp := 0x50000
  cause := .syscall req.code a
  ambient := sampleAmbient

/-- A system call of the root process. -/
def sampleCall (req : Request) (args : List Word) : Trap := sampleCallAt 0x60000 req args

/-- A key is typed while some process runs. -/
def sampleTyping (c : Byte) : Trap where
  user := id
  esp := 0x50000
  cause := .keyboard 0
  ambient := { sampleAmbient with control := 1, datasrc := c }

/-- The sample machine when its root process starts. -/
def sampleBoot : Disp := (boot sampleImage).getD ⟨dispatchinit sampleImage, 0⟩

theorem sampleBoot_init : dispatcher.init sampleBoot :=
  ⟨sampleImage, Run.eq_getD (by decide +kernel)⟩

/-- The state after some turns. -/
theorem reachable_foldlM {ts : List Trap} {s s' : Disp} (hs : dispatcher.Reachable s)
    (h : ts.foldlM turn s = .ok s') : dispatcher.Reachable s' := by
  induction ts generalizing s with
  | nil =>
      obtain rfl : s = s' := Except.ok.inj h
      exact hs
  | cons t ts ih =>
      rw [List.foldlM_cons, Run.bind_eq_ok] at h
      obtain ⟨s₁, h₁, h⟩ := h
      exact ih (hs.tail trivial h₁) h

end Xeros
