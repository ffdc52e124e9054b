import Xeros.Kernel.Queue

/-!
# Process creation (`create.c`) and the allocator (`mem.c`)

`create` takes the first unused slot, advances its pid by the table size and
builds the first context of the process at the high end of the requested part
of a block twice that size. When the table is full the slot search ends one
past the table, and the pid word there is written.
-/

namespace Xeros

open Lib

/-- `PARAGRAPH_MASK`. -/
abbrev paragraphMask : Word := ~~~0xf

/-- `sizeof(mem)`. -/
abbrev memHdrSize : Nat := 12

/-- Overwrite the header at an address. -/
def Heap.upd (h : Heap) (a : Word) (f : MemHdr → MemHdr) : Heap :=
  { h with hdr := fun b => if b = a then f (h.hdr a) else h.hdr b }

/-- `kmeminit`: one block below the hole, one above it. -/
def kmeminit (freemem : Word) (hdr : Word → MemHdr) : Heap :=
  let s := (freemem + 0x10) &&& paragraphMask
  let h : Heap := { head := s, hdr := hdr }
  let h := h.upd s fun _ => { next := holeEnd, prev := 0, size := holeStart - s }
  h.upd holeEnd fun _ => { next := 0, prev := s, size := 0x400000 - holeEnd }

/-- The search loop of `kmalloc`: the first block that is large enough. -/
def findBlock (h : Heap) (size : Word) : Nat → Word → Run Word
  | 0, _ => .error .spin
  | fuel + 1, p =>
    if p ≠ 0 ∧ (h.hdr p).size.slt size then findBlock h size fuel (h.hdr p).next
    else return p

/-- `kmalloc`: the address of a block, or 0. -/
def kmalloc (h : Heap) (fuel : Nat) (size : Word) : Run (Word × Heap) := do
  let size := if size &&& 0xf ≠ 0 then (size + 0x10) &&& paragraphMask else size
  let p ← findBlock h size fuel h.head
  if p = 0 then return (0, h)
  if ((h.hdr p).size - size).toNat < memHdrSize then
    let h := if (h.hdr p).next ≠ 0 then
        h.upd (h.hdr p).next fun b => { b with prev := (h.hdr p).prev } else h
    let h := if (h.hdr p).prev ≠ 0 then
        h.upd (h.hdr p).prev fun b => { b with next := (h.hdr p).next }
      else { h with head := (h.hdr p).next }
    return (p, h)
  else
    let r := p + size
    let h := h.upd r fun _ => h.hdr p
    let h := if (h.hdr p).next ≠ 0 then
        h.upd (h.hdr p).next fun b => { b with prev := r } else h
    let h := if (h.hdr p).prev ≠ 0 then
        h.upd (h.hdr p).prev fun b => { b with next := r }
      else { h with head := r }
    return (p, h)

/-- `PROC_STACK`. -/
abbrev procStack : Word := 20480

/-- `INT_MAX`. -/
abbrev intMax : Word := 2147483647

/-- The search of `create` for an unused slot in `1..MAX_PROC-1`. -/
def freeSlot (k : Kernel) : Option Slot :=
  (List.finRange maxProc).find? fun i =>
    i ≠ 0 ∧ ((k.proctab i).state = .stopped ∨ (k.proctab i).state = .dead)

/-- The pid that the slot with index `i` and the given pid is advanced to. -/
def nextPid (pid : Word) (i : Nat) : Word :=
  if pid.toNat % maxProc ≠ i then BitVec.ofNat 32 i
  else if intMax ≤ pid + BitVec.ofNat 32 maxProc then BitVec.ofNat 32 i
  else pid + BitVec.ofNat 32 maxProc

/-- The context that `create` builds at `cf`. -/
def startContext (m : Bytes) (img : Image) (cf fp : Word) : Bytes :=
  let m := m.splice cf 44 fun _ => 0x81
  let m := m.putWord (cf + 36) img.cs                   -- iret_cs
  let m := m.putWord (cf + 32) fp                       -- iret_eip
  let m := m.putWord (cf + 40) 0x3200                   -- eflags
  let m := m.putWord (cf + 12) (cf + 44)                -- esp
  let m := m.putWord (cf + 8) (cf + 48)                 -- ebp
  m.putWord (cf + 44) img.sysstop                       -- stackSlots[0]

/-- The allocator's variables are overwritten. -/
@[simps -fullyApplied] def Kernel.setHeap (k : Kernel) (h : Heap) : Kernel := { k with heap := h }

/-- `proctab[MAX_PROC].pid` is overwritten. -/
@[simps -fullyApplied] def Kernel.setPastPid (k : Kernel) (pid : Word) : Kernel := { k with pastPid := pid }

/-- The pcb of a slot that `create` has chosen. -/
@[simps -fullyApplied] def Pcb.renew (c : Pcb) (i : Slot) : Pcb :=
  { c with pid := nextPid c.pid i.val, sigPriority := -1 }

/-- The pcb gets its first context. -/
@[simps -fullyApplied] def Pcb.start (c : Pcb) (cf : Word) : Pcb := { c with esp := cf, state := .ready }

/-- The rest of `create`, with a context at `cf`. -/
def launch (k : Kernel) (i : Slot) (cf fp : Word) : Run Kernel :=
  ready ((k.setMem (startContext k.mem k.img cf fp)).upd i fun c => c.start cf) i

/-- `create`: the pid of the new process, or -1. -/
def create (k : Kernel) (fuel : Nat) (fp stack : Word) : Run (Word × Kernel) := do
  let stack := if stack.slt procStack then procStack else stack
  match freeSlot k with
  | none =>
    -- `i` is `MAX_PROC`: the word past the table is taken for a pid
    let (k, _) ← remove k fuel (some .deadQ) (BitVec.ofNat 32 maxProc)
    return (-1, k.setPastPid (nextPid k.pastPid maxProc))
  | some i =>
    let (k, _) ← remove k fuel (some .deadQ) (BitVec.ofNat 32 i.val)
    let k := k.upd i fun c => c.renew i
    let (block, heap) ← kmalloc k.heap fuel (stack * 2)
    let k := k.setHeap heap
    if block = 0 then return (-1, k)
    let k ← launch k i (block + stack - 4 - 44) fp
    return ((k.proctab i).pid, k)

end Xeros
