import Xeros.Logic.Boot
import Xeros.Logic.Heap
import Mathlib

/-!
# Blocks of the allocator

Blocks handed out and free blocks make up the two regions that the allocator
starts with, as long as no block is cut: the rest of a block that is cut keeps
the size of the whole.
-/

namespace Xeros

open Lib

variable {img : Image} {h h' : Heap} {b c p n size : Word} {l l₁ l₂ : List Word} {fuel : Nat}

/-! ## Sizes -/

theorem and_paragraphMask (x : Word) : (x &&& paragraphMask).toNat = x.toNat / 16 * 16 := by
  have hmask : ∀ i : Fin 32, paragraphMask.getLsbD i = decide (4 ≤ i.val) := by decide
  have h : x &&& paragraphMask = (x >>> 4) <<< 4 := by
    refine BitVec.eq_of_getLsbD_eq fun i hi => ?_
    rw [BitVec.getLsbD_and, hmask ⟨i, hi⟩, BitVec.getLsbD_shiftLeft, BitVec.getLsbD_ushiftRight]
    by_cases h4 : 4 ≤ i
    · have : 4 + (i - 4) = i := by omega
      simp [h4, hi, this]
    · simp [h4]
  have hlt := x.isLt
  rw [h, BitVec.toNat_shiftLeft, BitVec.toNat_ushiftRight, Nat.shiftRight_eq_div_pow,
    Nat.shiftLeft_eq]
  omega

theorem and_low (x : Word) : (x &&& 0xf).toNat = x.toNat % 16 := by
  have h15 : (0xf : Word).toNat = 15 := by decide
  rw [BitVec.toNat_and, h15]
  exact Nat.and_two_pow_sub_one_eq_mod x.toNat 4

/-- The sizes that are asked for. -/
def Requested (size : Word) : Prop := 0 < size.toInt ∧ size.toInt ≤ 0x7fffffff - 16

/-- A size is rounded up to whole paragraphs, modulo `2 ^ 32`. -/
theorem toNat_paragraphs (size : Word) : (paragraphs size).toNat =
    if size.toNat % 16 = 0 then size.toNat else (size.toNat + 16) % 2 ^ 32 / 16 * 16 := by
  have hlow := and_low size
  unfold paragraphs
  split
  · rename_i h0
    have h10 : (0x10 : Word).toNat = 16 := by decide
    have hne : size.toNat % 16 ≠ 0 := by
      rw [← hlow]
      exact fun h => h0 (BitVec.eq_of_toNat_eq h)
    rw [if_neg hne, and_paragraphMask, BitVec.toNat_add, h10]
  · rename_i h0
    rw [Classical.not_not.mp h0] at hlow
    exact (if_pos hlow.symm).symm

/-- The sizes that are asked for do not wrap around. -/
theorem paragraphs_spec (hs : Requested size) :
    (paragraphs size).toNat % 16 = 0 ∧ 0 < (paragraphs size).toNat ∧
      (paragraphs size).toNat < 0x80000000 := by
  obtain ⟨h₁, h₂⟩ := hs
  have hsz : size.toNat < 0x80000000 ∧ (size.toInt = size.toNat) := by
    rw [BitVec.toInt_eq_toNat_cond] at h₁ h₂ ⊢
    split at h₁ <;> split at h₂ <;> constructor <;> omega
  rw [hsz.2] at h₁ h₂
  rw [toNat_paragraphs]
  split
  · omega
  · omega

/-! ## Blocks -/

/-- A block of memory. -/
structure Block where
  base : Nat
  size : Nat

/-- The block lies in `[lo, hi)`. -/
def Block.Inside (b : Block) (lo hi : Nat) : Prop := lo ≤ b.base ∧ b.base + b.size ≤ hi

/-- The blocks have no byte in common. -/
def Block.Apart (b c : Block) : Prop := b.base + b.size ≤ c.base ∨ c.base + c.size ≤ b.base

theorem Block.Apart.symm {b c : Block} (h : b.Apart c) : c.Apart b := Or.symm h

/-- The allocator and the blocks it has handed out, latest first, with the sizes rounded
up. -/
structure Alloc where
  heap : Heap
  given : List (Word × Word)

/-- The block at an address. -/
def blockOf (b : Word × Word) : Block := { base := b.1.toNat, size := b.2.toNat }

/-- A free block with the size in its header. -/
def Heap.block (h : Heap) (b : Word) : Word × Word := (b, (h.hdr b).size)

/-- The start of the memory below the hole. -/
abbrev Image.start (img : Image) : Word := (img.freemem + 0x10) &&& paragraphMask

/-- The calls of `kmalloc`, from `kmeminit` on. -/
def allocator (img : Image) : TSys Alloc Word where
  init a := (∃ hdr, a.heap = kmeminit img.freemem hdr) ∧ a.given = []
  step a size a' := Requested size ∧ ∃ fuel b h, kmalloc a.heap fuel size = .ok (b, h) ∧
    a' = { heap := h, given := if b = 0 then a.given else (b, paragraphs size) :: a.given }

/-- What the blocks handed out and the free blocks `l` are like: those handed out are
aligned, lie in the two regions and meet no other block, and all sizes add up to those of
the two regions. -/
structure Accounted (img : Image) (a : Alloc) (l : List Word) : Prop where
  free : Chain a.heap.nextOf (pointer a.heap.head) l
  aligned : ∀ g ∈ a.given, g.1.toNat % 16 = 0
  inside : ∀ g ∈ a.given, (blockOf g).Inside img.start.toNat holeStart.toNat ∨
    (blockOf g).Inside holeEnd.toNat 0x400000
  apart : (a.given.map blockOf).Pairwise Block.Apart
  apartFree : ∀ g ∈ a.given, ∀ b ∈ l, (blockOf g).Apart (blockOf (a.heap.block b))
  total : ((a.given ++ l.map a.heap.block).map fun b => b.2.toNat).sum
    = (holeStart.toNat - img.start.toNat) + (0x400000 - holeEnd.toNat)

/-- The first free block that is large enough is larger by a header or more, so that it
is cut. -/
def Splits (h : Heap) (n : Word) : Prop :=
  ∃ l₁ b l₂, Chain h.nextOf (pointer h.head) (l₁ ++ b :: l₂) ∧
    (∀ c ∈ l₁, (h.hdr c).size.slt n) ∧ ¬ (h.hdr b).size.slt n ∧
    memHdrSize ≤ ((h.hdr b).size - n).toNat

/-! ## While no block is cut -/

/-- The two regions. -/
def regions (img : Image) : List (Word × Word) :=
  [(img.start, holeStart - img.start), (holeEnd, 0x400000 - holeEnd)]

/-- The blocks handed out and the free ones are the two regions. -/
structure Whole (img : Image) (a : Alloc) (l : List Word) : Prop where
  free : FreeList a.heap l
  perm : (a.given ++ l.map a.heap.block).Perm (regions img)

theorem regions_spec (img : Image) :
    img.start.toNat % 16 = 0 ∧ 0 < img.start.toNat ∧ img.start.toNat < 0x90010 ∧
      (holeStart - img.start).toNat = 0xA0000 - img.start.toNat ∧
      (0x400000 - holeEnd : Word).toNat = 0x26A000 ∧ holeStart.toNat = 0xA0000 ∧
      holeEnd.toNat = 0x196000 := by
  have hfree := img.freemem_lt
  have h10 : (0x10 : Word).toNat = 16 := by decide
  have hs : holeStart.toNat = 0xA0000 := by decide
  have hstart : img.start.toNat = (img.freemem.toNat + 16) % 2 ^ 32 / 16 * 16 := by
    rw [Image.start, and_paragraphMask, BitVec.toNat_add, h10]
  have hlo : img.start.toNat < 0x90010 := by omega
  refine ⟨by omega, by omega, hlo, ?_, by decide, hs, by decide⟩
  rw [BitVec.toNat_sub, hs]
  omega

/-- A region starts at a paragraph and consists of whole paragraphs. -/
theorem regions_mem {g : Word × Word} (hg : g ∈ regions img) :
    g.1.toNat % 16 = 0 ∧ g.1 ≠ 0 ∧ g.2.toNat % 16 = 0 ∧ 0 < g.2.toNat ∧
      g.2.toNat < 0x80000000 ∧ ((blockOf g).Inside img.start.toNat holeStart.toNat ∨
        (blockOf g).Inside holeEnd.toNat 0x400000) := by
  obtain ⟨h₁, h₂, h₃, h₄, h₅, h₆, h₇⟩ := regions_spec img
  have hne : ∀ w : Word, 0 < w.toNat → w ≠ 0 := by
    rintro w hw rfl
    exact absurd hw (by decide)
  simp only [regions, List.mem_cons, List.not_mem_nil, or_false] at hg
  rcases hg with rfl | rfl
  · exact ⟨h₁, hne _ h₂, by dsimp only; omega, by dsimp only; omega, by dsimp only; omega,
      .inl ⟨Nat.le_refl _, by simp only [blockOf]; omega⟩⟩
  · exact ⟨by dsimp only; omega, hne _ (by dsimp only; omega), by dsimp only; omega,
      by dsimp only; omega, by dsimp only; omega, .inr ⟨Nat.le_refl _, by simp only [blockOf]; omega⟩⟩

/-- The two regions have no byte in common. -/
theorem regions_apart (img : Image) : (regions img).Pairwise fun g g' =>
    (blockOf g).Apart (blockOf g') := by
  obtain ⟨h₁, h₂, h₃, h₄, h₅, h₆, h₇⟩ := regions_spec img
  refine List.pairwise_pair.mpr (.inl ?_)
  simp only [blockOf]
  omega

theorem Whole.pairwise {a : Alloc} (hw : Whole img a l) :
    (a.given ++ l.map a.heap.block).Pairwise fun g g' => (blockOf g).Apart (blockOf g') :=
  (hw.perm.pairwise_iff fun h => h.symm).mpr (regions_apart img)

/-- The regions are accounted for. -/
theorem Whole.accounted {a : Alloc} (hw : Whole img a l) : Accounted img a l := by
  have hmem : ∀ g ∈ a.given, g ∈ regions img := fun g hg =>
    hw.perm.subset (List.mem_append_left _ hg)
  have hpair := List.pairwise_append.mp hw.pairwise
  refine ⟨hw.free.links.chain, fun g hg => (regions_mem (hmem g hg)).1,
    fun g hg => (regions_mem (hmem g hg)).2.2.2.2.2, List.pairwise_map.mpr hpair.1,
    fun g hg b hb => hpair.2.2 g hg _ (List.mem_map_of_mem hb), ?_⟩
  obtain ⟨-, -, -, h₄, h₅, h₆, h₇⟩ := regions_spec img
  rw [(hw.perm.map _).sum_eq]
  simp only [regions, List.map_cons, List.map_nil, List.sum_cons, List.sum_nil]
  omega

/-- The sizes of two blocks as `kmalloc` compares them. -/
theorem slt_iff {x y : Word} (hx : x.toNat < 0x80000000) (hy : y.toNat < 0x80000000) :
    x.slt y ↔ x.toNat < y.toNat := by
  rw [BitVec.slt, decide_eq_true_eq, BitVec.toInt_eq_toNat_of_lt (by omega),
    BitVec.toInt_eq_toNat_of_lt (by omega)]
  omega

/-- At the start the two regions are free. -/
theorem whole_kmeminit (img : Image) (hdr : Word → MemHdr) :
    Whole img { heap := kmeminit img.freemem hdr, given := [] } [img.start, holeEnd] := by
  obtain ⟨h₁, h₂, h₃, h₄, h₅, h₆, h₇⟩ := regions_spec img
  have hne : img.start ≠ holeEnd := by
    intro he
    rw [he] at h₃
    omega
  have h0 : img.start ≠ 0 := by
    intro he
    rw [he] at h₂
    exact absurd h₂ (by decide)
  have hs : (kmeminit img.freemem hdr).hdr img.start
      = { next := holeEnd, prev := 0, size := holeStart - img.start } := by
    unfold kmeminit
    rw [Heap.upd_hdr_ne _ _ hne, Heap.upd_hdr_self]
  have he : (kmeminit img.freemem hdr).hdr holeEnd
      = { next := 0, prev := img.start, size := 0x400000 - holeEnd } := by
    unfold kmeminit
    rw [Heap.upd_hdr_self]
  have hhead : (kmeminit img.freemem hdr).head = img.start := rfl
  refine ⟨⟨?_, by simpa using hne⟩, ?_⟩
  · simp only [DList, Heap.nextOf, Heap.prevOf, hhead, hs, he, pointer_eq_some]
    refine ⟨⟨trivial, h0⟩, ?_, ⟨trivial, ?_⟩, ⟨trivial, h0⟩, ?_⟩
    all_goals decide
  · simp only [Heap.block, List.map_cons, List.map_nil, List.nil_append, hs, he, regions]
    exact List.Perm.refl _

/-- A block that is handed out whole has the size asked for. -/
theorem Whole.exact {a : Alloc} (hw : Whole img a l) (hn : n.toNat % 16 = 0)
    (hlt : n.toNat < 0x80000000) (hb : b ∈ l) (hbig : ¬ (a.heap.hdr b).size.slt n)
    (hrest : ((a.heap.hdr b).size - n).toNat < memHdrSize) : (a.heap.hdr b).size = n := by
  have hmem : a.heap.block b ∈ regions img :=
    hw.perm.subset (List.mem_append_right _ (List.mem_map_of_mem hb))
  obtain ⟨-, -, h₁, -, h₂, -⟩ := regions_mem hmem
  simp only [Heap.block] at h₁ h₂
  rw [slt_iff h₂ hlt] at hbig
  refine BitVec.eq_of_toNat_eq ?_
  rw [BitVec.toNat_sub_of_le (BitVec.le_def.mpr (by omega))] at hrest
  have : memHdrSize = 12 := rfl
  omega

/-- A call that cuts no block hands out a region or nothing. -/
theorem Whole.step {a a' : Alloc} (hw : Whole img a l) (hs : (allocator img).step a size a')
    (hcut : ¬ Splits a.heap (paragraphs size)) : ∃ l', Whole img a' l' := by
  obtain ⟨hreq, fuel, b, h, hk, rfl⟩ := hs
  obtain ⟨hn, -, hlt⟩ := paragraphs_spec hreq
  obtain ⟨hfind, hk⟩ := kmalloc_cases hk
  rcases hk with ⟨rfl, rfl⟩ | ⟨hb, hrest, rfl⟩ | ⟨hb, hrest, -⟩
  · exact ⟨l, by simpa using hw⟩
  · rcases findBlock_cases hw.free.links.chain hfind with ⟨h0, -⟩ | ⟨l₁, l₂, rfl, -, -, hbig⟩
    · exact absurd h0 hb
    have hsize := hw.exact hn hlt (by simp) hbig hrest
    refine ⟨l₁ ++ l₂, hw.free.unlink, ?_⟩
    have hblock : ∀ c, (a.heap.unlink b).block c = a.heap.block c := by
      intro c
      rw [Heap.block, (Heap.unlink_hdr hw.free.next_ne c).2.2, Heap.block]
    refine List.Perm.trans ?_ hw.perm
    have hsame : ∀ l : List Word, l.map (a.heap.unlink b).block = l.map a.heap.block :=
      fun l => List.map_congr_left fun c _ => hblock c
    show ((if b = 0 then a.given else (b, paragraphs size) :: a.given)
      ++ (l₁ ++ l₂).map (a.heap.unlink b).block).Perm _
    rw [if_neg hb, hsame, show (b, paragraphs size) = a.heap.block b by rw [Heap.block, hsize],
      List.map_append, List.map_append, List.map_cons, List.cons_append, ← List.append_assoc,
      ← List.append_assoc]
    exact List.perm_middle.symm
  · rcases findBlock_cases hw.free.links.chain hfind with ⟨h0, -⟩ | ⟨l₁, l₂, rfl, -, hall, hbig⟩
    · exact absurd h0 hb
    · exact absurd ⟨l₁, b, l₂, hw.free.links.chain, hall, hbig, Nat.not_lt.mp hrest⟩ hcut

/-- The search passes at most two free blocks. -/
theorem Whole.kmalloc_ok {a : Alloc} (hw : Whole img a l) (size : Word) :
    ∃ b h, kmalloc a.heap 3 size = .ok (b, h) := by
  have hlen := hw.perm.length_eq
  simp only [List.length_append, List.length_map, regions, List.length_cons,
    List.length_nil] at hlen
  exact Xeros.kmalloc_ok hw.free (by omega) size

/-! ## When a block is cut -/

/-- Two ways to cut a list at its first element with a property. -/
theorem first_unique {α : Type*} {P : α → Prop} {l₁ l₁' l₂ l₂' : List α} {x y : α}
    (h : l₁ ++ x :: l₂ = l₁' ++ y :: l₂') (h₁ : ∀ c ∈ l₁, ¬ P c) (hx : P x)
    (h₁' : ∀ c ∈ l₁', ¬ P c) (hy : P y) : l₁ = l₁' ∧ x = y ∧ l₂ = l₂' := by
  induction l₁ generalizing l₁' with
  | nil =>
      cases l₁' with
      | nil =>
          obtain ⟨rfl, rfl⟩ := List.cons.inj h
          exact ⟨rfl, rfl, rfl⟩
      | cons c l₁' =>
          obtain ⟨rfl, -⟩ := List.cons.inj h
          exact absurd hx (h₁' x List.mem_cons_self)
  | cons c l₁ ih =>
      cases l₁' with
      | nil =>
          obtain ⟨rfl, -⟩ := List.cons.inj h
          exact absurd hy (h₁ c List.mem_cons_self)
      | cons d l₁' =>
          obtain ⟨rfl, htail⟩ := List.cons.inj h
          obtain ⟨rfl, rfl, rfl⟩ := ih htail (fun c hc => h₁ c (List.mem_cons_of_mem _ hc))
            fun c hc => h₁' c (List.mem_cons_of_mem _ hc)
          exact ⟨rfl, rfl, rfl⟩

/-- The rest of a block that is cut starts no free block. -/
theorem Whole.rest_notMem {a : Alloc} (hw : Whole img a (l₁ ++ b :: l₂)) (h0 : 0 < n.toNat)
    (hlt : n.toNat < (a.heap.hdr b).size.toNat) :
    b + n ∉ l₁ ++ b :: l₂ ∧ b + n ≠ 0 := by
  have hmem : ∀ c ∈ l₁ ++ b :: l₂, a.heap.block c ∈ regions img := fun c hc =>
    hw.perm.subset (List.mem_append_right _ (List.mem_map_of_mem hc))
  obtain ⟨-, -, -, -, -, hin⟩ := regions_mem (hmem b (by simp))
  obtain ⟨-, hs, hs', -, -, h₆, h₇⟩ := regions_spec img
  simp only [Heap.block, blockOf, Block.Inside] at hin
  have hsum : (b + n).toNat = b.toNat + n.toNat := by
    rw [BitVec.toNat_add]
    omega
  refine ⟨fun hm => ?_, fun hz => ?_⟩
  · obtain ⟨-, -, -, hpos, -, hin'⟩ := regions_mem (hmem _ hm)
    have hne : b ≠ b + n := by
      intro he
      rw [← he] at hsum
      omega
    have hpair := List.pairwise_map.mp (List.pairwise_append.mp hw.pairwise).2.1
    obtain ⟨-, htail, hcross⟩ := List.pairwise_append.mp hpair
    have hapart : (blockOf (a.heap.block b)).Apart (blockOf (a.heap.block (b + n))) := by
      rcases List.mem_append.mp hm with hm | hm
      · exact (hcross _ hm b List.mem_cons_self).symm
      · rcases List.mem_cons.mp hm with he | hm
        · exact absurd he.symm hne
        · exact (List.pairwise_cons.mp htail).1 _ hm
    simp only [Heap.block, blockOf, Block.Apart] at hapart hpos
    omega
  · rw [hz] at hsum
    have : (0 : Word).toNat = 0 := rfl
    omega

/-- The size of all blocks. -/
def Alloc.total (a : Alloc) (l : List Word) : Nat :=
  ((a.given ++ l.map a.heap.block).map fun b => b.2.toNat).sum

/-- A call that cuts a block adds the size handed out to the total, as the rest keeps the
size of the whole. -/
theorem Whole.step_splits {a a' : Alloc} (hw : Whole img a l)
    (hs : (allocator img).step a size a') (hcut : Splits a.heap (paragraphs size)) :
    ∃ l', FreeList a'.heap l' ∧ a'.total l' = a.total l + (paragraphs size).toNat := by
  obtain ⟨hreq, fuel, b, h, hk, rfl⟩ := hs
  obtain ⟨-, hpos, hlt⟩ := paragraphs_spec hreq
  obtain ⟨l₁, c, l₂, hc, hsmall, hbig, hroom⟩ := hcut
  obtain rfl := hw.free.links.chain.unique hc
  obtain ⟨hfind, hk⟩ := kmalloc_cases hk
  -- the block found is the one that is cut
  have hbc : b = c := by
    rcases findBlock_cases hc hfind with ⟨-, hnone⟩ | ⟨m₁, m₂, he, -, hm, hb⟩
    · exact absurd (hnone c (by simp)) hbig
    · have hfirst := first_unique (P := fun x => ¬ (a.heap.hdr x).size.slt (paragraphs size)) he
        (fun x hx h => h (hsmall x hx)) hbig (fun x hx h => h (hm x hx)) hb
      exact hfirst.2.1.symm
  subst hbc
  have hb0 : b ≠ 0 := hw.free.ne_zero (by simp)
  have hblock := hw.perm.subset (List.mem_append_right a.given
    (List.mem_map_of_mem (f := a.heap.block) (by simp : b ∈ l₁ ++ b :: l₂)))
  have hsize : (a.heap.hdr b).size.toNat < 0x80000000 := (regions_mem hblock).2.2.2.2.1
  rw [slt_iff (y := paragraphs size) hsize hlt] at hbig
  rcases hk with ⟨h0, -⟩ | ⟨-, hrest, -⟩ | ⟨-, -, rfl⟩
  · exact absurd h0 hb0
  · exact absurd hroom (Nat.not_le.mpr hrest)
  have hlt' : (paragraphs size).toNat < (a.heap.hdr b).size.toNat := by
    rw [BitVec.toNat_sub_of_le (BitVec.le_def.mpr (Nat.not_lt.mp hbig))] at hroom
    have : memHdrSize = 12 := rfl
    omega
  obtain ⟨hr, hr0⟩ := hw.rest_notMem hpos hlt'
  refine ⟨l₁ ++ (b + paragraphs size) :: l₂, hw.free.split hr hr0, ?_⟩
  have hrb : b + paragraphs size ≠ b := fun he => hr (by simp [he])
  have hsz : ∀ x, ((a.heap.split b (b + paragraphs size)).block x).2
      = if x = b + paragraphs size then (a.heap.hdr b).size else (a.heap.hdr x).size :=
    fun x => (Heap.split_hdr hrb hw.free.next_ne x).2.2
  have hsame : ∀ m : List Word, b + paragraphs size ∉ m →
      m.map (fun x => ((a.heap.split b (b + paragraphs size)).block x).2.toNat)
        = m.map fun x => (a.heap.block x).2.toNat := by
    intro m hm
    refine List.map_congr_left fun x hx => ?_
    have hne : x ≠ b + paragraphs size := fun he => hm (he ▸ hx)
    rw [hsz, if_neg hne]
    rfl
  have h₁ := hsame l₁ fun h => hr (List.mem_append_left _ h)
  have h₂ := hsame l₂ fun h => hr (List.mem_append_right _ (List.mem_cons_of_mem _ h))
  have hself : ((a.heap.split b (b + paragraphs size)).block (b + paragraphs size)).2
      = (a.heap.block b).2 := by
    rw [hsz, if_pos rfl]
    rfl
  simp only [Alloc.total, if_neg hb0, List.map_append, List.map_map, List.map_cons,
    List.sum_append, List.sum_cons, Function.comp_def, h₁, h₂, hself]
  omega

/-- From `kmeminit` on, while no call has cut a block, the blocks handed out and the free
ones are sound; the next call leaves them so exactly if it cuts no block either. -/
theorem allocations_sound_iff {a a' : Alloc}
    (h : (allocator img).ReachableUnder (fun a size => ¬ Splits a.heap (paragraphs size)) a)
    (hs : (allocator img).step a size a') :
    (∃ l, Accounted img a l) ∧
      ((∃ l, Accounted img a' l) ↔ ¬ Splits a.heap (paragraphs size)) := by
  have hind : (allocator img).Inductive (fun a size => ¬ Splits a.heap (paragraphs size))
      fun a => ∃ l, Whole img a l := by
    refine ⟨?_, fun s x t ⟨l, hw⟩ hc hst => hw.step hst hc⟩
    rintro ⟨heap, given⟩ ⟨⟨hdr, rfl⟩, rfl⟩
    exact ⟨_, whole_kmeminit img hdr⟩
  obtain ⟨l, hw⟩ := hind.holds h
  refine ⟨⟨l, hw.accounted⟩, ?_, ?_⟩
  · rintro ⟨l', ha⟩ hcut
    obtain ⟨l'', hfree, htotal⟩ := hw.step_splits hs hcut
    obtain rfl := hfree.links.chain.unique ha.free
    obtain ⟨-, hpos, -⟩ := paragraphs_spec hs.1
    have h₁ : a.total l = _ := hw.accounted.total
    have h₂ : a'.total l'' = _ := ha.total
    omega
  · intro hcut
    obtain ⟨l', hw'⟩ := hw.step hs hcut
    exact ⟨l', hw'.accounted⟩

/-! ## Two calls -/

/-- The allocator after `kmeminit`. -/
def sampleAlloc : Alloc :=
  { heap := kmeminit sampleImage.freemem fun _ => { next := 0, prev := 0, size := 0 },
    given := [] }

/-- A call of `kmalloc`. -/
def Alloc.kmalloc (a : Alloc) (size : Word) : Alloc :=
  let r := (Xeros.kmalloc a.heap 10 size).getD (0, a.heap)
  { heap := r.2, given := if r.1 = 0 then a.given else (r.1, paragraphs size) :: a.given }

theorem sampleAlloc_init : (allocator sampleImage).init sampleAlloc := ⟨⟨_, rfl⟩, rfl⟩

theorem Alloc.kmalloc_step {a : Alloc} (hreq : Requested size)
    (hok : (Xeros.kmalloc a.heap 10 size).isOk) :
    (allocator img).step a size (a.kmalloc size) :=
  ⟨hreq, 10, _, _, Run.eq_getD hok, rfl⟩

/-- A first block of just the size asked for is not cut. -/
theorem not_splits_of_head (hsize : (h.hdr h.head).size = n) :
    ¬ Splits h n := by
  rintro ⟨l₁, b, l₂, hc, hsmall, -, hrest⟩
  cases l₁ with
  | nil =>
      obtain rfl : h.head = b := (pointer_eq_some.mp hc.1).1
      rw [hsize, BitVec.sub_self] at hrest
      exact absurd hrest (by decide)
  | cons c l₁ =>
      obtain rfl : h.head = c := (pointer_eq_some.mp hc.1).1
      have hslt := hsmall _ List.mem_cons_self
      rw [hsize, BitVec.slt, decide_eq_true_eq] at hslt
      exact absurd hslt (Int.lt_irrefl _)

/-- The memory below the hole is asked for, and then that above it: both are handed out whole. -/
theorem allocations_sound_iff_of_regions :
    ((sampleAlloc.kmalloc 0x7fff0).kmalloc 0x26a000).given
      = [(0x196000, 0x26a000), (0x20010, 0x7fff0)] ∧
    ∃ l, Accounted sampleImage ((sampleAlloc.kmalloc 0x7fff0).kmalloc 0x26a000) l := by
  have h₁ : ¬ Splits sampleAlloc.heap (paragraphs 0x7fff0) :=
    not_splits_of_head (by decide +kernel)
  have h₂ : ¬ Splits (sampleAlloc.kmalloc 0x7fff0).heap (paragraphs 0x26a000) :=
    not_splits_of_head (by decide +kernel)
  have hreach : (allocator sampleImage).ReachableUnder
      (fun a size => ¬ Splits a.heap (paragraphs size)) (sampleAlloc.kmalloc 0x7fff0) :=
    TSys.ReachableUnder.tail ⟨sampleAlloc, sampleAlloc_init, .refl⟩ h₁
      (Alloc.kmalloc_step ⟨by decide, by decide⟩ (by decide +kernel))
  refine ⟨by decide +kernel, (allocations_sound_iff hreach
    (Alloc.kmalloc_step ⟨by decide, by decide⟩ (by decide +kernel))).2.mpr h₂⟩

/-- Of two blocks that each fill nearly all of the memory below the hole, the second one
starts just below the hole and runs into it. -/
theorem second_block_in_hole :
    (allocator sampleImage).Reachable ((sampleAlloc.kmalloc 0x7ffe0).kmalloc 0x7ffe0) ∧
      (0x9fff0, 0x7ffe0) ∈ ((sampleAlloc.kmalloc 0x7ffe0).kmalloc 0x7ffe0).given ∧
      ¬ ∃ l, Accounted sampleImage ((sampleAlloc.kmalloc 0x7ffe0).kmalloc 0x7ffe0) l := by
  have hgiven : (0x9fff0, 0x7ffe0)
      ∈ ((sampleAlloc.kmalloc 0x7ffe0).kmalloc 0x7ffe0).given := by decide +kernel
  have hreq : Requested 0x7ffe0 := ⟨by decide, by decide⟩
  refine ⟨?_, hgiven, ?_⟩
  · have h₁ : (allocator sampleImage).Reachable sampleAlloc := ⟨_, sampleAlloc_init, .refl⟩
    have h₂ := h₁.tail trivial (Alloc.kmalloc_step hreq (by decide +kernel))
    exact h₂.tail trivial (Alloc.kmalloc_step hreq (by decide +kernel))
  · rintro ⟨l, ha⟩
    rcases ha.inside _ hgiven with h | h
    · exact absurd h.2 (by decide)
    · exact absurd h.1 (by decide)

end Xeros
