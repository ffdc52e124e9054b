import Xeros.Theorems.Heap

/-!
# The memory behind a block

A block is handed out by what a header says of it, and the header of the rest of a block that was
cut says what that of the whole said. What such a block really has is the memory from its address
to the hole, or to the end of the memory. As long as the rests that are left have the room for a
header there, the blocks handed out have no byte in common, and of each of the two regions one
free block is left at most, above all that was handed out of it.
-/

namespace Xeros

open Lib

variable {img : Image} {h h' : Heap} {b c n size : Word} {l l₁ l₂ : List Word} {fuel : Nat}
  {given : List Block}

/-! ## Memory -/

/-- The end of the memory in which an address lies: the hole, or the end of the memory. In the
hole there is none. -/
def memoryEnd (a : Nat) : Nat :=
  if a < holeStart.toNat then holeStart.toNat
  else if a < holeEnd.toNat then a
  else 0x400000

/-- What there is of a block of `n` bytes at `b`: the bytes before the end of the memory. -/
def realBlock (b n : Word) : Block :=
  { base := b.toNat, size := min n.toNat (memoryEnd b.toNat - b.toNat) }

/-- The block lies in the memory that the allocator starts with. -/
def Block.InMemory (img : Image) (B : Block) : Prop :=
  B.Inside img.start.toNat holeStart.toNat ∨ B.Inside holeEnd.toNat 0x400000

/-- The header of a free block lies in that memory. -/
def HeaderIn (img : Image) (b : Word) : Prop :=
  Block.InMemory img { base := b.toNat, size := memHdrSize }

/-- A block of the memory lies in one of the two regions, and ends where that does at most. -/
theorem Block.InMemory.cases {B : Block} (hB : B.InMemory img) :
    img.start.toNat ≤ B.base ∧ B.base + B.size ≤ 0xA0000 ∧ memoryEnd B.base = 0xA0000 ∨
      0x196000 ≤ B.base ∧ B.base + B.size ≤ 0x400000 ∧ memoryEnd B.base = 0x400000 := by
  have h₁ : holeStart.toNat = 0xA0000 := by decide
  have h₂ : holeEnd.toNat = 0x196000 := by decide
  unfold memoryEnd
  rw [h₁, h₂]
  rcases hB with ⟨hlo, hhi⟩ | ⟨hlo, hhi⟩
  · rw [h₁] at hhi
    refine .inl ⟨hlo, hhi, ?_⟩
    split
    · rfl
    · rw [if_pos (by omega)]
      omega
  · rw [h₂] at hlo
    exact .inr ⟨hlo, hhi, by rw [if_neg (by omega), if_neg (by omega)]⟩

theorem Block.InMemory.low {B : Block} (hlo : img.start.toNat ≤ B.base)
    (hhi : B.base + B.size ≤ 0xA0000) : B.InMemory img :=
  .inl ⟨hlo, hhi.trans (by decide)⟩

theorem Block.InMemory.high {B : Block} (hlo : 0x196000 ≤ B.base)
    (hhi : B.base + B.size ≤ 0x400000) : B.InMemory img :=
  .inr ⟨Nat.le_trans (by decide) hlo, hhi⟩

/-- A part of such a block. -/
theorem Block.InMemory.part {B C : Block} (hB : B.InMemory img) (hlo : B.base ≤ C.base)
    (hhi : C.base + C.size ≤ B.base + B.size) : C.InMemory img :=
  hB.imp (fun h => ⟨h.1.trans hlo, hhi.trans h.2⟩) fun h => ⟨h.1.trans hlo, hhi.trans h.2⟩

/-- A block of this memory stays in it up to its end. -/
theorem HeaderIn.real (hb : HeaderIn img b) (n : Word) : (realBlock b n).InMemory img := by
  rcases hb.cases with ⟨hlo, hhi, hend⟩ | ⟨hlo, hhi, hend⟩ <;> dsimp only at hlo hhi hend
  · refine .low hlo ?_
    simp only [realBlock, hend]
    omega
  · refine .high hlo ?_
    simp only [realBlock, hend]
    omega

/-- The rest of such a block has its header in the memory when it fits before the end. -/
theorem HeaderIn.rest (hb : HeaderIn img b)
    (hn : b.toNat + n.toNat + memHdrSize ≤ memoryEnd b.toNat) :
    (b + n).toNat = b.toNat + n.toNat ∧ HeaderIn img (b + n) ∧
      memoryEnd (b + n).toNat = memoryEnd b.toNat := by
  rcases hb.cases with ⟨hlo, -, hend⟩ | ⟨hlo, -, hend⟩ <;> dsimp only at hlo hend
  all_goals
    rw [hend] at hn ⊢
    have hsum : (b + n).toNat = b.toNat + n.toNat := by
      rw [BitVec.toNat_add]
      omega
  · have hhdr : HeaderIn img (b + n) := .low (by dsimp only; omega) (by dsimp only; omega)
    refine ⟨hsum, hhdr, ?_⟩
    rcases hhdr.cases with ⟨-, -, he⟩ | ⟨hge, -, -⟩
    · exact he
    · dsimp only at hge
      omega
  · have hhdr : HeaderIn img (b + n) := .high (by dsimp only; omega) (by dsimp only; omega)
    refine ⟨hsum, hhdr, ?_⟩
    rcases hhdr.cases with ⟨-, hle, -⟩ | ⟨-, -, he⟩
    · dsimp only at hle
      omega
    · exact he

/-- Blocks that end at different places have no byte in common. -/
theorem apart_of_memoryEnd {B C : Block} (hB : B.InMemory img) (hC : C.InMemory img)
    (hne : memoryEnd B.base ≠ memoryEnd C.base) : B.Apart C := by
  rcases hB.cases with ⟨-, hhi, hend⟩ | ⟨hlo, -, hend⟩ <;>
    rcases hC.cases with ⟨-, hhi', hend'⟩ | ⟨hlo', -, hend'⟩
  · exact absurd (hend.trans hend'.symm) hne
  · exact .inl (by omega)
  · exact .inr (by omega)
  · exact absurd (hend.trans hend'.symm) hne

/-! ## The block that is found -/

/-- `b` is the first free block that its header says is large enough. -/
def FirstLarge (h : Heap) (n b : Word) : Prop :=
  ∃ l₁ l₂, Chain h.nextOf (pointer h.head) (l₁ ++ b :: l₂) ∧ (∀ c ∈ l₁, (h.hdr c).size.slt n) ∧
    ¬ (h.hdr b).size.slt n

/-- There is one such block at most. -/
theorem FirstLarge.unique (hb : FirstLarge h n b) (hc : FirstLarge h n c) : b = c := by
  obtain ⟨l₁, l₂, hch, hall, hbig⟩ := hb
  obtain ⟨l₁', l₂', hch', hall', hbig'⟩ := hc
  have hfirst := first_unique (P := fun x => ¬ (h.hdr x).size.slt n) (hch.unique hch')
    (fun x hx hs => hs (hall x hx)) hbig (fun x hx hs => hs (hall' x hx)) hbig'
  exact hfirst.2.1

/-- The block that `kmalloc` hands out. -/
theorem firstLarge_of_kmalloc (hl : FreeList h l) (hk : kmalloc h fuel size = .ok (b, h'))
    (hb : b ≠ 0) : FirstLarge h (paragraphs size) b ∧ b ∈ l := by
  rcases findBlock_cases hl.links.chain (kmalloc_cases hk).1 with
    ⟨h0, -⟩ | ⟨l₁, l₂, rfl, -, hall, hbig⟩
  · exact absurd h0 hb
  · exact ⟨⟨l₁, l₂, hl.links.chain, hall, hbig⟩, by simp⟩

/-- A request of `n` bytes that cuts a block leaves a rest with the room for its header before the
end of the memory. -/
def RestFits (h : Heap) (n : Word) : Prop :=
  ∀ b, FirstLarge h n b → memHdrSize ≤ ((h.hdr b).size - n).toNat →
    0 < n.toNat ∧ b.toNat + n.toNat + memHdrSize ≤ memoryEnd b.toNat

theorem FirstLarge.mem (hb : FirstLarge h n b) (hl : FreeList h l) : b ∈ l := by
  obtain ⟨l₁, l₂, hch, -, -⟩ := hb
  rw [hl.links.chain.unique hch]
  simp

/-- The rest of the block that `kmalloc` hands out. -/
theorem restFits_of_kmalloc (hl : FreeList h l) (hk : kmalloc h fuel size = .ok (b, h'))
    (hb : b ≠ 0) (hn : 0 < (paragraphs size).toNat ∧
      b.toNat + (paragraphs size).toNat + memHdrSize ≤ memoryEnd b.toNat) :
    RestFits h (paragraphs size) := by
  intro c hc _
  obtain rfl := hc.unique (firstLarge_of_kmalloc hl hk hb).1
  exact hn

/-! ## The blocks of a run -/

/-- What holds of a list holds of one of its blocks and of the others. -/
theorem forall_mem_middle {P : Word → Prop} :
    (∀ c ∈ l₁ ++ b :: l₂, P c) ↔ P b ∧ ∀ c ∈ l₁ ++ l₂, P c := by
  rw [List.forall_mem_append, List.forall_mem_cons, List.forall_mem_append]
  exact and_left_comm

/-- The free blocks are those in `l`, and those in `given` have been handed out. -/
structure Carved (img : Image) (h : Heap) (given : List Block) (l : List Word) : Prop where
  free : FreeList h l
  header : ∀ b ∈ l, HeaderIn img b
  single : (l.map fun b => memoryEnd b.toNat).Nodup
  inside : ∀ g ∈ given, g.InMemory img
  below : ∀ g ∈ given, ∀ b ∈ l, memoryEnd g.base = memoryEnd b.toNat → g.base + g.size ≤ b.toNat
  apart : given.Pairwise Block.Apart

namespace Carved

/-- At the start two blocks are free. -/
theorem kmeminit (img : Image) (hdr : Word → MemHdr) :
    Carved img (kmeminit img.freemem hdr) [] [img.start, holeEnd] := by
  obtain ⟨-, -, h₃, -⟩ := regions_spec img
  have h12 : memHdrSize = 12 := rfl
  have hlow : HeaderIn img img.start := .low (Nat.le_refl _) (by dsimp only; omega)
  have hhigh : HeaderIn img holeEnd := .high (by decide) (by decide)
  refine ⟨(whole_kmeminit img hdr).free, fun b hb => ?_, ?_, by simp, by simp, .nil⟩
  · rcases List.mem_pair.mp hb with rfl | rfl
    · exact hlow
    · exact hhigh
  · have hne : memoryEnd img.start.toNat ≠ memoryEnd holeEnd.toNat := by
      rcases hlow.cases with ⟨-, -, he⟩ | ⟨hge, -, -⟩ <;> dsimp only at *
      · rw [he]
        decide
      · omega
    exact List.nodup_cons.mpr ⟨by simpa only [List.map_cons, List.map_nil, List.mem_singleton],
      List.nodup_singleton _⟩

/-- A block that is handed out has no byte in common with those handed out before. -/
theorem apart_real (hc : Carved img h given l) (hb : b ∈ l) (n : Word) :
    ∀ g ∈ given, (realBlock b n).Apart g := by
  intro g hg
  by_cases he : memoryEnd g.base = memoryEnd b.toNat
  · exact .inr (hc.below g hg b hb he)
  · exact (apart_of_memoryEnd (hc.inside g hg) ((hc.header b hb).real n) he).symm

/-- Of the region in which a free block lies, no other is free. -/
theorem memoryEnd_ne (hc : Carved img h given (l₁ ++ b :: l₂)) :
    ∀ c ∈ l₁ ++ l₂, memoryEnd c.toNat ≠ memoryEnd b.toNat := by
  intro c hm he
  have hs := hc.single
  rw [List.map_append, List.map_cons] at hs
  have hnot := (List.nodup_cons.mp (List.nodup_middle.mp hs)).1
  rw [← List.map_append] at hnot
  exact hnot (he ▸ List.mem_map_of_mem (f := fun b : Word => memoryEnd b.toNat) hm)

/-- A block is handed out whole. -/
theorem unlink (hc : Carved img h given (l₁ ++ b :: l₂)) (n : Word) :
    Carved img (h.unlink b) (realBlock b n :: given) (l₁ ++ l₂) := by
  have hsub : (l₁ ++ l₂).Sublist (l₁ ++ b :: l₂) :=
    List.Sublist.append_left (List.sublist_cons_self b l₂) l₁
  have hmem : b ∈ l₁ ++ b :: l₂ := List.mem_append_cons_self
  refine ⟨hc.free.unlink, (forall_mem_middle.mp hc.header).2, hc.single.sublist (hsub.map _),
    ?_, ?_, List.pairwise_cons.mpr ⟨hc.apart_real hmem n, hc.apart⟩⟩
  · exact List.forall_mem_cons.mpr ⟨(hc.header b hmem).real n, hc.inside⟩
  · refine List.forall_mem_cons.mpr ⟨fun c hm he => ?_, fun g hg =>
      (forall_mem_middle.mp (hc.below g hg)).2⟩
    exact absurd he.symm (hc.memoryEnd_ne c hm)

/-- A block is cut, and the rest takes its place. -/
theorem split (hc : Carved img h given (l₁ ++ b :: l₂)) (h0 : 0 < n.toNat)
    (hn : b.toNat + n.toNat + memHdrSize ≤ memoryEnd b.toNat) :
    Carved img (h.split b (b + n)) (realBlock b n :: given) (l₁ ++ (b + n) :: l₂) := by
  have hmem : b ∈ l₁ ++ b :: l₂ := List.mem_append_cons_self
  obtain ⟨hsum, hhdr, hend⟩ := (hc.header b hmem).rest hn
  -- no free block starts where the rest does
  have hnew : b + n ∉ l₁ ++ b :: l₂ := by
    intro hm
    have hne : b + n ≠ b := by
      intro he
      rw [he] at hsum
      omega
    have hothers : ∀ c ∈ l₁ ++ b :: l₂, c ≠ b → c ∈ l₁ ++ l₂ :=
      forall_mem_middle.mpr ⟨fun h => absurd rfl h, fun c hm _ => hm⟩
    exact hc.memoryEnd_ne _ (hothers _ hm hne) hend
  have hnz : b + n ≠ 0 := by
    intro he
    rw [he] at hsum
    have : (0 : Word).toNat = 0 := rfl
    omega
  refine ⟨hc.free.split hnew hnz,
    forall_mem_middle.mpr ⟨hhdr, (forall_mem_middle.mp hc.header).2⟩, ?_, ?_, ?_,
    List.pairwise_cons.mpr ⟨hc.apart_real hmem n, hc.apart⟩⟩
  · have hs := hc.single
    rw [List.map_append, List.map_cons] at hs ⊢
    rwa [hend]
  · exact List.forall_mem_cons.mpr ⟨(hc.header b hmem).real n, hc.inside⟩
  · refine List.forall_mem_cons.mpr ⟨forall_mem_middle.mpr ⟨fun _ => ?_, fun c hm he => ?_⟩,
      fun g hg => forall_mem_middle.mpr ⟨fun he => ?_, (forall_mem_middle.mp (hc.below g hg)).2⟩⟩
    · -- the block itself ends where the rest starts
      rw [hsum]
      exact Nat.add_le_add_left (Nat.min_le_left _ _) _
    · exact absurd he.symm (hc.memoryEnd_ne c hm)
    · have := hc.below g hg b hmem (he.trans hend)
      omega

/-- A request that leaves a rest with the room for its header, or none. -/
theorem kmalloc (hc : Carved img h given l) (hr : RestFits h (paragraphs size))
    (hk : kmalloc h fuel size = .ok (b, h')) (hb : b ≠ 0) :
    ∃ l', Carved img h' (realBlock b (paragraphs size) :: given) l' ∧
      ∀ c ∈ l', c ∈ l ∨ c = b + paragraphs size := by
  obtain ⟨hfirst, hm⟩ := firstLarge_of_kmalloc hc.free hk hb
  obtain ⟨l₁, l₂, rfl⟩ := List.append_of_mem hm
  rcases (kmalloc_cases hk).2 with ⟨h0, -⟩ | ⟨-, -, rfl⟩ | ⟨-, hrest, rfl⟩
  · exact absurd h0 hb
  · exact ⟨_, hc.unlink _, (forall_mem_middle.mp fun c hm => .inl hm).2⟩
  · obtain ⟨h0, hn⟩ := hr b hfirst (Nat.not_lt.mp hrest)
    have hold : ∀ c ∈ l₁ ++ l₂, c ∈ l₁ ++ b :: l₂ :=
      (forall_mem_middle (b := b).mp fun _ hm => hm).2
    exact ⟨_, hc.split h0 hn, forall_mem_middle.mpr ⟨.inr rfl, fun c hm => .inl (hold c hm)⟩⟩

end Carved

end Xeros
