import Xeros.Kernel.Create
import Xeros.Lib.DList

/-!
# The free list of the allocator

The headers of the free blocks form a doubly linked list. `kmalloc` takes the
first block that is large enough and either cuts it out of the list or puts the
rest of it in its place; the sizes that the headers hold stay as they are, also
that of the rest.
-/

namespace Xeros

open Lib

variable {h h' : Heap} {b c p r n : Word} {l l₁ l₂ : List Word} {fuel : Nat}

/-! ## The list -/

/-- The pointer with a given address. -/
def pointer (a : Word) : Option Word := if a = 0 then none else some a

@[simp] theorem pointer_eq_none : pointer b = none ↔ b = 0 := by
  unfold pointer
  split <;> simp_all

@[simp] theorem pointer_eq_some : pointer b = some c ↔ b = c ∧ c ≠ 0 := by
  unfold pointer
  split <;> grind

/-- The links of the headers. -/
def Heap.nextOf (h : Heap) (b : Word) : Option Word := pointer (h.hdr b).next

@[inherit_doc Heap.nextOf]
def Heap.prevOf (h : Heap) (b : Word) : Option Word := pointer (h.hdr b).prev

/-- The free blocks are those in `l`. -/
structure FreeList (h : Heap) (l : List Word) : Prop where
  links : DList h.nextOf h.prevOf none (pointer h.head) l
  nodup : l.Nodup

/-- No block starts at address 0. -/
theorem ne_zero_of_chain {x : Option Word} (hx : x ≠ some 0) (hc : Chain h.nextOf x l)
    (hb : b ∈ l) : b ≠ 0 := by
  induction l generalizing x with
  | nil => cases hb
  | cons c l ih =>
      obtain ⟨rfl, hc⟩ := hc
      rcases List.mem_cons.mp hb with rfl | hb
      · simpa using hx
      · exact ih (by simp [Heap.nextOf]) hc hb

theorem FreeList.ne_zero (hl : FreeList h l) (hb : b ∈ l) : b ≠ 0 :=
  ne_zero_of_chain (by simp) hl.links.chain hb

/-! ## The search -/

/-- `kmalloc` finds the first block that is large enough, or reaches the end. -/
theorem findBlock_cases (hc : Chain h.nextOf (pointer b) l)
    (hf : findBlock h n fuel b = .ok p) :
    (p = 0 ∧ ∀ c ∈ l, (h.hdr c).size.slt n) ∨
      ∃ l₁ l₂, l = l₁ ++ p :: l₂ ∧ p ≠ 0 ∧ (∀ c ∈ l₁, (h.hdr c).size.slt n) ∧
        ¬ (h.hdr p).size.slt n := by
  induction fuel generalizing b l with
  | zero => cases hf
  | succ fuel ih =>
      unfold findBlock at hf
      cases l with
      | nil =>
          have hb : b = 0 := by simpa using hc
          rw [if_neg (by simp [hb])] at hf
          cases hf
          exact .inl ⟨hb, by simp⟩
      | cons d l =>
          obtain ⟨hd, hc⟩ := hc
          obtain ⟨rfl, hb⟩ := pointer_eq_some.mp hd
          split at hf
          · rename_i hsmall
            rcases ih hc hf with ⟨h0, hall⟩ | ⟨l₁, l₂, rfl, hp, hall, hbig⟩
            · exact .inl ⟨h0, List.forall_mem_cons.mpr ⟨hsmall.2, hall⟩⟩
            · exact .inr ⟨b :: l₁, l₂, rfl, hp, List.forall_mem_cons.mpr ⟨hsmall.2, hall⟩, hbig⟩
          · rename_i hbig
            cases hf
            exact .inr ⟨[], l, rfl, hb, by simp, fun hs => hbig ⟨hb, hs⟩⟩

/-- The search comes to an end. -/
theorem findBlock_ok (hc : Chain h.nextOf (pointer b) l) (hf : l.length < fuel) :
    ∃ p, findBlock h n fuel b = .ok p := by
  induction fuel generalizing b l with
  | zero => omega
  | succ fuel ih =>
      unfold findBlock
      split
      · cases l with
        | nil =>
            rename_i hb
            exact absurd (by simpa using hc) hb.1
        | cons d l =>
            obtain ⟨hd, hc⟩ := hc
            obtain ⟨rfl, -⟩ := pointer_eq_some.mp hd
            exact ih hc (by simpa using hf)
      · exact ⟨b, rfl⟩

/-! ## What becomes of the block -/

/-- A header is updated through a pointer, unless it is `NULL`. -/
def Heap.updAt (h : Heap) (a : Word) (f : MemHdr → MemHdr) : Heap :=
  if a ≠ 0 then h.upd a f else h

theorem Heap.updAt_hdr (h : Heap) (a b : Word) (f : MemHdr → MemHdr) :
    (h.updAt a f).hdr b = if pointer a = some b then f (h.hdr b) else h.hdr b := by
  unfold updAt
  by_cases ha : a = 0
  · subst ha
    rw [if_neg (by simp), if_neg]
    exact fun h => (pointer_eq_some.mp h).2 (pointer_eq_some.mp h).1.symm
  · rw [if_pos ha]
    by_cases hb : b = a
    · subst hb
      rw [if_pos (pointer_eq_some.mpr ⟨rfl, ha⟩)]
      simp [upd]
    · rw [if_neg fun h => hb (pointer_eq_some.mp h).1.symm]
      simp [upd, hb]

@[simp] theorem Heap.updAt_head (h : Heap) (a : Word) (f : MemHdr → MemHdr) :
    (h.updAt a f).head = h.head := by
  unfold updAt
  split <;> rfl

/-- The link to a block is changed to `v`: it is that of the block before, at `a`, or the
head of the list. -/
def Heap.linkAt (h : Heap) (a v : Word) : Heap :=
  if a ≠ 0 then h.upd a fun b => { b with next := v } else { h with head := v }

theorem Heap.linkAt_hdr (h : Heap) (a b v : Word) :
    (h.linkAt a v).hdr b
      = if pointer a = some b then { h.hdr b with next := v } else h.hdr b := by
  rw [← updAt_hdr h a b fun b => { b with next := v }]
  unfold linkAt updAt
  split <;> rfl

theorem Heap.linkAt_head (h : Heap) (a v : Word) :
    (h.linkAt a v).head = if a = 0 then v else h.head := by
  unfold linkAt
  by_cases ha : a = 0
  · rw [if_neg (by simpa using ha), if_pos ha]
  · rw [if_pos ha, if_neg ha]
    rfl

/-- The block `p` is cut out of the list. -/
def Heap.unlink (h : Heap) (p : Word) : Heap :=
  let h := h.updAt (h.hdr p).next fun b => { b with prev := (h.hdr p).prev }
  h.linkAt (h.hdr p).prev (h.hdr p).next

/-- The rest of the block `p`, at `r`, takes its place. -/
def Heap.split (h : Heap) (p r : Word) : Heap :=
  let h := h.upd r fun _ => h.hdr p
  let h := h.updAt (h.hdr p).next fun b => { b with prev := r }
  h.linkAt (h.hdr p).prev r

/-- A size rounded up to a paragraph. -/
def paragraphs (size : Word) : Word :=
  if size &&& 0xf ≠ 0 then (size + 0x10) &&& paragraphMask else size

theorem kmalloc_eq (h : Heap) (fuel : Nat) (size : Word) :
    kmalloc h fuel size = (findBlock h (paragraphs size) fuel h.head >>= fun p =>
      if p = 0 then .ok (0, h)
      else if ((h.hdr p).size - paragraphs size).toNat < memHdrSize then .ok (p, h.unlink p)
      else .ok (p, h.split p (p + paragraphs size))) := rfl

/-- `kmalloc` hands out the block found, whole or cut. -/
theorem kmalloc_cases {size : Word} (hk : kmalloc h fuel size = .ok (b, h')) :
    findBlock h (paragraphs size) fuel h.head = .ok b ∧
      ((b = 0 ∧ h' = h) ∨
        (b ≠ 0 ∧ ((h.hdr b).size - paragraphs size).toNat < memHdrSize ∧ h' = h.unlink b) ∨
        (b ≠ 0 ∧ ¬ ((h.hdr b).size - paragraphs size).toNat < memHdrSize ∧
          h' = h.split b (b + paragraphs size))) := by
  rw [kmalloc_eq, Run.bind_eq_ok] at hk
  obtain ⟨p, hp, hk⟩ := hk
  split at hk
  · rename_i h0
    simp only [Except.ok.injEq, Prod.mk.injEq] at hk
    obtain ⟨rfl, rfl⟩ := hk
    exact ⟨h0 ▸ hp, .inl ⟨rfl, rfl⟩⟩
  · rename_i h0
    split at hk
    · rename_i hrest
      simp only [Except.ok.injEq, Prod.mk.injEq] at hk
      obtain ⟨rfl, rfl⟩ := hk
      exact ⟨hp, .inr (.inl ⟨h0, hrest, rfl⟩)⟩
    · rename_i hrest
      simp only [Except.ok.injEq, Prod.mk.injEq] at hk
      obtain ⟨rfl, rfl⟩ := hk
      exact ⟨hp, .inr (.inr ⟨h0, hrest, rfl⟩)⟩

/-- With a free list `kmalloc` comes back. -/
theorem kmalloc_ok (hl : FreeList h l) (hf : l.length < fuel) (size : Word) :
    ∃ b h', kmalloc h fuel size = .ok (b, h') := by
  obtain ⟨p, hp⟩ := findBlock_ok (n := paragraphs size) hl.links.chain hf
  rw [kmalloc_eq, hp]
  dsimp only [bind, Except.bind]
  split
  · exact ⟨_, _, rfl⟩
  split <;> exact ⟨_, _, rfl⟩

/-! ## The list afterwards -/

/-- The headers after the block `p` has been cut out. -/
theorem Heap.unlink_hdr (hne : (h.hdr p).next ≠ p) (b : Word) :
    (h.unlink p).nextOf b = (if h.prevOf p = some b then h.nextOf p else h.nextOf b) ∧
      (h.unlink p).prevOf b = (if h.nextOf p = some b then h.prevOf p else h.prevOf b) ∧
      ((h.unlink p).hdr b).size = (h.hdr b).size := by
  have hp : (h.updAt (h.hdr p).next fun b => { b with prev := (h.hdr p).prev }).hdr p
      = h.hdr p := by
    rw [updAt_hdr, if_neg]
    exact fun h => hne (pointer_eq_some.mp h).1
  unfold unlink
  dsimp only
  rw [hp]
  unfold nextOf prevOf
  rw [linkAt_hdr, updAt_hdr]
  refine ⟨?_, ?_, ?_⟩ <;> split <;> split <;> rfl

theorem Heap.unlink_head (hne : (h.hdr p).next ≠ p) :
    (h.unlink p).head = if (h.hdr p).prev = 0 then (h.hdr p).next else h.head := by
  have hp : (h.updAt (h.hdr p).next fun b => { b with prev := (h.hdr p).prev }).hdr p
      = h.hdr p := by
    rw [updAt_hdr, if_neg]
    exact fun h => hne (pointer_eq_some.mp h).1
  unfold unlink
  dsimp only
  rw [hp, linkAt_head, updAt_head]

/-- The headers after the rest of the block `p` has taken its place. -/
theorem Heap.split_hdr (hr : r ≠ p) (hne : (h.hdr p).next ≠ p) (b : Word) :
    (h.split p r).nextOf b = (if h.prevOf p = some b then pointer r
      else if b = r then h.nextOf p else h.nextOf b) ∧
      (h.split p r).prevOf b = (if h.nextOf p = some b then pointer r
        else if b = r then h.prevOf p else h.prevOf b) ∧
      ((h.split p r).hdr b).size = if b = r then (h.hdr p).size else (h.hdr b).size := by
  have hp : (h.upd r fun _ => h.hdr p).hdr p = h.hdr p := by simp [upd, Ne.symm hr]
  have hp' : ((h.upd r fun _ => h.hdr p).updAt (h.hdr p).next fun b => { b with prev := r }).hdr p
      = h.hdr p := by
    rw [updAt_hdr, if_neg, hp]
    exact fun h => hne (pointer_eq_some.mp h).1
  unfold split
  dsimp only
  rw [hp, hp']
  unfold nextOf prevOf
  rw [linkAt_hdr, updAt_hdr]
  unfold upd
  refine ⟨?_, ?_, ?_⟩ <;> dsimp only <;> split <;> split <;> split <;> simp_all

theorem Heap.split_head (hr : r ≠ p) (hne : (h.hdr p).next ≠ p) :
    (h.split p r).head = if (h.hdr p).prev = 0 then r else h.head := by
  have hp : (h.upd r fun _ => h.hdr p).hdr p = h.hdr p := by simp [upd, Ne.symm hr]
  have hp' : ((h.upd r fun _ => h.hdr p).updAt (h.hdr p).next fun b => { b with prev := r }).hdr p
      = h.hdr p := by
    rw [updAt_hdr, if_neg, hp]
    exact fun h => hne (pointer_eq_some.mp h).1
  unfold split
  dsimp only
  rw [hp, hp', linkAt_head, updAt_head]
  rfl

/-- No block is behind itself. -/
theorem FreeList.next_ne (hl : FreeList h (l₁ ++ p :: l₂)) : (h.hdr p).next ≠ p := by
  intro hn
  have hmem : p ∈ l₁ ++ p :: l₂ := by simp
  have hnext : h.nextOf p = some p := by
    rw [Heap.nextOf, hn, pointer_eq_some]
    exact ⟨rfl, hl.ne_zero hmem⟩
  rw [hl.links.next_eq] at hnext
  have hp : p ∈ l₂ := List.mem_of_mem_head? hnext
  have hnd := (List.nodup_append.mp hl.nodup).2.1
  exact (List.nodup_cons.mp hnd).1 hp

/-- A block that is handed out whole leaves the list. -/
theorem FreeList.unlink (hl : FreeList h (l₁ ++ p :: l₂)) :
    FreeList (h.unlink p) (l₁ ++ l₂) := by
  have hne := hl.next_ne
  refine ⟨?_, ?_⟩
  · have hcut := hl.links.cut hl.nodup (fun b _ => (Heap.unlink_hdr hne b).1)
      fun b _ => (Heap.unlink_hdr hne b).2.1
    rw [Heap.unlink_head hne]
    convert hcut using 1
    simp only [Heap.prevOf, Heap.nextOf, pointer_eq_none]
    split <;> rfl
  · exact hl.nodup.sublist (List.Sublist.append_left (List.sublist_cons_self p l₂) l₁)

/-- The rest of a block that is handed out takes its place in the list. -/
theorem FreeList.split (hl : FreeList h (l₁ ++ p :: l₂)) (hr : r ∉ l₁ ++ p :: l₂)
    (h0 : r ≠ 0) : FreeList (h.split p r) (l₁ ++ r :: l₂) := by
  have hne := hl.next_ne
  have hrp : r ≠ p := by
    rintro rfl
    exact hr (by simp)
  have hr₁ : pointer r = some r := pointer_eq_some.mpr ⟨rfl, h0⟩
  have hmem : ∀ b ∈ l₁ ++ l₂, b ≠ r := by
    rintro b hb rfl
    rcases List.mem_append.mp hb with hb | hb
    · exact hr (List.mem_append_left _ hb)
    · exact hr (List.mem_append_right _ (List.mem_cons_of_mem _ hb))
  have hprev : h.prevOf p ≠ some r := by
    rw [hl.links.prev_eq, Option.or_none]
    exact fun h => hr (List.mem_append_left _ (List.mem_of_getLast? h))
  have hnext : h.nextOf p ≠ some r := by
    rw [hl.links.next_eq]
    exact fun h => hr (List.mem_append_right _ (List.mem_cons_of_mem _ (List.mem_of_mem_head? h)))
  refine ⟨?_, ?_⟩
  · have hnr : (h.split p r).nextOf r = h.nextOf p := by
      rw [(Heap.split_hdr hrp hne r).1, if_neg hprev, if_pos rfl]
    have hpr : (h.split p r).prevOf r = h.prevOf p := by
      rw [(Heap.split_hdr hrp hne r).2.1, if_neg hnext, if_pos rfl]
    have hrep := hl.links.replace hl.nodup hnr hpr
      (fun b hb => by rw [(Heap.split_hdr hrp hne b).1, if_neg (hmem b hb), hr₁])
      (fun b hb => by rw [(Heap.split_hdr hrp hne b).2.1, if_neg (hmem b hb), hr₁])
    rw [Heap.split_head hrp hne]
    convert hrep using 1
    simp only [Heap.prevOf, pointer_eq_none, ← hr₁]
    split <;> rfl
  · have hnd := List.nodup_middle.mp hl.nodup
    refine List.nodup_middle.mpr (List.nodup_cons.mpr ⟨fun hm => hmem r hm rfl, ?_⟩)
    exact (List.nodup_cons.mp hnd).2

end Xeros
