import Xeros.Logic.Copy

/-!
# Copying a string

`copy` moves what the source holds up to its first NUL, as far as both lengths allow, and
terminates it. The loop is left with the index of the NUL, which has been copied, or with the
index behind the last byte copied; in both cases it is the number of bytes before the terminator.
-/

namespace Xeros

open Lib

variable {m : Bytes} {src dst : Word} {i n M : Nat} {srclen dstlen : Int}

/-- The first `M` bytes of the source and of the destination do not meet, and `M` does not wrap
around. -/
structure NoOverlap (src dst : Word) (M : Nat) : Prop where
  apart : ∀ j j', j < M → j' < M → src + BitVec.ofNat 32 j ≠ dst + BitVec.ofNat 32 j'
  bound : M < 0x100000000

/-- What the loop has done from index `i` on: `r` is the index it is left with. -/
structure LoopCopies (src dst : Word) (i M r : Nat) (m m' : Bytes) : Prop where
  same : ∀ j, i ≤ j → j < r → m' (dst + BitVec.ofNat 32 j) = m (src + BitVec.ofNat 32 j)
  nul : r < M → m' (dst + BitVec.ofNat 32 r) = 0
  frame : ∀ x, (∀ j, i ≤ j → j ≤ r → x ≠ dst + BitVec.ofNat 32 j) → m' x = m x

/-- The loop with `n` iterations left at index `i`. -/
theorem copyLoop_copies (hd : NoOverlap src dst M) (hM : i + n = M) :
    (copyLoop src dst n i m).1 = i + m.strnlen (src + BitVec.ofNat 32 i) n ∧
      LoopCopies src dst i M (copyLoop src dst n i m).1 m (copyLoop src dst n i m).2 := by
  induction n generalizing i m with
  | zero =>
      have hi : i = M := hM
      exact ⟨rfl, fun j hij hj => absurd hj (Nat.not_lt.mpr hij),
        fun hr => absurd hr (Nat.not_lt.mpr (Nat.le_of_eq hi.symm)), fun x _ => rfl⟩
  | succ n ih =>
      have hiM : i < M := by omega
      have hbound := hd.bound
      -- the source is as it was when its bytes are read
      have hkept : ∀ c j, j < M → m.putByte (dst + BitVec.ofNat 32 i) c (src + BitVec.ofNat 32 j)
          = m (src + BitVec.ofNat 32 j) := fun c j hj => Bytes.putByte_ne (hd.apart j i hj hiM)
      have hnext : src + BitVec.ofNat 32 i + 1 = src + BitVec.ofNat 32 (i + 1) := by
        rw [BitVec.ofNat_add]
        bv_omega
      rw [Bytes.strnlen_succ, hnext]
      unfold copyLoop
      dsimp only
      rw [hkept _ i hiM]
      generalize hc : m (src + BitVec.ofNat 32 i) = c at hkept ⊢
      by_cases hnul : c = 0
      · rw [if_pos hnul, if_pos hnul]
        refine ⟨rfl, fun j hij hj => absurd hj (Nat.not_lt.mpr hij), fun _ => ?_, fun x hx => ?_⟩
        · dsimp only
          rw [Bytes.putByte_self, hnul]
        · exact Bytes.putByte_ne (hx i (Nat.le_refl i) (Nat.le_refl i))
      · rw [if_neg hnul, if_neg hnul]
        obtain ⟨hr, hloop⟩ := ih (i := i + 1) (m := m.putByte (dst + BitVec.ofNat 32 i) c)
          (by omega)
        have hlen : (m.putByte (dst + BitVec.ofNat 32 i) c).strnlen
              (src + BitVec.ofNat 32 (i + 1)) n
            = m.strnlen (src + BitVec.ofNat 32 (i + 1)) n := by
          refine Bytes.strnlen_congr fun x hx => ?_
          obtain ⟨j, hj, rfl⟩ := hx.eq_add
          rw [BitVec.add_assoc, ← BitVec.ofNat_add]
          exact hkept c (i + 1 + j) (by omega)
        rw [hlen] at hr
        have hir : i < (copyLoop src dst n (i + 1) (m.putByte (dst + BitVec.ofNat 32 i) c)).1 := by
          omega
        have hrM : (copyLoop src dst n (i + 1) (m.putByte (dst + BitVec.ofNat 32 i) c)).1 ≤ M := by
          have hle : (copyLoop src dst n (i + 1) (m.putByte (dst + BitVec.ofNat 32 i) c)).1
              ≤ i + 1 + n := copyLoop_le
          omega
        refine ⟨by omega, fun j hij hj => ?_, hloop.nul, fun x hx => ?_⟩
        · rcases Nat.eq_or_lt_of_le hij with rfl | hij
          · rw [hloop.frame _ fun j' hj' hj'r => add_ofNat_ne (by omega) (by omega) (by omega),
              Bytes.putByte_self, hc]
          · rw [hloop.same j hij hj, hkept c j (by omega)]
        · rw [hloop.frame x fun j hij hj => hx j (by omega) hj]
          exact Bytes.putByte_ne (hx i (Nat.le_refl i) (Nat.le_of_lt hir))

/-- The first `n` bytes have been copied and terminated, and no other byte has changed. -/
structure PrefixCopied (src dst : Word) (n : Nat) (m m' : Bytes) : Prop where
  same : ∀ j, j < n → m' (dst + BitVec.ofNat 32 j) = m (src + BitVec.ofNat 32 j)
  terminated : m' (dst + BitVec.ofNat 32 n) = 0
  frame : ∀ x, (∀ j, j ≤ n → x ≠ dst + BitVec.ofNat 32 j) → m' x = m x

/-- For any lengths, from a source that the destination and the byte behind it do not meet,
`copy` returns the smaller of the two lengths and of the index of the first NUL, has copied as
many bytes and a NUL, and has changed nothing else. -/
theorem copy_moves_string (hs : 0 < srclen) (hd : 0 < dstlen)
    (hap : Apart src srclen.toNat dst (dstlen.toNat + 1)) :
    (copy m src dst srclen dstlen).1 = m.strnlen src (min srclen dstlen).toNat ∧
      PrefixCopied src dst (copy m src dst srclen dstlen).1 m (copy m src dst srclen dstlen).2 := by
  have hbound : dstlen.toNat < 0xffffffff := by
    by_contra hlong
    refine hap src ?_ ?_
    · unfold InRange
      rw [BitVec.sub_self]
      exact (Int.lt_toNat).mpr hs
    · unfold InRange
      have := (src - dst).isLt
      omega
  have hdis : NoOverlap src dst (min srclen dstlen).toNat := by
    refine ⟨fun j j' hj hj' he => ?_, by omega⟩
    refine hap (src + BitVec.ofNat 32 j) (inRange_add (by omega)) ?_
    rw [he]
    exact inRange_add (by omega)
  obtain ⟨hr, hloop⟩ := copyLoop_copies (m := m) (i := 0) hdis (Nat.zero_add _)
  rw [BitVec.add_zero, Nat.zero_add] at hr
  have hle : m.strnlen src (min srclen dstlen).toNat ≤ (min srclen dstlen).toNat :=
    Bytes.strnlen_le
  unfold copy
  dsimp only
  rw [hr] at hloop ⊢
  refine ⟨rfl, ?_⟩
  generalize m.strnlen src (min srclen dstlen).toNat = r at hle hloop
  generalize (copyLoop src dst (min srclen dstlen).toNat 0 m).2 = m' at hloop ⊢
  split
  · -- the loop has been left at its end
    refine ⟨fun j hj => ?_, Bytes.putByte_self, fun x hx => ?_⟩
    · rw [Bytes.putByte_ne (add_ofNat_ne (by omega) (by omega) (by omega))]
      exact hloop.same j (Nat.zero_le j) hj
    · rw [Bytes.putByte_ne (hx r (Nat.le_refl r))]
      exact hloop.frame x fun j _ hj => hx j hj
  · rename_i hz
    exact ⟨fun j hj => hloop.same j (Nat.zero_le j) hj, Classical.not_not.mp hz,
      fun x hx => hloop.frame x fun j _ hj => hx j hj⟩

/-- A memory that holds the string `hi` at 0x100. -/
def sampleString : Bytes := fun x => if x = 0x100 then 104 else if x = 0x101 then 105 else 0

/-- It is copied to 0x200, with room for four characters. -/
theorem copy_moves_string_of_two : (copy sampleString 0x100 0x200 8 4).1 = 2 ∧
    (copy sampleString 0x100 0x200 8 4).2 0x201 = 105 := by
  obtain ⟨hn, hcopied⟩ := @copy_moves_string sampleString 0x100 0x200 8 4 (by decide) (by decide)
    (Apart.of_le (by decide) (by decide))
  have hlen : sampleString.strnlen 0x100 (min 8 4 : Int).toNat = 2 := by decide
  rw [hlen] at hn
  rw [hn] at hcopied
  exact ⟨hn, (hcopied.same 1 (by decide)).trans (by decide)⟩

end Xeros
