import Xeros.Logic.Peers

/-!
# What `copy` reads and writes

`copy` reads the source, writes the destination and one byte behind it, and depends on
nothing else. So does the passing of a message.
-/

namespace Xeros

open Lib

variable {k k' : Kernel} {r s : Slot} {m m' : Bytes} {src dst x : Word} {S : Word → Prop}

theorem copyLoop_le {n i : Nat} : (copyLoop src dst n i m).1 ≤ i + n := by
  induction n generalizing i m with
  | zero => exact Nat.le_refl i
  | succ n ih =>
      unfold copyLoop
      dsimp only
      split
      · exact Nat.le_add_right i _
      · have := ih (i := i + 1) (m := m.putByte (dst + BitVec.ofNat 32 i)
          (m (src + BitVec.ofNat 32 i)))
        omega

/-- The loop writes the bytes `i` to `i + n - 1` of the destination at most. -/
theorem copyLoop_frame {n i : Nat} (hx : ∀ j, i ≤ j → j < i + n → x ≠ dst + BitVec.ofNat 32 j) :
    (copyLoop src dst n i m).2 x = m x := by
  induction n generalizing i m with
  | zero => rfl
  | succ n ih =>
      have hi := hx i (Nat.le_refl i) (by omega)
      have hput : ∀ c, m.putByte (dst + BitVec.ofNat 32 i) c x = m x := fun c =>
        Bytes.putByte_ne hi
      unfold copyLoop
      dsimp only
      split
      · exact hput _
      · rw [ih fun j hij hj => hx j (by omega) (by omega), hput]

/-- Two memories that agree on what the loop reads are copied alike. -/
theorem copyLoop_agree {n i : Nat} (hsrc : ∀ j, i ≤ j → j < i + n → S (src + BitVec.ofNat 32 j))
    (h : m.AgreeOn S m') :
    (copyLoop src dst n i m').1 = (copyLoop src dst n i m).1 ∧
      Bytes.AgreeOn S (copyLoop src dst n i m).2 (copyLoop src dst n i m').2 := by
  induction n generalizing i m m' with
  | zero => exact ⟨rfl, h⟩
  | succ n ih =>
      have hi := hsrc i (Nat.le_refl i) (by omega)
      have hbyte := h _ hi
      have hput := h.putByte (a := dst + BitVec.ofNat 32 i) (m (src + BitVec.ofNat 32 i))
      unfold copyLoop
      dsimp only
      rw [hbyte, hput _ hi]
      split
      · exact ⟨rfl, hput⟩
      · exact ih (fun j hij hj => hsrc j (by omega) (by omega)) hput

variable {srclen dstlen : Int}

/-- `copy` writes the destination and one byte behind it at most. -/
theorem copy_frame (hx : ¬ InRange dst (dstlen.toNat + 1) x) :
    (copy m src dst srclen dstlen).2 x = m x := by
  have hne : ∀ j, j ≤ (min srclen dstlen).toNat → x ≠ dst + BitVec.ofNat 32 j := by
    rintro j hj rfl
    exact hx (inRange_add (by omega))
  have hloop : (copyLoop src dst (min srclen dstlen).toNat 0 m).2 x = m x :=
    copyLoop_frame fun j _ hj => hne j (by omega)
  have hle : (copyLoop src dst (min srclen dstlen).toNat 0 m).1 ≤ 0 + (min srclen dstlen).toNat :=
    copyLoop_le
  unfold copy
  dsimp only
  split
  · rw [Bytes.putByte_ne (hne _ (by omega)), hloop]
  · exact hloop

/-- Two memories that agree on the source, on the destination and one byte behind it
are copied alike. -/
theorem copy_agree (hsrc : ∀ y, InRange src srclen.toNat y → S y)
    (hdst : ∀ y, InRange dst (dstlen.toNat + 1) y → S y) (h : m.AgreeOn S m') :
    (copy m' src dst srclen dstlen).1 = (copy m src dst srclen dstlen).1 ∧
      Bytes.AgreeOn S (copy m src dst srclen dstlen).2 (copy m' src dst srclen dstlen).2 := by
  have hread : ∀ j, 0 ≤ j → j < 0 + (min srclen dstlen).toNat → S (src + BitVec.ofNat 32 j) :=
    fun j _ hj => hsrc _ (inRange_add (by omega))
  obtain ⟨hn, hm⟩ : (copyLoop src dst (min srclen dstlen).toNat 0 m').1 = _ ∧
      Bytes.AgreeOn S _ (copyLoop src dst (min srclen dstlen).toNat 0 m').2 :=
    copyLoop_agree hread h
  have hle : (copyLoop src dst (min srclen dstlen).toNat 0 m).1 ≤ 0 + (min srclen dstlen).toNat :=
    copyLoop_le
  unfold copy
  dsimp only
  rw [hn]
  have hz := hm _ (hdst _ (inRange_add (j := (copyLoop src dst (min srclen dstlen).toNat 0 m).1)
    (by omega)))
  refine ⟨rfl, ?_⟩
  rw [hz]
  split
  · exact hm.putByte 0
  · exact hm

/-! ## The passing of a message -/

/-- Two kernels that agree on the arguments, the buffers and the place for the pid pass
the message alike. -/
theorem passMessage_agree (hs : ∀ i, i < 3 → k'.arg s i = k.arg s i)
    (hr : ∀ i, i < 3 → k'.arg r i = k.arg r i)
    (hpid : (k'.proctab s).pid = (k.proctab s).pid)
    (hcell : ∀ y, InRange (k.arg r 0) 4 y → S y)
    (hsrc : ∀ y, InRange (k.arg s 1) (k.arg s 2).toInt.toNat y → S y)
    (hdst : ∀ y, InRange (k.arg r 1) ((k.arg r 2).toInt.toNat + 1) y → S y)
    (h : k.mem.AgreeOn S k'.mem) :
    (passMessage k' s r).1 = (passMessage k s r).1 ∧
      Bytes.AgreeOn S (passMessage k s r).2 (passMessage k' s r).2 := by
  have hann : (announce k s r).AgreeOn S (announce k' s r) := by
    unfold announce
    rw [hr 0 (by decide), hpid, h.word hcell]
    split
    · exact h.putWord
    · exact h
  unfold passMessage
  rw [hs 1 (by decide), hs 2 (by decide), hr 1 (by decide), hr 2 (by decide)]
  exact copy_agree hsrc hdst hann

/-- The receiver finds the pid of the sender in its place, unless the message is written
over it. -/
theorem passMessage_from
    (hfrom : k.mem.word (k.arg r 0) = 0 ∨ k.mem.word (k.arg r 0) = (k.proctab s).pid)
    (hap : Apart (k.arg r 0) 4 (k.arg r 1) ((k.arg r 2).toInt.toNat + 1)) :
    (passMessage k s r).2.word (k.arg r 0) = (k.proctab s).pid := by
  have hann : (announce k s r).word (k.arg r 0) = (k.proctab s).pid := by
    unfold announce
    split
    · exact Bytes.word_putWord
    · exact hfrom.resolve_left ‹_›
  rw [← hann]
  exact Bytes.word_congr fun x hx => copy_frame (hap x hx)

end Xeros
