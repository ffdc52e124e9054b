import Xeros.Logic.Boot
import Xeros.Logic.Driver

/-!
# Writing to a device

`SYS_WRITE` prints the buffer of its caller before it calls the device. `printbuffer` passes the
two buffers to `blkcopy` in the wrong order, so the bytes found in its local array are copied
over those to be written; and it has room for lengths up to `MAXBUFFSIZE-1` only.
-/

namespace Xeros

open Lib

variable {k : Kernel} {p : Slot} {a : Ambient}

/-- `SYS_WRITE` comes back with an error for its caller, and nothing else has changed. -/
def WritesNothing (k : Kernel) (p : Slot) (a : Ambient) : Prop :=
  ∃ v : Word, v.toInt < 0 ∧ serve k p a .write = .ok (k.setRet p v, p)

/-- The length fits the local array, and the buffer holds the bytes that are found there. -/
structure PrintsInPlace (a : Ambient) (m : Bytes) (buff : Word) (len : Int) : Prop where
  nonneg : 0 ≤ len
  short : len < 256
  same : ∀ i, i < len.toNat → a.localbuff (BitVec.ofNat 32 i) = m (buff + BitVec.ofNat 32 i)

/-- What `SYS_WRITE` leaves if `printbuffer` comes back. -/
theorem serve_write (hw : NoWrite k) : serve k p a .write =
    if 0 ≤ (k.arg p 2).toInt ∧ (k.arg p 2).toInt < 256 then
      .ok ((k.setMem (k.mem.splice (k.arg p 1) (k.arg p 2).toInt.toNat a.localbuff)).setRet p
        (toWord (-1)), p)
    else .error .wild := by
  simp only [serve, sysWrite, printbuffer]
  split
  · have hw' : NoWrite (k.setMem (k.mem.splice (k.arg p 1) (k.arg p 2).toInt.toNat
        a.localbuff)) := hw
    simp only [pure, Except.pure, bind, Except.bind, diWrite_unsupported hw']
  · rfl

/-- For every descriptor, buffer and length, with no driver that writes, `SYS_WRITE` returns an
error and changes no byte exactly if it prints in place. -/
theorem write_changes_nothing_iff (hw : NoWrite k) :
    WritesNothing k p a ↔ PrintsInPlace a k.mem (k.arg p 1) (k.arg p 2).toInt := by
  unfold WritesNothing
  rw [serve_write hw]
  constructor
  · rintro ⟨v, -, h⟩
    split at h
    · rename_i hlen
      simp only [Except.ok.injEq, Prod.mk.injEq, and_true] at h
      have hmem : k.mem.splice (k.arg p 1) (k.arg p 2).toInt.toNat a.localbuff = k.mem :=
        congrArg Kernel.mem h
      exact ⟨hlen.1, hlen.2, Bytes.splice_eq_self_iff.mp hmem⟩
    · cases h
  · intro h
    rw [if_pos ⟨h.nonneg, h.short⟩, Bytes.splice_eq_self_iff.mpr h.same]
    exact ⟨toWord (-1), by decide, rfl⟩

/-- The root process of the sample machine writes the first of its argument words, which is the
descriptor 7. -/
def writingWord : Kernel :=
  contextswitch sampleBoot.k sampleBoot.p (sampleCall .write [7, 0x60000, 4])

theorem writingWord_noWrite : NoWrite writingWord := by
  show ∀ i, (writingWord.devtab i).dvwrite = .unsupported
  decide +kernel

/-- The local array happens to hold the same bytes. -/
def foundWord : Ambient := { sampleAmbient with localbuff := fun i => if i = 0 then 7 else 0 }

/-- The four bytes are copied over themselves: it gets an error and finds its memory as it was. -/
theorem write_of_found_word : (writingWord.arg sampleBoot.p 2).toInt = 4 ∧
    writingWord.mem 0x60000 = 7 ∧ WritesNothing writingWord sampleBoot.p foundWord := by
  have hlen : (writingWord.arg sampleBoot.p 2).toInt = 4 := by decide +kernel
  have hsame : ∀ i : Fin 4, foundWord.localbuff (BitVec.ofNat 32 i)
      = writingWord.mem (writingWord.arg sampleBoot.p 1 + BitVec.ofNat 32 i) := by decide +kernel
  refine ⟨hlen, by decide +kernel, (write_changes_nothing_iff writingWord_noWrite).mpr
    ⟨?_, ?_, fun i hi => ?_⟩⟩
  · rw [hlen]
    decide
  · rw [hlen]
    decide
  · rw [hlen] at hi
    exact hsame ⟨i, hi⟩

/-- With a local array of zeros the word is overwritten. -/
theorem write_overwrites_buffer : ¬ ∀ (k : Kernel) (p : Slot) (a : Ambient), NoWrite k →
    WritesNothing k p a := by
  intro h
  obtain ⟨v, -, hv⟩ := h writingWord sampleBoot.p sampleAmbient writingWord_noWrite
  have hbyte : ((serve writingWord sampleBoot.p sampleAmbient .write).getD (writingWord, 0)).1.mem
      0x60000 = 0 := by decide +kernel
  rw [hv] at hbyte
  have hseven : writingWord.mem 0x60000 = 7 := by decide +kernel
  exact absurd (hseven.symm.trans hbyte) (by decide)

end Xeros
