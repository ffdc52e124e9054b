import Xeros.Logic.Copy

/-!
# The addresses that `copy` touches

`copy` again, with a log of what it reads and writes. The loop stops at the first NUL it meets.
It copies upwards, so when the destination begins inside the source, a NUL further on has been
overwritten by the time the loop gets there.
-/

namespace Xeros

open Lib

/-- An access of `copy`: a byte of the source is read, the byte of the destination that may
need a terminator is read, a byte is written. -/
inductive Access where
  | read (x : Word)
  | test (x : Word)
  | write (x : Word)
  deriving DecidableEq, Repr

/-- The memory, and the accesses so far. -/
structure Logged where
  mem : Bytes
  log : List Access

namespace Logged

/-- A byte of the source is read. -/
def read (s : Logged) (x : Word) : Logged := { s with log := s.log ++ [.read x] }

/-- The byte at the end of the message is read. -/
def test (s : Logged) (x : Word) : Logged := { s with log := s.log ++ [.test x] }

/-- A byte is written. -/
def write (s : Logged) (x : Word) (c : Byte) : Logged :=
  { mem := s.mem.putByte x c, log := s.log ++ [.write x] }

@[simp] theorem read_mem (s : Logged) (x : Word) : (s.read x).mem = s.mem := rfl
@[simp] theorem test_mem (s : Logged) (x : Word) : (s.test x).mem = s.mem := rfl
@[simp] theorem write_mem (s : Logged) (x : Word) (c : Byte) :
    (s.write x c).mem = s.mem.putByte x c := rfl

theorem mem_read {s : Logged} {x : Word} {e : Access} :
    e ∈ (s.read x).log ↔ e ∈ s.log ∨ e = .read x := by
  simp [read]

theorem mem_test {s : Logged} {x : Word} {e : Access} :
    e ∈ (s.test x).log ↔ e ∈ s.log ∨ e = .test x := by
  simp [test]

theorem mem_write {s : Logged} {x : Word} {c : Byte} {e : Access} :
    e ∈ (s.write x c).log ↔ e ∈ s.log ∨ e = .write x := by
  simp [write]

end Logged

/-- One turn of the loop: `destination[i]=source[i]`, and `source[i]` is looked at again. -/
def copyTurn (src dst : Word) (i : Nat) (s : Logged) : Logged :=
  ((s.read (src + BitVec.ofNat 32 i)).write (dst + BitVec.ofNat 32 i)
    (s.mem (src + BitVec.ofNat 32 i))).read (src + BitVec.ofNat 32 i)

/-- The loop of `copy`. -/
def loggedLoop (src dst : Word) : Nat → Nat → Logged → Nat × Logged
  | 0, i, s => (i, s)
  | n + 1, i, s =>
    let s := copyTurn src dst i s
    if s.mem (src + BitVec.ofNat 32 i) = 0 then (i, s) else loggedLoop src dst n (i + 1) s

/-- `copy`, from a memory on. -/
def loggedCopy (m : Bytes) (src dst : Word) (srclen dstlen : Int) : Nat × Logged :=
  let (i, s) := loggedLoop src dst (min srclen dstlen).toNat 0 { mem := m, log := [] }
  let z := dst + BitVec.ofNat 32 i
  (i, if s.mem z ≠ 0 then (s.test z).write z 0 else s.test z)

variable {src dst x : Word} {srclen dstlen : Int} {m : Bytes} {s : Logged} {e : Access}
  {n i j w : Nat}

@[simp] theorem copyTurn_mem : (copyTurn src dst i s).mem =
    s.mem.putByte (dst + BitVec.ofNat 32 i) (s.mem (src + BitVec.ofNat 32 i)) := rfl

theorem mem_copyTurn : e ∈ (copyTurn src dst i s).log ↔ e ∈ s.log ∨
    e = .read (src + BitVec.ofNat 32 i) ∨ e = .write (dst + BitVec.ofNat 32 i) := by
  unfold copyTurn
  rw [Logged.mem_read, Logged.mem_write, Logged.mem_read]
  tauto

/-! ## The log changes nothing -/

theorem loggedLoop_eq (src dst : Word) (n i : Nat) (s : Logged) :
    (loggedLoop src dst n i s).1 = (copyLoop src dst n i s.mem).1 ∧
      (loggedLoop src dst n i s).2.mem = (copyLoop src dst n i s.mem).2 := by
  induction n generalizing i s with
  | zero => exact ⟨rfl, rfl⟩
  | succ n ih =>
      unfold loggedLoop copyLoop
      dsimp only
      rw [copyTurn_mem]
      split
      · exact ⟨rfl, rfl⟩
      · exact ih _ _

/-- The logged `copy` returns what `copy` returns, and leaves the memory that it leaves. -/
theorem loggedCopy_eq : (loggedCopy m src dst srclen dstlen).1 = (copy m src dst srclen dstlen).1 ∧
    (loggedCopy m src dst srclen dstlen).2.mem = (copy m src dst srclen dstlen).2 := by
  obtain ⟨hi, hm⟩ := loggedLoop_eq src dst (min srclen dstlen).toNat 0 { mem := m, log := [] }
  unfold loggedCopy copy
  dsimp only
  rw [hi, hm]
  refine ⟨rfl, ?_⟩
  split
  · rw [Logged.write_mem, Logged.test_mem, hm]
  · rw [Logged.test_mem, hm]

/-! ## Where the loop stops -/

/-- How far a NUL of the source can stop the loop: up to the destination, when that begins
behind the source. -/
def nulReach (src dst : Word) (n : Nat) : Nat := if dst = src then n else min n (dst - src).toNat

/-- The length of the text at `src`: the first NUL that the loop meets within `n` bytes, or
`n`. -/
def textLen (m : Bytes) (src dst : Word) (n : Nat) : Nat :=
  ((List.range (nulReach src dst n)).find? fun j => m (src + BitVec.ofNat 32 j) = 0).getD n

theorem nulReach_le : nulReach src dst n ≤ n := by
  unfold nulReach
  split
  · exact Nat.le_refl n
  · exact Nat.min_le_left _ _

/-- The text ends with the first NUL. -/
theorem textLen_nul (hi : i < nulReach src dst n) (h0 : m (src + BitVec.ofNat 32 i) = 0)
    (hne : ∀ j, j < i → m (src + BitVec.ofNat 32 j) ≠ 0) : textLen m src dst n = i := by
  have hfind : (List.range (nulReach src dst n)).find?
      (fun j => decide (m (src + BitVec.ofNat 32 j) = 0)) = some i := by
    rw [List.find?_range_eq_some]
    refine ⟨by simp [h0], List.mem_range.mpr hi, fun j hj => ?_⟩
    rw [decide_eq_false (hne j hj)]
    rfl
  unfold textLen
  rw [hfind]
  rfl

/-- Without a NUL, it fills the `n` bytes. -/
theorem textLen_full (hne : ∀ j, j < nulReach src dst n → m (src + BitVec.ofNat 32 j) ≠ 0) :
    textLen m src dst n = n := by
  have hfind : (List.range (nulReach src dst n)).find?
      (fun j => decide (m (src + BitVec.ofNat 32 j) = 0)) = none := by
    rw [List.find?_range_eq_none]
    intro j hj
    rw [decide_eq_false (hne j hj)]
    rfl
  unfold textLen
  rw [hfind]
  rfl

/-- The text is shorter than the `n` bytes if and only if the loop meets a NUL. -/
theorem textLen_lt_iff : textLen m src dst n < n ↔
    ∃ j, j < nulReach src dst n ∧ m (src + BitVec.ofNat 32 j) = 0 := by
  constructor
  · intro h
    by_contra hno
    push Not at hno
    rw [textLen_full hno] at h
    exact Nat.lt_irrefl n h
  · rintro ⟨j, hj, h0⟩
    unfold textLen
    cases hfind : (List.range (nulReach src dst n)).find?
        (fun j => decide (m (src + BitVec.ofNat 32 j) = 0)) with
    | none =>
        rw [List.find?_range_eq_none] at hfind
        have := hfind j hj
        simp [h0] at this
    | some i =>
        rw [List.find?_range_eq_some] at hfind
        exact Nat.lt_of_lt_of_le (List.mem_range.mp hfind.2.1) nulReach_le

theorem textLen_le : textLen m src dst n ≤ n := by
  by_cases h : ∃ j, j < nulReach src dst n ∧ m (src + BitVec.ofNat 32 j) = 0
  · exact Nat.le_of_lt (textLen_lt_iff.mpr h)
  · push Not at h
    exact Nat.le_of_eq (textLen_full h)

/-- What is known when the loop begins its turn `i`: the first `i` bytes of the destination
are written and none of them is NUL, and the rest of the memory is as it was. -/
structure Copied (m m' : Bytes) (src dst : Word) (i : Nat) : Prop where
  written : ∀ j, j < i → m' (dst + BitVec.ofNat 32 j) ≠ 0
  rest : ∀ x, (∀ j, j < i → x ≠ dst + BitVec.ofNat 32 j) → m' x = m x

theorem Copied.start : Copied m m src dst 0 :=
  ⟨fun j hj => absurd hj (Nat.not_lt_zero j), fun _ _ => rfl⟩

variable {m' : Bytes}

/-- The byte that is looked at again is the byte that was copied. -/
theorem putByte_read {a b : Word} : m.putByte b (m a) a = m a := by
  by_cases h : a = b
  · rw [h, Bytes.putByte_self]
  · exact Bytes.putByte_ne h

/-- The loop meets a NUL in its turn `i` if the source had one there and the loop has not
written over it. -/
theorem Copied.nul_iff (h : Copied m m' src dst i) (hi : i < n) (hn : n ≤ 0x100000000) :
    m' (src + BitVec.ofNat 32 i) = 0 ↔
      i < nulReach src dst n ∧ m (src + BitVec.ofNat 32 i) = 0 := by
  have hfresh : i < nulReach src dst n → m' (src + BitVec.ofNat 32 i) =
      m (src + BitVec.ofNat 32 i) := by
    intro hr
    refine h.rest _ fun j hj heq => ?_
    unfold nulReach at hr
    split at hr
    · bv_omega
    · bv_omega
  constructor
  · intro h0
    have hr : i < nulReach src dst n := by
      by_contra hr
      unfold nulReach at hr
      split at hr
      · exact hr hi
      · -- the byte was written, and not with NUL
        have hd : (dst - src).toNat ≤ i := by omega
        have hback : src + BitVec.ofNat 32 i =
            dst + BitVec.ofNat 32 (i - (dst - src).toNat) := by bv_omega
        rw [hback] at h0
        exact h.written _ (by bv_omega) h0
    exact ⟨hr, (hfresh hr).symm.trans h0⟩
  · rintro ⟨hr, h0⟩
    rw [hfresh hr, h0]

theorem Copied.turn (h : Copied m m' src dst i) (hi : i < 0x100000000)
    (hne : m' (src + BitVec.ofNat 32 i) ≠ 0) :
    Copied m (m'.putByte (dst + BitVec.ofNat 32 i) (m' (src + BitVec.ofNat 32 i))) src dst
      (i + 1) := by
  constructor
  · intro j hj
    rcases Nat.lt_succ_iff_lt_or_eq.mp hj with hlt | rfl
    · rw [Bytes.putByte_ne (by bv_omega)]
      exact h.written j hlt
    · rw [Bytes.putByte_self]
      exact hne
  · intro x hx
    rw [Bytes.putByte_ne (hx i (Nat.lt_succ_self i))]
    exact h.rest x fun j hj => hx j (Nat.lt_succ_of_lt hj)

/-! ## What is accessed -/

/-- The loop stops at the end of the text, and has read and written the bytes up to it, and
the NUL that ends it within the `n` bytes. -/
theorem loggedLoop_spec (src dst : Word) (h : Copied m s.mem src dst i) (hn : i + n ≤ 0x100000000)
    (hne : ∀ j, j < i → j < nulReach src dst (i + n) → m (src + BitVec.ofNat 32 j) ≠ 0) :
    (loggedLoop src dst n i s).1 = textLen m src dst (i + n) ∧
      ∀ e, e ∈ (loggedLoop src dst n i s).2.log ↔ e ∈ s.log ∨
        ∃ j, i ≤ j ∧ j < i + n ∧ j ≤ textLen m src dst (i + n) ∧
          (e = .read (src + BitVec.ofNat 32 j) ∨ e = .write (dst + BitVec.ofNat 32 j)) := by
  induction n generalizing i s with
  | zero =>
      have hlen := textLen_full fun j hj => hne j (Nat.lt_of_lt_of_le hj nulReach_le) hj
      refine ⟨hlen.symm, fun e => ⟨.inl, ?_⟩⟩
      rintro (he | ⟨j, hij, hj, -⟩)
      · exact he
      · omega
  | succ n ih =>
      have hi : i < i + (n + 1) := by omega
      have hcopied : (copyTurn src dst i s).mem (src + BitVec.ofNat 32 i) =
          s.mem (src + BitVec.ofNat 32 i) := putByte_read
      unfold loggedLoop
      dsimp only
      rw [hcopied]
      split
      · -- the byte is the NUL: it is read and written, and the loop stops
        rename_i h0
        have hr := (h.nul_iff hi hn).mp h0
        have hlen : textLen m src dst (i + (n + 1)) = i :=
          textLen_nul hr.1 hr.2 fun j hj => hne j hj (Nat.lt_trans hj hr.1)
        refine ⟨hlen.symm, fun e => ?_⟩
        rw [mem_copyTurn, hlen]
        refine or_congr_right ⟨fun he => ⟨i, Nat.le_refl i, hi, Nat.le_refl i, he⟩, ?_⟩
        rintro ⟨j, hij, -, hji, he⟩
        rwa [Nat.le_antisymm hji hij] at he
      · -- it is part of the text, which ends behind it
        rename_i h0
        have hnext : i + 1 + n = i + (n + 1) := by omega
        have hih := ih (i := i + 1) (s := copyTurn src dst i s)
          (h.turn (by omega) h0) (by omega) ?_
        · rw [hnext] at hih
          obtain ⟨hlen, hlog⟩ := hih
          refine ⟨hlen, fun e => ?_⟩
          have hge : i + 1 ≤ textLen m src dst (i + (n + 1)) := by
            rw [← hlen, (loggedLoop_eq src dst n (i + 1) (copyTurn src dst i s)).1]
            exact copyLoop_ge
          rw [hlog, mem_copyTurn, or_assoc]
          refine or_congr_right ⟨?_, ?_⟩
          · rintro (he | ⟨j, hij, hj, hjl, he⟩)
            · exact ⟨i, Nat.le_refl i, hi, by omega, he⟩
            · exact ⟨j, by omega, hj, hjl, he⟩
          · rintro ⟨j, hij, hj, hjl, he⟩
            rcases Nat.eq_or_lt_of_le hij with rfl | hlt
            · exact .inl he
            · exact .inr ⟨j, hlt, hj, hjl, he⟩
        · rw [hnext]
          intro j hj hr h0'
          rcases Nat.lt_succ_iff_lt_or_eq.mp hj with hlt | rfl
          · exact hne j hlt hr h0'
          · exact h0 ((h.nul_iff hi hn).mpr ⟨hr, h0'⟩)

/-- `copy` reads the text and the NUL that ends it within the `n` bytes, tests the byte of the
destination where the text ends, and writes up to there at most. -/
theorem loggedCopy_spec (hn : n ≤ 0x100000000) (hmin : (min srclen dstlen).toNat = n) :
    (loggedCopy m src dst srclen dstlen).1 = textLen m src dst n ∧
      (∀ x, .read x ∈ (loggedCopy m src dst srclen dstlen).2.log ↔
        ∃ j, j < n ∧ j ≤ textLen m src dst n ∧ x = src + BitVec.ofNat 32 j) ∧
      (∀ x, .test x ∈ (loggedCopy m src dst srclen dstlen).2.log ↔
        x = dst + BitVec.ofNat 32 (textLen m src dst n)) ∧
      (∀ x, .write x ∈ (loggedCopy m src dst srclen dstlen).2.log →
        ∃ j, j ≤ textLen m src dst n ∧ x = dst + BitVec.ofNat 32 j) ∧
      ∀ j, j < n → j ≤ textLen m src dst n →
        .write (dst + BitVec.ofNat 32 j) ∈ (loggedCopy m src dst srclen dstlen).2.log := by
  obtain ⟨hlen, hlog⟩ := loggedLoop_spec (n := n) (i := 0) (s := { mem := m, log := [] }) src dst
    Copied.start (by omega) fun j hj => absurd hj (Nat.not_lt_zero j)
  rw [Nat.zero_add] at hlen hlog
  unfold loggedCopy
  dsimp only
  rw [hmin, hlen]
  generalize hs : (loggedLoop src dst n 0 { mem := m, log := [] }).2 = s at hlog
  have hfin : ∀ e, e ∈ (if s.mem (dst + BitVec.ofNat 32 (textLen m src dst n)) ≠ 0 then
      (s.test (dst + BitVec.ofNat 32 (textLen m src dst n))).write
        (dst + BitVec.ofNat 32 (textLen m src dst n)) 0
      else s.test (dst + BitVec.ofNat 32 (textLen m src dst n))).log ↔
      e ∈ s.log ∨ e = .test (dst + BitVec.ofNat 32 (textLen m src dst n)) ∨
        (e = .write (dst + BitVec.ofNat 32 (textLen m src dst n)) ∧
          s.mem (dst + BitVec.ofNat 32 (textLen m src dst n)) ≠ 0) := by
    intro e
    split
    · rename_i hz
      rw [Logged.mem_write, Logged.mem_test]
      tauto
    · rename_i hz
      rw [Logged.mem_test]
      tauto
  refine ⟨rfl, fun x => ?_, fun x => ?_, fun x hx => ?_, fun j hj hjl => ?_⟩
  · rw [hfin, hlog]
    simp
  · rw [hfin, hlog]
    simp
  · rw [hfin, hlog] at hx
    simp at hx
    rcases hx with ⟨j, -, hj, rfl⟩ | ⟨rfl, -⟩
    · exact ⟨j, hj, rfl⟩
    · exact ⟨_, Nat.le_refl _, rfl⟩
  · rw [hfin, hlog]
    exact .inl (.inr ⟨j, Nat.zero_le j, hj, hjl, .inr rfl⟩)

end Xeros
