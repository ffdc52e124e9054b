import Mathlib.Logic.Function.Basic

/-!
# A flat byte memory

A 32-bit address space of bytes, little-endian words over it, and the frame
facts: a read sees the last write to the same place and is blind to a write
elsewhere. Ranges are taken modulo the size of the address space, so no
statement has a side condition about wrap-around.
-/

namespace Lib

/-- A machine word, which is also an address. -/
abbrev Word := BitVec 32

/-- A byte. -/
abbrev Byte := BitVec 8

/-- The address space. -/
abbrev Bytes := Word → Byte

/-- `x` lies among the `n` bytes from `a`. -/
def InRange (a : Word) (n : Nat) (x : Word) : Prop := (x - a).toNat < n

instance (a : Word) (n : Nat) (x : Word) : Decidable (InRange a n x) :=
  inferInstanceAs (Decidable (_ < _))

/-- The `n` bytes from `a` and the `k` bytes from `b` do not meet. -/
def Apart (a : Word) (n : Nat) (b : Word) (k : Nat) : Prop :=
  ∀ x, InRange a n x → ¬ InRange b k x

namespace Bytes

/-- Overwrite the `n` bytes from `a`: byte `i` becomes `f i`. -/
def splice (m : Bytes) (a : Word) (n : Nat) (f : Word → Byte) : Bytes :=
  fun x => if InRange a n x then f (x - a) else m x

/-- Store one byte. -/
def putByte (m : Bytes) (a : Word) (b : Byte) : Bytes := m.splice a 1 fun _ => b

/-- The word stored at `a`, least significant byte first. -/
def word (m : Bytes) (a : Word) : Word :=
  m (a + 3) ++ m (a + 2) ++ m (a + 1) ++ m a

/-- Store a word, least significant byte first. -/
def putWord (m : Bytes) (a w : Word) : Bytes :=
  m.splice a 4 fun i => w.extractLsb' (8 * i.toNat) 8

variable {m m' : Bytes} {a b w x : Word} {n : Nat} {f : Word → Byte}

theorem splice_of_not_inRange (h : ¬ InRange a n x) : m.splice a n f x = m x := if_neg h

theorem splice_of_inRange (h : InRange a n x) : m.splice a n f x = f (x - a) := if_pos h

/-- Only one byte is stored. -/
theorem putByte_ne {c : Byte} (h : x ≠ a) : m.putByte a c x = m x := by
  refine splice_of_not_inRange fun hx => h ?_
  unfold InRange at hx
  bv_omega

/-- The byte that has just been stored is read back. -/
@[simp] theorem putByte_self {c : Byte} : m.putByte a c a = c := by
  refine splice_of_inRange ?_
  unfold InRange
  simp

/-- A word depends on its four bytes only. -/
theorem word_congr (h : ∀ x, InRange a 4 x → m' x = m x) : m'.word a = m.word a := by
  have hin : ∀ d : Word, d.toNat < 4 → InRange a 4 (a + d) := by
    intro d hd
    unfold InRange
    rwa [show a + d - a = d by bv_omega]
  unfold word
  rw [h (a + 3) (hin 3 (by decide)), h (a + 2) (hin 2 (by decide)),
    h (a + 1) (hin 1 (by decide)), h a (by simpa using hin 0 (by decide))]

/-- A word that has just been stored is read back. -/
@[simp] theorem word_putWord : (m.putWord a w).word a = w := by
  have hbyte : ∀ d : Word, d.toNat < 4 →
      m.putWord a w (a + d) = w.extractLsb' (8 * d.toNat) 8 := by
    intro d hd
    have hsub : a + d - a = d := by bv_omega
    unfold putWord
    rw [splice_of_inRange (by unfold InRange; rwa [hsub]), hsub]
  have h0 : m.putWord a w a = w.extractLsb' 0 8 := by simpa using hbyte 0 (by decide)
  unfold word
  rw [hbyte 3 (by decide), hbyte 2 (by decide), hbyte 1 (by decide), h0]
  have h₁ : w.extractLsb' 24 8 ++ w.extractLsb' 16 8 = w.extractLsb' 16 16 :=
    BitVec.extractLsb'_append_extractLsb'_eq_extractLsb' rfl
  have h₂ : w.extractLsb' 16 16 ++ w.extractLsb' 8 8 = w.extractLsb' 8 24 :=
    BitVec.extractLsb'_append_extractLsb'_eq_extractLsb' rfl
  have h₃ : w.extractLsb' 8 24 ++ w.extractLsb' 0 8 = w.extractLsb' 0 32 :=
    BitVec.extractLsb'_append_extractLsb'_eq_extractLsb' rfl
  calc w.extractLsb' 24 8 ++ w.extractLsb' 16 8 ++ w.extractLsb' 8 8 ++ w.extractLsb' 0 8
      = w.extractLsb' 0 32 := by rw [h₁, h₂, h₃]
    _ = w := BitVec.extractLsb'_eq_self

/-- A word that does not meet the one stored is unchanged. -/
theorem word_putWord_ne (h₁ : 4 ≤ (b - a).toNat) (h₂ : (b - a).toNat ≤ 0xfffffffc) :
    (m.putWord a w).word b = m.word b := by
  refine word_congr fun x hx => splice_of_not_inRange ?_
  unfold InRange at hx ⊢
  bv_omega

end Bytes

/-! ## Ranges and agreement -/

/-- The bytes from `a` include the `j`-th, if there are more than `j`. -/
theorem inRange_add {a : Word} {n j : Nat} (h : j < n) : InRange a n (a + BitVec.ofNat 32 j) := by
  unfold InRange
  rw [show a + BitVec.ofNat 32 j - a = BitVec.ofNat 32 j by bv_omega, BitVec.toNat_ofNat]
  exact Nat.lt_of_le_of_lt (Nat.mod_le _ _) h

/-- There are no others, as long as the addresses do not wrap around. -/
theorem inRange_add_iff {a : Word} {n j : Nat} (hj : j < 0x100000000) :
    InRange a n (a + BitVec.ofNat 32 j) ↔ j < n := by
  refine ⟨fun h => ?_, inRange_add⟩
  unfold InRange at h
  rwa [show a + BitVec.ofNat 32 j - a = BitVec.ofNat 32 j by bv_omega, BitVec.toNat_ofNat,
    Nat.mod_eq_of_lt hj] at h

/-- Different places behind `a` have different addresses. -/
theorem add_ofNat_ne {a : Word} {j j' : Nat} (hj : j < 0x100000000) (hj' : j' < 0x100000000)
    (h : j ≠ j') : a + BitVec.ofNat 32 j ≠ a + BitVec.ofNat 32 j' := by
  intro he
  have hnat : (BitVec.ofNat 32 j).toNat = (BitVec.ofNat 32 j').toNat := by
    rw [(BitVec.add_right_inj a).mp he]
  rw [BitVec.toNat_ofNat, BitVec.toNat_ofNat, Nat.mod_eq_of_lt hj, Nat.mod_eq_of_lt hj'] at hnat
  exact h hnat

/-- A byte in a range is at some distance from its start. -/
theorem InRange.eq_add {a x : Word} {n : Nat} (h : InRange a n x) :
    ∃ j, j < n ∧ x = a + BitVec.ofNat 32 j := by
  refine ⟨(x - a).toNat, h, ?_⟩
  rw [BitVec.ofNat_toNat, BitVec.setWidth_eq]
  bv_omega

/-- A part of a range. -/
theorem InRange.of_part {a d x : Word} {n k : Nat} (h : InRange (a + d) k x)
    (hn : d.toNat + k ≤ n) : InRange a n x := by
  unfold InRange at h ⊢
  bv_omega

/-- Two ranges do not meet if the second starts behind the first and ends before the
first starts again. -/
theorem Apart.of_le {a b : Word} {n k : Nat} (h₁ : n ≤ (b - a).toNat)
    (h₂ : (b - a).toNat + k ≤ 0x100000000) : Apart a n b k := by
  intro x ha hb
  unfold InRange at ha hb
  bv_omega

theorem Apart.symm {a b : Word} {n k : Nat} (h : Apart a n b k) : Apart b k a n :=
  fun x hb ha => h x ha hb

namespace Bytes

variable {m m' : Bytes} {a b w x : Word} {n : Nat} {f : Word → Byte} {S : Word → Prop}

/-- Overwriting bytes changes nothing if and only if they are there already. -/
theorem splice_eq_self_iff : m.splice a n f = m ↔
    ∀ j, j < n → f (BitVec.ofNat 32 j) = m (a + BitVec.ofNat 32 j) := by
  have hsub : ∀ j, a + BitVec.ofNat 32 j - a = BitVec.ofNat 32 j := fun j => by bv_omega
  constructor
  · intro h j hj
    have hbyte := congrFun h (a + BitVec.ofNat 32 j)
    rwa [splice_of_inRange (inRange_add hj), hsub] at hbyte
  · intro h
    funext x
    by_cases hx : InRange a n x
    · obtain ⟨j, hj, rfl⟩ := hx.eq_add
      rw [splice_of_inRange (inRange_add hj), hsub, h j hj]
    · exact splice_of_not_inRange hx

/-- The two memories hold the same bytes at the addresses in `S`. -/
def AgreeOn (S : Word → Prop) (m m' : Bytes) : Prop := ∀ x, S x → m' x = m x

namespace AgreeOn

theorem refl (S : Word → Prop) (m : Bytes) : AgreeOn S m m := fun _ _ => rfl

theorem symm (h : AgreeOn S m m') : AgreeOn S m' m := fun x hx => (h x hx).symm

theorem trans {m'' : Bytes} (h₁ : AgreeOn S m m') (h₂ : AgreeOn S m' m'') : AgreeOn S m m'' :=
  fun x hx => (h₂ x hx).trans (h₁ x hx)

/-- The same word is read from both. -/
theorem word (h : AgreeOn S m m') (hS : ∀ x, InRange a 4 x → S x) : m'.word a = m.word a :=
  word_congr fun x hx => h x (hS x hx)

/-- The same bytes are written to both. -/
theorem splice (h : AgreeOn S m m') : AgreeOn S (m.splice a n f) (m'.splice a n f) := by
  intro x hx
  unfold Bytes.splice
  split
  · rfl
  · exact h x hx

theorem putByte (h : AgreeOn S m m') (c : Byte) : AgreeOn S (m.putByte a c) (m'.putByte a c) :=
  h.splice

theorem putWord (h : AgreeOn S m m') : AgreeOn S (m.putWord a w) (m'.putWord a w) :=
  h.splice

end AgreeOn

/-! ## Slices -/

/-- The `n` bytes from `a`, in order. -/
def slice (m : Bytes) : Word → Nat → List Byte
  | _, 0 => []
  | a, n + 1 => m a :: slice m (a + 1) n

@[simp] theorem slice_zero : m.slice a 0 = [] := rfl

theorem slice_succ : m.slice a (n + 1) = m a :: m.slice (a + 1) n := rfl

@[simp] theorem length_slice : (m.slice a n).length = n := by
  induction n generalizing a with
  | zero => rfl
  | succ n ih => rw [slice_succ, List.length_cons, ih]

/-- The last byte. -/
theorem slice_snoc : m.slice a (n + 1) = m.slice a n ++ [m (a + BitVec.ofNat 32 n)] := by
  induction n generalizing a with
  | zero => simp [slice_succ]
  | succ n ih =>
      have hnext : a + 1 + BitVec.ofNat 32 n = a + BitVec.ofNat 32 (n + 1) := by
        rw [BitVec.ofNat_add]
        bv_omega
      rw [slice_succ, ih, slice_succ, hnext, List.cons_append]

/-- A slice depends on its bytes only. -/
theorem slice_congr (h : ∀ x, InRange a n x → m' x = m x) : m'.slice a n = m.slice a n := by
  induction n with
  | zero => rfl
  | succ n ih =>
      rw [slice_snoc, slice_snoc, h _ (inRange_add (Nat.lt_succ_self n)),
        ih fun x hx => h x (Nat.lt_succ_of_lt hx)]

/-- A byte stored behind a slice is not part of it. -/
theorem slice_putByte_end {c : Byte} (hn : n < 0x100000000) :
    (m.putByte (a + BitVec.ofNat 32 n) c).slice a n = m.slice a n := by
  refine slice_congr fun x hx => putByte_ne ?_
  rintro rfl
  exact Nat.lt_irrefl n ((inRange_add_iff hn).mp hx)

/-- A byte stored behind a slice lengthens it. -/
theorem slice_putByte_snoc {c : Byte} (hn : n < 0x100000000) :
    (m.putByte (a + BitVec.ofNat 32 n) c).slice a (n + 1) = m.slice a n ++ [c] := by
  rw [slice_snoc, putByte_self, slice_putByte_end hn]

/-! ## Strings -/

/-- The smaller of `n` and the index of the first NUL from `a`. -/
def strnlen (m : Bytes) (a : Word) (n : Nat) : Nat := (m.slice a n).findIdx fun b => b = 0

@[simp] theorem strnlen_zero : m.strnlen a 0 = 0 := rfl

theorem strnlen_succ :
    m.strnlen a (n + 1) = if m a = 0 then 0 else m.strnlen (a + 1) n + 1 := by
  unfold strnlen
  rw [slice_succ, List.findIdx_cons]
  by_cases h : m a = 0
  · rw [if_pos h, decide_eq_true h]
    rfl
  · rw [if_neg h, decide_eq_false h]
    rfl

theorem strnlen_le : m.strnlen a n ≤ n := by
  have h : (m.slice a n).findIdx (fun b => b = 0) ≤ (m.slice a n).length :=
    List.findIdx_le_length
  rwa [length_slice] at h

/-- The length depends on the bytes only. -/
theorem strnlen_congr (h : ∀ x, InRange a n x → m' x = m x) : m'.strnlen a n = m.strnlen a n := by
  unfold strnlen
  rw [slice_congr h]

end Bytes

end Lib
