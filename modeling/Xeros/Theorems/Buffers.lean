import Xeros.Logic.Accesses

/-!
# Messages and their buffers

The calls check where a buffer starts and that its length is positive. `copy` stays inside the
two buffers unless the text fills the receiver's: it then ends the text one byte further on.
Where the two buffers end nothing checks.
-/

namespace Xeros

open Lib

variable {k : Kernel} {a : Ambient} {p r s : Slot} {b : Word} {n L : Nat}

/-- The byte at `x` is user memory: a buffer may start there. -/
def UserMem (k : Kernel) (x : Word) : Prop := validateBuffer k x 1 = 0

instance (x : Word) : Decidable (UserMem k x) := inferInstanceAs (Decidable (_ = _))

theorem validateBuffer_nonneg_iff {len : Int} : ¬ validateBuffer k b len < 0 ↔
    (k.img.freemem.toInt ≤ b.toInt ∧ ¬ (holeStart ≤ b ∧ b ≤ holeEnd) ∧
      b.toInt ≤ k.img.maxaddr.toInt) ∧ 0 < len := by
  have hbad : badBufferParm < 0 := by decide
  unfold validateBuffer
  split
  · rename_i h
    simp only [hbad, not_true_eq_false, false_iff]
    omega
  split
  · rename_i h
    simp only [hbad, not_true_eq_false, false_iff]
    exact fun hall => hall.1.2.1 h
  split
  · rename_i h
    simp only [hbad, not_true_eq_false, false_iff]
    omega
  split
  · rename_i h
    simp only [hbad, not_true_eq_false, false_iff]
    omega
  · rename_i h₁ h₂ h₃ h₄
    simp only [Int.lt_irrefl, not_false_eq_true, true_iff]
    exact ⟨⟨by omega, h₂, by omega⟩, by omega⟩

theorem userMem_iff {x : Word} : UserMem k x ↔ k.img.freemem.toInt ≤ x.toInt ∧
    ¬ (holeStart ≤ x ∧ x ≤ holeEnd) ∧ x.toInt ≤ k.img.maxaddr.toInt := by
  have hcode : UserMem k x ↔ ¬ validateBuffer k x 1 < 0 := by
    have hbad : badBufferParm < 0 := by decide
    unfold UserMem validateBuffer
    repeat' split
    all_goals simp_all
  rw [hcode, validateBuffer_nonneg_iff]
  exact ⟨And.left, fun h => ⟨h, by decide⟩⟩

/-- The `L` bytes from `b` on start in user memory, and reach neither into the hole nor past
`maxaddr`. -/
def FitsFrom (k : Kernel) (b : Word) (L : Nat) : Prop :=
  L = 0 ∨ (UserMem k b ∧ b.toInt + L ≤ k.img.maxaddr.toInt + 1 ∧
    (b < holeStart → b.toNat + L ≤ holeStart.toNat))

theorem Image.freemem_nonneg (img : Image) : 0 ≤ img.freemem.toInt := by
  have := img.freemem_lt
  rw [BitVec.toInt_eq_toNat_cond]
  omega

theorem toInt_of_nonneg {x : Word} (h : 0 ≤ x.toInt) : x.toInt = x.toNat ∧ x.toNat < 0x80000000 := by
  rw [BitVec.toInt_eq_toNat_cond] at h ⊢
  omega

/-- All of the bytes are user memory if and only if both ends are as they must be. -/
theorem fitsFrom_iff : (∀ j, j < L → UserMem k (b + BitVec.ofNat 32 j)) ↔ FitsFrom k b L := by
  have hfree := k.img.freemem_nonneg
  have hmax : k.img.maxaddr.toInt < 0x80000000 := BitVec.toInt_lt
  have hs : holeStart.toNat = 0xA0000 := by decide
  have he : holeEnd.toNat = 0x196000 := by decide
  unfold FitsFrom
  constructor
  · intro h
    rcases Nat.eq_zero_or_pos L with rfl | hL
    · exact .inl rfl
    have hb : UserMem k b := by simpa using h 0 hL
    obtain ⟨hlow, -, hhigh⟩ := userMem_iff.mp hb
    have hbn := toInt_of_nonneg (Int.le_trans hfree hlow)
    refine .inr ⟨hb, ?_, fun hlt => ?_⟩
    · -- the first byte past `maxaddr` would be one of them
      by_contra hend
      obtain ⟨j, hj⟩ : ∃ j : Nat, (j : Int) = k.img.maxaddr.toInt + 1 - b.toInt :=
        ⟨(k.img.maxaddr.toInt + 1 - b.toInt).toNat, by omega⟩
      obtain ⟨hlow', -, hhigh'⟩ := userMem_iff.mp (h j (by omega))
      have hsum : (b + BitVec.ofNat 32 j).toNat = b.toNat + j := by
        rw [BitVec.toNat_add, BitVec.toNat_ofNat]
        omega
      have hbj := toInt_of_nonneg (Int.le_trans hfree hlow')
      omega
    · -- so would the first byte of the hole
      by_contra hend
      have hlt' : b.toNat < holeStart.toNat := hlt
      obtain ⟨-, hhole, -⟩ := userMem_iff.mp (h (holeStart.toNat - b.toNat) (by omega))
      have hsum : (b + BitVec.ofNat 32 (holeStart.toNat - b.toNat)).toNat = holeStart.toNat := by
        rw [BitVec.toNat_add, BitVec.toNat_ofNat]
        omega
      refine hhole ⟨?_, ?_⟩
      · exact Nat.le_of_eq hsum.symm
      · rw [BitVec.le_def, hsum]
        omega
  · rintro (rfl | ⟨hb, hend, hhole⟩) j hj
    · exact absurd hj (Nat.not_lt_zero j)
    obtain ⟨hlow, hout, hhigh⟩ := userMem_iff.mp hb
    have hbn := toInt_of_nonneg (Int.le_trans hfree hlow)
    have hsum : (b + BitVec.ofNat 32 j).toNat = b.toNat + j := by
      rw [BitVec.toNat_add, BitVec.toNat_ofNat]
      omega
    have hint : (b + BitVec.ofNat 32 j).toInt = b.toNat + j := by
      rw [BitVec.toInt_eq_toNat_cond, hsum]
      omega
    refine userMem_iff.mpr ⟨by omega, ?_, by omega⟩
    simp only [BitVec.le_def, hsum] at hout ⊢
    rw [BitVec.lt_def] at hhole
    omega

/-! ## One message -/

/-- `s` passes a message to `r`: the call of one of them is accepted and finds the other. -/
def Passes (k : Kernel) (a : Ambient) (s r : Slot) : Prop :=
  sendPeer k a s = some r ∨ recvPeer k a r = .ok (some s)

/-- The accesses of the `copy` that passes the message of `s` to `r`. -/
def accesses (k : Kernel) (s r : Slot) : List Access :=
  (loggedCopy (announce k s r) (k.arg s 1) (k.arg r 1) (k.arg s 2).toInt (k.arg r 2).toInt).2.log

/-- They are the accesses of the code's `copy`, which passes the message. -/
theorem accesses_passMessage : ∃ c : Nat × Logged, c.2.log = accesses k s r ∧
    c.1 = (passMessage k s r).1 ∧ c.2.mem = (passMessage k s r).2 :=
  ⟨_, rfl, loggedCopy_eq.1, loggedCopy_eq.2⟩

/-- `copy` reads the message in the sender's buffer, looks for the terminator and writes in the
receiver's buffer, and touches user memory only. -/
structure InBuffers (k : Kernel) (s r : Slot) : Prop where
  read : ∀ x, .read x ∈ accesses k s r → InRange (k.arg s 1) (k.arg s 2).toInt.toNat x
  test : ∀ x, .test x ∈ accesses k s r → InRange (k.arg r 1) (k.arg r 2).toInt.toNat x
  write : ∀ x, .write x ∈ accesses k s r → InRange (k.arg r 1) (k.arg r 2).toInt.toNat x
  user : ∀ x, (.read x ∈ accesses k s r ∨ .test x ∈ accesses k s r ∨ .write x ∈ accesses k s r) →
    UserMem k x

/-- The smaller of the two lengths. -/
def shorter (k : Kernel) (s r : Slot) : Nat := (min (k.arg s 2).toInt (k.arg r 2).toInt).toNat

/-- The length of the text that is passed. -/
def passedLen (k : Kernel) (s r : Slot) : Nat :=
  textLen (announce k s r) (k.arg s 1) (k.arg r 1) (shorter k s r)

/-- There is a NUL in the part of the message that the two buffers have in common, or the
sender's buffer is the shorter one; and the bytes up to the end of the text lie in user memory
in both. -/
structure RoomForText (k : Kernel) (s r : Slot) : Prop where
  room : (∃ j, j < nulReach (k.arg s 1) (k.arg r 1) (shorter k s r) ∧
      announce k s r (k.arg s 1 + BitVec.ofNat 32 j) = 0) ∨
    (k.arg s 2).toInt < (k.arg r 2).toInt
  source : FitsFrom k (k.arg s 1) (min (shorter k s r) (passedLen k s r + 1))
  dest : FitsFrom k (k.arg r 1) (passedLen k s r + 1)

/-- An accepted call has a buffer of positive length. -/
theorem Passes.positive (h : Passes k a s r) : 0 < (k.arg s 2).toInt ∨ 0 < (k.arg r 2).toInt := by
  have hlen : ∀ {p : Slot} {pid b : Word} {len : Int},
      ¬ (validatePeer k a p pid b len).1 < 0 → 0 < len := by
    intro p pid b len hv
    have hbad : badPid < 0 ∧ srcDstSame < 0 := by decide
    unfold validatePeer at hv
    split at hv
    · exact absurd hbad.1 hv
    split at hv
    · exact absurd hbad.2 hv
    · exact (validateBuffer_nonneg_iff.mp hv).2
  rcases h with h | h
  · unfold sendPeer at h
    split at h
    · cases h
    · exact .inl (hlen ‹_›)
  · unfold recvPeer at h
    split at h
    · cases h
    · exact .inr (hlen ‹_›)

theorem shorter_lt : shorter k s r < 0x80000000 := by
  have := BitVec.toInt_lt (x := k.arg s 2)
  unfold shorter
  omega

/-- The terminator falls inside the receiver's buffer if the text leaves room for it. -/
theorem passedLen_lt_iff (hpos : 0 < (k.arg s 2).toInt ∨ 0 < (k.arg r 2).toInt) :
    passedLen k s r < (k.arg r 2).toInt.toNat ↔
      (∃ j, j < nulReach (k.arg s 1) (k.arg r 1) (shorter k s r) ∧
        announce k s r (k.arg s 1 + BitVec.ofNat 32 j) = 0) ∨
      (k.arg s 2).toInt < (k.arg r 2).toInt := by
  rw [← textLen_lt_iff]
  have hle : passedLen k s r ≤ shorter k s r := textLen_le
  show _ ↔ passedLen k s r < shorter k s r ∨ _
  unfold shorter at hle ⊢
  omega

/-- What is accessed on the way to the end of the text. -/
theorem accesses_spec : (∀ x, .read x ∈ accesses k s r ↔
      ∃ j, j < shorter k s r ∧ j ≤ passedLen k s r ∧ x = k.arg s 1 + BitVec.ofNat 32 j) ∧
    (∀ x, .test x ∈ accesses k s r ↔ x = k.arg r 1 + BitVec.ofNat 32 (passedLen k s r)) ∧
    (∀ x, .write x ∈ accesses k s r →
      ∃ j, j ≤ passedLen k s r ∧ x = k.arg r 1 + BitVec.ofNat 32 j) ∧
    ∀ j, j < shorter k s r → j ≤ passedLen k s r →
      .write (k.arg r 1 + BitVec.ofNat 32 j) ∈ accesses k s r := by
  have hlt : shorter k s r < 0x80000000 := shorter_lt
  exact (loggedCopy_spec (n := shorter k s r) (by omega) rfl).2

/-- A message that stays in the buffers has room: the byte that is tested lies behind the text,
and the bytes read and written are those of the text and the terminator. -/
theorem InBuffers.roomForText (h : Passes k a s r) (hb : InBuffers k s r) : RoomForText k s r := by
  have hlt : shorter k s r < 0x80000000 := shorter_lt
  have hle : passedLen k s r ≤ shorter k s r := textLen_le
  obtain ⟨hread, htest, -, hwritten⟩ := accesses_spec (k := k) (s := s) (r := r)
  refine ⟨?_, ?_, ?_⟩
  · rw [← passedLen_lt_iff h.positive]
    exact (inRange_add_iff (by omega)).mp (hb.test _ ((htest _).mpr rfl))
  · rw [← fitsFrom_iff]
    intro j hj
    exact hb.user _ (.inl ((hread _).mpr ⟨j, by omega, by omega, rfl⟩))
  · rw [← fitsFrom_iff]
    intro j hj
    rcases Nat.lt_or_ge j (shorter k s r) with hjn | hjn
    · exact hb.user _ (.inr (.inr (hwritten j hjn (Nat.le_of_lt_succ hj))))
    · -- no byte of the text is a NUL, and the loop has not written this one
      have hj' : j = passedLen k s r := by omega
      exact hb.user _ (.inr (.inl ((htest _).mpr (by rw [hj']))))

/-- If there is room, nothing else is accessed. -/
theorem RoomForText.inBuffers (h : Passes k a s r) (hr : RoomForText k s r) : InBuffers k s r := by
  have hlt : shorter k s r < 0x80000000 := shorter_lt
  have hle : passedLen k s r ≤ shorter k s r := textLen_le
  have hroom := (passedLen_lt_iff h.positive).mpr hr.room
  have hsrc := fitsFrom_iff.mpr hr.source
  have hdst := fitsFrom_iff.mpr hr.dest
  obtain ⟨hread, htest, hwrite, -⟩ := accesses_spec (k := k) (s := s) (r := r)
  refine ⟨fun x hx => ?_, fun x hx => ?_, fun x hx => ?_, ?_⟩
  · obtain ⟨j, hj, -, rfl⟩ := (hread x).mp hx
    rw [inRange_add_iff (by omega)]
    unfold shorter at hj
    omega
  · rw [(htest x).mp hx]
    exact (inRange_add_iff (by omega)).mpr hroom
  · obtain ⟨j, hj, rfl⟩ := hwrite x hx
    exact (inRange_add_iff (by omega)).mpr (Nat.lt_of_le_of_lt hj hroom)
  · rintro x (hx | hx | hx)
    · obtain ⟨j, hj, hjl, rfl⟩ := (hread x).mp hx
      exact hsrc j (by omega)
    · rw [(htest x).mp hx]
      exact hdst _ (Nat.lt_succ_self _)
    · obtain ⟨j, hj, rfl⟩ := hwrite x hx
      exact hdst j (Nat.lt_succ_of_le hj)

/-- A message stays in the two buffers if and only if the text leaves room for the terminator
and both buffers hold it in user memory; `copy` looks for the terminator in the sender's buffer
as well if and only if the end of the text lies there. -/
theorem message_in_buffers_iff (h : Passes k a s r) :
    (InBuffers k s r ↔ RoomForText k s r) ∧
      ((∀ x, .test x ∈ accesses k s r → InRange (k.arg s 1) (k.arg s 2).toInt.toNat x) ↔
        InRange (k.arg s 1) (k.arg s 2).toInt.toNat
          (k.arg r 1 + BitVec.ofNat 32 (passedLen k s r))) := by
  obtain ⟨-, htest, -, -⟩ := accesses_spec (k := k) (s := s) (r := r)
  refine ⟨⟨InBuffers.roomForText h, RoomForText.inBuffers h⟩, fun hall => ?_, fun hx x ht => ?_⟩
  · exact hall _ ((htest _).mpr rfl)
  · rwa [(htest x).mp ht]

/-- A run in which the root process creates process 3 and receives from any process, into a
buffer of eight bytes that a word follows. -/
def filled₁ : Disp := (turn sampleBoot (sampleCall .create [0x1400, 0])).getD sampleBoot

@[inherit_doc filled₁]
def filled₂ : Disp :=
  (turn filled₁ (sampleCall .recv [0x60010, 0x60014, 8, 0, 0, 0, 0, 0x43434343])).getD filled₁

/-- Process 3 sends eight bytes to the root process. -/
def filledSend (w : Word) : Kernel :=
  contextswitch filled₂.k filled₂.p (sampleCallAt 0x61000 .send [1, 0x6100C, 8, 0x41414141, w])

theorem filled₂_reachable : dispatcher.Reachable filled₂ := by
  have h : (turn sampleBoot (sampleCall .create [0x1400, 0])).isOk = true ∧
      (turn filled₁ (sampleCall .recv [0x60010, 0x60014, 8, 0, 0, 0, 0, 0x43434343])).isOk
        = true := by decide +kernel
  have hr₁ : dispatcher.Reachable filled₁ :=
    ⟨_, sampleBoot_init, TSys.Path.refl.tail trivial (Run.eq_getD h.1)⟩
  exact TSys.ReachableUnder.tail hr₁ trivial (Run.eq_getD h.2)

/-- A message whose fifth byte is NUL stays in the buffers. -/
theorem message_in_buffers_of_nul : InBuffers (filledSend 0) 3 1 := by
  have hpeer : sendPeer (filledSend 0) sampleAmbient 3 = some 1 := by decide +kernel
  refine (message_in_buffers_iff (.inl hpeer)).1.mpr ⟨?_, .inr ?_, .inr ?_⟩
  · rw [← passedLen_lt_iff (Passes.positive (.inl hpeer))]
    decide +kernel
  · decide +kernel
  · decide +kernel

/-- A message of eight bytes without a NUL is ended one byte past the receiver's buffer. -/
theorem message_leaves_buffer :
    ¬ ∀ (d : Disp) (t : Trap) (r : Slot), dispatcher.Reachable d →
      Passes (contextswitch d.k d.p t) t.ambient d.p r →
      validateBuffer (contextswitch d.k d.p t) ((contextswitch d.k d.p t).arg r 1)
        ((contextswitch d.k d.p t).arg r 2).toInt = 0 →
      InBuffers (contextswitch d.k d.p t) d.p r := by
  intro h
  have hrun : sendPeer (filledSend 0x42424242) sampleAmbient filled₂.p = some 1 ∧
      validateBuffer (filledSend 0x42424242) ((filledSend 0x42424242).arg 1 1)
        ((filledSend 0x42424242).arg 1 2).toInt = 0 ∧
      .write 0x6001C ∈ accesses (filledSend 0x42424242) filled₂.p 1 ∧
      ¬ InRange ((filledSend 0x42424242).arg 1 1)
        ((filledSend 0x42424242).arg 1 2).toInt.toNat 0x6001C := by decide +kernel
  obtain ⟨hpeer, hvalid, hwrite, hout⟩ := hrun
  exact hout ((h filled₂ (sampleCallAt 0x61000 .send [1, 0x6100C, 8, 0x41414141, 0x42424242]) 1
    filled₂_reachable (.inl hpeer) hvalid).write _ hwrite)

end Xeros
