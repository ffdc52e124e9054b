import Xeros.Logic.Settle

/-!
# The order of a rendezvous

A `SYS_SEND` and the `SYS_RECV` that it meets may be executed in either order: what is
copied, what the two calls return and whether the two processes are blocked is the same.
-/

namespace Xeros

open Lib

/-- `p` enters the kernel with the arguments of its call at `A`. -/
def Kernel.setArgs (k : Kernel) (p : Slot) (A : Word) : Kernel :=
  k.upd p fun c => { c with args := A }

/-- The `i`-th of the argument words at `A`. -/
def argAt (m : Bytes) (A : Word) (i : Nat) : Word := m.word (A + BitVec.ofNat 32 (4 * i))

/-- The pieces of memory that a send with its arguments at `As` and a receive with its
arguments at `Ar` work on: the argument words, the send buffer, the receive buffer with
the byte behind it and the place for the pid. -/
def pieces (m : Bytes) (As Ar : Word) : List (Word × Nat) :=
  [(As, 12), (Ar, 12), (argAt m As 1, (argAt m As 2).toInt.toNat),
    (argAt m Ar 1, (argAt m Ar 2).toInt.toNat + 1), (argAt m Ar 0, 4)]

/-- `x` is in one of the pieces. -/
def InPieces (m : Bytes) (As Ar x : Word) : Prop := ∃ c ∈ pieces m As Ar, InRange c.1 c.2 x

/-- A live process that is not blocked. -/
structure Kernel.Free (k : Kernel) (p : Slot) : Prop where
  used : k.Used p
  alive : (k.proctab p).alive
  free : (k.proctab p).state ≠ .blocked

/-- `s` and `r` are about to make a send and a receive that name each other, with valid
buffers in memory that does not overlap, and no one else sends to `r`. -/
structure Meeting (k : Kernel) (s r : Slot) (As Ar : Word) : Prop where
  listed : BlockedListed k
  distinct : s ≠ r
  sender : k.Free s
  receiver : k.Free r
  dest : argAt k.mem As 0 = (k.proctab r).pid
  source : k.mem.word (argAt k.mem Ar 0) = 0 ∨
    k.mem.word (argAt k.mem Ar 0) = (k.proctab s).pid
  sbuffer : validateBuffer k (argAt k.mem As 1) (argAt k.mem As 2).toInt = 0
  dbuffer : validateBuffer k (argAt k.mem Ar 1) (argAt k.mem Ar 2).toInt = 0
  apart : (pieces k.mem As Ar).Pairwise fun c d => Apart c.1 c.2 d.1 d.2
  alone : ∀ q, (k.proctab q).state = .blocked → k.arg q 0 ≠ (k.proctab r).pid
  not_stale : (k.proctab s).ret ≠ Request.recv.code

/-- What happens between the two calls does not touch `s` and `r`, the memory `S` and
the order of the blocked processes, and nobody else begins to send to `r`. -/
structure Untouched (S : Word → Prop) (s r : Slot) (k k' : Kernel) : Prop where
  listed : BlockedListed k'
  pid : ∀ x, x = s ∨ x = r → (k'.proctab x).pid = (k.proctab x).pid
  args : ∀ x, x = s ∨ x = r → (k'.proctab x).args = (k.proctab x).args
  ret : ∀ x, x = s ∨ x = r → (k'.proctab x).ret = (k.proctab x).ret
  blocked : ∀ x, x = s ∨ x = r →
    ((k'.proctab x).state = .blocked ↔ (k.proctab x).state = .blocked)
  alive : ∀ x, x = s ∨ x = r → (k.proctab x).alive → (k'.proctab x).alive
  mem : k.mem.AgreeOn S k'.mem
  img : k'.img = k.img
  alone : ∀ q, q ≠ s → q ≠ r → (k'.proctab q).state = .blocked →
    k'.arg q 0 ≠ (k'.proctab r).pid

/-- The same memory, the same results and the same answer to who is blocked. -/
structure SameOutcome (S : Word → Prop) (s r : Slot) (k k' : Kernel) : Prop where
  mem : k.mem.AgreeOn S k'.mem
  ret : ∀ x, x = s ∨ x = r → (k'.proctab x).ret = (k.proctab x).ret
  blocked : ∀ x, x = s ∨ x = r →
    ((k'.proctab x).state = .blocked ↔ (k.proctab x).state = .blocked)

variable {k k' k₀ k₁ : Kernel} {a : Ambient} {p q r s : Slot} {A As Ar x : Word} {m m' : Bytes}
  {S : Word → Prop}

/-! ## Arguments -/

@[simp] theorem Kernel.setArgs_args : ((k.setArgs p A).proctab p).args = A := by
  simp [setArgs]

theorem Kernel.setArgs_arg (k : Kernel) (p : Slot) (A : Word) (i : Nat) :
    (k.setArgs p A).arg p i = argAt k.mem A i := by
  unfold arg
  rw [setArgs_args]
  rfl

/-- The arguments of a process are read from memory. -/
theorem Kernel.arg_eq (h : (k.proctab p).args = A) (i : Nat) : k.arg p i = argAt k.mem A i := by
  rw [← h]
  rfl

theorem Kernel.setArgs_ne (hq : q ≠ p) : (k.setArgs p A).proctab q = k.proctab q := by
  simp [setArgs, hq]

/-- Only the pointer to the arguments changes. -/
theorem Kernel.setArgs_unmoved (k : Kernel) (p : Slot) (A : Word) : Unmoved k (k.setArgs p A) :=
  .upd k p rfl rfl rfl

theorem Kernel.setArgs_ret (k : Kernel) (p q : Slot) (A : Word) :
    ((k.setArgs p A).proctab q).ret = (k.proctab q).ret := by
  by_cases hq : q = p
  · subst hq
    simp [setArgs]
  · rw [setArgs_ne hq]

theorem BlockedListed.unmoved (h : BlockedListed k) (hu : Unmoved k k') : BlockedListed k' :=
  h.congr (funext hu.next) (hu.first .blocked) hu.state

/-- The argument words are the same where the memories agree. -/
theorem argAt_agree (h : m.AgreeOn S m') (hA : ∀ x, InRange A 12 x → S x) {i : Nat}
    (hi : i < 3) : argAt m' A i = argAt m A i := by
  refine h.word fun x hx => hA x (hx.of_part ?_)
  rw [BitVec.toNat_ofNat]
  omega

/-- The receive buffer and the place for the pid do not meet. -/
theorem Meeting.cell_apart (h : Meeting k s r As Ar) :
    Apart (argAt k.mem Ar 0) 4 (argAt k.mem Ar 1) ((argAt k.mem Ar 2).toInt.toNat + 1) := by
  have hp := h.apart
  unfold pieces at hp
  simp only [List.pairwise_cons] at hp
  exact (hp.2.2.2.1 _ List.mem_cons_self).symm

/-! ## Between the two calls -/

/-- `p` is blocked in a call with its arguments at `A`. -/
structure WaitsIn (k : Kernel) (p : Slot) (A code : Word) : Prop where
  blocked : (k.proctab p).state = .blocked
  args : (k.proctab p).args = A
  ret : (k.proctab p).ret = code

/-- The two processes are where they were before the first call, but for the one that
has made it, and the memory that the calls work on is the same. -/
structure Between (k k' : Kernel) (s r p o : Slot) (As Ar : Word) : Prop where
  listed : BlockedListed k'
  pid : ∀ x, x = s ∨ x = r → (k'.proctab x).pid = (k.proctab x).pid
  alive : (k'.proctab p).alive
  free : (k'.proctab o).state ≠ .blocked
  mem : k.mem.AgreeOn (InPieces k.mem As Ar) k'.mem
  img : k'.img = k.img

/-- The state after the first call, which `p` has made, and after other processes have
run. -/
theorem Meeting.between (h : Meeting k s r As Ar) {p o : Slot} {code : Word} {k₁' : Kernel}
    (hp : p = s ∨ p = r) (ho : o = s ∨ o = r) (hpo : o ≠ p)
    (hrel : Relinked ((k.setArgs p A).upd p fun c => c.toBlock code) k₁)
    (hu : Untouched (InPieces k.mem As Ar) s r k₁ k₁') (B : Word) :
    Between k (k₁'.setArgs o B) s r p o As Ar ∧ WaitsIn (k₁'.setArgs o B) p A code := by
  have hpid : ∀ x, (k₁.proctab x).pid = (k.proctab x).pid := by
    intro x
    rw [hrel.pid, ← (Kernel.setArgs_unmoved k p A).pid x]
    by_cases hx : x = p
    · subst hx
      simp [Pcb.toBlock]
    · simp [hx]
  have hfree : (k.proctab o).state ≠ .blocked := by
    rcases ho with rfl | rfl
    · exact h.sender.free
    · exact h.receiver.free
  have hst : (k₁.proctab p).state = .blocked := by
    rw [hrel.state, Kernel.upd_proctab_self]
    rfl
  have hmove := Kernel.setArgs_unmoved k₁' o B
  constructor
  · refine ⟨hu.listed.unmoved hmove, fun x hx => ?_, ?_, ?_, ?_, ?_⟩
    · rw [hmove.pid, hu.pid x hx, hpid]
    · have halive := hu.alive p hp (by simp [Pcb.alive, hst])
      unfold Pcb.alive at halive ⊢
      rwa [hmove.state]
    · rw [hmove.state, Ne, hu.blocked o ho, hrel.state, Kernel.upd_proctab_ne _ _ _ hpo,
        Kernel.setArgs_ne hpo]
      exact hfree
    · have hm : k₁.mem = k.mem := hrel.mem
      exact fun x hx => (hu.mem x hx).trans (congrFun hm x)
    · exact hu.img.trans hrel.img
  · refine ⟨?_, ?_, ?_⟩
    · rw [hmove.state]
      exact (hu.blocked p hp).mpr hst
    · rw [Kernel.setArgs_ne (Ne.symm hpo), hu.args p hp, hrel.args, Kernel.upd_proctab_self]
      exact Kernel.setArgs_args
    · rw [Kernel.setArgs_ret, hu.ret p hp, hrel.ret, Kernel.upd_proctab_self]
      rfl

/-- The first call leaves the state as the second one may find it. -/
theorem Meeting.untouched (h : Meeting k s r As Ar) {p : Slot} {code : Word}
    (hp : p = s ∨ p = r) (hrel : Relinked ((k.setArgs p A).upd p fun c => c.toBlock code) k₁)
    (hl : BlockedListed k₁) : Untouched (InPieces k.mem As Ar) s r k₁ k₁ where
  listed := hl
  pid _ _ := rfl
  args _ _ := rfl
  ret _ _ := rfl
  blocked _ _ := Iff.rfl
  alive _ _ := id
  mem := .refl _ _
  img := rfl
  alone q hqs hqr hb := by
    have hqp : q ≠ p := by
      rcases hp with rfl | rfl
      · exact hqs
      · exact hqr
    have hpid : (k₁.proctab r).pid = (k.proctab r).pid := by
      rw [hrel.pid, ← (Kernel.setArgs_unmoved k p A).pid r]
      by_cases hx : r = p
      · subst hx
        simp [Pcb.toBlock]
      · simp [hx]
    have harg : k₁.arg q 0 = k.arg q 0 := by
      rw [hrel.arg]
      unfold Kernel.arg
      rw [Kernel.upd_proctab_ne _ _ _ hqp, Kernel.setArgs_ne hqp]
      rfl
    rw [hrel.state, Kernel.upd_proctab_ne _ _ _ hqp, Kernel.setArgs_ne hqp] at hb
    rw [hpid, harg]
    exact h.alone q hb

/-! ## The first call -/

/-- A send that comes first blocks. -/
theorem Meeting.send_first (h : Meeting k s r As Ar) (hf : maxProc < a.fuel) :
    ∃ k₁, sysSend (k.setArgs s As) s a = .ok k₁ ∧
      Relinked ((k.setArgs s As).upd s fun c => c.toBlock Request.send.code) k₁ ∧
      BlockedListed k₁ := by
  have hmove := Kernel.setArgs_unmoved k s As
  have hdest : (k.setArgs s As).arg s 0 = (k.proctab r).pid := by
    rw [Kernel.setArgs_arg, h.dest]
  refine sysSend_waits (h.listed.unmoved hmove) (by rw [hmove.state]; exact h.sender.free) hf ?_ ?_
  · rw [hdest, ← hmove.pid]
    refine validatePeer_eq (hmove.used h.sender.used) (.inr rfl) (hmove.used h.receiver.used)
      ?_ h.distinct ?_
    · have halive := h.receiver.alive
      unfold Pcb.alive at halive ⊢
      rwa [hmove.state]
    · rw [Kernel.setArgs_arg, Kernel.setArgs_arg]
      exact h.sbuffer
  · rw [hdest]
    unfold sendMatch
    dsimp only
    rw [h.receiver.used.2.1, if_neg]
    rw [hmove.state]
    exact h.receiver.free

/-- A receive that comes first blocks. -/
theorem Meeting.recv_first (h : Meeting k s r As Ar) (hf : maxProc < a.fuel) :
    ∃ k₁, sysRecv (k.setArgs r Ar) r a = .ok k₁ ∧
      Relinked ((k.setArgs r Ar).upd r fun c => c.toBlock Request.recv.code) k₁ ∧
      BlockedListed k₁ := by
  have hmove := Kernel.setArgs_unmoved k r Ar
  have hl := h.listed.unmoved hmove
  have hcell : (k.setArgs r Ar).mem.word ((k.setArgs r Ar).arg r 0)
      = k.mem.word (argAt k.mem Ar 0) := by
    rw [Kernel.setArgs_arg]
    rfl
  refine sysRecv_waits hl (by rw [hmove.state]; exact h.receiver.free) hf ?_ ?_
  · rw [hcell]
    refine validatePeer_eq (hmove.used h.receiver.used) ?_ (hmove.used h.sender.used) ?_
      h.distinct.symm ?_
    · rw [hmove.pid]
      exact h.source
    · have halive := h.sender.alive
      unfold Pcb.alive at halive ⊢
      rwa [hmove.state]
    · rw [Kernel.setArgs_arg, Kernel.setArgs_arg]
      exact h.dbuffer
  · rw [hcell]
    unfold recvMatch
    split
    · -- from any process: nobody in `blocked_q` sends to `r`
      obtain ⟨B, hc, hn, hB⟩ := hl
      refine recvScan_waits hc (Nat.lt_of_le_of_lt (length_le_maxProc hn) hf) fun q hq => ?_
      have hb : (k.proctab q).state = .blocked := by
        rw [← hmove.state]
        exact (hB q).mp hq
      have hqr : q ≠ r := by
        rintro rfl
        exact h.receiver.free hb
      have harg : (k.setArgs r Ar).arg q 0 = k.arg q 0 := by
        unfold Kernel.arg
        rw [Kernel.setArgs_ne hqr]
        rfl
      rw [harg, hmove.pid]
      exact h.alone q hb
    · -- from `s`, which neither receives nor sends yet
      rename_i hne
      have hslot : slotOf (k.mem.word (argAt k.mem Ar 0)) = s := by
        rw [h.source.resolve_left hne, h.sender.used.2.1]
      dsimp only
      rw [hslot, if_neg, if_neg]
      · rfl
      · rintro ⟨hb, -⟩
        rw [hmove.state] at hb
        exact h.sender.free hb
      · rintro ⟨hret, -⟩
        rw [Kernel.setArgs_ret] at hret
        exact h.not_stale hret

/-! ## The second call -/

section Second

variable {o : Slot} {k₂ : Kernel}

/-- The memory of the two calls is what it was before them. -/
theorem Between.arg_eq (h : Between k k' s r p o As Ar) {q : Slot}
    (hq : (k'.proctab q).args = A) (hA : (A, 12) ∈ pieces k.mem As Ar) {i : Nat} (hi : i < 3) :
    k'.arg q i = argAt k.mem A i := by
  rw [Kernel.arg_eq hq]
  exact argAt_agree h.mem (fun x hx => ⟨_, hA, hx⟩) hi

/-- Both orders pass the message that is there before the first call. -/
theorem Between.passes (hm : Meeting k s r As Ar) (h : Between k k' s r p o As Ar)
    (hs : (k'.proctab s).args = As) (hr : (k'.proctab r).args = Ar) :
    (passMessage k' s r).1 = (passMessage ((k.setArgs s As).setArgs r Ar) s r).1 ∧
      (passMessage ((k.setArgs s As).setArgs r Ar) s r).2.AgreeOn (InPieces k.mem As Ar)
        (passMessage k' s r).2 := by
  have hAs : (As, 12) ∈ pieces k.mem As Ar := by simp [pieces]
  have hAr : (Ar, 12) ∈ pieces k.mem As Ar := by simp [pieces]
  have hs₀ : ∀ i, ((k.setArgs s As).setArgs r Ar).arg s i = argAt k.mem As i := fun i => by
    rw [Kernel.arg_eq (by rw [Kernel.setArgs_ne hm.distinct, Kernel.setArgs_args])]
    rfl
  have hr₀ : ∀ i, ((k.setArgs s As).setArgs r Ar).arg r i = argAt k.mem Ar i := fun i => by
    rw [Kernel.setArgs_arg]
    rfl
  refine passMessage_agree (fun i hi => ?_) (fun i hi => ?_) ?_ (fun y hy => ?_) (fun y hy => ?_)
    (fun y hy => ?_) h.mem
  · rw [hs₀, h.arg_eq hs hAs hi]
  · rw [hr₀, h.arg_eq hr hAr hi]
  · rw [h.pid s (.inl rfl), (Kernel.setArgs_unmoved _ r Ar).pid, (Kernel.setArgs_unmoved k s As).pid]
  · exact ⟨(argAt k.mem Ar 0, 4), by simp [pieces], by rwa [hr₀] at hy⟩
  · exact ⟨(argAt k.mem As 1, (argAt k.mem As 2).toInt.toNat), by simp [pieces],
      by rwa [hs₀, hs₀] at hy⟩
  · exact ⟨(argAt k.mem Ar 1, (argAt k.mem Ar 2).toInt.toNat + 1), by simp [pieces],
      by rwa [hr₀, hr₀] at hy⟩

/-- The place for the pid still holds 0 or the pid of the sender. -/
theorem Between.source (hm : Meeting k s r As Ar) (h : Between k k' s r p o As Ar)
    (hr : (k'.proctab r).args = Ar) :
    k'.mem.word (k'.arg r 0) = 0 ∨ k'.mem.word (k'.arg r 0) = (k'.proctab s).pid := by
  have hcell : k'.mem.word (argAt k.mem Ar 0) = k.mem.word (argAt k.mem Ar 0) :=
    h.mem.word fun x hx => ⟨(argAt k.mem Ar 0, 4), by simp [pieces], hx⟩
  rw [h.arg_eq hr (by simp [pieces]) (by decide), hcell, h.pid s (.inl rfl)]
  exact hm.source

theorem validateBuffer_congr (h : k'.img = k.img) (b : Word) (n : Int) :
    validateBuffer k' b n = validateBuffer k b n := by
  unfold validateBuffer
  rw [h]

/-- A receive that comes second completes. -/
theorem Between.recv_second (hm : Meeting k s r As Ar) (h : Between k k' s r s r As Ar)
    (hw : WaitsIn k' s As Request.send.code) (hr : (k'.proctab r).args = Ar)
    (halone : ∀ q, q ≠ s → q ≠ r → (k'.proctab q).state = .blocked →
      k'.arg q 0 ≠ (k'.proctab r).pid)
    (hf : maxProc + 1 < a.fuel) : ∃ k₂, sysRecv k' r a = .ok k₂ ∧ Completed k' k₂ s r := by
  have hus : k'.Used s := hm.sender.used.congr (h.pid s (.inl rfl))
  have hur : k'.Used r := hm.receiver.used.congr (h.pid r (.inr rfl))
  have hAr : (Ar, 12) ∈ pieces k.mem As Ar := by simp [pieces]
  have hdest : k'.arg s 0 = (k'.proctab r).pid := by
    rw [h.arg_eq hw.args (by simp [pieces]) (by decide), hm.dest, h.pid r (.inr rfl)]
  have hsource := h.source hm hr
  have hne : (k'.proctab s).pid ≠ (k'.proctab r).pid := fun he => hm.distinct (hus.inj hur he)
  have hv : validateRecv k' a r (k'.mem.word (k'.arg r 0)) (k'.arg r 1) (k'.arg r 2).toInt
      = (0, k') := by
    refine validatePeer_eq hur hsource hus h.alive hm.distinct.symm ?_
    rw [h.arg_eq hr hAr (by decide), h.arg_eq hr hAr (by decide), validateBuffer_congr h.img]
    exact hm.dbuffer
  have hpeer : recvPeer k' a r = .ok (some s) := by
    have hmatch : recvMatch k' a.fuel r (k'.mem.word (k'.arg r 0)) = .ok (.found s) := by
      unfold recvMatch
      split
      · -- the scan meets nobody but `s` that sends to `r`
        obtain ⟨B, hc, hn, hB⟩ := h.listed
        have hlen := length_le_maxProc hn
        refine recvScan_finds hc ((hB s).mpr hw.blocked) (by omega) hne hdest fun q hq hqs => ?_
        have hb := (hB q).mp hq
        refine halone q hqs ?_ hb
        rintro rfl
        exact h.free hb
      · rename_i hne0
        have hslot : slotOf (k'.mem.word (k'.arg r 0)) = s := by
          rw [hsource.resolve_left hne0, hus.2.1]
        dsimp only
        rw [hslot, if_neg, if_pos ⟨hw.blocked, hdest⟩]
        · rfl
        · rintro ⟨hret, -⟩
          rw [hw.ret] at hret
          exact absurd hret (by decide)
    unfold recvPeer
    rw [hv, if_neg (Int.lt_irrefl 0), hmatch]
    rfl
  refine sysRecv_completes h.listed hus hur h.free hw.blocked hw.ret ?_ hpeer hf
  rw [passMessage_from hsource, hus.2.1]
  rw [h.arg_eq hr hAr (by decide), h.arg_eq hr hAr (by decide), h.arg_eq hr hAr (by decide)]
  exact hm.cell_apart

/-- A send that comes second completes. -/
theorem Between.send_second (hm : Meeting k s r As Ar) (h : Between k k' s r r s As Ar)
    (hw : WaitsIn k' r Ar Request.recv.code) (hs : (k'.proctab s).args = As)
    (hf : maxProc + 1 < a.fuel) : ∃ k₂, sysSend k' s a = .ok k₂ ∧ Completed k' k₂ s r := by
  have hus : k'.Used s := hm.sender.used.congr (h.pid s (.inl rfl))
  have hur : k'.Used r := hm.receiver.used.congr (h.pid r (.inr rfl))
  have hAs : (As, 12) ∈ pieces k.mem As Ar := by simp [pieces]
  have hdest : k'.arg s 0 = (k'.proctab r).pid := by
    rw [h.arg_eq hs hAs (by decide), hm.dest, h.pid r (.inr rfl)]
  have hv : validateSend k' a s (k'.arg s 0) (k'.arg s 1) (k'.arg s 2).toInt = (0, k') := by
    refine validatePeer_eq hus (.inr hdest) hur h.alive hm.distinct ?_
    rw [h.arg_eq hs hAs (by decide), h.arg_eq hs hAs (by decide), validateBuffer_congr h.img]
    exact hm.sbuffer
  have hpeer : sendPeer k' a s = some r := by
    have hmatch : sendMatch k' s (k'.arg s 0) = .found r := by
      unfold sendMatch
      dsimp only
      rw [hdest, hur.2.1, if_pos hw.blocked]
      rcases h.source hm hw.args with h0 | hpid
      · rw [if_pos h0]
      · rw [hpid, if_neg hus.pid_ne_zero, if_neg]
        rintro ⟨hne, -⟩
        exact hne rfl
    unfold sendPeer
    rw [hv, if_neg (Int.lt_irrefl 0), hmatch]
  refine sysSend_completes h.listed hus hur h.free hw.blocked hw.ret ?_ hpeer hf
  rw [hdest, hur.2.1]

/-- Two completed calls that pass the same message have the same outcome. -/
theorem Completed.same {k₁ k₂ k₁' k₂' : Kernel} (h₁ : Completed k₁ k₁' s r)
    (h₂ : Completed k₂ k₂' s r) (hn : (passMessage k₂ s r).1 = (passMessage k₁ s r).1)
    (hm : (passMessage k₁ s r).2.AgreeOn S (passMessage k₂ s r).2) :
    SameOutcome S s r k₁' k₂' := by
  refine ⟨?_, fun x hx => ?_, fun x hx => ?_⟩
  · rw [h₁.mem, h₂.mem]
    exact hm
  · rcases Nat.eq_zero_or_pos (passMessage k₁ s r).1 with h0 | hpos
    · obtain ⟨hs₁, -, hr₁, -⟩ := h₁.empty h0
      obtain ⟨hs₂, -, hr₂, -⟩ := h₂.empty (hn.trans h0)
      rcases hx with rfl | rfl
      · rw [hs₁, hs₂]
      · rw [hr₁, hr₂]
    · obtain ⟨hs₁, -, hr₁, -⟩ := h₁.passed hpos
      obtain ⟨hs₂, -, hr₂, -⟩ := h₂.passed (hn ▸ hpos)
      rcases hx with rfl | rfl
      · rw [hs₁, hs₂, hn]
      · rw [hr₁, hr₂, hn]
  · rcases Nat.eq_zero_or_pos (passMessage k₁ s r).1 with h0 | hpos
    · obtain ⟨-, hs₁, -, hr₁⟩ := h₁.empty h0
      obtain ⟨-, hs₂, -, hr₂⟩ := h₂.empty (hn.trans h0)
      rcases hx with rfl | rfl
      · rw [hs₁, hs₂]
      · rw [hr₁, hr₂]
    · obtain ⟨-, hs₁, -, hr₁⟩ := h₁.passed hpos
      obtain ⟨-, hs₂, -, hr₂⟩ := h₂.passed (hn ▸ hpos)
      rcases hx with rfl | rfl
      · rw [hs₁, hs₂]
      · rw [hr₁, hr₂]

end Second

/-- Executing the send and then the receive, or the receive and then the send, with
nothing in between that touches them, ends in the same way. Every call comes back if the
loops of the kernel are given as many iterations as there are processes. -/
theorem rendezvous_order_irrelevant (h : Meeting k s r As Ar) (a₁ a₂ a₃ a₄ : Ambient)
    (h₁ : maxProc + 1 < a₁.fuel) (h₂ : maxProc + 1 < a₂.fuel) (h₃ : maxProc + 1 < a₃.fuel)
    (h₄ : maxProc + 1 < a₄.fuel) :
    ∃ k₁ k₃, sysSend (k.setArgs s As) s a₁ = .ok k₁ ∧ sysRecv (k.setArgs r Ar) r a₃ = .ok k₃ ∧
      Untouched (InPieces k.mem As Ar) s r k₁ k₁ ∧ Untouched (InPieces k.mem As Ar) s r k₃ k₃ ∧
      ∀ k₁' k₃', Untouched (InPieces k.mem As Ar) s r k₁ k₁' →
        Untouched (InPieces k.mem As Ar) s r k₃ k₃' →
        ∃ k₂ k₄, sysRecv (k₁'.setArgs r Ar) r a₂ = .ok k₂ ∧
          sysSend (k₃'.setArgs s As) s a₄ = .ok k₄ ∧
          SameOutcome (InPieces k.mem As Ar) s r k₂ k₄ := by
  obtain ⟨k₁, hk₁, hrel₁, hl₁⟩ := h.send_first (Nat.lt_of_succ_lt h₁)
  obtain ⟨k₃, hk₃, hrel₃, hl₃⟩ := h.recv_first (Nat.lt_of_succ_lt h₃)
  refine ⟨k₁, k₃, hk₁, hk₃, h.untouched (.inl rfl) hrel₁ hl₁, h.untouched (.inr rfl) hrel₃ hl₃,
    fun k₁' k₃' hu₁ hu₃ => ?_⟩
  obtain ⟨hb₁, hw₁⟩ := h.between (.inl rfl) (.inr rfl) h.distinct.symm hrel₁ hu₁ Ar
  obtain ⟨hb₃, hw₃⟩ := h.between (.inr rfl) (.inl rfl) h.distinct hrel₃ hu₃ As
  obtain ⟨k₂, hk₂, hc₂⟩ := hb₁.recv_second h hw₁ Kernel.setArgs_args (fun q hqs hqr hb => by
    have hmove := Kernel.setArgs_unmoved k₁' r Ar
    rw [hmove.state] at hb
    rw [hmove.pid, show (k₁'.setArgs r Ar).arg q 0 = k₁'.arg q 0 by
      unfold Kernel.arg
      rw [Kernel.setArgs_ne hqr]
      rfl]
    exact hu₁.alone q hqs hqr hb) h₂
  obtain ⟨k₄, hk₄, hc₄⟩ := hb₃.send_second h hw₃ Kernel.setArgs_args h₄
  refine ⟨k₂, k₄, hk₂, hk₄, hc₂.same hc₄ ?_ ?_⟩
  · rw [(hb₁.passes h hw₁.args Kernel.setArgs_args).1, (hb₃.passes h Kernel.setArgs_args hw₃.args).1]
  · exact (hb₁.passes h hw₁.args Kernel.setArgs_args).2.symm.trans
      (hb₃.passes h Kernel.setArgs_args hw₃.args).2

/-- The root process has created process 3. It is about to send four bytes to it, and
process 3 to receive up to eight bytes from the root process. -/
def acquainted : Kernel :=
  (sampleStart.after (sampleCall .create [0x1400, 0])).d.k.setMem
    (storeWords 0x60000 [3, 0x60100, 4]
      (storeWords 0x61000 [0x61010, 0x61100, 8, 0, 1] (sampleImage.mem.putWord 0x60100 0x64636261)))

theorem acquainted_meeting : Meeting acquainted 1 3 0x60000 0x61000 := by
  have hnone : ∀ q, (acquainted.proctab q).state ≠ .blocked := by decide +kernel
  have hpieces : pieces acquainted.mem 0x60000 0x61000
      = [(0x60000, 12), (0x61000, 12), (0x60100, 4), (0x61100, 9), (0x61010, 4)] := by
    decide +kernel
  constructor
  · have hq : acquainted.blockedQ = none := by decide +kernel
    exact ⟨[], hq, List.nodup_nil, fun q => by simp [hnone q]⟩
  · decide
  · exact ⟨by unfold Kernel.Used; decide +kernel, by unfold Pcb.alive; decide +kernel, hnone 1⟩
  · exact ⟨by unfold Kernel.Used; decide +kernel, by unfold Pcb.alive; decide +kernel, hnone 3⟩
  · decide +kernel
  · exact .inr (by decide +kernel)
  · decide +kernel
  · decide +kernel
  · rw [hpieces]
    simp only [List.pairwise_cons, List.mem_cons, List.not_mem_nil, or_false, forall_eq_or_imp,
      forall_eq]
    refine ⟨⟨?_, ?_, ?_, ?_⟩, ⟨?_, ?_, ?_⟩, ⟨?_, ?_⟩, ?_, by simp⟩ <;>
      exact Apart.of_le (by decide) (by decide)
  · exact fun q hb => absurd hb (hnone q)
  · decide +kernel

/-- The root process and process 3 may make their calls in either order. -/
theorem rendezvous_order_of_acquainted :
    ∃ k₁ k₃ k₂ k₄,
      sysSend (acquainted.setArgs 1 0x60000) 1 sampleAmbient = .ok k₁ ∧
        sysRecv (k₁.setArgs 3 0x61000) 3 sampleAmbient = .ok k₂ ∧
      sysRecv (acquainted.setArgs 3 0x61000) 3 sampleAmbient = .ok k₃ ∧
        sysSend (k₃.setArgs 1 0x60000) 1 sampleAmbient = .ok k₄ ∧
      SameOutcome (InPieces acquainted.mem 0x60000 0x61000) 1 3 k₂ k₄ := by
  have hf : maxProc + 1 < sampleAmbient.fuel := by decide
  obtain ⟨k₁, k₃, h₁, h₃, hu₁, hu₃, hsecond⟩ := rendezvous_order_irrelevant acquainted_meeting
    sampleAmbient sampleAmbient sampleAmbient sampleAmbient hf hf hf hf
  obtain ⟨k₂, k₄, h₂, h₄, hsame⟩ := hsecond k₁ k₃ hu₁ hu₃
  exact ⟨k₁, k₃, k₂, k₄, h₁, h₂, h₃, h₄, hsame⟩

end Xeros
