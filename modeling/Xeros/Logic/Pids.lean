import Xeros.Logic.Boot

/-!
# The pids of a slot

A slot `i` goes through the numbers below `INT_MAX` that leave `i` modulo the
table size, in rising order and round again. `registrar` is the dispatcher with
the list of the pids that each slot has been given.
-/

namespace Xeros

open Lib

variable {k k' : Kernel} {p p' q : Slot} {a : Ambient} {req : Request}

/-! ## The cycle -/

/-- The number of pids of slot `i`. -/
def pidCount (i : Nat) : Nat := (intMax.toNat - 1 - i) / maxProc + 1

/-- The pid of the `n`-th process in slot `i`, counted from 0. -/
def pidAt (i n : Nat) : Nat := i + maxProc * (n % pidCount i)

/-- The next one in a cycle of length `m`. -/
theorem succ_mod_cycle (n : Nat) {m : Nat} (hm : 0 < m) :
    (n + 1) % m = if n % m + 1 = m then 0 else n % m + 1 := by
  have hlt := Nat.mod_lt n hm
  rw [← Nat.mod_add_mod]
  split
  · rename_i h
    rw [h, Nat.mod_self]
  · exact Nat.mod_eq_of_lt (by omega)

/-- Between two turns of one element of a cycle every other one has its turn. -/
theorem exists_between_cycle {a b m r : Nat} (hab : a < b) (hmod : a % m = b % m) (hr : r < m)
    (hne : r ≠ a % m) : ∃ c, a < c ∧ c < b ∧ c % m = r := by
  have hb : a + m ≤ b := by
    have hdvd : m ∣ b - a := Nat.dvd_of_mod_eq_zero (Nat.sub_mod_eq_zero_of_mod_eq hmod.symm)
    have := Nat.le_of_dvd (by omega) hdvd
    omega
  have hlt := Nat.mod_lt a (by omega : 0 < m)
  have hdiv := Nat.div_add_mod a m
  -- the turn of `r` in this round, or else in the next
  rcases Nat.lt_or_ge (a % m) r with h | h
  · refine ⟨m * (a / m) + r, by omega, by omega, ?_⟩
    rw [Nat.mul_add_mod, Nat.mod_eq_of_lt hr]
  · refine ⟨m * (a / m + 1) + r, ?_, ?_, ?_⟩
    · rw [Nat.mul_add]
      omega
    · rw [Nat.mul_add]
      omega
    · rw [Nat.mul_add_mod, Nat.mod_eq_of_lt hr]

theorem pidCount_pos (i : Nat) : 0 < pidCount i := Nat.succ_pos _

section
variable {i : Nat} (n : Nat)

theorem pidAt_ge : i ≤ pidAt i n := Nat.le_add_right _ _

theorem pidAt_mod (hi : i < maxProc) : pidAt i n % maxProc = i := by
  unfold pidAt
  rw [Nat.add_mul_mod_self_left, Nat.mod_eq_of_lt hi]

/-- The last pid of the cycle is the last one below `INT_MAX`. -/
theorem pidCount_spec (hi : i < maxProc) :
    i + maxProc * (pidCount i - 1) < intMax.toNat ∧ intMax.toNat ≤ i + maxProc * pidCount i := by
  have hmax : intMax.toNat = 2147483647 := by decide
  unfold pidCount
  rw [hmax]
  simp only [maxProc] at hi ⊢
  omega

theorem pidAt_lt (hi : i < maxProc) : pidAt i n < intMax.toNat := by
  have hlt := Nat.mod_lt n (pidCount_pos i)
  have hmul : maxProc * (n % pidCount i) ≤ maxProc * (pidCount i - 1) :=
    Nat.mul_le_mul_left _ (by omega)
  have := (pidCount_spec hi).1
  unfold pidAt
  omega

/-- Every number below `INT_MAX` that leads back to the slot is one of its pids. -/
theorem exists_pidAt {v : Nat} (hv : v < intMax.toNat) (hmod : v % maxProc = i) :
    ∃ r < pidCount i, v = i + maxProc * r := by
  have hdiv := Nat.div_add_mod v maxProc
  have hi : i < maxProc := hmod ▸ Nat.mod_lt v (by decide)
  have := (pidCount_spec hi).2
  refine ⟨v / maxProc, ?_, by omega⟩
  by_contra hr
  have hmul : maxProc * pidCount i ≤ maxProc * (v / maxProc) := Nat.mul_le_mul_left _ (by omega)
  omega

/-- `create` advances the pid along the cycle. -/
theorem nextPid_pidAt (hi : i < maxProc) :
    nextPid (BitVec.ofNat 32 (pidAt i n)) i = BitVec.ofNat 32 (pidAt i (n + 1)) := by
  have hlt := pidAt_lt n hi
  have hmod := pidAt_mod n hi
  have hmax : intMax.toNat = 2147483647 := by decide
  have hproc : maxProc = 64 := rfl
  have hpid : (BitVec.ofNat 32 (pidAt i n)).toNat = pidAt i n := by
    rw [BitVec.toNat_ofNat]
    exact Nat.mod_eq_of_lt (by omega)
  have hadd : BitVec.ofNat 32 (pidAt i n) + BitVec.ofNat 32 maxProc
      = BitVec.ofNat 32 (pidAt i n + maxProc) := (BitVec.ofNat_add ..).symm
  have hnext : (BitVec.ofNat 32 (pidAt i n + maxProc)).toNat = pidAt i n + maxProc := by
    rw [BitVec.toNat_ofNat]
    exact Nat.mod_eq_of_lt (by omega)
  have hle : intMax ≤ BitVec.ofNat 32 (pidAt i n + maxProc) ↔
      intMax.toNat ≤ pidAt i n + maxProc := by
    rw [BitVec.le_def, hnext]
  obtain ⟨hspec₁, hspec₂⟩ := pidCount_spec hi
  have hr := Nat.mod_lt n (pidCount_pos i)
  unfold nextPid
  rw [hpid, if_neg (by simpa using hmod), hadd]
  simp only [hle]
  unfold pidAt
  rw [succ_mod_cycle n (pidCount_pos i)]
  by_cases hlast : n % pidCount i + 1 = pidCount i
  · -- the largest pid: the next one starts again
    rw [if_pos hlast, if_pos]
    · simp
    · rw [← hlast, Nat.mul_add] at hspec₂
      omega
  · rw [if_neg hlast, if_neg, Nat.mul_add]
    · rfl
    · have hmul : maxProc * (n % pidCount i + 1) ≤ maxProc * (pidCount i - 1) :=
        Nat.mul_le_mul_left _ (by omega)
      rw [Nat.mul_add] at hmul
      omega

/-- The first pid of a slot is its index. -/
theorem nextPid_zero (h0 : i ≠ 0) :
    nextPid 0 i = BitVec.ofNat 32 (pidAt i 0) := by
  unfold nextPid
  rw [if_pos (by simpa using Ne.symm h0)]
  simp [pidAt]

end

/-- The first `n` pids of slot `i`, latest first. -/
def pidsOf (i n : Nat) : List Word :=
  ((List.range n).map fun j => BitVec.ofNat 32 (pidAt i j)).reverse

theorem pidsOf_succ (i n : Nat) :
    pidsOf i (n + 1) = BitVec.ofNat 32 (pidAt i n) :: pidsOf i n := by
  simp [pidsOf, List.range_succ]

@[simp] theorem pidsOf_length (i n : Nat) : (pidsOf i n).length = n := by simp [pidsOf]

/-- The entry at index `j` has been made by the process `n - 1 - j`. -/
theorem pidsOf_getElem (i : Nat) {n j : Nat} (hj : j < n) :
    (pidsOf i n)[j]? = some (BitVec.ofNat 32 (pidAt i (n - 1 - j))) := by
  simp [pidsOf, hj]

/-! ## Runs with a register of pids -/

/-- A state of the system with the pids that each slot has been given, latest first. -/
structure Census where
  d : Disp
  given : Slot → List Word

/-- The slot that gets a new pid, whether or not the creation then succeeds. -/
def assigned (k : Kernel) : Request → Option Slot
  | .create => freeSlot k
  | _ => none

/-- A turn of the dispatcher, with the new pid entered. -/
def Census.turn (s : Census) (t : Trap) : Run Census := do
  let k := contextswitch s.d.k s.d.p t
  let (k', p') ← serve k s.d.p t.ambient t.cause.request
  return { d := loopTop k' p'
           given := fun q => if assigned k t.cause.request = some q
             then (k'.proctab q).pid :: s.given q else s.given q }

/-- The dispatcher with a register of pids. The processes made at boot are in it. -/
def registrar : TSys Census Trap where
  init s := dispatcher.init s.d ∧ ∀ q, s.given q =
    if (s.d.k.proctab q).pid = 0 then [] else [(s.d.k.proctab q).pid]
  step s t s' := s.turn t = .ok s'

/-- Only the slot that is given a pid changes it. -/
theorem serve_pid (hg : Good k) (hu : k.Used p) (h : serve k p a req = .ok (k', p')) (q : Slot) :
    (k'.proctab q).pid = if assigned k req = some q then nextPid (k.proctab q).pid q.val
      else (k.proctab q).pid := by
  obtain ⟨hs, -⟩ := serve_served hg hu h
  -- an update in front of a quiet step that leaves the pids alone
  have hother : ∀ {i : Slot} {f : Pcb → Pcb}, (f (k.proctab i)).pid = (k.proctab i).pid →
      Quiet (· = p) (k.upd i f) k' → (k'.proctab q).pid = (k.proctab q).pid := by
    intro i f hf hx
    rw [(hx.same q).pid]
    by_cases hq : q = i
    · subst hq
      simpa using hf
    · simp [hq]
  have hnone : req ≠ .create → assigned k req = none := by
    intro hne
    cases req <;> first | rfl | exact absurd rfl hne
  cases hs with
  | quiet hreq hx =>
      rw [(hx.same q).pid, if_neg]
      by_cases hc : req = .create
      · subst hc
        have hfree : freeSlot k = none := hreq
        simp [assigned, hfree]
      · simp [hnone hc]
  | create hreq _ i esp hi hx =>
      subst hreq
      rw [(hx.same q).pid]
      by_cases hq : q = i
      · subst hq
        simp [assigned, hi]
      · have hne : ¬ i = q := fun h => hq h.symm
        simp [assigned, hi, hq, hne]
  | install hreq _ _ hx =>
      rw [hnone (by simp [hreq]), if_neg (by simp)]
      refine hother ?_ hx
      simp
  | sigreturn hreq _ hk =>
      rw [hnone (by simp [hreq]), if_neg (by simp), hk, sysSigreturn]
      by_cases hq : q = p
      · subst hq
        simp
      · simp [hq]
  | post hreq _ _ hx _ =>
      rw [hnone (by simp [hreq]), if_neg (by simp)]
      exact hother rfl hx
  | openFirst hreq _ _ hx =>
      rw [hnone (by simp [hreq]), if_neg (by simp)]
      exact hother rfl hx

/-- The register of each slot is an initial part of its cycle, and its pid is the last
one entered. -/
structure Enrolled (s : Census) : Prop extends Sound s.d where
  given : ∀ q, s.given q = pidsOf q.val (s.given q).length
  pid : ∀ q, (s.d.k.proctab q).pid = (s.given q).head?.getD 0
  first : s.given 0 = []

theorem Booted.enrolled {s : Census} (h : Booted s.d) (hs : ∀ q, s.given q =
    if (s.d.k.proctab q).pid = 0 then [] else [(s.d.k.proctab q).pid]) : Enrolled s where
  toSound := h.sound
  given q := by
    rw [hs q, h.pid q]
    by_cases h₁ : q = 1
    · subst h₁
      rfl
    by_cases h₂ : q = 2
    · subst h₂
      rfl
    · simp [h₁, h₂, pidsOf]
  pid q := by
    rw [hs q]
    split
    · assumption
    · rfl
  first := by
    rw [hs 0, h.pid 0]
    rfl

/-- The pid that a slot is given is the next one of its cycle. -/
theorem Enrolled.nextPid {s : Census} (h : Enrolled s) {q : Slot} (hq : q ≠ 0) :
    Xeros.nextPid (s.d.k.proctab q).pid q.val :: s.given q
      = pidsOf q.val ((s.given q).length + 1) := by
  rw [pidsOf_succ, ← h.given q, h.pid q]
  congr 1
  cases hl : s.given q with
  | nil => exact nextPid_zero fun h0 => hq (Fin.ext h0)
  | cons v l =>
      have hv := h.given q
      rw [hl, List.length_cons, pidsOf_succ] at hv
      have hhead : v = BitVec.ofNat 32 (pidAt q.val l.length) := (List.cons.inj hv).1
      rw [List.head?_cons, Option.getD_some, hhead, nextPid_pidAt _ q.isLt, List.length_cons]

theorem Enrolled.turn {s s' : Census} {t : Trap} (h : Enrolled s) (ht : s.turn t = .ok s') :
    Enrolled s' := by
  simp only [Census.turn, Run.bind_eq_ok, pure, Except.pure, Except.ok.injEq] at ht
  obtain ⟨⟨k', p'⟩, hk, rfl⟩ := ht
  have hg := contextswitch_good h.good h.used t
  have hu := contextswitch_used (p := s.d.p) h.used t
  obtain ⟨hs, hp'⟩ := serve_served hg hu hk
  have hpid := serve_pid hg hu hk
  simp only [contextswitch_pid] at hpid
  have hslot : ∀ q, assigned (contextswitch s.d.k s.d.p t) t.cause.request = some q → q ≠ 0 := by
    intro q hq
    unfold assigned at hq
    split at hq
    · exact (freeSlot_spec hq).1
    · cases hq
  have htop : ∀ q, ((loopTop k' p').k.proctab q).pid = (k'.proctab q).pid := by
    intro q
    rw [loopTop_proctab hp']
    split
    · rename_i hq
      subst hq
      split <;> rfl
    · rfl
  refine ⟨loopTop_sound (hs.good hg hu) hp', fun q => ?_, fun q => ?_, ?_⟩
  · dsimp only
    split
    · rename_i hq
      rw [hpid q, if_pos hq, h.nextPid (hslot q hq), pidsOf_length]
    · exact h.given q
  · dsimp only
    rw [htop q, hpid q]
    split
    · rfl
    · exact h.pid q
  · dsimp only
    rw [if_neg fun h0 => hslot 0 h0 rfl]
    exact h.first

theorem enrolled_of_reachable {s : Census} (h : registrar.Reachable s) : Enrolled s := by
  have hinv : registrar.Inductive TSys.anyStep Enrolled :=
    ⟨fun _ h₀ => (booted_of_init h₀.1).enrolled h₀.2, fun _ _ _ hs _ ht => hs.turn ht⟩
  exact hinv.holds h

end Xeros
