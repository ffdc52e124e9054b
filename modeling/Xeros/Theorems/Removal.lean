import Xeros.Logic.Moves

/-!
# Removing from a queue

`remove` goes along a queue but leaves `prev` at the address of the queue, so that every pcb that
it passes becomes the head: those before the pcb that it finds are lost, and all but the last
one if it finds none.
-/

namespace Xeros

open Lib

variable {k k' : Kernel} {Q : QRef} {pid : Word} {l l' l₁ l₂ : List Slot} {fuel : Nat} {n : Int}
  {b : Slot}

/-- `remove` takes the first pcb with the pid out of the queue `l`, whose other pcbs stay in
order, and returns the pid; if there is none, it returns -1 and the queue stays. -/
structure Deletes (k : Kernel) (fuel : Nat) (Q : QRef) (pid : Word) (l : List Slot) : Prop where
  found : ∀ l₁ b l₂, l = l₁ ++ b :: l₂ → (k.proctab b).pid = pid →
    (∀ q ∈ l₁, (k.proctab q).pid ≠ pid) →
    ∃ k', remove k fuel (some Q) pid = .ok (k', pid.toInt) ∧
      Chain k'.link (Q.get k') (l₁ ++ l₂) ∧ k'.link b = none
  absent : (∀ q ∈ l, (k.proctab q).pid ≠ pid) →
    ∃ k', remove k fuel (some Q) pid = .ok (k', -1) ∧ Chain k'.link (Q.get k') l

@[simp] theorem QRef.get_set (Q : QRef) (k : Kernel) (v : Option Slot) :
    Q.get (Q.set k v) = v := by cases Q <;> rfl

/-- The queue that `remove` leaves when it has found a pcb: those behind it. -/
theorem chain_found (hc : Chain k.link (Q.get k) (l₁ ++ b :: l₂)) :
    Chain ((Q.set k (k.proctab b).next).upd b fun c => c.setNext none).link
      (Q.get ((Q.set k (k.proctab b).next).upd b fun c => c.setNext none)) l₂ ∧
    ((Q.set k (k.proctab b).next).upd b fun c => c.setNext none).link b = none := by
  have hnodup := hc.nodup
  obtain ⟨m, -, rfl, h₂⟩ := Seg.append_iff.mp hc
  have hget : Q.get ((Q.set k (k.proctab b).next).upd b fun c => c.setNext none)
      = (k.proctab b).next := by
    cases Q <;> rfl
  have hbl : b ∉ l₂ :=
    (List.nodup_cons.mp (List.nodup_append.mp hnodup).2.1).1
  rw [hget]
  refine ⟨Chain.congr (fun q hq => ?_) h₂, by simp [Kernel.link]⟩
  have hqb : q ≠ b := by
    rintro rfl
    exact hbl hq
  simp [Kernel.link, hqb]

/-- A list that ends in a pcb which heads it has no other. -/
theorem length_of_getLast {x : Option Slot} (hc : Chain k.link x l) (hb : l.getLast? = some b)
    (hx : Chain k.link (some b) l) : l.length = 1 := by
  obtain ⟨l', rfl⟩ := List.getLast?_eq_some_iff.mp hb
  obtain ⟨-, hlast⟩ := Seg.snoc_iff.mp hc
  have hsingle : Chain k.link (some b) [b] := ⟨rfl, hlast⟩
  rw [hx.unique hsingle]
  rfl

/-- A queue that `remove` changes as it should has one pcb at most, or the one that is looked for
comes first. -/
theorem Deletes.condition (hc : Chain k.link (Q.get k) l) (hf : l.length < fuel)
    (h : Deletes k fuel Q pid l) :
    l.length ≤ 1 ∨ ∃ b l', l = b :: l' ∧ (k.proctab b).pid = pid := by
  obtain ⟨k', n, hr⟩ : ∃ k' n, remove k fuel (some Q) pid = .ok (k', n) :=
    removeLoop_ok (Q := Q) hc hf
  rcases removeLoop_cases hc hr with ⟨l₁, b, l₂, rfl, hb, hl₁, -, hk'⟩ | ⟨hl, -, hk'⟩
  · obtain ⟨k₁, h₁, hchain, -⟩ := h.found l₁ b l₂ rfl hb hl₁
    obtain rfl : k' = k₁ := congrArg Prod.fst (Except.ok.inj (hr.symm.trans h₁))
    obtain ⟨hrest, -⟩ := chain_found hc
    rw [← hk'] at hrest
    -- what was before the pcb is lost
    have hlen := congrArg List.length (hchain.unique hrest)
    rw [List.length_append] at hlen
    have hnil : l₁ = [] := List.length_eq_zero_iff.mp (by omega)
    rw [hnil]
    exact .inr ⟨b, l₂, rfl, hb⟩
  · obtain ⟨k₁, h₁, hchain⟩ := h.absent hl
    obtain rfl : k' = k₁ := congrArg Prod.fst (Except.ok.inj (hr.symm.trans h₁))
    refine .inl ?_
    cases hlast : l.getLast? with
    | none =>
        rw [List.getLast?_eq_none_iff.mp hlast]
        exact Nat.zero_le 1
    | some b =>
        rw [hlast] at hk'
        rw [hk', QRef.get_set, QRef.set_link] at hchain
        exact Nat.le_of_eq (length_of_getLast hc hlast hchain)

/-- For every queue and every pid, `remove` deletes from the queue exactly if the queue has one
pcb at most, or the first one has the pid. -/
theorem remove_deletes_iff (hc : Chain k.link (Q.get k) l) (hf : l.length < fuel) :
    Deletes k fuel Q pid l ↔
      l.length ≤ 1 ∨ ∃ b l', l = b :: l' ∧ (k.proctab b).pid = pid := by
  refine ⟨Deletes.condition hc hf, fun h => ?_⟩
  obtain ⟨k', n, hr⟩ : ∃ k' n, remove k fuel (some Q) pid = .ok (k', n) :=
    removeLoop_ok (Q := Q) hc hf
  rcases removeLoop_cases hc hr with ⟨l₁, b, l₂, rfl, hb, hl₁, rfl, hk'⟩ | ⟨hl, rfl, hk'⟩
  · obtain ⟨hrest, hnone⟩ := chain_found hc
    rw [← hk'] at hrest hnone
    have hnil : l₁ = [] := by
      cases l₁ with
      | nil => rfl
      | cons c l₁ =>
          rcases h with h | ⟨b', l', he, hb'⟩
          · simp at h
          · rw [List.cons_append, List.cons.injEq] at he
            exact absurd (he.1 ▸ hb') (hl₁ c List.mem_cons_self)
    subst hnil
    refine ⟨fun l₃ b' l₄ he hb' hl₃ => ?_, fun hno => ?_⟩
    · -- the pcb found is the first one with the pid
      cases l₃ with
      | nil =>
          obtain ⟨rfl, rfl⟩ := List.cons.inj he
          exact ⟨k', hr, hrest, hnone⟩
      | cons c l₃ =>
          rw [List.nil_append, List.cons_append, List.cons.injEq] at he
          exact absurd (he.1 ▸ hb) (hl₃ c List.mem_cons_self)
    · exact absurd hb (hno b (List.mem_append_right _ List.mem_cons_self))
  · refine ⟨fun l₁ b l₂ he hb _ => ?_, fun _ => ⟨k', hr, ?_⟩⟩
    · exact absurd hb (hl b (he ▸ List.mem_append_right _ List.mem_cons_self))
    · have hshort : l.length ≤ 1 := by
        rcases h with h | ⟨b, l', rfl, hb⟩
        · exact h
        · exact absurd hb (hl b List.mem_cons_self)
      cases l with
      | nil =>
          obtain rfl : k' = k := hk'
          exact hc
      | cons b l =>
          obtain rfl : l = [] := List.length_eq_zero_iff.mp (Nat.le_zero.mp
            (Nat.le_of_succ_le_succ hshort))
          have hk : k' = Q.set k (some b) := hk'
          rw [hk, QRef.get_set, QRef.set_link]
          exact ⟨rfl, hc.2⟩

/-- The root process has created another one, which is behind the idle process. -/
def twoReady : Kernel :=
  ((turn sampleBoot (sampleCall .create [0x2000, 0x1000])).getD sampleBoot).k

theorem twoReady_chain : Chain twoReady.link (QRef.head.get twoReady) [2, 3] ∧
    (twoReady.proctab 2).pid = 2 ∧ (twoReady.proctab 3).pid = 3 := by
  have hfacts : twoReady.head = some 2 ∧ twoReady.link 2 = some 3 ∧ twoReady.link 3 = none ∧
      (twoReady.proctab 2).pid = 2 ∧ (twoReady.proctab 3).pid = 3 := by decide +kernel
  obtain ⟨hhead, hlink₂, hlink₃, hpid₂, hpid₃⟩ := hfacts
  exact ⟨⟨hhead, hlink₂, hlink₃⟩, hpid₂, hpid₃⟩

/-- The first process can be removed, and the second one stays. -/
theorem first_removed : Deletes twoReady 100 .head 2 [2, 3] := by
  obtain ⟨hc, hpid₂, -⟩ := twoReady_chain
  exact (remove_deletes_iff hc (by decide)).mpr (.inr ⟨2, [3], rfl, hpid₂⟩)

/-- Removing the second process loses the first one. -/
theorem first_lost : ¬ ∀ (k : Kernel) (fuel : Nat) (Q : QRef) (pid : Word) (l : List Slot),
    Chain k.link (Q.get k) l → l.length < fuel → Deletes k fuel Q pid l := by
  intro h
  obtain ⟨hc, hpid₂, hpid₃⟩ := twoReady_chain
  obtain ⟨k', hk', hchain, -⟩ := (h twoReady 100 .head 3 [2, 3] hc (by decide)).found [2] 3 []
    rfl hpid₃ (by simp [hpid₂])
  have hlost : ((remove twoReady 100 (some .head) 3).getD (twoReady, 0)).1.head = none := by
    decide +kernel
  rw [hk'] at hlost
  have hkept : k'.head = some 2 := hchain.1
  cases hkept.symm.trans hlost

end Xeros
