import Xeros.Logic.Nested
import Xeros.Logic.Calls
import Xeros.Theorems.Delivery

/-!
# A round of signals

Signals are posted to a process that has none pending; from its next dispatch on
it handles them, the highest first. Which signals, and not in which order they
were posted, decides about what the process does.
-/

namespace Xeros

open Lib

/-! ## Events of a round -/

/-- The signals posted, in the order of the events. -/
def postsOf (ev : List SigEvent) : List ℕ :=
  ev.filterMap fun e => match e with
    | .posted n => some n
    | _ => none

/-- The starts and completions of handlers, in the order of the events. -/
def deliveriesOf (ev : List SigEvent) : List SigEvent :=
  ev.filter fun e => match e with
    | .started _ => true
    | .completed _ => true
    | _ => false

/-- One handler for each signal, started and completed in the order of the list. -/
def rounds (ns : List ℕ) : List SigEvent := ns.flatMap fun n => [.started n, .completed n]

/-- What the process should do for the signals posted: handle each once, the highest
first. -/
def expected (ps : List ℕ) : List SigEvent := rounds (descending ps.toFinset)

/-- The events of `q` from `s₀` to `s`, the earliest first. -/
def eventsSince (s₀ s : Recorded) (q : Slot) : List SigEvent :=
  ((s.h.log q).take ((s.h.log q).length - (s₀.h.log q).length)).reverse

theorem eventsSince_eq {s₀ s : Recorded} {q : Slot} {ev : List SigEvent}
    (h : s.h.log q = ev.reverse ++ s₀.h.log q) : eventsSince s₀ s q = ev := by
  unfold eventsSince
  rw [h, List.length_append, Nat.add_sub_cancel, List.take_left, List.reverse_reverse]

@[simp] theorem postsOf_append (ev ev' : List SigEvent) :
    postsOf (ev ++ ev') = postsOf ev ++ postsOf ev' := List.filterMap_append

@[simp] theorem deliveriesOf_append (ev ev' : List SigEvent) :
    deliveriesOf (ev ++ ev') = deliveriesOf ev ++ deliveriesOf ev' := List.filter_append ..

/-- Only posts are posts. -/
theorem postsOf_snoc {ev : List SigEvent} {e : SigEvent} (h : postsOf [e] = []) :
    postsOf (ev ++ [e]) = postsOf ev := by
  rw [postsOf_append, h, List.append_nil]

/-- Only starts and completions are deliveries. -/
theorem deliveriesOf_snoc {ev : List SigEvent} {e : SigEvent} (h : deliveriesOf [e] = []) :
    deliveriesOf (ev ++ [e]) = deliveriesOf ev := by
  rw [deliveriesOf_append, h, List.append_nil]

@[simp] theorem rounds_append (ns ns' : List ℕ) : rounds (ns ++ ns') = rounds ns ++ rounds ns' :=
  List.flatMap_append

theorem rounds_cons (n : ℕ) (ns : List ℕ) :
    rounds (n :: ns) = .started n :: .completed n :: rounds ns := rfl

theorem mem_of_mem_deliveriesOf {ev : List SigEvent} {e : SigEvent} (h : e ∈ deliveriesOf ev) :
    e ∈ ev := List.mem_of_mem_filter h

/-! ## The invariant of a round -/

/-- Where the process stands in a round, with the handlers for `done` completed: it is
between two handlers, or inside the one for the highest signal that is pending. -/
inductive Stage (c : Pcb) (fs : List SigFrame) (ev : List SigEvent) (done : List ℕ) : Prop
  | between (hfs : fs = []) (hpri : c.sigPriority = -1) (hdel : deliveriesOf ev = rounds done)
  | inside (f : SigFrame) (hfs : fs = [f]) (hnest : Nested [f])
      (hmax : IsGreatest (bits c.sigPending : Set ℕ) f.signum)
      (hpri : c.sigPriority = getPriorityMask f.signum)
      (hdel : deliveriesOf ev = rounds done ++ [.started f.signum])

/-- The signals posted since the events `l₀` are those handled, in falling order,
and those pending. -/
def InRound (l₀ : List SigEvent) : SigPred := fun c fs l =>
  ∃ ev done, l = ev.reverse ++ l₀ ∧ 30 ∉ postsOf ev ∧ bits c.sigPending ⊆ bits c.sigAllow ∧
    descending (postsOf ev).toFinset = done ++ descending (bits c.sigPending) ∧
    Stage c fs ev done

theorem Stage.same {c c' : Pcb} {fs : List SigFrame} {ev : List SigEvent} {done : List ℕ}
    (h : Stage c fs ev done) (hpend : c'.sigPending = c.sigPending)
    (hpri : c'.sigPriority = c.sigPriority) : Stage c' fs ev done := by
  cases h with
  | between h₁ h₂ h₃ => exact .between h₁ (hpri.trans h₂) h₃
  | inside f h₁ h₂ h₃ h₄ h₅ => exact .inside f h₁ h₂ (hpend ▸ h₃) (hpri.trans h₄) h₅

/-- While a handler is in progress nothing is due. -/
theorem Stage.between_of_deliverable {c : Pcb} {fs : List SigFrame} {ev : List SigEvent}
    {done : List ℕ} (h : Stage c fs ev done) (hd : deliverable c) :
    fs = [] ∧ c.sigPriority = -1 ∧ deliveriesOf ev = rounds done := by
  cases h with
  | between h₁ h₂ h₃ => exact ⟨h₁, h₂, h₃⟩
  | inside f _ _ hmax hpri =>
      have hlt : f.signum < 32 := lt_of_mem_bits (Finset.mem_coe.mp hmax.1)
      have hcalm : c.due = ∅ := by
        unfold Pcb.due
        rw [hpri, bits_getPriorityMask hlt, Finset.inter_right_comm,
          inter_above_greatest hmax, Finset.empty_inter]
      exact absurd (deliverable_iff.mp hd) (by simp [hcalm])

/-- Outside its handlers a process that runs has nothing pending. -/
theorem Stage.idle {c : Pcb} {fs : List SigFrame} {ev : List SigEvent} {done : List ℕ}
    (h : Stage c fs ev done) (hsub : bits c.sigPending ⊆ bits c.sigAllow) (hcalm : c.calm)
    (hfs : fs = []) : c.sigPending = 0 := by
  cases h with
  | inside f hfs' => exact absurd (hfs.symm.trans hfs') (by simp)
  | between _ hpri =>
      rw [Pcb.calm_iff, Pcb.due, hpri, bits_neg_one, Finset.inter_eq_left.mpr hsub] at hcalm
      rw [← bits_eq_empty, ← hcalm]
      refine (Finset.inter_eq_left.mpr fun i hi => ?_).symm
      exact Finset.mem_range.mpr (lt_of_mem_bits hi)

/-- Only the masks matter. -/
theorem InRound.congr {l₀ l : List SigEvent} {c c' : Pcb} {fs : List SigFrame}
    (h : InRound l₀ c fs l) (hpend : c'.sigPending = c.sigPending)
    (hallow : c'.sigAllow = c.sigAllow) (hpri : c'.sigPriority = c.sigPriority) :
    InRound l₀ c' fs l := by
  obtain ⟨ev, done, hl, h30, hsub, hdesc, hstage⟩ := h
  exact ⟨ev, done, hl, h30, hpend ▸ hallow ▸ hsub, hpend ▸ hdesc, hstage.same hpend hpri⟩

theorem inRound_stable (l₀ : List SigEvent) : (InRound l₀).Stable where
  same c c' fs l h hj := hj.congr h.sigPending h.sigAllow h.sigPriority
  deliver k q fs l hd hj := by
    obtain ⟨ev, done, h₁, h₂, h₃, h₄, h₅⟩ := hj
    obtain ⟨rfl, hpri, hdel⟩ := h₅.between_of_deliverable hd
    have hup : UpSet 32 (bits (k.proctab q).sigPriority) := by
      rw [hpri, bits_neg_one]
      exact .range
    obtain ⟨m, hlt, hm, hgr, -⟩ := deliver_greatest hd hup
    have hsig : (frameOf k q).signum = m := by rw [frameOf_signum, hm, Int.toNat_natCast]
    obtain ⟨hw₁, hw₂⟩ := frameOf_words k q
    have hposts : postsOf (ev ++ [.started (frameOf k q).signum]) = postsOf ev :=
      postsOf_snoc rfl
    refine ⟨ev ++ [.started (frameOf k q).signum], done, by simp [h₁], hposts ▸ h₂, h₃,
      hposts ▸ h₄, ?_⟩
    refine .inside (frameOf k q) rfl (.cons (hsig ▸ hlt) (by simp) hw₁ hw₂ hpri .nil)
      (hsig ▸ hgr) ?_ ?_
    · rw [hsig, ← hm]
      rfl
    · rw [deliveriesOf_append, hdel]
      rfl

/-! What becomes of the invariant with each event. -/

section Events

variable {l₀ l : List SigEvent} {c c' : Pcb} {f : SigFrame} {fs : List SigFrame} {m : ℕ}

/-- A handler is installed or removed only when nothing is pending. -/
theorem InRound.install (h : InRound l₀ c fs l) (hz : c.sigPending = 0)
    (hpend : c'.sigPending = c.sigPending) (hpri : c'.sigPriority = c.sigPriority) :
    InRound l₀ c' fs l := by
  obtain ⟨ev, done, hl, h30, -, hdesc, hstage⟩ := h
  refine ⟨ev, done, hl, h30, ?_, hpend ▸ hdesc, hstage.same hpend hpri⟩
  rw [hpend, hz, bits_zero]
  exact Finset.empty_subset _

/-- The removal of a handler is neither a post nor a delivery. -/
theorem InRound.removed (h : InRound l₀ c [] l) : InRound l₀ c [] (.removed m :: l) := by
  obtain ⟨ev, done, hl, h30, hsub, hdesc, hstage⟩ := h
  have hposts : postsOf (ev ++ [.removed m]) = postsOf ev := postsOf_snoc rfl
  have hdel : deliveriesOf (ev ++ [.removed m]) = deliveriesOf ev := deliveriesOf_snoc rfl
  refine ⟨ev ++ [.removed m], done, by simp [hl], hposts ▸ h30, hsub, hposts ▸ hdesc, ?_⟩
  cases hstage with
  | inside f hfs => exact absurd hfs (by simp)
  | between hfs hpri hd => exact .between hfs hpri (hdel.trans hd)

/-- A signal that is posted before the first handler starts joins those that are pending. -/
theorem InRound.posted (h : InRound l₀ c fs l) (h30 : m ≠ 30) (hm : m ∈ bits c.sigAllow)
    (hstart : ∀ ev : List SigEvent, l = ev.reverse ++ l₀ → ∀ n, .started n ∉ ev)
    (hpend : bits c'.sigPending = insert m (bits c.sigPending))
    (hallow : c'.sigAllow = c.sigAllow) (hpri : c'.sigPriority = c.sigPriority) :
    InRound l₀ c' fs (.posted m :: l) := by
  obtain ⟨ev, done, hl, hno, hsub, hdesc, hstage⟩ := h
  have hnone : ∀ n, .started n ∉ deliveriesOf ev :=
    fun n hn => hstart ev hl n (mem_of_mem_deliveriesOf hn)
  have hdel : deliveriesOf (ev ++ [.posted m]) = deliveriesOf ev := deliveriesOf_snoc rfl
  have hposts : postsOf (ev ++ [.posted m]) = postsOf ev ++ [m] := by simp [postsOf]
  cases hstage with
  | inside f _ _ _ _ hd => exact absurd (hd ▸ by simp) (hnone f.signum)
  | between hfs hpri' hd =>
      obtain rfl : done = [] := by
        cases done with
        | nil => rfl
        | cons n _ => exact absurd (hd ▸ by simp [rounds]) (hnone n)
      have heq : (postsOf ev).toFinset = bits c.sigPending := descending_injective hdesc
      refine ⟨ev ++ [.posted m], [], by simp [hl], ?_, ?_, ?_, ?_⟩
      · rw [hposts]
        simp [hno, Ne.symm h30]
      · rw [hpend, hallow]
        exact Finset.insert_subset hm hsub
      · rw [hposts, hpend, ← heq]
        simp
      · exact .between hfs (hpri.trans hpri') (hdel.trans hd)

/-- Inside a handler: it is the only one, and is that of the highest signal that is pending. That
has been posted, so it is not 30. -/
theorem InRound.inside (h : InRound l₀ c (f :: fs) l) :
    fs = [] ∧ Nested [f] ∧ IsGreatest (bits c.sigPending : Set ℕ) f.signum ∧
      c.sigPriority = getPriorityMask f.signum ∧ f.signum ≠ 30 := by
  obtain ⟨ev, done, -, h30, -, hdesc, hstage⟩ := h
  cases hstage with
  | between hfs => exact absurd hfs (by simp)
  | inside g hfs hnest hmax hpri _ =>
      obtain ⟨rfl, rfl⟩ := List.cons.inj hfs
      refine ⟨rfl, hnest, hmax, hpri, fun he => h30 ?_⟩
      have hmem : f.signum ∈ descending (postsOf ev).toFinset := by
        rw [hdesc]
        exact List.mem_append_right _ (mem_descending.mpr (Finset.mem_coe.mp hmax.1))
      rwa [mem_descending, List.mem_toFinset, he] at hmem

/-- A handler that is completed has handled its signal. -/
theorem InRound.completed (h : InRound l₀ c (f :: fs) l)
    (hpend : bits c'.sigPending = bits c.sigPending \ {f.signum})
    (hallow : c'.sigAllow = c.sigAllow) (hpri : c'.sigPriority = -1) :
    InRound l₀ c' fs (.completed f.signum :: l) := by
  obtain ⟨ev, done, hl, h30, hsub, hdesc, hstage⟩ := h
  have hposts : postsOf (ev ++ [.completed f.signum]) = postsOf ev := postsOf_snoc rfl
  cases hstage with
  | between hfs => exact absurd hfs (by simp)
  | inside g hfs _ hmax _ hd =>
      obtain ⟨rfl, rfl⟩ := List.cons.inj hfs
      refine ⟨ev ++ [.completed f.signum], done ++ [f.signum], by simp [hl], hposts ▸ h30, ?_, ?_,
        .between rfl hpri ?_⟩
      · rw [hpend, hallow]
        exact Finset.sdiff_subset.trans hsub
      · rw [hposts, hdesc, hpend, descending_eq_cons hmax, List.append_assoc]
        rfl
      · rw [deliveriesOf_append, hd, rounds_append, List.append_assoc]
        rfl

end Events

/-- A step of a round: `q` gets a signal other than 30 only while no handler has
started since the events `l₀`, returns from its handlers properly, does not stop, and
neither installs nor removes a handler while one is in progress. -/
structure Undisturbed (q : Slot) (s₀ s : Recorded) (t : Trap) : Prop where
  posts : t.cause.request = .sigkill →
    ∀ n, postedBy (contextswitch s.d.k s.d.p t) s.d.p t.ambient = some (q, n) →
      n ≠ 30 ∧ ∀ m, .started m ∉ eventsSince s₀ s q
  returns : ReturnsProperly q s t
  lives : s.d.p = q → t.cause.request ≠ .stop
  keeps : s.d.p = q → t.cause.request = .sighandler → s.h.frames q = []

/-- Serving a request keeps a round going. -/
theorem SigStep.inRound {s₀ s : Recorded} {t : Trap} {k₂ : Kernel} {h₂ : History} {q : Slot}
    {p' : Slot} (hc : Undisturbed q s₀ s t) (hset : Settled s.d)
    (halive : (s.d.k.proctab q).alive)
    (hserve : serve (contextswitch s.d.k s.d.p t) s.d.p t.ambient t.cause.request
      = .ok (k₂, p'))
    (hs : SigStep (contextswitch s.d.k s.d.p t) (s.h.setCall s.d.p t.cause.call) s.d.p t.ambient
      t.cause.request k₂ h₂ q)
    (hj : InRound (s₀.h.log q) ((contextswitch s.d.k s.d.p t).proctab q) (s.h.frames q)
      (s.h.log q)) :
    InRound (s₀.h.log q) (k₂.proctab q) (h₂.frames q) (h₂.log q) := by
  have hcs := contextswitch_sig s.d.k s.d.p q t
  have hstate := contextswitch_state s.d.k s.d.p q t
  -- nothing is pending between two handlers when the process runs
  have hidle : q = s.d.p → s.h.frames q = [] →
      ((contextswitch s.d.k s.d.p t).proctab q).sigPending = 0 := by
    intro hq hfs
    obtain ⟨ev, done, -, -, hsub, -, hstage⟩ := hj
    exact hstage.idle hsub (hcs.calm (hset.calm q (.inl hq))) hfs
  generalize hk : contextswitch s.d.k s.d.p t = k at *
  cases hs with
  | same hsig hf hl' =>
      rw [hf, hl']
      exact (inRound_stable _).same _ _ _ _ hsig hj
  | stopped hreq hq => exact absurd hreq (hc.lives hq.symm)
  | renewed _ hfree =>
      obtain ⟨-, hst | hst⟩ := freeSlot_spec hfree
      · exact absurd (hstate.symm.trans hst) halive.1
      · exact absurd (hstate.symm.trans hst) halive.2
  | opened _ _ _ hsig hf hl' =>
      rw [hf, hl']
      exact hj.congr hsig.sigPending hsig.sigAllow hsig.sigPriority
  | installed hreq hq fp _ n _ _ _ hsig hf hl' =>
      obtain ⟨h₁, h₂⟩ := (k.proctab q).install_masks n fp
      rw [hf, hl']
      exact hj.install (hidle hq (hc.keeps hq.symm hreq)) (hsig.sigPending.trans h₁)
        (hsig.sigPriority.trans h₂)
  | removed hreq hq _ n _ _ hsig hf hl' =>
      obtain ⟨h₁, h₂⟩ := (k.proctab q).install_masks n 0
      have hfs := hc.keeps hq.symm hreq
      have hpend : (k₂.proctab q).sigPending = (k.proctab q).sigPending :=
        hsig.sigPending.trans h₁
      have hpri : (k₂.proctab q).sigPriority = (k.proctab q).sigPriority :=
        hsig.sigPriority.trans h₂
      have hj' := hj.install (hidle hq hfs) hpend hpri
      rw [hfs] at hj'
      rw [hf, hl', History.setCall_frames, hfs]
      exact hj'.removed
  | posted hreq hq n hn hacc hsig hf hl' =>
      obtain ⟨hn30, hstart⟩ : sigNo n ≠ 30 ∧ ∀ m, .started m ∉ eventsSince s₀ s q := by
        refine hc.posts hreq _ ?_
        rw [hreq] at hserve
        rw [hk, postedBy_eq hserve, ← hn, if_pos hacc, hq]
      have hpend : bits (k₂.proctab q).sigPending = insert (sigNo n) (bits (k.proctab q).sigPending) := by
        rw [hsig.sigPending, Pcb.pend_sigPending, bits_or, bits_bit, Finset.union_comm,
          Finset.singleton_union]
      have hallow : sigNo n ∈ bits (k.proctab q).sigAllow := by
        rw [mem_bits_iff_and_bit, BitVec.and_comm, hq, ← toWord_toInt (k.arg s.d.p 0)]
        exact hacc.2.2
      rw [hf, hl']
      exact hj.posted hn30 hallow (fun ev hl => eventsSince_eq hl ▸ hstart) hpend hsig.sigAllow
        hsig.sigPriority
  | returned hreq hq hk₂ hf hl' =>
      obtain ⟨f, fs, hfs, hret⟩ := hc.returns hq.symm hreq
      have hk' : contextswitch s.d.k q t = k := hq ▸ hk
      rw [hk'] at hret
      rw [hfs] at hj
      obtain ⟨rfl, hnest, hmax, hpri, hn30⟩ := hj.inside
      have hlt : f.signum < 32 := lt_of_mem_bits (Finset.mem_coe.mp hmax.1)
      have hmasks := (k.proctab q).sigreturn_masks k.mem t.ambient.sig (k.arg q 0)
      have hallow := ((k.proctab q).sigreturn_handlers k.mem t.ambient.sig (k.arg q 0)).1
      have hpend : bits (k₂.proctab q).sigPending
          = bits (k.proctab q).sigPending \ {f.signum} := by
        rw [hk₂, ← hq, hmasks.1, hpri, prMaskToSignum_getPriorityMask hlt hn30,
          bits_and_not, bits_bit, sigNo_natCast hlt]
      have hback : (k₂.proctab q).sigPriority = -1 := by
        rw [hk₂, ← hq, (hnest.sigreturn hret t.ambient.sig).2]
        cases hnest with
        | cons _ _ _ _ hsaved _ => exact hsaved
      have hdone : InRound (s₀.h.log q) (k₂.proctab q) [] (.completed f.signum :: s.h.log q) :=
        hj.completed hpend (by rw [hk₂, ← hq, hallow]) hback
      rw [hf, hl', History.setCall_frames, hfs]
      exact hdone

/-! ## Rounds -/

/-- A run from a state in which the process of slot `q` is alive, with no handler in
progress and no signal pending. -/
structure Round (q : Slot) (s₀ s : Recorded) : Prop where
  reached : recorder.ReachableUnder (ReturnsProperly q) s₀
  alive : (s₀.d.k.proctab q).alive
  used : s₀.d.k.Used q
  frames : s₀.h.frames q = []
  pending : (s₀.d.k.proctab q).sigPending = 0
  path : recorder.Path (Undisturbed q s₀) s₀ s

/-- The signals posted in a round. -/
abbrev posts (q : Slot) (s₀ s : Recorded) : List ℕ := postsOf (eventsSince s₀ s q)

/-- The handlers started and completed in a round. -/
abbrev deliveries (q : Slot) (s₀ s : Recorded) : List SigEvent :=
  deliveriesOf (eventsSince s₀ s q)

section

variable {q : Slot} {s₀ s : Recorded}

/-- What holds all along a round. -/
structure RoundState (q : Slot) (s₀ s : Recorded) : Prop where
  reached : recorder.Reachable s
  alive : (s.d.k.proctab q).alive
  inRound : (InRound (s₀.h.log q)).At q s

theorem RoundState.settled (h : RoundState q s₀ s) : Settled s.d :=
  settled_of_reachable (Recorded.reachable_d (C := TSys.anyStep) h.reached)

/-- A turn keeps a round going. -/
theorem RoundState.turn {t : Trap} {s' : Recorded} (h : RoundState q s₀ s)
    (hc : Undisturbed q s₀ s t) (hst : recorder.step s t s') : RoundState q s₀ s' := by
  have hset := h.settled
  obtain ⟨k₂, h₂, ht⟩ := Recorded.turn_cases hset.toSound hst
  refine ⟨h.reached.tail trivial hst, ?_, ?_⟩
  · exact alive_turn hset.toSound (Recorded.turn_d hst) h.alive hc.lives
  · refine ht.keeps (inRound_stable _) h.inRound fun hj hs => ?_
    exact hs.inRound hc hset h.alive ht.serve hj

theorem Round.roundState (h : Round q s₀ s) : RoundState q s₀ s := by
  have hinit : RoundState q s₀ s₀ := by
    obtain ⟨hpri, -, -⟩ := nested_of_reachable h.reached h.used.pid_ne_zero
    rw [h.frames] at hpri
    refine ⟨h.reached.reachable, h.alive, [], [], rfl, by simp [postsOf], ?_, ?_, ?_⟩
    · rw [h.pending, bits_zero]
      exact Finset.empty_subset _
    · rw [h.pending, bits_zero]
      rfl
    · exact .between h.frames hpri rfl
  exact h.path.preserves hinit fun _ _ _ hs hc hst => hs.turn hc hst

/-- The handlers of the signals that are no longer pending are completed; a process
that runs outside its handlers has none pending. -/
theorem Round.stage (h : Round q s₀ s) :
    ∃ done, descending (posts q s₀ s).toFinset
        = done ++ descending (bits (s.d.k.proctab q).sigPending)
      ∧ Stage (s.d.k.proctab q) (s.h.frames q) (eventsSince s₀ s q) done
      ∧ (s.d.p = q → s.h.frames q = [] → (s.d.k.proctab q).sigPending = 0) := by
  have hset := h.roundState.settled
  obtain ⟨ev, done, hl, -, hsub, hdesc, hstage⟩ := h.roundState.inRound
  rw [← eventsSince_eq hl] at hdesc hstage
  refine ⟨done, hdesc, hstage, fun hp hfs => ?_⟩
  exact hstage.idle hsub (hset.calm q (.inl hp.symm)) hfs

/-- Handlers start and complete in falling order of the signals posted. -/
theorem Round.deliveries_prefix (h : Round q s₀ s) :
    deliveries q s₀ s <+: expected (posts q s₀ s) := by
  obtain ⟨done, hdesc, hstage, -⟩ := h.stage
  unfold expected deliveries
  rw [hdesc, rounds_append]
  cases hstage with
  | between _ _ hd =>
      rw [hd]
      exact List.prefix_append _ _
  | inside f _ _ hmax _ hd =>
      rw [hd, descending_eq_cons hmax]
      rw [rounds_cons, List.prefix_append_right_inj]
      exact ⟨_, rfl⟩

/-- All handlers are completed exactly when none is in progress and nothing is
pending. -/
theorem Round.complete_iff (h : Round q s₀ s) :
    deliveries q s₀ s = expected (posts q s₀ s) ↔
      s.h.frames q = [] ∧ (s.d.k.proctab q).sigPending = 0 := by
  obtain ⟨done, hdesc, hstage, -⟩ := h.stage
  unfold expected deliveries
  rw [hdesc, rounds_append]
  cases hstage with
  | between hfs _ hd =>
      rw [hd]
      constructor
      · intro heq
        have hnil : rounds (descending (bits (s.d.k.proctab q).sigPending)) = [] :=
          List.self_eq_append_right.mp heq
        refine ⟨hfs, bits_eq_empty.mp (Finset.eq_empty_of_forall_notMem fun n hn => ?_)⟩
        have hmem : n ∈ descending (bits (s.d.k.proctab q).sigPending) := mem_descending.mpr hn
        cases hdn : descending (bits (s.d.k.proctab q).sigPending) with
        | nil => simp [hdn] at hmem
        | cons m ms => simp [hdn, rounds] at hnil
      · rintro ⟨-, hz⟩
        rw [hz, bits_zero, descending_empty]
        simp [rounds]
  | inside f hfs _ hmax _ hd =>
      rw [hd, descending_eq_cons hmax]
      simp [rounds, hfs]

/-- When all handlers are completed, every signal is accepted again. -/
theorem Round.sigPriority (h : Round q s₀ s) (hfs : s.h.frames q = []) :
    (s.d.k.proctab q).sigPriority = -1 := by
  obtain ⟨done, -, hstage, -⟩ := h.stage
  cases hstage with
  | between _ hpri _ => exact hpri
  | inside f hfs' => exact absurd (hfs.symm.trans hfs') (by simp)

/-- A return from a handler completes it and leaves the process on the processor. -/
theorem Round.completes {t : Trap} {s' : Recorded} (h : Round q s₀ s) (hp : s.d.p = q)
    (hreq : t.cause.request = .sigreturn) (hc : Undisturbed q s₀ s t)
    (hst : recorder.step s t s') :
    s'.d.p = q ∧ ∃ n, deliveries q s₀ s ++ [.completed n] <+: deliveries q s₀ s' := by
  obtain ⟨f, fs, hfs, -⟩ := hc.returns hp hreq
  obtain ⟨k₂, h₂, ht⟩ := Recorded.turn_cases h.roundState.settled.toSound hst
  have hserve := ht.serve
  rw [hreq] at hserve
  simp only [serve, pure, Except.pure, Except.ok.injEq, Prod.mk.injEq] at hserve
  obtain ⟨ev, done, hl, -⟩ := h.roundState.inRound
  have hnoted : h₂.log q = .completed f.signum :: s.h.log q := by
    rw [ht.noted, hreq, hp]
    simp [History.served, hfs]
  refine ⟨hserve.2.symm.trans hp, f.signum, ?_⟩
  unfold deliveries
  rw [eventsSince_eq hl]
  rcases ht.delivery q with ⟨-, -, -, -, hlog⟩ | ⟨-, -, -, hlog⟩
  · rw [hnoted, hl] at hlog
    have hev : ∀ e, e :: SigEvent.completed f.signum :: (ev.reverse ++ s₀.h.log q)
        = (ev ++ [SigEvent.completed f.signum] ++ [e]).reverse ++ s₀.h.log q := by simp
    rw [eventsSince_eq (hlog.trans (hev _)), deliveriesOf_append, deliveriesOf_append]
    exact List.prefix_append _ _
  · rw [hnoted, hl] at hlog
    have hev : SigEvent.completed f.signum :: (ev.reverse ++ s₀.h.log q)
        = (ev ++ [SigEvent.completed f.signum]).reverse ++ s₀.h.log q := by simp
    rw [eventsSince_eq (hlog.trans hev), deliveriesOf_append]
    exact List.prefix_rfl

end

/-- What is expected does not depend on the order of the posts. -/
theorem expected_perm {ps ps' : List ℕ} (h : ps.Perm ps') : expected ps = expected ps' := by
  unfold expected
  rw [List.toFinset_eq_of_perm _ _ h]

/-- In a round, the process handles each signal posted once, the highest first. When it
runs outside its handlers it has handled all of them, nothing is pending and every signal
is accepted; until then, each return from a handler completes one more. Two rounds with
the same posts, in whatever order, make the same deliveries. -/
theorem posting_order_irrelevant {q : Slot} {s₀ s : Recorded} (h : Round q s₀ s) :
    deliveries q s₀ s <+: expected (posts q s₀ s) ∧
    (s.d.p = q → s.h.frames q = [] → deliveries q s₀ s = expected (posts q s₀ s)) ∧
    (deliveries q s₀ s = expected (posts q s₀ s) →
      (s.d.k.proctab q).sigPending = 0 ∧ (s.d.k.proctab q).sigPriority = -1) ∧
    (∀ t s', s.d.p = q → t.cause.request = .sigreturn → Undisturbed q s₀ s t →
      recorder.step s t s' →
      s'.d.p = q ∧ ∃ n, deliveries q s₀ s ++ [.completed n] <+: deliveries q s₀ s') ∧
    ∀ q' s₀' s', Round q' s₀' s' → (posts q s₀ s).Perm (posts q' s₀' s') →
      s.d.p = q → s.h.frames q = [] → s'.d.p = q' → s'.h.frames q' = [] →
      deliveries q s₀ s = deliveries q' s₀' s' := by
  have hdone : ∀ {q : Slot} {s₀ s : Recorded}, Round q s₀ s → s.d.p = q → s.h.frames q = [] →
      deliveries q s₀ s = expected (posts q s₀ s) := by
    intro q s₀ s h hp hfs
    obtain ⟨-, -, -, hidle⟩ := h.stage
    exact h.complete_iff.mpr ⟨hfs, hidle hp hfs⟩
  refine ⟨h.deliveries_prefix, hdone h, ?_, ?_, ?_⟩
  · intro heq
    obtain ⟨hfs, hz⟩ := h.complete_iff.mp heq
    exact ⟨hz, h.sigPriority hfs⟩
  · intro t s' hp hreq hc hst
    exact h.completes hp hreq hc hst
  · intro q' s₀' s' h' hperm hp hfs hp' hfs'
    calc deliveries q s₀ s = expected (posts q s₀ s) := hdone h hp hfs
      _ = expected (posts q' s₀' s') := expected_perm hperm
      _ = deliveries q' s₀' s' := (hdone h' hp' hfs').symm

/-- A post before the first handler does not disturb the round. -/
theorem Undisturbed.of_post {q : Slot} {s₀ s : Recorded} {t : Trap} {m : ℕ}
    (hreq : t.cause.request = .sigkill)
    (hm : postedBy (contextswitch s.d.k s.d.p t) s.d.p t.ambient = some (q, m)) (h30 : m ≠ 30)
    (hev : deliveries q s₀ s = []) : Undisturbed q s₀ s t where
  posts _ n hn := by
    rw [hm, Option.some.injEq, Prod.mk.injEq] at hn
    refine ⟨hn.2 ▸ h30, fun m hmem => ?_⟩
    have : .started m ∈ deliveries q s₀ s := List.mem_filter.mpr ⟨hmem, rfl⟩
    simp [hev] at this
  returns := .of_ne (by simp [hreq])
  lives _ := by simp [hreq]
  keeps _ h := by simp [hreq] at h

/-- A proper return does not disturb the round. -/
theorem Undisturbed.of_return {q : Slot} {s₀ s : Recorded} {t : Trap}
    (hreq : t.cause.request = .sigreturn) (hne : s.h.frames q ≠ [])
    (hf : ∀ f ∈ (s.h.frames q).head?, f.ReturnedBy (contextswitch s.d.k q t) q) :
    Undisturbed q s₀ s t where
  posts h := by simp [hreq] at h
  returns _ _ := by
    obtain ⟨f, fs, hfs⟩ := List.exists_cons_of_ne_nil hne
    exact ⟨f, fs, hfs, hf f (by simp [hfs])⟩
  lives _ := by simp [hreq]
  keeps _ h := by simp [hreq] at h

/-- A yield does not disturb the round. -/
theorem Undisturbed.of_yield {q : Slot} {s₀ s : Recorded} {t : Trap}
    (hreq : t.cause.request = .yield) : Undisturbed q s₀ s t where
  posts h := by simp [hreq] at h
  returns := .of_ne (by simp [hreq])
  lives _ := by simp [hreq]
  keeps _ h := by simp [hreq] at h

/-- A run in which the root process installs handlers for 5 and 7, creates process 3 and
yields to it. -/
def poked₁ : Recorded := sampleStart.after (sampleInstall 5)

@[inherit_doc poked₁]
def poked₂ : Recorded := poked₁.after (sampleInstall 7)

@[inherit_doc poked₁]
def poked₃ : Recorded := poked₂.after (sampleCall .create [0x1400, 0])

@[inherit_doc poked₁]
def poked₄ : Recorded := poked₃.after (sampleCall .yield [])

theorem poked₄_reachable {C : Recorded → Trap → Prop} (h : ∀ s t, t.cause.request ≠ .sigreturn →
    C s t) : recorder.ReachableUnder C poked₄ := by
  have hok : (sampleStart.turn (sampleInstall 5)).isOk = true ∧
      (poked₁.turn (sampleInstall 7)).isOk = true ∧
      (poked₂.turn (sampleCall .create [0x1400, 0])).isOk = true ∧
      (poked₃.turn (sampleCall .yield [])).isOk = true := by decide +kernel
  obtain ⟨h₁, h₂, h₃, h₄⟩ := hok
  refine Recorded.reachable_after ?_ (h _ _ (by decide)) h₄
  refine Recorded.reachable_after ?_ (h _ _ (by decide)) h₃
  refine Recorded.reachable_after ?_ (h _ _ (by decide)) h₂
  exact Recorded.reachable_after sampleStart_reachable (h _ _ (by decide)) h₁

/-- Process 3 posts the signal `n` to the root process and goes on. -/
structure Pokes (s : Recorded) (n : ℕ) : Prop where
  ok : (s.turn (samplePoke (BitVec.ofNat 32 n))).isOk = true
  posts : postedBy (contextswitch s.d.k s.d.p (samplePoke (BitVec.ofNat 32 n))) s.d.p sampleAmbient
    = some (1, n)
  other : n ≠ 30
  runs : (s.after (samplePoke (BitVec.ofNat 32 n))).d.p ≠ 1

/-- The root process returns from the handler in progress. -/
structure Returns (s : Recorded) : Prop where
  ok : (s.turn (sampleReturn 0x50000)).isOk = true
  inside : s.h.frames 1 ≠ []
  proper : ∀ f ∈ (s.h.frames 1).head?, f.ReturnedBy (contextswitch s.d.k 1 (sampleReturn 0x50000)) 1

instance (s : Recorded) (n : ℕ) : Decidable (Pokes s n) :=
  decidable_of_iff (_ ∧ _ ∧ _ ∧ _) ⟨fun ⟨h₁, h₂, h₃, h₄⟩ => ⟨h₁, h₂, h₃, h₄⟩,
    fun ⟨h₁, h₂, h₃, h₄⟩ => ⟨h₁, h₂, h₃, h₄⟩⟩

instance (s : Recorded) : Decidable (Returns s) :=
  decidable_of_iff (_ ∧ _ ∧ _) ⟨fun ⟨h₁, h₂, h₃⟩ => ⟨h₁, h₂, h₃⟩, fun ⟨h₁, h₂, h₃⟩ => ⟨h₁, h₂, h₃⟩⟩

/-- The state after a post. -/
def Recorded.poke (s : Recorded) (n : ℕ) : Recorded := s.after (samplePoke (BitVec.ofNat 32 n))

/-- A run of the round in which the root process has got the posts `ns`, latest first, and no
handler has started. -/
structure Poked (s : Recorded) (ns : List ℕ) : Prop where
  path : recorder.Path (Undisturbed 1 poked₄) poked₄ s
  log : s.h.log 1 = ns.map .posted

theorem poked₄_poked : Poked poked₄ [] := ⟨.refl, by decide +kernel⟩

/-- The events of the round are those noted of the root process. -/
theorem eventsSince_poked₄ (s : Recorded) : eventsSince poked₄ s 1 = (s.h.log 1).reverse := by
  refine eventsSince_eq ?_
  rw [poked₄_poked.log, List.reverse_reverse]
  exact (List.append_nil _).symm

theorem Poked.sound {s : Recorded} {ns : List ℕ} (h : Poked s ns) : Sound s.d := by
  have hr : recorder.Reachable poked₄ := poked₄_reachable fun _ _ _ => trivial
  exact Recorded.sound_of_reachable (hr.path (h.path.mono fun _ _ _ => trivial))

/-- One more post. -/
theorem Poked.poke {s : Recorded} {ns : List ℕ} {n : ℕ} (h : Poked s ns) (hn : Pokes s n) :
    Poked (s.poke n) (n :: ns) where
  path := by
    have hnone : deliveries 1 poked₄ s = [] := by
      unfold deliveries deliveriesOf
      rw [eventsSince_poked₄, h.log, List.filter_reverse, List.filter_map]
      simp [Function.comp_def]
    exact Recorded.path_after h.path (.of_post rfl hn.posts hn.other hnone) hn.ok
  log := by
    obtain ⟨k₂, h₂, ht⟩ := Recorded.turn_cases h.sound (Run.eq_getD (s := s) hn.ok)
    have hlog : h₂.log 1 = .posted n :: s.h.log 1 := by
      rw [ht.noted]
      show ((s.h.setCall _ _).served _ _ sampleAmbient .sigkill).log 1 = _
      simp [History.served, hn.posts]
    rcases ht.delivery 1 with ⟨hp, -⟩ | ⟨-, -, -, hsame⟩
    · exact absurd hp.symm hn.runs
    · exact hsame.trans (hlog.trans (by rw [h.log, List.map_cons]))

/-- Only `SYS_SIGKILL` posts. -/
theorem postsOf_turn {s s' : Recorded} {t : Trap} (hs : Sound s.d) (h : recorder.step s t s')
    (hreq : t.cause.request ≠ .sigkill) (q : Slot) :
    postsOf (s'.h.log q) = postsOf (s.h.log q) := by
  obtain ⟨k₂, h₂, ht⟩ := Recorded.turn_cases hs h
  have hserved : postsOf (h₂.log q) = postsOf (s.h.log q) := by
    rw [ht.noted]
    generalize t.cause.request = req at hreq ⊢
    have hnote : ∀ (h : History) (r : Slot) (e : SigEvent), postsOf [e] = [] →
        postsOf ((h.note r e).log q) = postsOf (h.log q) := by
      intro h r e he
      by_cases hq : q = r
      · subst hq
        rw [History.note_log, Function.update_self]
        exact (postsOf_append [e] _).trans (by rw [he, List.nil_append])
      · rw [History.note_log, Function.update_of_ne hq]
    cases req with
    | sigkill => exact absurd rfl hreq
    | create =>
        simp only [History.served]
        split <;> rfl
    | stop => exact hnote _ _ _ rfl
    | sighandler =>
        simp only [History.served]
        split
        · exact hnote _ _ _ rfl
        · rfl
    | sigreturn =>
        simp only [History.served]
        split
        · exact hnote _ _ _ rfl
        · rfl
    | _ => rfl
  rcases ht.delivery q with ⟨-, -, -, -, hlog⟩ | ⟨-, -, -, hlog⟩
  · rw [hlog]
    exact hserved
  · rw [hlog, hserved]

/-- Process 3 posts three signals to the root process and yields. -/
def pokes (a b c : ℕ) : Recorded :=
  (((poked₄.poke a).poke b).poke c).after (sampleCallAt 0x61000 .yield [])

/-- The root process returns from two handlers. -/
def returned (a b c : ℕ) : Recorded :=
  ((pokes a b c).after (sampleReturn 0x50000)).after (sampleReturn 0x50000)

/-- What the states of that run have to be like. -/
structure Runs (a b c : ℕ) : Prop where
  poke₁ : Pokes poked₄ a
  poke₂ : Pokes (poked₄.poke a) b
  poke₃ : Pokes ((poked₄.poke a).poke b) c
  yields : ((((poked₄.poke a).poke b).poke c).turn (sampleCallAt 0x61000 .yield [])).isOk = true
  return₁ : Returns (pokes a b c)
  return₂ : Returns ((pokes a b c).after (sampleReturn 0x50000))
  back : (returned a b c).d.p = 1
  outside : (returned a b c).h.frames 1 = []

instance (a b c : ℕ) : Decidable (Runs a b c) :=
  decidable_of_iff (_ ∧ _ ∧ _ ∧ _ ∧ _ ∧ _ ∧ _ ∧ _)
    ⟨fun ⟨h₁, h₂, h₃, h₄, h₅, h₆, h₇, h₈⟩ => ⟨h₁, h₂, h₃, h₄, h₅, h₆, h₇, h₈⟩,
      fun ⟨h₁, h₂, h₃, h₄, h₅, h₆, h₇, h₈⟩ => ⟨h₁, h₂, h₃, h₄, h₅, h₆, h₇, h₈⟩⟩

/-- The run is a round in which the three signals are posted. -/
theorem Runs.round {a b c : ℕ} (h : Runs a b c) : Round 1 poked₄ (returned a b c) ∧
    posts 1 poked₄ (returned a b c) = [a, b, c] := by
  have hposts := ((poked₄_poked.poke h.poke₁).poke h.poke₂).poke h.poke₃
  have hstep₁ : recorder.step _ _ (pokes a b c) := Run.eq_getD h.yields
  have hstep₂ : recorder.step _ _ ((pokes a b c).after (sampleReturn 0x50000)) :=
    Run.eq_getD h.return₁.ok
  have hstep₃ : recorder.step _ _ (returned a b c) :=
    Run.eq_getD (s := (pokes a b c).after (sampleReturn 0x50000)) h.return₂.ok
  have hpath := ((hposts.path.tail (.of_yield rfl) hstep₁).tail
    (.of_return rfl h.return₁.inside h.return₁.proper) hstep₂).tail
    (.of_return rfl h.return₂.inside h.return₂.proper) hstep₃
  have hsound₁ := hposts.sound.turn (Recorded.turn_d hstep₁)
  have hsound₂ := hsound₁.turn (Recorded.turn_d hstep₂)
  constructor
  · refine ⟨poked₄_reachable fun _ _ h => .of_ne h, ⟨?_, ?_⟩, ⟨by decide, ?_, ?_⟩, ?_, ?_, hpath⟩ <;>
      decide +kernel
  · have hlog : postsOf ((returned a b c).h.log 1) = [c, b, a] := by
      rw [postsOf_turn hsound₂ hstep₃ (by decide), postsOf_turn hsound₁ hstep₂ (by decide),
        postsOf_turn hposts.sound hstep₁ (by decide), hposts.log]
      rfl
    unfold posts
    rw [eventsSince_poked₄, postsOf, List.filterMap_reverse]
    exact (congrArg List.reverse hlog).trans rfl

/-- Whether 5, 7 and 5 again are posted or 7, 5 and 5, the handler of 7 runs once and then that
of 5. -/
theorem posting_order_of_three : posts 1 poked₄ (returned 5 7 5) = [5, 7, 5] ∧
    posts 1 poked₄ (returned 7 5 5) = [7, 5, 5] ∧
    deliveries 1 poked₄ (returned 5 7 5) = [.started 7, .completed 7, .started 5, .completed 5] ∧
    deliveries 1 poked₄ (returned 5 7 5) = deliveries 1 poked₄ (returned 7 5 5) := by
  have hruns : Runs 5 7 5 ∧ Runs 7 5 5 := by decide +kernel
  obtain ⟨h, h'⟩ := hruns
  obtain ⟨hround, hposts⟩ := h.round
  obtain ⟨hround', hposts'⟩ := h'.round
  have hfalling : descending [5, 7, 5].toFinset = [7, 5] := by
    have h₇ : IsGreatest (([5, 7, 5].toFinset : Finset ℕ) : Set ℕ) 7 := by
      refine ⟨by simp, fun n hn => ?_⟩
      simp at hn
      omega
    have h₅ : IsGreatest ((([5, 7, 5].toFinset \ {7} : Finset ℕ)) : Set ℕ) 5 := by
      refine ⟨by simp, fun n hn => ?_⟩
      simp at hn
      omega
    have h₀ : ([5, 7, 5].toFinset \ {7}) \ {5} = (∅ : Finset ℕ) := by decide
    rw [descending_eq_cons h₇, descending_eq_cons h₅, h₀, descending_empty]
  obtain ⟨-, hdone, -, -, hsame⟩ := posting_order_irrelevant hround
  have hperm : (posts 1 poked₄ (returned 5 7 5)).Perm (posts 1 poked₄ (returned 7 5 5)) := by
    rw [hposts, hposts']
    exact .swap 7 5 [5]
  refine ⟨hposts, hposts', ?_, hsame 1 poked₄ _ hround' hperm h.back h.outside h'.back h'.outside⟩
  rw [hdone h.back h.outside, hposts, expected, hfalling]
  rfl

end Xeros
