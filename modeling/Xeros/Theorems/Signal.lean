import Xeros.Logic.Sleepers
import Xeros.Logic.Rets

/-!
# Posting a signal

What `signal` does with its arguments and with a target that waits:

* it takes the pid for the number that has to be in range, and looks at the slot that the pid
  leads to whoever is in it;
* it wakes a target that is blocked or asleep, whether the target will get the signal or not,
  and it does not take it out of the list it waits in.
-/

namespace Xeros

open Lib

variable {k k' k₁ : Kernel} {a : Ambient} {q t : Slot} {pid signo : Int} {D : Deltas Slot}

/-! ## What posting does -/

/-- A signal for a used slot is posted. -/
theorem post_ok (hu : k.Used t) (signo : Int) : ∃ k', post k t signo = .ok k' := by
  have hr := ready_of_used (k := k.upd t fun c => c.pend signo) (p := t) (hu.upd rfl)
  unfold post
  dsimp only
  split
  · rw [hr]
    simp only [bind, Except.bind]
    split <;> exact ⟨_, rfl⟩
  · rw [hr]
    exact ⟨_, rfl⟩
  · exact ⟨_, rfl⟩

/-- An accepted signal is posted and reported. -/
theorem signal_of_accepts (hg : Good k) (hacc : accepts k pid signo) :
    ∃ k', post k (slotOf (toWord pid)) signo = .ok k' ∧
      signal k a pid signo = .ok (sighdlrOk, k') := by
  obtain ⟨k', hk'⟩ := post_ok (hacc.used hg) signo
  refine ⟨k', hk', ?_⟩
  rw [signal_eq, if_pos hacc, hk']
  rfl

/-- The bit of a posted signal is set. -/
theorem post_pending (hg : Good k) (hu : k.Used t) (h : post k t signo = .ok k') :
    (k'.proctab t).sigPending = (k.proctab t).sigPending ||| bit signo := by
  have hs := ((post_quiet (X := nobody) hg hu h).1.same t).sigPending
  rw [hs, Kernel.upd_proctab_self]
  rfl

/-! ## Validation -/

/-- The process in slot `q` is alive, has exactly this pid and has a handler for the signal
number, which is in range. -/
structure Signallable (k : Kernel) (pid signo : Int) (q : Slot) : Prop where
  pid : (k.proctab q).pid.toInt = pid
  alive : (k.proctab q).alive
  range : 0 ≤ signo ∧ signo ≤ maxSignal
  handler : bit signo &&& (k.proctab q).sigAllow ≠ 0

/-- `signal` succeeds for a process that can be signalled, and notes the signal; otherwise it
returns a negative code and changes nothing. -/
structure SignalExact (k : Kernel) (a : Ambient) (pid signo : Int) : Prop where
  accepted : ∀ q, Signallable k pid signo q → ∃ k', signal k a pid signo = .ok (sighdlrOk, k') ∧
    (k'.proctab q).sigPending &&& bit signo ≠ 0
  rejected : (∀ q, ¬ Signallable k pid signo q) → ∃ rc, signal k a pid signo = .ok (rc, k) ∧ rc < 0

/-- The arguments that `signal` misjudges: a pid above 31 of a process that can be signalled; a
pid in `0..31` and a signal number whose low five bits name a handler in the slot, if the
number is out of range or the slot holds no live process with that pid. -/
inductive Misjudged (k : Kernel) (pid signo : Int) : Prop
  | refused (q : Slot) (hq : Signallable k pid signo q) (hp : maxSignal < pid)
  | mistaken (hp : minSignal ≤ pid ∧ pid ≤ maxSignal)
      (hh : bit signo &&& (k.proctab (slotOf (toWord pid))).sigAllow ≠ 0)
      (h : signo < 0 ∨ maxSignal < signo ∨ ¬ (k.proctab (slotOf (toWord pid))).alive ∨
        (k.proctab (slotOf (toWord pid))).pid.toInt ≠ pid)

/-- The slot of a process that can be signalled, and its pid as a number. -/
theorem Signallable.slot (h : Signallable k pid signo q) (hg : Good k) :
    k.Used q ∧ slotOf (toWord pid) = q ∧ 0 ≤ pid := by
  have hu : k.Used q := hg.used h.alive.1
  have hint : (k.proctab q).pid.toInt = (k.proctab q).pid.toNat := by
    rw [BitVec.toInt_eq_toNat_cond, if_pos]
    have := hu.2.2
    omega
  refine ⟨hu, ?_, ?_⟩
  · rw [← h.pid, toWord_toInt]
    exact hu.2.1
  · rw [← h.pid, hint]
    exact Int.natCast_nonneg _

/-- `signal` validates exactly unless it misjudges its arguments. -/
theorem signal_exact_iff (hg : Good k) :
    SignalExact k a pid signo ↔ ¬ Misjudged k pid signo := by
  constructor
  · rintro hex (⟨q, hq, hp⟩ | ⟨hp, hh, h⟩)
    · -- the pid is refused as if it were the number of the signal
      obtain ⟨k', hk', -⟩ := hex.accepted q hq
      have hacc : ¬ accepts k pid signo := fun h => Int.not_lt.mpr h.2.1 hp
      rw [signal_eq, if_neg hacc] at hk'
      have he : invalidSignal = sighdlrOk := congrArg Prod.fst (Except.ok.inj hk')
      exact absurd he (by decide)
    · -- the slot is signalled although nobody is meant
      have hnobody : ∀ q, ¬ Signallable k pid signo q := by
        intro q hq
        obtain ⟨-, hslot, -⟩ := hq.slot hg
        rw [hslot] at h
        rcases h with h | h | h | h
        · exact Int.not_lt.mpr hq.range.1 h
        · exact Int.not_lt.mpr hq.range.2 h
        · exact h hq.alive
        · exact h hq.pid
      obtain ⟨rc, hrc, hneg⟩ := hex.rejected hnobody
      obtain ⟨k', -, hk'⟩ := signal_of_accepts (a := a) hg ⟨hp.1, hp.2, hh⟩
      rw [hrc] at hk'
      have he : rc = sighdlrOk := congrArg Prod.fst (Except.ok.inj hk')
      rw [he] at hneg
      exact absurd hneg (by decide)
  · intro hok
    constructor
    · intro q hq
      obtain ⟨hu, hslot, h0⟩ := hq.slot hg
      have hle : pid ≤ maxSignal := Int.not_lt.mp fun h => hok (.refused q hq h)
      have hacc : accepts k pid signo := ⟨h0, hle, by rw [hslot]; exact hq.handler⟩
      obtain ⟨k', hpost, hk'⟩ := signal_of_accepts (a := a) hg hacc
      refine ⟨k', hk', ?_⟩
      rw [hslot] at hpost
      rw [post_pending hg hu hpost, ← mem_bits_iff_and_bit, bits_or, bits_bit]
      exact Finset.mem_union_right _ (Finset.mem_singleton_self _)
    · intro hnobody
      have hacc : ¬ accepts k pid signo := by
        rintro ⟨h₁, h₂, h₃⟩
        refine hok (.mistaken ⟨h₁, h₂⟩ h₃ ?_)
        by_contra hc
        push Not at hc
        exact hnobody _ ⟨hc.2.2.2, hc.2.2.1, ⟨hc.1, hc.2.1⟩, h₃⟩
      refine ⟨invalidSignal, ?_, by decide⟩
      rw [signal_eq, if_neg hacc]

/-- The root process has installed a handler for 5. -/
def listening : Disp := (turn sampleBoot (sampleInstall 5)).getD sampleBoot

theorem listening_at : (turn sampleBoot (sampleInstall 5)).isOk = true ∧
    (listening.k.proctab 1).state = .running ∧ (listening.k.proctab 1).pid.toInt = 1 := by
  decide +kernel

theorem listening_reachable : dispatcher.Reachable listening :=
  ⟨sampleBoot, sampleBoot_init, TSys.Path.refl.tail trivial (Run.eq_getD listening_at.1)⟩

theorem signal_exact_iff_of_five : SignalExact listening.k sampleAmbient 1 5 := by
  obtain ⟨-, h⟩ := listening_at
  refine (signal_exact_iff (sound_of_reachable listening_reachable).good).mpr ?_
  rintro (⟨q, -, hp⟩ | ⟨-, -, h5 | h5 | hl | hl⟩)
  · exact absurd hp (by decide)
  · exact absurd h5 (by decide)
  · exact absurd h5 (by decide)
  · exact hl (by simp [Pcb.alive, slotOf, h.1])
  · exact hl h.2

/-- The number 37 is accepted as the number 5. -/
theorem signal_not_exact :
    ¬ ∀ (s : Disp) (a : Ambient) (pid signo : Int), dispatcher.Reachable s →
      SignalExact s.k a pid signo := by
  intro h
  have hnobody : ∀ q, ¬ Signallable listening.k 1 37 q := fun q hq =>
    absurd hq.range.2 (by decide)
  obtain ⟨rc, hrc, hneg⟩ :=
    (h listening sampleAmbient 1 37 listening_reachable).rejected hnobody
  have h0 : ((signal listening.k sampleAmbient 1 37).getD (-1, listening.k)).1 = 0 := by
    decide +kernel
  rw [hrc] at h0
  exact absurd h0 (Int.ne_of_lt hneg)

/-! ## Targets that wait -/

/-- The signal is noted for `q` and nothing else happens: nobody is moved from one list to
another, and `q` keeps its state and `ret`. -/
structure OnlyRecorded (k k' : Kernel) (q : Slot) (signo : Int) : Prop extends Unmoved k k' where
  pending : (k'.proctab q).sigPending = (k.proctab q).sigPending ||| bit signo
  ret : (k'.proctab q).ret = (k.proctab q).ret

/-- An accepted signal for a process that is blocked or asleep, and that is not above the
priority of the handler in progress. -/
structure MaskedPost (k : Kernel) (pid signo : Int) : Prop where
  accepts : accepts k pid signo
  waiting : (k.proctab (slotOf (toWord pid))).waiting
  masked : (k.proctab (slotOf (toWord pid))).sigPriority &&& bit signo = 0

/-- A masked signal always interrupts the process: it is made ready. -/
theorem masked_signal_interrupts (hg : Good k) (hm : MaskedPost k pid signo) :
    ∃ k', signal k a pid signo = .ok (sighdlrOk, k') ∧
      ¬ OnlyRecorded k k' (slotOf (toWord pid)) signo := by
  obtain ⟨k', hpost, hk'⟩ := signal_of_accepts (a := a) hg hm.accepts
  refine ⟨k', hk', fun h => ?_⟩
  have hready := (post_quiet (X := nobody) hg (hm.accepts.used hg) hpost).2 hm.waiting
  have hstate := h.state (slotOf (toWord pid))
  rw [hready] at hstate
  rcases hm.waiting with hw | hw <;> rw [hw] at hstate <;> cases hstate

/-- A run in which the root process installs handlers for 3 and 5, creates process 3, posts 5 to
itself and waits in the handler for a signal. -/
def masking₁ : Recorded := sampleStart.after (sampleInstall 3)

@[inherit_doc masking₁]
def masking₂ : Recorded := masking₁.after (sampleInstall 5)

@[inherit_doc masking₁]
def masking₃ : Recorded := masking₂.after (sampleCall .create [0x1400, 0])

@[inherit_doc masking₁]
def masking₄ : Recorded := masking₃.after (samplePost 1 5)

@[inherit_doc masking₁]
def masking₅ : Recorded := masking₄.after { sampleCall .sigwait [] with esp := 0x4f000 }

/-- The machine after process 3 has asked to post 3. -/
def maskedPost : Kernel :=
  contextswitch masking₅.d.k masking₅.d.p (sampleCallAt 0x61000 .sigkill [1, 3])

theorem masking₅_reachable : recorder.Reachable masking₅ := by
  have h : (sampleStart.turn (sampleInstall 3)).isOk = true ∧
      (masking₁.turn (sampleInstall 5)).isOk = true ∧
      (masking₂.turn (sampleCall .create [0x1400, 0])).isOk = true ∧
      (masking₃.turn (samplePost 1 5)).isOk = true ∧
      (masking₄.turn { sampleCall .sigwait [] with esp := 0x4f000 }).isOk = true := by
    decide +kernel
  obtain ⟨h₁, h₂, h₃, h₄, h₅⟩ := h
  refine Recorded.reachable_after ?_ trivial h₅
  refine Recorded.reachable_after ?_ trivial h₄
  refine Recorded.reachable_after ?_ trivial h₃
  refine Recorded.reachable_after ?_ trivial h₂
  exact Recorded.reachable_after sampleStart_reachable trivial h₁

theorem maskedPost_masked : MaskedPost maskedPost 1 3 ∧ (masking₅.h.frames 1).length = 1 := by
  refine ⟨⟨⟨?_, ?_, ?_⟩, .inl ?_, ?_⟩, ?_⟩ <;> decide +kernel

theorem masked_signal_interrupts_three :
    ∃ k', signal maskedPost sampleAmbient 1 3 = .ok (sighdlrOk, k') ∧
      ¬ OnlyRecorded maskedPost k' 1 3 := by
  have hs := Recorded.sound_of_reachable masking₅_reachable
  exact masked_signal_interrupts (contextswitch_good hs.good hs.used _) maskedPost_masked.1

/-- The process that waits in the handler for 5 is woken by 3. -/
theorem masked_signal_not_recorded :
    ¬ ∀ (s : Recorded) (t : Trap) (pid signo : Int) (k' : Kernel), recorder.Reachable s →
      0 < (s.h.frames (slotOf (toWord pid))).length →
      MaskedPost (contextswitch s.d.k s.d.p t) pid signo →
      signal (contextswitch s.d.k s.d.p t) t.ambient pid signo = .ok (sighdlrOk, k') →
      OnlyRecorded (contextswitch s.d.k s.d.p t) k' (slotOf (toWord pid)) signo := by
  intro h
  obtain ⟨hm, hn⟩ := maskedPost_masked
  have hok : (signal maskedPost sampleAmbient 1 3).isOk = true ∧
      ((signal maskedPost sampleAmbient 1 3).getD (-1, maskedPost)).1 = 0 ∧
      (((signal maskedPost sampleAmbient 1 3).getD (-1, maskedPost)).2.proctab 1).state = .ready ∧
      (maskedPost.proctab 1).state = .blocked := by decide +kernel
  obtain ⟨hok, hrc, hready, hblocked⟩ := hok
  have hk' := Run.eq_getD (s := (-1, maskedPost)) hok
  generalize (signal maskedPost sampleAmbient 1 3).getD (-1, maskedPost) = r at *
  have hr : r = (sighdlrOk, r.2) := Prod.ext hrc rfl
  rw [hr] at hk'
  have hstate := (h masking₅ (sampleCallAt 0x61000 .sigkill [1, 3]) 1 3 r.2 masking₅_reachable
    (hn ▸ Nat.one_pos) hm hk').state 1
  have hstate : (r.2.proctab 1).state = (maskedPost.proctab 1).state := hstate
  rw [hready, hblocked] at hstate
  cases hstate

/-- The sleeper `q` has left the sleep list `D`, the others keep their order and their times,
`q` is in the ready queue once and has been given the time it had left. -/
def SleeperReleased (k' : Kernel) (q : Slot) (D : Deltas Slot) : Prop :=
  (∃ D', SleepList k' D' ∧ D'.due 0 = (D.due 0).filter fun e => e.1 ≠ q) ∧
    (∃ l, Chain k'.link k'.head l ∧ l.count q = 1) ∧
      (q, (k'.proctab q).ret.toNat) ∈ D.due 0

/-- After `ready`, the links of the others are the same or lead to the process. The head of the
sleep list is the same. -/
theorem ready_links (h : ready k t = .ok k') :
    k'.headsleeper = k.headsleeper ∧
      ∀ x, x ≠ t → k'.link x = k.link x ∨ k'.link x = some t := by
  have hhead : (readied k t).headsleeper = k.headsleeper := by
    unfold readied enqueue
    dsimp only
    split
    · rfl
    · split
      · rfl
      · rfl
  rw [ready_eq h]
  refine ⟨hhead, fun x hx => ?_⟩
  rw [link_readied, if_neg hx]
  split
  · exact .inr rfl
  · exact .inl rfl

/-- A process that can be reached can still be reached when links have been turned to it. -/
theorem Seg.reaches {next next' : Slot → Option Slot} {o : Option Slot} {l : List Slot}
    (h : Seg next o l (some q)) (hl : q ∉ l)
    (hn : ∀ x, x ≠ q → next' x = next x ∨ next' x = some q) :
    ∃ l', Seg next' o l' (some q) := by
  induction l generalizing o with
  | nil => exact ⟨[], h⟩
  | cons x l ih =>
      obtain ⟨rfl, h⟩ := h
      have hx : x ≠ q := fun he => hl (he ▸ List.mem_cons_self)
      have hl := List.not_mem_of_not_mem_cons hl
      rcases hn x hx with he | he
      · obtain ⟨l', h'⟩ := ih h hl
        exact ⟨x :: l', rfl, he ▸ h'⟩
      · exact ⟨[x], rfl, he⟩

/-- A process that is reached from a pointer is in the list that the pointer heads. -/
theorem mem_of_reached {next : Slot → Option Slot} {o : Option Slot} {l l' : List Slot}
    (h : Seg next o l' (some q)) (hc : Chain next o l) : q ∈ l := by
  induction l' generalizing o l with
  | nil =>
      obtain rfl : o = some q := h
      obtain ⟨l₁, rfl, -⟩ := Chain.some_iff.mp hc
      exact List.mem_cons_self
  | cons x l' ih =>
      obtain ⟨rfl, h⟩ := h
      obtain ⟨l₁, rfl, hc₁⟩ := Chain.some_iff.mp hc
      exact List.mem_cons_of_mem _ (ih h hc₁)

/-- Posting to a sleeper leaves the head of the sleep list and its links to it. -/
theorem post_sleeper_links (hst : (k.proctab t).state = .sleep) (h : post k t signo = .ok k') :
    k'.headsleeper = k.headsleeper ∧
      ∀ x, x ≠ t → k'.link x = k.link x ∨ k'.link x = some t := by
  obtain ⟨-, k₁, v, h₁, rfl⟩ := (post_cases h).resolve_right fun hn => hn.1 (.inr hst)
  obtain ⟨hhead, hl⟩ := ready_links h₁
  refine ⟨hhead, fun x hx => ?_⟩
  simpa [Kernel.link, Kernel.setRet, hx] using hl x hx

/-- A sleeper that is signalled never leaves the sleep list. -/
theorem signalled_sleeper_stays (hg : Good k) (hs : SleepList k D)
    (hsleep : ∀ r ∈ procs D, (k.proctab r).state = .sleep) (hq : slotOf (toWord pid) ∈ procs D)
    (hacc : accepts k pid signo) :
    ∃ k', signal k a pid signo = .ok (sighdlrOk, k') ∧
      ¬ SleeperReleased k' (slotOf (toWord pid)) D := by
  obtain ⟨k', hpost, hk'⟩ := signal_of_accepts (a := a) hg hacc
  refine ⟨k', hk', ?_⟩
  rintro ⟨⟨D', hD', hdue⟩, -⟩
  generalize slotOf (toWord pid) = q at *
  obtain ⟨hhead, hlinks⟩ := post_sleeper_links (hsleep q hq) hpost
  obtain ⟨l₁, l₂, hl⟩ := List.append_of_mem hq
  have hnd := hs.nodup
  have hchain := hs.chain
  rw [hl] at hnd hchain
  obtain ⟨m, h₁, h₂⟩ := Seg.append_iff.mp hchain
  obtain ⟨rfl, -⟩ := h₂
  have hq₁ : q ∉ l₁ := fun hm =>
    (List.nodup_append.mp hnd).2.2 q hm q List.mem_cons_self rfl
  obtain ⟨l', h'⟩ := Seg.reaches h₁ hq₁ hlinks
  have hin : q ∈ procs D' := mem_of_reached h' (hhead ▸ hD'.chain)
  rw [procs, ← Deltas.map_fst_due (t := 0), hdue] at hin
  obtain ⟨e, he, rfl⟩ := List.mem_map.mp hin
  simpa using (List.mem_filter.mp he).2

/-- A run in which the root process installs a handler for 5, creates process 3 and sleeps for
three ticks. -/
def napping₁ : Disp := (turn listening (sampleCall .create [0x1400, 0])).getD listening

@[inherit_doc napping₁]
def napping₂ : Disp := (turn napping₁ (sampleCall .sleep [30])).getD napping₁

/-- The machine after process 3 has asked to post 5. -/
def nappingPost : Kernel :=
  contextswitch napping₂.k napping₂.p (sampleCallAt 0x61000 .sigkill [1, 5])

theorem napping₂_reachable : dispatcher.Reachable napping₂ := by
  have h : (turn listening (sampleCall .create [0x1400, 0])).isOk = true ∧
      (turn napping₁ (sampleCall .sleep [30])).isOk = true := by decide +kernel
  have h₁ : dispatcher.Reachable napping₁ :=
    TSys.ReachableUnder.tail listening_reachable trivial (Run.eq_getD h.1)
  exact TSys.ReachableUnder.tail h₁ trivial (Run.eq_getD h.2)

theorem nappingPost_sleeps : SleepList nappingPost [(1, 3)] ∧ accepts nappingPost 1 5 ∧
    ∀ r ∈ procs [((1 : Slot), 3)], (nappingPost.proctab r).state = .sleep := by
  have hchain : nappingPost.headsleeper = some 1 ∧ nappingPost.link 1 = none := by
    decide +kernel
  refine ⟨⟨hchain, ?_, ?_⟩, ⟨?_, ?_, ?_⟩, ?_⟩ <;> decide +kernel

theorem signalled_sleeper_stays_one :
    ∃ k', signal nappingPost sampleAmbient 1 5 = .ok (sighdlrOk, k') ∧
      ¬ SleeperReleased k' 1 [(1, 3)] := by
  have hs := sound_of_reachable napping₂_reachable
  obtain ⟨hl, hacc, hsleep⟩ := nappingPost_sleeps
  exact signalled_sleeper_stays (contextswitch_good hs.good hs.used _) hl hsleep
    List.mem_cons_self hacc

/-- The only sleeper is signalled and is still in the sleep list. -/
theorem signalled_sleeper_not_released :
    ¬ ∀ (s : Disp) (t : Trap) (D : Deltas Slot) (pid signo : Int) (k' : Kernel),
      dispatcher.Reachable s → SleepList (contextswitch s.k s.p t) D →
      (∀ r ∈ procs D, ((contextswitch s.k s.p t).proctab r).state = .sleep) →
      slotOf (toWord pid) ∈ procs D → accepts (contextswitch s.k s.p t) pid signo →
      signal (contextswitch s.k s.p t) t.ambient pid signo = .ok (sighdlrOk, k') →
      SleeperReleased k' (slotOf (toWord pid)) D := by
  intro h
  obtain ⟨hl, hacc, hsleep⟩ := nappingPost_sleeps
  have hok : (signal nappingPost sampleAmbient 1 5).isOk = true ∧
      ((signal nappingPost sampleAmbient 1 5).getD (-1, nappingPost)).1 = 0 ∧
      ((signal nappingPost sampleAmbient 1 5).getD (-1, nappingPost)).2.headsleeper = some 1 := by
    decide +kernel
  obtain ⟨hok, hrc, hhead⟩ := hok
  have hk' := Run.eq_getD (s := (-1, nappingPost)) hok
  generalize (signal nappingPost sampleAmbient 1 5).getD (-1, nappingPost) = r at *
  have hr : r = (sighdlrOk, r.2) := Prod.ext hrc rfl
  rw [hr] at hk'
  obtain ⟨⟨D', hD', hdue⟩, -⟩ := h napping₂ (sampleCallAt 0x61000 .sigkill [1, 5]) [(1, 3)] 1 5
    r.2 napping₂_reachable hl hsleep List.mem_cons_self hacc hk'
  have hnone : D'.due 0 = [] := hdue
  have hD : D' = [] := by
    rw [← List.map_eq_nil_iff (f := Prod.fst), ← Deltas.map_fst_due (t := 0), hnone]
    rfl
  have hc := hD'.chain
  rw [hD, hhead] at hc
  cases hc

end Xeros
