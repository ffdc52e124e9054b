import Xeros.Logic.Signals

/-!
# Runs with a history

Which handlers are in progress, which signals have been posted and started and
which call a process is blocked in are facts about a run that the kernel does
not store. `recorder` is the dispatcher with a history beside it: what it
notes never influences a step, so its runs are the runs of the dispatcher.
-/

namespace Xeros

open Lib

/-- A signal frame: the signal, what the pcb held just before the delivery, and
the memory just after it. -/
structure SigFrame where
  signum : ℕ
  esp : Word
  priority : Word
  mem : Bytes

/-- The address of the frame. -/
def SigFrame.ssf (f : SigFrame) : Word := f.esp - sigtrampFrameSize

/-- The `old_sp` that `sigtramp` finds in the frame as its argument. -/
def SigFrame.oldSp (f : SigFrame) : Word := f.mem.word (f.ssf + 56)

/-- The `saved_priority_mask` of the frame. -/
def SigFrame.savedMask (f : SigFrame) : Word := f.mem.word (f.ssf + 60)

/-- The `saved_retval` of the frame. -/
def SigFrame.savedRet (f : SigFrame) : Word := f.mem.word (f.ssf + 64)

/-- What happens to the signals of a process. -/
inductive SigEvent where
  /-- `signal` has returned `SIGHDLR_OK`. -/
  | posted (n : ℕ)
  /-- The frame of a handler has been built. -/
  | started (n : ℕ)
  /-- The handler has returned. -/
  | completed (n : ℕ)
  /-- The handler has been removed. -/
  | removed (n : ℕ)
  /-- The process has stopped. -/
  | stopped
  deriving DecidableEq, Repr

/-- What is noted of each process. -/
structure History where
  /-- The frames of the handlers in progress, innermost first. -/
  frames : Slot → List SigFrame
  /-- The events, latest first. -/
  log : Slot → List SigEvent
  /-- The system call that has not returned yet, with its argument pointer. -/
  call : Slot → Option (Request × Word)

namespace History

/-- Nothing has happened. -/
def empty : History := { frames := fun _ => [], log := fun _ => [], call := fun _ => none }

/-- An event of `q`. -/
@[simps -fullyApplied] def note (h : History) (q : Slot) (e : SigEvent) : History :=
  { h with log := Function.update h.log q (e :: h.log q) }

/-- The handlers in progress of `q` are replaced. -/
@[simps -fullyApplied] def setFrames (h : History) (q : Slot) (fs : List SigFrame) : History :=
  { h with frames := Function.update h.frames q fs }

/-- The outstanding call of `q` is replaced. -/
@[simps -fullyApplied] def setCall (h : History) (q : Slot) (c : Option (Request × Word)) :
    History :=
  { h with call := Function.update h.call q c }

end History

/-- The call that enters the kernel. -/
def Cause.call : Cause → Option (Request × Word)
  | .syscall req args => some (Request.ofWord req, args)
  | .timer _ => none
  | .keyboard _ => none

/-- The signal that a `SYS_SIGKILL` of `p` posts, and to whom: there is one if
`signal` returns `SIGHDLR_OK`. -/
def postedBy (k : Kernel) (p : Slot) (a : Ambient) : Option (Slot × ℕ) :=
  match signal k a (k.arg p 0).toInt (k.arg p 1).toInt with
  | .ok (rc, _) =>
    if rc = sighdlrOk then some (slotOf (k.arg p 0), sigNo (k.arg p 1).toInt) else none
  | .error _ => none

/-- The signal whose handler a `SYS_SIGHANDLER` of `p` removes. -/
def removedBy (k : Kernel) (p : Slot) : Option ℕ :=
  let signum := (k.arg p 0).toInt
  if 0 ≤ signum ∧ signum ≤ maxSignal ∧ k.arg p 1 = 0 then some signum.toNat else none

/-- The frame of the signal that `deliver_signals_ifany` chooses for `p`. -/
def frameOf (k : Kernel) (p : Slot) : SigFrame :=
  let signum := getNextSignal (k.proctab p).sigPending
  { signum := signum.toNat, esp := (k.proctab p).esp, priority := (k.proctab p).sigPriority,
    mem := (modifyProcessStack k p signum).mem }

namespace History

/-- What is noted when a request of `p` is served: the kernel is the one that
the request finds. A new process starts with no handler in progress. -/
def served (h : History) (k : Kernel) (p : Slot) (a : Ambient) : Request → History
  | .create =>
    match freeSlot k with
    | some i => h.setFrames i []
    | none => h
  | .stop => h.note p .stopped
  | .sighandler =>
    match removedBy k p with
    | some n => h.note p (.removed n)
    | none => h
  | .sigreturn =>
    match h.frames p with
    | f :: fs => (h.setFrames p fs).note p (.completed f.signum)
    | [] => h
  | .sigkill =>
    match postedBy k p a with
    | some (q, n) => h.note q (.posted n)
    | none => h
  | _ => h

/-- What is noted when `p` gets its signals: the kernel is the one before. -/
def deliver (h : History) (k : Kernel) (p : Slot) : History :=
  if deliverable (k.proctab p) then
    (h.setFrames p (frameOf k p :: h.frames p)).note p (.started (frameOf k p).signum)
  else h

end History

/-- A state of the system with its history. -/
structure Recorded where
  d : Disp
  h : History

/-- A turn of the dispatcher, with what is noted of it. -/
def Recorded.turn (s : Recorded) (t : Trap) : Run Recorded := do
  let k := contextswitch s.d.k s.d.p t
  let (k', p') ← serve k s.d.p t.ambient t.cause.request
  let h := (s.h.setCall s.d.p t.cause.call).served k s.d.p t.ambient t.cause.request
  return { d := loopTop k' p', h := (h.deliver (run k' p') p').setCall p' none }

/-- The dispatcher with a history. -/
def recorder : TSys Recorded Trap where
  init s := dispatcher.init s.d ∧ s.h = .empty
  step s t s' := s.turn t = .ok s'

namespace Recorded

variable {s s' : Recorded} {t : Trap} {d' : Disp}

/-- The history does not influence a turn. -/
theorem turn_d (h : s.turn t = .ok s') : Xeros.turn s.d t = .ok s'.d := by
  simp only [turn, Run.bind_eq_ok, pure, Except.pure, Except.ok.injEq] at h
  obtain ⟨⟨k', p'⟩, h₁, rfl⟩ := h
  simp only [Xeros.turn, Run.bind_eq_ok, pure, Except.pure, Except.ok.injEq]
  exact ⟨_, h₁, rfl⟩

/-- Every turn can be recorded. -/
theorem turn_of_d (h : Xeros.turn s.d t = .ok d') : ∃ s', s'.d = d' ∧ s.turn t = .ok s' := by
  simp only [Xeros.turn, Run.bind_eq_ok, pure, Except.pure, Except.ok.injEq] at h
  obtain ⟨⟨k', p'⟩, h₁, rfl⟩ := h
  refine ⟨_, ?_, by simp only [turn, h₁, bind, Except.bind, pure, Except.pure]; rfl⟩
  rfl

/-- A recorded state is reached by a run of the dispatcher, whose steps meet the same
condition. -/
theorem reachable_d {C : Disp → Trap → Prop}
    (h : recorder.ReachableUnder (fun s t => C s.d t) s) : dispatcher.ReachableUnder C s.d := by
  obtain ⟨s₀, h₀, hp⟩ := h
  exact ⟨s₀.d, h₀.1, hp.map (U := dispatcher) (D := C) (f := Recorded.d) (fun _ _ h => h)
    fun _ _ _ => turn_d⟩

/-- Every state that the dispatcher reaches is reached with some history, by steps
that meet the same condition. -/
theorem reachable_of_d {C : Disp → Trap → Prop} {d : Disp}
    (h : dispatcher.ReachableUnder C d) :
    ∃ s, s.d = d ∧ recorder.ReachableUnder (fun s t => C s.d t) s := by
  obtain ⟨d₀, h₀, hp⟩ := h
  obtain ⟨s, hs, hp'⟩ := hp.lift (U := recorder) (f := Recorded.d) (s := ⟨d₀, .empty⟩)
    fun _ _ _ => turn_of_d
  exact ⟨s, hs, _, ⟨h₀, rfl⟩, hp'⟩

end Recorded

/-! ## A recorded turn -/

/-- A recorded turn from a sound state, with the kernel `k₂` and the history `h₂`
when the request has been served. -/
structure Turn (s : Recorded) (t : Trap) (k₂ : Kernel) (h₂ : History) (s' : Recorded) :
    Prop where
  served : Served (contextswitch s.d.k s.d.p t) s.d.p t.ambient t.cause.request k₂ s'.d.p
  serve : serve (contextswitch s.d.k s.d.p t) s.d.p t.ambient t.cause.request
    = .ok (k₂, s'.d.p)
  good : Good k₂
  used : k₂.Used s'.d.p
  loopTop : s'.d = loopTop k₂ s'.d.p
  noted : h₂ = (s.h.setCall s.d.p t.cause.call).served (contextswitch s.d.k s.d.p t) s.d.p
    t.ambient t.cause.request
  delivered : s'.h = (h₂.deliver (run k₂ s'.d.p) s'.d.p).setCall s'.d.p none

theorem Recorded.turn_cases {s s' : Recorded} {t : Trap} (hs : Sound s.d)
    (h : s.turn t = .ok s') : ∃ k₂ h₂, Turn s t k₂ h₂ s' := by
  simp only [turn, Run.bind_eq_ok, pure, Except.pure, Except.ok.injEq] at h
  obtain ⟨⟨k', p'⟩, h₁, rfl⟩ := h
  have hg := contextswitch_good hs.good hs.used t
  have hu := contextswitch_used (p := s.d.p) hs.used t
  obtain ⟨h₄, h₅⟩ := serve_served hg hu h₁
  exact ⟨k', _, h₄, h₁, h₄.good hg hu, h₅, rfl, rfl, rfl⟩

theorem Recorded.sound_of_reachable {s : Recorded} (h : recorder.Reachable s) : Sound s.d :=
  Xeros.sound_of_reachable (reachable_d (C := TSys.anyStep) h)

/-! ## The sample machine, with its history -/

/-- The sample machine when its root process starts. -/
def sampleStart : Recorded := { d := sampleBoot, h := .empty }

/-- The traps of a process that installs a handler, removes it, posts a signal and
returns from a handler that was entered at the given stack pointer. -/
def sampleInstall (n : Word) : Trap := sampleCall .sighandler [n, 0x2000, 0x61000]

@[inherit_doc sampleInstall]
def sampleRemove (n : Word) : Trap := sampleCall .sighandler [n, 0, 0x61000]

@[inherit_doc sampleInstall]
def samplePost (pid n : Word) : Trap := sampleCall .sigkill [pid, n]

@[inherit_doc sampleInstall]
def sampleReturn (sp : Word) : Trap := sampleCall .sigreturn [sp]

/-- Another process posts a signal to the root process. -/
def samplePoke (n : Word) : Trap := sampleCallAt 0x61000 .sigkill [1, n]

/-- The state after a turn that comes back. -/
def Recorded.after (s : Recorded) (t : Trap) : Recorded := (s.turn t).getD s

theorem sampleStart_reachable {C : Recorded → Trap → Prop} :
    recorder.ReachableUnder C sampleStart := ⟨_, ⟨sampleBoot_init, rfl⟩, .refl⟩

/-- One more turn of a run. -/
theorem Recorded.path_after {C : Recorded → Trap → Prop} {s₀ s : Recorded} {t : Trap}
    (h : recorder.Path C s₀ s) (hc : C s t) (ht : (s.turn t).isOk = true) :
    recorder.Path C s₀ (s.after t) := h.tail hc (Run.eq_getD ht)

@[inherit_doc Recorded.path_after]
theorem Recorded.reachable_after {C : Recorded → Trap → Prop} {s : Recorded} {t : Trap}
    (h : recorder.ReachableUnder C s) (hc : C s t) (ht : (s.turn t).isOk = true) :
    recorder.ReachableUnder C (s.after t) := h.tail hc (Run.eq_getD ht)

end Xeros
