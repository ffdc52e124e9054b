import Xeros.Kernel.Dispatch

/-!
# What serving a request leaves alone

* **well-formed pointers**: `Good` says that every pcb pointer of the kernel
  leads to a slot that a process has been given, and that an unused slot is
  stopped and accepts no signal;
* **frames**: `Quiet X k k'` says that between `k` and `k'` no pcb changed but
  in its link, its sleep count, its state and `ret`, and that outside `X` the
  state and `ret` changed only by becoming ready or running.

Each kernel function gets one lemma that puts it in this frame; the dispatcher
is the composition. Neither notion says that the queues are intact: they
survive the steps that damage a queue.
-/

namespace Xeros

open Lib

/-! ## Well-formed pointers -/

/-- The slot has been given to a process: its pid leads back to it. -/
def Kernel.Used (k : Kernel) (q : Slot) : Prop :=
  q ≠ 0 ∧ slotOf (k.proctab q).pid = q ∧ (k.proctab q).pid.toNat < 0x80000000

/-- The slot is as `dispatchinit` left it. -/
def Kernel.Fresh (k : Kernel) (q : Slot) : Prop :=
  (k.proctab q).pid = 0 ∧ (k.proctab q).state = .stopped ∧ (k.proctab q).sigAllow = 0

/-- Every pointer of the kernel leads to a used slot. -/
structure Good (k : Kernel) : Prop where
  slot : ∀ q, k.Used q ∨ k.Fresh q
  next : ∀ q r, (k.proctab q).next = some r → k.Used r
  head : ∀ q, k.head = some q → k.Used q
  tail : ∀ q, k.tail = some q → k.Used q
  running : ∀ q, k.running = some q → k.Used q
  blockedQ : ∀ q, k.blockedQ = some q → k.Used q
  deadQ : ∀ q, k.deadQ = some q → k.Used q
  headsleeper : ∀ q, k.headsleeper = some q → k.Used q
  reader : ∀ q, k.kbd.reader = some q → k.Used q
  idle : k.Used (slotOf k.idleprocPid)

namespace Kernel

variable {k : Kernel} {q r : Slot} {f : Pcb → Pcb}

theorem Used.pid_ne_zero (h : k.Used q) : (k.proctab q).pid ≠ 0 := by
  intro h0
  have hq := h.2.1
  rw [h0] at hq
  exact h.1 hq.symm

/-- A pid belongs to one used slot. -/
theorem Used.inj (hq : k.Used q) (hr : k.Used r)
    (h : (k.proctab q).pid = (k.proctab r).pid) : q = r := by
  rw [← hq.2.1, h, hr.2.1]

/-- Whether a slot is used depends on its pid only. -/
theorem Used.congr {k' : Kernel} (h : k.Used q)
    (hp : (k'.proctab q).pid = (k.proctab q).pid) : k'.Used q := by
  unfold Used
  rw [hp]
  exact h

theorem Used.upd (hp : (f (k.proctab q)).pid = (k.proctab q).pid) (h : k.Used r) :
    (k.upd q f).Used r := by
  refine h.congr ?_
  by_cases hr : r = q
  · subst hr
    simpa using hp
  · simp [hr]

end Kernel

/-- A slot in any other state is used. -/
theorem Good.used {k : Kernel} (hg : Good k) {q : Slot}
    (h : (k.proctab q).state ≠ .stopped) : k.Used q :=
  (hg.slot q).resolve_right fun hf => h hf.2.1

/-- A slot with a pid is used. -/
theorem Good.used_of_pid {k : Kernel} (hg : Good k) {q : Slot}
    (h : (k.proctab q).pid ≠ 0) : k.Used q :=
  (hg.slot q).resolve_right fun hf => h hf.1

/-- A slot without a pid is stopped. -/
theorem Good.stopped_of_pid {k : Kernel} (hg : Good k) {q : Slot}
    (h : (k.proctab q).pid = 0) : (k.proctab q).state = .stopped :=
  ((hg.slot q).resolve_left fun hu => hu.pid_ne_zero h).2.1

/-- Two kernels with the same pids and pointers. -/
theorem Good.congr {k k' : Kernel} (hg : Good k)
    (hpid : ∀ q, (k'.proctab q).pid = (k.proctab q).pid)
    (hfresh : ∀ q, k.Fresh q → k'.Fresh q)
    (hnext : ∀ q r, (k'.proctab q).next = some r → k.Used r)
    (hhead : k'.head = k.head) (htail : k'.tail = k.tail)
    (hrunning : k'.running = k.running) (hblockedQ : k'.blockedQ = k.blockedQ)
    (hdeadQ : k'.deadQ = k.deadQ) (hsleeper : k'.headsleeper = k.headsleeper)
    (hreader : k'.kbd.reader = k.kbd.reader)
    (hidle : k'.idleprocPid = k.idleprocPid) : Good k' := by
  have hu : ∀ q, k.Used q → k'.Used q := fun q h => h.congr (hpid q)
  constructor
  · exact fun q => (hg.slot q).imp (hu q) (hfresh q)
  · exact fun q r h => hu r (hnext q r h)
  · exact fun q h => hu q (hg.head q (hhead ▸ h))
  · exact fun q h => hu q (hg.tail q (htail ▸ h))
  · exact fun q h => hu q (hg.running q (hrunning ▸ h))
  · exact fun q h => hu q (hg.blockedQ q (hblockedQ ▸ h))
  · exact fun q h => hu q (hg.deadQ q (hdeadQ ▸ h))
  · exact fun q h => hu q (hg.headsleeper q (hsleeper ▸ h))
  · exact fun q h => hu q (hg.reader q (hreader ▸ h))
  · exact hidle ▸ hu _ hg.idle

/-- An update of a used slot that leaves the pid and links to a used slot. -/
theorem Good.upd {k : Kernel} (hg : Good k) {q : Slot} {f : Pcb → Pcb} (hu : k.Used q)
    (hpid : (f (k.proctab q)).pid = (k.proctab q).pid)
    (hnext : ∀ r, (f (k.proctab q)).next = some r → k.Used r) : Good (k.upd q f) := by
  refine hg.congr ?_ ?_ ?_ rfl rfl rfl rfl rfl rfl rfl rfl
  · intro r
    by_cases hr : r = q
    · subst hr
      simpa using hpid
    · simp [hr]
  · intro r hf
    have hr : r ≠ q := by
      rintro rfl
      exact hu.pid_ne_zero hf.1
    simpa [Kernel.Fresh, hr] using hf
  · intro r s hs
    by_cases hr : r = q
    · subst hr
      exact hnext s (by simpa using hs)
    · exact hg.next r s (by simpa [hr] using hs)

/-- `ret` may be written in any slot. -/
theorem Good.setRet {k : Kernel} (hg : Good k) (q : Slot) (v : Word) :
    Good (k.setRet q v) := by
  refine hg.congr ?_ ?_ ?_ rfl rfl rfl rfl rfl rfl rfl rfl
  · intro r
    by_cases hr : r = q <;> simp [Kernel.setRet, hr]
  · intro r hf
    by_cases hr : r = q
    · subst hr
      simpa [Kernel.Fresh, Kernel.setRet] using hf
    · simpa [Kernel.Fresh, Kernel.setRet, hr] using hf
  · intro r s hs
    refine hg.next r s ?_
    by_cases hr : r = q
    · subst hr
      simpa [Kernel.setRet] using hs
    · simpa [Kernel.setRet, hr] using hs

/-! ## Frames -/

/-- The fields of a pcb that only the process itself and its signals change. Of
the descriptors this is the word that doubles as the handler of signal 31. -/
structure Pcb.Same (c c' : Pcb) : Prop where
  esp : c'.esp = c.esp
  pid : c'.pid = c.pid
  args : c'.args = c.args
  sigPending : c'.sigPending = c.sigPending
  sigAllow : c'.sigAllow = c.sigAllow
  sigPriority : c'.sigPriority = c.sigPriority
  sigHandler : c'.sigHandler = c.sigHandler
  major : (c'.fd 0).major = (c.fd 0).major

theorem Pcb.Same.refl (c : Pcb) : c.Same c :=
  ⟨rfl, rfl, rfl, rfl, rfl, rfl, rfl, rfl⟩

theorem Pcb.Same.trans {a b c : Pcb} (h₁ : a.Same b) (h₂ : b.Same c) : a.Same c :=
  ⟨h₂.esp.trans h₁.esp, h₂.pid.trans h₁.pid, h₂.args.trans h₁.args,
    h₂.sigPending.trans h₁.sigPending, h₂.sigAllow.trans h₁.sigAllow,
    h₂.sigPriority.trans h₁.sigPriority, h₂.sigHandler.trans h₁.sigHandler,
    h₂.major.trans h₁.major⟩

/-- The handlers are among these fields. -/
theorem Pcb.Same.handler {c c' : Pcb} (h : c.Same c') (n : Int) :
    c'.handler n = c.handler n := by
  unfold Pcb.handler
  rw [h.sigHandler, h.major]

/-- The process is blocked or asleep. -/
def Pcb.waiting (c : Pcb) : Prop := c.state = .blocked ∨ c.state = .sleep

/-- A process that is not served keeps its state and `ret`, or is to run. A
stopped one has no `ret` to keep. -/
def Pcb.Sched (c c' : Pcb) : Prop :=
  (c'.state = c.state ∧ (c.state = .stopped ∨ c'.ret = c.ret))
    ∨ c'.state = .ready ∨ c'.state = .running

theorem Pcb.Sched.refl (c : Pcb) : c.Sched c := .inl ⟨rfl, .inr rfl⟩

theorem Pcb.Sched.trans {a b c : Pcb} (h₁ : a.Sched b) (h₂ : b.Sched c) : a.Sched c := by
  rcases h₂ with ⟨hs, hr⟩ | h₂
  · rcases h₁ with ⟨hs', hr'⟩ | h₁
    · refine .inl ⟨hs.trans hs', ?_⟩
      rcases hr' with hr' | hr'
      · exact .inl hr'
      · exact hr.imp (fun h => hs' ▸ h) fun h => h.trans hr'
    · exact .inr (by rwa [hs])
  · exact .inr h₂

/-- A process that is still waiting has waited with the same `ret`. -/
theorem Pcb.Sched.waiting {c c' : Pcb} (h : c.Sched c') (hw : c'.waiting) :
    c'.state = c.state ∧ c'.ret = c.ret := by
  rcases h with ⟨hs, hr | hr⟩ | h | h
  · rw [hr] at hs
    exact absurd hw (by simp [Pcb.waiting, hs])
  · exact ⟨hs, hr⟩
  · exact absurd hw (by simp [Pcb.waiting, h])
  · exact absurd hw (by simp [Pcb.waiting, h])

/-- Between `k` and `k'` only links, sleep counts, states and `ret` changed, and
outside `X` only as scheduling changes them. The pointers of `k'` are good. -/
structure Quiet (X : Slot → Prop) (k k' : Kernel) : Prop where
  same : ∀ q, (k.proctab q).Same (k'.proctab q)
  sched : ∀ q, ¬ X q → (k.proctab q).Sched (k'.proctab q)
  idle : k'.idleprocPid = k.idleprocPid
  img : k'.img = k.img
  good : Good k'

/-- No exception. -/
abbrev nobody : Slot → Prop := fun _ => False

namespace Quiet

variable {k k' k'' : Kernel} {X Y : Slot → Prop} {q : Slot} {f : Pcb → Pcb}

theorem refl (hg : Good k) : Quiet X k k :=
  ⟨fun _ => .refl _, fun _ _ => .refl _, rfl, rfl, hg⟩

theorem trans (h₁ : Quiet X k k') (h₂ : Quiet X k' k'') : Quiet X k k'' where
  same q := (h₁.same q).trans (h₂.same q)
  sched q hq := (h₁.sched q hq).trans (h₂.sched q hq)
  idle := h₂.idle.trans h₁.idle
  img := h₂.img.trans h₁.img
  good := h₂.good

theorem mono (h : Quiet X k k') (hXY : ∀ q, X q → Y q) : Quiet Y k k' :=
  { h with sched := fun q hq => h.sched q fun hx => hq (hXY q hx) }

/-- An exception that behaves like the others is none. -/
theorem settle (h : Quiet X k k')
    (hX : ∀ q, X q → Y q ∨ (k.proctab q).Sched (k'.proctab q)) : Quiet Y k k' := by
  refine { h with sched := fun q hq => ?_ }
  by_cases hx : X q
  · exact (hX q hx).resolve_left hq
  · exact h.sched q hx

theorem used (h : Quiet X k k') (hu : k.Used q) : k'.Used q := hu.congr (h.same q).pid

/-- The update of one pcb. -/
theorem upd (hg : Good k) (hu : k.Used q)
    (hs : (k.proctab q).Same (f (k.proctab q)))
    (hn : ∀ r, (f (k.proctab q)).next = some r → k.Used r)
    (hX : X q ∨ (k.proctab q).Sched (f (k.proctab q))) : Quiet X k (k.upd q f) where
  same r := by
    by_cases hr : r = q
    · subst hr
      simpa using hs
    · simpa [hr] using Pcb.Same.refl _
  sched r hr := by
    by_cases hrq : r = q
    · subst hrq
      simpa using hX.resolve_left hr
    · simpa [hrq] using Pcb.Sched.refl _
  idle := rfl
  img := rfl
  good := hg.upd hu hs.pid hn

/-- The update of a link. -/
theorem updNext (hg : Good k) (hu : k.Used q) {o : Option Slot}
    (ho : ∀ r, o = some r → k.Used r) : Quiet X k (k.upd q fun c => c.setNext o) :=
  .upd hg hu ⟨rfl, rfl, rfl, rfl, rfl, rfl, rfl, rfl⟩ ho (.inr (.inl ⟨rfl, .inr rfl⟩))

/-- The update of a sleep count. -/
theorem updTicks (hg : Good k) (hu : k.Used q) (g : Pcb → Word) :
    Quiet X k (k.upd q fun c => c.setTicks (g c)) :=
  .upd hg hu ⟨rfl, rfl, rfl, rfl, rfl, rfl, rfl, rfl⟩ (hg.next q)
    (.inr (.inl ⟨rfl, .inr rfl⟩))

/-- A process is made ready or running. -/
theorem updState (hg : Good k) (hu : k.Used q) {s : PState}
    (hs : s = .ready ∨ s = .running) :
    Quiet X k (k.upd q fun c => c.setState s) :=
  .upd hg hu ⟨rfl, rfl, rfl, rfl, rfl, rfl, rfl, rfl⟩ (hg.next q) (.inr (.inr hs))

/-- `ret` of an exception, in any slot. -/
theorem setRet (hg : Good k) (hX : X q) (v : Word) : Quiet X k (k.setRet q v) where
  same r := by
    by_cases hr : r = q
    · subst hr
      simpa [Kernel.setRet] using ⟨rfl, rfl, rfl, rfl, rfl, rfl, rfl, rfl⟩
    · simpa [Kernel.setRet, hr] using Pcb.Same.refl _
  sched r hr := by
    have hrq : r ≠ q := by
      rintro rfl
      exact hr hX
    simpa [Kernel.setRet, hrq] using Pcb.Sched.refl _
  idle := rfl
  img := rfl
  good := hg.setRet q v

/-- Only the memory changes. -/
theorem setMem (hg : Good k) (m : Bytes) : Quiet X k (k.setMem m) :=
  ⟨fun _ => .refl _, fun _ _ => .refl _, rfl, rfl, { hg with }⟩

/-- Only the keyboard driver's variables change. -/
theorem setKbd (hg : Good k) {b : Kbd} (hb : ∀ q, b.reader = some q → k.Used q) :
    Quiet X k (k.setKbd b) :=
  ⟨fun _ => .refl _, fun _ _ => .refl _, rfl, rfl, { hg with reader := hb }⟩

/-- A queue head is moved. -/
theorem set (hg : Good k) (Q : QRef) {o : Option Slot} (ho : ∀ q, o = some q → k.Used q) :
    Quiet X k (Q.set k o) := by
  refine ⟨fun _ => ?_, fun _ _ => ?_, ?_, ?_, ?_⟩ <;> cases Q
  all_goals first | exact .refl _ | rfl | skip
  · exact { hg with head := ho }
  · exact { hg with running := ho }
  · exact { hg with deadQ := ho }
  · exact { hg with blockedQ := ho }

theorem setTail (hg : Good k) {o : Option Slot} (ho : ∀ q, o = some q → k.Used q) :
    Quiet X k (k.setTail o) :=
  ⟨fun _ => .refl _, fun _ _ => .refl _, rfl, rfl, { hg with tail := ho }⟩

theorem setSleeper (hg : Good k) {o : Option Slot} (ho : ∀ q, o = some q → k.Used q) :
    Quiet X k (k.setSleeper o) :=
  ⟨fun _ => .refl _, fun _ _ => .refl _, rfl, rfl, { hg with headsleeper := ho }⟩

end Quiet

/-- The head of a queue is used. -/
theorem Good.get {k : Kernel} (hg : Good k) (Q : QRef) :
    ∀ q, Q.get k = some q → k.Used q := by
  cases Q
  · exact hg.head
  · exact hg.running
  · exact hg.deadQ
  · exact hg.blockedQ

end Xeros
