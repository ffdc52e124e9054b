import Xeros.Logic.Calls
import Xeros.Logic.Peers

/-!
# Rendezvous

When `SYS_SEND` or `SYS_RECV` copies a message, and when the two processes are
in calls that name each other.
-/

namespace Xeros

open Lib

/-! ## Calls that name each other -/

/-- `s` has an outstanding send to the pid of `r`, and `r` has an outstanding receive
from the pid of `s` or from any process. -/
structure Rendezvous (k : Kernel) (call : Slot → Option (Request × Word)) (s r : Slot) :
    Prop where
  sends : call s = some (.send, (k.proctab s).args)
  dest : k.arg s 0 = (k.proctab r).pid
  receives : call r = some (.recv, (k.proctab r).args)
  source : k.mem.word (k.arg r 0) = 0 ∨ k.mem.word (k.arg r 0) = (k.proctab s).pid

/-- If the request of a trap copies a message, the process that waited is blocked and
the two calls name each other. -/
structure RendezvousSafe (s : Recorded) (t : Trap) : Prop where
  send : t.cause.request = .send →
    ∀ r, sendPeer (contextswitch s.d.k s.d.p t) t.ambient s.d.p = some r →
      ((contextswitch s.d.k s.d.p t).proctab r).state = .blocked ∧
        Rendezvous (contextswitch s.d.k s.d.p t) (s.h.setCall s.d.p t.cause.call).call s.d.p r
  recv : t.cause.request = .recv →
    ∀ q, recvPeer (contextswitch s.d.k s.d.p t) t.ambient s.d.p = .ok (some q) →
      ((contextswitch s.d.k s.d.p t).proctab q).state = .blocked ∧
        Rendezvous (contextswitch s.d.k s.d.p t) (s.h.setCall s.d.p t.cause.call).call q s.d.p

/-- What the kernel would have to check of the process it finds: for a send, that it
has the pid given, carries the number of `SYS_RECV` and receives from the sender or
from any process; for a receive, that it is blocked, carries the number of `SYS_SEND`
and has the pid given. -/
structure PeerFits (s : Disp) (t : Trap) : Prop where
  send : t.cause.request = .send →
    ∀ r, sendPeer (contextswitch s.k s.p t) t.ambient s.p = some r →
      (contextswitch s.k s.p t).arg s.p 0 = (s.k.proctab r).pid ∧
        (s.k.proctab r).ret = Request.recv.code ∧
        ((contextswitch s.k s.p t).mem.word ((contextswitch s.k s.p t).arg r 0) = 0 ∨
          (contextswitch s.k s.p t).mem.word ((contextswitch s.k s.p t).arg r 0)
            = (s.k.proctab s.p).pid)
  recv : t.cause.request = .recv →
    ∀ q, recvPeer (contextswitch s.k s.p t) t.ambient s.p = .ok (some q) →
      (s.k.proctab q).state = .blocked ∧ (s.k.proctab q).ret = Request.send.code ∧
        ((contextswitch s.k s.p t).mem.word ((contextswitch s.k s.p t).arg s.p 0) = 0 ∨
          (contextswitch s.k s.p t).mem.word ((contextswitch s.k s.p t).arg s.p 0)
            = (s.k.proctab q).pid)

/-- The number in `ret` of a blocked process tells its call. -/
theorem InCall.call_iff {s : Recorded} (hs : InCall s) {q : Slot} {req : Request}
    (hb : (s.d.k.proctab q).state = .blocked) (hreq : req.blocks) :
    (s.d.k.proctab q).ret = req.code ↔ s.h.call q = some (req, (s.d.k.proctab q).args) := by
  obtain ⟨req', hb', hc, hr⟩ := hs.call q hb
  rw [hr, hc, Option.some.injEq, Prod.mk.injEq, and_iff_left rfl]
  constructor
  · intro h
    rcases hb' with rfl | rfl | rfl | rfl <;> rcases hreq with rfl | rfl | rfl | rfl <;>
      first | rfl | exact absurd h (by decide)
  · rintro rfl
    rfl

/-- The trap of the running process leaves the calls of the blocked ones alone. -/
theorem InCall.entered_call_iff {s : Recorded} (hs : InCall s) (t : Trap) {q : Slot}
    {req : Request} (hb : (s.d.k.proctab q).state = .blocked) (hreq : req.blocks) :
    (s.h.setCall s.d.p t.cause.call).call q
        = some (req, ((contextswitch s.d.k s.d.p t).proctab q).args) ↔
      (s.d.k.proctab q).ret = req.code := by
  have hq : q ≠ s.d.p := by
    rintro rfl
    rw [hs.running] at hb
    cases hb
  rw [hs.call_iff hb hreq, contextswitch_proctab, if_neg hq]
  simp [hq]

/-- In every reachable state, the next copy joins two calls that name each other if
and only if the process found fits. -/
theorem rendezvous_safe_iff {s : Recorded} (h : recorder.Reachable s) (t : Trap) :
    RendezvousSafe s t ↔ PeerFits s.d t := by
  have hs := inCall_of_reachable h
  -- the call of the running process is the one that it has just made
  have hself : ∀ {req : Request}, t.cause.request = req → req.blocks →
      (s.h.setCall s.d.p t.cause.call).call s.d.p
        = some (req, ((contextswitch s.d.k s.d.p t).proctab s.d.p).args) := by
    rintro req rfl hb
    rw [contextswitch_proctab, if_pos rfl]
    simpa using Cause.call_of_blocks hb _ _
  have hpid : ∀ q, ((contextswitch s.d.k s.d.p t).proctab q).pid = (s.d.k.proctab q).pid :=
    fun q => contextswitch_pid _ _ q t
  have hstate : ∀ q, ((contextswitch s.d.k s.d.p t).proctab q).state
      = (s.d.k.proctab q).state := fun q => contextswitch_state _ _ q t
  constructor
  · intro hsafe
    constructor
    · intro hreq r hr
      obtain ⟨hb, hrdv⟩ := hsafe.send hreq r hr
      rw [hstate] at hb
      refine ⟨hrdv.dest.trans (hpid r),
        (hs.entered_call_iff t hb (.inr (.inl rfl))).mp hrdv.receives, ?_⟩
      rw [← hpid s.d.p]
      exact hrdv.source
    · intro hreq q hq
      obtain ⟨hb, hrdv⟩ := hsafe.recv hreq q hq
      rw [hstate] at hb
      refine ⟨hb, (hs.entered_call_iff t hb (.inl rfl)).mp hrdv.sends, ?_⟩
      rw [← hpid q]
      exact hrdv.source
  · intro hfit
    constructor
    · intro hreq r hr
      obtain ⟨hdest, hret, hfrom⟩ := hfit.send hreq r hr
      -- `send` looks at the state of the process it finds
      have hb := (sendPeer_found hr).2
      rw [hstate] at hb
      refine ⟨(hstate r).trans hb, hself hreq (.inl rfl), hdest.trans (hpid r).symm,
        (hs.entered_call_iff t hb (.inr (.inl rfl))).mpr hret, ?_⟩
      rw [hpid s.d.p]
      exact hfrom
    · intro hreq q hq
      obtain ⟨hb, hret, hfrom⟩ := hfit.recv hreq q hq
      refine ⟨(hstate q).trans hb, (hs.entered_call_iff t hb (.inl rfl)).mpr hret,
        recvPeer_found hq, hself hreq (.inr (.inl rfl)), ?_⟩
      rw [hpid q]
      exact hfrom

/-- A run in which the root process creates processes 3 and 4 and waits for a message
from process 4. -/
def crossed₁ : Recorded := sampleStart.after (sampleCall .create [0x1400, 0])

@[inherit_doc crossed₁]
def crossed₂ : Recorded := crossed₁.after (sampleCall .create [0x1500, 0])

@[inherit_doc crossed₁]
def crossed₃ : Recorded := crossed₂.after (sampleCall .recv [0x60010, 0x60100, 8, 0, 4])

/-- Process 3 sends to the root process. -/
def crossedSend : Trap := sampleCallAt 0x61000 .send [1, 0x61100, 8]

theorem crossed₃_reachable : recorder.Reachable crossed₃ := by
  refine Recorded.reachable_after ?_ trivial (by decide +kernel)
  refine Recorded.reachable_after ?_ trivial (by decide +kernel)
  exact Recorded.reachable_after sampleStart_reachable trivial (by decide +kernel)

/-- The message of process 3 goes to a process that waits for process 4. -/
theorem rendezvous_unsafe :
    ¬ ∀ (s : Recorded) (t : Trap), recorder.Reachable s → RendezvousSafe s t := by
  intro h
  have hpeer : sendPeer (contextswitch crossed₃.d.k crossed₃.d.p crossedSend) sampleAmbient
      crossed₃.d.p = some 1 := by decide +kernel
  have hfrom := ((h crossed₃ crossedSend crossed₃_reachable).send rfl 1 hpeer).2.source
  revert hfrom
  decide +kernel

/-- A run in which the root process creates processes 3 and 4 and waits for a message
from any process. -/
def met : Recorded := crossed₂.after (sampleCall .recv [0x60010, 0x60100, 8, 0, 0])

/-- The message of process 3 goes to a process that waits for it. -/
theorem rendezvous_safe_from_any : RendezvousSafe met crossedSend := by
  have hr : recorder.Reachable met := by
    refine Recorded.reachable_after ?_ trivial (by decide +kernel)
    refine Recorded.reachable_after ?_ trivial (by decide +kernel)
    exact Recorded.reachable_after sampleStart_reachable trivial (by decide +kernel)
  refine (rendezvous_safe_iff hr crossedSend).mpr ⟨fun _ r hpeer => ?_, fun hreq => ?_⟩
  · have hone : sendPeer (contextswitch met.d.k met.d.p crossedSend) sampleAmbient met.d.p
        = some 1 := by decide +kernel
    have hr1 : r = 1 := Option.some.inj (hpeer.symm.trans hone)
    subst hr1
    decide +kernel
  · exact absurd hreq (by decide)

end Xeros
