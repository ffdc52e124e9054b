import Xeros.Kernel.Queue

/-!
# Sleeping (`sleep.c`)

The sleep list is a delta list: only the head's `sleepticks` is absolute, the
others count from their predecessor. `sleep` follows the link of the last
sleeper, so it can read and write through `NULL`.
-/

namespace Xeros

open Lib

/-- `milliseconds_to_ticks`: `TIMEDIVISOR*milliseconds/1000`. -/
def millisecondsToTicks (milliseconds : Word) : Word := (100 * milliseconds) / 1000

/-- The loop of `sleep`: the last sleeper passed, the one reached and the
accumulated ticks. -/
def sleepLoop (k : Kernel) (ticks : Word) :
    Nat → Slot → Option Slot → Word → Run (Slot × Option Slot × Word)
  | 0, _, _, _ => .error .spin
  | _ + 1, prev, none, acc => return (prev, none, acc)
  | fuel + 1, prev, some n, acc =>
    if acc < ticks then
      let nxt := (k.proctab n).next
      sleepLoop k ticks fuel n nxt (acc + (k.deref nxt).sleepticks)
    else return (prev, some n, acc)

/-- The insertion of `p` between the sleepers `prev` and `nxt`, `acc` ticks from
now. The count of `nxt` is made relative to `p`. -/
def insertSleeper (k : Kernel) (p prev : Slot) (nxt : Option Slot) (acc : Word) : Kernel :=
  let acc := acc - (k.deref nxt).sleepticks
  let k := k.upd p fun c => c.setNext nxt
  let k := k.upd prev fun c => c.setNext (some p)
  let k := k.upd p fun c => c.setTicks (c.sleepticks - acc)
  let d := (k.proctab p).sleepticks
  k.updPtr (k.proctab p).next fun c => c.setTicks (c.sleepticks - d)

/-- The insertion of `p` in front of the list. -/
def pushSleeper (k : Kernel) (p : Slot) : Kernel :=
  let d := (k.proctab p).sleepticks
  let k := k.upd p fun c => c.setNext k.headsleeper
  match k.headsleeper with
  | none => k.setSleeper (some p)
  | some h => (k.upd h fun c => c.setTicks (c.sleepticks - d)).setSleeper (some p)

/-- The pcb of a process that goes to sleep. -/
def Pcb.toSleep (c : Pcb) (ticks : Word) : Pcb :=
  ((c.setNext none).setState .sleep).setTicks ticks

/-- `sleep`: put `p` in the sleep list, which is ordered by wake-up time. -/
def sleep (k : Kernel) (fuel : Nat) (milliseconds : Word) (p : Slot) : Run Kernel := do
  let ticks := millisecondsToTicks milliseconds
  let k := k.upd p fun c => c.toSleep ticks
  kassert (p ≠ 0)
  match k.headsleeper with
  | none => return pushSleeper k p
  | some h =>
    if (k.proctab h).sleepticks < ticks then
      let (prev, nxt, acc) ← sleepLoop k ticks fuel h (some h) (k.proctab h).sleepticks
      return insertSleeper k p prev nxt acc
    else return pushSleeper k p

/-- `headsleeper=headsleeper->next; p->next=NULL;`. -/
def popSleeper (k : Kernel) (p : Slot) : Kernel :=
  (k.setSleeper (k.proctab p).next).upd p fun c => c.setNext none

/-- The loop of `tick`: wake the sleepers at the head with no ticks left. -/
def tickLoop : Nat → Kernel → Run Kernel
  | 0, _ => .error .spin
  | fuel + 1, k =>
    match k.headsleeper with
    | none => return k
    | some p =>
      if (k.proctab p).sleepticks = 0 then do
        let k ← ready (popSleeper k p) p
        tickLoop fuel k
      else return k

/-- The end of `tick`: `headsleeper->sleepticks--`. -/
def countDown (k : Kernel) : Kernel :=
  match k.headsleeper with
  | none => k
  | some h =>
    if 0 < (k.proctab h).sleepticks then k.upd h fun c => c.setTicks (c.sleepticks - 1)
    else k

/-- `tick`: count one timer interrupt down. -/
def tick (k : Kernel) (fuel : Nat) : Run Kernel :=
  match k.headsleeper with
  | none => return k
  | some h =>
    if (k.proctab h).sleepticks ≤ 1 then do
      let k ← tickLoop fuel (k.upd h fun c => c.setTicks 0)
      return countDown k
    else return countDown k

end Xeros
