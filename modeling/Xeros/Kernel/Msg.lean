import Xeros.Kernel.Signal

/-!
# Messages (`msg.c`)

`send` and `recv` look for a blocked peer and, when they find one, copy the
message. `sendMatch` and `recvMatch` are the parts of the two functions that
decide, in the order of the source; they change nothing.
-/

namespace Xeros

open Lib

/-- The loop of `copy`, with `n` iterations left at index `i`. -/
def copyLoop (src dst : Word) : Nat → Nat → Bytes → Nat × Bytes
  | 0, i, m => (i, m)
  | n + 1, i, m =>
    let m := m.putByte (dst + BitVec.ofNat 32 i) (m (src + BitVec.ofNat 32 i))
    if m (src + BitVec.ofNat 32 i) = 0 then (i, m) else copyLoop src dst n (i + 1) m

/-- `copy`: the number of bytes copied and the memory afterwards. -/
def copy (m : Bytes) (src dst : Word) (srclen dstlen : Int) : Nat × Bytes :=
  let (i, m) := copyLoop src dst (min srclen dstlen).toNat 0 m
  let z := dst + BitVec.ofNat 32 i
  (i, if m z ≠ 0 then m.putByte z 0 else m)

/-- `valid`. -/
def valid (k : Kernel) (a : Ambient) (pid : Int) : Bool :=
  if pid = 0 then true
  else if stateOfPid k a pid = .stopped ∨ stateOfPid k a pid = .dead then false
  else true

/-- `validate_buffer`. The addresses are compared as signed numbers. -/
def validateBuffer (k : Kernel) (buffer : Word) (bufferLen : Int) : Int :=
  if buffer.toInt < k.img.freemem.toInt then badBufferParm
  else if holeStart ≤ buffer ∧ buffer ≤ holeEnd then badBufferParm
  else if buffer.toInt > k.img.maxaddr.toInt then badBufferParm
  else if bufferLen ≤ 0 then badBufferParm
  else 0

/-- `validate_send` and `validate_recv`, which have the same body: the code and
the kernel with the code noted in `ret`. -/
def validatePeer (k : Kernel) (a : Ambient) (p : Slot) (pid buffer : Word)
    (bufferLen : Int) : Int × Kernel :=
  if valid k a pid.toInt = false then
    (badPid, k.setRet p (toWord badPid))
  else if (k.proctab p).pid = pid then
    (srcDstSame, k.setRet p (toWord srcDstSame))
  else (validateBuffer k buffer bufferLen, k)

/-- `validate_send`. -/
abbrev validateSend := validatePeer

/-- `validate_recv`. -/
abbrev validateRecv := validatePeer

/-- What a send or a receive decides: fail with a code, wait, or copy to or
from the peer in a slot. -/
inductive Match where
  | refuse (rc : Int)
  | wait
  | found (peer : Slot)
  deriving DecidableEq, Repr

/-- The peer that `send` copies to. -/
def sendMatch (k : Kernel) (p : Slot) (destPid : Word) : Match :=
  let dest := slotOf destPid
  if (k.proctab dest).state = .blocked then
    let destWaiton := k.mem.word (k.arg dest 0)
    if destWaiton = 0 then .found dest
    else if destWaiton ≠ (k.proctab p).pid ∧ (k.proctab dest).ret = Request.send.code then
      .refuse wouldDeadlock
    else .found dest
  else .wait

/-- `send`. -/
def send (k : Kernel) (a : Ambient) (destPid sbuffer : Word) (sbufferLen : Int)
    (p : Slot) : Int × Kernel :=
  let (rc, k) := validateSend k a p destPid sbuffer sbufferLen
  if rc < 0 then (rc, k) else
  match sendMatch k p destPid with
  | .refuse rc => (rc, k)
  | .wait => (0, k)
  | .found dest =>
    let destWaitonPid := k.arg dest 0
    let dbuffer := k.arg dest 1
    let dbufferLen := (k.arg dest 2).toInt
    let m := if k.mem.word destWaitonPid = 0 then
        k.mem.putWord destWaitonPid (k.proctab p).pid else k.mem
    let (n, m) := copy m sbuffer dbuffer sbufferLen dbufferLen
    (n, k.setMem m)

/-- The walk of `recv` along `blocked_q`. -/
def recvScan (k : Kernel) (p : Slot) : Nat → Option Slot → Run Match
  | 0, _ => .error .spin
  | _ + 1, none => return .wait
  | fuel + 1, some b =>
    if (k.proctab b).pid = (k.proctab p).pid then recvScan k p fuel (k.proctab b).next
    else if k.arg b 0 = (k.proctab p).pid then return .found b
    else recvScan k p fuel (k.proctab b).next

/-- The peer that `recv` copies from. -/
def recvMatch (k : Kernel) (fuel : Nat) (p : Slot) (fromPid : Word) : Run Match :=
  if fromPid = 0 then recvScan k p fuel k.blockedQ
  else
    let sender := slotOf fromPid
    if (k.proctab sender).ret = Request.recv.code
        ∧ k.mem.word (k.arg sender 0) = (k.proctab p).pid then
      return .refuse wouldDeadlock
    else if (k.proctab sender).state = .blocked ∧ k.arg sender 0 = (k.proctab p).pid then
      return .found sender
    else return .wait

/-- `recv`. -/
def recv (k : Kernel) (a : Ambient) (fromPid dbuffer : Word) (dbufferLen : Int)
    (p : Slot) : Run (Int × Kernel) := do
  let (rc, k) := validateRecv k a p (k.mem.word fromPid) dbuffer dbufferLen
  if rc < 0 then return (rc, k)
  match ← recvMatch k a.fuel p (k.mem.word fromPid) with
  | .refuse rc => return (rc, k)
  | .wait => return (0, k)
  | .found sender =>
    let sbuffer := k.arg sender 1
    let sbufferLen := (k.arg sender 2).toInt
    let m := if k.mem.word fromPid = 0 then
        k.mem.putWord fromPid (k.proctab sender).pid else k.mem
    let (n, m) := copy m sbuffer dbuffer sbufferLen dbufferLen
    return (n, k.setMem m)

end Xeros
