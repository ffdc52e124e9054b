import Xeros.Kernel.Queue

/-!
# The keyboard (`kbd.c`, `scanToASCII.c`)

The lower half collects up to four characters in `kbdbuffer` and hands them to
the buffer of the reading process; when the read is complete it wakes the
reader. `kbdbuffer` is a pointer that no code sets. What is echoed on the
console is not modelled.
-/

namespace Xeros

open Lib

/-- `KBDBUFSZ`. -/
abbrev kbdbufsz : Int := 4

/-- `NOCHAR`. -/
abbrev nochar : Word := 256

/-- Scan codes of the control keys, and the bit of a key going up. -/
abbrev keyUp : Byte := 0x80
abbrev lshift : Byte := 0x2a
abbrev rshift : Byte := 0x36
abbrev lmeta : Byte := 0x38
abbrev lctl : Byte := 0x1d
abbrev capsl : Byte := 0x3a
abbrev extesc : Byte := 0xe0

/-- Flags of the keyboard state. -/
abbrev inctl : Word := 0x01
abbrev inshift : Word := 0x02
abbrev capslock : Word := 0x04
abbrev inmeta : Word := 0x08
abbrev extended : Word := 0x10

/-- `kbcode`. -/
def kbcode : List Nat :=
  [0, 27, 49, 50, 51, 52, 53, 54, 55, 56, 57, 48, 45, 61, 8, 9, 113, 119, 101, 114, 116,
    121, 117, 105, 111, 112, 91, 93, 10, 0, 97, 115, 100, 102, 103, 104, 106, 107, 108,
    59, 39, 96, 0, 92, 122, 120, 99, 118, 98, 110, 109, 44, 46, 47, 0, 0, 0, 32]

/-- `kbshift`. -/
def kbshift : List Nat :=
  [0, 0, 33, 64, 35, 36, 37, 94, 38, 42, 40, 41, 95, 43, 8, 9, 81, 87, 69, 82, 84,
    89, 85, 73, 79, 80, 123, 125, 10, 0, 65, 83, 68, 70, 71, 72, 74, 75, 76,
    58, 34, 126, 0, 124, 90, 88, 67, 86, 66, 78, 77, 60, 62, 63, 0, 0, 0, 32]

/-- `kbctl`. -/
def kbctl : List Nat :=
  [0, 0, 0, 0, 0, 0, 0, 0, 0, 0, 0, 0, 31, 0, 8, 9, 17, 23, 5, 18, 20,
    25, 21, 9, 15, 16, 27, 29, 10, 0, 1, 19, 4, 6, 7, 8, 10, 11, 12,
    0, 0, 0, 0, 28, 26, 24, 3, 22, 2, 14, 13]

/-- `table[code]`. -/
def scanEntry (table : List Nat) (code : Byte) : Word :=
  BitVec.ofNat 32 (table.getD code.toNat 0)

/-- The end of `kbtoa`: the character of an ordinary key. -/
def translate (state : Word) (code : Byte) : Word :=
  let ch := if code.toNat < kbcode.length then
      scanEntry (if state &&& capslock ≠ 0 then kbshift else kbcode) code
    else nochar
  if state &&& inshift ≠ 0 ∧ kbshift.length ≤ code.toNat then nochar else
  let ch := if state &&& inshift ≠ 0 then
      scanEntry (if state &&& capslock ≠ 0 then kbcode else kbshift) code
    else ch
  if state &&& inctl ≠ 0 ∧ kbctl.length ≤ code.toNat then nochar else
  let ch := if state &&& inctl ≠ 0 then scanEntry kbctl code else ch
  if state &&& inmeta ≠ 0 then ch + 0x80 else ch

/-- `kbtoa`: the character of a scan code, and the keyboard state after it. -/
def kbtoa (state : Word) (code : Byte) : Word × Word :=
  if code &&& keyUp ≠ 0 then
    let key := code &&& 0x7f
    (nochar,
      if key = lshift ∨ key = rshift then state &&& ~~~inshift
      else if key = capsl then state &&& ~~~capslock
      else if key = lctl then state &&& ~~~inctl
      else if key = lmeta then state &&& ~~~inmeta
      else state)
  else if code = lshift ∨ code = rshift then (nochar, state ||| inshift)
  else if code = capsl then (nochar, state ||| capslock)
  else if code = lctl then (nochar, state ||| inctl)
  else if code = lmeta then (nochar, state ||| inmeta)
  else if code = extesc then (nochar, state ||| extended)
  else (translate state code, state)

/-- `is_control_code`. -/
def isControlCode (code : Byte) : Bool :=
  code = lshift ∨ code = rshift ∨ code = lmeta ∨ code = lctl ∨ code = capsl
    ∨ code = extesc

namespace Kernel

/-- The address of `applbuffer[i]`. -/
def applAddr (k : Kernel) (i : Int) : Word := k.kbd.applbuffer + BitVec.ofInt 32 i

/-- The address of `kbdbuffer[i]`. -/
def kbdAddr (k : Kernel) (i : Int) : Word := k.kbd.kbdbuffer + BitVec.ofInt 32 i

end Kernel

/-- `keyboard_init`: the two keyboards register their functions. -/
def keyboardInit (k : Kernel) : Kernel :=
  let noecho : Devsw :=
    { dvopen := .kbdOpen, dvclose := .kbdClose, dvwrite := .unsupported,
      dvread := .kbdRead, dvioctl := .kbdIoctl }
  let echo : Devsw := { noecho with dvread := .ekbdRead }
  { k with devtab := fun i => if i = 0 then noecho else if i = 1 then echo else k.devtab i }

/-- `kbd_open`. -/
def kbdOpen (k : Kernel) (p : Slot) : Int × Kernel :=
  (1, (keyboardInit k).setKbd { k.kbd with reader := some p, eofReceived := false })

/-- `kbd_close`. -/
def kbdClose (k : Kernel) : Int × Kernel :=
  (0, k.setKbd { k.kbd with
    applbuffer := 0, applbufsize := 0, reader := none, eofReceived := false })

/-- `ekbd_read`. -/
def ekbdRead (k : Kernel) (p : Slot) (buff : Word) (bufflen : Int) : Int × Kernel :=
  if k.kbd.eofReceived then (eof, k)
  else
    (registeredKbdread, k.setKbd { k.kbd with
      applbuffer := buff, applbufsize := bufflen, applbufidx := 0, kbdbufidx := 0,
      reader := some p })

/-- `kbd_read`, which clears the buffer when there is no more to read. -/
def kbdRead (k : Kernel) (p : Slot) (buff : Word) (bufflen : Int) : Int × Kernel :=
  if k.kbd.eofReceived then
    (eof, k.setMem (k.mem.splice buff bufflen.toNat fun _ => 0))
  else ekbdRead k p buff bufflen

/-- The table of `validcommand`. -/
def cmds : List Int :=
  [0x20, 0x60, 0xa4, 0xa5, 0xa6, 0xa7, 0xa8, 0xa9, 0xaa, 0xab, 0xac, 0xad, 0xae, 0xc0,
    0xc1, 0xc2, 0xd0, 0xd1, 0xd2, 0xd3, 0xe0, 0xf0, 0xf1, 0xf2, 0xf3, 0xf4, 0xf5, 0xf6,
    0xf7, 0xf8, 0xf9, 0xfa, 0xfb, 0xfc, 0xfd, 0xfe, 0xff]

/-- `validcommand`. The bound of the loop counts bytes, so words past the table
are compared too. -/
def validcommand (a : Ambient) (cmd : Int) : Bool := cmd ∈ cmds ∨ a.strayCmd cmd

/-- `kbd_ioctl`: command 49 installs the end-of-file key. -/
def kbdIoctl (k : Kernel) (a : Ambient) (command : Int) (arg : Word) : Int × Kernel :=
  if validcommand a command = false ∧ command ≠ 49 then (-1, k)
  else if command = 49 then
    (1, k.setKbd { k.kbd with eofEndbyte := arg.setWidth 8 })
  else (1, k)

/-- `notify`: unblock the reader. -/
def notify (k : Kernel) (fuel : Nat) (p : Slot) : Run Kernel := do
  kassert ((k.proctab p).state = .blocked)
  let (k, _) ← remove k fuel (some .blockedQ) (k.proctab p).pid
  ready (k.setRet p (toWord k.kbd.applbufidx)) p

/-- The end of a read in `process_key`: a blocked reader is notified and the
buffer forgotten. The flag tells whether there was one. -/
def notifyReader (k : Kernel) (fuel : Nat) : Run (Kernel × Bool) :=
  match k.kbd.reader with
  | none => return (k, false)
  | some r =>
    if (k.proctab r).state = .blocked then do
      let k ← notify k fuel r
      return (k.setKbd { k.kbd with
        applbuffer := 0, applbufsize := 0, applbufidx := 0, reader := none }, true)
    else return (k, false)

/-- `kbdbuffer[kbdbufidx++]=kbtoa(c)`. -/
def storeKey (k : Kernel) (c : Byte) : Kernel :=
  let (ch, st) := kbtoa k.kbd.keyState c
  (k.setMem (k.mem.putByte (k.kbdAddr k.kbd.kbdbufidx) (ch.setWidth 8))).setKbd
    { k.kbd with kbdbufidx := k.kbd.kbdbufidx + 1, keyState := st }

/-- `applbuffer[applbufidx]=kbdbuffer[i]; applbufidx++;`. -/
def passKey (k : Kernel) (i : Nat) : Kernel :=
  (k.setMem (k.mem.putByte (k.applAddr k.kbd.applbufidx) (k.mem (k.kbdAddr i)))).setKbd
    { k.kbd with applbufidx := k.kbd.applbufidx + 1 }

/-- `passKey` for `n` characters from `i` on. -/
def passKeys : Nat → Nat → Kernel → Kernel
  | 0, _, k => k
  | n + 1, i, k => passKeys n (i + 1) (passKey k i)

/-- The end-of-file combination. -/
def eofKey (b : Kbd) (c : Byte) : Prop :=
  b.keyState &&& inctl ≠ 0 ∧ c = b.eofEndbyte

instance (b : Kbd) (c : Byte) : Decidable (eofKey b c) :=
  inferInstanceAs (Decidable (_ ∧ _))

/-- The test whether to return to the reader. -/
def readCompletes (b : Kbd) (c ascii : Byte) : Prop :=
  (0 < b.kbdbufidx ∧ eofKey b c) ∨ ascii = 10
    ∨ b.applbufsize ≤ b.applbufidx + b.kbdbufidx + 1

instance (b : Kbd) (c ascii : Byte) : Decidable (readCompletes b c ascii) :=
  inferInstanceAs (Decidable (_ ∨ _))

/-- `eof_received=1;` and the end of the string. -/
def receiveEof (k : Kernel) : Kernel :=
  (k.setMem (k.mem.putByte (k.applAddr (k.kbd.applbufidx + k.kbd.kbdbufidx + 1)) 0)).setKbd
    { k.kbd with eofReceived := true }

/-- The buffered characters are passed and terminated. -/
def deliverKeys (k : Kernel) : Kernel :=
  let k := passKeys k.kbd.kbdbufidx.toNat 0 k
  (k.setMem (k.mem.putByte (k.applAddr k.kbd.applbufidx) 0)).setKbd
    { k.kbd with kbdbufidx := 0 }

/-- What is done when the test succeeds, up to the notification. -/
def completeRead (k : Kernel) (c : Byte) : Kernel :=
  deliverKeys (if eofKey k.kbd c then receiveEof k else k)

/-- The shift of the `n` unprocessed characters by `d` places, from `j` on. -/
def shiftKeys (d : Nat) : Nat → Nat → Kernel → Kernel
  | 0, _, k => k
  | n + 1, j, k =>
    shiftKeys d n (j + 1) (k.setMem (k.mem.putByte (k.kbdAddr j) (k.mem (k.kbdAddr (j + d)))))

/-- The loop that empties a full keyboard buffer, with `n` characters left from
index `i` on; the flag tells whether it leaves the function for the reader. -/
def flushKeys : Nat → Nat → Kernel → Kernel × Bool
  | 0, _, k => (k, false)
  | n + 1, i, k =>
    let k := passKey k i
    if k.kbd.applbufsize - 1 ≤ k.kbd.applbufidx ∨ k.mem (k.kbdAddr i) = 10 then
      if n = 0 then flushKeys n (i + 1) (k.setKbd { k.kbd with kbdbufidx := 0 })
      else
        let k := shiftKeys (i + 1) n 0 k
        (k.setKbd { k.kbd with kbdbufidx := kbdbufsz - n }, true)
    else flushKeys n (i + 1) k

/-- The key is not stored: it goes up or is a control key. -/
def keyIgnored (c ascii : Byte) : Prop :=
  ascii.setWidth 32 = nochar ∨ c &&& keyUp ≠ 0 ∨ isControlCode c

instance (c ascii : Byte) : Decidable (keyIgnored c ascii) :=
  inferInstanceAs (Decidable (_ ∨ _))

/-- `if (kbdbufidx < KBDBUFSZ) kbdbuffer[kbdbufidx++]=kbtoa(c)`. -/
def keepKey (k : Kernel) (c : Byte) : Kernel :=
  if k.kbd.kbdbufidx < kbdbufsz then storeKey k c else k

/-- The end of `process_key`: the key is stored and a full buffer flushed. The
flag tells whether the reader is to be notified. -/
def storeAndFlush (k : Kernel) (c : Byte) : Kernel × Bool :=
  let k := keepKey k c
  if kbdbufsz ≤ k.kbd.kbdbufidx ∧ k.kbd.applbuffer ≠ 0 then
    let (k, full) := flushKeys 4 0 k
    if full then (k, true) else (k.setKbd { k.kbd with kbdbufidx := 0 }, false)
  else (k, false)

/-- The part of `process_key` behind the test whether to return to the reader. -/
def bufferKey (k : Kernel) (fuel : Nat) (c ascii : Byte) : Run Kernel :=
  if keyIgnored c ascii then return k
  else
    match storeAndFlush k c with
    | (k, false) => return k
    | (k, true) => do
      let (k, _) ← notifyReader k fuel
      return k

/-- `process_key`, once the scan code `c` has been read and translated. -/
def handleKey (k : Kernel) (fuel : Nat) (c ascii : Byte) : Run Kernel :=
  if kbdbufsz ≤ k.kbd.kbdbufidx ∧ k.kbd.applbuffer = 0 then return k
  else if k.kbd.kbdbufidx < kbdbufsz ∧ k.kbd.applbuffer = 0 then return storeKey k c
  else if readCompletes k.kbd c ascii then do
    let (k, woken) ← notifyReader (completeRead k c) fuel
    if woken then return k else bufferKey k fuel c ascii
  else bufferKey k fuel c ascii

/-- `process_key`. -/
def processKey (k : Kernel) (a : Ambient) : Run Kernel :=
  let (ch, st) := kbtoa k.kbd.keyState a.datasrc
  handleKey (k.setKbd { k.kbd with keyState := st }) a.fuel a.datasrc (ch.setWidth 8)

end Xeros
