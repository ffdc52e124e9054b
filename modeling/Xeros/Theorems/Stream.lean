import Xeros.Theorems.Keys

/-!
# Successive reads

The characters of a process that reads again and again. What its reads have returned,
followed by what the buffers still hold, is what has been typed, as long as no key is typed
at one of the three places where the driver loses or invents a character.
-/

namespace Xeros

open Lib

variable {k k' : Kernel} {p p' : Slot} {a : Ambient} {c : Byte}

/-- The characters less the line terminators. -/
def lines (l : List Byte) : List Byte := l.filter (· ≠ 10)

@[simp] theorem lines_append (l l' : List Byte) : lines (l ++ l') = lines l ++ lines l' :=
  List.filter_append ..

@[simp] theorem lines_nil : lines [] = [] := rfl

@[simp] theorem lines_newline : lines [10] = [] := by decide

theorem lines_eq_nil {l : List Byte} (h : ∀ x ∈ l, x = 10) : lines l = [] := by
  refine List.filter_eq_nil_iff.mpr fun x hx => ?_
  simp [h x hx]

/-- What the two buffers hold. The buffer of the reader counts while a read is registered. -/
def Kernel.held (k : Kernel) : List Byte := if k.kbd.applbuffer = 0 then k.kept else k.line

/-- What the process `p` has in its buffer when a key wakes it from its read. -/
def bytesReturned (k k' : Kernel) (p : Slot) : List Byte :=
  if (k.proctab p).state = .blocked ∧ (k'.proctab p).state = .ready then
    k'.mem.slice k.kbd.applbuffer (k'.proctab p).ret.toNat
  else []

/-- `SYS_READ` of `p` registers its read. -/
def readRegisters (k : Kernel) (p : Slot) : Prop :=
  (diRead k p (k.arg p 0).toInt (k.arg p 1) (k.arg p 2).toInt).1 = registeredKbdread

instance (k : Kernel) (p : Slot) : Decidable (readRegisters k p) :=
  inferInstanceAs (Decidable (_ = _))

/-- The kernel, with a note of the characters that the reads have returned, of those that have
been typed, and of the number of those typed while no read was registered. -/
structure Stream where
  k : Kernel
  returned : List Byte
  typed : List Byte
  ahead : Nat

/-- What happens to the keyboard: a key arrives, the process reads, or the rest of the system
moves. -/
inductive StreamEvent where
  | key (a : Ambient)
  | read (a : Ambient)
  | elsewhere

/-- The key of `a` has led to the kernel `k'`. -/
def Stream.key (s : Stream) (p : Slot) (a : Ambient) (k' : Kernel) : Stream where
  k := k'
  returned := s.returned ++ bytesReturned s.k k' p
  typed := s.typed ++ Xeros.typed s.k.kbd.keyState [a.datasrc]
  ahead := if s.k.kbd.applbuffer = 0 then
      s.ahead + (Xeros.typed s.k.kbd.keyState [a.datasrc]).length
    else 0

/-- A `SYS_READ` has led to the kernel `k'`. -/
def Stream.read (s : Stream) (k' : Kernel) : Stream :=
  { s with k := k', ahead := if k'.kbd.applbuffer = 0 then s.ahead else 0 }

/-- The steps. A read that is registered blocks the process, and only a key wakes it. -/
inductive StreamStep (p : Slot) : Stream → StreamEvent → Stream → Prop
  | key {s : Stream} {a : Ambient} {k' : Kernel} (h : processKey s.k a = .ok k') :
      StreamStep p s (.key a) (s.key p a k')
  | read {s : Stream} {a : Ambient} {k' : Kernel} {p' : Slot}
      (hrun : (s.k.proctab p).state = .running) (h : sysRead s.k p a = .ok (k', p'))
      (hb : readRegisters s.k p → (k'.proctab p).state = .blocked) :
      StreamStep p s (.read a) (s.read k')
  | elsewhere {s : Stream} {k' : Kernel} (h : LeavesDriver s.k k')
      (hb : s.k.kbd.applbuffer ≠ 0 → (k'.proctab p).state = .blocked) :
      StreamStep p s .elsewhere { s with k := k' }

/-- The keyboard of the process `p`, from a state on in which it is open and nothing is held. -/
def keyboardStream (p : Slot) : TSys Stream StreamEvent where
  init s := ∃ d kb, dispatcher.Reachable d ∧
    s = { k := d.k.withBuffer kb, returned := [], typed := [], ahead := 0 } ∧
    d.k.kbd.reader = some p ∧ d.k.kbd.eofReceived = false ∧ d.k.kbd.applbuffer = 0 ∧
    d.k.kbd.kbdbufidx = 0
  step := StreamStep p

/-- What is taken for granted: the end-of-file key is not used, at most `KBDBUFSZ` characters
are typed while no read is registered, and the buffer of a read lies apart from `kbdbuffer`. -/
def Assumed (p : Slot) (s : Stream) : StreamEvent → Prop
  | .key a => ¬ s.k.atEof a ∧
      (s.k.kbd.applbuffer = 0 → plainKey a.datasrc → (s.ahead : Int) < kbdbufsz)
  | .read _ => readRegisters s.k p →
      Apart (readArgs s.k p).1 (max (readArgs s.k p).2 1).toNat s.k.kbd.kbdbuffer 4
  | .elsewhere => True

/-- The event is at none of the places where a character is lost or invented: a key that goes
up or is a modifier finds no room in `kbdbuffer` while no read is registered, a read whose
buffer is full is completed by such a key or a newline, and a read that is registered finds
only newlines in `kbdbuffer`. -/
def KeepsStream (p : Slot) (s : Stream) : StreamEvent → Prop
  | .key a =>
      (s.k.kbd.applbuffer = 0 → ¬ plainKey a.datasrc → kbdbufsz ≤ s.k.kbd.kbdbufidx) ∧
      (s.k.kbd.applbuffer ≠ 0 → s.k.kbd.applbufsize ≤ s.k.line.length + 1 →
        plainKey a.datasrc → charOf s.k.kbd.keyState a.datasrc = 10)
  | .read _ => readRegisters s.k p → ∀ x ∈ s.k.kept, x = 10
  | .elsewhere => True

/-- The stream is intact, and the driver collects a line of `p` when a read is registered. -/
structure Intact (p : Slot) (s : Stream) : Prop where
  good : Good s.k
  noEof : s.k.kbd.eofReceived = false
  stream : lines (s.returned ++ s.k.held) = lines s.typed
  idle : s.k.kbd.applbuffer = 0 →
    0 ≤ s.k.kbd.kbdbufidx ∧ s.k.kbd.kbdbufidx ≤ kbdbufsz ∧ s.k.kbd.kbdbufidx ≤ s.ahead
  busy : s.k.kbd.applbuffer ≠ 0 → Collecting s.k p

theorem Intact.of_init {s : Stream} (h : (keyboardStream p).init s) : Intact p s := by
  obtain ⟨d, kb, hd, rfl, -, he, hb, hi⟩ := h
  refine ⟨{ (sound_of_reachable hd).good with }, he, ?_, fun _ => ?_, fun hne => absurd hb hne⟩
  · have hkept : (d.k.withBuffer kb).kept = [] := by
      unfold Kernel.kept
      rw [show (d.k.withBuffer kb).kbd.kbdbufidx = 0 from hi]
      rfl
    unfold Kernel.held
    rw [show (d.k.withBuffer kb).kbd.applbuffer = 0 from hb, if_pos rfl, hkept]
    rfl
  · rw [show (d.k.withBuffer kb).kbd.kbdbufidx = 0 from hi]
    exact ⟨Int.le_refl 0, by decide, Int.le_refl 0⟩

theorem Kernel.held_idle (hb : k.kbd.applbuffer = 0) : k.held = k.kept := if_pos hb

theorem Kernel.held_busy (hb : k.kbd.applbuffer ≠ 0) : k.held = k.line := if_neg hb

/-- A key that moves no process returns nothing. -/
theorem bytesReturned_of_proctab (h : k'.proctab = k.proctab) : bytesReturned k k' p = [] := by
  unfold bytesReturned
  rw [h]
  refine if_neg ?_
  rintro ⟨h₁, h₂⟩
  rw [h₁] at h₂
  cases h₂

theorem typed_plain (hc : plainKey c) (st : Word) : typed st [c] = [charOf st c] := if_pos hc

theorem typed_not_plain (hc : ¬ plainKey c) (st : Word) : typed st [c] = [] := if_neg hc

/-- A key that finds no read registered. -/
theorem Intact.keyIdle {s : Stream} (hs : Intact p s) (hb : s.k.kbd.applbuffer = 0)
    (ha : Assumed p s (.key a)) (hc : KeepsStream p s (.key a))
    (h : processKey s.k a = .ok k') : Intact p (s.key p a k') := by
  obtain ⟨hlo, hhi, hahead⟩ := hs.idle hb
  have hg : Good k' := (processKey_quiet (X := nobody) hs.good h).good
  have hstream := hs.stream
  rw [Kernel.held_idle hb] at hstream
  rcases processKey_idle hb a with ⟨hfull, hk'⟩ | ⟨hlt, hk'⟩
  · -- the buffer is full, so what arrives has no character
    obtain rfl := Except.ok.inj (h.symm.trans hk')
    have hplain : ¬ plainKey a.datasrc := fun hp => by
      have := ha.2 hb hp
      omega
    have hb' : (s.k.noteKey a).kbd.applbuffer = 0 := hb
    have hno : bytesReturned s.k (s.k.noteKey a) p = [] := bytesReturned_of_proctab rfl
    refine ⟨hg, hs.noEof, ?_, fun _ => ?_, fun hne => absurd hb hne⟩
    · unfold Stream.key
      rw [Kernel.held_idle hb', hno, typed_not_plain hplain, List.append_nil, List.append_nil]
      exact hstream
    · unfold Stream.key
      rw [if_pos hb, typed_not_plain hplain]
      exact ⟨hlo, hhi, hahead⟩
  · -- there is room, and only keys with a character are allowed to fill it
    obtain rfl := Except.ok.inj (h.symm.trans hk')
    have hplain : plainKey a.datasrc := by
      by_contra hp
      have := hc.1 hb hp
      omega
    have hst : (s.k.noteKey a).kbd.keyState = s.k.kbd.keyState := kbtoa_plain hplain _
    obtain ⟨hkbd, hkept, -⟩ := storeKey_kept (k := s.k.noteKey a) hlo hlt hplain
    have hb' : (storeKey (s.k.noteKey a) a.datasrc).kbd.applbuffer = 0 := by
      rw [hkbd]
      exact hb
    have hno : bytesReturned s.k (storeKey (s.k.noteKey a) a.datasrc) p = [] :=
      bytesReturned_of_proctab rfl
    unfold Stream.key
    refine ⟨hg, ?_, ?_, fun _ => ?_, fun hne => absurd hb' hne⟩
    · rw [hkbd]
      exact hs.noEof
    · rw [Kernel.held_idle hb', hno, typed_plain hplain, List.append_nil, hkept, hst,
        ← List.append_assoc, lines_append, lines_append s.typed, ← hstream]
      rfl
    · rw [if_pos hb, typed_plain hplain, hkbd]
      show 0 ≤ s.k.kbd.kbdbufidx + 1 ∧ s.k.kbd.kbdbufidx + 1 ≤ kbdbufsz ∧
        s.k.kbd.kbdbufidx + 1 ≤ ((s.ahead + 1 : Nat) : Int)
      omega

/-- A key while a read is registered. -/
theorem Intact.keyBusy {s : Stream} (hs : Intact p s) (hb : s.k.kbd.applbuffer ≠ 0)
    (ha : Assumed p s (.key a)) (hc : KeepsStream p s (.key a))
    (h : processKey s.k a = .ok k') : Intact p (s.key p a k') := by
  have hcol := hs.busy hb
  have hg : Good k' := (processKey_quiet (X := nobody) hs.good h).good
  have hstream := hs.stream
  rw [Kernel.held_busy hb] at hstream
  by_cases hf : Finishes s.k a.datasrc
  · -- the read is over, and the key that ends it has no character but a newline
    have hfin := hcol.finish ha.1 hf h
    obtain ⟨i, hkbd⟩ := hfin.kbd
    have hb' : k'.kbd.applbuffer = 0 := by
      rw [hkbd]
      rfl
    have hkept : k'.kept = [] := by
      unfold Kernel.kept
      rw [hkbd]
      rfl
    have hlen : s.k.line.length < 0x100000000 := by
      have hroom := hcol.room
      have hsize := hcol.bufSize_lt
      have hline := hcol.length_line
      unfold Kernel.bufSize at hsize
      omega
    have hret : bytesReturned s.k k' p = s.k.line := by
      unfold bytesReturned
      rw [if_pos ⟨hcol.blocked, hfin.ready⟩, hfin.ret]
      have htoNat : (toWord s.k.line.length).toNat = s.k.line.length := by
        unfold toWord
        rw [BitVec.ofInt_natCast, BitVec.toNat_ofNat, Nat.mod_eq_of_lt hlen]
      rw [htoNat]
      exact hfin.line
    have hlast : lines (typed s.k.kbd.keyState [a.datasrc]) = [] := by
      by_cases hplain : plainKey a.datasrc
      · rw [typed_plain hplain]
        have hnl : charOf s.k.kbd.keyState a.datasrc = 10 := by
          rcases hf with hf | hf
          · exact hf
          · exact hc.2 hb hf hplain
        rw [hnl]
        rfl
      · rw [typed_not_plain hplain]
        rfl
    unfold Stream.key
    refine ⟨hg, ?_, ?_, fun _ => ?_, fun hne => absurd hb' hne⟩
    · rw [hkbd]
      exact hs.noEof
    · rw [Kernel.held_idle hb', hret, hkept, List.append_nil, lines_append s.typed, hlast,
        List.append_nil]
      exact hstream
    · rw [if_neg hb, hkbd]
      exact ⟨Int.le_refl 0, (by decide : (0 : Int) ≤ kbdbufsz), Int.le_refl 0⟩
  · -- the read goes on, and its line has got what the key types
    obtain ⟨k₁, hk₁, hcol', honly, ⟨i, j, hkbd, -⟩, -, hline⟩ :=
      hcol.goOn (mt (hcol.readCompletes_iff ha.1).mp hf)
    obtain rfl : k' = k₁ := Except.ok.inj (h.symm.trans hk₁)
    unfold Stream.key
    refine ⟨hg, ?_, ?_, fun h0 => absurd h0 hcol'.buffer, fun _ => hcol'⟩
    · rw [hkbd]
      exact hs.noEof
    · rw [Kernel.held_busy hcol'.buffer, bytesReturned_of_proctab honly.proctab, hline,
        List.append_nil, ← List.append_assoc, lines_append, lines_append s.typed, ← hstream]
      rfl

/-- A read that is not registered while the end-of-file key has not been used changes nothing
but the result of its caller. -/
theorem sysRead_fails (he : k.kbd.eofReceived = false) (hr : ¬ readRegisters k p)
    (h : sysRead k p a = .ok (k', p')) : ∃ v, k' = k.setRet p v := by
  have hsame : (diRead k p (k.arg p 0).toInt (k.arg p 1) (k.arg p 2).toInt).2 = k := by
    have hecho : ∀ buff len, (ekbdRead k p buff len).1 = registeredKbdread := by
      intro buff len
      unfold ekbdRead
      rw [he]
      rfl
    unfold readRegisters at hr
    unfold diRead at hr ⊢
    split at hr
    · rfl
    · unfold callTransfer at hr ⊢
      split at hr
      · rfl
      · unfold kbdRead at hr
        rw [he] at hr
        exact absurd (hecho _ _) hr
      · exact absurd (hecho _ _) hr
  obtain ⟨-, -, v, hv⟩ := (sysRead_cases h).resolve_right fun hc => hr hc.1
  exact ⟨v, hsame ▸ hv⟩

/-- A read of the process, which runs: no other read is registered. -/
theorem Intact.read {s : Stream} (hs : Intact p s) (ha : Assumed p s (.read a))
    (hc : KeepsStream p s (.read a)) (hrun : (s.k.proctab p).state = .running)
    (h : sysRead s.k p a = .ok (k', p'))
    (hb : readRegisters s.k p → (k'.proctab p).state = .blocked) :
    Intact p (s.read k') := by
  have hidle : s.k.kbd.applbuffer = 0 := by
    by_contra hne
    have hst := (hs.busy hne).blocked
    rw [hrun] at hst
    cases hst
  have hu : s.k.Used p := hs.good.used (by rw [hrun]; decide)
  have hg : Good k' := (sysRead_quiet (X := fun _ => True) hs.good hu trivial h).1.good
  have hstream := hs.stream
  rw [Kernel.held_idle hidle] at hstream
  by_cases hr : readRegisters s.k p
  · obtain ⟨hkbd, -, -⟩ := sysRead_kbd hrun h (hb hr)
    have hkept : k'.kept = [] := by
      unfold Kernel.kept
      rw [hkbd]
      rfl
    -- only newlines are lost
    have hlost : lines s.k.kept = [] := lines_eq_nil (hc hr)
    have hheld : k'.held = [] := by
      by_cases h0 : k'.kbd.applbuffer = 0
      · rw [Kernel.held_idle h0, hkept]
      · rw [Kernel.held_busy h0]
        unfold Kernel.line Kernel.passed
        rw [hkept, hkbd]
        rfl
    unfold Stream.read
    refine ⟨hg, ?_, ?_, fun h0 => ?_, fun h0 => ?_⟩
    · rw [hkbd]
      exact hs.noEof
    · rw [lines_append, hlost] at hstream
      rw [hheld, lines_append]
      exact hstream
    · rw [hkbd]
      exact ⟨Int.le_refl 0, (by decide : (0 : Int) ≤ kbdbufsz), Int.natCast_nonneg _⟩
    · refine (sysRead_collecting hs.good hu hrun h (hb hr) ?_ (ha hr)).1
      rw [hkbd] at h0
      exact h0
  · obtain ⟨v, rfl⟩ := sysRead_fails hs.noEof hr h
    have hi := hs.idle hidle
    refine ⟨hg, hs.noEof, hs.stream, fun _ => ?_, fun h0 => absurd hidle h0⟩
    unfold Stream.read
    rw [show (s.k.setRet p v).kbd.applbuffer = 0 from hidle, if_pos rfl]
    exact hi

/-- The rest of the system keeps what is held. -/
theorem Intact.elsewhere {s : Stream} (hs : Intact p s) (h : LeavesDriver s.k k')
    (hb : s.k.kbd.applbuffer ≠ 0 → (k'.proctab p).state = .blocked) :
    Intact p { s with k := k' } := by
  have hsame : k'.kbd.applbuffer = s.k.kbd.applbuffer := by rw [h.kbd]
  have hstream := hs.stream
  refine ⟨h.good, ?_, ?_, fun h0 => ?_, fun h0 => ?_⟩
  · rw [h.kbd]
    exact hs.noEof
  · by_cases h0 : s.k.kbd.applbuffer = 0
    · rw [Kernel.held_idle h0] at hstream
      rw [Kernel.held_idle (hsame.trans h0), h.kept_eq (hs.idle h0).2.1]
      exact hstream
    · rw [Kernel.held_busy h0] at hstream
      rw [Kernel.held_busy fun hx => h0 (hsame.symm.trans hx),
        ((hs.busy h0).elsewhere h (hb h0)).2]
      exact hstream
  · rw [h.kbd]
    exact hs.idle (hsame.symm.trans h0)
  · have h0' : s.k.kbd.applbuffer ≠ 0 := fun hx => h0 (hsame.trans hx)
    exact ((hs.busy h0').elsewhere h (hb h0')).1

/-- The step of a stream whose events lose no character. -/
theorem Intact.step {s s' : Stream} {e : StreamEvent} (hs : Intact p s)
    (hc : Assumed p s e ∧ KeepsStream p s e) (h : StreamStep p s e s') : Intact p s' := by
  obtain ⟨ha, hc⟩ := hc
  cases h with
  | key h =>
      by_cases hb : s.k.kbd.applbuffer = 0
      · exact hs.keyIdle hb ha hc h
      · exact hs.keyBusy hb ha hc h
  | read hrun h hb => exact hs.read ha hc hrun h hb
  | elsewhere h hb => exact hs.elsewhere h hb

/-- In every run whose events lose no character, what the reads have returned, followed by
what the buffers hold, is what has been typed, line terminators aside. -/
theorem stream_intact {s : Stream}
    (h : (keyboardStream p).ReachableUnder (fun s e => Assumed p s e ∧ KeepsStream p s e) s) :
    lines (s.returned ++ s.k.held) = lines s.typed := by
  have hinv : (keyboardStream p).Inductive (fun s e => Assumed p s e ∧ KeepsStream p s e)
      (Intact p) := ⟨fun _ h₀ => .of_init h₀, fun _ _ _ hs hc ht => hs.step hc ht⟩
  exact (hinv.holds h).stream

/-! ## A character that is lost -/

/-- The sample machine: its root process opens the keyboard. The arguments of a read of ten
bytes are in its memory already. -/
def streaming : Disp := (turn sampleBoot (sampleCall .openDev [0, 0x60100, 10])).getD sampleBoot

@[inherit_doc streaming]
def stream₀ : Stream :=
  { k := streaming.k.withBuffer 0x50000, returned := [], typed := [], ahead := 0 }

/-- The root process reads. -/
def sampleRead (s : Stream) : Stream :=
  s.read ((sysRead s.k streaming.p sampleAmbient).getD (s.k, 0)).1

/-- A key arrives at the sample machine. -/
def sampleType (s : Stream) (c : Byte) : Stream :=
  s.key streaming.p (sampleKey 100 c) ((processKey s.k (sampleKey 100 c)).getD s.k)

theorem sampleRead_step {s : Stream} (hrun : (s.k.proctab streaming.p).state = .running)
    (h : (sysRead s.k streaming.p sampleAmbient).isOk = true)
    (hb : ((sampleRead s).k.proctab streaming.p).state = .blocked) :
    (keyboardStream streaming.p).step s (.read sampleAmbient) (sampleRead s) :=
  StreamStep.read hrun (Run.eq_getD (s := (s.k, 0)) h) fun _ => hb

theorem sampleType_step {s : Stream} {c : Byte}
    (h : (processKey s.k (sampleKey 100 c)).isOk = true) :
    (keyboardStream streaming.p).step s (.key (sampleKey 100 c)) (sampleType s c) :=
  StreamStep.key (Run.eq_getD h)

theorem stream₀_init : (keyboardStream streaming.p).init stream₀ := by
  have hs : dispatcher.Reachable streaming :=
    TSys.ReachableUnder.tail ⟨sampleBoot, sampleBoot_init, .refl⟩ trivial
      (Run.eq_getD (s := sampleBoot) (by decide +kernel) :
        turn sampleBoot (sampleCall .openDev [0, 0x60100, 10]) = .ok streaming)
  refine ⟨streaming, 0x50000, hs, rfl, ?_⟩
  decide +kernel

/-- The buffer of the sample read lies apart from `kbdbuffer`. -/
theorem sampleRead_apart {s : Stream} (h : readArgs s.k streaming.p = (0x60100, 10))
    (hkb : s.k.kbd.kbdbuffer = 0x50000) : Assumed streaming.p s (.read sampleAmbient) := by
  intro _
  rw [h, hkb]
  exact Apart.of_le (by decide) (by decide)

/-- A key meets the conditions. -/
def KeepsKey (s : Stream) (c : Byte) : Prop :=
  (processKey s.k (sampleKey 100 c)).isOk = true ∧
    Assumed streaming.p s (.key (sampleKey 100 c)) ∧
    KeepsStream streaming.p s (.key (sampleKey 100 c))

instance (s : Stream) (c : Byte) : Decidable (KeepsKey s c) :=
  inferInstanceAs (Decidable ((processKey s.k (sampleKey 100 c)).isOk = true ∧
    (¬ s.k.atEof (sampleKey 100 c) ∧
      (s.k.kbd.applbuffer = 0 → plainKey c → (s.ahead : Int) < kbdbufsz)) ∧
    (s.k.kbd.applbuffer = 0 → ¬ plainKey c → kbdbufsz ≤ s.k.kbd.kbdbufidx) ∧
    (s.k.kbd.applbuffer ≠ 0 → s.k.kbd.applbufsize ≤ s.k.line.length + 1 →
      plainKey c → charOf s.k.kbd.keyState c = 10)))

/-- The root process reads, `a`, `b` and the line terminator are typed, and then `c`. -/
def typing₀ : Stream := sampleRead stream₀

@[inherit_doc typing₀]
def typing₁ : Stream := sampleType typing₀ 0x1e

@[inherit_doc typing₀]
def typing₂ : Stream := sampleType typing₁ 0x30

@[inherit_doc typing₀]
def typing₃ : Stream := sampleType typing₂ 0x1c

@[inherit_doc typing₀]
def typing₄ : Stream := sampleType typing₃ 0x2e

/-- The read has returned the line, and the driver holds the `c`. -/
theorem stream_intact_of_line : typing₄.returned = [97, 98] ∧ typing₄.k.held = [99] ∧
    typing₄.typed = [97, 98, 10, 99] ∧
    lines (typing₄.returned ++ typing₄.k.held) = lines typing₄.typed := by
  have hread : ((stream₀.k.proctab streaming.p).state = .running ∧
        (sysRead stream₀.k streaming.p sampleAmbient).isOk = true ∧
        (typing₀.k.proctab streaming.p).state = .blocked) ∧
      readArgs stream₀.k streaming.p = (0x60100, 10) ∧ stream₀.k.kbd.kbdbuffer = 0x50000 ∧
      stream₀.k.kept = [] := by decide +kernel
  have hkeys : KeepsKey typing₀ 0x1e ∧ KeepsKey typing₁ 0x30 ∧ KeepsKey typing₂ 0x1c ∧
      KeepsKey typing₃ 0x2e := by decide +kernel
  obtain ⟨⟨hrun, hok, hb⟩, hargs, hkb, hkept⟩ := hread
  obtain ⟨⟨h₁, hc₁⟩, ⟨h₂, hc₂⟩, ⟨h₃, hc₃⟩, ⟨h₄, hc₄⟩⟩ := hkeys
  have h₀ : (keyboardStream streaming.p).ReachableUnder
      (fun s e => Assumed streaming.p s e ∧ KeepsStream streaming.p s e) typing₀ :=
    TSys.ReachableUnder.tail ⟨stream₀, stream₀_init, .refl⟩
      ⟨sampleRead_apart hargs hkb, fun _ x hx => by rw [hkept] at hx; cases hx⟩
      (sampleRead_step hrun hok hb)
  refine ⟨by decide +kernel, by decide +kernel, by decide +kernel, ?_⟩
  exact stream_intact (p := streaming.p) ((((h₀.tail hc₁ (sampleType_step h₁)).tail hc₂
    (sampleType_step h₂)).tail hc₃ (sampleType_step h₃)).tail hc₄ (sampleType_step h₄))

/-- An `a` typed before the read is registered is lost. -/
theorem stream_not_intact : ¬ ∀ s, (keyboardStream streaming.p).ReachableUnder
    (Assumed streaming.p) s → lines (s.returned ++ s.k.held) = lines s.typed := by
  intro h
  have hkey : (processKey stream₀.k (sampleKey 100 0x1e)).isOk = true ∧
      ¬ stream₀.k.atEof (sampleKey 100 0x1e) := by
    refine ⟨?_, ?_⟩ <;> decide +kernel
  have hread : (((sampleType stream₀ 0x1e).k.proctab streaming.p).state = .running ∧
        (sysRead (sampleType stream₀ 0x1e).k streaming.p sampleAmbient).isOk = true ∧
        ((sampleRead (sampleType stream₀ 0x1e)).k.proctab streaming.p).state = .blocked) ∧
      readArgs (sampleType stream₀ 0x1e).k streaming.p = (0x60100, 10) ∧
      (sampleType stream₀ 0x1e).k.kbd.kbdbuffer = 0x50000 := by
    refine ⟨⟨?_, ?_, ?_⟩, ?_, ?_⟩ <;> decide +kernel
  obtain ⟨⟨hrun, hok, hb⟩, hargs, hkb⟩ := hread
  have ha : Assumed streaming.p stream₀ (.key (sampleKey 100 0x1e)) :=
    ⟨hkey.2, fun _ _ => (by decide : ((0 : Nat) : Int) < kbdbufsz)⟩
  have h₁ : (keyboardStream streaming.p).ReachableUnder (Assumed streaming.p)
      (sampleType stream₀ 0x1e) :=
    TSys.ReachableUnder.tail ⟨stream₀, stream₀_init, .refl⟩ ha (sampleType_step hkey.1)
  have hlost := h _ (h₁.tail (sampleRead_apart hargs hkb) (sampleRead_step hrun hok hb))
  revert hlost
  decide +kernel

end Xeros
