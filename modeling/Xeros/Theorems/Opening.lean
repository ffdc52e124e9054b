import Xeros.Logic.Opening
import Xeros.Theorems.Devices

/-!
# Opening a device

`di_open` fills a descriptor and marks it open before it asks the driver, and nothing is taken
back if the driver refuses. Its range test lets through any number up to `MAX_DEVICE`, the
negative ones included.
-/

namespace Xeros

open Lib

namespace Drivers

variable {σ : Type} {φ : DevOp → Type} {D : Drivers σ φ} {s : σ} {p : Slot} {devno : Word}
  {i : Fin maxFiles}

/-! ## All or nothing -/

/-- An element that exists is used. -/
def InBounds : OpenEvent φ → Prop
  | .index t i => 0 ≤ i ∧ i < t.size
  | .answer _ _ => True

/-- The `dvopen` of device `devno`, which the table has, has answered with a positive value. -/
def DeviceOpened (D : Drivers σ φ) (s : σ) (p : Slot) (devno : Word) : Prop :=
  ∃ f rc, .answer f rc ∈ (D.loggedDiOpen s p devno).2 ∧
    D.registered s devno .dvopen = some f ∧ 0 < rc

/-- `di_open` returns a descriptor only for a device that has been opened. In every other case
it returns an error, uses no element outside an array and leaves the descriptors as they were. -/
structure AllOrNothing (D : Drivers σ φ) (s : σ) (p : Slot) (devno : Word) : Prop where
  opened : 0 ≤ (D.loggedDiOpen s p devno).1.1 → D.DeviceOpened s p devno
  failed : ¬ (0 ≤ (D.loggedDiOpen s p devno).1.1 ∧ D.DeviceOpened s p devno) →
    (D.loggedDiOpen s p devno).1.1 < 0 ∧ (∀ e ∈ (D.loggedDiOpen s p devno).2, InBounds e) ∧
      D.fd (D.loggedDiOpen s p devno).1.2 p = D.fd s p

/-- If no descriptor is filled, the pointer of descriptor 0 was the base of the table already,
unless the number is above the range; and if one is, the device registers the `dvopen` of
device 0, which answers with a positive value. -/
structure OpensCleanly (D : Drivers σ φ) (s : σ) (p : Slot) (devno : Word) : Prop where
  onBase : devno.toInt ≤ maxDevice → D.freeFd s p devno = none → (D.fd s p 0).devTab = 0
  driver : ∀ i, D.freeFd s p devno = some i →
    D.registered s devno .dvopen = some (D.devtab s 0 .dvopen) ∧ 0 < (D.answer s p i devno).1

theorem scanLog_inBounds {t : Slot} {e : OpenEvent φ} (he : e ∈ D.scanLog s t devno) :
    InBounds e := by
  rcases List.mem_cons.mp he with rfl | he
  · exact ⟨Int.le_refl 0, by decide⟩
  · obtain ⟨j, -, rfl⟩ := List.mem_map.mp he
    exact ⟨Int.natCast_nonneg _, Int.ofNat_lt.mpr j.isLt⟩

/-- `devnames` is the array that `di_open` overruns, whenever it fills a descriptor for another
device than the two keyboards. -/
theorem loggedDiOpen_inBounds_iff (hhome : D.home s p = p) :
    (∀ e ∈ (D.loggedDiOpen s p devno).2, InBounds e) ↔
      ∀ i, D.freeFd s p devno = some i → 0 ≤ devno.toInt ∧ devno.toInt < 2 := by
  by_cases hdev : devno.toInt ≤ maxDevice
  · cases hfree : D.freeFd s p devno with
    | none =>
        rw [loggedDiOpen_none hdev hfree]
        exact iff_of_true (fun e he => scanLog_inBounds he) (by rintro i ⟨⟩)
    | some i =>
        rw [loggedDiOpen_some hhome hfree]
        refine ⟨fun h _ _ => ?_, fun h e he => ?_⟩
        · exact h (.index .devnames devno.toInt) (by simp)
        · rcases List.mem_append.mp he with he | he
          · rcases List.mem_append.mp he with he | he
            · exact scanLog_inBounds he
            · simp only [List.mem_cons, List.not_mem_nil, or_false] at he
              have hi : i.val < 4 := i.isLt
              rcases he with rfl | rfl | rfl | rfl
              · exact ⟨Int.natCast_nonneg _, Int.ofNat_lt.mpr (Nat.lt_trans hi (by decide))⟩
              · exact ⟨Int.natCast_nonneg _, Int.ofNat_lt.mpr hi⟩
              · exact h i rfl
              · exact ⟨Int.le_refl 0, by decide⟩
          · obtain rfl := List.mem_singleton.mp he
            trivial
  · have hfree : D.freeFd s p devno = none := if_neg hdev
    rw [loggedDiOpen_above hdev, hfree]
    exact iff_of_true (by simp) (by rintro i ⟨⟩)

theorem answer_not_mem_scanLog {t : Slot} {f : φ .dvopen} {rc : Int} :
    .answer f rc ∉ D.scanLog s t devno := by
  intro hmem
  rcases List.mem_cons.mp hmem with hmem | hmem
  · cases hmem
  · obtain ⟨j, -, hj⟩ := List.mem_map.mp hmem
    cases hj

theorem deviceOpened_none (hfree : D.freeFd s p devno = none) : ¬ D.DeviceOpened s p devno := by
  rintro ⟨f, rc, hmem, -, -⟩
  by_cases hdev : devno.toInt ≤ maxDevice
  · rw [loggedDiOpen_none hdev hfree] at hmem
    exact answer_not_mem_scanLog hmem
  · rw [loggedDiOpen_above hdev] at hmem
    exact absurd hmem List.not_mem_nil

theorem deviceOpened_some (hhome : D.home s p = p) (hfree : D.freeFd s p devno = some i) :
    D.DeviceOpened s p devno ↔
      D.registered s devno .dvopen = some (D.devtab s 0 .dvopen) ∧
        0 < (D.answer s p i devno).1 := by
  unfold DeviceOpened
  rw [loggedDiOpen_some hhome hfree]
  constructor
  · rintro ⟨f, rc, hmem, hreg, hrc⟩
    rcases List.mem_append.mp hmem with hmem | hmem
    · rcases List.mem_append.mp hmem with hmem | hmem
      · exact absurd hmem answer_not_mem_scanLog
      · simp at hmem
    · obtain ⟨rfl, rfl⟩ : f = D.devtab s 0 .dvopen ∧ rc = (D.answer s p i devno).1 := by
        simpa using hmem
      exact ⟨hreg, hrc⟩
  · rintro ⟨hreg, hrc⟩
    exact ⟨_, _, List.mem_append_right _ List.mem_cons_self, hreg, hrc⟩

/-- The pointer of descriptor 0 is refreshed. -/
theorem fd_refreshed_iff : D.fd (D.refreshed s p) p = D.fd s p ↔ (D.fd s p 0).devTab = 0 := by
  unfold refreshed
  rw [D.fd_setFd, Function.update_self]
  constructor
  · intro h
    have h₀ := congrFun h 0
    rw [Function.update_self] at h₀
    rw [← h₀]
  · intro h
    rw [← h]
    exact Function.update_eq_self 0 (D.fd s p)

/-- A descriptor that has been filled was not open before. -/
theorem fd_answer_ne (hhome : D.home s p = p) (hfree : D.freeFd s p devno = some i) :
    D.fd (D.answer s p i devno).2 p ≠ D.fd s p := by
  intro h
  have hclosed := (scanFds_finRange (scan_of_freeFd hhome hfree)).1
  refine hclosed ?_
  rw [← h, fd_answer, fd_filled, if_pos rfl]

/-- For every device number, every table of descriptors and over any drivers and any table of
devices, `di_open` is all or nothing exactly if it opens cleanly. -/
theorem all_or_nothing_iff (hhome : D.home s p = p) :
    D.AllOrNothing s p devno ↔ D.OpensCleanly s p devno := by
  cases hfree : D.freeFd s p devno with
  | none =>
      have hno := deviceOpened_none hfree
      have hlt : (D.loggedDiOpen s p devno).1.1 < 0 := by
        by_cases hdev : devno.toInt ≤ maxDevice
        · rw [loggedDiOpen_none hdev hfree]
          exact (by decide : (-1 : Int) < 0)
        · rw [loggedDiOpen_above hdev]
          exact (by decide : (-1 : Int) < 0)
      have hin : ∀ e ∈ (D.loggedDiOpen s p devno).2, InBounds e :=
        (loggedDiOpen_inBounds_iff hhome).mpr (by simp [hfree])
      -- the table is left if the pointer of descriptor 0 is
      have htable : D.fd (D.loggedDiOpen s p devno).1.2 p = D.fd s p ↔
          (devno.toInt ≤ maxDevice → (D.fd s p 0).devTab = 0) := by
        by_cases hdev : devno.toInt ≤ maxDevice
        · rw [loggedDiOpen_none hdev hfree, hhome, forall_prop_of_true hdev]
          exact fd_refreshed_iff
        · rw [loggedDiOpen_above hdev]
          exact iff_of_true rfl fun h => absurd h hdev
      constructor
      · intro h
        have hleft := htable.mp (h.failed fun hx => hno hx.2).2.2
        exact ⟨fun hdev _ => hleft hdev, by simp [hfree]⟩
      · intro h
        refine ⟨fun hx => absurd hx (Int.not_le.mpr hlt), fun _ => ⟨hlt, hin, ?_⟩⟩
        exact htable.mpr fun hdev => h.onBase hdev hfree
  | some i =>
      have hiff := deviceOpened_some hhome hfree
      constructor
      · intro h
        refine ⟨fun _ hnone => absurd (hfree.symm.trans hnone) (Option.some_ne_none i),
          fun j hj => ?_⟩
        obtain rfl : i = j := Option.some.inj (hfree.symm.trans hj)
        refine hiff.mp ?_
        by_contra hno
        have hleft := (h.failed fun hx => hno hx.2).2.2
        refine fd_answer_ne hhome hfree ?_
        rw [← hleft, loggedDiOpen_left hhome hfree]
      · intro h
        obtain ⟨hreg, hrc⟩ := h.driver i hfree
        have hopened := hiff.mpr ⟨hreg, hrc⟩
        have hnonneg : 0 ≤ (D.loggedDiOpen s p devno).1.1 := by
          rw [loggedDiOpen_some hhome hfree]
          dsimp only
          rw [if_pos hrc]
          exact Int.natCast_nonneg i.val
        exact ⟨fun _ => hopened, fun hx => absurd ⟨hnonneg, hopened⟩ hx⟩

end Drivers

/-- The first process opens the keyboard and gets a descriptor. -/
theorem keyboard_opens_cleanly : kernelDrivers.home sampleBoot.k 1 = 1 ∧
    kernelDrivers.AllOrNothing sampleBoot.k 1 0 := by
  have hhome : kernelDrivers.home sampleBoot.k 1 = 1 := by decide +kernel
  have hfree : kernelDrivers.freeFd sampleBoot.k 1 0 = some 0 := by decide +kernel
  refine ⟨hhome, (Drivers.all_or_nothing_iff hhome).mpr ⟨fun _ hnone => ?_, fun i hi => ?_⟩⟩
  · rw [hfree] at hnone
    cases hnone
  · obtain rfl : 0 = i := Option.some.inj (hfree.symm.trans hi)
    refine ⟨?_, by decide +kernel⟩
    show (kernelDrivers.registered sampleBoot.k 0 .dvopen : Option OpenFn) =
      some (sampleBoot.k.devtab 0).dvopen
    decide +kernel

/-- Device `MAX_DEVICE`, which does not exist, is opened. -/
theorem device_past_table_opened : ¬ ∀ (k : Kernel) (p : Slot) (devno : Word),
    kernelDrivers.home k p = p → kernelDrivers.AllOrNothing k p devno := by
  intro h
  obtain ⟨f, rc, -, hreg, -⟩ := (h sampleBoot.k 1 16 (by decide +kernel)).opened
    (by decide +kernel)
  have hnone : (kernelDrivers.registered sampleBoot.k 16 .dvopen : Option OpenFn) = none := by
    decide +kernel
  cases hnone.symm.trans hreg

namespace Drivers

variable {σ : Type} {φ : DevOp → Type} {D : Drivers σ φ} {s s' : σ} {p : Slot} {devno : Word}
  {i : Fin maxFiles}

/-! ## One descriptor for each device -/

/-- No two open descriptors have the same major number, and the two keyboards are not open at
once. -/
structure OneEach (D : Drivers σ φ) (s : σ) (p : Slot) : Prop where
  distinct : ∀ i j, (D.fd s p i).status = .opened → (D.fd s p j).status = .opened →
    (D.fd s p i).major = (D.fd s p j).major → i = j
  keyboards : ∀ i j, (D.fd s p i).status = .opened → (D.fd s p j).status = .opened →
    (D.fd s p i).major = 0 → (D.fd s p j).major ≠ 1

/-- What happens to the descriptors of a process: it opens or closes a device, or something else
happens. -/
inductive FdEvent where
  | openDev (devno : Word)
  | close (fd : Int)
  | other

/-- The calls of `di_open` and `di_close` of the process `p`, in any order, from a table without
open descriptors. What else happens may change anything but this table. -/
def openings (D : Drivers σ φ) (p : Slot) : TSys σ FdEvent where
  init s := ∀ i, (D.fd s p i).status = .closed
  step s e s' := match e with
    | .openDev devno => D.home s p = p ∧ s' = (D.diOpen s p devno).1.2
    | .close fd => s' = (D.diClose s p fd).1.2
    | .other => D.fd s' p = D.fd s p

/-- A device that is opened does not clash with an open descriptor behind the one it gets. -/
def NoneBehind (D : Drivers σ φ) (p : Slot) (s : σ) : FdEvent → Prop
  | .openDev devno => ∀ i, D.freeFd s p devno = some i →
      ∀ j, i < j → (D.fd s p j).status = .opened → ¬ Clash devno (D.fd s p j).major
  | .close _ => True
  | .other => True

/-- Any two open descriptors are of devices that do not clash. -/
theorem oneEach_iff : D.OneEach s p ↔ ∀ i j, i ≠ j → (D.fd s p i).status = .opened →
    (D.fd s p j).status = .opened → ¬ Clash (D.fd s p i).major (D.fd s p j).major := by
  constructor
  · rintro h i j hij hi hj (⟨h₀, h₁⟩ | ⟨h₁, h₀⟩ | hsame)
    · exact h.keyboards i j hi hj h₀ h₁
    · exact h.keyboards j i hj hi h₀ h₁
    · exact hij (h.distinct i j hi hj hsame.symm)
  · intro h
    refine ⟨fun i j hi hj hsame => ?_, fun i j hi hj h₀ h₁ => ?_⟩
    · by_contra hij
      exact h i j hij hi hj (.inr (.inr hsame.symm))
    · have hij : i ≠ j := by
        rintro rfl
        rw [h₀] at h₁
        exact absurd h₁ (by decide)
      exact h i j hij hi hj (.inl ⟨h₀, h₁⟩)

/-- Only which descriptors are open, and for what, matters. -/
theorem OneEach.mono (h : D.OneEach s p)
    (hle : ∀ i, (D.fd s' p i).status = .opened →
      (D.fd s p i).status = .opened ∧ (D.fd s' p i).major = (D.fd s p i).major) :
    D.OneEach s' p := by
  refine ⟨fun i j hi hj => ?_, fun i j hi hj => ?_⟩
  · rw [(hle i hi).2, (hle j hj).2]
    exact h.distinct i j (hle i hi).1 (hle j hj).1
  · rw [(hle i hi).2, (hle j hj).2]
    exact h.keyboards i j (hle i hi).1 (hle j hj).1

/-- The table after `di_open` has filled a descriptor. -/
theorem fd_diOpen_some (hhome : D.home s p = p)
    (hfree : D.freeFd s p devno = some i) (j : Fin maxFiles) :
    (D.fd (D.diOpen s p devno).1.2 p j).status =
        (if j = i then .opened else (D.fd s p j).status) ∧
      (D.fd (D.diOpen s p devno).1.2 p j).major =
        if j = i then devno else (D.fd s p j).major := by
  rw [← loggedDiOpen_eq, loggedDiOpen_left hhome hfree, fd_answer, fd_filled]
  by_cases hj : j = i
  · rw [if_pos hj, if_pos hj, if_pos hj]
    exact ⟨rfl, rfl⟩
  · rw [if_neg hj, if_neg hj, if_neg hj]
    by_cases hj₀ : j = 0
    · rw [if_pos hj₀, hj₀]
      exact ⟨rfl, rfl⟩
    · rw [if_neg hj₀]
      exact ⟨rfl, rfl⟩

/-- The table after `di_open` has filled none. -/
theorem fd_diOpen_none (hfree : D.freeFd s p devno = none) (j : Fin maxFiles) :
    (D.fd (D.diOpen s p devno).1.2 p j).status = (D.fd s p j).status ∧
      (D.fd (D.diOpen s p devno).1.2 p j).major = (D.fd s p j).major := by
  rw [← loggedDiOpen_eq]
  by_cases hdev : devno.toInt ≤ maxDevice
  · rw [loggedDiOpen_none hdev hfree]
    show (D.fd (D.refreshed s (D.home s p)) p j).status = _ ∧ _
    unfold refreshed
    rw [D.fd_setFd]
    by_cases hp : p = D.home s p
    · rw [← hp, Function.update_self]
      by_cases hj : j = 0
      · rw [hj, Function.update_self]
        exact ⟨rfl, rfl⟩
      · rw [Function.update_of_ne hj]
        exact ⟨rfl, rfl⟩
    · rw [Function.update_of_ne hp]
      exact ⟨rfl, rfl⟩
  · rw [loggedDiOpen_above hdev]
    exact ⟨rfl, rfl⟩

/-- `di_close` opens nothing. -/
theorem fd_diClose (fd : Int) (j : Fin maxFiles)
    (h : (D.fd (D.diClose s p fd).1.2 p j).status = .opened) :
    (D.fd s p j).status = .opened ∧
      (D.fd (D.diClose s p fd).1.2 p j).major = (D.fd s p j).major := by
  revert h
  unfold diClose
  cases D.validateFd s p fd with
  | none => exact fun h => ⟨h, rfl⟩
  | some i =>
      have hcall : D.fd (D.invoke (.close fd) s p i).1.2 = D.fd s := D.fd_call _ _ _ _
      dsimp only
      split
      · dsimp only
        rw [D.fd_setFd, Function.update_self, hcall]
        by_cases hj : j = i
        · rw [hj, Function.update_self]
          rintro ⟨⟩
        · rw [Function.update_of_ne hj]
          exact fun h => ⟨h, rfl⟩
      · dsimp only
        rw [hcall]
        exact fun h => ⟨h, rfl⟩

/-- Filling a descriptor keeps to one for each device exactly if no open one behind it is of a
device that clashes; those before it have been scanned. -/
theorem OneEach.filled_iff (h : D.OneEach s p) (hhome : D.home s p = p)
    (hfree : D.freeFd s p devno = some i) : D.OneEach (D.diOpen s p devno).1.2 p ↔
      ∀ j, i < j → (D.fd s p j).status = .opened → ¬ Clash devno (D.fd s p j).major := by
  obtain ⟨-, hbefore⟩ := scanFds_finRange (scan_of_freeFd hhome hfree)
  have htable := fd_diOpen_some hhome hfree
  rw [oneEach_iff] at h ⊢
  constructor
  · intro hafter j hij hj
    have hne : j ≠ i := Fin.ne_of_gt hij
    have hclash := hafter i j hne.symm
    rw [(htable i).1, (htable i).2, (htable j).1, (htable j).2, if_pos rfl, if_pos rfl,
      if_neg hne, if_neg hne] at hclash
    exact hclash rfl hj
  · intro hbehind
    -- the descriptor that has been filled against another one
    have hnew : ∀ j, j ≠ i → (D.fd s p j).status = .opened →
        ¬ Clash devno (D.fd s p j).major := by
      intro j hj hopen
      rcases Fin.lt_or_lt_of_ne hj with hlt | hlt
      · exact (hbefore j hlt).2
      · exact hbehind j hlt hopen
    intro a b hab ha hb
    rw [(htable a).1] at ha
    rw [(htable b).1] at hb
    rw [(htable a).2, (htable b).2]
    by_cases hai : a = i
    · have hbi : b ≠ i := fun hbi => hab (hai.trans hbi.symm)
      rw [if_neg hbi] at hb
      rw [if_pos hai, if_neg hbi]
      exact hnew b hbi hb
    · rw [if_neg hai] at ha
      rw [if_neg hai]
      by_cases hbi : b = i
      · rw [if_pos hbi]
        exact fun hc => hnew a hai ha hc.symm
      · rw [if_neg hbi] at hb
        rw [if_neg hbi]
        exact h a b hab ha hb

/-- A step from a table with one descriptor for each device leads to such a table exactly if the
device that is opened does not clash with a descriptor behind. -/
theorem OneEach.step_iff {e : FdEvent} (h : D.OneEach s p) (hst : (D.openings p).step s e s') :
    D.OneEach s' p ↔ D.NoneBehind p s e := by
  cases e with
  | other =>
      have hfd : D.fd s' p = D.fd s p := hst
      exact iff_of_true (h.mono fun i hi => by rw [hfd] at hi ⊢; exact ⟨hi, rfl⟩) trivial
  | close fd =>
      obtain rfl : s' = (D.diClose s p fd).1.2 := hst
      exact iff_of_true (h.mono fun i hi => fd_diClose fd i hi) trivial
  | openDev devno =>
      obtain ⟨hhome, rfl⟩ : D.home s p = p ∧ s' = (D.diOpen s p devno).1.2 := hst
      unfold NoneBehind
      cases hfree : D.freeFd s p devno with
      | none =>
          refine iff_of_true (h.mono fun i hi => ?_) fun i hi =>
            absurd (hfree.symm.trans hi) (Option.some_ne_none i).symm
          obtain ⟨hstatus, hmajor⟩ := fd_diOpen_none hfree i
          rw [hstatus] at hi
          exact ⟨hi, hmajor⟩
      | some i =>
          rw [h.filled_iff hhome hfree]
          refine ⟨fun hbehind i' hi' => ?_, fun hbehind => hbehind i hfree⟩
          obtain rfl : i = i' := Option.some.inj (hfree.symm.trans hi')
          exact hbehind

/-- In every run of openings and closings in which no device is opened that clashes with an open
descriptor behind the one it gets, there is one descriptor for each device; and such an opening
is what breaks this. -/
theorem one_descriptor_per_device (h : (D.openings p).ReachableUnder (D.NoneBehind p) s) :
    D.OneEach s p ∧
      ∀ e s', (D.openings p).step s e s' → (D.OneEach s' p ↔ D.NoneBehind p s e) := by
  have hind : (D.openings p).Inductive (D.NoneBehind p) fun s => D.OneEach s p := by
    refine ⟨fun s hs => ?_, fun s e s' hs hc hst => (hs.step_iff hst).mpr hc⟩
    refine ⟨fun i _ hi => ?_, fun i _ hi => ?_⟩
    · rw [hs i] at hi
      cases hi
    · rw [hs i] at hi
      cases hi
  have hone := hind.holds h
  exact ⟨hone, fun e s' hst => hone.step_iff hst⟩

end Drivers

/-- The first process starts with no descriptor open. -/
theorem openings_init : (kernelDrivers.openings 1).init sampleBoot.k := by
  show ∀ i, (kernelDrivers.fd sampleBoot.k 1 i).status = .closed
  decide +kernel

section

variable {C : Kernel → Drivers.FdEvent → Prop} {k : Kernel}

/-- One more opening, or one more closing. -/
theorem openings_open (devno : Word) (h : (kernelDrivers.openings 1).ReachableUnder C k)
    (hc : C k (.openDev devno)) (hhome : kernelDrivers.home k 1 = 1) :
    (kernelDrivers.openings 1).ReachableUnder C (kernelDrivers.diOpen k 1 devno).1.2 :=
  h.tail (a := .openDev devno) hc ⟨hhome, rfl⟩

@[inherit_doc openings_open]
theorem openings_close (fd : Int) (h : (kernelDrivers.openings 1).ReachableUnder C k)
    (hc : C k (.close fd)) :
    (kernelDrivers.openings 1).ReachableUnder C (kernelDrivers.diClose k 1 fd).1.2 :=
  h.tail (a := .close fd) hc rfl

end

/-- The first process opens device 2 and the first keyboard, and closes device 2. -/
def holed₁ : Kernel := (kernelDrivers.diOpen sampleBoot.k 1 2).1.2

@[inherit_doc holed₁]
def holed₂ : Kernel := (kernelDrivers.diOpen holed₁ 1 0).1.2

@[inherit_doc holed₁]
def holed₃ : Kernel := (kernelDrivers.diClose holed₂ 1 0).1.2

/-- It opens device 2 again, in front of the keyboard, and changes keyboards. -/
def swapped₁ : Kernel := (kernelDrivers.diOpen holed₃ 1 2).1.2

@[inherit_doc swapped₁]
def swapped₂ : Kernel := (kernelDrivers.diClose swapped₁ 1 1).1.2

@[inherit_doc swapped₁]
def swapped₃ : Kernel := (kernelDrivers.diOpen swapped₂ 1 1).1.2

instance (k : Kernel) (devno : Word) :
    Decidable (kernelDrivers.NoneBehind 1 k (.openDev devno)) :=
  inferInstanceAs (Decidable (∀ i, kernelDrivers.freeFd k 1 devno = some i →
    ∀ j, i < j → (kernelDrivers.fd k 1 j).status = .opened →
      ¬ Clash devno (kernelDrivers.fd k 1 j).major))

/-- Device 2 and the second keyboard are open at the end of that run, each once. -/
theorem one_descriptor_of_swap :
    ((kernelDrivers.fd swapped₃ 1 0).status = .opened ∧ (kernelDrivers.fd swapped₃ 1 0).major = 2) ∧
    ((kernelDrivers.fd swapped₃ 1 1).status = .opened ∧ (kernelDrivers.fd swapped₃ 1 1).major = 1) ∧
    kernelDrivers.OneEach swapped₃ 1 := by
  have hhome : kernelDrivers.home sampleBoot.k 1 = 1 ∧ kernelDrivers.home holed₁ 1 = 1 ∧
      kernelDrivers.home holed₃ 1 = 1 ∧ kernelDrivers.home swapped₂ 1 = 1 := by decide +kernel
  have hbehind : kernelDrivers.NoneBehind 1 sampleBoot.k (.openDev 2) ∧
      kernelDrivers.NoneBehind 1 holed₁ (.openDev 0) ∧
      kernelDrivers.NoneBehind 1 holed₃ (.openDev 2) ∧
      kernelDrivers.NoneBehind 1 swapped₂ (.openDev 1) := by decide +kernel
  obtain ⟨hh₁, hh₂, hh₃, hh₄⟩ := hhome
  obtain ⟨hb₁, hb₂, hb₃, hb₄⟩ := hbehind
  have h₃ : (kernelDrivers.openings 1).ReachableUnder (kernelDrivers.NoneBehind 1) holed₃ :=
    openings_close 0 (openings_open 0 (openings_open 2 ⟨_, openings_init, .refl⟩ hb₁ hh₁) hb₂ hh₂)
      trivial
  have h₆ : (kernelDrivers.openings 1).ReachableUnder (kernelDrivers.NoneBehind 1) swapped₃ :=
    openings_open 1 (openings_close 1 (openings_open 2 h₃ hb₃ hh₃) trivial) hb₄ hh₄
  refine ⟨?_, ?_, (Drivers.one_descriptor_per_device h₆).1⟩
  · decide +kernel
  · decide +kernel

/-- The second keyboard then gets the descriptor in front of the first one. -/
def holed₄ : Kernel := (kernelDrivers.diOpen holed₃ 1 1).1.2

/-- Both keyboards are open. -/
theorem both_keyboards_open : ¬ ∀ k, (kernelDrivers.openings 1).Reachable k →
    kernelDrivers.OneEach k 1 := by
  intro h
  have hhome : kernelDrivers.home sampleBoot.k 1 = 1 ∧ kernelDrivers.home holed₁ 1 = 1 ∧
      kernelDrivers.home holed₃ 1 = 1 := by decide +kernel
  have h₄ : (kernelDrivers.openings 1).Reachable holed₄ :=
    openings_open 1 (openings_close 0 (openings_open 0 (openings_open 2
      ⟨_, openings_init, .refl⟩ trivial hhome.1) trivial hhome.2.1) trivial) trivial hhome.2.2
  have hwrong := (h holed₄ h₄).keyboards 1 0
  exact hwrong (by decide +kernel) (by decide +kernel) (by decide +kernel) (by decide +kernel)

end Xeros
