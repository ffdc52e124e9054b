import Xeros.Logic.Devices
import Mathlib.Data.List.FinRange

/-!
# What `di_open` does on the way

`di_open` once more, with a log of the array elements it uses and of the answer of `dvopen`.
Leaving the log out gives `di_open`. The scan takes the first descriptor that is not open; no
open one before it clashes with the device, and the ones behind it are not looked at.
-/

namespace Xeros

open Lib

/-! ## The scan -/

/-- An open descriptor with major number `m` excludes device `devno`: it is that device, or the
other keyboard. -/
def Clash (devno m : Word) : Prop :=
  (devno = 0 ∧ m = 1) ∨ (devno = 1 ∧ m = 0) ∨ m = devno

instance (devno m : Word) : Decidable (Clash devno m) := inferInstanceAs (Decidable (_ ∨ _ ∨ _))

theorem Clash.symm {m m' : Word} (h : Clash m m') : Clash m' m := by
  rcases h with ⟨h₀, h₁⟩ | ⟨h₁, h₀⟩ | rfl
  · exact .inr (.inl ⟨h₁, h₀⟩)
  · exact .inl ⟨h₀, h₁⟩
  · exact .inr (.inr rfl)

variable {fd : Fin maxFiles → Fildes} {devno : Word} {i : Fin maxFiles}

theorem scanFds_cons (j : Fin maxFiles) (l : List (Fin maxFiles)) :
    scanFds fd devno (j :: l) = if (fd j).status = .opened then
      if Clash devno (fd j).major then none else scanFds fd devno l else some j := by
  have hiff : Clash devno (fd j).major ↔
      ((devno = 0 ∧ (fd j).major = 1) ∨ (devno = 1 ∧ (fd j).major = 0)) ∨ (fd j).major = devno :=
    or_assoc.symm
  simp only [scanFds, hiff]
  split
  · split
    · rename_i hkbd
      rw [if_pos (.inl hkbd)]
    · rename_i hkbd
      simp only [or_iff_right hkbd]
  · rfl

/-- The descriptor that the scan takes is the first that is not open, and no device of those
before it clashes. -/
theorem scanFds_some {l : List (Fin maxFiles)} (h : scanFds fd devno l = some i) :
    ∃ l₁ l₂, l = l₁ ++ i :: l₂ ∧ (fd i).status ≠ .opened ∧
      ∀ j ∈ l₁, (fd j).status = .opened ∧ ¬ Clash devno (fd j).major := by
  induction l with
  | nil => cases h
  | cons j l ih =>
      rw [scanFds_cons] at h
      split at h
      · rename_i hopen
        split at h
        · cases h
        · rename_i hclash
          obtain ⟨l₁, l₂, rfl, hi, hl₁⟩ := ih h
          refine ⟨j :: l₁, l₂, rfl, hi, fun x hx => ?_⟩
          rcases List.mem_cons.mp hx with rfl | hx
          · exact ⟨hopen, hclash⟩
          · exact hl₁ x hx
      · rename_i hclosed
        obtain rfl := Option.some.inj h
        exact ⟨[], l, rfl, hclosed, fun x hx => absurd hx List.not_mem_nil⟩

/-- The scan of a whole table. -/
theorem scanFds_finRange (h : scanFds fd devno (List.finRange maxFiles) = some i) :
    (fd i).status ≠ .opened ∧
      ∀ j, j < i → (fd j).status = .opened ∧ ¬ Clash devno (fd j).major := by
  obtain ⟨l₁, l₂, hl, hi, hbefore⟩ := scanFds_some h
  refine ⟨hi, fun j hj => hbefore j ?_⟩
  have hmem := List.mem_finRange j
  have hsorted := List.pairwise_lt_finRange maxFiles
  rw [hl] at hmem hsorted
  obtain ⟨-, htail, -⟩ := List.pairwise_append.mp hsorted
  rcases List.mem_append.mp hmem with hm | hm
  · exact hm
  rcases List.mem_cons.mp hm with rfl | hm
  · exact absurd hj (Fin.lt_irrefl j)
  · exact absurd ((List.pairwise_cons.mp htail).1 j hm) (Fin.lt_asymm hj)

/-- The descriptors that the scan looks at. -/
def scanned (fd : Fin maxFiles → Fildes) (devno : Word) : List (Fin maxFiles) → List (Fin maxFiles)
  | [] => []
  | i :: rest =>
    i :: if (fd i).status = .opened ∧ ¬ Clash devno (fd i).major then scanned fd devno rest else []

/-! ## The log -/

/-- The arrays that `di_open` indexes. -/
inductive OpenArray where
  | fdt | controldata | devnames | devtab
  deriving DecidableEq

/-- The number of elements. `devnames` has the names of the two keyboards only. -/
def OpenArray.size : OpenArray → Nat
  | .fdt => maxFiles
  | .controldata => maxDevice
  | .devnames => 2
  | .devtab => maxDevice

/-- An element of an array is used, or `dvopen` has been called and has answered. -/
inductive OpenEvent (φ : DevOp → Type) where
  | index (t : OpenArray) (i : Int)
  | answer (f : φ .dvopen) (rc : Int)

namespace Drivers

variable {σ : Type} {φ : DevOp → Type} {D : Drivers σ φ} {s : σ} {p : Slot}

/-- `fdt->dev_tab=devtab`. -/
def refreshed (D : Drivers σ φ) (s : σ) (t : Slot) : σ :=
  D.setFd s t 0 { D.fd s t 0 with devTab := 0 }

/-- Descriptor `i` has been filled and marked open. -/
def filled (D : Drivers σ φ) (s : σ) (t : Slot) (i : Fin maxFiles) (devno : Word) : σ :=
  D.setFd (D.refreshed s t) t i { major := devno, devTab := 0, status := .opened }

/-- `di_open`, with its log. -/
def loggedDiOpen (D : Drivers σ φ) (s : σ) (p : Slot) (devno : Word) :
    (Int × σ) × List (OpenEvent φ) :=
  if devno.toInt ≤ maxDevice then
    let t := D.home s p
    let s := D.refreshed s t
    let log := .index .fdt 0 ::
      (scanned (D.fd s t) devno (List.finRange maxFiles)).map fun i => .index .fdt i.val
    match scanFds (D.fd s t) devno (List.finRange maxFiles) with
    | none => ((-1, s), log)
    | some i =>
      let s := D.setFd s t i { major := devno, devTab := 0, status := .opened }
      let log := log ++ [.index .controldata i.val, .index .fdt i.val, .index .devnames devno.toInt,
        .index .devtab (D.fd s p i).devTab.val]
      let ((rc, s), f) := D.invoke (.openDev devno) s p i
      (if 0 < rc then (i.val, s) else (rc, s), log ++ [.answer f rc])
  else ((-1, s), [])

/-- The logged `di_open` returns and leaves what `di_open` does. -/
theorem loggedDiOpen_eq (s : σ) (p : Slot) (devno : Word) :
    (D.loggedDiOpen s p devno).1 = (D.diOpen s p devno).1 := by
  unfold loggedDiOpen diOpen refreshed
  split
  · dsimp only
    cases scanFds (D.fd (D.setFd s (D.home s p) 0 { D.fd s (D.home s p) 0 with devTab := 0 })
        (D.home s p)) devno (List.finRange maxFiles) with
    | none => rfl
    | some i => rfl
  · rfl

/-! ## The branches -/

/-- What the driver of entry 0 answers, asked once descriptor `i` has been filled. -/
def answer (D : Drivers σ φ) (s : σ) (p : Slot) (i : Fin maxFiles) (devno : Word) : Int × σ :=
  D.call (.openDev devno) (D.devtab s 0 .dvopen) (D.filled s p i devno) p

theorem devtab_filled {t : Slot} : D.devtab (D.filled s t i devno) = D.devtab s := by
  unfold filled refreshed
  rw [D.devtab_setFd, D.devtab_setFd]

/-- Only descriptor `i`, and the pointer of descriptor 0, are other than before. -/
theorem fd_filled {t : Slot} (j : Fin maxFiles) : D.fd (D.filled s t i devno) t j =
    if j = i then { major := devno, devTab := 0, status := .opened }
    else if j = 0 then { D.fd s t 0 with devTab := 0 } else D.fd s t j := by
  unfold filled refreshed
  rw [D.fd_setFd, Function.update_self, D.fd_setFd, Function.update_self]
  by_cases hj : j = i
  · rw [if_pos hj, hj, Function.update_self]
  · rw [if_neg hj, Function.update_of_ne hj]
    by_cases hj₀ : j = 0
    · rw [if_pos hj₀, hj₀, Function.update_self]
    · rw [if_neg hj₀, Function.update_of_ne hj₀]

/-- The driver leaves the descriptors as they have been filled. -/
theorem fd_answer : D.fd (D.answer s p i devno).2 = D.fd (D.filled s p i devno) :=
  D.fd_call _ _ _ _

/-- The device number is above the range. -/
theorem loggedDiOpen_above (h : ¬ devno.toInt ≤ maxDevice) :
    D.loggedDiOpen s p devno = ((-1, s), []) := if_neg h

/-- The log up to the end of the scan. -/
def scanLog (D : Drivers σ φ) (s : σ) (t : Slot) (devno : Word) : List (OpenEvent φ) :=
  .index .fdt 0 :: (scanned (D.fd (D.refreshed s t) t) devno (List.finRange maxFiles)).map
    fun i => .index .fdt i.val

/-- The scan comes to the descriptor that is filled. -/
theorem scan_refreshed (hdev : devno.toInt ≤ maxDevice) :
    scanFds (D.fd (D.refreshed s (D.home s p)) (D.home s p)) devno (List.finRange maxFiles)
      = D.freeFd s p devno := by
  unfold freeFd
  rw [if_pos hdev]
  exact D.scanFds_refresh s (D.home s p) devno

/-- No descriptor is free, or an open one excludes the device. -/
theorem loggedDiOpen_none (hdev : devno.toInt ≤ maxDevice) (h : D.freeFd s p devno = none) :
    D.loggedDiOpen s p devno
      = ((-1, D.refreshed s (D.home s p)), D.scanLog s (D.home s p) devno) := by
  unfold loggedDiOpen
  rw [if_pos hdev]
  dsimp only
  rw [scan_refreshed hdev, h]
  rfl

theorem freeFd_le (h : D.freeFd s p devno = some i) : devno.toInt ≤ maxDevice := by
  unfold freeFd at h
  split at h
  · assumption
  · cases h

/-- Descriptor `i` is filled and the driver asked. -/
theorem loggedDiOpen_some (hhome : D.home s p = p) (h : D.freeFd s p devno = some i) :
    D.loggedDiOpen s p devno =
      (if 0 < (D.answer s p i devno).1 then (↑i.val, (D.answer s p i devno).2)
        else D.answer s p i devno,
      D.scanLog s p devno ++ [.index .controldata i.val, .index .fdt i.val,
        .index .devnames devno.toInt, .index .devtab 0] ++
        [.answer (D.devtab s 0 .dvopen) (D.answer s p i devno).1]) := by
  have hdev := freeFd_le h
  have hscan := D.scan_refreshed (s := s) (p := p) hdev
  rw [hhome, h] at hscan
  have hbase : (D.fd (D.filled s p i devno) p i).devTab = 0 := by
    rw [fd_filled, if_pos rfl]
  have hinvoke : D.invoke (.openDev devno) (D.filled s p i devno) p i
      = (D.answer s p i devno, D.devtab s 0 .dvopen) := by
    unfold invoke answer
    rw [hbase, devtab_filled]
    rfl
  unfold filled at hinvoke hbase
  unfold loggedDiOpen
  rw [if_pos hdev, hhome]
  dsimp only
  rw [hscan]
  dsimp only
  rw [hinvoke, hbase]
  rfl

/-- It leaves what the driver leaves. -/
theorem loggedDiOpen_left (hhome : D.home s p = p) (h : D.freeFd s p devno = some i) :
    (D.loggedDiOpen s p devno).1.2 = (D.answer s p i devno).2 := by
  rw [loggedDiOpen_some hhome h]
  dsimp only
  split
  · rfl
  · rfl

/-- The scan of a process in its own slot. -/
theorem scan_of_freeFd (hhome : D.home s p = p) (h : D.freeFd s p devno = some i) :
    scanFds (D.fd s p) devno (List.finRange maxFiles) = some i := by
  have hdev := freeFd_le h
  unfold freeFd at h
  rwa [if_pos hdev, hhome] at h

end Drivers

end Xeros
