import Mathlib.Algebra.Ring.Int.Defs
import Mathlib.Algebra.Ring.Nat
import Mathlib.Data.List.Basic

/-!
# The sizes of the virtual disks

Model of `choose_disk_sizes` and `create_virtual_disks` of
`src/wubi/backends/win32/backend.py`. A FAT drive holds no file of 4 GB or
more, so there the root disk is split.

`allocated_le`: what is allocated is at most the installation size.
-/
namespace Wubi.Backend

/-- `info.*_size_mb` -/
structure DiskSizes where
  root : Int
  home : Int
  usr : Int
  swap : Int
  deriving DecidableEq

/-- mirrors src/wubi/backends/win32/backend.py:641-664 -/
def chooseDiskSizes (isFat : Bool) (totalSizeMb : Int) : DiskSizes :=
  let swap := 256
  let root := totalSizeMb - swap
  let sizes : DiskSizes :=
    if isFat then
      if root > 8500 then ⟨4000, root - 8000, 4000, swap⟩
      else if root > 5500 then ⟨root - 4000, 0, 4000, swap⟩
      else if root > 4000 then ⟨1500, 0, root - 1500, swap⟩
      else ⟨root, 0, 0, swap⟩
    else ⟨root, 0, 0, swap⟩
  if isFat ∧ sizes.home > 4000 then { sizes with home := 4000 } else sizes

/-- The megabytes that `create_virtual_disks` allocates: none for a size that
is not positive.
mirrors src/wubi/backends/win32/backend.py:128-134 and virtualdisk.py:39 -/
def DiskSizes.allocated (sizes : DiskSizes) : Nat :=
  ([sizes.root, sizes.home, sizes.usr, sizes.swap].map Int.toNat).sum

theorem allocated_le {isFat : Bool} {totalSizeMb : Int} (h : 256 ≤ totalSizeMb) :
    ((chooseDiskSizes isFat totalSizeMb).allocated : Int) ≤ totalSizeMb := by
  cases isFat with
  | false =>
    simp [chooseDiskSizes, DiskSizes.allocated]
    omega
  | true =>
    simp only [chooseDiskSizes, DiskSizes.allocated, if_true, true_and]
    split_ifs <;> simp_all <;> omega

/-! ## What is left out, and what a FAT drive holds -/

/-- The disks that `create_virtual_disks` creates, with their sizes.
mirrors src/wubi/backends/win32/backend.py:128-134 -/
def DiskSizes.files (sizes : DiskSizes) : List (String × Int) :=
  [("root", sizes.root), ("home", sizes.home), ("usr", sizes.usr), ("swap", sizes.swap)].filter
    fun file => file.2 ≠ 0

def DiskSizes.total (sizes : DiskSizes) : Int := sizes.root + sizes.home + sizes.usr + sizes.swap

/-- What is left for home is more than it gets. -/
def HomeCapped (isFat : Bool) (totalSizeMb : Int) : Prop :=
  isFat = true ∧ 4000 < totalSizeMb - 256 - 8000

/-- The bytes that a file on a FAT drive can hold. -/
def fatLimit : Int := 2 ^ 32 - 1

/-- The sizes divide up the whole, but for what home does not get, and a FAT
drive holds every file. -/
structure WellSplit (isFat : Bool) (totalSizeMb : Int) (sizes : DiskSizes) : Prop where
  root : 0 ≤ sizes.root
  home : 0 ≤ sizes.home
  usr : 0 ≤ sizes.usr
  swap : 0 ≤ sizes.swap
  total_le : sizes.total ≤ totalSizeMb
  total_eq : ¬ HomeCapped isFat totalSizeMb → sizes.total = totalSizeMb
  files : isFat = true → ∀ file ∈ sizes.files, file.2 * 1024 * 1024 ≤ fatLimit

theorem DiskSizes.files_le_iff {sizes : DiskSizes} :
    (∀ file ∈ sizes.files, file.2 * 1024 * 1024 ≤ fatLimit) ↔
      sizes.root ≤ 4095 ∧ sizes.home ≤ 4095 ∧ sizes.usr ≤ 4095 ∧ sizes.swap ≤ 4095 := by
  have hsize : ∀ n : Int, (n ≠ 0 → n * 1024 * 1024 ≤ fatLimit) ↔ n ≤ 4095 := by
    intro n
    unfold fatLimit
    omega
  simp only [files, List.mem_filter, decide_eq_true_eq, and_imp, List.forall_mem_cons, hsize]
  simp

/-- The largest file of a FAT drive: between the thresholds what is left for the
root disk may be more than a file can hold. -/
theorem chooseDiskSizes_fat_le_iff {totalSizeMb : Int} :
    (∀ file ∈ (chooseDiskSizes true totalSizeMb).files, file.2 * 1024 * 1024 ≤ fatLimit) ↔
      ¬ (8352 ≤ totalSizeMb ∧ totalSizeMb ≤ 8756) := by
  rw [DiskSizes.files_le_iff]
  simp only [chooseDiskSizes, if_true, true_and]
  split_ifs <;> simp_all <;> omega

theorem chooseDiskSizes_nonneg {isFat : Bool} {totalSizeMb : Int} (h : 256 ≤ totalSizeMb) :
    let sizes := chooseDiskSizes isFat totalSizeMb
    0 ≤ sizes.root ∧ 0 ≤ sizes.home ∧ 0 ≤ sizes.usr ∧ 0 ≤ sizes.swap := by
  cases isFat with
  | false =>
    simp [chooseDiskSizes]
    omega
  | true =>
    simp only [chooseDiskSizes, if_true, true_and]
    split_ifs <;> simp_all <;> omega

/-- Nothing is left over but what home does not get. -/
theorem chooseDiskSizes_total {isFat : Bool} {totalSizeMb : Int} :
    (chooseDiskSizes isFat totalSizeMb).total ≤ totalSizeMb ∧
      (¬ HomeCapped isFat totalSizeMb →
        (chooseDiskSizes isFat totalSizeMb).total = totalSizeMb) := by
  cases isFat with
  | false => simp [chooseDiskSizes, DiskSizes.total]
  | true =>
    simp only [chooseDiskSizes, DiskSizes.total, HomeCapped, if_true, true_and]
    split_ifs <;> simp_all <;> omega

theorem wellSplit_iff {isFat : Bool} {totalSizeMb : Int} (h : 256 ≤ totalSizeMb) :
    WellSplit isFat totalSizeMb (chooseDiskSizes isFat totalSizeMb) ↔
      ¬ (isFat = true ∧ 8352 ≤ totalSizeMb ∧ totalSizeMb ≤ 8756) := by
  constructor
  · rintro hsplit ⟨rfl, hbetween⟩
    exact chooseDiskSizes_fat_le_iff.1 (hsplit.files rfl) hbetween
  · intro hout
    obtain ⟨hroot, hhome, husr, hswap⟩ := @chooseDiskSizes_nonneg isFat totalSizeMb h
    obtain ⟨hle, heq⟩ := @chooseDiskSizes_total isFat totalSizeMb
    refine ⟨hroot, hhome, husr, hswap, hle, heq, ?_⟩
    rintro rfl
    exact chooseDiskSizes_fat_le_iff.2 fun hbetween => hout ⟨rfl, hbetween⟩

/-- On a FAT drive home gets 4000 MB, and 7744 MB are left. -/
theorem wellSplit_homeCapped : HomeCapped true 20000 ∧
    chooseDiskSizes true 20000 = ⟨4000, 4000, 4000, 256⟩ ∧
    WellSplit true 20000 (chooseDiskSizes true 20000) :=
  ⟨⟨rfl, by decide⟩, by decide, (wellSplit_iff (by decide)).2 (by decide)⟩

/-- The root disk of 4244 MB. -/
theorem not_wellSplit : ¬ WellSplit true 8500 (chooseDiskSizes true 8500) := by
  intro h
  exact absurd (h.files rfl ("root", 4244) (by decide)) (by decide)

end Wubi.Backend
