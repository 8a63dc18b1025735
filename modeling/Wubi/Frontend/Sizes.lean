import Wubi.Frontend.Page

/-!
# Drives that are listed without a size

`populate_drive_list` and `populate_size_list` of `InstallationPage` in
`src/wubi/frontends/win32/installation_page.py` filter by two inequalities. The
list of drives wants whole gigabytes of 1000 MB that are more than the limits of
the distro and 100 MB. The list of sizes wants the ISO and 100 MB to fit beside
the size, and the size to reach the limit in steps of 1000 MB. The flag for
skipping the check lifts the first inequality, and of the second only the limit.

Results:
* `sizeList_ne_nil_iff`: some size is listed if and only if the least one that
  reaches the limit is at most 30 GB and fits.
* `selectable_iff`: so every listed drive has sizes if and only if that one fits
  on each.
* `selectable_of_round`: it does where the check is on and the limit is a round
  number of gigabytes.
-/
namespace Wubi.Frontend

/-- The drive is added to the list.
mirrors src/wubi/frontends/win32/installation_page.py:88-94 -/
def Offered (env : PageEnv) (skip : Bool) (d : PageDistro) (drive : Drive) : Prop :=
  drive ∈ env.drives ∧ drive.usable = true ∧
    (skip = true ∨ minSpaceMb d < driveSpaceMb drive)

/-- Every drive in the list has a size to select. -/
def Selectable (env : PageEnv) (skip : Bool) (d : PageDistro) : Prop :=
  ∀ drive, Offered env skip d drive → sizeList skip d drive ≠ []

/-- The least number of gigabytes that the limit lets through. -/
def leastSize (skip : Bool) (d : PageDistro) : Nat :=
  if skip then 1 else max 1 ((d.minDiskSpaceMb + 999) / 1000)

/-- The least size is one of the 30, and fits beside the ISO. -/
def LeastFits (skip : Bool) (d : PageDistro) (drive : Drive) : Prop :=
  leastSize skip d ≤ 30 ∧
    (leastSize skip d * 1000 + d.maxIsoSize / mib + 100) * mib ≤ drive.freeBytes

section
variable {env : PageEnv} {skip : Bool} {d : PageDistro} {drive : Drive} {s : Page} {i : Nat}

theorem mem_driveList {text : Str} : text ∈ driveList env skip d ↔ ∃ drive,
    Offered env skip d drive ∧
      text = drive.path ++ ' ' :: env.freeText (driveSpaceMb drive / 1000) := by
  unfold driveList Offered
  simp only [List.mem_map, List.mem_filter, Bool.and_eq_true, Bool.or_eq_true, decide_eq_true_eq]
  constructor
  · intro hboth
    obtain ⟨drive, h, rfl⟩ := hboth
    exact ⟨drive, h, rfl⟩
  · intro hboth
    obtain ⟨drive, h, rfl⟩ := hboth
    exact ⟨drive, h, rfl⟩

/-- Without a size the handler raises. -/
theorem selectDefaultSize_nil : selectDefaultSize [] s = .error s := by
  unfold selectDefaultSize
  simp only [List.find?_nil, List.length_nil, Nat.zero_div, List.getElem?_nil]
  split
  · split <;> rfl
  · split <;> rfl
  · rfl

theorem leastSize_pos : 1 ≤ leastSize skip d := by
  unfold leastSize
  split <;> omega

theorem leastSize_le_iff (hi : 1 ≤ i) :
    leastSize skip d ≤ i ↔ skip = true ∨ d.minDiskSpaceMb ≤ i * 1000 := by
  unfold leastSize
  cases skip with
  | true => simp [hi]
  | false =>
    simp only [Bool.false_eq_true, if_false, false_or]
    omega

theorem mem_sizeList_skip : i ∈ sizeList skip d drive ↔ 1 ≤ i ∧ i ≤ 30 ∧
    (skip = true ∨ d.minDiskSpaceMb ≤ i * 1000) ∧
      (i * 1000 + d.maxIsoSize / mib + 100) * mib ≤ drive.freeBytes := by
  unfold sizeList
  simp only [List.mem_filter, mem_range_iff, Bool.and_eq_true, Bool.or_eq_true, decide_eq_true_eq,
    and_assoc]

theorem sizeList_ne_nil_iff : sizeList skip d drive ≠ [] ↔ LeastFits skip d drive := by
  constructor
  · intro h
    obtain ⟨i, hi⟩ := List.exists_mem_of_ne_nil _ h
    obtain ⟨h1, h30, hlimit, hfit⟩ := mem_sizeList_skip.1 hi
    have hle := (leastSize_le_iff h1).2 hlimit
    refine ⟨by omega, Nat.le_trans (Nat.mul_le_mul_right mib ?_) hfit⟩
    omega
  · intro hboth
    obtain ⟨h30, hfit⟩ := hboth
    refine List.ne_nil_of_mem (a := leastSize skip d) (mem_sizeList_skip.2 ⟨leastSize_pos, h30, ?_, hfit⟩)
    exact (leastSize_le_iff leastSize_pos).1 (Nat.le_refl _)

/-- On such a drive the handler raises once the drive is selected. -/
theorem populateSizeList_nil (hd : s.distro = some d) (hdrive : getDrive env s = some drive)
    (h : ¬ LeastFits s.skipSizeCheck d drive) : ∃ s', populateSizeList env s = .error s' := by
  have hnil : sizeList s.skipSizeCheck d drive = [] := by
    by_contra hne
    exact h (sizeList_ne_nil_iff.1 hne)
  refine ⟨{ s with sizeItems := s.sizeItems ++ [] }, ?_⟩
  simp only [populateSizeList, hd, hdrive, hnil]
  exact selectDefaultSize_nil

theorem leastFits_of_round {k : Nat} (hmin : d.minDiskSpaceMb = k * 1000) (h1 : 1 ≤ k)
    (h30 : k ≤ 30) (h : minSpaceMb d < driveSpaceMb drive) : LeastFits false d drive := by
  have hleast : leastSize false d = k := by
    simp only [leastSize, Bool.false_eq_true, if_false]
    omega
  have hfree : driveSpaceMb drive * mib ≤ drive.freeBytes := by
    unfold driveSpaceMb mib
    omega
  rw [LeastFits, hleast]
  refine ⟨h30, Nat.le_trans (Nat.mul_le_mul_right mib ?_) hfree⟩
  unfold minSpaceMb at h
  omega

end

theorem selectable_of_round (env : PageEnv) (d : PageDistro) (k : Nat)
    (hmin : d.minDiskSpaceMb = k * 1000) (h1 : 1 ≤ k) (h30 : k ≤ 30) : Selectable env false d := by
  rintro drive ⟨-, -, hskip | hspace⟩
  · cases hskip
  · exact sizeList_ne_nil_iff.2 (leastFits_of_round hmin h1 h30 hspace)

theorem selectable_iff (env : PageEnv) (skip : Bool) (d : PageDistro) :
    Selectable env skip d ↔ ∀ drive, Offered env skip d drive → LeastFits skip d drive := by
  unfold Selectable
  simp only [sizeList_ne_nil_iff]

/-! ## Drives without a size -/

def limits (minDiskSpaceMb maxIsoSize : Nat) : PageDistro :=
  ⟨"Archlive".toList, "i386".toList, minDiskSpaceMb, maxIsoSize, 256⟩

/-- One drive with that many megabytes free. -/
def oneDrive (freeMb : Nat) : PageEnv :=
  { twoDrives with drives := [⟨"C:".toList, true, false, freeMb * mib⟩] }

/-- The user agrees to go on with 1.5 GB, or the limit is not a round number. -/
theorem not_selectable :
    (∃ s, checkDiskFreeSpace (oneDrive 1536) true (limits 3000 900000000) {} = .ok s ∧
      s.skipSizeCheck = true) ∧
    ¬ Selectable (oneDrive 1536) true (limits 3000 900000000) ∧
    ¬ Selectable (oneDrive 4096) false (limits 3001 0) := by
  refine ⟨⟨{ skipSizeCheck := true }, ?_, rfl⟩, ?_, ?_⟩
  · simp only [checkDiskFreeSpace]
    rw [if_neg (by decide), if_neg (by decide), if_pos (by decide), if_pos trivial]
  · intro h
    exact h _ ⟨List.mem_singleton_self _, rfl, .inl rfl⟩ (by decide)
  · intro h
    exact h _ ⟨List.mem_singleton_self _, rfl, .inr (by decide)⟩ (by decide)

end Wubi.Frontend
