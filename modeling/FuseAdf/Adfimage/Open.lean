import FuseAdf.Adfimage.Basic
import FuseAdf.Adflib.RamDisk

/-!
# Opening an image

`adfimage_open` acquires the library, the device, the mounted device and the mounted volume one
after the other and gives all of them back when it cannot go on.  Every acquisition and release is
recorded.  For a writable volume the function also checks that the bitmap is valid, but a root
block that cannot be read passes the check.
-/

namespace FuseAdf

/-- A resource was acquired or released. -/
inductive ResourceEvent (Resource : Type)
  | acquire (resource : Resource)
  | release (resource : Resource)

/-- The events lead from a stack of held resources to another one: only the resource acquired last
is ever released. -/
inductive Unwinds {Resource : Type} :
    List Resource → List (ResourceEvent Resource) → List Resource → Prop
  | nil (held : List Resource) : Unwinds held [] held
  | acquire {held left : List Resource} {events : List (ResourceEvent Resource)}
      (resource : Resource) (h : Unwinds (resource :: held) events left) :
      Unwinds held (.acquire resource :: events) left
  | release {held left : List Resource} {events : List (ResourceEvent Resource)}
      (resource : Resource) (h : Unwinds held events left) :
      Unwinds (resource :: held) (.release resource :: events) left

theorem Unwinds.append {Resource : Type} {held middle left : List Resource}
    {events events' : List (ResourceEvent Resource)} (h : Unwinds held events middle)
    (h' : Unwinds middle events' left) : Unwinds held (events ++ events') left := by
  induction h with
  | nil held => exact h'
  | acquire resource _ ih => exact .acquire resource (ih h')
  | release resource _ ih => exact .release resource (ih h')

/-- `AdfAccessMode`. -/
inductive AdfAccessMode
  | readOnly
  | readWrite
deriving DecidableEq, Repr

/-- `ADF_BM_VALID`. -/
def adfBmValid : ℤ := -1

/-- What `adfimage_open` calls outside the program.  The calls that read blocks depend on the
property `ADF_PR_IGNORE_CHECKSUM_ERRORS`, which is set before them. -/
structure Devices (Dev Image : Type) where
  adfLibInit : RetCode
  adfDevOpen : CStr → AdfAccessMode → Option Dev
  adfDevMount : Bool → Dev → RetCode
  adfVolMount : Bool → Dev → ℤ → AdfAccessMode → Option (AdfVolume Image)
  adfReadRootBlock : Bool → AdfVolume Image → BitVec 32 → RetCode × AdfRootBlock
  /-- Whether the memory for the handle can be allocated. -/
  malloc : Bool
  /-- `st_blksize` of the image file. -/
  stat : CStr → ℕ

/-- What is held while an image is open. -/
inductive Resource (Dev Image : Type)
  | library
  | device (dev : Dev)
  | deviceMount (dev : Dev)
  | volumeMount (vol : AdfVolume Image)

/-- The record of acquisitions and releases. -/
abbrev Trace (Dev Image : Type) := List (ResourceEvent (Resource Dev Image))

section Open

variable {Dev Image : Type} (devices : Devices Dev Image)

def accessMode (readOnly : Bool) : AdfAccessMode := if readOnly then .readOnly else .readWrite

/-- `mount_dev`. -/
def mountDev (ignoreChecksumErrors : Bool) (adfFilename : CStr) (readOnly : Bool) :
    Option Dev × Trace Dev Image :=
  match devices.adfDevOpen adfFilename (accessMode readOnly) with
  | none => (none, [])
  | some dev =>
      if devices.adfDevMount ignoreChecksumErrors dev ≠ adfRcOk then
        (none, [.acquire (.device dev), .release (.device dev)])
      else (some dev, [.acquire (.device dev), .acquire (.deviceMount dev)])

/-- `mount_volume`; the partition number is converted to an `int`. -/
def mountVolume (ignoreChecksumErrors : Bool) (dev : Dev) (partition : BitVec 32)
    (readOnly : Bool) : Option (AdfVolume Image) :=
  devices.adfVolMount ignoreChecksumErrors dev partition.toInt (accessMode readOnly)

/-- `isBlockAllocationBitmapValid`: the error of a root block that cannot be read is returned as a
`bool`. -/
def isBlockAllocationBitmapValid (ignoreChecksumErrors : Bool) (vol : AdfVolume Image) : Bool :=
  let (rc, root) :=
    devices.adfReadRootBlock ignoreChecksumErrors vol (BitVec.ofInt 32 vol.rootBlock)
  if rc ≠ adfRcOk then rc != 0
  else root.bmFlag == adfBmValid

/-- The label `adfimage_open_error_cleanup_adflib`. -/
def cleanupAdflib : Trace Dev Image := [.release .library]

/-- The label `adfimage_open_error_cleanup_dev`. -/
def cleanupDev (dev : Dev) : Trace Dev Image :=
  .release (.deviceMount dev) :: .release (.device dev) :: cleanupAdflib

/-- The label `adfimage_open_error_cleanup_vol`. -/
def cleanupVol (dev : Dev) (vol : AdfVolume Image) : Trace Dev Image :=
  .release (.volumeMount vol) :: cleanupDev dev

/-- `adfimage_open`: the handle, or `none` for NULL, and the record. -/
def adfimageOpen (filename : CStr) (volume : BitVec 32) (readOnly ignoreChecksumErrors : Bool) :
    Option (Adfimage Image) × Trace Dev Image :=
  if devices.adfLibInit ≠ adfRcOk then (none, [])
  else
    let trace := [.acquire .library]
    match mountDev devices ignoreChecksumErrors filename readOnly with
    | (none, events) => (none, trace ++ events ++ cleanupAdflib)
    | (some dev, events) =>
        let trace := trace ++ events
        match mountVolume devices ignoreChecksumErrors dev volume readOnly with
        | none => (none, trace ++ cleanupDev dev)
        | some vol =>
            let trace := trace ++ [.acquire (.volumeMount vol)]
            if !readOnly && !isBlockAllocationBitmapValid devices ignoreChecksumErrors vol then
              (none, trace ++ cleanupVol dev vol)
            else if !devices.malloc then (none, trace ++ cleanupVol dev vol)
            else
              (some { vol := vol, cwd := ['/'], stBlksize := devices.stat filename, calls := [] },
                trace)

/-! ## What is given back -/

/-- The volume that is mounted, if the library, the device and the volume can all be opened. -/
def mountedVolume (filename : CStr) (volume : BitVec 32) (readOnly ignoreChecksumErrors : Bool) :
    Option (AdfVolume Image) :=
  if devices.adfLibInit ≠ adfRcOk then none
  else
    (mountDev devices ignoreChecksumErrors filename readOnly).1.bind fun dev ↦
      mountVolume devices ignoreChecksumErrors dev volume readOnly

theorem unwinds_mountDev_none {ignoreChecksumErrors readOnly : Bool} {filename : CStr}
    {events : Trace Dev Image}
    (h : mountDev devices ignoreChecksumErrors filename readOnly = (none, events))
    (held : List (Resource Dev Image)) : Unwinds held events held := by
  rw [mountDev] at h
  cases hopen : devices.adfDevOpen filename (accessMode readOnly) with
  | none =>
    simp only [hopen, Prod.mk.injEq, true_and] at h
    rw [← h]
    exact .nil held
  | some dev =>
    simp only [hopen] at h
    split_ifs at h with hmount
    · simp only [Prod.mk.injEq, true_and] at h
      rw [← h]
      exact .acquire _ (.release _ (.nil held))
    · simp at h

theorem unwinds_mountDev_some {ignoreChecksumErrors readOnly : Bool} {filename : CStr} {dev : Dev}
    {events : Trace Dev Image}
    (h : mountDev devices ignoreChecksumErrors filename readOnly = (some dev, events))
    (held : List (Resource Dev Image)) :
    Unwinds held events (.deviceMount dev :: .device dev :: held) := by
  rw [mountDev] at h
  cases hopen : devices.adfDevOpen filename (accessMode readOnly) with
  | none => simp [hopen] at h
  | some dev' =>
    simp only [hopen] at h
    split_ifs at h with hmount
    · simp at h
    · simp only [Prod.mk.injEq, Option.some.injEq] at h
      obtain ⟨rfl, rfl⟩ := h
      exact .acquire _ (.acquire _ (.nil _))

theorem unwinds_cleanupAdflib :
    Unwinds [.library] (cleanupAdflib : Trace Dev Image) [] :=
  .release _ (.nil _)

theorem unwinds_cleanupDev (dev : Dev) :
    Unwinds [.deviceMount dev, .device dev, .library] (cleanupDev dev : Trace Dev Image) [] :=
  .release _ (.release _ unwinds_cleanupAdflib)

theorem unwinds_cleanupVol (dev : Dev) (vol : AdfVolume Image) :
    Unwinds [.volumeMount vol, .deviceMount dev, .device dev, .library] (cleanupVol dev vol) [] :=
  .release _ (unwinds_cleanupDev dev)

/-- Nothing stays held when no handle is returned. -/
theorem unwinds_open_none {filename : CStr} {volume : BitVec 32}
    {readOnly ignoreChecksumErrors : Bool}
    (h : (adfimageOpen devices filename volume readOnly ignoreChecksumErrors).1 = none) :
    Unwinds [] (adfimageOpen devices filename volume readOnly ignoreChecksumErrors).2 [] := by
  unfold adfimageOpen at h ⊢
  by_cases hinit : devices.adfLibInit ≠ adfRcOk
  · rw [if_pos hinit]
    exact .nil []
  · rw [if_neg hinit] at h ⊢
    cases hdev : mountDev devices ignoreChecksumErrors filename readOnly with
    | mk opened events =>
      cases opened with
      | none =>
        apply Unwinds.append _ unwinds_cleanupAdflib
        exact .acquire _ (unwinds_mountDev_none devices hdev _)
      | some dev =>
        have hdevice := unwinds_mountDev_some devices hdev [.library]
        simp only [hdev] at h ⊢
        cases hvol : mountVolume devices ignoreChecksumErrors dev volume readOnly with
        | none => exact .acquire _ (hdevice.append (unwinds_cleanupDev dev))
        | some vol =>
          have hvolume := hdevice.append (.acquire (.volumeMount vol) (.nil _))
          simp only [hvol] at h ⊢
          split_ifs at h ⊢ with hbitmap hmalloc
          · exact .acquire _ (hvolume.append (unwinds_cleanupVol dev vol))
          · exact .acquire _ (hvolume.append (unwinds_cleanupVol dev vol))

/-- A handle is returned exactly when the volume can be mounted, its bitmap passes the check or is
not needed, and there is memory. -/
theorem open_eq_some_iff {filename : CStr} {volume : BitVec 32}
    {readOnly ignoreChecksumErrors : Bool} {adfimage : Adfimage Image} :
    (adfimageOpen devices filename volume readOnly ignoreChecksumErrors).1 = some adfimage ↔
      ∃ vol, mountedVolume devices filename volume readOnly ignoreChecksumErrors = some vol ∧
        (readOnly = true ∨
          isBlockAllocationBitmapValid devices ignoreChecksumErrors vol = true) ∧
        devices.malloc = true ∧
        { vol := vol, cwd := ['/'], stBlksize := devices.stat filename, calls := [] } =
          adfimage := by
  unfold adfimageOpen mountedVolume
  by_cases hinit : devices.adfLibInit ≠ adfRcOk
  · simp [hinit]
  · rw [if_neg hinit, if_neg hinit]
    cases mountDev devices ignoreChecksumErrors filename readOnly with
    | mk opened events =>
      cases opened with
      | none => simp
      | some dev =>
        simp only [Option.bind_some]
        cases mountVolume devices ignoreChecksumErrors dev volume readOnly with
        | none => simp
        | some vol =>
          simp only [Option.some.injEq, exists_eq_left']
          cases readOnly <;> cases hmalloc : devices.malloc <;>
          cases hbitmap : isBlockAllocationBitmapValid devices ignoreChecksumErrors vol <;> simp

/-- The root block of a volume, as the check of the bitmap reads it. -/
def readRoot (ignoreChecksumErrors : Bool) (vol : AdfVolume Image) : RetCode × AdfRootBlock :=
  devices.adfReadRootBlock ignoreChecksumErrors vol (BitVec.ofInt 32 vol.rootBlock)

theorem isBlockAllocationBitmapValid_iff (ignoreChecksumErrors : Bool) (vol : AdfVolume Image) :
    isBlockAllocationBitmapValid devices ignoreChecksumErrors vol = true ↔
      (readRoot devices ignoreChecksumErrors vol).1 ≠ adfRcOk ∨
        (readRoot devices ignoreChecksumErrors vol).2.bmFlag = adfBmValid := by
  change (if (readRoot devices ignoreChecksumErrors vol).1 ≠ adfRcOk then
      (readRoot devices ignoreChecksumErrors vol).1 != 0
    else (readRoot devices ignoreChecksumErrors vol).2.bmFlag == adfBmValid) = true ↔ _
  split_ifs with hrc
  · exact iff_of_true (bne_iff_ne.mpr hrc) (Or.inl hrc)
  · rw [beq_iff_eq]
    exact ⟨Or.inr, fun h ↦ h.resolve_left hrc⟩

/-- What opening for writing must do: a handle only for a volume whose root block was read and has
a valid bitmap, and otherwise everything given back. -/
def OpensVerified (filename : CStr) (volume : BitVec 32) (ignoreChecksumErrors : Bool) : Prop :=
  let (handle, trace) := adfimageOpen devices filename volume false ignoreChecksumErrors
  (∀ adfimage ∈ handle, (readRoot devices ignoreChecksumErrors adfimage.vol).1 = adfRcOk ∧
    (readRoot devices ignoreChecksumErrors adfimage.vol).2.bmFlag = adfBmValid) ∧
  (handle = none → Unwinds [] trace [])

/-- The check is right unless a volume is mounted whose root block cannot be read; then it is
passed. -/
theorem opensVerified_iff (filename : CStr) (volume : BitVec 32) (ignoreChecksumErrors : Bool) :
    OpensVerified devices filename volume ignoreChecksumErrors ↔
      ¬ (devices.malloc = true ∧
        ∃ vol, mountedVolume devices filename volume false ignoreChecksumErrors = some vol ∧
          (readRoot devices ignoreChecksumErrors vol).1 ≠ adfRcOk) := by
  constructor
  · rintro ⟨hverified, -⟩ ⟨hmalloc, vol, hvol, hrc⟩
    have hopen := (open_eq_some_iff devices).mpr ⟨vol, hvol,
      Or.inr ((isBlockAllocationBitmapValid_iff devices ignoreChecksumErrors vol).mpr
        (Or.inl hrc)), hmalloc, rfl⟩
    exact hrc (hverified _ hopen).1
  · intro hread
    refine ⟨fun adfimage hopen ↦ ?_, unwinds_open_none devices⟩
    obtain ⟨vol, hvol, hbitmap, hmalloc, rfl⟩ := (open_eq_some_iff devices).mp hopen
    have hrc : (readRoot devices ignoreChecksumErrors vol).1 = adfRcOk := by
      by_contra hrc
      exact hread ⟨hmalloc, vol, hvol, hrc⟩
    have hvalid := (isBlockAllocationBitmapValid_iff devices ignoreChecksumErrors vol).mp
      (hbitmap.resolve_left Bool.false_ne_true)
    exact ⟨hrc, hvalid.resolve_left (not_not.mpr hrc)⟩

end Open

/-- An image whose volume can be mounted but whose root block cannot be read. -/
def damaged : Devices Unit RamDisk where
  adfLibInit := adfRcOk
  adfDevOpen _ _ := some ()
  adfDevMount _ _ := adfRcOk
  adfVolMount _ _ _ _ := some RamDisk.mounted.vol
  adfReadRootBlock _ _ _ :=
    (1, { bmFlag := 0, asEntryBlock := RamDisk.newBlock .root "Disk".toList })
  malloc := true
  stat _ := 512

/-- The damaged volume is opened for writing. -/
theorem not_opensVerified_damaged :
    ¬ OpensVerified damaged "disk.adf".toList 0 false := by
  intro h
  have hopen : (adfimageOpen damaged "disk.adf".toList 0 false false).1 =
      some { vol := RamDisk.mounted.vol, cwd := ['/'], stBlksize := 512, calls := [] } := rfl
  exact absurd (h.1 _ hopen).1 (by decide)

end FuseAdf
