import FuseAdf.Adffs.Lookup
import FuseAdf.Adflib.RamDisk

/-!
# Changing permissions

The access word of an entry denies: a set bit takes a permission away.  `adfimageSetperm` sets the
bit of a permission that is not granted, and to clear the bit of one that is granted it writes
`access &= !MASK`, whose right side is zero.  Every granted permission therefore clears the whole
word, the bits set before it included.  This module says for which modes and words the result is
still the one that was asked for.  Links are listed without an access word, so for them a change that
succeeds is not seen at all.
-/

namespace FuseAdf

open Adfimage NameWalk

variable {Image File : Type} (L : Adflib Image File)

/-- The permissions that an access word grants. -/
def wordPerms (access : BitVec 32) : BitVec 32 :=
  adfimageGetperm L { type := .file, adflibEntry := { AdfEntry.zero with access := access } }

/-- A new access word grants exactly the user permissions of a mode and differs from the old one in
no other bit. -/
def WordExact (r w e : Fin 32) (mode old new : BitVec 32) : Prop :=
  wordPerms L new = chmodPerms mode ∧
    ∀ bit, bit ≠ r → bit ≠ w → bit ≠ e → new.getLsbD bit = old.getLsbD bit

/-- No granted permission comes after one that is not granted, and the word that the granted ones
clear has no other bits. -/
def Survives (r w e : Fin 32) (mode old : BitVec 32) : Prop :=
  (mode &&& sIXUsr ≠ 0 → mode &&& sIWUsr ≠ 0) ∧ (mode &&& sIWUsr ≠ 0 → mode &&& sIRUsr ≠ 0) ∧
    (mode &&& sIRUsr ≠ 0 →
      ∀ bit, bit ≠ r → bit ≠ w → bit ≠ e → old.getLsbD bit = false)

instance (r w e : Fin 32) (mode old : BitVec 32) : Decidable (Survives r w e mode old) :=
  inferInstanceAs (Decidable (_ ∧ _ ∧ _))

section Bits

variable (read write execute read' write' execute' : Prop) [Decidable read] [Decidable write]
  [Decidable execute] [Decidable read'] [Decidable write'] [Decidable execute']

/-- A permission word put together from three conditions. -/
def permBits : BitVec 32 :=
  (if read then adfPermRead else 0) ||| (if write then adfPermWrite else 0) |||
    (if execute then adfPermExecute else 0)

/-- The conditions can be read back. -/
theorem permBits_and :
    (permBits read write execute &&& adfPermRead ≠ 0 ↔ read) ∧
      (permBits read write execute &&& adfPermWrite ≠ 0 ↔ write) ∧
      (permBits read write execute &&& adfPermExecute ≠ 0 ↔ execute) := by
  unfold permBits
  by_cases hr : read <;> by_cases hw : write <;> by_cases hx : execute <;>
    simp only [hr, hw, hx, if_true, if_false, iff_true, iff_false] <;> decide

theorem permBits_eq_iff :
    permBits read write execute = permBits read' write' execute' ↔
      (read ↔ read') ∧ (write ↔ write') ∧ (execute ↔ execute') := by
  constructor
  · intro h
    have hleft := permBits_and read write execute
    have hright := permBits_and read' write' execute'
    rw [h] at hleft
    exact ⟨hleft.1.symm.trans hright.1, hleft.2.1.symm.trans hright.2.1,
      hleft.2.2.symm.trans hright.2.2⟩
  · intro ⟨hr, hw, hx⟩
    simp only [permBits, hr, hw, hx]

end Bits

theorem chmodPerms_eq (mode : BitVec 32) :
    chmodPerms mode =
      permBits (mode &&& sIRUsr ≠ 0) (mode &&& sIWUsr ≠ 0) (mode &&& sIXUsr ≠ 0) := rfl

theorem wordPerms_eq {r w e : Fin 32} (hbits : L.AccessBits r w e) (access : BitVec 32) :
    wordPerms L access = permBits (access.getLsbD r = false) (access.getLsbD w = false)
      (access.getLsbD e = false) := by
  unfold wordPerms adfimageGetperm permBits
  rw [hbits.hasR, hbits.hasW, hbits.hasE]
  cases access.getLsbD r <;> cases access.getLsbD w <;> cases access.getLsbD e <;> rfl

theorem logicalNot_twoPow (bit : Fin 32) : logicalNot (BitVec.twoPow 32 bit) = 0 := by
  have hne : BitVec.twoPow 32 bit ≠ 0 := by
    intro h
    have hbit := congrArg (fun word ↦ word.getLsbD bit) h
    simp at hbit
  rw [logicalNot, if_neg hne]

/-- One update: a granted permission clears everything, one that is not granted sets its bit. -/
theorem getLsbD_updateAccess (perms perm access : BitVec 32) (mask bit : Fin 32) :
    (updateAccess perms perm (BitVec.twoPow 32 mask) access).getLsbD bit =
      if perms &&& perm ≠ 0 then false else access.getLsbD bit || decide (bit = mask) := by
  unfold updateAccess
  split_ifs
  · rw [logicalNot_twoPow]
    simp
  · simp [Fin.ext_iff, eq_comm]

variable {L} {r w e : Fin 32}

theorem getLsbD_setpermAccess (hbits : L.AccessBits r w e) (mode old : BitVec 32) (bit : Fin 32) :
    (setpermAccess L (chmodPerms mode) old).getLsbD bit =
      if mode &&& sIXUsr ≠ 0 then false
      else (if mode &&& sIWUsr ≠ 0 then false
        else (if mode &&& sIRUsr ≠ 0 then false else old.getLsbD bit || decide (bit = r)) ||
          decide (bit = w)) || decide (bit = e) := by
  obtain ⟨hr, hw, hx⟩ := permBits_and (mode &&& sIRUsr ≠ 0) (mode &&& sIWUsr ≠ 0)
    (mode &&& sIXUsr ≠ 0)
  rw [setpermAccess, hbits.maskR, hbits.maskW, hbits.maskE, getLsbD_updateAccess,
    getLsbD_updateAccess, getLsbD_updateAccess, chmodPerms_eq]
  simp only [hr, hw, hx]

/-- The three updates together: a bit is clear if a permission from its own one on is granted, and
all other bits are clear as soon as any is. -/
theorem setpermAccess_bits (hbits : L.AccessBits r w e) (mode old : BitVec 32) :
    ((setpermAccess L (chmodPerms mode) old).getLsbD r = false ↔
        mode &&& sIXUsr ≠ 0 ∨ mode &&& sIWUsr ≠ 0 ∨ mode &&& sIRUsr ≠ 0) ∧
      ((setpermAccess L (chmodPerms mode) old).getLsbD w = false ↔
        mode &&& sIXUsr ≠ 0 ∨ mode &&& sIWUsr ≠ 0) ∧
      ((setpermAccess L (chmodPerms mode) old).getLsbD e = false ↔ mode &&& sIXUsr ≠ 0) ∧
      ∀ bit, bit ≠ r → bit ≠ w → bit ≠ e →
        (setpermAccess L (chmodPerms mode) old).getLsbD bit =
          if mode &&& sIXUsr ≠ 0 ∨ mode &&& sIWUsr ≠ 0 ∨ mode &&& sIRUsr ≠ 0 then false
          else old.getLsbD bit := by
  have hrw := hbits.r_ne_w
  have hre := hbits.r_ne_e
  have hwe := hbits.w_ne_e
  simp only [getLsbD_setpermAccess hbits mode old]
  by_cases hx : mode &&& sIXUsr = 0#32
  · by_cases hw : mode &&& sIWUsr = 0#32
    · by_cases hr : mode &&& sIRUsr = 0#32 <;> simp +contextual [hx, hw, hr, hrw, hre, hwe]
    · simp +contextual [hx, hw, hre, hwe]
  · simp [hx]

/-- The word grants what the mode asks for if no granted permission comes after one that is not. -/
theorem wordPerms_setpermAccess_iff (hbits : L.AccessBits r w e) (mode old : BitVec 32) :
    wordPerms L (setpermAccess L (chmodPerms mode) old) = chmodPerms mode ↔
      (mode &&& sIXUsr ≠ 0 → mode &&& sIWUsr ≠ 0) ∧ (mode &&& sIWUsr ≠ 0 → mode &&& sIRUsr ≠ 0) := by
  obtain ⟨hread, hwrite, hexecute, -⟩ := setpermAccess_bits hbits mode old
  rw [wordPerms_eq L hbits, chmodPerms_eq, permBits_eq_iff, ← chmodPerms_eq, hread, hwrite,
    hexecute]
  constructor
  · intro ⟨hr, hw, _⟩
    exact ⟨fun hx ↦ hw.mp (Or.inl hx), fun hw' ↦ hr.mp (Or.inr (Or.inl hw'))⟩
  · intro ⟨hxw, hwr⟩
    exact ⟨⟨fun h ↦ h.elim (fun hx ↦ hwr (hxw hx)) (fun h ↦ h.elim hwr id),
      fun h ↦ Or.inr (Or.inr h)⟩, ⟨fun h ↦ h.elim hxw id, Or.inr⟩, Iff.rfl⟩

theorem wordExact_setpermAccess_iff (hbits : L.AccessBits r w e) (mode old : BitVec 32) :
    WordExact L r w e mode old (setpermAccess L (chmodPerms mode) old) ↔
      Survives r w e mode old := by
  obtain ⟨-, -, -, hother⟩ := setpermAccess_bits hbits mode old
  unfold WordExact Survives
  rw [wordPerms_setpermAccess_iff hbits]
  constructor
  · intro ⟨⟨hxw, hwr⟩, hsame⟩
    refine ⟨hxw, hwr, ?_⟩
    intro hgranted bit hbr hbw hbe
    have hbit := hsame bit hbr hbw hbe
    rw [hother bit hbr hbw hbe, if_pos (Or.inr (Or.inr hgranted))] at hbit
    exact hbit.symm
  · intro ⟨hxw, hwr, hclear⟩
    refine ⟨⟨hxw, hwr⟩, ?_⟩
    intro bit hbr hbw hbe
    rw [hother bit hbr hbw hbe]
    split_ifs with hgranted
    · have hread : mode &&& sIRUsr ≠ 0 :=
        hgranted.elim (fun hx ↦ hwr (hxw hx)) (fun h ↦ h.elim hwr id)
      exact (hclear hread bit hbr hbw hbe).symm
    · rfl

theorem and_singleBit (mode : BitVec 32) {mask : BitVec 32} {bit : ℕ}
    (hmask : mask = BitVec.twoPow 32 bit) :
    mode &&& mask = if mode &&& mask ≠ 0 then mask else 0 := by
  split_ifs with h
  · rw [hmask, BitVec.and_twoPow] at h ⊢
    split_ifs at h ⊢
    · rfl
    · exact absurd rfl h
  · exact not_ne_iff.mp h

/-- The user bits of a mode, one by one. -/
theorem and_userBits (mode : BitVec 32) :
    mode &&& (sIRUsr ||| sIWUsr ||| sIXUsr) =
      (if mode &&& sIRUsr ≠ 0 then sIRUsr else 0) ||| (if mode &&& sIWUsr ≠ 0 then sIWUsr else 0) |||
        (if mode &&& sIXUsr ≠ 0 then sIXUsr else 0) := by
  have hr := and_singleBit mode (show sIRUsr = BitVec.twoPow 32 8 by decide)
  have hw := and_singleBit mode (show sIWUsr = BitVec.twoPow 32 7 by decide)
  have hx := and_singleBit mode (show sIXUsr = BitVec.twoPow 32 6 by decide)
  calc
    mode &&& (sIRUsr ||| sIWUsr ||| sIXUsr) =
        (mode &&& sIRUsr) ||| (mode &&& sIWUsr) ||| (mode &&& sIXUsr) := by
      rw [BitVec.and_or_distrib_left, BitVec.and_or_distrib_left]
    _ = _ := by rw [← hr, ← hw, ← hx]

theorem fileMode_user (mode : BitVec 32) :
    fileMode (chmodPerms mode) &&& (sIRUsr ||| sIWUsr ||| sIXUsr) =
      mode &&& (sIRUsr ||| sIWUsr ||| sIXUsr) := by
  obtain ⟨hr, hw, hx⟩ := permBits_and (mode &&& sIRUsr ≠ 0) (mode &&& sIWUsr ≠ 0)
    (mode &&& sIXUsr ≠ 0)
  rw [and_userBits mode, fileMode, chmodPerms_eq]
  simp only [hr, hw, hx]
  split_ifs <;> decide

/-- Entering a directory is always allowed, so only two of its bits are reported. -/
theorem directoryMode_user (mode : BitVec 32) :
    directoryMode (chmodPerms mode) &&& (sIRUsr ||| sIWUsr) = mode &&& (sIRUsr ||| sIWUsr) := by
  obtain ⟨hr, hw, -⟩ := permBits_and (mode &&& sIRUsr ≠ 0) (mode &&& sIWUsr ≠ 0)
    (mode &&& sIXUsr ≠ 0)
  have hrBit := and_singleBit mode (show sIRUsr = BitVec.twoPow 32 8 by decide)
  have hwBit := and_singleBit mode (show sIWUsr = BitVec.twoPow 32 7 by decide)
  rw [BitVec.and_or_distrib_left (x := mode), hrBit, hwBit, directoryMode, chmodPerms_eq]
  simp only [hr, hw]
  split_ifs <;> decide

/-! ## The round trip -/

/-- What a change of permissions that succeeded should have done: to the block that was written, to
all listings, to the entry that is found afterwards, and for a following `adffs_getattr`.  A relative
path is looked at where it still leads to the same directory. -/
structure ChmodExact (L : Adflib Image File) (env : Env) (r w e : Fin 32)
    (adfimage : Adfimage Image) (path : CStr) (mode : BitVec 32) : Prop where
  word : ∃ old new,
    L.adfReadEntryBlock adfimage.vol.image
      (adfimageGetdentry L adfimage path).1.adflibEntry.sector = some old ∧
    L.adfReadEntryBlock (adffsChmod L adfimage path mode).2.vol.image
      (adfimageGetdentry L adfimage path).1.adflibEntry.sector = some new ∧
    new = { old with access := new.access, checkSum := new.checkSum } ∧
    WordExact L r w e mode old.access new.access ∧
    ∀ dir, L.adfGetDirEnt (adffsChmod L adfimage path mode).2.vol.image dir =
      (L.adfGetDirEnt adfimage.vol.image dir).map (Adflib.relist
        (adfimageGetdentry L adfimage path).1.adflibEntry.sector new.access)
  otherBlocks : ∀ other, other ≠ (adfimageGetdentry L adfimage path).1.adflibEntry.sector →
    L.adfReadEntryBlock (adffsChmod L adfimage path mode).2.vol.image other =
      L.adfReadEntryBlock adfimage.vol.image other
  listed : adfimageGetperm L (dentryOf (adflibListFind (basename path)
    (L.adfGetDirEnt (adffsChmod L adfimage path mode).2.vol.image
      (lastDir L adfimage (dirname path))))) = chmodPerms mode
  lookedUp : path.head? = some '/' ∨
      lastDir L (adffsChmod L adfimage path mode).2 (dirname path) =
        lastDir L adfimage (dirname path) →
    adfimageGetperm L (adfimageGetdentry L (adffsChmod L adfimage path mode).2 path).1 =
      chmodPerms mode
  attributes : ∀ dir entry, namedDir L adfimage (dirname path) = some dir →
    (path.head? = some '/' ∨
      namedDir L (adffsChmod L adfimage path mode).2 (dirname path) = some dir) →
    adflibListFind (basename path) (L.adfGetDirEnt adfimage.vol.image dir) = some entry →
    (dentryType entry.type = .file ∨ dentryType entry.type = .linkfile →
      (adffsGetattr L env (adffsChmod L adfimage path mode).2 path).1 = 0 ∧
      (adffsGetattr L env (adffsChmod L adfimage path mode).2 path).2.1.stMode &&&
        (sIRUsr ||| sIWUsr ||| sIXUsr) = mode &&& (sIRUsr ||| sIWUsr ||| sIXUsr)) ∧
    (dentryType entry.type = .directory ∨ dentryType entry.type = .linkdir →
      (adffsGetattr L env (adffsChmod L adfimage path mode).2 path).1 = 0 ∧
      (adffsGetattr L env (adffsChmod L adfimage path mode).2 path).2.1.stMode &&&
        (sIRUsr ||| sIWUsr) = mode &&& (sIRUsr ||| sIWUsr))

variable (L) in
/-- The entry is listed with its access word, or it grants what the mode asks for without it. -/
def ShowsPerms (dentry : AdfimageDentry) (mode : BitVec 32) : Prop :=
  dentry.adflibEntry.type = .file ∨ dentry.adflibEntry.type = .dir ∨
    adfimageGetperm L dentry = chmodPerms mode

instance (dentry : AdfimageDentry) (mode : BitVec 32) : Decidable (ShowsPerms L dentry mode) :=
  inferInstanceAs (Decidable (_ ∨ _ ∨ _))

/-- A change of permissions that succeeded has read a block and written it back. -/
theorem chmod_success {adfimage : Adfimage Image} {path : CStr} {mode : BitVec 32}
    (h : (adffsChmod L adfimage path mode).1 = 0) :
    ∃ old, L.adfReadEntryBlock adfimage.vol.image
        (adfimageGetdentry L adfimage path).1.adflibEntry.sector = some old ∧
      (L.adfWriteEntryBlock adfimage.vol.image
        (adfimageGetdentry L adfimage path).1.adflibEntry.sector
        { old with access := setpermAccess L (chmodPerms mode) old.access }).2 = adfRcOk ∧
      (adffsChmod L adfimage path mode).2.vol.image = (L.adfWriteEntryBlock adfimage.vol.image
        (adfimageGetdentry L adfimage path).1.adflibEntry.sector
        { old with access := setpermAccess L (chmodPerms mode) old.access }).1 ∧
      (adffsChmod L adfimage path mode).2.vol.rootBlock = adfimage.vol.rootBlock ∧
      (adfimageGetdentry L adfimage path).1.type ≠ .none := by
  have himage := getdentry_image L adfimage path
  have hroot := getdentry_rootBlock L adfimage path
  unfold adffsChmod adfimageSetperm at h ⊢
  generalize adfimageGetdentry L adfimage path = found at himage hroot h ⊢
  rcases found with ⟨dentry, after⟩
  dsimp only at himage hroot h ⊢
  split_ifs at h ⊢ with hvalid
  · exact absurd h eInval_ne_zero
  · rw [himage] at h ⊢
    cases hread : L.adfReadEntryBlock adfimage.vol.image dentry.adflibEntry.sector with
    | none =>
      rw [hread] at h
      exact absurd h eInval_ne_zero
    | some old =>
      rw [hread] at h
      refine ⟨old, rfl, ?_⟩
      dsimp only at h ⊢
      cases hrc : (L.adfWriteEntryBlock adfimage.vol.image dentry.adflibEntry.sector
        { old with access := setpermAccess L (chmodPerms mode) old.access }).2 == adfRcOk with
      | false =>
        rw [hrc] at h
        exact absurd h eInval_ne_zero
      | true =>
        refine ⟨eq_of_beq hrc, rfl, hroot, fun hnone ↦ hvalid ?_⟩
        rw [adfimageDentryValid, hnone]
        rfl

theorem relist_name (sector : Sector) (access : BitVec 32) (entry : AdfEntry) :
    (Adflib.relist sector access entry).name = entry.name := by
  unfold Adflib.relist
  split_ifs <;> rfl

theorem adflibListFind_relist (sector : Sector) (access : BitVec 32) (name : CStr)
    (entries : List AdfEntry) :
    adflibListFind name (entries.map (Adflib.relist sector access)) =
      (adflibListFind name entries).map (Adflib.relist sector access) := by
  induction entries with
  | nil => rfl
  | cons entry rest ih =>
    rw [List.map_cons, adflibListFind, adflibListFind, relist_name]
    split_ifs
    · rfl
    · exact ih

theorem ne_root_of_relative {path : CStr} (h : pathstrGetRelative path ≠ []) : path ≠ ['/'] := by
  rintro rfl
  exact h rfl

/-- What is granted by the entry as it is listed after the block has been written. -/
theorem getperm_relist (sector : Sector) (access : BitVec 32) {entry : AdfEntry}
    (h : entry.sector = sector) :
    adfimageGetperm L (dentryOf (some (Adflib.relist sector access entry))) =
      if entry.type = .file ∨ entry.type = .dir then wordPerms L access
      else adfimageGetperm L (dentryOf (some entry)) := by
  by_cases htype : entry.type = .file ∨ entry.type = .dir
  · rw [Adflib.relist, if_pos ⟨h, htype⟩, if_pos htype]
    rfl
  · rw [Adflib.relist, if_neg fun hlisted ↦ htype hlisted.2, if_neg htype]

/-- Where a change of permissions succeeds there is an entry, and it is listed again. -/
theorem listed_chmod (hblocks : L.EntryBlocks) {adfimage : Adfimage Image} {path : CStr}
    {mode : BitVec 32} (hpath : path ≠ ['/']) (h : (adffsChmod L adfimage path mode).1 = 0)
    {old : AdfEntryBlock} (hold : L.adfReadEntryBlock adfimage.vol.image
      (adfimageGetdentry L adfimage path).1.adflibEntry.sector = some old) :
    ∃ entry, (adfimageGetdentry L adfimage path).1 = dentryOf (some entry) ∧
      adflibListFind (basename path) (L.adfGetDirEnt adfimage.vol.image
        (lastDir L adfimage (dirname path))) = some entry ∧
      adflibListFind (basename path) (L.adfGetDirEnt (adffsChmod L adfimage path mode).2.vol.image
        (lastDir L adfimage (dirname path))) =
          some (Adflib.relist entry.sector (setpermAccess L (chmodPerms mode) old.access) entry) := by
  obtain ⟨old', hold', hrc, himage, -, hvalid⟩ := chmod_success h
  obtain rfl : old = old' := Option.some.inj (hold.symm.trans hold')
  have hfound := getdentry_fst L adfimage hpath
  rw [entryAt] at hfound
  cases hentry : adflibListFind (basename path)
      (L.adfGetDirEnt adfimage.vol.image (lastDir L adfimage (dirname path))) with
  | none =>
    rw [hentry] at hfound
    exact absurd (congrArg AdfimageDentry.type hfound) hvalid
  | some entry =>
    rw [hentry] at hfound
    have hsector : (adfimageGetdentry L adfimage path).1.adflibEntry.sector = entry.sector := by
      rw [hfound]
      rfl
    refine ⟨entry, hfound, rfl, ?_⟩
    rw [himage, hblocks.getDirEnt _ _ _ _ _ hold hrc, adflibListFind_relist, hentry, hsector,
      Option.map_some]

/-- The directories are the same afterwards. -/
theorem look_chmod (hblocks : L.EntryBlocks) {adfimage : Adfimage Image} {path : CStr}
    {mode : BitVec 32} (h : (adffsChmod L adfimage path mode).1 = 0) :
    look L (adffsChmod L adfimage path mode).2 = look L adfimage := by
  obtain ⟨old, hold, -, himage, -⟩ := chmod_success h
  funext place name
  rw [look, himage]
  exact hblocks.sameDirs _ _ _ _ hold place name

/-- An absolute path leads to the same directory as before. -/
theorem lastDir_chmod (hblocks : L.EntryBlocks) {adfimage : Adfimage Image} {path : CStr}
    {mode : BitVec 32} (h : (adffsChmod L adfimage path mode).1 = 0)
    (hagain : path.head? = some '/' ∨
      lastDir L (adffsChmod L adfimage path mode).2 (dirname path) =
        lastDir L adfimage (dirname path)) :
    lastDir L (adffsChmod L adfimage path mode).2 (dirname path) =
      lastDir L adfimage (dirname path) := by
  apply hagain.elim _ id
  intro habs
  obtain ⟨-, -, -, -, hroot, -⟩ := chmod_success h
  rw [lastDir, lastDir, look_chmod hblocks h, chdirStart_of_absolute _ (head_dirname habs),
    chdirStart_of_absolute _ (head_dirname habs)]
  exact congrArg (reach (look L adfimage) · _) hroot

/-- What `adffs_getattr` reports afterwards is about the entry as it is listed then. -/
theorem getattr_chmod (hblocks : L.EntryBlocks) (env : Env) {adfimage : Adfimage Image}
    {path : CStr} {mode : BitVec 32} (hrel : pathstrGetRelative path ≠ [])
    (h : (adffsChmod L adfimage path mode).1 = 0) {dir : Sector}
    (hdir : namedDir L adfimage (dirname path) = some dir)
    (hagain : path.head? = some '/' ∨
      namedDir L (adffsChmod L adfimage path mode).2 (dirname path) = some dir) :
    ∃ here : Adfimage Image, adffsGetattr L env (adffsChmod L adfimage path mode).2 path =
      statFound L env here path (dentryOf (adflibListFind (basename path)
        (L.adfGetDirEnt (adffsChmod L adfimage path mode).2.vol.image
          (lastDir L adfimage (dirname path))))) := by
  have hdir' : namedDir L (adffsChmod L adfimage path mode).2 (dirname path) = some dir := by
    apply hagain.elim _ id
    intro habs
    obtain ⟨-, -, -, -, hroot, -⟩ := chmod_success h
    rw [namedDir_of_absolute L _ (head_dirname habs), look_chmod hblocks h, hroot,
      ← namedDir_of_absolute L _ (head_dirname habs), hdir]
  obtain ⟨here, -, -, hstat⟩ := getattr_of_namedDir L env _ hrel hdir'
  exact ⟨here, by rw [hstat, lastDir_of_namedDir L hdir]⟩

/-- A change of permissions that returns success has the effect that was asked for exactly if the
mode and the old access word survive the three updates, and the entry is one that is listed with its
access word. -/
theorem chmod_exact_iff (hblocks : L.EntryBlocks) (hbits : L.AccessBits r w e) (env : Env)
    {adfimage : Adfimage Image} {path : CStr} {mode : BitVec 32}
    (hrel : pathstrGetRelative path ≠ []) (h : (adffsChmod L adfimage path mode).1 = 0) :
    ChmodExact L env r w e adfimage path mode ↔
      (∀ old, L.adfReadEntryBlock adfimage.vol.image
        (adfimageGetdentry L adfimage path).1.adflibEntry.sector = some old →
        Survives r w e mode old.access) ∧
      ShowsPerms L (adfimageGetdentry L adfimage path).1 mode := by
  have hpath := ne_root_of_relative hrel
  obtain ⟨old, hold, hrc, himage, -, -⟩ := chmod_success h
  obtain ⟨checkSum, hread⟩ := hblocks.read_same _ _ _ _ hold hrc
  rw [← himage] at hread
  obtain ⟨entry, hfound, hbefore, hafter⟩ := listed_chmod hblocks hpath h hold
  have hperms := getperm_relist (L := L) entry.sector (setpermAccess L (chmodPerms mode) old.access)
    (refl entry.sector)
  rw [← hafter] at hperms
  constructor
  · intro hexact
    constructor
    · intro old' hold'
      obtain ⟨first, second, hfirst, hsecond, -, hword, -⟩ := hexact.word
      obtain rfl := Option.some.inj (hold.symm.trans hold')
      obtain rfl := Option.some.inj (hold.symm.trans hfirst)
      obtain rfl := Option.some.inj (hread.symm.trans hsecond)
      exact (wordExact_setpermAccess_iff hbits mode old.access).mp hword
    · have hlisted := hexact.listed
      rw [hperms] at hlisted
      rw [hfound]
      split_ifs at hlisted with htype
      · exact htype.imp id Or.inl
      · exact Or.inr (Or.inr hlisted)
  · intro ⟨hsurvives, hshows⟩
    have hword := (wordExact_setpermAccess_iff hbits mode old.access).mpr (hsurvives old hold)
    have hlisted : adfimageGetperm L (dentryOf (adflibListFind (basename path)
        (L.adfGetDirEnt (adffsChmod L adfimage path mode).2.vol.image
          (lastDir L adfimage (dirname path))))) = chmodPerms mode := by
      rw [hfound] at hshows
      rw [hperms]
      split_ifs with htype
      · exact hword.1
      · exact (hshows.resolve_left fun hfile ↦ htype (Or.inl hfile)).resolve_left fun hdir ↦
          htype (Or.inr hdir)
    refine ⟨⟨old, _, hold, hread, rfl, hword, ?_⟩, ?_, hlisted, ?_, ?_⟩
    · intro dir
      rw [himage]
      exact hblocks.getDirEnt _ _ _ _ dir hold hrc
    · intro other hother
      rw [himage]
      exact hblocks.read_other _ _ _ _ other hold hrc hother
    · intro hagain
      rw [getdentry_fst L _ hpath, entryAt, lastDir_chmod hblocks h hagain]
      exact hlisted
    · intro dir entry' hdir hagain hentry'
      obtain ⟨here, hstat⟩ := getattr_chmod hblocks env hrel h hdir hagain
      rw [lastDir_of_namedDir L hdir] at hbefore
      obtain rfl : entry = entry' := Option.some.inj (hbefore.symm.trans hentry')
      have htype (kind : DentryType) (hkind : dentryType entry.type = kind) :
          (dentryOf (adflibListFind (basename path)
            (L.adfGetDirEnt (adffsChmod L adfimage path mode).2.vol.image
              (lastDir L adfimage (dirname path))))).type = kind := by
        rw [hafter, ← hkind]
        unfold Adflib.relist
        split_ifs <;> rfl
      have hreturns : (adffsGetattr L env (adffsChmod L adfimage path mode).2 path).1 = 0 := by
        rw [hstat, statFound_fst, htype _ rfl, if_neg (dentryType_ne_none entry.type)]
      constructor
      · intro hfile
        refine ⟨hreturns, ?_⟩
        rw [hstat, statFound_file L env here path (hfile.imp (htype _) (htype _)), hlisted]
        exact fileMode_user mode
      · intro hdirectory
        refine ⟨hreturns, ?_⟩
        rw [hstat, statFound_directory L env here path (hdirectory.imp (htype _) (htype _)), hlisted]
        exact directoryMode_user mode

theorem chmod_exact_iff_foo :
    ChmodExact RamDisk.lib default 3 2 1 RamDisk.mounted "/foo".toList 0o644 := by
  apply (chmod_exact_iff RamDisk.entryBlocks RamDisk.accessBits default (by decide)
    (by decide)).mpr
  refine ⟨fun old hold ↦ ?_, by decide⟩
  obtain rfl := Option.some.inj hold
  decide

/-- After `chmod 0500` the file can be written: clearing for execute takes the write bit along. -/
theorem chmod_not_exact_foo :
    ¬ ∀ (adfimage : Adfimage RamDisk) (path : CStr) (mode : BitVec 32),
      pathstrGetRelative path ≠ [] → (adffsChmod RamDisk.lib adfimage path mode).1 = 0 →
      ChmodExact RamDisk.lib default 3 2 1 adfimage path mode := by
  intro h
  obtain ⟨_, new, _, hnew, _, hword, _⟩ :=
    (h RamDisk.mounted "/foo".toList 0o500 (by decide) (by decide)).word
  have hperms : (RamDisk.lib.adfReadEntryBlock
      (adffsChmod RamDisk.lib RamDisk.mounted "/foo".toList 0o500).2.vol.image
      (adfimageGetdentry RamDisk.lib RamDisk.mounted "/foo".toList).1.adflibEntry.sector).map
        (fun block ↦ wordPerms RamDisk.lib block.access) = some (chmodPerms 0o500) := by
    rw [hnew, Option.map_some, hword.1]
  revert hperms
  decide

end FuseAdf
