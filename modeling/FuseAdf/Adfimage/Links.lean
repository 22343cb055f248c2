import FuseAdf.Adfimage.Lookup
import FuseAdf.Path.Searching
import FuseAdf.Adflib.RamDisk

/-!
# What readlink leaves in the buffer

Both ways of reading a link clear the buffer and copy the text of the link with `strncpy`, which may
fill the buffer to its last byte.  A terminated string is left only when the text is shorter than the
buffer.
-/

namespace FuseAdf

open Adfimage NameWalk

variable {Image File : Type} (L : Adflib Image File)

/-- The path names a soft link to this text, or a hard link to an entry with this name. -/
def LinkTo (adfimage : Adfimage Image) (path text : CStr) : Prop :=
  ∃ dir parent entry, namedDir L adfimage (dirname path) = some dir ∧
    L.adfReadEntryBlock adfimage.vol.image dir = some parent ∧
    L.adfNameToEntryBlk adfimage.vol.image parent.hashTable (basename path) = some entry ∧
    ((entry.secType = .lsoft ∧ entry.realName = text) ∨
      ((entry.secType = .lfile ∨ entry.secType = .ldir) ∧
        ∃ target, L.adfReadEntryBlock adfimage.vol.image entry.realEntry = some target ∧
          target.name = text))

/-- The first `n` bytes hold a terminated string, the text as far as it fits. -/
def HoldsText (buffer : CBuf) (n : ℕ) (text : CStr) : Prop :=
  nul ∈ buffer.take n ∧
    cstrAt buffer 0 = if text.length < n then text else text.take (n - 1)

/-- The bytes behind the text are those that `strncpy` itself clears. -/
theorem strncpy_of_lt (buffer : CStr) {text : CStr} {n : ℕ} (h : text.length < n) :
    ∃ back, strncpy buffer text n = text ++ nul :: back ∧
      (strncpy buffer text n).take n = text ++ List.replicate (n - text.length) nul := by
  have htake : (text ++ List.replicate n nul).take n =
      text ++ List.replicate (n - text.length) nul := by
    rw [List.take_append, List.take_of_length_le h.le, List.take_replicate,
      Nat.min_eq_left (Nat.sub_le _ _)]
  have hlength : (text ++ List.replicate (n - text.length) nul).length = n := by
    rw [List.length_append, List.length_replicate]
    omega
  refine ⟨List.replicate (n - text.length - 1) nul ++ buffer.drop n, ?_, ?_⟩
  · rw [strncpy, htake, List.append_assoc, ← List.cons_append, ← List.replicate_succ]
    congr 3
    omega
  · rw [strncpy, htake, List.take_left' hlength]

theorem take_strncpy_of_le {buffer text : CStr} {n : ℕ} (h : n ≤ text.length) :
    (strncpy buffer text n).take n = text.take n := by
  have htake : (text ++ List.replicate n nul).take n = text.take n := List.take_append_of_le_length h
  rw [strncpy, htake, List.take_left' (List.length_take_of_le h)]

/-- A copied text is terminated exactly if it is shorter than the room for it. -/
theorem holdsText_strncpy_iff {buffer text : CStr} {n : ℕ} (hnul : nul ∉ text) :
    HoldsText (strncpy buffer text n) n text ↔ text.length < n := by
  constructor
  · rintro ⟨hmem, -⟩
    by_contra hlong
    rw [take_strncpy_of_le (Nat.le_of_not_lt hlong)] at hmem
    exact hnul (List.mem_of_mem_take hmem)
  · intro hshort
    obtain ⟨back, hbuffer, htake⟩ := strncpy_of_lt buffer hshort
    have hroom : n - text.length ≠ 0 := by omega
    refine ⟨?_, ?_⟩
    · rw [htake, List.mem_append, List.mem_replicate]
      exact Or.inr ⟨hroom, rfl⟩
    · rw [if_pos hshort, hbuffer]
      exact cstrAt_append [] hnul back

/-! ## Reading a link -/

variable {L}

/-- A link is read, whatever its kind. -/
theorem readlink_of_linkTo {adfimage : Adfimage Image} {path text : CStr}
    (h : LinkTo L adfimage path text) (buffer : CStr) (lenMax : ℕ) :
    (adfimageReadlink L adfimage path buffer lenMax).1 = 0 ∧
      (adfimageReadlink L adfimage path buffer lenMax).2.1 =
        strncpy (memsetZero buffer lenMax) text lenMax := by
  obtain ⟨dir, parent, entry, hdir, hparent, hentry, hkind⟩ := h
  have hcur : (adfimageChdir L adfimage (dirname path)).2.vol.curDirPtr = dir := by
    rw [chdir_curDirPtr L adfimage (dirname_ne_nil path), lastDir_of_namedDir L hdir]
  rw [readlink_eq, hdir]
  dsimp only
  simp only [readlinkEntry, chdir_image, hcur, hparent, hentry]
  rcases hkind with ⟨hsoft, rfl⟩ | ⟨hhard, target, htarget, rfl⟩
  · simp only [hsoft, if_pos, and_self]
  · have hne : entry.secType ≠ .lsoft := by
      rcases hhard with h | h <;> rw [h] <;> decide
    simp only [if_neg hne, record_vol, chdir_image, htarget, and_self]

/-- Reading a link leaves a terminated text in the buffer, cut off if need be, exactly if the text is
shorter than the buffer. -/
theorem readlink_holdsText_iff (adfimage : Adfimage Image) (path text buffer : CStr) (lenMax : ℕ)
    (hnul : nul ∉ text) (h : LinkTo L adfimage path text) :
    ((adfimageReadlink L adfimage path buffer lenMax).1 = 0 →
      HoldsText (adfimageReadlink L adfimage path buffer lenMax).2.1 lenMax text) ↔
        text.length < lenMax := by
  obtain ⟨hstatus, hbuffer⟩ := readlink_of_linkTo h buffer lenMax
  rw [hbuffer, holdsText_strncpy_iff hnul]
  exact ⟨fun hread ↦ hread hstatus, fun hshort _ ↦ hshort⟩

/-- The sample volume with a soft link in the place of its file. -/
def linked : RamDisk :=
  RamDisk.sample.putBlock 883
    { RamDisk.newBlock .lsoft "foo".toList with realName := "Plot/map".toList }

theorem linkTo_map : LinkTo RamDisk.lib (RamDisk.mounted.setImage linked) "/foo".toList
    "Plot/map".toList := by
  have hparent : linked.readEntryBlock 880 =
      some { RamDisk.newBlock .root "Disk".toList with hashTable := [882, 883, 885] } := rfl
  have hentry : linked.nameToEntryBlk [882, 883, 885] "foo".toList =
      some { RamDisk.newBlock .lsoft "foo".toList with realName := "Plot/map".toList } := by decide
  exact ⟨880, _, _, rfl, hparent, hentry, Or.inl ⟨rfl, rfl⟩⟩

theorem readlink_holdsText_map :
    HoldsText (adfimageReadlink RamDisk.lib (RamDisk.mounted.setImage linked) "/foo".toList
      (List.replicate 9 'x') 9).2.1 9 "Plot/map".toList :=
  (readlink_holdsText_iff (RamDisk.mounted.setImage linked) "/foo".toList "Plot/map".toList
    (List.replicate 9 'x') 9 (by decide) linkTo_map).mpr (by decide) (by decide)

/-- A buffer of eight bytes is filled by a text of eight characters. -/
theorem not_readlink_holdsText_map :
    ¬ ∀ (adfimage : Adfimage RamDisk) (path text buffer : CStr) (lenMax : ℕ), nul ∉ text →
      LinkTo RamDisk.lib adfimage path text → 1 ≤ lenMax →
      (adfimageReadlink RamDisk.lib adfimage path buffer lenMax).1 = 0 →
      HoldsText (adfimageReadlink RamDisk.lib adfimage path buffer lenMax).2.1 lenMax text := by
  intro h
  obtain ⟨hterminated, -⟩ := h (RamDisk.mounted.setImage linked) "/foo".toList "Plot/map".toList
    (List.replicate 8 'x') 8 (by decide) linkTo_map (by decide) (by decide)
  exact absurd hterminated (by decide)

end FuseAdf
