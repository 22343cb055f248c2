import FuseAdf.Options.Outcome
import FuseAdf.Process.Main

/-!
# From the command line to the replies

What a session answers is settled by the arguments of the process and the file they name: the letters
on the command line decide how the image is opened, and the volume that is mounted answers as the
server of names does, from its first callback to its last.
-/

namespace FuseAdf

open Getopt GuardedRun

variable {Dev Image File : Type}

/-- Where `main` gets to FUSE, there are options, and the image they name is open. -/
theorem mainStart_fuse {platform : Platform Dev Image} {fuel argc : ℕ} {args : List CStr}
    {argv : Argv} {state : AdffsState Image} {events : List (ResourceEvent Holding)}
    (h : mainStart platform fuel args = some (.fuse argc argv state events)) :
    platform.getuid ≠ 0 ∧ platform.geteuid ≠ 0 ∧
      ∃ options, launch platform.realpath fuel args = some (.fuse argc argv options) ∧
        (openImage platform options).1 = state.adfimage := by
  rw [mainStart] at h
  by_cases hroot : platform.getuid = 0 ∨ platform.geteuid = 0
  · rw [if_pos hroot] at h
    cases h
  rw [if_neg hroot] at h
  obtain ⟨hgetuid, hgeteuid⟩ := not_or.mp hroot
  refine ⟨hgetuid, hgeteuid, ?_⟩
  obtain ⟨launched, hlaunch, hstart⟩ := Option.map_eq_some_iff.mp h
  cases launched with
  | refused | help | version => cases hstart
  | fuse argc' argv' options =>
    dsimp only [mainOpen] at hstart
    cases hlog : openLog platform options.loggingFile with
    | none => simp [hlog] at hstart
    | some opened =>
      cases himage : openImage platform options with
      | mk adfimage events' =>
        cases adfimage with
        | none => simp [hlog, himage] at hstart
        | some adfimage =>
          simp only [hlog, himage, MainStart.fuse.injEq] at hstart
          obtain ⟨rfl, rfl, rfl, -⟩ := hstart
          exact ⟨options, hlaunch, by rw [himage]⟩

/-- The volume of a session, with everything else as `adfimage_open` leaves it. -/
def sessionStart (platform : Platform Dev Image) (filename : CStr) (vol : AdfVolume Image) :
    Adfimage Image where
  vol := vol
  cwd := ['/']
  stBlksize := platform.devices.stat filename
  calls := []

/-- A session is never root's.  Its image is a file named among the arguments, opened as the letters
ask for that the loop gets: those which its own deletions leave it to read, not all that are on the
command line.  For writing the bitmap is checked.  To callbacks on paths inside of the mount point
FUSE is answered what the server of names answers on this volume. -/
theorem session_serves (platform : Platform Dev Image) (L : Adflib Image File) (env : Env)
    (args : List CStr) (status : ℤ) (acquired released : List (ResourceEvent Holding))
    (exchanges : List (Callback × Reply))
    (hprocess : Process platform L env args (.served status acquired exchanges released))
    (hfuse : ∀ exchange ∈ exchanges, exchange.1.FromFuse) :
    platform.getuid ≠ 0 ∧ platform.geteuid ≠ 0 ∧
      ∃ read, CmdlineOptions.default.takeAll (lettersRead args) = .inl read ∧
        ∃ filename ∈ args, ∃ vol,
          mountedVolume platform.devices filename read.adfVolume read.readOnly
            read.ignoreChecksumErrors = some vol ∧
          (read.writeMode = true →
            isBlockAllocationBitmapValid platform.devices read.ignoreChecksumErrors vol = true) ∧
          ∃ image, Run ((sessionStart platform filename vol).mount.Serves L env)
            (fun _ exchange ↦ exchange.1.FromFuse) vol.image exchanges image := by
  cases hprocess with
  | served hstart hfirst hrun status =>
    obtain ⟨hgetuid, hgeteuid, options, hlaunch, hopened⟩ := mainStart_fuse hstart
    obtain ⟨read, hread, hoptions⟩ := read_of_launch hlaunch
    obtain ⟨filename, hfilename⟩ := image_of_launch hlaunch
    rw [hfirst, openImage] at hopened
    dsimp only at hopened
    have hvolume : options.adfVolume = read.adfVolume := by rw [hoptions]
    have hmode : options.readOnly = read.readOnly := by rw [hoptions, CmdlineOptions.readOnly]; rfl
    have hchecksum : options.ignoreChecksumErrors = read.ignoreChecksumErrors := by rw [hoptions]
    rw [hfilename.2, hvolume, hmode, hchecksum] at hopened
    obtain ⟨vol, hvol, hbitmap, -, rfl⟩ := (open_eq_some_iff platform.devices).mp hopened
    refine ⟨hgetuid, hgeteuid, read, hread, filename, hfilename.1, vol, hvol, ?_, ?_⟩
    · intro hwrite
      simpa [CmdlineOptions.readOnly, hwrite] using hbitmap
    · exact ⟨_, (serves_of_returns (fun _ hmeets ↦ hmeets) (hrun.restrict hfuse)).1⟩

theorem session_serves_desktop :
    1000 ≠ 0 ∧ 1000 ≠ 0 ∧
      ∃ read, CmdlineOptions.default.takeAll
          (lettersRead ["fuseadf".toList, "img".toList, "mnt".toList]) = .inl read ∧
        ∃ filename ∈ ["fuseadf".toList, "img".toList, "mnt".toList], ∃ vol,
          mountedVolume desktop.devices filename read.adfVolume read.readOnly
            read.ignoreChecksumErrors = some vol ∧
          (read.writeMode = true →
            isBlockAllocationBitmapValid desktop.devices read.ignoreChecksumErrors vol = true) ∧
          ∃ image, Run ((sessionStart desktop filename vol).mount.Serves RamDisk.lib default)
            (fun _ exchange ↦ exchange.1.FromFuse) vol.image
            [(.create "/Plot/new".toList, .status 0)] image :=
  session_serves desktop RamDisk.lib default ["fuseadf".toList, "img".toList, "mnt".toList] 0 _ _
    [(.create "/Plot/new".toList, .status 0)] process_desktop
    fun exchange hexchange ↦ by
      rw [List.mem_singleton.mp hexchange]
      exact ⟨by decide, by decide, by decide⟩

end FuseAdf
