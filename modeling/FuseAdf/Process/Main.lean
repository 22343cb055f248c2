import FuseAdf.Adffs.Serving
import FuseAdf.Adfimage.Open
import FuseAdf.Options.ParseArgs
import Mathlib.Data.Multiset.AddSub

/-!
# The process

`main` from its arguments to its end.  What is acquired before `fuse_main` is released by
`adffs_destroy`, which FUSE calls only if it got as far as to serve callbacks.
-/

namespace FuseAdf

open Getopt GuardedRun

/-- The events lead from one collection of held resources to another; only what is held is released. -/
inductive Leaves {Resource : Type} :
    Multiset Resource → List (ResourceEvent Resource) → Multiset Resource → Prop
  | nil (held : Multiset Resource) : Leaves held [] held
  | acquire {held left : Multiset Resource} {events : List (ResourceEvent Resource)}
      (resource : Resource) (h : Leaves (resource ::ₘ held) events left) :
      Leaves held (.acquire resource :: events) left
  | release {held left : Multiset Resource} {events : List (ResourceEvent Resource)}
      (resource : Resource) (h : Leaves held events left) :
      Leaves (resource ::ₘ held) (.release resource :: events) left

/-- The same event of a resource under another name. -/
def ResourceEvent.map {Resource Resource' : Type} (f : Resource → Resource') :
    ResourceEvent Resource → ResourceEvent Resource'
  | .acquire resource => .acquire (f resource)
  | .release resource => .release (f resource)

section Leaves

variable {Resource Resource' : Type} {held middle left : Multiset Resource}
  {events events' : List (ResourceEvent Resource)}

theorem Leaves.append (h : Leaves held events middle) (h' : Leaves middle events' left) :
    Leaves held (events ++ events') left := by
  induction h with
  | nil held => exact h'
  | acquire resource _ ih => exact .acquire resource (ih h')
  | release resource _ ih => exact .release resource (ih h')

/-- What is held besides does not matter. -/
theorem Leaves.add (h : Leaves held events left) (other : Multiset Resource) :
    Leaves (held + other) events (left + other) := by
  induction h with
  | nil held => exact .nil _
  | acquire resource _ ih => exact .acquire resource (by rwa [← Multiset.cons_add])
  | release resource _ ih =>
    rw [Multiset.cons_add]
    exact .release resource ih

/-- A stack of resources is a collection of resources. -/
theorem Unwinds.leaves {stack stack' : List Resource} (h : Unwinds stack events stack')
    (f : Resource → Resource') :
    Leaves (stack.map f : Multiset Resource') (events.map (ResourceEvent.map f))
      (stack'.map f : Multiset Resource') := by
  induction h with
  | nil stack => exact .nil _
  | acquire resource _ ih => exact .acquire (f resource) ih
  | release resource _ ih => exact .release (f resource) ih

end Leaves

/-- What the process holds. -/
inductive Holding
  /-- The buffer that `realpath` allocates. -/
  | mountPoint
  | log
  | library
  | device
  | deviceMount
  | volumeMount
  /-- The memory of the handle. -/
  | handle
deriving DecidableEq, Repr

/-- There is one of each. -/
def Resource.holding {Dev Image : Type} : Resource Dev Image → Holding
  | .library => .library
  | .device _ => .device
  | .deviceMount _ => .deviceMount
  | .volumeMount _ => .volumeMount

variable {Dev Image File : Type}

/-- `adffs_state_t`, and whether the variable `flog` of adffs_log.c is an open log. -/
structure AdffsState (Image : Type) where
  mountpoint : Option CStr
  adfimage : Option (Adfimage Image)
  logfile : Bool

/-- `adfimage_close`: the handle becomes NULL. -/
def adfimageClose (adfimage : Option (Adfimage Image)) :
    Option (Adfimage Image) × List (ResourceEvent Holding) :=
  match adfimage with
  | none => (none, [])
  | some _ =>
      (none, [.release .volumeMount, .release .deviceMount, .release .device, .release .handle,
        .release .library])

/-- `adffs_log_close`; the variable keeps its value. -/
def adffsLogClose (logfile : Bool) : List (ResourceEvent Holding) :=
  if logfile then [.release .log] else []

/-- `free ( fs_state->mountpoint )`. -/
def freeMountpoint (mountpoint : Option CStr) : List (ResourceEvent Holding) :=
  if mountpoint.isSome then [.release .mountPoint] else []

/-- `adffs_destroy`. -/
def adffsDestroy (state : AdffsState Image) : AdffsState Image × List (ResourceEvent Holding) :=
  let (adfimage, closed) := adfimageClose state.adfimage
  ({ state with adfimage := adfimage, mountpoint := none },
    closed ++ freeMountpoint state.mountpoint ++ adffsLogClose state.logfile)

/-! ## main -/

/-- What `main` meets outside the program. -/
structure Platform (Dev Image : Type) where
  getuid : ℕ
  geteuid : ℕ
  realpath : CStr → Option CStr
  /-- Whether the log can be opened for writing. -/
  fopen : CStr → Bool
  devices : Devices Dev Image

def exitSuccess : ℤ := 0
def exitFailure : ℤ := 1

/-- How far `main` gets by itself, with what it has acquired and released by then. -/
inductive MainStart (Image : Type)
  | exit (code : ℤ) (events : List (ResourceEvent Holding))
  | fuse (argc : ℕ) (argv : Argv) (state : AdffsState Image) (events : List (ResourceEvent Holding))

variable (platform : Platform Dev Image)

/-- The part of `main` that opens the log. -/
def openLog (loggingFile : Option CStr) : Option (Bool × List (ResourceEvent Holding)) :=
  match loggingFile with
  | none => some (false, [])
  | some path => if platform.fopen path then some (true, [.acquire .log]) else none

/-- The part of `main` that opens the image; the name of the image is not NULL here. -/
def openImage (options : CmdlineOptions) :
    Option (Adfimage Image) × List (ResourceEvent Holding) :=
  let (adfimage, trace) := adfimageOpen platform.devices (options.adfFilename.getD [])
    options.adfVolume options.readOnly options.ignoreChecksumErrors
  let events := trace.map (ResourceEvent.map Resource.holding)
  (adfimage, if adfimage.isSome then events ++ [.acquire .handle] else events)

/-- `main` from the parsed options to the call of `fuse_main`. -/
def mainOpen (argc : ℕ) (argv : Argv) (options : CmdlineOptions) : MainStart Image :=
  let events := if options.mountPoint.isSome then [.acquire .mountPoint] else []
  match openLog platform options.loggingFile with
  | none => .exit exitFailure events
  | some (logfile, opened) =>
      let events := events ++ opened
      match openImage platform options with
      | (none, failed) => .exit exitFailure (events ++ failed ++ adffsLogClose logfile)
      | (some adfimage, opened) =>
          .fuse argc argv
            { mountpoint := options.mountPoint, adfimage := some adfimage, logfile := logfile }
            (events ++ opened)

/-- `main` up to the call of `fuse_main`. -/
def mainStart (fuel : ℕ) (args : List CStr) : Option (MainStart Image) :=
  if platform.getuid = 0 ∨ platform.geteuid = 0 then some (.exit exitFailure [])
  else
    (launch platform.realpath fuel args).map fun
      | .refused => .exit exitFailure []
      | .help => .exit exitSuccess []
      | .version => .exit exitSuccess []
      | .fuse argc argv options => mainOpen platform argc argv options

/-- How the process ends. -/
inductive Ending
  /-- Without FUSE. -/
  | exited (code : ℤ) (events : List (ResourceEvent Holding))
  /-- `fuse_main` has returned without having served anything. -/
  | unserved (status : ℤ) (events : List (ResourceEvent Holding))
  /-- `fuse_main` has served callbacks, called `adffs_destroy` and returned. -/
  | served (status : ℤ) (acquired : List (ResourceEvent Holding))
      (exchanges : List (Callback × Reply)) (released : List (ResourceEvent Holding))

/-- The process comes to this end.  What callbacks are asked for, and when the file system is
unmounted, is not in the hand of the program. -/
inductive Process (L : Adflib Image File) (env : Env) (args : List CStr) : Ending → Prop
  | exited {fuel : ℕ} {code : ℤ} {events : List (ResourceEvent Holding)}
      (h : mainStart platform fuel args = some (.exit code events)) :
      Process L env args (.exited code events)
  | unserved {fuel argc : ℕ} {argv : Argv} {state : AdffsState Image}
      {events : List (ResourceEvent Holding)}
      (h : mainStart platform fuel args = some (.fuse argc argv state events)) (status : ℤ) :
      Process L env args (.unserved status events)
  | served {fuel argc : ℕ} {argv : Argv} {state : AdffsState Image}
      {events : List (ResourceEvent Holding)} {first last : Adfimage Image}
      {exchanges : List (Callback × Reply)}
      (h : mainStart platform fuel args = some (.fuse argc argv state events))
      (hfirst : state.adfimage = some first)
      (hrun : Run (Callback.Returns L env) (fun _ _ ↦ True) first exchanges last) (status : ℤ) :
      Process L env args (.served status events exchanges
        (adffsDestroy { state with adfimage := some last }).2)

/-- What is held for an open image. -/
def imageHoldings : Multiset Holding := {.handle, .volumeMount, .deviceMount, .device, .library}

def mountHoldings (mountpoint : Option CStr) : Multiset Holding :=
  if mountpoint.isSome then {.mountPoint} else 0

def logHoldings (logfile : Bool) : Multiset Holding := if logfile then {.log} else 0

/-- What `adffs_state_t` holds. -/
def AdffsState.holdings (state : AdffsState Image) : Multiset Holding :=
  (if state.adfimage.isSome then imageHoldings else 0) + mountHoldings state.mountpoint +
    logHoldings state.logfile

section Opening

variable {platform} {options : CmdlineOptions}

theorem leaves_closeLog (logfile : Bool) : Leaves (logHoldings logfile) (adffsLogClose logfile) 0 := by
  cases logfile with
  | false => exact .nil 0
  | true => exact .release Holding.log (.nil 0)

theorem leaves_freeMountpoint (mountpoint : Option CStr) :
    Leaves (mountHoldings mountpoint) (freeMountpoint mountpoint) 0 := by
  cases mountpoint with
  | none => exact .nil 0
  | some path => exact .release Holding.mountPoint (.nil 0)

theorem leaves_closeImage (adfimage : Option (Adfimage Image)) :
    Leaves (if adfimage.isSome then imageHoldings else 0) (adfimageClose adfimage).2 0 := by
  cases adfimage with
  | none => exact .nil 0
  | some adfimage =>
    have hfirst : imageHoldings =
        .volumeMount ::ₘ .deviceMount ::ₘ .device ::ₘ .handle ::ₘ .library ::ₘ 0 := by
      decide
    rw [show (if (some adfimage).isSome then imageHoldings else 0) = imageHoldings from rfl, hfirst]
    exact .release _ (.release _ (.release _ (.release _ (.release _ (.nil 0)))))

/-- `adffs_destroy` releases all that the state holds. -/
theorem leaves_destroy (state : AdffsState Image) : Leaves state.holdings (adffsDestroy state).2 0 := by
  have himage := (leaves_closeImage state.adfimage).add
    (mountHoldings state.mountpoint + logHoldings state.logfile)
  have hmount := (leaves_freeMountpoint state.mountpoint).add (logHoldings state.logfile)
  rw [Multiset.zero_add] at himage hmount
  rw [AdffsState.holdings, Multiset.add_assoc]
  exact (himage.append hmount).append (leaves_closeLog state.logfile)

/-- An image that is open is a library, a device, and both mounted. -/
theorem unwinds_open_some {devices : Devices Dev Image} {filename : CStr} {volume : BitVec 32}
    {readOnly ignoreChecksumErrors : Bool} {adfimage : Adfimage Image}
    (h : (adfimageOpen devices filename volume readOnly ignoreChecksumErrors).1 = some adfimage) :
    ∃ vol dev, Unwinds [] (adfimageOpen devices filename volume readOnly ignoreChecksumErrors).2
      [.volumeMount vol, .deviceMount dev, .device dev, .library] := by
  unfold adfimageOpen at h ⊢
  by_cases hinit : devices.adfLibInit ≠ adfRcOk
  · rw [if_pos hinit] at h
    cases h
  · rw [if_neg hinit] at h ⊢
    cases hdev : mountDev devices ignoreChecksumErrors filename readOnly with
    | mk opened events =>
      cases opened with
      | none => simp [hdev] at h
      | some dev =>
        have hdevice := unwinds_mountDev_some devices hdev [.library]
        simp only [hdev] at h ⊢
        cases hvol : mountVolume devices ignoreChecksumErrors dev volume readOnly with
        | none => simp [hvol] at h
        | some vol =>
          have hvolume := hdevice.append (.acquire (.volumeMount vol) (.nil _))
          simp only [hvol] at h ⊢
          split_ifs at h ⊢
          exact ⟨vol, dev, .acquire _ hvolume⟩

theorem leaves_openImage_none (h : (openImage platform options).1 = none) :
    Leaves 0 (openImage platform options).2 0 := by
  have hnone : (adfimageOpen platform.devices (options.adfFilename.getD []) options.adfVolume
      options.readOnly options.ignoreChecksumErrors).1 = none := h
  have hunwinds := (unwinds_open_none platform.devices hnone).leaves Resource.holding
  rw [openImage]
  dsimp only
  rw [hnone]
  exact hunwinds

theorem leaves_openImage_some {adfimage : Adfimage Image}
    (h : (openImage platform options).1 = some adfimage) :
    Leaves 0 (openImage platform options).2 imageHoldings := by
  have hsome : (adfimageOpen platform.devices (options.adfFilename.getD []) options.adfVolume
      options.readOnly options.ignoreChecksumErrors).1 = some adfimage := h
  obtain ⟨vol, dev, hunwinds⟩ := unwinds_open_some hsome
  rw [openImage]
  dsimp only
  rw [hsome]
  exact (hunwinds.leaves Resource.holding).append (.acquire Holding.handle (.nil _))

theorem leaves_openLog {loggingFile : Option CStr} {logfile : Bool}
    {events : List (ResourceEvent Holding)}
    (h : openLog platform loggingFile = some (logfile, events)) :
    Leaves 0 events (logHoldings logfile) := by
  cases loggingFile with
  | none =>
    obtain ⟨rfl, rfl⟩ := Prod.mk.inj (Option.some.inj h)
    exact .nil 0
  | some path =>
    dsimp only [openLog] at h
    split_ifs at h
    obtain ⟨rfl, rfl⟩ := Prod.mk.inj (Option.some.inj h)
    exact .acquire Holding.log (.nil _)

theorem leaves_mountPoint (mountpoint : Option CStr) :
    Leaves 0 (if mountpoint.isSome then [.acquire .mountPoint] else []) (mountHoldings mountpoint) := by
  cases mountpoint with
  | none => exact .nil 0
  | some path => exact .acquire Holding.mountPoint (.nil _)

/-- Either FUSE is called with all that the state holds, or only the buffer of the mount point is left. -/
theorem leaves_mainOpen (argc : ℕ) (argv : Argv) (options : CmdlineOptions) :
    (∃ code events, mainOpen platform argc argv options = .exit code events ∧
      Leaves 0 events (mountHoldings options.mountPoint)) ∨
    ∃ state events, mainOpen platform argc argv options = .fuse argc argv state events ∧
      state.adfimage.isSome ∧ Leaves 0 events state.holdings := by
  have hmount := leaves_mountPoint options.mountPoint
  rw [mainOpen]
  cases hlog : openLog platform options.loggingFile with
  | none => exact Or.inl ⟨_, _, rfl, hmount⟩
  | some opened =>
    rcases opened with ⟨logfile, opened⟩
    have hopened := (leaves_openLog hlog).add (mountHoldings options.mountPoint)
    rw [Multiset.zero_add] at hopened
    have hbefore := hmount.append hopened
    cases himage : openImage platform options with
    | mk adfimage events =>
      cases adfimage with
      | none =>
        have hfailed := (leaves_openImage_none (congrArg Prod.fst himage)).add
          (logHoldings logfile + mountHoldings options.mountPoint)
        have hclosed := (leaves_closeLog logfile).add (mountHoldings options.mountPoint)
        rw [Multiset.zero_add, himage] at hfailed
        rw [Multiset.zero_add] at hclosed
        exact Or.inl ⟨_, _, rfl, (hbefore.append hfailed).append hclosed⟩
      | some adfimage =>
        have himaged := (leaves_openImage_some (congrArg Prod.fst himage)).add
          (logHoldings logfile + mountHoldings options.mountPoint)
        rw [Multiset.zero_add, himage, Multiset.add_comm (logHoldings logfile), ← Multiset.add_assoc]
          at himaged
        rw [Multiset.add_comm] at hbefore
        exact Or.inr ⟨_, _, rfl, rfl, hbefore.append himaged⟩

end Opening

/-! ## The whole process -/

/-- How far `main` gets, and what is held then. -/
theorem leaves_mainStart {platform : Platform Dev Image} {fuel : ℕ} {args : List CStr}
    {start : MainStart Image} (h : mainStart platform fuel args = some start) :
    (∃ code events mountpoint, start = .exit code events ∧ Leaves 0 events (mountHoldings mountpoint)) ∨
    ∃ argc argv state events, start = .fuse argc argv state events ∧
      state.adfimage.isSome ∧ Leaves 0 events state.holdings := by
  rw [mainStart] at h
  split_ifs at h
  · exact Or.inl ⟨_, _, none, (Option.some.inj h).symm, .nil 0⟩
  · obtain ⟨launched, -, rfl⟩ := Option.map_eq_some_iff.mp h
    cases launched with
    | refused | help | version => exact Or.inl ⟨_, _, none, rfl, .nil 0⟩
    | fuse argc argv options =>
      rcases leaves_mainOpen argc argv options with ⟨code, events, hexit, hleaves⟩ |
        ⟨state, events, hfuse, himage, hleaves⟩
      · exact Or.inl ⟨code, events, options.mountPoint, hexit, hleaves⟩
      · exact Or.inr ⟨argc, argv, state, events, hfuse, himage, hleaves⟩

theorem imageHoldings_le {state : AdffsState Image} (h : state.adfimage.isSome) :
    imageHoldings ≤ state.holdings := by
  rw [AdffsState.holdings, if_pos h, Multiset.add_assoc]
  exact Multiset.le_add_right _ _

/-- Whatever happens, only what is held is released; after a session nothing is left, and the image
was open all the time; without FUSE only the buffer of the mount point can be left; but where FUSE
returns without a session, the image stays open. -/
theorem process_releases (platform : Platform Dev Image) (L : Adflib Image File) (env : Env)
    (args : List CStr) (ending : Ending) (h : Process platform L env args ending) :
    match ending with
    | .exited _ events => ∃ left ≤ {Holding.mountPoint}, Leaves 0 events left
    | .unserved _ events => ∃ left, Leaves 0 events left ∧ imageHoldings ≤ left
    | .served _ acquired _ released =>
        ∃ held, Leaves 0 acquired held ∧ imageHoldings ≤ held ∧ Leaves held released 0 := by
  cases h with
  | exited hstart =>
    rcases leaves_mainStart hstart with ⟨_, _, mountpoint, hexit, hleaves⟩ | ⟨_, _, _, _, hfuse, -⟩
    · obtain ⟨-, rfl⟩ := MainStart.exit.inj hexit
      refine ⟨mountHoldings mountpoint, ?_, hleaves⟩
      cases mountpoint with
      | none => exact Multiset.zero_le _
      | some path => exact le_refl _
    · cases hfuse
  | unserved hstart status =>
    rcases leaves_mainStart hstart with ⟨_, _, _, hexit, -⟩ | ⟨_, _, state, _, hfuse, himage, hleaves⟩
    · cases hexit
    · obtain ⟨-, -, rfl, rfl⟩ := MainStart.fuse.inj hfuse
      exact ⟨_, hleaves, imageHoldings_le himage⟩
  | @served _ _ _ state _ first last _ hstart hfirst hrun status =>
    rcases leaves_mainStart hstart with ⟨_, _, _, hexit, -⟩ | ⟨_, _, _, _, hfuse, himage, hleaves⟩
    · cases hexit
    · obtain ⟨-, -, rfl, rfl⟩ := MainStart.fuse.inj hfuse
      have hdestroy := leaves_destroy { state with adfimage := some last }
      have hsame : ({ state with adfimage := some last } : AdffsState Image).holdings =
          state.holdings := by
        rw [AdffsState.holdings, AdffsState.holdings, if_pos himage]
        rfl
      rw [hsame] at hdestroy
      exact ⟨_, hleaves, imageHoldings_le himage, hdestroy⟩

/-- The machine of an ordinary user, with a sound image. -/
def desktop : Platform Unit RamDisk where
  getuid := 1000
  geteuid := 1000
  realpath := some
  fopen _ := false
  devices :=
    { damaged with
      adfReadRootBlock := fun _ _ _ ↦ (adfRcOk,
        { bmFlag := adfBmValid, asEntryBlock := RamDisk.newBlock .root "Disk".toList }) }

/-- What it comes to when one file is created. -/
theorem process_desktop : Process desktop RamDisk.lib default
    ["fuseadf".toList, "img".toList, "mnt".toList]
    (.served 0 [.acquire .mountPoint, .acquire .library, .acquire .device, .acquire .deviceMount,
        .acquire .volumeMount, .acquire .handle]
      [(.create "/Plot/new".toList, .status 0)]
      [.release .volumeMount, .release .deviceMount, .release .device, .release .handle,
        .release .library, .release .mountPoint]) := by
  obtain ⟨argc, argv, hstart⟩ : ∃ argc argv,
      mainStart desktop 1 ["fuseadf".toList, "img".toList, "mnt".toList] = some (.fuse argc argv
        { mountpoint := some "mnt".toList
          adfimage := some
            { vol := RamDisk.mounted.vol, cwd := ['/'], stBlksize := 512, calls := [] }
          logfile := false }
        [.acquire .mountPoint, .acquire .library, .acquire .device, .acquire .deviceMount,
          .acquire .volumeMount, .acquire .handle]) := ⟨_, _, rfl⟩
  exact .served hstart rfl (.single trivial ⟨0, rfl⟩) 0

theorem process_releases_desktop :
    ∃ held, Leaves 0 [.acquire Holding.mountPoint, .acquire .library, .acquire .device,
        .acquire .deviceMount, .acquire .volumeMount, .acquire .handle] held ∧
      imageHoldings ≤ held ∧
      Leaves held [.release Holding.volumeMount, .release .deviceMount, .release .device,
        .release .handle, .release .library, .release .mountPoint] 0 :=
  process_releases desktop RamDisk.lib default ["fuseadf".toList, "img".toList, "mnt".toList] _
    process_desktop

end FuseAdf
