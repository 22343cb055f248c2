import FuseAdf.Path.Libgen

/-!
# The path strings of util.h

`pathstrGetRelative` and `pathCreate` are total.  The two functions that rewrite a path in place
are loops over a buffer; they are modelled on the buffer itself, with its NUL, and with a fuel
argument that every iteration consumes, so that `none` for every fuel is a loop that never ends.
-/

namespace FuseAdf

/-- The character that ends a C string. -/
def nul : Char := '\x00'

/-- `pathstr_get_relative`: skip all leading slashes. -/
def pathstrGetRelative (path : CStr) : CStr := path.dropWhile isSlash

/-- `path_t`, without the two buffers that hold its strings. -/
structure Path where
  dirpath : CStr
  entryname : CStr
deriving DecidableEq, Repr

/-- `path_create`.  Running out of memory is not modelled, so there is always a result. -/
def pathCreate (pathStr : CStr) : Path where
  dirpath := dirname pathStr
  entryname := basename pathStr

/-- `path_is_entryname_non_empty`, which looks at the directory part. -/
def pathIsEntrynameNonEmpty (path : Path) : Bool := path.dirpath != []

theorem getRelative_of_relative {path : CStr} (h : path.head? ≠ some '/') :
    pathstrGetRelative path = path := by
  cases path with
  | nil => rfl
  | cons c rest =>
    have hc : c ≠ '/' := by simpa using h
    simp [pathstrGetRelative, isSlash, hc]

theorem getRelative_name {name : CStr} (hslash : '/' ∉ name) : pathstrGetRelative name = name := by
  apply getRelative_of_relative
  intro h
  exact hslash (List.mem_of_mem_head? h)

theorem head_getRelative (path : CStr) : (pathstrGetRelative path).head? ≠ some '/' := by
  intro h
  have hfirst := List.head?_dropWhile_not isSlash path
  rw [pathstrGetRelative] at h
  simp [h] at hfirst

/-- Only a path with a character other than the slash is left over. -/
theorem getRelative_ne_nil_iff {path : CStr} :
    pathstrGetRelative path ≠ [] ↔ ∃ c ∈ path, c ≠ '/' := by
  rw [pathstrGetRelative, ne_eq, List.dropWhile_eq_nil_iff]
  push Not
  simp only [isSlash_iff, ne_eq]

theorem exists_ne_slash {path : CStr} (h : pathstrGetRelative path ≠ []) :
    ∃ c ∈ path, c ≠ '/' :=
  getRelative_ne_nil_iff.mp h

theorem ne_nil_of_getRelative {path : CStr} (h : pathstrGetRelative path ≠ []) : path ≠ [] := by
  rintro rfl
  exact h rfl

theorem getRelative_slashes_append {lead : CStr} (hlead : ∀ c ∈ lead, c = '/') (path : CStr) :
    pathstrGetRelative (lead ++ path) = pathstrGetRelative path := by
  rw [pathstrGetRelative, List.dropWhile_append_of_pos]
  · rfl
  · exact fun c hc ↦ isSlash_iff.mpr (hlead c hc)

theorem getRelative_append {path : CStr} (h : pathstrGetRelative path ≠ []) (more : CStr) :
    pathstrGetRelative (path ++ more) = pathstrGetRelative path ++ more := by
  unfold pathstrGetRelative at h ⊢
  rw [List.dropWhile_append, if_neg (by simpa using h)]

/-- Memory that holds a C string, its NUL included. -/
abbrev CBuf := List Char

/-- The string that starts at a position of the buffer. -/
def cstrAt (buf : CBuf) (position : ℕ) : CStr := (buf.drop position).takeWhile (· != nul)

def load (buf : CBuf) (position : ℕ) : Char := buf.getD position nul

/-- `strstr`: the offset of the first match. -/
def strstr (needle : CStr) : CStr → Option ℕ
  | [] => if needle = [] then some 0 else none
  | c :: rest =>
      if needle.isPrefixOf (c :: rest) then some 0 else (strstr needle rest).map (· + 1)

/-- The loop `do { *ch = *( ch + 1 ); } while ( *( ch + 1 ) != '\0' )`, in which `ch` stays. -/
def copyNext : ℕ → CBuf → ℕ → Option CBuf
  | 0, _, _ => none
  | fuel + 1, buf, ch =>
      let buf := buf.set ch (load buf (ch + 1))
      if load buf (ch + 1) ≠ nul then copyNext fuel buf ch else some buf

/-! ## Rewriting a path in place -/

/-- The outer loop of `pathstr_remove_double_slashes`; `path` is where the search starts. -/
def removeDoubleSlashesLoop : ℕ → CBuf → ℕ → Option CBuf
  | 0, _, _ => none
  | fuel + 1, buf, path =>
      match strstr "//".toList (cstrAt buf path) with
      | none => some buf
      | some offset => do
          let doubleslash := path + offset
          let buf ← copyNext fuel buf (doubleslash + 1)
          removeDoubleSlashesLoop fuel buf doubleslash

def pathstrRemoveDoubleSlashes (fuel : ℕ) (path : CStr) : Option CStr :=
  (removeDoubleSlashesLoop fuel (path ++ [nul]) 0).map (cstrAt · 0)

/-- The first loop of `pathstr_dirparent_u2a`, for `../` anywhere. -/
def dirparentLoop : ℕ → CBuf → Option CBuf
  | 0, _ => none
  | fuel + 1, buf =>
      match strstr "../".toList (cstrAt buf 0) with
      | none => some buf
      | some parent => do
          let buf ← copyNext fuel (buf.set parent '/') (parent + 1)
          dirparentLoop fuel buf

/-- The second loop of `pathstr_dirparent_u2a`, for `/..` at the end; a match elsewhere is left
alone and found again by the next search. -/
def dirparentEndLoop : ℕ → CBuf → Option CBuf
  | 0, _ => none
  | fuel + 1, buf =>
      match strstr "/..".toList (cstrAt buf 0) with
      | none => some buf
      | some parent =>
          if load buf (parent + 3) = nul then do
            let buf ← copyNext fuel (buf.set (parent + 1) '/') (parent + 2)
            dirparentEndLoop fuel buf
          else dirparentEndLoop fuel buf

def pathstrDirparentU2a (fuel : ℕ) (pathstr : CStr) : Option CStr := do
  let buf ← dirparentLoop fuel (pathstr ++ [nul])
  let buf ← dirparentEndLoop fuel buf
  some (cstrAt buf 0)

def pathstrFuse2amigados (fuel : ℕ) (pathstr : CStr) : Option CStr := do
  let pathstr ← pathstrRemoveDoubleSlashes fuel pathstr
  pathstrDirparentU2a fuel pathstr

example : pathstrFuse2amigados 9 "/a/..".toList = some "/a//".toList := by decide

theorem head_set_succ (buf : CBuf) (position : ℕ) (c : Char) :
    (buf.set (position + 1) c).head? = buf.head? := by
  cases buf <;> rfl

theorem head_copyNext {fuel : ℕ} {buf buf' : CBuf} {position : ℕ}
    (h : copyNext fuel buf (position + 1) = some buf') : buf'.head? = buf.head? := by
  induction fuel generalizing buf with
  | zero => simp [copyNext] at h
  | succ fuel ih =>
    rw [copyNext] at h
    split_ifs at h
    · rw [ih h, head_set_succ]
    · obtain rfl := Option.some.inj h
      exact head_set_succ _ _ _

theorem head_removeDoubleSlashesLoop {fuel : ℕ} {buf buf' : CBuf} {path : ℕ}
    (h : removeDoubleSlashesLoop fuel buf path = some buf') : buf'.head? = buf.head? := by
  induction fuel generalizing buf path with
  | zero => simp [removeDoubleSlashesLoop] at h
  | succ fuel ih =>
    rw [removeDoubleSlashesLoop] at h
    split at h
    · obtain rfl := Option.some.inj h
      rfl
    · obtain ⟨middle, hcopy, hrest⟩ := Option.bind_eq_some_iff.mp h
      rw [ih hrest, head_copyNext hcopy]

theorem head_set_slash {buf : CBuf} (position : ℕ) (h : buf.head? = some '/') :
    (buf.set position '/').head? = some '/' := by
  cases buf with
  | nil => simp at h
  | cons c rest =>
    cases position with
    | zero => rfl
    | succ position => exact h

theorem head_dirparentLoop {fuel : ℕ} {buf buf' : CBuf} (hbuf : buf.head? = some '/')
    (h : dirparentLoop fuel buf = some buf') : buf'.head? = some '/' := by
  induction fuel generalizing buf with
  | zero => simp [dirparentLoop] at h
  | succ fuel ih =>
    rw [dirparentLoop] at h
    split at h
    · obtain rfl := Option.some.inj h
      exact hbuf
    · obtain ⟨middle, hcopy, hrest⟩ := Option.bind_eq_some_iff.mp h
      apply ih _ hrest
      rw [head_copyNext hcopy]
      exact head_set_slash _ hbuf

theorem head_dirparentEndLoop {fuel : ℕ} {buf buf' : CBuf} (hbuf : buf.head? = some '/')
    (h : dirparentEndLoop fuel buf = some buf') : buf'.head? = some '/' := by
  induction fuel generalizing buf with
  | zero => simp [dirparentEndLoop] at h
  | succ fuel ih =>
    rw [dirparentEndLoop] at h
    split at h
    · obtain rfl := Option.some.inj h
      exact hbuf
    · split_ifs at h
      · obtain ⟨middle, hcopy, hrest⟩ := Option.bind_eq_some_iff.mp h
        apply ih _ hrest
        rw [head_copyNext hcopy]
        exact head_set_slash _ hbuf
      · exact ih hbuf h

theorem head_cstrAt_zero {buf : CBuf} (h : buf.head? = some '/') :
    (cstrAt buf 0).head? = some '/' := by
  cases buf with
  | nil => simp at h
  | cons c rest =>
    obtain rfl := Option.some.inj h
    rfl

/-- A converted absolute path is absolute. -/
theorem head_pathstrFuse2amigados {fuel : ℕ} {pathstr pathstr' : CStr}
    (h : pathstrFuse2amigados fuel pathstr = some pathstr') (habs : pathstr.head? = some '/') :
    pathstr'.head? = some '/' := by
  obtain ⟨single, hsingle, hparents⟩ := Option.bind_eq_some_iff.mp h
  obtain ⟨buf, hbuf, rfl⟩ := Option.map_eq_some_iff.mp hsingle
  obtain ⟨middle, hmiddle, hlast⟩ := Option.bind_eq_some_iff.mp hparents
  obtain ⟨last, hend, hresult⟩ := Option.bind_eq_some_iff.mp hlast
  obtain rfl := Option.some.inj hresult
  have hstart : (pathstr ++ [nul]).head? = some '/' := by
    cases pathstr with
    | nil => simp at habs
    | cons c rest => exact habs
  have hclean : (cstrAt buf 0).head? = some '/' := by
    apply head_cstrAt_zero
    rw [head_removeDoubleSlashesLoop hbuf, hstart]
  have hterminated : (cstrAt buf 0 ++ [nul]).head? = some '/' := by
    cases hcstr : cstrAt buf 0 with
    | nil => simp [hcstr] at hclean
    | cons c rest => simpa [hcstr] using hclean
  exact head_cstrAt_zero (head_dirparentEndLoop (head_dirparentLoop hterminated hmiddle) hend)

theorem copyNext_mono {fuel fuel' : ℕ} (hle : fuel ≤ fuel') {buf buf' : CBuf} {ch : ℕ}
    (h : copyNext fuel buf ch = some buf') : copyNext fuel' buf ch = some buf' := by
  induction fuel generalizing fuel' buf with
  | zero => simp [copyNext] at h
  | succ fuel ih =>
    obtain ⟨more, rfl⟩ : ∃ more, fuel' = more + 1 := ⟨fuel' - 1, by omega⟩
    rw [copyNext] at h ⊢
    split_ifs at h ⊢
    · exact ih (by omega) h
    · exact h

theorem removeDoubleSlashesLoop_mono {fuel fuel' : ℕ} (hle : fuel ≤ fuel') {buf buf' : CBuf}
    {path : ℕ} (h : removeDoubleSlashesLoop fuel buf path = some buf') :
    removeDoubleSlashesLoop fuel' buf path = some buf' := by
  induction fuel generalizing fuel' buf path with
  | zero => simp [removeDoubleSlashesLoop] at h
  | succ fuel ih =>
    obtain ⟨more, rfl⟩ : ∃ more, fuel' = more + 1 := ⟨fuel' - 1, by omega⟩
    rw [removeDoubleSlashesLoop] at h ⊢
    cases hfind : strstr "//".toList (cstrAt buf path) with
    | none =>
      rw [hfind] at h
      exact h
    | some offset =>
      rw [hfind] at h
      obtain ⟨middle, hcopy, hrest⟩ := Option.bind_eq_some_iff.mp h
      exact Option.bind_eq_some_iff.mpr
        ⟨middle, copyNext_mono (by omega) hcopy, ih (by omega) hrest⟩

theorem dirparentLoop_mono {fuel fuel' : ℕ} (hle : fuel ≤ fuel') {buf buf' : CBuf}
    (h : dirparentLoop fuel buf = some buf') : dirparentLoop fuel' buf = some buf' := by
  induction fuel generalizing fuel' buf with
  | zero => simp [dirparentLoop] at h
  | succ fuel ih =>
    obtain ⟨more, rfl⟩ : ∃ more, fuel' = more + 1 := ⟨fuel' - 1, by omega⟩
    rw [dirparentLoop] at h ⊢
    cases hfind : strstr "../".toList (cstrAt buf 0) with
    | none =>
      rw [hfind] at h
      exact h
    | some parent =>
      rw [hfind] at h
      obtain ⟨middle, hcopy, hrest⟩ := Option.bind_eq_some_iff.mp h
      exact Option.bind_eq_some_iff.mpr
        ⟨middle, copyNext_mono (by omega) hcopy, ih (by omega) hrest⟩

theorem dirparentEndLoop_mono {fuel fuel' : ℕ} (hle : fuel ≤ fuel') {buf buf' : CBuf}
    (h : dirparentEndLoop fuel buf = some buf') : dirparentEndLoop fuel' buf = some buf' := by
  induction fuel generalizing fuel' buf with
  | zero => simp [dirparentEndLoop] at h
  | succ fuel ih =>
    obtain ⟨more, rfl⟩ : ∃ more, fuel' = more + 1 := ⟨fuel' - 1, by omega⟩
    rw [dirparentEndLoop] at h ⊢
    cases hfind : strstr "/..".toList (cstrAt buf 0) with
    | none =>
      rw [hfind] at h
      exact h
    | some parent =>
      rw [hfind] at h
      dsimp only at h ⊢
      split_ifs at h ⊢
      · obtain ⟨middle, hcopy, hrest⟩ := Option.bind_eq_some_iff.mp h
        exact Option.bind_eq_some_iff.mpr
          ⟨middle, copyNext_mono (by omega) hcopy, ih (by omega) hrest⟩
      · exact ih (by omega) h

theorem pathstrRemoveDoubleSlashes_mono {fuel fuel' : ℕ} (hle : fuel ≤ fuel')
    {pathstr single : CStr} (h : pathstrRemoveDoubleSlashes fuel pathstr = some single) :
    pathstrRemoveDoubleSlashes fuel' pathstr = some single := by
  obtain ⟨buf, hbuf, hcstr⟩ := Option.map_eq_some_iff.mp h
  rw [pathstrRemoveDoubleSlashes, removeDoubleSlashesLoop_mono hle hbuf, Option.map_some, hcstr]

theorem pathstrDirparentU2a_mono {fuel fuel' : ℕ} (hle : fuel ≤ fuel') {pathstr converted : CStr}
    (h : pathstrDirparentU2a fuel pathstr = some converted) :
    pathstrDirparentU2a fuel' pathstr = some converted := by
  obtain ⟨middle, hmiddle, hlast⟩ := Option.bind_eq_some_iff.mp h
  obtain ⟨last, hend, hresult⟩ := Option.bind_eq_some_iff.mp hlast
  exact Option.bind_eq_some_iff.mpr ⟨middle, dirparentLoop_mono hle hmiddle,
    Option.bind_eq_some_iff.mpr ⟨last, dirparentEndLoop_mono hle hend, hresult⟩⟩

theorem pathstrFuse2amigados_mono {fuel fuel' : ℕ} (hle : fuel ≤ fuel') {pathstr converted : CStr}
    (h : pathstrFuse2amigados fuel pathstr = some converted) :
    pathstrFuse2amigados fuel' pathstr = some converted := by
  obtain ⟨single, hsingle, hparents⟩ := Option.bind_eq_some_iff.mp h
  exact Option.bind_eq_some_iff.mpr ⟨single, pathstrRemoveDoubleSlashes_mono hle hsingle,
    pathstrDirparentU2a_mono hle hparents⟩

/-- `pathstr_fuse2amigados` returns, with this result. -/
def ConvertsTo (pathstr converted : CStr) : Prop :=
  ∃ fuel, pathstrFuse2amigados fuel pathstr = some converted

theorem ConvertsTo.unique {pathstr converted converted' : CStr} (h : ConvertsTo pathstr converted)
    (h' : ConvertsTo pathstr converted') : converted = converted' := by
  obtain ⟨fuel, hfuel⟩ := h
  obtain ⟨fuel', hfuel'⟩ := h'
  have hmax := pathstrFuse2amigados_mono (Nat.le_max_left fuel fuel') hfuel
  have hmax' := pathstrFuse2amigados_mono (Nat.le_max_right fuel fuel') hfuel'
  exact Option.some.inj (hmax.symm.trans hmax')

end FuseAdf
