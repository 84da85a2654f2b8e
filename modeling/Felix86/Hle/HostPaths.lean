import Mathlib.Data.List.DropRight
import Felix86.MainStack

/-!
# Paths below the root file system

The paths of the guest are paths of the host below the root file system. `Symlinker::resolve`
follows symbolic links and keeps to it, so resolving a path that has been resolved changes nothing
(`resolve_resolved`).
-/

namespace Felix86

namespace Execve

open Emulator

abbrev Bytes := List (BitVec 8)

def comma : BitVec 8 := 44
def slash : BitVec 8 := 47
def equals : BitVec 8 := 61
def dash : BitVec 8 := 45

/-! ## Paths -/

/-- The path of the root file system, without a slash at its end. -/
structure Rootfs where
  bytes : Bytes
  absolute : bytes.head? = some slash
  noSlash : bytes.getLast? ≠ some slash

/-- What is asked of the file system. -/
structure FileSystem where
  currentPath : Bytes
  isSymlink : Bytes → Bool
  readSymlink : Bytes → Option Bytes
  pathExists : Bytes → Bool
  isRegularFile : Bytes → Bool
  /-- The lines of a file, if it exists. -/
  lines : Bytes → Option (List Bytes)
  /-- What is in a file. -/
  content : Bytes → Bytes

def isAbsolute (p : Bytes) : Bool := p.head? = some slash

/-- `path::relative_path`. -/
def relativePath (p : Bytes) : Bytes := p.dropWhile (· = slash)

/-- `operator/`. -/
def joinPath (p q : Bytes) : Bytes :=
  if isAbsolute q ∨ p = [] then q
  else if p.getLast? = some slash then p ++ q
  else p ++ slash :: q

/-- `path::parent_path`. -/
def parentPath (p : Bytes) : Bytes :=
  if relativePath p = [] then p
  else
    let directory := p.rdropWhile (· ≠ slash)
    let stripped := directory.rdropWhile (· = slash)
    if stripped = [] then directory else stripped

/-- What the iterators of a path visit. -/
def elements (p : Bytes) : List Bytes :=
  (if isAbsolute p then [[slash]] else []) ++ (p.splitOn slash).filter (· ≠ []) ++
    (if p.getLast? = some slash ∧ relativePath p ≠ [] then [[]] else [])

def isSubpath (path base : Bytes) : Bool := elements base <+: elements path

/-- `std::filesystem::absolute`, which throws for an empty path. -/
def absolutePath (fs : FileSystem) (p : Bytes) : Option Bytes :=
  if p = [] then none else if isAbsolute p then some p else some (joinPath fs.currentPath p)

/-- The loop of `Symlinker::resolve`. -/
def resolveLoop (fs : FileSystem) (rootfs : Rootfs) : ℕ → Bytes → Option Bytes
  | 0, _ => none
  | fuel + 1, current =>
    if fs.isSymlink current then do
      let resolved ← fs.readSymlink current
      if ¬ isSubpath resolved rootfs.bytes then
        if isAbsolute resolved then
          resolveLoop fs rootfs fuel (joinPath rootfs.bytes (relativePath resolved))
        else
          let current := joinPath (parentPath current) (relativePath resolved)
          if isSubpath current rootfs.bytes then resolveLoop fs rootfs fuel current else none
      else resolveLoop fs rootfs fuel resolved
    else some current

/-- `Symlinker::resolve`. -/
def resolve (fs : FileSystem) (rootfs : Rootfs) (fuel : ℕ) (path : Bytes) : Option Bytes := do
  let current ← absolutePath fs path
  if ¬ isSubpath current rootfs.bytes then
    resolveLoop fs rootfs fuel (joinPath rootfs.bytes (relativePath current))
  else resolveLoop fs rootfs fuel current

/-! ## Resolving a resolved path -/

theorem elements_joinPath {p q : Bytes} (hp : p ≠ []) (hslash : p.getLast? ≠ some slash)
    (hq : ¬ isAbsolute q) : elements p <+: elements (joinPath p q) := by
  have habsolute : isAbsolute (p ++ slash :: q) = isAbsolute p := by
    obtain ⟨b, p, rfl⟩ := List.exists_cons_of_ne_nil hp
    rfl
  have htail : (if p.getLast? = some slash ∧ relativePath p ≠ [] then [[]] else ([] : List Bytes)) =
      [] := if_neg fun h ↦ hslash h.1
  rw [joinPath, if_neg (by simp [hq, hp]), if_neg hslash, elements, elements, habsolute, htail,
    List.splitOn_append_cons_self, List.filter_append, List.append_nil, ← List.append_assoc,
    List.append_assoc (_ ++ _)]
  exact List.prefix_append _ _

theorem isAbsolute_relativePath (p : Bytes) : ¬ isAbsolute (relativePath p) := by
  intro h
  have hhead : (relativePath p).head? = some slash := of_decide_eq_true h
  have hnot := List.head?_dropWhile_not (· = slash) p
  rw [relativePath] at hhead
  rw [hhead] at hnot
  simp at hnot

variable {fs : FileSystem} {rootfs : Rootfs}

theorem Rootfs.ne_nil (rootfs : Rootfs) : rootfs.bytes ≠ [] := by
  intro h
  have := rootfs.absolute
  simp [h] at this

/-- What is put below the root file system is below it. -/
theorem isSubpath_joinPath (p : Bytes) :
    isSubpath (joinPath rootfs.bytes (relativePath p)) rootfs.bytes :=
  decide_eq_true (elements_joinPath rootfs.ne_nil rootfs.noSlash (isAbsolute_relativePath p))

/-- The loop keeps to the root file system and ends at what is not a link. -/
theorem resolveLoop_spec {fuel : ℕ} {current path : Bytes} (h : isSubpath current rootfs.bytes)
    (hpath : resolveLoop fs rootfs fuel current = some path) :
    isSubpath path rootfs.bytes ∧ ¬ fs.isSymlink path := by
  induction fuel generalizing current with
  | zero => cases hpath
  | succ fuel ih =>
    rw [resolveLoop] at hpath
    split at hpath
    · obtain ⟨resolved, -, hpath⟩ := Option.bind_eq_some_iff.1 hpath
      by_cases hsub : isSubpath resolved rootfs.bytes
      · rw [if_neg (by simpa using hsub)] at hpath
        exact ih hsub hpath
      · rw [if_pos hsub] at hpath
        by_cases habsolute : isAbsolute resolved
        · rw [if_pos habsolute] at hpath
          exact ih (isSubpath_joinPath resolved) hpath
        · rw [if_neg habsolute] at hpath
          by_cases hbelow : isSubpath (joinPath (parentPath current) (relativePath resolved))
              rootfs.bytes
          · rw [if_pos hbelow] at hpath
            exact ih hbelow hpath
          · rw [if_neg hbelow] at hpath
            cases hpath
    · next hlink =>
      cases hpath
      exact ⟨h, hlink⟩

theorem resolve_spec {fuel : ℕ} {name path : Bytes}
    (h : resolve fs rootfs fuel name = some path) :
    isSubpath path rootfs.bytes ∧ ¬ fs.isSymlink path := by
  obtain ⟨current, -, h⟩ := Option.bind_eq_some_iff.1 h
  by_cases hsub : isSubpath current rootfs.bytes
  · rw [if_neg (by simpa using hsub)] at h
    exact resolveLoop_spec hsub h
  · rw [if_pos hsub] at h
    exact resolveLoop_spec (isSubpath_joinPath current) h

/-- Resolving is done after the first time. -/
theorem resolve_resolved {fuel : ℕ} (fuel' : ℕ) {name path : Bytes}
    (h : resolve fs rootfs fuel name = some path) (hunder : rootfs.bytes <+: path) :
    resolve fs rootfs (fuel' + 1) path = some path := by
  obtain ⟨hsub, hlink⟩ := resolve_spec h
  have hne : path ≠ [] := by
    rintro rfl
    exact rootfs.ne_nil (List.prefix_nil.1 hunder)
  have habsolute : isAbsolute path := by
    obtain ⟨rest, rfl⟩ := hunder
    obtain ⟨b, p, hp⟩ := List.exists_cons_of_ne_nil rootfs.ne_nil
    have := rootfs.absolute
    simp_all [isAbsolute]
  rw [resolve, absolutePath, if_neg hne, if_pos habsolute]
  change (if ¬ isSubpath path rootfs.bytes then _ else _) = _
  rw [if_neg (by simpa using hsub), resolveLoop, if_neg hlink]

end Execve

end Felix86
