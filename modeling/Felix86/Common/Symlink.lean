import Mathlib.Data.FinEnum
import Mathlib.Data.Set.Finite.List
import Felix86.Hle.RootfsPrefix
import Felix86.Lib.Dots
import Felix86.Lib.Orbit

/-!
# Symbolic links

`Symlinker::resolve` follows the links at the end of a path, with the root file system in place of
the root, until it comes to what is not a link. A round depends on the path alone, and the host
refuses paths from `PATH_MAX` bytes on, so the loop stops unless it comes back to a path. Links that
make a circle let it run for ever.

That a path is below the root file system is decided by its first names, as they are written. Steps
up that come later are not looked at, so the path that is returned can be outside. `resolve_iff`
says when the loop stops with a path that is inside or with an error.
-/

namespace Felix86

namespace Symlinker

open Emulator Execve RootfsPrefix Dots Relation

/-- `PATH_MAX` of the host. -/
def pathMax : ℕ := 4096

/-- A file system of which a question can fail. -/
structure Host extends FileSystem where
  /-- `lstat` fails, and not because nothing is there, so that `is_symlink` throws. -/
  lstatFails : Bytes → Bool
  tooLong : ∀ p, pathMax ≤ p.length → lstatFails p

inductive Outcome
  | returned (path : Bytes)
  /-- A message and the end of the process, or an exception. -/
  | error
deriving DecidableEq

/-! ## The code -/

variable (h : Host) (rootfs : Rootfs)

/-- One round of the loop. -/
def round (current : Bytes) : Bytes ⊕ Outcome :=
  if h.lstatFails current then .inr .error
  else if h.isSymlink current then
    match h.readSymlink current with
    | none => .inr .error
    | some resolved =>
      if ¬ isSubpath resolved rootfs.bytes then
        if isAbsolute resolved then .inl (joinPath rootfs.bytes (relativePath resolved))
        else
          let current := joinPath (parentPath current) (relativePath resolved)
          -- `ASSERT_MSG`
          if isSubpath current rootfs.bytes then .inl current else .inr .error
      else .inl resolved
  else .inr (.returned current)

/-- What `current` is before the loop. -/
def start (path : Bytes) : Option Bytes :=
  (absolutePath h.toFileSystem path).map fun current ↦
    if ¬ isSubpath current rootfs.bytes then joinPath rootfs.bytes (relativePath current)
    else current

/-- `Symlinker::resolve`. -/
def resolve (fuel : ℕ) (path : Bytes) : Option Outcome :=
  match start h rootfs path with
  | none => some .error
  | some current => Orbit.loop (round h rootfs) fuel current

/-! ## What it should do -/

/-- What an element of a path does to a place. -/
def moveOf (e : Bytes) : Move Bytes :=
  if e = [] ∨ e = dot ∨ e = [slash] then .stay else if e = dotDot then .up else .down e

def moves (p : Bytes) : List (Move Bytes) := (elements p).map moveOf

/-- Where an absolute path leads, by its names alone: a name that is a link leads to itself. -/
def place (p : Bytes) : List Bytes := walk [] (moves p)

/-- The path leads to the root file system or below it. This is a matter of names, and of absolute
ones: a root file system that is given by a relative path has nothing below it. -/
def Under (p : Bytes) : Prop := isAbsolute p ∧ place rootfs.bytes <:+ place p

/-- The loop stops, with an error or at a path of the root file system that is not a link. -/
def Resolves (path : Bytes) : Prop :=
  ∃ fuel o, resolve h rootfs fuel path = some o ∧
    ∀ p, o = .returned p → Under rootfs p ∧ ¬ h.isSymlink p

/-! ## When it does -/

/-- Where a link at `p` leads, with the root file system in place of the root. -/
def destination (p target : Bytes) : Bytes :=
  if isSubpath target rootfs.bytes then target
  else if isAbsolute target then joinPath rootfs.bytes (relativePath target)
  else joinPath (parentPath p) target

/-- There is a link at `p` that leads to `q`. -/
def Follows (p q : Bytes) : Prop :=
  ∃ target, ¬ h.lstatFails p ∧ h.isSymlink p ∧ h.readSymlink p = some target ∧
    q = destination rootfs p target ∧ isSubpath q rootfs.bytes

/-- What the elements after the path of the root file system do. -/
def below (p : Bytes) : Effect Bytes := effect ((moves p).drop (elements rootfs.bytes).length)

/-- Behind the path of the root file system the path goes up no further than it comes down again by
the same names. -/
def StaysBelow (p : Bytes) : Prop :=
  (place rootfs.bytes).take (below rootfs p).levels <:+ (below rootfs p).names

/-- The links of a path are in no circle, and the place where they end is not reached by going
up. -/
structure Followable (path : Bytes) : Prop where
  acyclic : ∀ c p, start h rootfs path = some c → ReflTransGen (Follows h rootfs) c p →
    ¬ TransGen (Follows h rootfs) p p
  below : ∀ c p, start h rootfs path = some c → ReflTransGen (Follows h rootfs) c p →
    ¬ h.lstatFails p → ¬ h.isSymlink p → StaysBelow rootfs p

/-! ## Paths below the root file system -/

variable {h rootfs} {path c p q : Bytes} {fuel : ℕ} {o : Outcome}

theorem isAbsolute_of_isSubpath (hp : isSubpath p rootfs.bytes) : isAbsolute p := by
  have hroot : isAbsolute rootfs.bytes := decide_eq_true rootfs.absolute
  have hpre : elements rootfs.bytes <+: elements p := of_decide_eq_true hp
  have hmem : [slash] ∈ elements p := hpre.subset (by rw [elements, if_pos hroot]; simp)
  by_contra hrel
  rw [elements, if_neg hrel, ← names, List.nil_append, List.mem_append] at hmem
  rcases hmem with hmem | hmem
  · exact slash_notMem_of_mem_names hmem (List.mem_singleton_self slash)
  · split at hmem <;> simp at hmem

/-- The comparison of names is right for paths that do not go up too far. -/
theorem under_iff (hp : isSubpath p rootfs.bytes) : Under rootfs p ↔ StaysBelow rootfs p := by
  obtain ⟨rest, hrest⟩ := (of_decide_eq_true hp : elements rootfs.bytes <+: elements p)
  have hplace : place p = walk (place rootfs.bytes) (rest.map moveOf) := by
    rw [place, moves, ← hrest, List.map_append, walk_append]
    rfl
  have hbelow : below rootfs p = effect (rest.map moveOf) := by
    rw [below, moves, ← hrest, List.map_append, List.drop_left' (List.length_map _)]
  rw [Under, StaysBelow, hplace, hbelow, suffix_walk_iff,
    and_iff_right (isAbsolute_of_isSubpath hp)]

theorem effect_levels {ms : List (Move Bytes)} (hms : Move.up ∉ ms) : (effect ms).levels = 0 := by
  induction ms using List.reverseRecOn with
  | nil => rfl
  | append_singleton ms m ih =>
    rw [List.mem_append, List.mem_singleton, not_or] at hms
    rw [effect, List.foldl_concat, ← effect]
    cases m with
    | stay => exact ih hms.1
    | up => exact absurd rfl hms.2
    | down name => exact ih hms.1

/-- A path without steps up is no problem. -/
theorem staysBelow_of_dotDot_notMem (hp : dotDot ∉ elements p) : StaysBelow rootfs p := by
  have hup : Move.up ∉ (moves p).drop (elements rootfs.bytes).length := by
    intro hmem
    obtain ⟨e, he, hmove⟩ := List.mem_map.mp (List.mem_of_mem_drop hmem)
    rw [moveOf] at hmove
    split_ifs at hmove with h₁ h₂
    exact hp (h₂ ▸ he)
  rw [StaysBelow, below, effect_levels hup, List.take_zero]
  exact List.nil_suffix

/-! ## The rounds -/

/-- The three cases of a round differ in where the link leads. -/
theorem guard_destination {α : Type*} (p target : Bytes) (go : Bytes → α) (stop : α) :
    (if ¬ isSubpath target rootfs.bytes then
      if isAbsolute target then go (joinPath rootfs.bytes (relativePath target))
      else if isSubpath (joinPath (parentPath p) (relativePath target)) rootfs.bytes then
        go (joinPath (parentPath p) (relativePath target)) else stop
    else go target) = if isSubpath (destination rootfs p target) rootfs.bytes then
      go (destination rootfs p target) else stop := by
  by_cases hsub : isSubpath target rootfs.bytes
  · rw [if_neg (not_not_intro hsub), destination, if_pos hsub, if_pos hsub]
  · by_cases habs : isAbsolute target
    · rw [if_pos hsub, if_pos habs, destination, if_neg hsub, if_pos habs,
        if_pos (isSubpath_joinPath target)]
    · rw [if_pos hsub, if_neg habs, destination, if_neg hsub, if_neg habs,
        relativePath_eq_self habs]

theorem round_link {target : Bytes} (hfails : ¬ h.lstatFails p) (hlink : h.isSymlink p)
    (hread : h.readSymlink p = some target) :
    round h rootfs p = if isSubpath (destination rootfs p target) rootfs.bytes then
      .inl (destination rootfs p target) else .inr .error := by
  rw [round, if_neg hfails, if_pos hlink, hread]
  exact guard_destination p target Sum.inl (Sum.inr Outcome.error)

/-- The loop goes on exactly where a link leads on. -/
theorem leads_iff : Orbit.Leads (round h rootfs) p q ↔ Follows h rootfs p q := by
  rw [Orbit.Leads, Follows]
  by_cases hfails : h.lstatFails p
  · simp [round, hfails]
  by_cases hlink : h.isSymlink p
  · cases hread : h.readSymlink p with
    | none => simp [round, hfails, hlink, hread]
    | some target =>
      rw [round_link hfails hlink hread]
      simp only [Option.some.injEq, exists_eq_left', hfails, hlink, Bool.false_eq_true,
        not_false_eq_true, true_and]
      split
      · next hsub =>
        rw [Sum.inl.injEq]
        exact ⟨fun hq ↦ ⟨hq.symm, hq ▸ hsub⟩, fun hq ↦ hq.1.symm⟩
      · next hsub => exact iff_of_false Sum.inr_ne_inl fun hq ↦ hsub (hq.1 ▸ hq.2)
  · simp [round, hfails, hlink]

theorem leads_eq : Orbit.Leads (round h rootfs) = Follows h rootfs :=
  funext₂ fun _ _ ↦ propext leads_iff

/-- The loop returns a path exactly where it is no link. -/
theorem round_eq_returned_iff :
    round h rootfs p = .inr (.returned q) ↔ ¬ h.lstatFails p ∧ ¬ h.isSymlink p ∧ p = q := by
  by_cases hfails : h.lstatFails p
  · simp [round, hfails]
  by_cases hlink : h.isSymlink p
  · cases hread : h.readSymlink p with
    | none => simp [round, hfails, hlink, hread]
    | some target =>
      rw [round_link hfails hlink hread]
      split <;> simp [hlink]
  · simp [round, hfails, hlink]

/-- What is long cannot be followed, which leaves finitely many paths that can. -/
theorem finite_isLeft : {p | (round h rootfs p).isLeft}.Finite := by
  refine (List.finite_length_lt (BitVec 8) pathMax).subset fun p hp ↦ ?_
  by_contra hlong
  have hfails := h.tooLong p (not_lt.mp hlong)
  have hround : (round h rootfs p).isLeft := hp
  rw [round, if_pos hfails] at hround
  exact Bool.false_ne_true hround

/-! ## The loop -/

theorem isSubpath_start (hc : start h rootfs path = some c) : isSubpath c rootfs.bytes := by
  obtain ⟨current, -, rfl⟩ := Option.map_eq_some_iff.mp hc
  by_cases hsub : isSubpath current rootfs.bytes
  · rwa [if_neg (not_not_intro hsub)]
  · rw [if_pos hsub]
    exact isSubpath_joinPath current

/-- What the links lead to begins with the names of the root file system. -/
theorem isSubpath_of_follows (hc : isSubpath c rootfs.bytes)
    (hp : ReflTransGen (Follows h rootfs) c p) : isSubpath p rootfs.bytes := by
  induction hp with
  | refl => exact hc
  | tail _ hlink _ =>
    obtain ⟨-, -, -, -, -, hsub⟩ := hlink
    exact hsub

/-- A path is returned where the links end. -/
theorem resolve_eq_returned_iff : (∃ fuel, resolve h rootfs fuel path = some (.returned p)) ↔
    ∃ c, start h rootfs path = some c ∧ ReflTransGen (Follows h rootfs) c p ∧
      ¬ h.lstatFails p ∧ ¬ h.isSymlink p := by
  simp only [resolve]
  cases start h rootfs path with
  | none => simp
  | some c =>
    simp only [Option.some.injEq, exists_eq_left', ← leads_eq]
    constructor
    · rintro ⟨fuel, hloop⟩
      obtain ⟨q, hq, hround⟩ := Orbit.loop_eq_some hloop
      obtain ⟨hfails, hlink, rfl⟩ := round_eq_returned_iff.mp hround
      exact ⟨hq, hfails, hlink⟩
    · rintro ⟨hp, hfails, hlink⟩
      exact Orbit.exists_loop_eq_some hp (round_eq_returned_iff.mpr ⟨hfails, hlink, rfl⟩)

/-- The loop stops if and only if it does not come back to a path. -/
theorem terminates_iff : (∃ fuel o, resolve h rootfs fuel path = some o) ↔
    ∀ c p, start h rootfs path = some c → ReflTransGen (Follows h rootfs) c p →
      ¬ TransGen (Follows h rootfs) p p := by
  simp only [resolve]
  cases start h rootfs path with
  | none => simp
  | some c =>
    rw [Orbit.exists_loop_eq_some_iff finite_isLeft, leads_eq]
    constructor
    · rintro hno c' p ⟨⟩
      exact hno p
    · exact fun hno p ↦ hno c p rfl

theorem resolve_unique {fuel' : ℕ} {o' : Outcome} (ho : resolve h rootfs fuel path = some o)
    (ho' : resolve h rootfs fuel' path = some o') : o = o' := by
  rw [resolve] at ho ho'
  cases hstart : start h rootfs path with
  | none =>
    rw [hstart] at ho ho'
    exact Option.some_injective _ (ho.symm.trans ho')
  | some c =>
    rw [hstart] at ho ho'
    exact Orbit.loop_unique ho ho'

/-- What `execve` uses leaves the questions out that fail. -/
theorem resolveLoop_link {target : Bytes} (hlink : h.isSymlink p)
    (hread : h.readSymlink p = some target) :
    resolveLoop h.toFileSystem rootfs (fuel + 1) p =
      if isSubpath (destination rootfs p target) rootfs.bytes then
        resolveLoop h.toFileSystem rootfs fuel (destination rootfs p target) else none := by
  rw [resolveLoop, if_pos hlink, hread]
  exact guard_destination p target (resolveLoop h.toFileSystem rootfs fuel) none

theorem resolveLoop_of_loop (hc : Orbit.loop (round h rootfs) fuel c = some (.returned p)) :
    resolveLoop h.toFileSystem rootfs fuel c = some p := by
  induction fuel generalizing c with
  | zero => cases hc
  | succ fuel ih =>
    rw [Orbit.loop] at hc
    by_cases hfails : h.lstatFails c
    · simp [round, hfails] at hc
    by_cases hlink : h.isSymlink c
    · cases hread : h.readSymlink c with
      | none => simp [round, hfails, hlink, hread] at hc
      | some target =>
        rw [round_link hfails hlink hread] at hc
        rw [resolveLoop_link hlink hread]
        split at hc
        · next next hnext =>
          split at hnext
          · next hsub =>
            obtain rfl := Sum.inl_injective hnext
            rw [if_pos hsub]
            exact ih hc
          · cases hnext
        · next o hout =>
          cases hc
          split at hout <;> cases hout
    · rw [round_eq_returned_iff.mpr ⟨hfails, hlink, rfl⟩] at hc
      cases hc
      rw [resolveLoop, if_neg hlink]

/-- A path that is returned is the one that `execve` goes on with. -/
theorem execve_resolve_eq (hp : resolve h rootfs fuel path = some (.returned p)) :
    Execve.resolve h.toFileSystem rootfs fuel path = some p := by
  rw [resolve, start] at hp
  rw [Execve.resolve]
  cases habs : absolutePath h.toFileSystem path with
  | none => simp [habs] at hp
  | some current =>
    rw [habs] at hp
    have hloop := resolveLoop_of_loop hp
    by_cases hsub : isSubpath current rootfs.bytes
    · simpa [hsub] using hloop
    · simpa [hsub] using hloop

/-- The loop is right where the links of the path are in no circle and end below the root file
system. -/
theorem resolve_iff (h : Host) (rootfs : Rootfs) (path : Bytes) :
    Resolves h rootfs path ↔ Followable h rootfs path := by
  constructor
  · rintro ⟨fuel, o, ho, hright⟩
    refine ⟨terminates_iff.mp ⟨fuel, o, ho⟩, fun c p hc hp hfails hlink ↦ ?_⟩
    obtain ⟨fuel', ho'⟩ := resolve_eq_returned_iff.mpr ⟨c, hc, hp, hfails, hlink⟩
    have hsub := isSubpath_of_follows (isSubpath_start hc) hp
    exact (under_iff hsub).mp (hright p (resolve_unique ho ho')).1
  · rintro ⟨hacyclic, hbelow⟩
    obtain ⟨fuel, o, ho⟩ := terminates_iff.mpr hacyclic
    refine ⟨fuel, o, ho, ?_⟩
    rintro p rfl
    obtain ⟨c, hc, hp, hfails, hlink⟩ := resolve_eq_returned_iff.mp ⟨fuel, ho⟩
    have hsub := isSubpath_of_follows (isSubpath_start hc) hp
    exact ⟨(under_iff hsub).mpr (hbelow c p hc hp hfails hlink), hlink⟩

/-! ## Samples -/

/-- Nothing fails but what is too long, and there is the one link. -/
def oneLink (link target : Bytes) : Host where
  currentPath := [slash]
  isSymlink p := p = link
  readSymlink p := if p = link then some target else none
  pathExists _ := false
  isRegularFile _ := false
  lines _ := none
  content _ := []
  lstatFails p := pathMax ≤ p.length
  tooLong _ hp := decide_eq_true hp

def sampleRootfs : Rootfs := plainInstance.rootfs

/-- A link to itself is followed for ever, and two steps up from a name are outside. -/
theorem not_resolves :
    ¬ Resolves (oneLink (asciiBytes "/r/a") (asciiBytes "a")) sampleRootfs (asciiBytes "/a") ∧
      ¬ Resolves (oneLink (asciiBytes "/r/a") (asciiBytes "a")) sampleRootfs
        (asciiBytes "/b/../../c") := by
  constructor
  · rintro ⟨fuel, o, ho, -⟩
    have hround : round (oneLink (asciiBytes "/r/a") (asciiBytes "a")) sampleRootfs
        (asciiBytes "/r/a") = .inl (asciiBytes "/r/a") := by decide
    have hloop : Orbit.loop (round (oneLink (asciiBytes "/r/a") (asciiBytes "a")) sampleRootfs)
        fuel (asciiBytes "/r/a") = some o := ho
    induction fuel with
    | zero => cases hloop
    | succ fuel ih =>
      rw [Orbit.loop, hround] at hloop
      exact ih hloop hloop
  · rintro ⟨fuel, o, ho, hright⟩
    have hreturned : resolve (oneLink (asciiBytes "/r/a") (asciiBytes "a")) sampleRootfs 1
        (asciiBytes "/b/../../c") = some (.returned (asciiBytes "/r/b/../../c")) := by decide
    have hunder := (hright _ (resolve_unique ho hreturned)).1
    exact absurd hunder.2 (by decide)

end Symlinker

end Felix86
