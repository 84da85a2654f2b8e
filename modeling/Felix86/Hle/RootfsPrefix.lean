import Felix86.Hle.Execve

/-!
# Removing the prefix of the root file system

What the host kernel returns as a path can begin with the path of the root file system, which the
guest must not see. `Filesystem::removeRootfsPrefix` removes it: it compares the beginning of the
string with the normal form of the configured path, and the whole path with the configured path
itself.

The guest should see what is left of a path behind the names of the configured path, or behind those
of its normal form: both name the root file system. The comparison of strings takes a sibling whose
name is longer for something below the root file system, and it misses the configured path when that
is not in normal form. `removeRootfsPrefix_iff` says on which paths the guest gets what it should;
for a configured path in normal form these are the paths that are no such siblings and have a single
slash after the prefix.
-/

namespace Felix86

namespace RootfsPrefix

open Emulator Execve

/-! ## `path::lexically_normal` -/

def dot : Bytes := [46]
def dotDot : Bytes := [46, 46]

/-- The names that are left, in reverse order, and whether a slash follows the last of them. -/
structure Normal where
  names : List Bytes
  slashed : Bool

/-- One element of the path. The empty name after the last slash counts as a dot. -/
def Normal.step (absolute : Bool) (n : Normal) (e : Bytes) : Normal :=
  if e = dot ∨ e = [] then { n with slashed := true }
  else if e = dotDot then
    match n.names with
    | [] => if absolute then n else ⟨[dotDot], false⟩
    | top :: rest => if top = dotDot then ⟨dotDot :: top :: rest, false⟩ else ⟨rest, true⟩
  else ⟨e :: n.names, false⟩

/-- The elements of a path without its root directory. -/
def relativeElements (p : Bytes) : List Bytes :=
  if isAbsolute p then (elements p).tail else elements p

def lexicallyNormal (p : Bytes) : Bytes :=
  if p = [] then []
  else
    let n := (relativeElements p).foldl (Normal.step (isAbsolute p)) ⟨[], false⟩
    let root := if isAbsolute p then [slash] else []
    match n.names with
    | [] => if isAbsolute p then root else dot
    | top :: _ =>
      -- a slash after two dots is dropped
      root ++ [slash].intercalate n.names.reverse ++
        (if n.slashed ∧ top ≠ dotDot then [slash] else [])

/-! ## The code -/

/-- `Filesystem::removeRootfsPrefix`. The comparison with the configured path is one of paths. -/
def removeRootfsPrefix (rootfs path : Bytes) : Option Bytes :=
  let normal := lexicallyNormal rootfs
  if normal <+: path then
    let path := if elements path = elements rootfs then [slash] else path.drop normal.length
    if path = [] then none
    else if path.head? = some slash then some path
    else some (slash :: path)
  else some path

/-- `Filesystem::resolve`, after the special paths: where a path of the guest is on the host. -/
def resolvePath (rootfs p : Bytes) : Bytes :=
  if p.tail = [] then rootfs else joinPath rootfs p.tail

/-! ## What the guest should see -/

def names (p : Bytes) : List Bytes := (p.splitOn slash).filter (· ≠ [])

/-- What is left of a path behind the given names. -/
def behind : List Bytes → Bytes → Option Bytes
  | [], p => some p
  | name :: rest, p =>
    if (relativePath p).takeWhile (· ≠ slash) = name then
      behind rest ((relativePath p).dropWhile (· ≠ slash))
    else none

/-- What is left of a path that is the root file system or below it, by the configured path or by
its normal form. -/
def guestRest (rootfs path : Bytes) : Option Bytes :=
  if isAbsolute rootfs then
    (behind (names rootfs) path).or (behind (names (lexicallyNormal rootfs)) path)
  else none

def guestView (rootfs path : Bytes) : Bytes :=
  match guestRest rootfs path with
  | some rest => slash :: relativePath rest
  | none => path

/-- The text is not empty and does not begin with two slashes. -/
def OneSlash (s : Bytes) : Prop := s ≠ [] ∧ ¬ [slash, slash] <+: s

instance (s : Bytes) : Decidable (OneSlash s) := inferInstanceAs (Decidable (_ ∧ _))

/-- When the code gives the guest what it should: below the configured path, below its normal form,
and elsewhere. -/
def Right (rootfs path : Bytes) : Prop :=
  let normal := lexicallyNormal rootfs
  let remaining := path.drop normal.length
  isAbsolute rootfs →
    if names rootfs <+: names path then
      normal <+: path ∧ (elements path = elements rootfs ∨
        names normal = names rootfs ∧ OneSlash remaining)
    else if names normal <+: names path then normal <+: path ∧ OneSlash remaining
    else ¬ normal <+: path

/-! ## Names of a path -/

section

variable {rootfs path p rest : Bytes}

theorem names_slash (p : Bytes) : names (slash :: p) = names p := by
  have h : (slash :: p).splitOn slash = [[]] ++ p.splitOn slash := by
    have happ := List.splitOn_append_cons_self (a := slash) [] p
    simpa using happ
  rw [names, h, List.filter_append]
  rfl

theorem names_relativePath (p : Bytes) : names (relativePath p) = names p := by
  induction p with
  | nil => rfl
  | cons b p ih =>
    by_cases hb : b = slash
    · subst hb
      rw [names_slash, ← ih]
      congr 1
    · rw [relativePath, List.dropWhile_cons_of_neg (by simpa using hb)]

theorem names_nil : names [] = [] := by
  simp [names]

theorem names_cons_of_ne {b : BitVec 8} (hb : b ≠ slash) (p : Bytes) : names (b :: p) =
    (b :: p).takeWhile (· ≠ slash) :: names ((b :: p).dropWhile (· ≠ slash)) := by
  have hsplit := List.takeWhile_append_dropWhile (p := (· ≠ slash)) (l := b :: p)
  have hhead := List.head?_dropWhile_not (· ≠ slash) (b :: p)
  have hw : slash ∉ (b :: p).takeWhile (· ≠ slash) := fun h ↦ by
    simpa using List.mem_takeWhile_imp h
  have hne : (b :: p).takeWhile (· ≠ slash) ≠ [] := by
    rw [List.takeWhile_cons_of_pos (by simpa using hb)]
    exact List.cons_ne_nil _ _
  generalize (b :: p).takeWhile (· ≠ slash) = w at hsplit hw hne ⊢
  generalize (b :: p).dropWhile (· ≠ slash) = d at hsplit hhead ⊢
  rw [← hsplit]
  cases d with
  | nil =>
    rw [List.append_nil, names_nil, names, List.splitOn_eq_singleton hw,
      List.filter_singleton, decide_eq_true hne]
    rfl
  | cons c q =>
    obtain rfl : c = slash := by simpa using hhead
    rw [names_slash, names, List.splitOn_append_cons_self_of_not_mem hw, List.filter_cons,
      if_pos (by simpa using hne)]
    rfl

/-- Names are read from the left. -/
theorem names_eq (p : Bytes) : names p =
    if relativePath p = [] then []
    else (relativePath p).takeWhile (· ≠ slash) :: names
        ((relativePath p).dropWhile (· ≠ slash)) := by
  rw [← names_relativePath]
  cases hrel : relativePath p with
  | nil => rw [if_pos rfl, names_nil]
  | cons b q =>
    have hb : b ≠ slash := by
      rintro rfl
      have habs := isAbsolute_relativePath p
      rw [hrel] at habs
      exact habs (by simp [isAbsolute])
    rw [if_neg (List.cons_ne_nil _ _), names_cons_of_ne hb]

theorem length_dropWhile_lt {s : Bytes} (hs : relativePath s ≠ []) :
    ((relativePath s).dropWhile (· ≠ slash)).length < s.length := by
  have hle : (relativePath s).length ≤ s.length := (List.dropWhile_suffix _).length_le
  cases hrel : relativePath s with
  | nil => exact absurd hrel hs
  | cons b q =>
    have hb : b ≠ slash := by
      rintro rfl
      have habs := isAbsolute_relativePath s
      rw [hrel] at habs
      exact habs (by simp [isAbsolute])
    rw [hrel, List.length_cons] at hle
    rw [List.dropWhile_cons_of_pos (by simpa using hb)]
    exact lt_of_le_of_lt (List.dropWhile_suffix _).length_le hle

end

/-! ## A border of names -/

/-- A text that is empty or begins with a slash. -/
def AtSlash (s : Bytes) : Prop := ∀ b ∈ s.head?, b = slash

/-- A text that is empty or ends with a slash. -/
def EndsAtSlash (s : Bytes) : Prop := ∀ b ∈ s.getLast?, b = slash

section

variable {s r u d : Bytes}

theorem AtSlash.takeWhile (h : AtSlash r) : r.takeWhile (· ≠ slash) = [] := by
  cases r with
  | nil => rfl
  | cons b r =>
    obtain rfl : b = slash := h b rfl
    exact List.takeWhile_cons_of_neg (by simp)

theorem AtSlash.dropWhile (h : AtSlash r) : r.dropWhile (· ≠ slash) = r := by
  cases r with
  | nil => rfl
  | cons b r =>
    obtain rfl : b = slash := h b rfl
    exact List.dropWhile_cons_of_neg (by simp)

/-- The first name of a text stays what it is if a slash follows it. -/
theorem firstName_append (h : u.dropWhile (· ≠ slash) ≠ [] ∨ AtSlash r) :
    (u ++ r).takeWhile (· ≠ slash) = u.takeWhile (· ≠ slash) ∧
      (u ++ r).dropWhile (· ≠ slash) = u.dropWhile (· ≠ slash) ++ r := by
  by_cases hempty : u.dropWhile (· ≠ slash) = []
  · have hr := h.resolve_left (not_not_intro hempty)
    have hall := List.dropWhile_eq_nil_iff.mp hempty
    rw [List.takeWhile_append_of_pos hall, List.dropWhile_append_of_pos hall, hr.takeWhile,
      hr.dropWhile, hempty, List.append_nil]
    exact ⟨(List.takeWhile_eq_self_iff.mpr hall).symm, rfl⟩
  · have hlength : (u.takeWhile (· ≠ slash)).length ≠ u.length := by
      intro hlength
      have hsplit := congrArg List.length
        (List.takeWhile_append_dropWhile (p := (· ≠ slash)) (l := u))
      have hpos := List.length_pos_iff.mpr hempty
      rw [List.length_append] at hsplit
      omega
    rw [List.takeWhile_append, List.dropWhile_append, if_neg hlength,
      if_neg (by simpa using hempty)]
    exact ⟨rfl, rfl⟩

theorem EndsAtSlash.of_suffix (h : EndsAtSlash s) (hd : d <:+ s) : EndsAtSlash d := by
  obtain ⟨t, rfl⟩ := hd
  cases hlast : d.getLast? with
  | none => simp [EndsAtSlash, hlast]
  | some b =>
    have hb := h b (by rw [List.getLast?_append, hlast]; rfl)
    simp [EndsAtSlash, hlast, hb]

theorem EndsAtSlash.append_left (h : EndsAtSlash d) (hne : d ≠ []) (t : Bytes) :
    EndsAtSlash (t ++ d) := by
  intro b hb
  rw [List.getLast?_append, List.getLast?_eq_some_getLast hne, Option.some_or] at hb
  exact h b (by rwa [List.getLast?_eq_some_getLast hne])

theorem suffix_self (s : Bytes) : (relativePath s).dropWhile (· ≠ slash) <:+ s :=
  (List.dropWhile_suffix _).trans (List.dropWhile_suffix _)

theorem relativePath_append (hrel : relativePath s ≠ []) (r : Bytes) :
    relativePath (s ++ r) = relativePath s ++ r := by
  rw [relativePath, List.dropWhile_append, if_neg (by rwa [List.isEmpty_iff]), ← relativePath]

/-- A text of slashes ends with one. -/
theorem endsAtSlash_of_relativePath (hrel : relativePath s = []) : EndsAtSlash s := by
  intro b hb
  have hall := List.dropWhile_eq_nil_iff.mp hrel b (List.mem_of_getLast? hb)
  simpa using hall

/-- A text without slashes does not end with one. -/
theorem not_endsAtSlash (hrel : relativePath s ≠ [])
    (hempty : (relativePath s).dropWhile (· ≠ slash) = []) : ¬ EndsAtSlash s := by
  intro h
  have hlast := h.of_suffix (List.dropWhile_suffix _) _ (List.getLast?_eq_some_getLast hrel)
  have hall := List.dropWhile_eq_nil_iff.mp hempty _ (List.getLast_mem hrel)
  exact absurd hlast (by simpa using hall)

/-- Behind the names of its beginning a path has the rest of it, if no name crosses the border. -/
theorem behind_names_append (h : EndsAtSlash s ∨ AtSlash r) :
    ∃ rest, behind (names s) (s ++ r) = some rest ∧ relativePath rest = relativePath r := by
  induction hlen : s.length using Nat.strong_induction_on generalizing s with
  | h n ih =>
    rw [names_eq]
    by_cases hrel : relativePath s = []
    · refine ⟨s ++ r, by rw [if_pos hrel]; rfl, ?_⟩
      rw [relativePath, List.dropWhile_append, if_pos (by rwa [List.isEmpty_iff]), ← relativePath]
    · have hborder : (relativePath s).dropWhile (· ≠ slash) ≠ [] ∨ AtSlash r := by
        rw [or_iff_not_imp_left]
        exact fun hempty ↦ h.resolve_left (not_endsAtSlash hrel (not_not.mp hempty))
      obtain ⟨htake, hdrop⟩ := firstName_append hborder
      obtain ⟨rest, hbehind, hrest⟩ := ih _ (hlen ▸ length_dropWhile_lt hrel)
        (h.imp_left fun h ↦ h.of_suffix (suffix_self s)) rfl
      refine ⟨rest, ?_, hrest⟩
      rw [if_neg hrel, behind, relativePath_append hrel, if_pos htake, hdrop, hbehind]

/-- A name that crosses the border is none of the beginning. -/
theorem behind_names_append_eq_none (hs : ¬ EndsAtSlash s) (hr : ¬ AtSlash r) :
    behind (names s) (s ++ r) = none := by
  induction hlen : s.length using Nat.strong_induction_on generalizing s with
  | h n ih =>
    have hrel : relativePath s ≠ [] := fun hrel ↦ hs (endsAtSlash_of_relativePath hrel)
    rw [names_eq, if_neg hrel, behind, relativePath_append hrel]
    by_cases hempty : (relativePath s).dropWhile (· ≠ slash) = []
    · -- the last name of the beginning is longer in the path
      have hall := List.dropWhile_eq_nil_iff.mp hempty
      refine if_neg fun heq ↦ hr ?_
      rw [List.takeWhile_append_of_pos hall, List.takeWhile_eq_self_iff.mpr hall,
        List.append_right_eq_self] at heq
      intro b hb
      obtain ⟨t, rfl⟩ := List.head?_eq_some_iff.mp hb
      by_contra hne
      rw [List.takeWhile_cons_of_pos (by simpa using hne)] at heq
      cases heq
    · obtain ⟨htake, hdrop⟩ := firstName_append (r := r) (.inl hempty)
      have hlast : ¬ EndsAtSlash ((relativePath s).dropWhile (· ≠ slash)) := by
        obtain ⟨t, ht⟩ := suffix_self s
        intro h
        refine hs ?_
        rw [← ht]
        exact h.append_left hempty t
      rw [if_pos htake, hdrop]
      exact ih _ (hlen ▸ length_dropWhile_lt hrel) hlast rfl

/-- Behind its own names a path has slashes only. -/
theorem behind_names_self (s : Bytes) :
    ∃ rest, behind (names s) s = some rest ∧ relativePath rest = [] := by
  obtain ⟨rest, hbehind, hrest⟩ := @behind_names_append s [] (.inr fun b hb ↦ nomatch hb)
  rw [List.append_nil] at hbehind
  exact ⟨rest, hbehind, hrest⟩

end

section

variable {rootfs path p q rest : Bytes}

theorem slash_notMem_of_mem_names {p name : Bytes} (h : name ∈ names p) : slash ∉ name := by
  induction hlen : p.length using Nat.strong_induction_on generalizing p with
  | h n ih =>
    rw [names_eq] at h
    by_cases hrel : relativePath p = []
    · rw [if_pos hrel] at h
      cases h
    · rw [if_neg hrel] at h
      rcases List.mem_cons.mp h with rfl | h
      · exact fun hmem ↦ by simpa using List.mem_takeWhile_imp hmem
      · exact ih _ (hlen ▸ length_dropWhile_lt hrel) h rfl

theorem ne_nil_of_mem_names {p name : Bytes} (h : name ∈ names p) : name ≠ [] := by
  simpa using (List.mem_filter.mp h).2

/-- Paths that are equal as paths have the same names. -/
theorem names_of_elements (hp : isAbsolute p) (h : elements p = elements q) :
    isAbsolute q ∧ names p = names q := by
  have hfilter : ∀ s, (elements s).filter (fun e ↦ e ≠ [slash] ∧ e ≠ []) = names s := by
    intro s
    have hkeep : (names s).filter (fun e ↦ e ≠ [slash] ∧ e ≠ []) = names s := by
      refine List.filter_eq_self.mpr fun e he ↦ ?_
      have hslash : e ≠ [slash] := by
        rintro rfl
        exact slash_notMem_of_mem_names he (by simp)
      simpa using ⟨hslash, ne_nil_of_mem_names he⟩
    rw [elements, List.filter_append, List.filter_append, ← names, hkeep]
    split <;> split <;> simp
  have hmem : [slash] ∈ elements q := by
    rw [← h, elements, if_pos hp]
    simp
  refine ⟨?_, by rw [← hfilter p, h, hfilter q]⟩
  by_contra hq
  rw [elements, if_neg hq, ← names, List.nil_append, List.mem_append] at hmem
  rcases hmem with hmem | hmem
  · exact slash_notMem_of_mem_names hmem (by simp)
  · split at hmem <;> simp at hmem

/-- Behind the configured path itself there is nothing. -/
theorem behind_of_elements (hp : isAbsolute path) (h : elements path = elements rootfs) :
    ∃ rest, behind (names rootfs) path = some rest ∧ relativePath rest = [] := by
  rw [← (names_of_elements hp h).2]
  exact behind_names_self path

theorem relativePath_eq_self {s : Bytes} (h : ¬ isAbsolute s) : relativePath s = s := by
  cases s with
  | nil => rfl
  | cons b s =>
    have hb : b ≠ slash := by simpa [isAbsolute] using h
    exact List.dropWhile_cons_of_neg (by simpa using hb)

theorem isAbsolute_iff (s : Bytes) : isAbsolute s ↔ [slash] <+: s := by
  cases s with
  | nil => simp [isAbsolute]
  | cons b s => simp [isAbsolute, List.cons_prefix_cons, eq_comm]

/-- What begins with a slash is one slash and a relative path, unless there are two slashes. -/
theorem eq_slash_relativePath_iff {s : Bytes} (h : isAbsolute s) (t : Bytes) :
    s = slash :: relativePath t ↔ ¬ [slash, slash] <+: s ∧ relativePath s = relativePath t := by
  obtain ⟨s, rfl⟩ : ∃ s', s = slash :: s' := by
    obtain ⟨s', rfl⟩ := (isAbsolute_iff s).mp h
    exact ⟨s', rfl⟩
  have hrel : relativePath (slash :: s) = relativePath s := List.dropWhile_cons_of_pos (by simp)
  rw [List.cons_prefix_cons, hrel, List.cons_inj_right, ← isAbsolute_iff]
  constructor
  · intro hs
    have hnot : ¬ isAbsolute s := by
      rw [hs]
      exact isAbsolute_relativePath t
    exact ⟨fun hpre ↦ hnot hpre.2, by rw [relativePath_eq_self hnot, hs]⟩
  · rintro ⟨hpre, hs⟩
    rw [← hs, relativePath_eq_self fun habs ↦ hpre ⟨rfl, habs⟩]

theorem behind_suffix {ns : List Bytes} {p : Bytes} (h : behind ns p = some rest) : rest <:+ p := by
  induction ns generalizing p with
  | nil =>
    cases h
    exact List.suffix_rfl
  | cons name ns ih =>
    rw [behind] at h
    split at h
    · exact (ih h).trans ((List.dropWhile_suffix _).trans (List.dropWhile_suffix _))
    · cases h

/-- The names of a path are those before and those behind. -/
theorem names_of_behind {ns : List Bytes} (hns : ∀ name ∈ ns, name ≠ [])
    (h : behind ns p = some rest) : names p = ns ++ names rest := by
  induction ns generalizing p with
  | nil =>
    cases h
    rfl
  | cons name ns ih =>
    obtain ⟨hname, hns⟩ := List.forall_mem_cons.mp hns
    rw [behind] at h
    split at h
    · next htake =>
      have hrel : relativePath p ≠ [] := by
        intro hrel
        rw [hrel] at htake
        exact hname htake.symm
      rw [names_eq, if_neg hrel, htake, ih hns h, List.cons_append]
    · cases h

theorem isSome_behind_iff {ns : List Bytes} (hns : ∀ name ∈ ns, name ≠ []) :
    (behind ns p).isSome ↔ ns <+: names p := by
  constructor
  · intro h
    obtain ⟨rest, hrest⟩ := Option.isSome_iff_exists.mp h
    rw [names_of_behind hns hrest]
    exact List.prefix_append _ _
  · intro h
    induction ns generalizing p with
    | nil => rfl
    | cons name ns ih =>
      rw [names_eq] at h
      split at h
      · cases List.prefix_nil.mp h
      · obtain ⟨hname, hprefix⟩ := List.cons_prefix_cons.mp h
        rw [behind, if_pos hname.symm]
        exact ih (List.forall_mem_cons.mp hns).2 hprefix

theorem isSome_behind_names_iff : (behind (names p) q).isSome ↔ names p <+: names q :=
  isSome_behind_iff fun _ h ↦ ne_nil_of_mem_names h

/-- What is left behind a name begins with a slash. -/
theorem atSlash_of_behind {ns : List Bytes} (hne : ns ≠ []) (h : behind ns p = some rest) :
    AtSlash rest := by
  induction ns generalizing p with
  | nil => exact absurd rfl hne
  | cons name ns ih =>
    rw [behind] at h
    split at h
    · cases ns with
      | nil =>
        cases h
        intro b hb
        have hhead := List.head?_dropWhile_not (· ≠ slash) (relativePath p)
        rw [Option.mem_def.mp hb] at hhead
        simpa using hhead
      | cons name' ns => exact ih (List.cons_ne_nil _ _) h
    · cases h

/-- The guest's view of something below the root file system is another path. -/
theorem ne_slash_relativePath (hp : names p ≠ [])
    (h : behind (names p) path = some rest) : path ≠ slash :: relativePath rest := by
  intro hpath
  have hnames := names_of_behind (fun _ h ↦ ne_nil_of_mem_names h) h
  rw [hpath, names_slash, names_relativePath] at hnames
  exact hp (List.self_eq_append_left.mp hnames)

/-- A configured path without names is the root directory. -/
theorem lexicallyNormal_of_names (habs : isAbsolute rootfs) (h : names rootfs = []) :
    lexicallyNormal rootfs = [slash] := by
  have hrel : relativePath rootfs = [] := by
    by_contra hne
    rw [names_eq, if_neg hne] at h
    cases h
  have helements : relativeElements rootfs = [] := by
    rw [relativeElements, if_pos habs, elements, if_pos habs, ← names, h, if_neg fun hc ↦ hc.2 hrel]
    rfl
  have hne : rootfs ≠ [] := by
    rintro rfl
    cases habs
  rw [lexicallyNormal, if_neg hne, helements]
  simp [habs]

/-- What is left becomes the path: with one slash before it, unless it is empty. -/
theorem drop_iff {r t : Bytes} :
    (if r = [] then none else if r.head? = some slash then some r else some (slash :: r)) =
        some (slash :: relativePath t) ↔
      r ≠ [] ∧ ¬ [slash, slash] <+: r ∧ relativePath r = relativePath t := by
  by_cases hr : r = []
  · simp [hr]
  · rw [if_neg hr]
    by_cases habs : r.head? = some slash
    · rw [if_pos habs, Option.some_inj,
        eq_slash_relativePath_iff (by simpa [isAbsolute] using habs)]
      exact ⟨fun h ↦ ⟨hr, h⟩, fun h ↦ h.2⟩
    · have hnot : ¬ isAbsolute r := by simpa [isAbsolute] using habs
      rw [if_neg habs, Option.some_inj, List.cons_inj_right, relativePath_eq_self hnot]
      refine ⟨fun h ↦ ⟨hr, fun hpre ↦ ?_, h⟩, fun h ↦ h.2.2⟩
      exact hnot ((isAbsolute_iff r).mpr ((List.prefix_append [slash] [slash]).trans hpre))

/-- The path does not stay what it is if more than the root directory has been cut off. -/
theorem drop_ne_self {n r : Bytes} (hn : n ≠ []) (hslash : n ≠ [slash]) :
    (if r = [] then none else if r.head? = some slash then some r else some (slash :: r)) ≠
      some (n ++ r) := by
  have hpos := List.length_pos_iff.mpr hn
  split
  · intro heq
    cases heq
  · split
    · intro heq
      have hlength := congrArg List.length (Option.some_inj.mp heq)
      rw [List.length_append] at hlength
      omega
    · intro heq
      have heq : [slash] ++ r = n ++ r := Option.some_inj.mp heq
      exact hslash (List.append_cancel_right heq).symm

/-! ## The normal form -/

/-- Names are not empty and have no slashes. -/
def Proper (ns : List Bytes) : Prop := ∀ name ∈ ns, name ≠ [] ∧ slash ∉ name

theorem proper_step {n : Normal} {e : Bytes} (absolute : Bool) (hn : Proper n.names)
    (he : slash ∉ e) : Proper (n.step absolute e).names := by
  have hdots : dotDot ≠ [] ∧ slash ∉ dotDot := by decide
  rw [Normal.step]
  split
  · exact hn
  · next hdot =>
    split
    · split
      · split
        · exact hn
        · exact List.forall_mem_singleton.mpr hdots
      · next top rest hnames =>
        rw [hnames] at hn
        split
        · exact List.forall_mem_cons.mpr ⟨hdots, hn⟩
        · exact (List.forall_mem_cons.mp hn).2
    · exact List.forall_mem_cons.mpr ⟨⟨fun hnil ↦ hdot (.inr hnil), he⟩, hn⟩

theorem proper_foldl (absolute : Bool) {es : List Bytes} (hes : ∀ e ∈ es, slash ∉ e) {n : Normal}
    (hn : Proper n.names) : Proper (es.foldl (Normal.step absolute) n).names := by
  induction es generalizing n with
  | nil => exact hn
  | cons e es ih =>
    obtain ⟨he, hes⟩ := List.forall_mem_cons.mp hes
    exact ih hes (proper_step absolute hn he)

theorem slash_notMem_of_mem_relativeElements {e : Bytes} (he : e ∈ relativeElements p) :
    slash ∉ e := by
  have hmem : e ∈ names p ++ (if p.getLast? = some slash ∧ relativePath p ≠ [] then [[]]
      else []) := by
    rw [relativeElements, elements, ← names] at he
    split at he
    · exact he
    · simpa using he
  obtain hname | hlast := List.mem_append.mp hmem
  · exact slash_notMem_of_mem_names hname
  · split at hlast
    · rw [List.mem_singleton.mp hlast]
      exact List.not_mem_nil
    · cases hlast

/-- Names that are joined do not begin with a slash. -/
theorem not_isAbsolute_intercalate {ns : List Bytes} (hns : Proper ns) (hne : ns ≠ [])
    (t : Bytes) : ¬ isAbsolute ([slash].intercalate ns ++ t) := by
  obtain ⟨name, rest, rfl⟩ := List.exists_cons_of_ne_nil hne
  obtain ⟨hname, hslash⟩ := (List.forall_mem_cons.mp hns).1
  obtain ⟨b, name, rfl⟩ := List.exists_cons_of_ne_nil hname
  have hb : b ≠ slash := fun hb ↦ hslash (hb ▸ List.mem_cons_self)
  cases rest with
  | nil => simpa [isAbsolute] using hb
  | cons name' rest => simpa [isAbsolute] using hb

/-- The normal form begins with one slash, or with none. -/
theorem exists_lexicallyNormal (p : Bytes) : ∃ t, ¬ isAbsolute t ∧
    lexicallyNormal p = (if isAbsolute p then [slash] else []) ++ t := by
  have hproper : Proper
      ((relativeElements p).foldl (Normal.step (isAbsolute p)) ⟨[], false⟩).names :=
    proper_foldl (isAbsolute p) (fun e he ↦ slash_notMem_of_mem_relativeElements he)
      fun _ h ↦ nomatch h
  rw [lexicallyNormal]
  split
  · next hnil =>
    subst hnil
    exact ⟨[], by decide, rfl⟩
  · dsimp only
    split
    · split
      · exact ⟨[], by decide, (List.append_nil _).symm⟩
      · exact ⟨dot, by decide, rfl⟩
    · next top rest hnames =>
      rw [hnames] at hproper
      have hreverse : Proper (top :: rest).reverse := fun name hmem ↦
        hproper name (List.mem_reverse.mp hmem)
      rw [hnames, List.append_assoc]
      exact ⟨_, not_isAbsolute_intercalate hreverse (by simp) _, rfl⟩

/-- A normal form without names is the root directory. -/
theorem lexicallyNormal_eq_slash (habs : isAbsolute rootfs)
    (h : names (lexicallyNormal rootfs) = []) : lexicallyNormal rootfs = [slash] := by
  obtain ⟨t, ht, hnormal⟩ := exists_lexicallyNormal rootfs
  rw [if_pos habs, List.singleton_append] at hnormal
  rw [hnormal, names_slash, names_eq] at h
  split at h
  · next hrel =>
    rw [relativePath_eq_self ht] at hrel
    rw [hnormal, hrel]
  · cases h

theorem lexicallyNormal_ne_nil (habs : isAbsolute rootfs) : lexicallyNormal rootfs ≠ [] := by
  obtain ⟨t, -, hnormal⟩ := exists_lexicallyNormal rootfs
  rw [hnormal, if_pos habs]
  exact List.cons_ne_nil _ _

/-- What is cut off is what the guest should not see exactly if the configured path has the names of
its normal form. -/
theorem relativePath_eq_iff {r : Bytes} (habs : isAbsolute rootfs)
    (h : behind (names rootfs) (lexicallyNormal rootfs ++ r) = some rest) :
    relativePath r = relativePath rest ↔ names (lexicallyNormal rootfs) = names rootfs := by
  have hproper : ∀ name ∈ names rootfs, name ≠ [] := fun _ h ↦ ne_nil_of_mem_names h
  by_cases hborder : EndsAtSlash (lexicallyNormal rootfs) ∨ AtSlash r
  · obtain ⟨rest', hrest', hrel⟩ := behind_names_append hborder
    have hsplit := names_of_behind hproper h
    rw [names_of_behind (fun _ h ↦ ne_nil_of_mem_names h) hrest'] at hsplit
    constructor
    · intro heq
      rw [← hrel] at heq
      rw [← names_relativePath rest', heq, names_relativePath] at hsplit
      exact List.append_cancel_right hsplit
    · intro hnames
      rw [hnames, h] at hrest'
      rw [Option.some_inj.mp hrest', hrel]
  · -- a name crosses the border
    obtain ⟨hends, hat⟩ := not_or.mp hborder
    refine iff_of_false (fun heq ↦ hends ?_) fun hnames ↦ ?_
    · have hne : names rootfs ≠ [] := by
        intro hnil
        rw [lexicallyNormal_of_names habs hnil] at hends
        exact hends (by simp [EndsAtSlash])
      have hr : ¬ isAbsolute r := by
        intro hr
        obtain ⟨t, rfl⟩ := (isAbsolute_iff r).mp hr
        exact hat (by simp [AtSlash])
      obtain ⟨t, ht⟩ := behind_suffix h
      have hsplit := List.takeWhile_append_dropWhile (p := (· = slash)) (l := rest)
      rw [relativePath_eq_self hr] at heq
      rw [← relativePath, ← heq] at hsplit
      have hslashes : rest.takeWhile (· = slash) ≠ [] := by
        intro hnil
        rw [hnil, List.nil_append] at hsplit
        exact hat (hsplit ▸ atSlash_of_behind hne h)
      rw [← hsplit, ← List.append_assoc] at ht
      rw [← List.append_cancel_right ht]
      refine EndsAtSlash.append_left (fun b hb ↦ ?_) hslashes t
      simpa using List.mem_takeWhile_imp (List.mem_of_getLast? hb)
    · rw [← hnames, behind_names_append_eq_none hends hat] at h
      cases h

/-! ## What the guest sees -/

theorem removeRootfsPrefix_of_foreign (h : ¬ lexicallyNormal rootfs <+: path) :
    removeRootfsPrefix rootfs path = some path := if_neg h

/-- A path below the configured one. -/
theorem right_configured (hpath : isAbsolute path) (habs : isAbsolute rootfs)
    (hrest : behind (names rootfs) path = some rest) :
    removeRootfsPrefix rootfs path = some (slash :: relativePath rest) ↔
      lexicallyNormal rootfs <+: path ∧ (elements path = elements rootfs ∨
        names (lexicallyNormal rootfs) = names rootfs ∧
          OneSlash (path.drop (lexicallyNormal rootfs).length)) := by
  by_cases hpre : lexicallyNormal rootfs <+: path
  · rw [removeRootfsPrefix, if_pos hpre, and_iff_right hpre]
    by_cases helements : elements path = elements rootfs
    · obtain ⟨rest', hrest', hrel⟩ := behind_of_elements hpath helements
      rw [hrest] at hrest'
      rw [if_pos helements, Option.some_inj.mp hrest', hrel]
      exact iff_of_true rfl (.inl helements)
    · rw [if_neg helements, or_iff_right helements]
      obtain ⟨r, rfl⟩ := hpre
      rw [List.drop_left, ← relativePath_eq_iff habs hrest]
      exact drop_iff.trans (and_assoc.symm.trans and_comm)
  · have hne : names rootfs ≠ [] := by
      intro hnil
      rw [lexicallyNormal_of_names habs hnil] at hpre
      exact hpre ((isAbsolute_iff path).mp hpath)
    rw [removeRootfsPrefix_of_foreign hpre, Option.some_inj]
    exact iff_of_false (ne_slash_relativePath hne hrest) fun h ↦ hpre h.1

/-- A path that is below the normal form only. -/
theorem right_normal (hpath : isAbsolute path) (habs : isAbsolute rootfs)
    (hnone : behind (names rootfs) path = none)
    (hrest : behind (names (lexicallyNormal rootfs)) path = some rest) :
    removeRootfsPrefix rootfs path = some (slash :: relativePath rest) ↔
      lexicallyNormal rootfs <+: path ∧ OneSlash (path.drop (lexicallyNormal rootfs).length) := by
  by_cases hpre : lexicallyNormal rootfs <+: path
  · have helements : elements path ≠ elements rootfs := by
      intro helements
      obtain ⟨rest', hrest', -⟩ := behind_of_elements hpath helements
      rw [hnone] at hrest'
      cases hrest'
    rw [removeRootfsPrefix, if_pos hpre, and_iff_right hpre, if_neg helements]
    obtain ⟨r, rfl⟩ := hpre
    have hborder : EndsAtSlash (lexicallyNormal rootfs) ∨ AtSlash r := by
      by_contra hborder
      obtain ⟨hends, hat⟩ := not_or.mp hborder
      rw [behind_names_append_eq_none hends hat] at hrest
      cases hrest
    obtain ⟨rest', hrest', hrel⟩ := behind_names_append hborder
    rw [hrest] at hrest'
    rw [List.drop_left, Option.some_inj.mp hrest', hrel]
    exact drop_iff.trans (and_assoc.symm.trans (and_iff_left rfl))
  · have hne : names (lexicallyNormal rootfs) ≠ [] := by
      intro hnil
      rw [lexicallyNormal_eq_slash habs hnil] at hpre
      exact hpre ((isAbsolute_iff path).mp hpath)
    rw [removeRootfsPrefix_of_foreign hpre, Option.some_inj]
    exact iff_of_false (ne_slash_relativePath hne hrest) fun h ↦ hpre h.1

/-- A path that is below neither. -/
theorem right_elsewhere (hpath : isAbsolute path) (habs : isAbsolute rootfs)
    (hnone : behind (names rootfs) path = none)
    (hnone' : behind (names (lexicallyNormal rootfs)) path = none) :
    removeRootfsPrefix rootfs path = some path ↔ ¬ lexicallyNormal rootfs <+: path := by
  by_cases hpre : lexicallyNormal rootfs <+: path
  · have helements : elements path ≠ elements rootfs := by
      intro helements
      obtain ⟨rest', hrest', -⟩ := behind_of_elements hpath helements
      rw [hnone] at hrest'
      cases hrest'
    have hslash : lexicallyNormal rootfs ≠ [slash] := by
      intro hslash
      rw [hslash, names_slash, names_nil] at hnone'
      cases hnone'
    rw [removeRootfsPrefix, if_pos hpre, if_neg helements]
    obtain ⟨r, rfl⟩ := hpre
    rw [List.drop_left]
    exact iff_of_false (drop_ne_self (lexicallyNormal_ne_nil habs) hslash)
      (not_not_intro (List.prefix_append _ _))
  · exact iff_of_true (removeRootfsPrefix_of_foreign hpre) hpre

/-- With a configured path that is not absolute every path stays what it is. -/
theorem removeRootfsPrefix_of_relative (hpath : isAbsolute path) (habs : ¬ isAbsolute rootfs) :
    removeRootfsPrefix rootfs path = some path := by
  obtain ⟨t, ht, hnormal⟩ := exists_lexicallyNormal rootfs
  rw [if_neg habs, List.nil_append] at hnormal
  by_cases hpre : t <+: path
  · obtain ⟨r, rfl⟩ := hpre
    have hnil : t = [] := by
      cases t with
      | nil => rfl
      | cons b t => exact absurd hpath ht
    subst hnil
    have helements : elements r ≠ elements rootfs := fun h ↦ habs (names_of_elements hpath h).1
    have hne : r ≠ [] := by
      rintro rfl
      cases hpath
    rw [List.nil_append] at hpath ⊢
    rw [removeRootfsPrefix, hnormal, if_pos List.nil_prefix, if_neg helements, List.length_nil,
      List.drop_zero]
    simp [hne, show r.head? = some slash from by simpa [isAbsolute] using hpath]
  · exact removeRootfsPrefix_of_foreign (hnormal ▸ hpre)

/-- **Which paths the guest sees right.** -/
theorem removeRootfsPrefix_iff (hpath : isAbsolute path) :
    removeRootfsPrefix rootfs path = some (guestView rootfs path) ↔ Right rootfs path := by
  rw [Right, guestView, guestRest]
  by_cases habs : isAbsolute rootfs
  · rw [if_pos habs, forall_prop_of_true habs]
    have hconfigured := @isSome_behind_names_iff rootfs path
    have hnormal := @isSome_behind_names_iff (lexicallyNormal rootfs) path
    cases hrest : behind (names rootfs) path with
    | some rest =>
      rw [hrest] at hconfigured
      rw [if_pos (hconfigured.mp rfl)]
      exact right_configured hpath habs hrest
    | none =>
      rw [hrest] at hconfigured
      rw [if_neg (mt hconfigured.mpr Bool.false_ne_true)]
      cases hrest' : behind (names (lexicallyNormal rootfs)) path with
      | some rest =>
        rw [hrest'] at hnormal
        rw [if_pos (hnormal.mp rfl)]
        exact right_normal hpath habs hrest hrest'
      | none =>
        rw [hrest'] at hnormal
        rw [if_neg (mt hnormal.mpr Bool.false_ne_true)]
        exact right_elsewhere hpath habs hrest hrest'
  · rw [if_neg habs]
    exact iff_of_true (removeRootfsPrefix_of_relative hpath habs) fun h ↦ absurd h habs

end

/-! ## From the guest to the host and back -/

section

variable {rootfs : Rootfs}

/-- For a configured path in normal form, what the guest names is what it sees. -/
theorem removeRootfsPrefix_resolvePath (hnormal : lexicallyNormal rootfs.bytes = rootfs.bytes)
    {q : Bytes} (hq : ¬ isAbsolute q) :
    removeRootfsPrefix rootfs.bytes (resolvePath rootfs.bytes (slash :: q)) =
        some (slash :: q) := by
  rw [resolvePath, List.tail_cons, removeRootfsPrefix, hnormal]
  rcases eq_or_ne q [] with rfl | hne
  · simp
  · have hjoin : joinPath rootfs.bytes q = rootfs.bytes ++ slash :: q := by
      rw [joinPath, if_neg (not_or.mpr ⟨hq, rootfs.ne_nil⟩), if_neg rootfs.noSlash]
    have helements : elements (rootfs.bytes ++ slash :: q) ≠ elements rootfs.bytes := by
      intro h
      have habs : isAbsolute rootfs.bytes := decide_eq_true rootfs.absolute
      have hpath : isAbsolute (rootfs.bytes ++ slash :: q) := by
        obtain ⟨t, ht⟩ := (isAbsolute_iff _).mp habs
        rw [isAbsolute_iff, ← ht, List.append_assoc]
        exact List.prefix_append _ _
      -- the names of `q` would be among those of the root file system
      have hnames := (names_of_elements hpath h).2
      have hsplit : names (rootfs.bytes ++ slash :: q) = names rootfs.bytes ++ names q := by
        rw [names, List.splitOn_append_cons_self, List.filter_append]
        rfl
      rw [hsplit] at hnames
      have hq' : names q = [] := by simpa using hnames
      rw [names_eq, relativePath_eq_self hq, if_neg hne] at hq'
      cases hq'
    rw [if_neg hne, hjoin, if_pos (List.prefix_append _ _), if_neg helements, List.drop_left]
    simp

end

theorem removeRootfsPrefix_iff_sample :
    removeRootfsPrefix (asciiBytes "/home/u/root") (asciiBytes "/home/u/root/bin/sh") =
        some (guestView (asciiBytes "/home/u/root") (asciiBytes "/home/u/root/bin/sh")) ∧
      removeRootfsPrefix (asciiBytes "/home/./root") (asciiBytes "/home/root/x") =
        some (guestView (asciiBytes "/home/./root") (asciiBytes "/home/root/x")) ∧
      guestView (asciiBytes "/home/./root") (asciiBytes "/home/root/x") = asciiBytes "/x" :=
  ⟨(removeRootfsPrefix_iff (by decide)).mpr fun _ ↦ by decide,
    (removeRootfsPrefix_iff (by decide)).mpr fun _ ↦ by decide, by decide⟩

/-- A sibling of the root file system, two slashes after the prefix, and the configured path itself
when it is not in normal form. -/
theorem not_guestView :
    let rootfs := asciiBytes "/home/u/root"
    let unclean := asciiBytes "/home/./root"
    removeRootfsPrefix rootfs (asciiBytes "/home/u/root2/x") = some (asciiBytes "/2/x") ∧
      guestView rootfs (asciiBytes "/home/u/root2/x") = asciiBytes "/home/u/root2/x" ∧
      removeRootfsPrefix rootfs (asciiBytes "/home/u/root//x") = some (asciiBytes "//x") ∧
      guestView rootfs (asciiBytes "/home/u/root//x") = asciiBytes "/x" ∧
      removeRootfsPrefix unclean (asciiBytes "/home/./root/x") =
        some (asciiBytes "/home/./root/x") ∧
      guestView unclean (asciiBytes "/home/./root/x") = asciiBytes "/x" := by
  decide

end RootfsPrefix

end Felix86
