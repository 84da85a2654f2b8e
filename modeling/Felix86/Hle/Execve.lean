import Felix86.Common.Script
import Felix86.Lib.Delimited

/-!
# Arguments and environment across `execve`

`execve` starts another instance of the emulator. The arguments of the guest follow the path of the
executable, and the environment of the guest goes into one variable, joined by commas. The new
instance splits that variable, adds the compatibility variables and removes what contains
`FELIX86_`.

A string with a comma comes back in pieces. `environment_iff` says for which lists the environment
is the one that was passed. The first argument is replaced on purpose by the resolved path, and
arguments lose the prefix of the root file system. A script is started through its interpreter,
which is put before the arguments with the words of the first line.
-/

namespace Felix86

namespace Execve

open Emulator Delimited

/-! ## `execve` -/

/-- A table of pointers to strings, with the null pointers in it and what follows in memory. -/
abbrev PointerTable := List (Option CString)

/-- The loops that read pointers up to a null pointer. They fault where memory ends. -/
def readTable : PointerTable → Option (List CString)
  | [] => none
  | none :: _ => some []
  | some s :: rest => (readTable rest).map (s :: ·)

inductive Outcome where
  | error (errno : ℕ)
  /-- The call of the host. -/
  | exec (argv environ : List Bytes)
deriving DecidableEq

def EINVAL : ℕ := 22
def ENOENT : ℕ := 2

/-- `argv`: the pointer that `guest_argv` starts with is skipped. -/
def hostArgv (emulator : CString) (path : Bytes) : Option PointerTable → Option (List Bytes)
  | none => some [emulator.bytes, path]
  | some table => do
    let args ← readTable table.tail
    some (emulator.bytes :: path :: args.map CString.bytes)

/-- `guest_envs`. -/
def guestEnvs (strings : List CString) : Bytes :=
  ((strings.map CString.bytes).foldl (fun acc s ↦ acc ++ s ++ [comma])
    (asciiBytes "__FELIX86_GUEST_ENVS=")).dropLast

/-- `envp`: the environment of the emulator, the one of the guest, and what tells the new instance
that it has been started by another. -/
def hostEnvp (environ : List CString) (pipeName : CString) (arg3 : Option PointerTable) :
    Option (List Bytes) := do
  let host := without (asciiBytes "__FELIX86") (environ.map CString.bytes)
  let guest ← match arg3 with
    | none => some []
    | some table => (readTable table).map fun strings ↦ [guestEnvs strings]
  some (host ++ guest ++
    [asciiBytes "__FELIX86_EXECVE=1", asciiBytes "__FELIX86_PIPE=" ++ pipeName.bytes])

/-- The arguments of `execve`, null pointers being `none`. -/
structure Arguments where
  arg1 : Option CString
  arg2 : Option PointerTable
  arg3 : Option PointerTable

/-- What an instance of the emulator knows. -/
structure Instance where
  fs : FileSystem
  rootfs : Rootfs
  /-- `g_emulator_path`. -/
  emulator : CString
  environ : List CString
  pipeName : CString
  hackyEnvs : Bool

/-- `felix86_riscv64_execve`. -/
def execve (i : Instance) (fuel : ℕ) (args : Arguments) : Option Outcome :=
  match args.arg1 with
  | none => some (.error EINVAL)
  | some name => do
    let path ← resolve i.fs i.rootfs fuel name.bytes
    if ¬ i.fs.pathExists path then some (.error ENOENT)
    else if ¬ i.fs.isRegularFile path then some (.error ENOENT)
    else do
      let argv ← hostArgv i.emulator path args.arg2
      let envp ← hostEnvp i.environ i.pipeName args.arg3
      some (.exec argv envp)

/-! ## The new instance -/

structure StartParameters where
  executablePath : Bytes
  argv : List Bytes
  envp : List Bytes
deriving DecidableEq

/-- `split_string`: `piece` is what comes before the place that `find` has got to. -/
def splitLoop (ch : BitVec 8) (piece : Bytes) : Bytes → List Bytes
  | [] => [piece]
  | b :: rest => if b = ch then piece :: splitLoop ch [] rest else splitLoop ch (piece ++ [b]) rest

def splitString (ch : BitVec 8) (txt : Bytes) : List Bytes := splitLoop ch [] txt

def getenv (name : Bytes) : List Bytes → Option Bytes
  | [] => none
  | env :: rest =>
    if name ++ [equals] <+: env then some (env.drop (name.length + 1)) else getenv name rest

/-- `argp_parse` and the loop after it. The first argument that is not an option ends the options;
what an option does is not followed. -/
def parseArguments : List Bytes → Option StartParameters
  | _ :: arg :: rest => if [dash] <+: arg ∧ arg ≠ [dash] then none else some ⟨arg, arg :: rest, []⟩
  | _ => none

/-- `substr`, which throws where the string is shorter. -/
def substr (p : Bytes) (pos : ℕ) : Option Bytes :=
  if pos ≤ p.length then some (p.drop pos) else none

/-- What `main` does to `params.argv[0]`. -/
def shortenFirst (rootfs : Rootfs) (p : Bytes) : Option Bytes :=
  if isSubpath p rootfs.bytes then do
    let p ← substr p rootfs.bytes.length
    if p = [] then none else if p.head? = some slash then some p else some (slash :: p)
  else some p

/-- Where the environment of the guest comes from. -/
def guestEnvironment (fs : FileSystem) (environ : List Bytes) : List Bytes :=
  if (getenv (asciiBytes "__FELIX86_EXECVE") environ).isSome then
    match getenv (asciiBytes "__FELIX86_GUEST_ENVS") environ with
    | some envs => splitString comma envs
    | none => []
  else
    match (getenv (asciiBytes "FELIX86_ENV_FILE") environ).bind fs.lines with
    | some lines => lines
    | none => environ

/-- The compatibility variables. -/
def hackyEnvironment (hackyEnvs : Bool) : List Bytes :=
  if hackyEnvs then
    [asciiBytes "GODEBUG=asyncpreemptoff=1", asciiBytes "DOTNET_GCHeapHardLimit=1C0000000"]
  else []

def felix86 : Bytes := asciiBytes "FELIX86_"

/-- `params.envp`. -/
def environment (fs : FileSystem) (hackyEnvs : Bool) (environ : List Bytes) : List Bytes :=
  without felix86 (guestEnvironment fs environ ++ hackyEnvironment hackyEnvs)

/-- `main`, up to the call of `Emulator::Start`. -/
def main (i : Instance) (fuel : ℕ) (argv environ : List Bytes) : Option StartParameters := do
  let params ← parseArguments argv
  let first ← params.argv.head?
  let first ← shortenFirst i.rootfs first
  let resolved ← resolve i.fs i.rootfs fuel params.executablePath
  let resolved := if i.rootfs.bytes <+: resolved then resolved
    else joinPath i.rootfs.bytes (relativePath resolved)
  if resolved = [] ∨ ¬ i.fs.pathExists resolved ∨ ¬ i.fs.isRegularFile resolved then none
  else some ⟨resolved, first :: params.argv.tail, environment i.fs i.hackyEnvs environ⟩

/-- The loop of `Emulator::Start` over the arguments. -/
def removeRootfs (rootfs : Rootfs) (p : Bytes) : Option Bytes :=
  if rootfs.bytes <+: p then
    let p := p.drop rootfs.bytes.length
    if p.head? = some slash then some p else none
  else some p

/-- `Elf::PeekResult`. -/
inductive PeekResult
  | notElf
  | elf32
  | elf64
deriving DecidableEq

/-- `Elf::Peek`: the first sixteen bytes of the file. -/
def elfPeek (content : Bytes) : PeekResult :=
  let ident := content.take 16
  if ident.length ≠ 16 ∨ ident.take 4 ≠ [0x7f, 0x45, 0x4c, 0x46] then .notElf
  else if ident[4]? = some 1 then .elf32
  else if ident[4]? = some 2 then .elf64
  else .notElf

/-- What `Emulator::Start` loads, and what it puts before the arguments: nothing for an executable,
and for a script the interpreter and the words of the line after it. -/
def loaded (fs : FileSystem) (rootfs : Rootfs) (path : Bytes) : Option (Bytes × List Bytes) :=
  let content := fs.content path
  if elfPeek content ≠ .notElf then some (path, [])
  else if Script.peek content then do
    let (interpreter, args) ← (Script.script fs rootfs content).toOption
    some (interpreter, interpreter :: (splitString Script.space args).filter (· ≠ []))
  else none

/-- `Emulator::Start`, up to the loading of the file. -/
def start (i : Instance) (params : StartParameters) : Option StartParameters :=
  if i.rootfs.bytes <+: params.executablePath then do
    let argv ← (params.executablePath :: params.argv.tail).mapM (removeRootfs i.rootfs)
    let (executable, front) ← loaded i.fs i.rootfs params.executablePath
    some { params with executablePath := executable, argv := front ++ argv }
  else none

/-- What the guest is started with by the instance that `execve` starts. -/
def afterExecve (i : Instance) (fuel : ℕ) (args : Arguments) : Option StartParameters := do
  match ← execve i fuel args with
  | .error _ => none
  | .exec argv environ =>
    let params ← main i fuel argv environ
    start i params

/-! ## The tables -/

/-- The strings that a table lists. A null table lists none. -/
def Lists (table : Option PointerTable) (strings : List CString) : Prop :=
  match table with
  | none => strings = []
  | some words => ∃ after, words = strings.map some ++ none :: after

theorem readTable_append (strings : List CString) (after : PointerTable) :
    readTable (strings.map some ++ none :: after) = some strings := by
  induction strings with
  | nil => rfl
  | cons s rest ih =>
    rw [List.map_cons, List.cons_append, readTable, ih]
    rfl

theorem hostArgv_eq {emulator : CString} {path : Bytes} {arg2 : Option PointerTable}
    {argv : List CString} (h : Lists arg2 argv) (hne : arg2 ≠ none → argv ≠ []) :
    hostArgv emulator path arg2 =
      some (emulator.bytes :: path :: argv.tail.map CString.bytes) := by
  cases arg2 with
  | none =>
    obtain rfl : argv = [] := h
    rfl
  | some table =>
    obtain ⟨after, rfl⟩ := h
    obtain ⟨argv0, args, rfl⟩ := List.exists_cons_of_ne_nil (hne (by simp))
    simp [hostArgv, readTable_append]

/-! ## The environment of the guest in one string -/

theorem splitLoop_eq (ch : BitVec 8) (piece txt : Bytes) :
    splitLoop ch piece txt = (txt.splitOn ch).modifyHead (piece ++ ·) := by
  induction txt generalizing piece with
  | nil => simp [splitLoop]
  | cons b rest ih =>
    rw [splitLoop, List.splitOn_cons_eq_if_modifyHead, ih, ih]
    by_cases hb : b = ch
    · rw [if_pos hb, if_pos (by simpa using hb)]
      cases rest.splitOn ch <;> simp
    · rw [if_neg hb, if_neg (by simpa using hb)]
      cases rest.splitOn ch <;> simp

theorem splitString_eq (ch : BitVec 8) (txt : Bytes) : splitString ch txt = txt.splitOn ch := by
  rw [splitString, splitLoop_eq]
  cases txt.splitOn ch <;> simp

theorem guestEnvs_nil : guestEnvs [] = asciiBytes "__FELIX86_GUEST_ENVS" := by
  decide

theorem guestEnvs_eq {strings : List CString} (h : strings ≠ []) :
    guestEnvs strings =
      asciiBytes "__FELIX86_GUEST_ENVS=" ++ [comma].intercalate (strings.map CString.bytes) := by
  have hmap : strings.map CString.bytes ≠ [] := by simpa using h
  have hne : (strings.map CString.bytes).flatMap (· ++ [comma]) ≠ [] := by
    obtain ⟨s, rest, rfl⟩ := List.exists_cons_of_ne_nil h
    simp
  rw [guestEnvs, foldl_append_sep, List.dropLast_append_of_ne_nil hne,
    dropLast_flatMap_append_sep hmap]

/-! ## `getenv` -/

theorem getenv_append {name : Bytes} {before : List Bytes} (after : List Bytes)
    (h : ∀ env ∈ before, ¬ name ++ [equals] <+: env) :
    getenv name (before ++ after) = getenv name after := by
  induction before with
  | nil => rfl
  | cons env rest ih =>
    rw [List.cons_append, getenv, if_neg (h env (by simp)),
      ih fun env' henv' ↦ h env' (by simp [henv'])]

theorem getenv_self (name value : Bytes) (rest : List Bytes) :
    getenv name ((name ++ equals :: value) :: rest) = some value := by
  have hpre : name ++ [equals] <+: name ++ equals :: value := ⟨value, by simp⟩
  have hdrop : (name ++ equals :: value).drop (name.length + 1) = value := by
    rw [← List.drop_drop, List.drop_left]
    rfl
  rw [getenv, if_pos hpre, hdrop]

/-- What the emulator itself has been started with does not name its internal variables. -/
theorem not_prefix_of_mem_without {name env : Bytes} {environ : List Bytes}
    (hname : asciiBytes "__FELIX86" <:+: name)
    (h : env ∈ without (asciiBytes "__FELIX86") environ) :
    ¬ name ++ [equals] <+: env := by
  intro hpre
  have henv := of_decide_eq_true (List.mem_filter.1 h).2
  exact henv (hname.trans ((List.prefix_append name _).trans hpre).isInfix)

theorem not_prefix_append {name start : Bytes} (rest : Bytes) (h : ¬ name ++ [equals] <+: start)
    (h' : ¬ start <+: name ++ [equals]) : ¬ name ++ [equals] <+: start ++ rest := by
  intro hpre
  exact (List.prefix_or_prefix_of_prefix hpre (List.prefix_append start rest)).elim h h'

/-! ## The environment that comes back -/

theorem asciiBytes_guestEnvs :
    asciiBytes "__FELIX86_GUEST_ENVS=" = asciiBytes "__FELIX86_GUEST_ENVS" ++ [equals] := by
  decide

/-- The variable for the environment of the guest starts with its name, with and without strings. -/
theorem exists_guestEnvs_eq (strings : List CString) :
    ∃ rest, guestEnvs strings = asciiBytes "__FELIX86_GUEST_ENVS" ++ rest := by
  rcases eq_or_ne strings [] with rfl | h
  · exact ⟨[], guestEnvs_nil⟩
  · refine ⟨equals :: [comma].intercalate (strings.map CString.bytes), ?_⟩
    rw [guestEnvs_eq h, asciiBytes_guestEnvs, List.append_assoc, List.singleton_append]

/-- The environment that the host is called with. -/
def launched (environ : List CString) (guest : List Bytes) (pipeName : CString) : List Bytes :=
  without (asciiBytes "__FELIX86") (environ.map CString.bytes) ++ guest ++
    [asciiBytes "__FELIX86_EXECVE=1", asciiBytes "__FELIX86_PIPE=" ++ pipeName.bytes]

theorem hostEnvp_none (environ : List CString) (pipeName : CString) :
    hostEnvp environ pipeName none = some (launched environ [] pipeName) :=
  rfl

theorem hostEnvp_some (environ : List CString) (pipeName : CString) (strings : List CString)
    (after : PointerTable) :
    hostEnvp environ pipeName (some (strings.map some ++ none :: after)) =
      some (launched environ [guestEnvs strings] pipeName) := by
  simp [hostEnvp, launched, readTable_append]

/-- The new instance sees that it has been started by another. -/
theorem isSome_getenv_execve (environ : List CString) (pipeName : CString) {guest : List Bytes}
    (h : ∀ env ∈ guest, ∃ rest, env = asciiBytes "__FELIX86_GUEST_ENVS" ++ rest) :
    (getenv (asciiBytes "__FELIX86_EXECVE") (launched environ guest pipeName)).isSome := by
  have hvariable : asciiBytes "__FELIX86_EXECVE=1" =
      asciiBytes "__FELIX86_EXECVE" ++ equals :: asciiBytes "1" := by
    decide
  rw [launched, getenv_append, hvariable, getenv_self]
  · rfl
  · intro env henv
    rcases List.mem_append.1 henv with henv | henv
    · exact not_prefix_of_mem_without (by decide) henv
    · obtain ⟨rest, rfl⟩ := h env henv
      exact not_prefix_append rest (by decide) (by decide)

theorem getenv_guestEnvs_none (environ : List CString) (pipeName : CString) {guest : List Bytes}
    (h : ∀ env ∈ guest, ¬ asciiBytes "__FELIX86_GUEST_ENVS" ++ [equals] <+: env) :
    getenv (asciiBytes "__FELIX86_GUEST_ENVS") (launched environ guest pipeName) = none := by
  rw [← List.append_nil (launched environ guest pipeName), getenv_append]
  · rfl
  · intro env henv
    rw [launched] at henv
    rcases List.mem_append.1 henv with henv | henv
    · rcases List.mem_append.1 henv with henv | henv
      · exact not_prefix_of_mem_without (by decide) henv
      · exact h env henv
    · rcases List.mem_pair.1 henv with rfl | rfl
      · decide
      · exact not_prefix_append _ (by decide) (by decide)

theorem getenv_guestEnvs_some (environ : List CString) (pipeName : CString)
    {strings : List CString} (h : strings ≠ []) :
    getenv (asciiBytes "__FELIX86_GUEST_ENVS") (launched environ [guestEnvs strings] pipeName) =
      some ([comma].intercalate (strings.map CString.bytes)) := by
  rw [launched, List.append_assoc, getenv_append, guestEnvs_eq h, asciiBytes_guestEnvs,
    List.append_assoc, List.singleton_append, List.singleton_append, getenv_self]
  exact fun env henv ↦ not_prefix_of_mem_without (by decide) henv

/-- What comes back are the pieces of the strings. -/
theorem exists_hostEnvp (fs : FileSystem) (environ : List CString) (pipeName : CString)
    {arg3 : Option PointerTable} {envp : List CString} (h : Lists arg3 envp) :
    ∃ e, hostEnvp environ pipeName arg3 = some e ∧
      guestEnvironment fs e = (envp.map CString.bytes).flatMap (·.splitOn comma) := by
  cases arg3 with
  | none =>
    obtain rfl : envp = [] := h
    refine ⟨_, hostEnvp_none environ pipeName, ?_⟩
    rw [guestEnvironment, if_pos (isSome_getenv_execve environ pipeName (by simp)),
      getenv_guestEnvs_none environ pipeName (by simp)]
    rfl
  | some table =>
    obtain ⟨after, rfl⟩ := h
    refine ⟨_, hostEnvp_some environ pipeName envp after, ?_⟩
    have hexecve : (getenv (asciiBytes "__FELIX86_EXECVE")
        (launched environ [guestEnvs envp] pipeName)).isSome :=
      isSome_getenv_execve environ pipeName (by simpa using exists_guestEnvs_eq envp)
    rw [guestEnvironment, if_pos hexecve]
    rcases eq_or_ne envp [] with rfl | hne
    · -- without the equals sign the variable is not found
      rw [getenv_guestEnvs_none environ pipeName (by simpa [guestEnvs_nil] using (by decide))]
      rfl
    · rw [getenv_guestEnvs_some environ pipeName hne]
      change splitString comma _ = _
      rw [splitString_eq, splitOn_intercalate_eq_flatMap (by simpa using hne)]

variable {fs : FileSystem} {rootfs : Rootfs}

/-! ## What the guest is started with -/

def withoutRootfs (rootfs : Rootfs) (p : Bytes) : Bytes :=
  if rootfs.bytes <+: p then p.drop rootfs.bytes.length else p

/-- What starts as the path of the root file system does is a path below it. -/
def Below (rootfs : Rootfs) (p : Bytes) : Prop :=
  rootfs.bytes <+: p → rootfs.bytes ++ [slash] <+: p

instance (rootfs : Rootfs) (p : Bytes) : Decidable (Below rootfs p) :=
  inferInstanceAs (Decidable (_ → _))

theorem removeRootfs_eq {p : Bytes} (h : Below rootfs p) :
    removeRootfs rootfs p = some (withoutRootfs rootfs p) := by
  by_cases hpre : rootfs.bytes <+: p
  · obtain ⟨rest, rfl⟩ := h hpre
    simp [removeRootfs, withoutRootfs]
  · rw [removeRootfs, if_neg hpre, withoutRootfs, if_neg hpre]

theorem mapM_removeRootfs {ps : List Bytes} (h : ∀ p ∈ ps, Below rootfs p) :
    ps.mapM (removeRootfs rootfs) = some (ps.map (withoutRootfs rootfs)) := by
  induction ps with
  | nil => rfl
  | cons p rest ih =>
    rw [List.mapM_cons, removeRootfs_eq (h p (by simp)), ih fun p' hp' ↦ h p' (by simp [hp'])]
    rfl

/-- Shortening a path below the root file system does not end the instance. -/
theorem exists_shortenFirst {path : Bytes} (h : rootfs.bytes ++ [slash] <+: path) :
    ∃ p, shortenFirst rootfs path = some p := by
  obtain ⟨rest, rfl⟩ := h
  by_cases hsub : isSubpath (rootfs.bytes ++ [slash] ++ rest) rootfs.bytes
  · refine ⟨slash :: rest, ?_⟩
    rw [shortenFirst, if_pos hsub]
    simp [substr]
  · exact ⟨_, if_neg hsub⟩

variable {i : Instance} {fuel : ℕ} {name : CString} {path executable : Bytes} {front : List Bytes}
  {arg2 arg3 : Option PointerTable} {argv envp : List CString}

/-- A file that the new instance starts: an executable, or a script whose first line it can read. -/
structure Executable (i : Instance) (fuel : ℕ) (name : CString) (path executable : Bytes)
    (front : List Bytes) : Prop where
  resolved : resolve i.fs i.rootfs fuel name.bytes = some path
  pathExists : i.fs.pathExists path
  isRegularFile : i.fs.isRegularFile path
  below : i.rootfs.bytes ++ [slash] <+: path
  loaded : loaded i.fs i.rootfs path = some (executable, front)

theorem Executable.main_eq (h : Executable i fuel name path executable front)
    (args environ : List Bytes) :
    ∃ first, main i fuel (i.emulator.bytes :: path :: args) environ =
      some ⟨path, first :: args, environment i.fs i.hackyEnvs environ⟩ := by
  obtain ⟨first, hfirst⟩ := exists_shortenFirst h.below
  have hunder : i.rootfs.bytes <+: path := (List.prefix_append _ _).trans h.below
  obtain ⟨fuel, rfl⟩ : ∃ n, fuel = n + 1 := by
    refine Nat.exists_eq_succ_of_ne_zero ?_
    rintro rfl
    obtain ⟨current, -, hresolved⟩ := Option.bind_eq_some_iff.1 h.resolved
    split at hresolved <;> cases hresolved
  have hdash : ¬ ([dash] <+: path ∧ path ≠ [dash]) := by
    rintro ⟨hdash, -⟩
    obtain ⟨b, p, hp⟩ := List.exists_cons_of_ne_nil i.rootfs.ne_nil
    have hb := i.rootfs.absolute
    obtain ⟨rest, rfl⟩ := hunder
    simp_all [dash, slash]
  have hresolve := resolve_resolved fuel h.resolved hunder
  have hne : path ≠ [] := by
    rintro rfl
    exact i.rootfs.ne_nil (List.prefix_nil.1 hunder)
  refine ⟨first, ?_⟩
  simp [main, parseArguments, hdash, hfirst, hresolve, hunder, hne, h.pathExists, h.isRegularFile]

/-- The guest gets the path of the executable, the arguments after the first and the pieces of the
strings of its environment. -/
theorem afterExecve_eq (hexecutable : Executable i fuel name path executable front)
    (hargv : Lists arg2 argv)
    (hne : arg2 ≠ none → argv ≠ []) (henvp : Lists arg3 envp)
    (hbelow : ∀ s ∈ argv.tail, Below i.rootfs s.bytes) :
    afterExecve i fuel ⟨some name, arg2, arg3⟩ =
      some ⟨executable, front ++ withoutRootfs i.rootfs path ::
          argv.tail.map fun s ↦ withoutRootfs i.rootfs s.bytes,
        without felix86 ((envp.map CString.bytes).flatMap (·.splitOn comma) ++
          hackyEnvironment i.hackyEnvs)⟩ := by
  obtain ⟨environ, henviron, henvironment⟩ :=
    exists_hostEnvp i.fs i.environ i.pipeName henvp
  have hexec : execve i fuel ⟨some name, arg2, arg3⟩ =
      some (.exec (i.emulator.bytes :: path :: argv.tail.map CString.bytes) environ) := by
    simp [execve, hexecutable.resolved, hexecutable.pathExists, hexecutable.isRegularFile,
      hostArgv_eq hargv hne, henviron]
  obtain ⟨first, hmain⟩ := hexecutable.main_eq (argv.tail.map CString.bytes) environ
  have hunder : i.rootfs.bytes <+: path := (List.prefix_append _ _).trans hexecutable.below
  have hmap : (path :: argv.tail.map CString.bytes).mapM (removeRootfs i.rootfs) =
      some ((path :: argv.tail.map CString.bytes).map (withoutRootfs i.rootfs)) := by
    refine mapM_removeRootfs ?_
    rintro p (- | ⟨_, hp⟩)
    · exact fun _ ↦ hexecutable.below
    · obtain ⟨s, hs, rfl⟩ := List.mem_map.1 hp
      exact hbelow s hs
  simp only [afterExecve, hexec, hmain, start, if_pos hunder, Option.bind_eq_bind,
    Option.bind_some, List.tail_cons, hmap, hexecutable.loaded, environment, henvironment,
      List.map_cons, List.map_map]
  rfl

/-- The pieces are the strings, up to what is removed, exactly when each string has no comma or
consists of pieces that are removed. -/
theorem without_pieces_eq_iff (envp : List CString) (hackyEnvs : Bool) :
    without felix86 ((envp.map CString.bytes).flatMap (·.splitOn comma) ++
        hackyEnvironment hackyEnvs) =
      without felix86 (envp.map CString.bytes ++ hackyEnvironment hackyEnvs) ↔
      ∀ s ∈ envp, comma ∉ s.bytes ∨ ∀ piece ∈ s.bytes.splitOn comma, felix86 <:+: piece := by
  rw [without_append, without_append, List.append_left_inj,
    without_flatMap_splitOn_eq_iff (by decide), List.forall_mem_map]

/-- The environment is the one that was passed, up to the removed and the added variables, under the
same condition. -/
theorem environment_iff (hexecutable : Executable i fuel name path executable front)
    (hargv : Lists arg2 argv)
    (hne : arg2 ≠ none → argv ≠ []) (henvp : Lists arg3 envp)
    (hbelow : ∀ s ∈ argv.tail, Below i.rootfs s.bytes) :
    (afterExecve i fuel ⟨some name, arg2, arg3⟩).map StartParameters.envp =
        some (without felix86 (envp.map CString.bytes ++ hackyEnvironment i.hackyEnvs)) ↔
      ∀ s ∈ envp, comma ∉ s.bytes ∨ ∀ piece ∈ s.bytes.splitOn comma, felix86 <:+: piece := by
  rw [afterExecve_eq hexecutable hargv hne henvp hbelow, Option.map_some, Option.some_inj,
    without_pieces_eq_iff]

/-! ## Surviving `execve` -/

/-- The arguments are the ones that were passed, and so is the environment up to the removed and the
added variables. -/
structure Survives (i : Instance) (argv envp : List CString) (params : StartParameters) : Prop where
  argv_eq : params.argv = argv.map CString.bytes
  envp_eq : params.envp =
    without felix86 (envp.map CString.bytes ++ hackyEnvironment i.hackyEnvs)

/-- The first bytes of an executable for 64 bits. -/
def elfIdent : Bytes := [0x7f, 0x45, 0x4c, 0x46, 2, 1, 1, 0, 0, 0, 0, 0, 0, 0, 0, 0]

theorem absolute_r : (asciiBytes "/r").head? = some slash := by decide

theorem noSlash_r : (asciiBytes "/r").getLast? ≠ some slash := by decide

/-- An instance with the root file system in `/r`, where everything is an executable. -/
def plainInstance : Instance where
  fs :=
    { currentPath := asciiBytes "/r"
      isSymlink := fun _ ↦ false
      readSymlink := fun _ ↦ none
      pathExists := fun _ ↦ true
      isRegularFile := fun _ ↦ true
      lines := fun _ ↦ none
      content := fun _ ↦ elfIdent }
  rootfs := ⟨asciiBytes "/r", absolute_r, noSlash_r⟩
  emulator := ⟨asciiBytes "/felix86", by decide⟩
  environ := [⟨asciiBytes "__FELIX86_EXECVE=1", by decide⟩,
    ⟨asciiBytes "FELIX86_ROOTFS=/r", by decide⟩]
  pipeName := ⟨asciiBytes "/p", by decide⟩
  hackyEnvs := true

def binSh : CString := ⟨asciiBytes "/bin/sh", by decide⟩

def shellArgv : List CString := [⟨asciiBytes "sh", by decide⟩, ⟨asciiBytes "-c", by decide⟩]

def shellEnvp : List CString := [⟨asciiBytes "A=1", by decide⟩, ⟨[], by decide⟩]

theorem executable_binSh :
    Executable plainInstance 1 binSh (asciiBytes "/r/bin/sh") (asciiBytes "/r/bin/sh") [] where
  resolved := by decide
  pathExists := rfl
  isRegularFile := rfl
  below := by decide
  loaded := by decide

end Execve

end Felix86
