import Felix86.Hle.HostPaths

/-!
# The first line of a script

`Script::Script` reads the interpreter and its argument from the line after `#!`. It looks for a
newline among the first `PATH_MAX` bytes, puts a null byte there, and cuts the line at the first
space after the first slash.

The kernel takes tabs for blanks as well, removes blanks around the argument, and accepts a line
that ends with the file. `reads_iff` says for which files the two agree. No byte is used that was
not read from the file, whatever the file has in it.
-/

namespace Felix86

namespace Script

open Emulator Execve

def newline : BitVec 8 := 10
def space : BitVec 8 := 32
def tab : BitVec 8 := 9
def hash : BitVec 8 := 35
def bang : BitVec 8 := 33

/-- `PATH_MAX`. -/
def pathMax : ℕ := 4096

/-! ## The parser -/

/-- How the constructor can fail to return. -/
inductive Stop
  /-- `ERROR` or a failed `ASSERT`. -/
  | error
  /-- It has used a byte of the buffer that was not read from the file. -/
  | overread
deriving DecidableEq, Repr

/-- `Script::Peek`. -/
def peek (content : Bytes) : Bool :=
  let data := content.take pathMax
  !(data.length < 2 || data[0]? ≠ some hash || data[1]? ≠ some bang)

/-- `Peek` accepts what begins with the two bytes. -/
theorem peek_iff (content : Bytes) : peek content ↔ [hash, bang] <+: content := by
  rcases content with _ | ⟨a, _ | ⟨b, content⟩⟩
  · simp [peek]
  · have htake : [a].take pathMax = [a] := rfl
    rw [peek, htake]
    simp [List.prefix_cons_iff]
  · have htake : (a :: b :: content).take pathMax = a :: b :: content.take 4094 := rfl
    rw [peek, htake]
    simp only [List.cons_prefix_cons, List.nil_prefix, and_true]
    rw [@eq_comm _ hash, @eq_comm _ bang]
    simp

/-- The loop that looks for the end of the line and puts a null byte there. -/
def terminate (data : Bytes) : Except Stop Bytes :=
  let i := data.idxOf newline
  if i < data.length then .ok (data.set i 0) else .error .error

/-- `data[i]`. -/
def byteAt (data : Bytes) (i : ℕ) : Except Stop (BitVec 8) :=
  match data[i]? with
  | some b => .ok b
  | none => .error .overread

/-- A string that starts in the buffer. -/
def stringAt (data : Bytes) (i : ℕ) : Except Stop Bytes :=
  if 0 ∈ data.drop i then .ok ((data.drop i).takeWhile (· ≠ 0)) else .error .overread

/-- The loop over the line, for as many rounds: where the line is cut, and where the argument
starts. -/
def scan (data : Bytes) : ℕ → ℕ → Bool → Except Stop (Option (ℕ × Option ℕ))
  | 0, _, _ => .ok none
  | rounds + 1, i, slashFound => do
    let b ← byteAt data i
    if b = 0 then .ok none
    else if b = slash then scan data rounds (i + 1) true
    else if b = space ∧ slashFound then
      let first ← byteAt data (i + 1)
      .ok (some (i, if first = 0 then none else some (i + 1)))
    else scan data rounds (i + 1) slashFound

/-- The text of the interpreter and the argument. -/
def split (data : Bytes) : Except Stop (Bytes × Bytes) := do
  match ← scan data pathMax 0 false with
  | none => .ok (← stringAt data 0, [])
  | some (cut, argStart) =>
    let data := data.set cut 0
    let interpreter ← stringAt data 0
    match argStart with
    | none => .ok (interpreter, [])
    | some start => .ok (interpreter, ← stringAt data start)

/-- `Script::Script`: the path of the interpreter on the host, and the argument. -/
def script (fs : FileSystem) (rootfs : Rootfs) (content : Bytes) : Except Stop (Bytes × Bytes) := do
  let data ← terminate ((content.drop 2).take pathMax)
  let (interpreter, args) ← split data
  -- what follows the first slash
  let relative := (interpreter.dropWhile (· ≠ slash)).tail
  if slash ∉ interpreter ∨ relative = [] then .error .error
  else
    let path := joinPath rootfs.bytes relative
    if fs.pathExists path ∧ fs.isRegularFile path then .ok (path, args) else .error .error

/-! ## What the kernel reads

Its limit of 256 bytes for the line is left out. -/

def blank (b : BitVec 8) : Bool := b = space ∨ b = tab

/-- The line after `#!`. A null byte ends it as well, since it ends every string. -/
def firstLine (content : Bytes) : Bytes :=
  (content.drop 2).takeWhile fun b ↦ b ≠ newline ∧ b ≠ 0

def trim (s : Bytes) : Bytes := (s.dropWhile blank).rdropWhile blank

/-- The interpreter and the optional argument. -/
def kernelScript (content : Bytes) : Option (Bytes × Option Bytes) :=
  let line := trim (firstLine content)
  if line = [] then none
  else
    let arg := (line.dropWhile (¬ blank ·)).dropWhile blank
    some (line.takeWhile (¬ blank ·), if arg = [] then none else some arg)

/-- Where a path of the guest is on the host. -/
def hostPath (fs : FileSystem) (rootfs : Rootfs) (p : Bytes) : Bytes :=
  if isAbsolute p then joinPath rootfs.bytes (relativePath p) else joinPath fs.currentPath p

/-- The kernel finds an interpreter. -/
def Runs (fs : FileSystem) (rootfs : Rootfs) (content : Bytes) (name : Bytes)
    (arg : Option Bytes) : Prop :=
  kernelScript content = some (name, arg) ∧ fs.pathExists (hostPath fs rootfs name) ∧
    fs.isRegularFile (hostPath fs rootfs name)

/-- The constructor has the interpreter that the kernel finds, with its argument. A relative path
would need the current directory, which the constructor does not look at. -/
def Reads (fs : FileSystem) (rootfs : Rootfs) (content : Bytes) : Prop :=
  ∀ name arg, Runs fs rootfs content name arg →
    isAbsolute name ∧ script fs rootfs content = .ok (hostPath fs rootfs name, arg.getD [])

/-- The line without the blanks at its start. -/
def startOfLine (content : Bytes) : Bytes := (firstLine content).dropWhile blank

/-- The line has the form that the constructor understands: a path with one slash at its start, and
then either nothing or a space and a text without blanks around it. -/
structure Plain (content : Bytes) : Prop where
  ends : newline ∈ (content.drop 2).take pathMax
  absolute : (startOfLine content).head? = some slash
  relative : ∃ b ∈ (startOfLine content).tail.head?, b ≠ slash ∧ ¬ blank b
  separator : (startOfLine content).dropWhile (¬ blank ·) = [] ∨
    ∃ after, (startOfLine content).dropWhile (¬ blank ·) = space :: after ∧ trim after = after

/-! ## Lists without blanks at one end -/

section

variable {α : Type*} (p : α → Bool)

theorem rdropWhile_cons (a : α) (s : List α) : (a :: s).rdropWhile p =
    if s.rdropWhile p = [] then (if p a then [] else [a]) else a :: s.rdropWhile p := by
  simp only [List.rdropWhile, List.reverse_cons, List.dropWhile_append, List.reverse_eq_nil_iff]
  by_cases h : List.dropWhile p s.reverse = []
  · cases hp : p a <;> simp [h, hp]
  · simp [h]

theorem rdropWhile_cons_of_neg {a : α} (h : ¬ p a) (s : List α) :
    (a :: s).rdropWhile p = a :: s.rdropWhile p := by
  rw [rdropWhile_cons, if_neg h]
  split
  · next hs => rw [hs]
  · rfl

/-- The order of the ends does not matter. -/
theorem dropWhile_rdropWhile (s : List α) :
    (s.rdropWhile p).dropWhile p = (s.dropWhile p).rdropWhile p := by
  induction s with
  | nil => rfl
  | cons a s ih =>
    by_cases ha : p a
    · rw [rdropWhile_cons, if_pos ha, List.dropWhile_cons_of_pos ha, ← ih]
      split
      · next hs => rw [hs]
      · rw [List.dropWhile_cons_of_pos ha]
    · rw [rdropWhile_cons_of_neg p ha, List.dropWhile_cons_of_neg ha, List.dropWhile_cons_of_neg ha,
        rdropWhile_cons_of_neg p ha]

theorem takeWhile_rdropWhile (s : List α) :
    (s.rdropWhile p).takeWhile (¬ p ·) = s.takeWhile (¬ p ·) := by
  induction s with
  | nil => rfl
  | cons a s ih =>
    by_cases ha : p a
    · rw [rdropWhile_cons]
      split <;> simp [ha]
    · rw [rdropWhile_cons_of_neg p ha]
      simpa [ha] using ih

theorem dropWhile_not_rdropWhile (s : List α) :
    (s.rdropWhile p).dropWhile (¬ p ·) = (s.dropWhile (¬ p ·)).rdropWhile p := by
  induction s with
  | nil => rfl
  | cons a s ih =>
    by_cases ha : p a
    · rw [List.dropWhile_cons_of_neg (by simpa using ha), rdropWhile_cons]
      split <;> simp [ha]
    · rw [rdropWhile_cons_of_neg p ha]
      simpa [ha] using ih

end

/-! ## What the parser finds -/

/-- The text that is left of the line as the interpreter, from a point before or after the first
slash. -/
def interpreterText : Bool → Bytes → Bytes
  | _, [] => []
  | found, b :: t =>
    if b = slash then b :: interpreterText true t
    else if b = space ∧ found then []
    else b :: interpreterText found t

/-- Where the line is cut and where the argument starts, `n` bytes into the buffer. -/
def cutAt (n : ℕ) (found : Bool) (line : Bytes) : Option (ℕ × Option ℕ) :=
  let cut := (interpreterText found line).length
  if cut = line.length then none
  else some (n + cut, if cut + 1 = line.length then none else some (n + cut + 1))

theorem interpreterText_true (s : Bytes) : interpreterText true s = s.takeWhile (· ≠ space) := by
  induction s with
  | nil => rfl
  | cons b t ih =>
    rw [interpreterText, ih]
    by_cases hslash : b = slash
    · rw [if_pos hslash, hslash]
      rfl
    · have hne : space ≠ slash := by decide
      by_cases hspace : b = space <;> simp [hslash, hspace, hne]

theorem interpreterText_append {p : Bytes} (hp : slash ∉ p) (q : Bytes) :
    interpreterText false (p ++ q) = p ++ interpreterText false q := by
  induction p with
  | nil => rfl
  | cons b p ih =>
    rw [List.mem_cons, not_or] at hp
    rw [List.cons_append, interpreterText, if_neg (Ne.symm hp.1), if_neg (by simp), ih hp.2,
      List.cons_append]

theorem interpreterText_slash {p : Bytes} (hp : slash ∉ p) (q : Bytes) :
    interpreterText false (p ++ slash :: q) = p ++ slash :: q.takeWhile (· ≠ space) := by
  rw [interpreterText_append hp, interpreterText, if_pos rfl, interpreterText_true]

theorem interpreterText_noSlash {p : Bytes} (hp : slash ∉ p) : interpreterText false p = p := by
  simpa [interpreterText] using interpreterText_append hp []

theorem byteAt_append (done : Bytes) (b : BitVec 8) (rest : Bytes) :
    byteAt (done ++ b :: rest) done.length = .ok b := by
  simp [byteAt]

/-- The loop sees the line and no more than the null byte after it. -/
theorem scan_eq (done : Bytes) {line : Bytes} (tail : Bytes) (h : 0 ∉ line) {rounds : ℕ}
    (hrounds : line.length < rounds) (found : Bool) :
    scan (done ++ (line ++ 0 :: tail)) rounds done.length found =
      .ok (cutAt done.length found line) := by
  induction line generalizing done rounds found with
  | nil =>
    obtain ⟨rounds, rfl⟩ := Nat.exists_eq_add_one_of_ne_zero (by omega : rounds ≠ 0)
    rw [scan, List.nil_append, byteAt_append]
    rfl
  | cons b line ih =>
    obtain ⟨rounds, rfl⟩ := Nat.exists_eq_add_one_of_ne_zero (by omega : rounds ≠ 0)
    rw [List.mem_cons, not_or] at h
    have hround : line.length < rounds := by simpa using hrounds
    have hmove : done ++ (b :: line ++ 0 :: tail) = (done ++ [b]) ++ (line ++ 0 :: tail) := by simp
    have hlength : done.length + 1 = (done ++ [b]).length := by simp
    have hnext : ∀ found', interpreterText found (b :: line) = b :: interpreterText found' line →
        scan (done ++ (b :: line ++ 0 :: tail)) rounds (done.length + 1) found' =
          .ok (cutAt done.length found (b :: line)) := by
      intro found' htext
      rw [hmove, hlength, ih _ h.2 hround found', cutAt, cutAt, htext]
      simp [Nat.add_assoc, Nat.add_comm 1]
    rw [scan, List.cons_append, byteAt_append]
    simp only [Except.bind, bind]
    rw [if_neg (Ne.symm h.1), ← List.cons_append]
    by_cases hslash : b = slash
    · rw [if_pos hslash]
      exact hnext true (by rw [interpreterText, if_pos hslash])
    · rw [if_neg hslash]
      by_cases hspace : b = space ∧ found
      · rw [if_pos hspace, hmove, hlength]
        have htext : interpreterText found (b :: line) = [] := by
          rw [interpreterText, if_neg hslash, if_pos hspace]
        cases line with
        | nil =>
          rw [List.nil_append, byteAt_append, cutAt, htext]
          rfl
        | cons c line =>
          rw [List.cons_append, byteAt_append, cutAt, htext]
          rw [List.mem_cons, not_or] at h
          simpa using Ne.symm h.2.1
      · rw [if_neg hspace]
        exact hnext found (by rw [interpreterText, if_neg hslash, if_neg hspace])

theorem stringAt_append (done : Bytes) {s : Bytes} (tail : Bytes) (h : 0 ∉ s) :
    stringAt (done ++ (s ++ 0 :: tail)) done.length = .ok s := by
  have hall : ∀ b ∈ s, b ≠ 0 := fun b hb hzero ↦ h (hzero ▸ hb)
  have htake : (s ++ 0 :: tail).takeWhile (· ≠ 0) = s := by
    rw [List.takeWhile_append_of_pos (by simpa using hall)]
    simp
  rw [stringAt, List.drop_left, if_pos (by simp), htake]

/-- The interpreter is what the loop leaves, the argument is what follows the cut. -/
theorem split_eq {line : Bytes} (tail : Bytes) (h : 0 ∉ line) (hlength : line.length < pathMax) :
    split (line ++ 0 :: tail) = .ok (interpreterText false line,
      line.drop ((interpreterText false line).length + 1)) := by
  have hpre : ∀ found s, interpreterText found s <+: s := by
    intro found s
    induction s generalizing found with
    | nil => exact List.prefix_rfl
    | cons b t ih =>
      rw [interpreterText]
      split
      · exact List.prefix_cons_inj b |>.mpr (ih true)
      · split
        · exact List.nil_prefix
        · exact List.prefix_cons_inj b |>.mpr (ih found)
  obtain ⟨rest, hrest⟩ := hpre false line
  generalize hhead : interpreterText false line = head at hrest ⊢
  subst hrest
  have hscan := scan_eq [] tail h hlength false
  rw [List.nil_append, List.length_nil, cutAt, hhead, Nat.zero_add] at hscan
  rw [split, hscan]
  have h0 : 0 ∉ head ∧ 0 ∉ rest := by simpa [not_or] using h
  cases rest with
  | nil =>
    have hstring := stringAt_append [] tail h0.1
    simp only [List.append_nil, if_true, bind, Except.bind] at hstring ⊢
    rw [List.nil_append, List.length_nil] at hstring
    rw [hstring, List.drop_of_length_le (by omega)]
  | cons c rest =>
    have hlen : head.length ≠ (head ++ c :: rest).length := by simp
    have hset : (head ++ c :: rest ++ 0 :: tail).set head.length 0 =
        head ++ 0 :: (rest ++ 0 :: tail) := by simp
    have hstring := stringAt_append [] (rest ++ 0 :: tail) h0.1
    rw [List.nil_append, List.length_nil] at hstring
    rw [if_neg hlen]
    simp only [bind, Except.bind]
    rw [hset, hstring]
    have hdrop : (head ++ c :: rest).drop (head.length + 1) = rest := by simp [List.drop_append]
    cases rest with
    | nil => simp
    | cons d rest =>
      have hne : head.length + 1 ≠ (head ++ c :: d :: rest).length := by simp
      have harg := stringAt_append (head ++ [0]) (s := d :: rest) tail
        (List.not_mem_cons_of_ne_of_not_mem (by simp_all) (by simp_all))
      rw [List.length_append, List.length_singleton, List.append_assoc,
        List.singleton_append] at harg
      rw [if_neg hne, hdrop]
      simp only []
      rw [harg]

section

variable {fs : FileSystem} {rootfs : Rootfs} {content : Bytes}

theorem zero_notMem_firstLine (content : Bytes) : 0 ∉ firstLine content := by
  intro h
  have hb := List.mem_takeWhile_imp h
  simp at hb

/-- A line that ends among the bytes that are read becomes a string. -/
theorem terminate_eq (h : newline ∈ (content.drop 2).take pathMax) :
    (firstLine content).length < pathMax ∧ ∃ tail, terminate ((content.drop 2).take pathMax) =
      .ok (firstLine content ++ 0 :: tail) := by
  obtain ⟨before, after, hsplit, hbefore⟩ := List.eq_append_cons_of_mem h
  have hindex : (before ++ newline :: after).idxOf newline = before.length := by
    rw [List.idxOf_append_of_notMem hbefore, List.idxOf_cons_self, Nat.add_zero]
  have hset : terminate ((content.drop 2).take pathMax) = .ok (before ++ 0 :: after) := by
    rw [terminate, hsplit, hindex, if_pos (by simp)]
    simp
  have hline : firstLine content = before.takeWhile fun b ↦ b ≠ newline ∧ b ≠ 0 := by
    rw [firstLine, ← List.take_append_drop pathMax (content.drop 2), hsplit, List.append_assoc,
      List.cons_append, List.takeWhile_append]
    split
    · next hall =>
      rw [(List.takeWhile_prefix _).eq_of_length hall, List.takeWhile_cons_of_neg (by simp),
        List.append_nil]
    · rfl
  have hlength : before.length < pathMax := by
    have htake := List.length_take_le pathMax (content.drop 2)
    rw [hsplit, List.length_append, List.length_cons] at htake
    omega
  rw [hset, hline]
  refine ⟨lt_of_le_of_lt (List.takeWhile_prefix _).length_le hlength, ?_⟩
  have happend := List.takeWhile_append_dropWhile (p := fun b ↦ b ≠ newline ∧ b ≠ 0)
    (l := before)
  have hhead := List.head?_dropWhile_not (fun b ↦ decide (b ≠ newline ∧ b ≠ 0)) before
  cases hrest : before.dropWhile fun b ↦ b ≠ newline ∧ b ≠ 0 with
  | nil =>
    rw [hrest, List.append_nil] at happend
    exact ⟨after, by rw [happend]⟩
  | cons c rest =>
    rw [hrest] at happend hhead
    -- the line has ended before the newline
    obtain rfl : c = 0 := by
      have hc : c ∈ before := by
        rw [← happend]
        simp
      have hne : c ≠ newline := fun heq ↦ hbefore (heq ▸ hc)
      simpa [hne] using hhead
    refine ⟨rest ++ 0 :: after, ?_⟩
    conv_lhs => rw [← happend]
    rw [List.append_assoc, List.cons_append]

theorem script_error (h : newline ∉ (content.drop 2).take pathMax) :
    script fs rootfs content = .error .error := by
  have hindex : ¬ ((content.drop 2).take pathMax).idxOf newline <
      ((content.drop 2).take pathMax).length := by
    rw [List.idxOf_lt_length_iff]
    exact h
  rw [script, terminate, if_neg hindex]
  rfl

/-- A line with a slash: the interpreter is what follows the slash, up to a space. -/
theorem script_slash (h : newline ∈ (content.drop 2).take pathMax) {p q : Bytes}
    (hline : firstLine content = p ++ slash :: q) (hp : slash ∉ p) :
    script fs rootfs content =
      let relative := q.takeWhile (· ≠ space)
      let path := joinPath rootfs.bytes relative
      if relative ≠ [] ∧ fs.pathExists path ∧ fs.isRegularFile path then
        .ok (path, (q.dropWhile (· ≠ space)).tail)
      else .error .error := by
  obtain ⟨hlength, tail, hterminate⟩ := terminate_eq h
  have hsplit := split_eq tail (zero_notMem_firstLine content) hlength
  rw [hline, interpreterText_slash hp] at hsplit
  have harg : (p ++ slash :: q).drop ((p ++ slash :: q.takeWhile (· ≠ space)).length + 1) =
      (q.dropWhile (· ≠ space)).tail := by
    have hq : p ++ slash :: q = (p ++ slash :: q.takeWhile (· ≠ space)) ++
        q.dropWhile (· ≠ space) := by
      rw [List.append_assoc, List.cons_append, List.takeWhile_append_dropWhile]
    conv_lhs => rw [hq]
    rw [List.drop_length_add_append, List.drop_one]
  have hrelative : ((p ++ slash :: q.takeWhile (· ≠ space)).dropWhile (· ≠ slash)).tail =
      q.takeWhile (· ≠ space) := by
    have hall : ∀ b ∈ p, b ≠ slash := fun b hb hslash ↦ hp (hslash ▸ hb)
    rw [List.dropWhile_append_of_pos (by simpa using hall)]
    simp
  rw [script, hterminate, hline]
  simp only [bind, Except.bind]
  rw [hsplit, harg]
  simp only []
  rw [hrelative]
  have hmem : slash ∈ p ++ slash :: q.takeWhile (· ≠ space) := by simp
  by_cases hempty : q.takeWhile (· ≠ space) = []
  · rw [if_pos (.inr hempty), if_neg fun h' ↦ h'.1 hempty]
  · rw [if_neg (not_or.mpr ⟨not_not_intro hmem, hempty⟩)]
    simp only [ne_eq, hempty, not_false_eq_true, true_and]

theorem script_noSlash (hline : slash ∉ firstLine content) :
    script fs rootfs content = .error .error := by
  by_cases h : newline ∈ (content.drop 2).take pathMax
  · obtain ⟨hlength, tail, hterminate⟩ := terminate_eq h
    rw [script, hterminate]
    simp only [bind, Except.bind]
    rw [split_eq _ (zero_notMem_firstLine content) hlength, interpreterText_noSlash hline]
    simp [hline]
  · exact script_error h

end

/-! ## What the kernel finds -/

section

variable {fs : FileSystem} {rootfs : Rootfs} {content : Bytes}

/-- What follows the interpreter. -/
def afterName (content : Bytes) : Bytes := (startOfLine content).dropWhile (¬ blank ·)

theorem kernelScript_eq (content : Bytes) : kernelScript content =
    if startOfLine content = [] then none
    else some ((startOfLine content).takeWhile (¬ blank ·),
      if trim (afterName content) = [] then none else some (trim (afterName content))) := by
  have hline : trim (firstLine content) = (startOfLine content).rdropWhile blank := rfl
  have hempty : (startOfLine content).rdropWhile blank = [] ↔ startOfLine content = [] := by
    constructor
    · intro h
      have hhead := List.head?_dropWhile_not blank (firstLine content)
      rw [← startOfLine] at hhead
      cases hstart : startOfLine content with
      | nil => rfl
      | cons b s =>
        rw [hstart] at h hhead
        rw [rdropWhile_cons_of_neg blank (by simpa using hhead)] at h
        exact absurd h (List.cons_ne_nil _ _)
    · intro h
      rw [h]
      rfl
  rw [kernelScript, hline]
  simp only [hempty]
  rw [takeWhile_rdropWhile, dropWhile_not_rdropWhile, dropWhile_rdropWhile]
  rfl

theorem countP_trim (s : Bytes) : (trim s).countP (¬ blank ·) = s.countP (¬ blank ·) := by
  have hzero : ∀ t : Bytes, (∀ b ∈ t, blank b) → t.countP (¬ blank ·) = 0 := fun t ht ↦
    List.countP_eq_zero.mpr fun b hb ↦ by simp [ht b hb]
  have hleft := congrArg (List.countP (¬ blank ·)) (List.takeWhile_append_dropWhile (p := blank)
    (l := s))
  rw [List.countP_append, hzero _ fun b hb ↦ List.mem_takeWhile_imp hb, Nat.zero_add] at hleft
  have hright : (trim s).countP (¬ blank ·) = (s.dropWhile blank).countP (¬ blank ·) := by
    have hreverse :=
      congrArg (List.countP (¬ blank ·)) (List.takeWhile_append_dropWhile (p := blank)
      (l := (s.dropWhile blank).reverse))
    rw [List.countP_append, hzero _ fun b hb ↦ List.mem_takeWhile_imp hb, Nat.zero_add,
      List.countP_reverse] at hreverse
    rw [trim, List.rdropWhile, List.countP_reverse, hreverse]
  rw [hright, hleft]

/-- The blanks before the interpreter have no slash in them. -/
theorem exists_lead (content : Bytes) :
    ∃ lead, firstLine content = lead ++ startOfLine content ∧ slash ∉ lead := by
  refine ⟨(firstLine content).takeWhile blank, List.takeWhile_append_dropWhile.symm, fun h ↦ ?_⟩
  exact absurd (List.mem_takeWhile_imp h) (by decide)

theorem joinPath_relative {s : Bytes} (h : ¬ isAbsolute s) :
    joinPath rootfs.bytes s = rootfs.bytes ++ slash :: s := by
  rw [joinPath, if_neg (not_or.mpr ⟨h, rootfs.ne_nil⟩), if_neg rootfs.noSlash]

theorem hostPath_slash (w : Bytes) : hostPath fs rootfs (slash :: w) =
    rootfs.bytes ++ slash :: relativePath w := by
  have hrel : relativePath (slash :: w) = relativePath w := by
    rw [relativePath, List.dropWhile_cons_of_pos (by simp)]
    rfl
  rw [hostPath, if_pos (by simp [isAbsolute]), hrel,
    joinPath_relative (isAbsolute_relativePath w)]

/-- A text that does not end with a blank. -/
def EndsWell (s : Bytes) : Prop := ∀ b ∈ s.getLast?, ¬ blank b

theorem endsWell_of_forall {s : Bytes} (h : ∀ b ∈ s, ¬ blank b) : EndsWell s := fun b hb ↦
  h b (List.mem_of_getLast? hb)

theorem endsWell_hostPath {w : Bytes} (h : ∀ b ∈ w, ¬ blank b) :
    EndsWell (rootfs.bytes ++ slash :: relativePath w) := by
  have hend : EndsWell (slash :: relativePath w) := by
    refine endsWell_of_forall fun b hb ↦ ?_
    rcases List.mem_cons.mp hb with rfl | hb
    · decide
    · exact h b ((List.dropWhile_suffix _).mem hb)
  rwa [EndsWell, List.getLast?_append_of_ne_nil _ (List.cons_ne_nil _ _)]

theorem EndsWell.of_joinPath {s : Bytes} (h : EndsWell (joinPath rootfs.bytes s)) : EndsWell s := by
  rcases eq_or_ne s [] with rfl | hs
  · exact nofun
  · by_cases habs : isAbsolute s
    · rwa [joinPath, if_pos (.inl habs)] at h
    · rw [joinPath_relative habs] at h
      rwa [EndsWell, List.getLast?_append_of_ne_nil _ (List.cons_ne_nil _ _),
        List.getLast?_cons_of_ne_nil hs] at h

/-- A path that is absolute below the root file system would be its own prefix. -/
theorem ne_rootfs_append (w : Bytes) : w ≠ rootfs.bytes ++ slash :: relativePath w := by
  intro h
  have hne : rootfs.bytes.dropWhile (· = slash) ≠ [] := by
    intro hnil
    rw [List.dropWhile_eq_nil_iff] at hnil
    have hlast := hnil _ (List.getLast_mem rootfs.ne_nil)
    exact rootfs.noSlash
      (by rw [List.getLast?_eq_getLast_of_ne_nil rootfs.ne_nil]; simpa using hlast)
  have hlength := congrArg (fun s ↦ (relativePath s).length) h
  simp only [relativePath] at hlength
  rw [List.dropWhile_append] at hlength
  simp only [List.isEmpty_iff, hne, if_false, List.length_append, List.length_cons] at hlength
  omega

end

/-! ## When they agree -/

section

variable {fs : FileSystem} {rootfs : Rootfs} {content : Bytes}

/-- The path after the slash, up to a blank. -/
def pathText (u : Bytes) : Bytes := u.takeWhile (¬ blank ·)

theorem takeWhile_space_append {w : Bytes} (rest : Bytes) (hw : ∀ b ∈ w, ¬ blank b) :
    (w ++ rest).takeWhile (· ≠ space) = w ++ rest.takeWhile (· ≠ space) ∧
      (w ++ rest).dropWhile (· ≠ space) = rest.dropWhile (· ≠ space) := by
  have hall : ∀ b ∈ w, b ≠ space := by
    rintro b hb rfl
    exact hw _ hb (by decide)
  exact ⟨List.takeWhile_append_of_pos (by simpa using hall),
    List.dropWhile_append_of_pos (by simpa using hall)⟩

/-- A line that begins with a slash: what the constructor makes of it. -/
theorem script_start (h : newline ∈ (content.drop 2).take pathMax) {u : Bytes}
    (hstart : startOfLine content = slash :: u) : script fs rootfs content =
      let relative := pathText u ++ (afterName content).takeWhile (· ≠ space)
      let path := joinPath rootfs.bytes relative
      if relative ≠ [] ∧ fs.pathExists path ∧ fs.isRegularFile path then
        .ok (path, ((afterName content).dropWhile (· ≠ space)).tail)
      else .error .error := by
  obtain ⟨lead, hline, hlead⟩ := exists_lead content
  rw [hstart] at hline
  have hafter : afterName content = u.dropWhile (¬ blank ·) := by
    rw [afterName, hstart]
    exact List.dropWhile_cons_of_pos (by decide)
  have hsplit : u = pathText u ++ afterName content := by
    rw [hafter]
    exact List.takeWhile_append_dropWhile.symm
  have hw : ∀ b ∈ pathText u, ¬ blank b := fun b hb ↦ by simpa using List.mem_takeWhile_imp hb
  obtain ⟨htake, hdrop⟩ := takeWhile_space_append (afterName content) hw
  rw [script_slash h hline hlead]
  conv_lhs => rw [hsplit, htake, hdrop]

theorem name_of_start {u : Bytes} (hstart : startOfLine content = slash :: u) :
    (startOfLine content).takeWhile (¬ blank ·) = slash :: pathText u := by
  rw [hstart]
  exact List.takeWhile_cons_of_pos (by decide)

/-- The interpreter and the argument that the kernel finds. -/
theorem runs_iff {name : Bytes} {arg : Option Bytes} : Runs fs rootfs content name arg ↔
    startOfLine content ≠ [] ∧ name = (startOfLine content).takeWhile (¬ blank ·) ∧
      arg = (if trim (afterName content) = [] then none else some (trim (afterName content))) ∧
      fs.pathExists (hostPath fs rootfs name) ∧ fs.isRegularFile (hostPath fs rootfs name) := by
  rw [Runs, kernelScript_eq]
  by_cases hstart : startOfLine content = []
  · simp [hstart]
  · rw [if_neg hstart, Option.some_inj, Prod.mk_inj]
    constructor
    · rintro ⟨⟨rfl, rfl⟩, hfile⟩
      exact ⟨hstart, rfl, rfl, hfile⟩
    · rintro ⟨-, rfl, rfl, hfile⟩
      exact ⟨⟨rfl, rfl⟩, hfile⟩

theorem getD_arg (s : Bytes) : (if s = [] then none else some s).getD [] = s := by
  split
  · next h => exact h.symm
  · rfl

/-- A line of the right form is read as the kernel reads it. -/
theorem reads_of_plain (h : Plain content) : Reads fs rootfs content := by
  rintro name arg hruns
  obtain ⟨hne, rfl, rfl, hexists, hregular⟩ := runs_iff.mp hruns
  obtain ⟨c, u, hstart⟩ := List.exists_cons_of_ne_nil hne
  obtain rfl : c = slash := by simpa [hstart] using h.absolute
  obtain ⟨b, hb, hslash, hblank⟩ := h.relative
  rw [hstart, List.tail_cons] at hb
  obtain ⟨u, rfl⟩ : ∃ u', u = b :: u' := by
    cases u with
    | nil => cases hb
    | cons c u =>
      cases hb
      exact ⟨u, rfl⟩
  have htext : pathText (b :: u) = b :: pathText u :=
    List.takeWhile_cons_of_pos (by simpa using hblank)
  have hrelative : ¬ isAbsolute (pathText (b :: u)) := by
    rw [htext]
    simpa [isAbsolute] using hslash
  have hsame : relativePath (pathText (b :: u)) = pathText (b :: u) := by
    rw [htext, relativePath, List.dropWhile_cons_of_neg (by simpa using hslash)]
  rw [name_of_start hstart, hostPath_slash, hsame] at hexists hregular ⊢
  refine ⟨by simp [isAbsolute], ?_⟩
  have hsep : (afterName content).takeWhile (· ≠ space) = [] ∧
      ((afterName content).dropWhile (· ≠ space)).tail = trim (afterName content) := by
    rcases h.separator with hend | ⟨after, hafter, htrim⟩
    · rw [afterName, hend]
      exact ⟨rfl, rfl⟩
    · rw [afterName, hafter, List.takeWhile_cons_of_neg (by simp),
        List.dropWhile_cons_of_neg (by simp), List.tail_cons]
      refine ⟨rfl, ?_⟩
      rw [trim, List.dropWhile_cons_of_pos (by decide)]
      exact htrim.symm
  rw [script_start h.ends hstart, hsep.1, hsep.2, List.append_nil, getD_arg]
  dsimp only
  rw [joinPath_relative hrelative]
  exact if_pos ⟨by simp [htext], hexists, hregular⟩

/-- No byte is used that was not read from the file. -/
theorem script_ne_overread : script fs rootfs content ≠ .error .overread := by
  by_cases h : newline ∈ (content.drop 2).take pathMax
  · by_cases hslash : slash ∈ firstLine content
    · obtain ⟨p, q, hline, hp⟩ := List.eq_append_cons_of_mem hslash
      rw [script_slash h hline hp]
      dsimp only
      split <;> nofun
    · rw [script_noSlash hslash]
      nofun
  · rw [script_error h]
    nofun

/-- What is read right has the right form. -/
theorem plain_of_reads {name : Bytes} {arg : Option Bytes} (hreads : Reads fs rootfs content)
    (hruns : Runs fs rootfs content name arg) : Plain content := by
  obtain ⟨habs, hscript⟩ := hreads name arg hruns
  obtain ⟨hne, rfl, rfl, -, -⟩ := runs_iff.mp hruns
  have hends : newline ∈ (content.drop 2).take pathMax := by
    by_contra h
    rw [script_error h] at hscript
    cases hscript
  obtain ⟨c, u, hstart⟩ := List.exists_cons_of_ne_nil hne
  obtain rfl : c = slash := by
    have hnonblank : ¬ blank c := by
      have hhead := List.head?_dropWhile_not blank (firstLine content)
      rw [← startOfLine, hstart] at hhead
      simpa using hhead
    rw [hstart, List.takeWhile_cons_of_pos (by simpa using hnonblank)] at habs
    simpa [isAbsolute] using habs
  have hw : ∀ b ∈ pathText u, ¬ blank b := fun b hb ↦ by simpa using List.mem_takeWhile_imp hb
  rw [name_of_start hstart, hostPath_slash, getD_arg, script_start hends hstart] at hscript
  dsimp only at hscript
  generalize hz : (afterName content).takeWhile (· ≠ space) = z at hscript
  obtain ⟨hrelative, hpath, harg⟩ : pathText u ++ z ≠ [] ∧
      joinPath rootfs.bytes (pathText u ++ z) = rootfs.bytes ++ slash :: relativePath (pathText u) ∧
      ((afterName content).dropWhile (· ≠ space)).tail = trim (afterName content) := by
    split at hscript
    · next hcond =>
      have hpair := Except.ok.inj hscript
      exact ⟨hcond.1, congrArg Prod.fst hpair, congrArg Prod.snd hpair⟩
    · cases hscript
  -- the constructor drops the texts before the space, so there is none that the kernel keeps
  have hblank : ∀ b ∈ z, blank b := by
    have hcount := countP_trim (afterName content)
    have hsplit := congrArg (List.countP (¬ blank ·))
      (List.takeWhile_append_dropWhile (p := (· ≠ space)) (l := afterName content))
    rw [List.countP_append, hz] at hsplit
    have htail : ((afterName content).dropWhile (· ≠ space)).tail.countP (¬ blank ·) ≤
        ((afterName content).dropWhile (· ≠ space)).countP (¬ blank ·) :=
      (List.tail_sublist _).countP_le
    rw [harg, hcount] at htail
    have hzero : z.countP (¬ blank ·) = 0 := by omega
    intro b hb
    simpa using List.countP_eq_zero.mp hzero b hb
  have hempty : z = [] := by
    by_contra hne
    have hlast : EndsWell (pathText u ++ z) := by
      refine EndsWell.of_joinPath (?_ : EndsWell (joinPath rootfs.bytes _))
      rw [hpath]
      exact endsWell_hostPath hw
    rw [EndsWell, List.getLast?_append_of_ne_nil _ hne] at hlast
    exact hlast _ (List.getLast_mem_getLast? hne) (hblank _ (List.getLast_mem hne))
  subst hempty
  rw [List.append_nil] at hrelative hpath
  obtain ⟨b, w, htext⟩ := List.exists_cons_of_ne_nil hrelative
  have hslash : b ≠ slash := by
    rintro rfl
    rw [joinPath, if_pos (.inl (by simp [htext, isAbsolute]))] at hpath
    exact ne_rootfs_append (pathText u) hpath
  obtain ⟨u, rfl⟩ : ∃ u', u = b :: u' := by
    cases u with
    | nil => cases htext
    | cons c u =>
      by_cases hc : blank c
      · rw [pathText, List.takeWhile_cons_of_neg (by simpa using hc)] at htext
        cases htext
      · rw [pathText, List.takeWhile_cons_of_pos (by simpa using hc)] at htext
        cases htext
        exact ⟨u, rfl⟩
  refine ⟨hends, by rw [hstart]; rfl, ⟨b, by rw [hstart]; rfl, hslash, hw b (by simp [htext])⟩, ?_⟩
  change afterName content = [] ∨ ∃ after, afterName content = space :: after ∧ _
  cases hafter : afterName content with
  | nil => exact .inl rfl
  | cons c after =>
    rw [hafter] at hz harg
    obtain rfl : c = space := by
      by_contra hc
      rw [List.takeWhile_cons_of_pos (by simpa using hc)] at hz
      cases hz
    rw [List.dropWhile_cons_of_neg (by simp), List.tail_cons, trim,
      List.dropWhile_cons_of_pos (by decide)] at harg
    exact .inr ⟨after, rfl, harg.symm⟩

/-- **Which scripts are read as the kernel reads them**: those without an interpreter that the
kernel would run, and those whose first line is plain. -/
theorem reads_iff (fs : FileSystem) (rootfs : Rootfs) (content : Bytes) :
    (Reads fs rootfs content ∧ script fs rootfs content ≠ .error .overread) ↔
      ((∃ name arg, Runs fs rootfs content name arg) → Plain content) := by
  constructor
  · rintro ⟨hreads, -⟩ ⟨name, arg, hruns⟩
    exact plain_of_reads hreads hruns
  · intro h
    refine ⟨fun name arg hruns ↦ reads_of_plain (h ⟨name, arg, hruns⟩) name arg hruns, ?_⟩
    exact script_ne_overread

end

/-- A file system in which every path is a file. -/
def allFiles : FileSystem where
  currentPath := asciiBytes "/r"
  isSymlink _ := false
  readSymlink _ := none
  pathExists _ := true
  isRegularFile _ := true
  lines _ := none
  content _ := []

def sampleRoot : Rootfs := ⟨asciiBytes "/r", by decide, by decide⟩

/-- A script whose first line is the last one, and one with a tab before the argument. -/
theorem not_reads :
    let unended := asciiBytes "#!/bin/sh"
    let tabbed := asciiBytes "#!/bin/sh\t-e\n"
    Runs allFiles sampleRoot unended (asciiBytes "/bin/sh") none ∧
      script allFiles sampleRoot unended = .error .error ∧
      Runs allFiles sampleRoot tabbed (asciiBytes "/bin/sh") (some (asciiBytes "-e")) ∧
      script allFiles sampleRoot tabbed = .ok (asciiBytes "/r/bin/sh\t-e", []) ∧
      ¬ Reads allFiles sampleRoot unended ∧ ¬ Reads allFiles sampleRoot tabbed := by
  have hunended : Runs allFiles sampleRoot (asciiBytes "#!/bin/sh") (asciiBytes "/bin/sh") none :=
    ⟨by decide, rfl, rfl⟩
  have htabbed : Runs allFiles sampleRoot (asciiBytes "#!/bin/sh\t-e\n") (asciiBytes "/bin/sh")
      (some (asciiBytes "-e")) :=
    ⟨by decide, rfl, rfl⟩
  have herror : script allFiles sampleRoot (asciiBytes "#!/bin/sh") = .error .error := by decide
  have htab : script allFiles sampleRoot (asciiBytes "#!/bin/sh\t-e\n") =
      .ok (asciiBytes "/r/bin/sh\t-e", []) := by decide
  refine ⟨hunended, herror, htabbed, htab, fun h ↦ ?_, fun h ↦ ?_⟩
  · have hscript := (h _ _ hunended).2
    rw [herror] at hscript
    cases hscript
  · have hscript := (h _ _ htabbed).2
    rw [htab] at hscript
    exact absurd hscript (by decide)

end Script

end Felix86
