import Felix86.Hle.GuestTypes
import Felix86.Hle.SignalMask
import Felix86.Lib.Positions

/-!
# `pselect6_time32`

The sets of descriptors of the guest are words of 32 bits, the ones of the host have a fixed number
of bits. The bits are copied one by one before the call and after it.

The number of descriptors is rounded up to whole words first, so the call also looks at descriptors
that the guest did not ask for. A guest without a mask gets the empty one, and of a mask the two
signals that the library keeps for itself are not taken. A set that does not fit in the one of the
host is copied past its end. `marshals_iff_right` says for which arguments the call is the one that
the guest asked for.
-/

namespace Felix86

namespace Pselect6

open Positions GuestTypes

/-! ## Arguments -/

inductive Which
  | readfds
  | writefds
  | exceptfds
deriving DecidableEq

/-- `FD_SETSIZE` of the host. -/
def fdSetSize : ℕ := 1024

abbrev FdSet := BitVec fdSetSize

/-- `x86_sigset_argpack`, with the value that the pointer leads to. -/
structure SigsetArgpack where
  data : Option (BitVec 64)
  size : BitVec 32

/-- The first multiple of 32 that is not below `nfds`. -/
def wholeWords (nfds : ℤ) : ℤ := (nfds + 31) / 32 * 32

/-- The arguments of the guest, null pointers being `none`. -/
structure Args where
  nfds : BitVec 32
  sets : Which → Option (List (BitVec 32))
  timeout : Option X86Timespec
  sigset : Option SigsetArgpack
  /-- The bits below `nfds` are there, in whole words. -/
  room : ∀ k words, sets k = some words → wholeWords nfds.toInt ≤ 32 * words.length

/-- The arguments of the host's `pselect`. -/
structure Call where
  nfds : ℤ
  sets : Which → Option FdSet
  timeout : Option Timespec
  mask : Option SigSet

/-- What it returns and leaves in the arguments. -/
structure Reply where
  result : ℤ
  errno : ℕ
  sets : Which → FdSet
  timeout : Timespec

/-- The documented behaviour: the descriptors that are ready are among those that were asked for,
and an error leaves the sets alone. -/
structure Lawful (host : Call → Reply) : Prop where
  ready : ∀ c k s (i : ℕ), c.sets k = some s → (i : ℤ) < c.nfds → ((host c).sets k).getLsbD i →
    s.getLsbD i
  failed : ∀ c k s, c.sets k = some s → (host c).result = -1 → (host c).sets k = s

/-! ## The code -/

/-- Overflow of an `int` is not defined. -/
def int (x : ℤ) : Option ℤ := if -2 ^ 31 ≤ x ∧ x < 2 ^ 31 then some x else none

/-- One word in the loops before the call. -/
def copyWord (nfds : ℤ) (words : List (BitVec 32)) (host : FdSet) (wordIndex : ℕ) :
    Option FdSet := do
  let first ← int ((wordIndex : ℤ) * 32)
  let remaining ← int (nfds - first)
  -- `FD_SET` where the bit is set
  setBits (fun i ↦ wordIndex * 32 + i) (fun i ↦ words[wordIndex]?.map (·.getLsbD i))
    (List.range (min 32 remaining).toNat) host

/-- The number of words is one of bytes, so the last rounds have no bits left. -/
def copyIn (nfds : ℤ) (words : List (BitVec 32)) : Option FdSet :=
  (List.range (nfds / 4).toNat).foldlM (copyWord nfds words) (0 : FdSet)

/-- One round of the loops after the call. -/
def store (host : FdSet) (words : List (BitVec 32)) (i : ℕ) : Option (List (BitVec 32)) :=
  if i < fdSetSize then do
    let word ← words[i / 32]?
    let bit : BitVec 32 := 1#32 <<< (i % 32)
    some (words.set (i / 32) (if host.getLsbD i then word ||| bit else word &&& ~~~bit))
  else none

def copyOut (nfds : ℤ) (host : FdSet) (words : List (BitVec 32)) : Option (List (BitVec 32)) :=
  (List.range nfds.toNat).foldlM (store host) words

/-- `host_sigset`. -/
def copyMask : Option SigsetArgpack → Option SigSet
  | none => some 0
  | some sigset => do
    let val ← sigset.data
    if sigset.size ≤ 8 then
      some <| (List.range (sigset.size.toNat * 8)).foldl
        (fun set i ↦ if val.getLsbD i then SigSet.sigaddset set (i + 1) else set) 0
    else none

/-- The same code for the three sets. -/
def each {α : Type} (f : Which → Option α) : Option (Which → α) := do
  let r ← f .readfds
  let w ← f .writefds
  let e ← f .exceptfds
  some fun
    | .readfds => r
    | .writefds => w
    | .exceptfds => e

structure Outcome where
  call : Call
  result : ℤ
  sets : Which → Option (List (BitVec 32))
  timeout : Option X86Timespec

def pselect6Time32 (host : Call → Reply) (args : Args) : Option Outcome := do
  let nfds ← int (args.nfds.toInt + 31)
  -- `nfds &= ~31`
  let nfds := nfds / 32 * 32
  let hosts ← each fun k ↦ match args.sets k with
    | none => some 0
    | some words => copyIn nfds words
  let mask ← copyMask args.sigset
  let call : Call := ⟨nfds, fun k ↦ (args.sets k).map fun _ ↦ hosts k,
    args.timeout.map timespec.toHost, some mask⟩
  let reply := host call
  let sets ← each fun k ↦ match args.sets k with
    | none => some none
    | some words => (copyOut nfds (reply.sets k) words).map some
  let result := if reply.result = -1 then -(reply.errno : ℤ) else reply.result
  some ⟨call, result, sets, args.timeout.map fun _ ↦ timespec.ofHost reply.timeout⟩

/-! ## What the call should be -/

/-- A bit in the words of the guest. -/
def isSet (words : List (BitVec 32)) (i : ℕ) : Bool := (words.getD (i / 32) 0).getLsbD (i % 32)

/-- The signals of a mask, of which the guest says the size. -/
def SigsetArgpack.mask (sigset : SigsetArgpack) : Option SigSet :=
  sigset.data.map fun val ↦ val &&& BitVec.ofNat 64 (2 ^ (sigset.size.toNat * 8) - 1)

/-- The host sees what the guest asked for, and the guest what the host answered. -/
structure Faithful (host : Call → Reply) (args : Args) (o : Outcome) : Prop where
  seen : ∀ k words, args.sets k = some words → ∃ s, o.call.sets k = some s ∧
    ∀ i : ℕ, ((i : ℤ) < o.call.nfds ∧ s.getLsbD i) ↔ ((i : ℤ) < args.nfds.toInt ∧ isSet words i)
  null : ∀ k, args.sets k = none → o.call.sets k = none ∧ o.sets k = none
  timeout : o.call.timeout = args.timeout.map timespec.toHost
  mask : o.call.mask = args.sigset.bind SigsetArgpack.mask
  answered : (host o.call).result ≠ -1 → ∀ k words, args.sets k = some words →
    ∃ words', o.sets k = some words' ∧ words'.length = words.length ∧ ∀ i : ℕ, isSet words' i =
      if (i : ℤ) < args.nfds.toInt then ((host o.call).sets k).getLsbD i else isSet words i
  failed : (host o.call).result = -1 → o.sets = args.sets

/-- The code makes a call that is faithful, without leaving the sets. -/
def Marshals (host : Call → Reply) (args : Args) : Prop :=
  ∃ o, pselect6Time32 host args = some o ∧ Faithful host args o

/-- When it does. -/
structure Right (args : Args) : Prop where
  small : args.nfds.toInt + 31 < 2 ^ 31
  capacity : ∀ k words, args.sets k = some words → args.nfds.toInt ≤ fdSetSize
  clear : ∀ k words, args.sets k = some words → ∀ i : ℕ, args.nfds.toInt ≤ i →
    (i : ℤ) < wholeWords args.nfds.toInt → isSet words i = false
  mask : ∃ sigset m, args.sigset = some sigset ∧ sigset.mask = some m ∧ sigset.size ≤ 8 ∧
    m &&& SigSet.internal = 0

/-! ## Bits -/

section

variable {words words' : List (BitVec 32)} {host : FdSet} {n : ℕ}

theorem isSet_of_lt {i : ℕ} {word : BitVec 32} (h : words[i / 32]? = some word) :
    isSet words i = word.getLsbD (i % 32) := by
  rw [isSet, List.getD_eq_getElem?_getD, h]
  rfl

/-- Sets of one length are the same if their bits are. -/
theorem eq_of_isSet (hlength : words'.length = words.length)
    (h : ∀ i, isSet words' i = isSet words i) : words' = words := by
  refine List.ext_getElem hlength fun k hk hk' ↦ BitVec.eq_of_getLsbD_eq fun i hi ↦ ?_
  have hbit := h (32 * k + i)
  have hdiv : (32 * k + i) / 32 = k := by omega
  have hmod : (32 * k + i) % 32 = i := by omega
  have hget : words'[(32 * k + i) / 32]? = some words'[k] := by
    rw [hdiv, List.getElem?_eq_getElem hk]
  have hget' : words[(32 * k + i) / 32]? = some words[k] := by
    rw [hdiv, List.getElem?_eq_getElem hk']
  rwa [isSet_of_lt hget, isSet_of_lt hget', hmod] at hbit

/-- One round of the loop copies one bit. -/
theorem store_eq_some (host : FdSet) {i : ℕ} (hi : i < fdSetSize) (hroom : i < 32 * words.length) :
    ∃ words', store host words i = some words' ∧ words'.length = words.length ∧
      ∀ j, isSet words' j = if j = i then host.getLsbD i else isSet words j := by
  have hword : i / 32 < words.length := by omega
  have hget : words[i / 32]? = some words[i / 32] := List.getElem?_eq_getElem hword
  rw [store, if_pos hi, hget]
  refine ⟨_, rfl, List.length_set, fun j ↦ ?_⟩
  generalize words[i / 32] = word at hget
  have hset (v : BitVec 32) : isSet (words.set (i / 32) v) j =
      if j / 32 = i / 32 then v.getLsbD (j % 32) else isSet words j := by
    rw [isSet, isSet, List.getD_eq_getElem?_getD, List.getD_eq_getElem?_getD,
      List.getElem?_set]
    by_cases hj : j / 32 = i / 32
    · rw [if_pos hj, if_pos hj.symm, if_pos hword]
      rfl
    · rw [if_neg hj, if_neg (Ne.symm hj)]
  have hmod : i % 32 < 32 := Nat.mod_lt _ (by decide)
  have hmod' : j % 32 < 32 := Nat.mod_lt _ (by decide)
  have hbit : (1#32 <<< (i % 32)).getLsbD (j % 32) = decide (j % 32 = i % 32) := by
    rw [← BitVec.twoPow_eq, BitVec.getLsbD_twoPow]
    simp [hmod, eq_comm]
  rw [hset]
  by_cases hj : j / 32 = i / 32
  · rw [if_pos hj, isSet_of_lt (hj ▸ hget)]
    have heq : j = i ↔ j % 32 = i % 32 := by omega
    generalize 1#32 <<< (i % 32) = bit at hbit ⊢
    rw [if_congr heq rfl rfl]
    cases host.getLsbD i with
    | false =>
      rw [if_neg Bool.false_ne_true, BitVec.getLsbD_and, BitVec.getLsbD_not, hbit]
      by_cases hji : j % 32 = i % 32 <;> simp [hji, hmod']
    | true =>
      rw [if_pos rfl, BitVec.getLsbD_or, hbit]
      by_cases hji : j % 32 = i % 32 <;> simp [hji]
  · rw [if_neg hj, if_neg (by omega)]

theorem copyOut_succ (n : ℕ) :
    copyOut (n + 1 : ℕ) host words = (copyOut n host words).bind (store host · n) := by
  rw [copyOut, copyOut, Int.toNat_natCast, Int.toNat_natCast, List.range_succ, List.foldlM_append]
  cases List.foldlM (store host) words (List.range n) with
  | none => rfl
  | some words' => simp

/-- The bits below `n` become those of the host. -/
theorem copyOut_eq_some (host : FdSet) (hn : n ≤ fdSetSize) (hroom : n ≤ 32 * words.length) :
    ∃ words', copyOut n host words = some words' ∧ words'.length = words.length ∧
      ∀ j, isSet words' j = if j < n then host.getLsbD j else isSet words j := by
  induction n with
  | zero => exact ⟨words, rfl, rfl, fun j ↦ rfl⟩
  | succ n ih =>
    obtain ⟨words₁, hcopy, hlength, hbits⟩ := ih (by omega) (by omega)
    obtain ⟨words₂, hstore, hlength₂, hbits₂⟩ :=
      store_eq_some host (show n < fdSetSize by omega) (show n < 32 * words₁.length by omega)
    refine ⟨words₂, ?_, hlength₂.trans hlength, fun j ↦ ?_⟩
    · rw [copyOut_succ, hcopy]
      exact hstore
    · rw [hbits₂, hbits]
      rcases lt_trichotomy j n with hlt | rfl | hgt
      · rw [if_neg (by omega), if_pos hlt, if_pos (by omega)]
      · rw [if_pos rfl, if_pos (by omega)]
      · rw [if_neg (by omega), if_neg (by omega), if_neg (by omega)]

/-- Nothing else is copied than what the host's set has room for. -/
theorem copyOut_eq_none (hn : fdSetSize < n) : copyOut n host words = none := by
  induction n with
  | zero => omega
  | succ n ih =>
    rw [copyOut_succ]
    by_cases hlt : fdSetSize < n
    · rw [ih hlt]
      rfl
    · have hnone : ∀ words, store host words n = none := fun words ↦ if_neg (by omega)
      cases copyOut n host words with
      | none => rfl
      | some words' => exact hnone words'

end

/-! ## The loops before the call -/

section

variable {words : List (BitVec 32)} {n r : ℕ} {nfds : ℤ}

theorem int_of_range {x : ℤ} (h : -2 ^ 31 ≤ x) (h' : x < 2 ^ 31) : int x = some x := if_pos ⟨h, h'⟩

/-- A round copies the bits of one word, or none if the word is past the end. -/
theorem copyWord_eq_some (hn : n ≤ 1024) (hroom : n ≤ 32 * words.length) (h32 : n % 32 = 0)
    (hr : r ≤ 1024) (host : FdSet) :
    ∃ host', copyWord n words host r = some host' ∧ ∀ k, host'.getLsbD k =
      (host.getLsbD k || decide (r * 32 ≤ k ∧ k < r * 32 + 32 ∧ k < n) && isSet words k) := by
  have hcount : (min 32 ((n : ℤ) - r * 32)).toNat = if r * 32 < n then 32 else 0 := by
    split <;> omega
  have hbit : ∀ i ∈ List.range (if r * 32 < n then 32 else 0),
      words[r]?.map (·.getLsbD i) = some ((words.getD r 0).getLsbD i) := by
    intro i hi
    split at hi
    · have hr : r < words.length := by omega
      rw [List.getElem?_eq_getElem hr, List.getD_eq_getElem?_getD, List.getElem?_eq_getElem hr]
      rfl
    · exact absurd hi (by simp)
  have hpos : ∀ i ∈ List.range (if r * 32 < n then 32 else 0), (words.getD r 0).getLsbD i →
      r * 32 + i < fdSetSize := by
    intro i hi _
    split at hi
    · have hi := List.mem_range.mp hi
      change r * 32 + i < 1024
      omega
    · exact absurd hi (by simp)
  obtain ⟨host', hhost, hbits⟩ := setBits_eq_some hbit hpos host
  refine ⟨host', ?_, fun k ↦ ?_⟩
  · have hfirst : int ((r : ℤ) * 32) = some ((r : ℤ) * 32) := int_of_range (by omega) (by omega)
    have hrest : int ((n : ℤ) - r * 32) = some ((n : ℤ) - r * 32) :=
      int_of_range (by omega) (by omega)
    rw [copyWord, hfirst, Option.bind_eq_bind, Option.bind_some, hrest, Option.bind_some, hcount]
    exact hhost
  rw [hbits, any_range_add]
  congr 1
  by_cases hk : r * 32 ≤ k ∧ k < r * 32 + 32 ∧ k < n
  · have hdiv : k / 32 = r := by omega
    have hmod : k % 32 = k - r * 32 := by omega
    rw [decide_eq_true hk, isSet, hdiv, hmod, if_pos (by omega),
      decide_eq_true ⟨hk.1, hk.2.1⟩]
  · rw [decide_eq_false hk, decide_eq_false, Bool.false_and, Bool.false_and]
    split <;> omega

/-- The set of the host has the bits that are below `n`. -/
theorem copyIn_eq_some (words : List (BitVec 32)) (hn : n ≤ 1024) (hroom : n ≤ 32 * words.length)
    (h32 : n % 32 = 0) :
    ∃ host, copyIn n words = some host ∧
      ∀ k, host.getLsbD k = (decide (k < n) && isSet words k) := by
  -- after `r` rounds the bits of the first `r` words are there
  have hrounds : ∀ r ≤ n / 4, ∃ host,
      (List.range r).foldlM (copyWord n words) (0 : FdSet) = some host ∧
        ∀ k, host.getLsbD k = (decide (k < r * 32 ∧ k < n) && isSet words k) := by
    intro r hr
    induction r with
    | zero =>
      exact ⟨(0 : FdSet), rfl,
        fun k ↦ by rw [show (0 : FdSet).getLsbD k = false from BitVec.getLsbD_zero]; simp⟩
    | succ r ih =>
      obtain ⟨host, hhost, hbits⟩ := ih (by omega)
      obtain ⟨host', hhost', hbits'⟩ := copyWord_eq_some (r := r) hn hroom h32 (by omega) host
      refine ⟨host', ?_, fun k ↦ ?_⟩
      · rw [List.range_succ, List.foldlM_append, hhost, Option.bind_eq_bind, Option.bind_some,
          List.foldlM_cons, hhost']
        rfl
      · have hbelow : (decide (k < r * 32 ∧ k < n) ||
            decide (r * 32 ≤ k ∧ k < r * 32 + 32 ∧ k < n)) =
              decide (k < (r + 1) * 32 ∧ k < n) := by
          rw [← Bool.decide_or, decide_eq_decide]
          omega
        rw [hbits', hbits, ← Bool.and_or_distrib_right, hbelow]
  obtain ⟨host, hhost, hbits⟩ := hrounds (n / 4) le_rfl
  refine ⟨host, ?_, fun k ↦ ?_⟩
  · rw [copyIn, show ((n : ℤ) / 4).toNat = n / 4 by omega]
    exact hhost
  · rw [hbits]
    congr 1
    rw [decide_eq_decide]
    omega

theorem copyIn_toNat (nfds : ℤ) : copyIn nfds words = copyIn nfds.toNat words := by
  rcases le_total 0 nfds with hnonneg | hneg
  · rw [Int.toNat_of_nonneg hnonneg]
  · have hrounds : (nfds / 4).toNat = 0 := Int.toNat_of_nonpos (by omega)
    have hnone : ∀ m : ℤ, (m / 4).toNat = 0 → copyIn m words = some (0 : FdSet) := by
      intro m hm
      rw [copyIn, hm, List.range_zero, List.foldlM_nil]
      exact rfl
    rw [hnone nfds hrounds, Int.toNat_of_nonpos hneg]
    exact (hnone _ (Int.toNat_of_nonpos (by omega))).symm

theorem copyOut_toNat (nfds : ℤ) (host : FdSet) :
    copyOut nfds host words = copyOut nfds.toNat host words := by
  rw [copyOut, copyOut, Int.toNat_natCast]

/-! ## The mask -/

/-- The library takes every signal but its own two. -/
theorem settable_succ {m : ℕ} (hm : m < 64) :
    SigSet.settable (m + 1) = !SigSet.internal.getLsbD m := by
  interval_cases m <;> decide

theorem getLsbD_bit {m k : ℕ} (hm : m < 64) : (SigSet.bit (m + 1)).getLsbD k = decide (m = k) := by
  rw [SigSet.bit, Nat.add_sub_cancel, ← BitVec.twoPow_eq, BitVec.getLsbD_twoPow, decide_eq_true hm,
    Bool.true_and]

/-- A signal that is put into the set, bit by bit. -/
theorem getLsbD_sigaddset {set : SigSet} {m k : ℕ} (hm : m < 64) :
    (SigSet.sigaddset set (m + 1)).getLsbD k =
      (set.getLsbD k || decide (m = k) && !SigSet.internal.getLsbD m) := by
  rw [SigSet.sigaddset, settable_succ hm]
  cases SigSet.internal.getLsbD m with
  | false =>
    rw [Bool.not_false, if_pos rfl, BitVec.getLsbD_or, getLsbD_bit hm, Bool.and_true]
  | true =>
    rw [Bool.not_true, if_neg Bool.false_ne_true, Bool.and_false, Bool.or_false]

/-- The mask of the host has the signals that the size covers, but the library's own. -/
theorem copyMask_eq {val : BitVec 64} {size : BitVec 32} (hsize : size ≤ 8) :
    copyMask (some ⟨some val, size⟩) =
      (SigsetArgpack.mask ⟨some val, size⟩).map (· &&& ~~~SigSet.internal) := by
  have hle : size.toNat ≤ 8 := hsize
  -- after `m` rounds the signals of the first `m` bits are there
  have hrounds : ∀ m ≤ 64, ∀ k, ((List.range m).foldl
      (fun set i ↦ if val.getLsbD i then SigSet.sigaddset set (i + 1) else set) 0).getLsbD k =
        (decide (k < m) && val.getLsbD k && !SigSet.internal.getLsbD k) := by
    intro m hm
    induction m with
    | zero =>
      intro k
      rw [List.range_zero, List.foldl_nil, decide_eq_false (Nat.not_lt_zero k), Bool.false_and,
        Bool.false_and]
      exact BitVec.getLsbD_zero
    | succ m ih =>
      intro k
      have ih := ih (by omega) k
      rw [List.range_succ, List.foldl_concat]
      generalize (List.range m).foldl _ _ = set at ih ⊢
      have hround : (if val.getLsbD m then SigSet.sigaddset set (m + 1) else set).getLsbD k =
          (set.getLsbD k || decide (m = k) && val.getLsbD m && !SigSet.internal.getLsbD m) := by
        cases val.getLsbD m with
        | false => simp
        | true => rw [if_pos rfl, getLsbD_sigaddset (by omega), Bool.and_true]
      rw [hround, ih]
      rcases lt_trichotomy k m with hlt | rfl | hgt
      · simp [hlt, Nat.lt_succ_of_lt hlt, show m ≠ k by omega]
      · simp
      · simp [show ¬ k < m by omega, show ¬ k < m + 1 by omega, show m ≠ k by omega]
  simp only [copyMask, SigsetArgpack.mask, Option.bind_eq_bind, Option.bind_some, if_pos hsize,
    Option.map_some]
  congr 1
  refine BitVec.eq_of_getLsbD_eq fun k hk ↦ ?_
  rw [hrounds _ (by omega), BitVec.getLsbD_and, BitVec.getLsbD_and, BitVec.getLsbD_ofNat,
    Nat.testBit_two_pow_sub_one, BitVec.getLsbD_not, decide_eq_true hk, Bool.true_and,
      Bool.true_and,
    Bool.and_comm (decide _)]

/-- A mask gets through as it is if and only if the library's own signals are not in it. -/
theorem and_not_internal_eq_iff {m : SigSet} :
    m &&& ~~~SigSet.internal = m ↔ m &&& SigSet.internal = 0 := by
  constructor
  · intro h
    rw [← h, BitVec.and_assoc, BitVec.and_comm (~~~SigSet.internal), BitVec.and_not_self]
    exact BitVec.and_zero
  · intro h
    refine BitVec.eq_of_getLsbD_eq fun k hk ↦ ?_
    have hzero : (0 : SigSet).getLsbD k = false := BitVec.getLsbD_zero
    have hbit : (m.getLsbD k && SigSet.internal.getLsbD k) = false := by
      rw [← BitVec.getLsbD_and, h, hzero]
    rw [BitVec.getLsbD_and, BitVec.getLsbD_not, decide_eq_true hk, Bool.true_and]
    cases hm : m.getLsbD k with
    | false => rfl
    | true =>
      rw [hm, Bool.true_and] at hbit
      rw [hbit]
      rfl

theorem copyMask_of_right {sigset : SigsetArgpack} {m : SigSet} (hm : sigset.mask = some m)
    (hsize : sigset.size ≤ 8) (hinternal : m &&& SigSet.internal = 0) :
    copyMask (some sigset) = some m := by
  obtain ⟨data, size⟩ := sigset
  obtain ⟨val, rfl, -⟩ := Option.map_eq_some_iff.mp hm
  rw [copyMask_eq hsize, hm, Option.map_some, and_not_internal_eq_iff.mpr hinternal]

end

/-! ## The call -/

section

variable {host : Call → Reply} {args : Args} {k : Which} {words : List (BitVec 32)} {o : Outcome}

theorem each_eq_some {α : Type} {f : Which → Option α} {g : Which → α} :
    each f = some g ↔ ∀ k, f k = some (g k) := by
  constructor
  · intro h
    rw [each, Option.bind_eq_bind] at h
    obtain ⟨r, hr, h⟩ := Option.bind_eq_some_iff.mp h
    obtain ⟨w, hw, h⟩ := Option.bind_eq_some_iff.mp h
    obtain ⟨e, he, h⟩ := Option.bind_eq_some_iff.mp h
    obtain rfl := Option.some_injective _ h
    intro k
    cases k with
    | readfds => exact hr
    | writefds => exact hw
    | exceptfds => exact he
  · intro h
    rw [each, h .readfds, h .writefds, h .exceptfds]
    refine congrArg some (funext fun k ↦ ?_)
    cases k <;> rfl

theorem wholeWords_le (nfds : ℤ) : nfds ≤ wholeWords nfds := by
  rw [wholeWords]
  omega

/-- How the outcome comes about. -/
structure Runs (host : Call → Reply) (args : Args) (o : Outcome) (hosts : Which → FdSet)
    (mask : SigSet) : Prop where
  small : args.nfds.toInt + 31 < 2 ^ 31
  copied : ∀ k words, args.sets k = some words →
    copyIn (wholeWords args.nfds.toInt) words = some (hosts k)
  masked : copyMask args.sigset = some mask
  call : o.call = ⟨wholeWords args.nfds.toInt, fun k ↦ (args.sets k).map fun _ ↦ hosts k,
    args.timeout.map timespec.toHost, some mask⟩
  stored : ∀ k words, args.sets k = some words →
    copyOut (wholeWords args.nfds.toInt) ((host o.call).sets k) words = o.sets k
  null : ∀ k, args.sets k = none → o.sets k = none
  given : ∀ k words, args.sets k = some words → o.sets k ≠ none

theorem runs_of_eq_some (h : pselect6Time32 host args = some o) :
    ∃ hosts mask, Runs host args o hosts mask := by
  simp only [pselect6Time32, Option.bind_eq_bind] at h
  obtain ⟨nfds, hnfds, h⟩ := Option.bind_eq_some_iff.mp h
  obtain ⟨hosts, hhosts, h⟩ := Option.bind_eq_some_iff.mp h
  obtain ⟨mask, hmask, h⟩ := Option.bind_eq_some_iff.mp h
  obtain ⟨sets, hsets, h⟩ := Option.bind_eq_some_iff.mp h
  rw [int] at hnfds
  split at hnfds
  · next hrange =>
    obtain rfl := Option.some_injective _ hnfds
    obtain rfl := Option.some_injective _ h
    have hhosts := each_eq_some.mp hhosts
    have hsets := each_eq_some.mp hsets
    refine ⟨hosts, mask, hrange.2, fun k words hk ↦ ?_, hmask, rfl, fun k words hk ↦ ?_,
      fun k hk ↦ ?_, fun k words hk hnone ↦ ?_⟩
    · have hcopy := hhosts k
      rwa [hk] at hcopy
    · have hcopy := hsets k
      rw [hk] at hcopy
      obtain ⟨words', hwords, hk'⟩ := Option.map_eq_some_iff.mp hcopy
      exact hwords.trans hk'
    · have hcopy := hsets k
      rw [hk] at hcopy
      exact (Option.some_injective _ hcopy).symm
    · have hcopy := hsets k
      rw [hk] at hcopy
      obtain ⟨words', -, hk'⟩ := Option.map_eq_some_iff.mp hcopy
      exact absurd (hk'.trans hnone) (Option.some_ne_none _)
  · cases hnfds

theorem exists_each {α : Type} {f : Which → Option α} (h : ∀ k, ∃ a, f k = some a) :
    ∃ g, each f = some g := by
  choose g hg using h
  exact ⟨g, each_eq_some.mpr hg⟩

/-- The code gets to its end if all of its loops do. -/
theorem exists_eq_some (host : Call → Reply) {mask : SigSet}
    (hsmall : args.nfds.toInt + 31 < 2 ^ 31)
    (hmask : copyMask args.sigset = some mask)
    (hcopy : ∀ k words, args.sets k = some words →
      ∃ s, copyIn (wholeWords args.nfds.toInt) words = some s)
    (hstore : ∀ k words s, args.sets k = some words →
      ∃ words', copyOut (wholeWords args.nfds.toInt) s words = some words') :
    ∃ o, pselect6Time32 host args = some o := by
  have hlow : -2 ^ 31 ≤ args.nfds.toInt + 31 := by
    have := BitVec.le_toInt args.nfds
    omega
  have hin : ∀ k, ∃ s, (match args.sets k with
      | none => some 0
      | some words => copyIn (wholeWords args.nfds.toInt) words) = some s := by
    intro k
    cases hk : args.sets k with
    | none => exact ⟨0, rfl⟩
    | some words => exact hcopy k words hk
  have hout (reply : Reply) : ∀ k, ∃ s, (match args.sets k with
      | none => some none
      | some words => (copyOut (wholeWords args.nfds.toInt) (reply.sets k) words).map some) =
        some s := by
    intro k
    cases hk : args.sets k with
    | none => exact ⟨none, rfl⟩
    | some words =>
      obtain ⟨words', hwords⟩ := hstore k words (reply.sets k) hk
      exact ⟨some words', congrArg (Option.map some) hwords⟩
  obtain ⟨hosts, hhosts⟩ := exists_each hin
  simp only [pselect6Time32, Option.bind_eq_bind, int_of_range hlow hsmall, Option.bind_some]
  rw [wholeWords] at hhosts hout
  rw [hhosts, Option.bind_some, hmask, Option.bind_some]
  obtain ⟨sets, hsets⟩ := exists_each (hout _)
  rw [hsets]
  exact ⟨_, rfl⟩

end

/-! ## When the call is faithful -/

section

variable {host : Call → Reply} {args : Args} {k : Which} {words : List (BitVec 32)} {o : Outcome}
  {hosts : Which → FdSet} {mask : SigSet}

/-- The copy of a set that fits has its bits. -/
theorem getLsbD_of_copyIn {s : FdSet} (hk : args.sets k = some words)
    (hfits : args.nfds.toInt ≤ 1024)
    (hs : copyIn (wholeWords args.nfds.toInt) words = some s) (i : ℕ) :
    s.getLsbD i = (decide ((i : ℤ) < wholeWords args.nfds.toInt) && isSet words i) := by
  have hroom := args.room k words hk
  obtain ⟨s', hs', hbits⟩ := copyIn_eq_some words
    (n := (wholeWords args.nfds.toInt).toNat) (by rw [wholeWords]; omega) (by omega)
    (by rw [wholeWords]; omega)
  rw [copyIn_toNat, hs'] at hs
  obtain rfl := Option.some_injective _ hs
  rw [hbits]
  exact congrArg (· && _) (decide_eq_decide.mpr Int.lt_toNat)

/-- A set that is stored fits in the one of the host. -/
theorem nfds_le_of_stored (hr : Runs host args o hosts mask) (hk : args.sets k = some words) :
    args.nfds.toInt ≤ 1024 := by
  by_contra hlarge
  have hstored := hr.stored k words hk
  have hn : fdSetSize < (wholeWords args.nfds.toInt).toNat := by
    change 1024 < _
    have := wholeWords_le args.nfds.toInt
    omega
  rw [copyOut_toNat, copyOut_eq_none hn] at hstored
  exact hr.given k words hk hstored.symm

theorem right_of_faithful (hr : Runs host args o hosts mask) (hf : Faithful host args o) :
    Right args := by
  refine ⟨hr.small, fun k words hk ↦ nfds_le_of_stored hr hk, fun k words hk i hi hi' ↦ ?_, ?_⟩
  · by_contra hbit
    have hset : isSet words i = true := by simpa using hbit
    obtain ⟨s, hs, hseen⟩ := hf.seen k words hk
    rw [hr.call] at hs hseen
    simp only [hk, Option.map_some, Option.some.injEq] at hs
    subst hs
    have hcopied := getLsbD_of_copyIn hk (nfds_le_of_stored hr hk) (hr.copied k words hk) i
    rw [hset, Bool.and_true, decide_eq_true hi'] at hcopied
    exact absurd ((hseen i).mp ⟨hi', hcopied⟩).1 (not_lt.mpr hi)
  · have hmask := hf.mask
    rw [hr.call] at hmask
    cases hsigset : args.sigset with
    | none => simp [hsigset] at hmask
    | some sigset =>
      have hcopy := hr.masked
      rw [hsigset, copyMask, Option.bind_eq_bind] at hcopy
      obtain ⟨val, hval, hcopy⟩ := Option.bind_eq_some_iff.mp hcopy
      split at hcopy
      · next hsize =>
        have hmasked := hr.masked
        obtain ⟨data, size⟩ := sigset
        obtain rfl : data = some val := hval
        rw [hsigset, copyMask_eq hsize] at hmasked
        obtain ⟨m, hm, hcut⟩ := Option.map_eq_some_iff.mp hmasked
        rw [hsigset] at hmask
        have hsame : mask = m := Option.some_injective _ (hmask.trans hm)
        exact ⟨_, m, rfl, hm, hsize, and_not_internal_eq_iff.mp (hcut.trans hsame)⟩
      · cases hcopy

/-- What the loops after the call leave, bit by bit. -/
theorem isSet_of_stored (hr : Runs host args o hosts mask) (hk : args.sets k = some words) :
    ∃ words', o.sets k = some words' ∧ words'.length = words.length ∧ ∀ i : ℕ, isSet words' i =
      if (i : ℤ) < wholeWords args.nfds.toInt then ((host o.call).sets k).getLsbD i
      else isSet words i := by
  have hfits := nfds_le_of_stored hr hk
  have hroom := args.room k words hk
  have hn : (wholeWords args.nfds.toInt).toNat ≤ fdSetSize := by
    change _ ≤ 1024
    rw [wholeWords]
    omega
  obtain ⟨words', hcopy, hlength, hbits⟩ := copyOut_eq_some ((host o.call).sets k) hn
    (by omega : _ ≤ 32 * words.length)
  refine ⟨words', ?_, hlength, fun i ↦ ?_⟩
  · rw [← hr.stored k words hk, copyOut_toNat]
    exact hcopy
  · rw [hbits]
    exact if_congr Int.lt_toNat rfl rfl

theorem faithful_of_right (hlaw : Lawful host) (hright : Right args)
    (hr : Runs host args o hosts mask) : Faithful host args o := by
  have hsets : ∀ k words, args.sets k = some words → o.call.sets k = some (hosts k) := by
    intro k words hk
    rw [hr.call]
    simp only [hk, Option.map_some]
  have hnfds : o.call.nfds = wholeWords args.nfds.toInt := by rw [hr.call]
  have hcopied : ∀ k words, args.sets k = some words → ∀ i : ℕ, (hosts k).getLsbD i =
      (decide ((i : ℤ) < wholeWords args.nfds.toInt) && isSet words i) := fun k words hk ↦
    getLsbD_of_copyIn hk (hright.capacity k words hk) (hr.copied k words hk)
  have hle := wholeWords_le args.nfds.toInt
  refine ⟨fun k words hk ↦ ⟨hosts k, hsets k words hk, fun i ↦ ?_⟩, fun k hk ↦ ⟨?_, hr.null k hk⟩,
    by rw [hr.call], ?_, fun _ k words hk ↦ ?_, fun hfailed ↦ funext fun k ↦ ?_⟩
  · rw [hnfds, hcopied k words hk i, Bool.and_eq_true, decide_eq_true_eq]
    constructor
    · rintro ⟨-, hi, hbit⟩
      refine ⟨lt_of_not_ge fun hge ↦ ?_, hbit⟩
      rw [hright.clear k words hk i hge hi] at hbit
      exact Bool.false_ne_true hbit
    · rintro ⟨hi, hbit⟩
      exact ⟨by omega, by omega, hbit⟩
  · rw [hr.call]
    simp only [hk, Option.map_none]
  · obtain ⟨sigset, m, hsigset, hm, hsize, hinternal⟩ := hright.mask
    have hmasked := hr.masked
    rw [hsigset, copyMask_of_right hm hsize hinternal] at hmasked
    rw [hr.call, hsigset]
    exact hmasked.symm.trans hm.symm
  · obtain ⟨words', hwords, hlength, hbits⟩ := isSet_of_stored hr hk
    refine ⟨words', hwords, hlength, fun i ↦ ?_⟩
    rw [hbits]
    by_cases hi : (i : ℤ) < args.nfds.toInt
    · rw [if_pos hi, if_pos (by omega)]
    · rw [if_neg hi]
      split
      · next hi' =>
        -- nothing was asked for there, and so nothing is ready
        have hclear := hright.clear k words hk i (not_lt.mp hi) hi'
        rw [hclear, Bool.eq_false_iff]
        intro hready
        have hasked := hlaw.ready o.call k _ i (hsets k words hk) (hnfds ▸ hi') hready
        rw [hcopied k words hk i, hclear, Bool.and_false] at hasked
        exact Bool.false_ne_true hasked
      · rfl
  · cases hk : args.sets k with
    | none => exact hr.null k hk
    | some words =>
      obtain ⟨words', hwords, hlength, hbits⟩ := isSet_of_stored hr hk
      rw [hwords, eq_of_isSet hlength fun i ↦ ?_]
      rw [hbits, hlaw.failed o.call k _ (hsets k words hk) hfailed, hcopied k words hk i]
      split
      · next hi => rw [decide_eq_true hi, Bool.true_and]
      · rfl

/-- The call is faithful if and only if no bits are copied that were not asked for, the sets fit in
those of the host and there is a mask. -/
theorem marshals_iff_right (hlaw : Lawful host) (args : Args) :
    Marshals host args ↔ Right args := by
  constructor
  · rintro ⟨o, ho, hf⟩
    obtain ⟨hosts, mask, hr⟩ := runs_of_eq_some ho
    exact right_of_faithful hr hf
  · intro hright
    obtain ⟨sigset, m, hsigset, hm, hsize, hinternal⟩ := hright.mask
    have hmask : copyMask args.sigset = some m := by
      rw [hsigset, copyMask_of_right hm hsize hinternal]
    have hcopy : ∀ k words, args.sets k = some words →
        ∃ s, copyIn (wholeWords args.nfds.toInt) words = some s := by
      intro k words hk
      have hfits : args.nfds.toInt ≤ 1024 := hright.capacity k words hk
      have hroom := args.room k words hk
      obtain ⟨s, hs, -⟩ := copyIn_eq_some words
        (n := (wholeWords args.nfds.toInt).toNat) (by rw [wholeWords]; omega) (by omega)
        (by rw [wholeWords]; omega)
      exact ⟨s, (copyIn_toNat _).trans hs⟩
    have hstore : ∀ k words s, args.sets k = some words →
        ∃ words', copyOut (wholeWords args.nfds.toInt) s words = some words' := by
      intro k words s hk
      have hfits : args.nfds.toInt ≤ 1024 := hright.capacity k words hk
      have hroom := args.room k words hk
      have hn : (wholeWords args.nfds.toInt).toNat ≤ fdSetSize := by
        change _ ≤ 1024
        rw [wholeWords]
        omega
      obtain ⟨words', hcopy, -⟩ := copyOut_eq_some s hn
        (by omega : _ ≤ 32 * words.length)
      exact ⟨words', (copyOut_toNat _ s).trans hcopy⟩
    obtain ⟨o, ho⟩ := exists_eq_some host hright.small hmask hcopy hstore
    obtain ⟨hosts, mask, hr⟩ := runs_of_eq_some ho
    exact ⟨o, ho, faithful_of_right hlaw hright hr⟩

/-! ## Samples -/

/-- Nothing is ready. -/
def quiet (_ : Call) : Reply := ⟨0, 0, fun _ ↦ 0, ⟨0, 0⟩⟩

theorem lawful_quiet : Lawful quiet where
  ready _ _ _ i _ _ hready := by
    have hclear : (0 : FdSet).getLsbD i = false := BitVec.getLsbD_zero
    change (0 : FdSet).getLsbD i = true at hready
    rw [hclear] at hready
    cases hready
  failed _ _ _ _ hfailed := by
    change (0 : ℤ) = -1 at hfailed
    omega

/-- The descriptors of one word to read from, and an empty mask if there is one. -/
def oneWord (nfds : BitVec 32) (hnfds : nfds.toInt ≤ 32) (word : BitVec 32) (masked : Bool) :
    Args where
  nfds := nfds
  sets
    | .readfds => some [word]
    | _ => none
  timeout := none
  sigset := if masked then some ⟨some 0, 8⟩ else none
  room k words hk := by
    cases k with
    | readfds =>
      obtain rfl := Option.some_injective _ hk
      rw [wholeWords, List.length_singleton]
      omega
    | _ => cases hk

theorem marshals_iff_right_oneWord : Marshals quiet (oneWord 5 (by decide) 0b10010 true) := by
  refine (marshals_iff_right lawful_quiet _).mpr ⟨by decide, fun k words hk ↦ ?_,
    fun k words hk i hi hi' ↦ ?_, _, _, rfl, rfl, by decide, by decide⟩
  · change (5 : ℤ) ≤ 1024
    decide
  · cases k with
    | readfds =>
      obtain rfl := Option.some_injective _ hk
      have hlow : (5 : ℤ) ≤ i := hi
      have hhigh : (i : ℤ) < 32 := hi'
      have hi : 5 ≤ i ∧ i < 32 := by omega
      obtain ⟨hlow, hhigh⟩ := hi
      interval_cases i <;> rfl
    | _ => cases hk

/-- The host is asked about descriptor 5, which is not below 5; and a guest without a mask gets the
empty one. -/
theorem not_marshals : ¬ Marshals quiet (oneWord 5 (by decide) 0b110010 true) ∧
    ¬ Marshals quiet (oneWord 5 (by decide) 0b10010 false) := by
  constructor
  · rintro ⟨o, ho, hf⟩
    obtain ⟨hosts, mask, hr⟩ := runs_of_eq_some ho
    have hright := right_of_faithful hr hf
    have hclear := hright.clear .readfds _ rfl 5 (by decide) (by decide)
    exact absurd hclear (by decide)
  · rintro ⟨o, ho, hf⟩
    obtain ⟨hosts, mask, hr⟩ := runs_of_eq_some ho
    obtain ⟨sigset, -, hsigset, -⟩ := (right_of_faithful hr hf).mask
    cases hsigset

end

end Pselect6

end Felix86
