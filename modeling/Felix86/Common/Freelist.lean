import Felix86.Lib.ClosedRange
import Mathlib.Algebra.Group.Nat.Defs
import Mathlib.Order.Interval.Set.Basic

/-!
# The freelist of the low 4 GiB

`common/freelist.cpp` keeps the free part of the 32-bit address space as a linked list of nodes
with inclusive `u32` bounds. This file is the translation: addresses and sizes are natural numbers
and every place where the source relies on `u32` or `u64` arithmetic wraps explicitly.

The linked list is a `List Node`, so unlinking and relinking are list surgery. A call either
returns or brings the emulator down, through an `ASSERT` or, for `allocate` without an address,
through a call to itself with the same arguments.
-/

namespace Felix86

/-- Truncation to `u32`. -/
def u32 (n : ℕ) : ℕ := n % 2 ^ 32

/-- Truncation to `u64`. -/
def u64 (n : ℕ) : ℕ := n % 2 ^ 64

def uint32Max : ℕ := 2 ^ 32 - 1

/-- `ASSERT(!(n & 0xFFF))`. -/
def PageAligned (n : ℕ) : Prop := n % 0x1000 = 0

instance (n : ℕ) : Decidable (PageAligned n) := inferInstanceAs (Decidable (_ = _))

namespace Freelist

/-- One free range; `stop` is the source's inclusive `end`. -/
abbrev Node := ClosedRange ℕ

/-- Why a call did not return. -/
inductive Fault
  | assertion
  | stackOverflow
deriving DecidableEq, Repr

/-- What `allocate` returns: an address, or `-ENOMEM`. -/
inductive Reply
  | address (addr : ℕ)
  | enomem
deriving DecidableEq, Repr

/-- The constructor: one node from `mmap_min_addr` to the end of the 32-bit space. -/
def initial (mmapMinAddr : ℕ) : List Node := [⟨u32 mmapMinAddr, uint32Max⟩]

/-! ## Allocation -/

/-- The scan of the fixed case: break `[addr, endAddr]` off the first node that contains it. -/
def breakOff (addr endAddr : ℕ) : List Node → Option (List Node)
  | [] => none
  | current :: rest =>
    if addr = current.start ∧ endAddr = current.stop then
      some rest
    else if current.start < addr ∧ endAddr = current.stop then
      some (⟨current.start, addr - 1⟩ :: rest)
    else if addr = current.start ∧ endAddr < current.stop then
      some (⟨u32 (endAddr + 1), current.stop⟩ :: rest)
    else if current.start < addr ∧ endAddr < current.stop then
      some (⟨current.start, addr - 1⟩ :: ⟨u32 (endAddr + 1), current.stop⟩ :: rest)
    else
      (breakOff addr endAddr rest).map (current :: ·)

/-- `allocate` with a nonzero address. The sum `addr + size - 1` is computed in `u64`. -/
def allocateFixed (list : List Node) (addr size : ℕ) : Except Fault (Reply × List Node) :=
  if ¬PageAligned addr then .error .assertion
  else if uint32Max < u64 (addr + size + (2 ^ 64 - 1)) then .error .assertion
  else match breakOff addr (u64 (addr + size + (2 ^ 64 - 1))) list with
    | some list' => .ok (.address addr, list')
    | none => .ok (.enomem, list)

/-- `cur_size`, which wraps to zero for the node that is the whole space. -/
def curSize (current : Node) : ℕ := u32 (u32 (current.stop + 1) + 2 ^ 32 - current.start)

/-- One iteration of the search of the non-fixed case: `best` and `best_size` so far. -/
def updateBest (size : ℕ) (best : Option Node × ℕ) (current : Node) : Option Node × ℕ :=
  if size ≤ curSize current ∧ (best.1 = none ∨ best.2 < curSize current) then
    (some current, curSize current)
  else best

def findBest (size : ℕ) (list : List Node) : Option Node :=
  (list.foldl (updateBest size) (none, uint32Max)).1

/-- `Freelist::allocate`. Without an address it calls itself on the start of the node it chose; if
that is address zero the call repeats itself and the stack overflows. -/
def allocate (list : List Node) (addr size : ℕ) : Except Fault (Reply × List Node) :=
  if ¬PageAligned size then .error .assertion
  else if addr ≠ 0 then allocateFixed list addr size
  else match findBest size list with
    | none => .ok (.enomem, list)
    | some best =>
      if best.start = 0 then .error .stackOverflow else allocateFixed list best.start size

/-! ## Deallocation -/

/-- The walk of `deallocate`: the new node is linked in before *every* node that does not start
below it, and the walk ends early, reporting `true`, at a node that contains it. -/
def place (new : Node) : List Node → List Node × Bool
  | [] => ([], false)
  | current :: rest =>
    if current.start ≤ new.start ∧ new.stop ≤ current.stop then (current :: rest, true)
    else if new.start ≤ current.start then
      (new :: current :: (place new rest).1, (place new rest).2)
    else (current :: (place new rest).1, (place new rest).2)

/-- The test of `consolidate`; `end + 1` is a `u32`. -/
def Touches (current next : Node) : Prop := next.start ≤ u32 (current.stop + 1)

instance (current next : Node) : Decidable (Touches current next) :=
  inferInstanceAs (Decidable (_ ≤ _))

/-- What `consolidate` puts in place of two nodes. -/
def merge (current next : Node) : Node := ⟨current.start, max current.stop next.stop⟩

/-- One round of the fixpoint loop: merge the first pair that touches, if there is one. -/
def mergeFirst : List Node → Option (List Node)
  | [] => none
  | [_] => none
  | current :: next :: rest =>
    if Touches current next then some (merge current next :: rest)
    else (mergeFirst (next :: rest)).map (current :: ·)

/-- The fixpoint loop, for at most `fuel` rounds. -/
def consolidateLoop : ℕ → List Node → List Node
  | 0, list => list
  | fuel + 1, list =>
    match mergeFirst list with
    | some list' => consolidateLoop fuel list'
    | none => list

/-- `Freelist::consolidate`. Every round shortens the list, so its length is fuel enough. -/
def consolidate (list : List Node) : List Node := consolidateLoop list.length list

/-- `Freelist::deallocate`. -/
def deallocate (list : List Node) (addr size : ℕ) : Except Fault (List Node) :=
  if ¬PageAligned addr ∨ ¬PageAligned size ∨ 2 ^ 32 < u64 (addr + size) then .error .assertion
  else
    let placed := place ⟨addr, u32 (addr + size + (2 ^ 32 - 1))⟩ list
    .ok (if placed.2 then placed.1 else consolidate placed.1)

end Freelist

end Felix86
