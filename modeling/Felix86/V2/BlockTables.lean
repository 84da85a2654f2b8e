import Felix86.Common.Freelist
import Felix86.V2.HostCode

/-!
# The recompiler's code buffer and block tables

What a `Recompiler` remembers about the blocks it has compiled: where each block starts and ends,
which guest pages it came from, which block a host address belongs to, and which places in the
emitted code are waiting for a block. The operations are those of `v2/recompiler.cpp` that read or
change this: `compile`, `jumpAndLink`, `expirePendingLinks`, `invalidateBlock`, `invalidateRange`,
`invalidateAt`, `clearCodeCache` and the dispatcher's `getCompiledBlock`.

What a block contains is the business of the handlers. Here it is a list of items, each an opaque
instruction, a link to a guest address or a jump back to the dispatcher.

A block's metadata is one object that several tables point to, so the tables hold the block's guest
address and the object is looked up. An operation that fails an `ASSERT`, or stores through a null
pointer, ends the process and has no result.
-/

namespace Felix86

/-- `code_cache_size`. -/
def codeCacheSize : ℕ := 64 * 1024 * 1024

/-- `address_cache_bits`. -/
def addressCacheBits : ℕ := 20

/-- What is fixed for the life of a `Recompiler`: the options it looks at, and where
`emitNecessaryStuff` puts the dispatcher and the thunk, which is the same place every time. -/
structure Layout where
  link : Bool
  addressCache : Bool
  mode32 : Bool
  codeCache : ℕ
  compileNextHandler : ℕ
  invalidateCallerThunk : ℕ
  startOfCodeCache : ℕ
  codeCache_pos : 0 < codeCache
  codeCache_le_thunk : codeCache ≤ invalidateCallerThunk
  thunk_lt_start : invalidateCallerThunk < startOfCodeCache
  start_le : startOfCodeCache ≤ codeCache + codeCacheSize
  thunk_even : invalidateCallerThunk % 2 = 0
  codeCache_lt : codeCache + codeCacheSize < 2 ^ 63

/-- `BlockMetadata`, without the instruction spans, which only the signal handler reads. -/
structure BlockMetadata where
  address : ℕ
  addressEnd : ℕ
  guestAddress : ℕ
  guestAddressEnd : ℕ
  pendingLinks : List ℕ
deriving DecidableEq, Repr

/-- A default-constructed one. -/
def BlockMetadata.empty : BlockMetadata := ⟨0, 0, 0, 0, []⟩

/-- `AddressCacheEntry`. -/
structure AddressCacheEntry where
  host : ℕ
  guest : ℕ
deriving DecidableEq, Repr

/-- The code buffer and the tables. A missing key of `block_metadata` reads as a
default-constructed object, because the source only uses `operator[]`; `hostPcMap` is sorted. -/
structure Recompiler where
  code : ℕ → HostInsn
  cursor : ℕ
  blockMetadata : ℕ → BlockMetadata
  pageMap : ℕ → List ℕ
  hostPcMap : List (ℕ × ℕ)
  addressCache : ℕ → AddressCacheEntry

namespace Recompiler

variable (L : Layout) (r : Recompiler)

/-- After the constructor. -/
def initial (code : ℕ → HostInsn) : Recompiler where
  code := code
  cursor := L.startOfCodeCache
  blockMetadata := fun _ ↦ .empty
  pageMap := fun _ ↦ []
  hostPcMap := []
  addressCache := fun _ ↦ ⟨0, 0⟩

/-- Change one block's metadata. -/
def modifyBlock (rip : ℕ) (f : BlockMetadata → BlockMetadata) : Recompiler :=
  { r with blockMetadata := Function.update r.blockMetadata rip (f (r.blockMetadata rip)) }

/-- Overwrite one instruction. -/
def store (address : ℕ) (insn : HostInsn) : Recompiler :=
  { r with code := Function.update r.code address insn }

/-- `as.SetCursorPointer`. -/
def setCursor (cursor : ℕ) : Recompiler := { r with cursor := cursor }

/-- Emit one instruction at the cursor; the buffer asserts that it has space. -/
def emit (insn : HostInsn) : Option Recompiler :=
  if r.cursor + 4 ≤ L.codeCache + codeCacheSize then
    some ((r.store r.cursor insn).setCursor (r.cursor + 4))
  else none

/-! ## Links -/

/-- The `u64` difference of two addresses. -/
def offsetTo (target address : ℕ) : BitVec 64 := BitVec.ofNat 64 target - BitVec.ofNat 64 address

def isValidJTypeImm (value : BitVec 64) : Prop := -0x80000 ≤ value.toInt ∧ value.toInt ≤ 0x7FFFF

instance (value : BitVec 64) : Decidable (isValidJTypeImm value) :=
  inferInstanceAs (Decidable (_ ∧ _))

def isValid2GBImm (value : BitVec 64) : Prop :=
  -(2 ^ 31) ≤ value.toInt ∧ value.toInt ≤ 2 ^ 31 - 1

instance (value : BitVec 64) : Decidable (isValid2GBImm value) :=
  inferInstanceAs (Decidable (_ ∧ _))

/-- `Recompiler::backToDispatcher`. -/
def backToDispatcher : Option Recompiler :=
  let offset := offsetTo L.compileNextHandler r.cursor
  if isValid2GBImm offset then do
    let r ← r.emit L (.auipc .t6 (hi20 offset))
    r.emit L (.jalr .x0 (lo12 offset) .t6)
  else none

def blockExists (rip : ℕ) : Prop := (r.blockMetadata rip).address ≠ 0

instance (rip : ℕ) : Decidable (r.blockExists rip) := inferInstanceAs (Decidable (_ ≠ _))

/-- The jump of `jumpAndLink` to a block that exists. -/
def jumpTo (target : ℕ) : Option Recompiler :=
  let offset := offsetTo target r.cursor
  if isValidJTypeImm (offset - 4) then do
    let r ← r.emit L .nop
    r.emit L (.jal .t5 (offset - 4))
  else if isValid2GBImm offset then do
    let r ← r.emit L (.auipc .t4 (hi20 offset))
    r.emit L (.jalr .t5 (lo12 offset) .t4)
  else none

/-- `Recompiler::jumpAndLink`. -/
def jumpAndLink (rip : ℕ) : Option Recompiler :=
  if ¬L.link then r.backToDispatcher L
  else if r.blockExists rip then r.jumpTo L (r.blockMetadata rip).address
  else do
    let linkMe := r.cursor
    let r ← r.backToDispatcher L
    return r.modifyBlock rip fun m ↦ { m with pendingLinks := m.pendingLinks ++ [linkMe] }

/-- One round of `expirePendingLinks`, also what `invalidateAt` does to the caller: `jumpAndLink` at
an earlier place, with the cursor put back afterwards. -/
def relink (rip link : ℕ) : Option Recompiler := do
  let cursor := r.cursor
  let r ← (r.setCursor link).jumpAndLink L rip
  return r.setCursor cursor

/-- `Recompiler::expirePendingLinks`. The links are those pending when the loop starts: the block
exists, so none is added. -/
def expirePendingLinks (rip : ℕ) : Option Recompiler :=
  if ¬L.link ∨ ¬r.blockExists rip then some r
  else do
    let r ← (r.blockMetadata rip).pendingLinks.foldlM (fun r link ↦ r.relink L rip link) r
    return r.modifyBlock rip fun m ↦ { m with pendingLinks := [] }

/-! ## Compilation -/

/-- `Recompiler::clearCodeCache`. -/
def clearCodeCache : Recompiler := initial L r.code

/-- What a handler emits. -/
inductive Item
  | insn (word : BitVec 32)
  | link (rip : ℕ)
  | dispatch
deriving DecidableEq, Repr

/-- A decoded and translated basic block: what is emitted for it and where it ends. -/
structure Sequence where
  items : List Item
  guestEnd : ℕ
deriving DecidableEq, Repr

def emitItem : Item → Option Recompiler
  | .insn word => r.emit L (.other word)
  | .link rip => r.jumpAndLink L rip
  | .dispatch => r.backToDispatcher L

/-- The loop of `compileSequence`. -/
def emitItems (items : List Item) : Option Recompiler :=
  items.foldlM (fun r item ↦ r.emitItem L item) r

/-- The check at the top of `compile`. -/
def makeSpace : Recompiler :=
  if codeCacheSize - (r.cursor - L.codeCache) < 100000 then r.clearCodeCache L else r

/-- An instruction pointer just above 4 GiB has wrapped around. -/
def wrapRip (rip : ℕ) : ℕ :=
  if L.mode32 ∧ 2 ^ 32 ≤ rip ∧ rip ≤ 0x1FFFFFFFF then rip % 2 ^ 32 else rip

/-- The keys of `page_map` from `first` to `last`. -/
def pages (first last : ℕ) : List ℕ :=
  (List.range' ((first + 0xFFF) / 0x1000)
    (last / 0x1000 + 1 - (first + 0xFFF) / 0x1000)).map (· * 0x1000)

/-- The pages a block was read from. -/
def pagesOf (m : BlockMetadata) : List ℕ :=
  pages (m.guestAddress / 0x1000 * 0x1000) ((m.guestAddressEnd - 1) / 0x1000 * 0x1000)

/-- `page_map[page].push_back(&block_meta)` for every page of the block. -/
def registerPages (rip : ℕ) : Recompiler :=
  { r with pageMap := fun page ↦
      if page ∈ pagesOf (r.blockMetadata rip) then r.pageMap page ++ [rip] else r.pageMap page }

/-- `host_pc_map[key] = &block_meta`. -/
def insertKey (key rip : ℕ) : List (ℕ × ℕ) → List (ℕ × ℕ)
  | [] => [(key, rip)]
  | (k, v) :: rest =>
    if key < k then (key, rip) :: (k, v) :: rest
    else if key = k then (key, rip) :: rest
    else (k, v) :: insertKey key rip rest

/-- Store a cache entry. -/
def setCacheEntry (guest : ℕ) (entry : AddressCacheEntry) : Recompiler :=
  { r with addressCache :=
      Function.update r.addressCache (guest % 2 ^ addressCacheBits) entry }

/-- The part of `compile` behind `compileSequence`. -/
def finishBlock (rip : ℕ) : Option Recompiler :=
  let m := r.blockMetadata rip
  let r := { r with hostPcMap := insertKey (m.addressEnd - 1) rip r.hostPcMap }
  let r := r.registerPages rip
  let r := if L.addressCache then r.setCacheEntry m.guestAddress ⟨m.address, m.guestAddress⟩ else r
  r.expirePendingLinks L rip

/-- `compile` once there is space: the block is entered in the tables before its code is emitted,
so that a branch to itself links. -/
def compileAt (rip : ℕ) (seq : Sequence) : Option Recompiler := do
  let start := r.cursor
  let r := r.modifyBlock rip fun m ↦ { m with address := start, guestAddress := rip }
  let r ← r.emitItems L seq.items
  let r := r.modifyBlock rip fun m ↦
    { m with guestAddressEnd := seq.guestEnd, addressEnd := r.cursor }
  if start + 8 ≤ r.cursor then r.finishBlock L rip else none

/-- `Recompiler::compile`. -/
def compile (rip : ℕ) (seq : Sequence) : Option Recompiler :=
  (r.makeSpace L).compileAt L (wrapRip L rip) seq

/-- `Recompiler::getCompiledBlock`: the host address to continue at. -/
def getCompiledBlock (rip : ℕ) (seq : Sequence) : Option (ℕ × Recompiler) :=
  let entry := r.addressCache (rip % 2 ^ addressCacheBits)
  let host := (r.blockMetadata rip).address
  if L.addressCache ∧ entry.guest = rip then some (entry.host, r)
  else if r.blockExists rip then
    some (host, if L.addressCache then r.setCacheEntry rip ⟨host, rip⟩ else r)
  else do
    let start := (r.makeSpace L).cursor
    let r ← r.compile L rip seq
    return (start, r)

/-! ## Invalidation -/

/-- `Recompiler::invalidateBlock`: the first two instructions now go to the thunk. -/
def invalidateBlock (rip : ℕ) : Option Recompiler :=
  let address := (r.blockMetadata rip).address
  let offset := offsetTo L.invalidateCallerThunk address
  if address = 0 then none
  else some ((r.store address (.auipc .t4 (hi20 offset))).store (address + 4)
    (.jalr .t6 (lo12 offset) .t4))

/-- The keys `invalidateRange` visits, in order. -/
def pagesIn (start stop : ℕ) : List ℕ := pages start (u64 (stop + 2 ^ 64 - 1))

/-- The blocks `invalidateRange` hands to `invalidateBlock`, in order. -/
def handed (start stop : ℕ) : List ℕ := (pagesIn start stop).flatMap r.pageMap

/-- `Recompiler::invalidateRange`. -/
def invalidateRange (start stop : ℕ) : Option Recompiler := do
  let r' ← (r.handed start stop).foldlM (fun r rip ↦ r.invalidateBlock L rip) r
  return { r' with pageMap := fun page ↦
      if page ∈ pagesIn start stop then [] else r'.pageMap page }

/-- `host_pc_map.lower_bound`. -/
def lowerBound (key : ℕ) (map : List (ℕ × ℕ)) : Option (ℕ × ℕ) := map.find? (key ≤ ·.1)

/-- The block `invalidateAt` sets to zero, if it sets one to zero. -/
def zeroes (addressOfBlock : ℕ) : Option ℕ := do
  let (_, rip) ← lowerBound addressOfBlock r.hostPcMap
  let m := r.blockMetadata rip
  if m.address ≤ addressOfBlock ∧ addressOfBlock ≤ m.addressEnd then some rip else none

/-- `linked_block - 8`, the link itself. -/
def linkOf (linkedBlock : ℕ) : ℕ := u64 (linkedBlock + 2 ^ 64 - 8)

/-- `Recompiler::invalidateAt`, called by the thunk with the address behind the patched pair and,
if the patched block was entered through a link, the address behind the link. -/
def invalidateAt (addressOfBlock linkedBlock : ℕ) : Option Recompiler := do
  let (_, rip) ← lowerBound addressOfBlock r.hostPcMap
  let m := r.blockMetadata rip
  let r := if m.address ≤ addressOfBlock ∧ addressOfBlock ≤ m.addressEnd then
      r.modifyBlock rip fun m ↦ { m with address := 0 }
    else r
  let r := if L.addressCache then r.setCacheEntry m.guestAddress ⟨0, 0⟩ else r
  if linkedBlock = 0 then some r
  else
    let link := linkOf linkedBlock
    if L.startOfCodeCache ≤ link ∧ link < r.cursor then r.relink L m.guestAddress link else none

end Recompiler

end Felix86
