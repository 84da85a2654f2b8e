import Felix86.Hle.MapFailure

/-!
# The stack of the guest

`Threads::AllocateStack` reserves an area without access, of the size that the hard limit allows,
and maps the end of it, of the size of the soft limit. Both sizes come from the environment, and an
unlimited hard limit counts as 16 MiB. A soft limit above that is mapped over what is below the
area.

In 32-bit mode the reservation can fail without being noticed. What is then taken for the base is at
no page boundary, and so is the stack unless its own size is odd by just as much.
`allocateStack_iff` says for which limits a stack that is returned is as it should be.
-/

namespace Felix86

namespace GuestStack

open Dialogue Mapper Brk MapFailure

/-! ## What the stack should be -/

/-- The addresses that a call mapped. -/
def Maps (entry : SysCall × Answer) (start stop : ℕ) : Prop :=
  match entry with
  | (.mmap _ size _ _ _ _, .ok r) => start = r ∧ stop = r + size
  | _ => False

/-- The calls leave an area below the stack pointer of which the end can be used. -/
structure Right (calls : History) (l : Limits) (stackPointer maxStackSize : BitVec 64) : Prop where
  /-- The stack does not go below the area, nor the area below zero. -/
  ordered : l.stackSize.toNat ≤ maxStackSize.toNat ∧ maxStackSize.toNat ≤ stackPointer.toNat
  aligned : PageAligned stackPointer.toNat ∧ PageAligned (stackPointer.toNat - l.stackSize.toNat)
  reserved : ∃ entry ∈ calls,
    Maps entry (stackPointer.toNat - maxStackSize.toNat) stackPointer.toNat
  usable : ∀ page, stackPointer.toNat - l.stackSize.toNat ≤ page * 0x1000 →
    page * 0x1000 < stackPointer.toNat → accessOf calls page = some protRw
  /-- Nothing is mapped outside of the area. -/
  inside : ∀ entry ∈ calls, ∀ start stop, Maps entry start stop →
    stackPointer.toNat - maxStackSize.toNat ≤ start ∧ stop ≤ stackPointer.toNat

/-- The soft limit is a number of pages and not above the size of the area. -/
def Fits (l : Limits) : Prop :=
  PageAligned l.stackSize.toNat ∧ l.stackSize.toNat ≤ l.maxStackSize.toNat

instance (l : Limits) : Decidable (Fits l) := inferInstanceAs (Decidable (_ ∧ _))

/-! ## The area -/

section

variable {host : History → SysCall → Answer} {h h' : History} {m m' : Mapper} {gMode32 : Bool}
  {l : Limits} {v hint size stackPointer maxStackSize : BitVec 64} {attempts : ℕ}

/-- Calls that were all refused. -/
def refusals (calls : List (SysCall × ℕ)) : History := calls.map fun c ↦ (c.1, .failed c.2)

/-- One attempt makes the reservation, or is refused with an error. -/
theorem judge_stackReserve (hlaw : Lawful host) {r : Option (BitVec 64)}
    (hrun : run (oracle host) h ((Site.stackReserve hint size).judge gMode32 m) =
      (.ok (r, m'), h')) :
    (∃ v, r = some v ∧ (Site.stackReserve hint size).Got gMode32 h v h') ∨
      ∃ calls, h' = h ++ refusals calls ∧
        ∀ v, r = some v → ∃ e, 1 ≤ e ∧ e ≤ 4095 ∧ v = errorCode e := by
  obtain ⟨⟨v, m₁⟩, h₁, hrequest, hend⟩ := exists_of_run_bind hrun
  simp only [run_pure, Prod.mk.injEq, Except.ok.injEq] at hend
  obtain ⟨⟨rfl, -⟩, rfl⟩ := hend
  obtain hr | hg := map_inv hlaw hrequest
  · right
    obtain ⟨calls, hcalls⟩ := hr.asked
    refine ⟨calls, hcalls, fun w hw ↦ ?_⟩
    obtain ⟨e, hpos, hle, hv, -⟩ := hr.code
    split at hw
    · exact ⟨e, hpos, hle, (Option.some_injective _ hw).symm.trans hv⟩
    · cases hw
  · left
    have haccepts : (Site.stackReserve hint size).accepts gMode32 v = true := by
      simpa [Site.accepts] using hg.ne_mapFailed
    exact ⟨v, if_pos haccepts, hg⟩

/-- A reservation that is gone on with was made, or failed with an error that is not noticed. -/
theorem reserveStack_inv (hlaw : Lawful host)
    (hrun : run (oracle host) h (reserveStack gMode32 size attempts hint m) = (.ok (v, m'), h')) :
    ∃ calls, (∃ hint', (Site.stackReserve hint' size).Got gMode32 (h ++ refusals calls) v h') ∨
      h' = h ++ refusals calls ∧ ∃ e, 1 ≤ e ∧ e ≤ 4095 ∧ v = errorCode e := by
  induction attempts generalizing h hint m with
  | zero =>
    rw [reserveStack] at hrun
    obtain ⟨⟨r, m₁⟩, h₁, hjudge, hrest⟩ := exists_of_run_bind hrun
    cases r with
    | none =>
      have herror : Except.error _ = Except.ok (v, m') := congrArg Prod.fst hrest
      cases herror
    | some base =>
      simp only [run_pure, Prod.mk.injEq, Except.ok.injEq] at hrest
      obtain ⟨⟨rfl, -⟩, rfl⟩ := hrest
      obtain ⟨v, hv, hgot⟩ | ⟨calls, hcalls, herror⟩ := judge_stackReserve hlaw hjudge
      · cases hv
        exact ⟨[], .inl ⟨hint, by simpa [refusals] using hgot⟩⟩
      · exact ⟨calls, .inr ⟨hcalls, herror _ rfl⟩⟩
  | succ attempts ih =>
    rw [reserveStack] at hrun
    obtain ⟨⟨r, m₁⟩, h₁, hjudge, hrest⟩ := exists_of_run_bind hrun
    obtain ⟨v', hv, hgot⟩ | ⟨calls, hcalls, herror⟩ := judge_stackReserve hlaw hjudge
    · subst hv
      simp only [run_pure, Prod.mk.injEq, Except.ok.injEq] at hrest
      obtain ⟨⟨rfl, -⟩, rfl⟩ := hrest
      exact ⟨[], .inl ⟨hint, by simpa [refusals] using hgot⟩⟩
    · cases r with
      | some base =>
        simp only [run_pure, Prod.mk.injEq, Except.ok.injEq] at hrest
        obtain ⟨⟨rfl, -⟩, rfl⟩ := hrest
        exact ⟨calls, .inr ⟨hcalls, herror _ rfl⟩⟩
      | none =>
        obtain ⟨calls', hcases⟩ := ih hrest
        refine ⟨calls ++ calls', ?_⟩
        simpa [hcalls, refusals] using hcases

/-- The end of the area is mapped where it was asked for. -/
theorem allocateStack_inv (hlaw : Lawful host) {limits : Option Limits}
    (hrun : run (oracle host) h (allocateStack gMode32 limits m) =
      (.ok ((stackPointer, maxStackSize), m'), h')) :
    ∃ l base calls h₁, limits = some l ∧ maxStackSize = l.maxStackSize ∧
      stackPointer = base + maxStackSize ∧
      (Site.stackCommit (stackPointer - l.stackSize) l.stackSize).Got gMode32 h₁
        (stackPointer - l.stackSize) h' ∧
      ((∃ hint, (Site.stackReserve hint maxStackSize).Got gMode32 (h ++ refusals calls) base h₁) ∨
        h₁ = h ++ refusals calls ∧ ∃ e, 1 ≤ e ∧ e ≤ 4095 ∧ base = errorCode e) := by
  cases limits with
  | none => exact nomatch congrArg Prod.fst (hrun : (Except.error _, h) = _)
  | some l =>
    obtain ⟨⟨base, m₁⟩, h₁, hreserve, hrest⟩ := exists_of_run_bind hrun
    obtain ⟨⟨r, m₂⟩, h₂, hjudge, hend⟩ := exists_of_run_bind hrest
    obtain ⟨calls, hcases⟩ := reserveStack_inv hlaw hreserve
    cases r with
    | none => exact nomatch congrArg Prod.fst (hend : (Except.error _, h₂) = _)
    | some committed =>
      simp only [run_pure, Prod.mk.injEq, Except.ok.injEq] at hend
      obtain ⟨⟨⟨rfl, rfl⟩, -⟩, rfl⟩ := hend
      have hgot := Site.got_of_judge (s := .stackCommit _ _) hlaw trivial hjudge
        (by simp [Site.Misjudged, Site.TestsPositive, Site.TestsMapFailed])
      have hplace : committed = base + l.maxStackSize - l.stackSize := by
        rw [hgot.fixed (.inl rfl), BitVec.ofNat_toNat, BitVec.setWidth_eq]
        rfl
      subst hplace
      refine ⟨l, base, calls, h₁, rfl, rfl, BitVec.sub_add_cancel _ _, ?_, hcases⟩
      rw [BitVec.add_sub_cancel]
      exact hgot

end

section

variable {host : History → SysCall → Answer} {h h' : History} {m m' : Mapper} {gMode32 : Bool}
  {l : Limits} {v base size stackPointer maxStackSize : BitVec 64}

theorem pageAligned_maxStackSize (l : Limits) : PageAligned l.maxStackSize.toNat := by
  rw [Limits.maxStackSize]
  generalize (if l.rlimMax = rlimInfinity then (16 * 1024 * 1024 : BitVec 64) else l.rlimMax) = x
  have hlow : (x &&& ~~~0xFFF#64) &&& 0xFFF#64 = 0 := by
    rw [BitVec.and_assoc]
    have hmask : ~~~0xFFF#64 &&& 0xFFF#64 = 0 := by decide
    rw [hmask]
    exact BitVec.and_zero
  have hmod := congrArg BitVec.toNat hlow
  rw [BitVec.toNat_and] at hmod
  have hand := Nat.and_two_pow_sub_one_eq_mod (x &&& ~~~0xFFF#64).toNat 12
  exact hand.symm.trans hmod

/-- The call of a mapping whose size is a number of pages. -/
theorem entry_of_granted {addr prot : ℕ} {flags : MapFlags}
    (hg : Granted gMode32 addr size.toNat prot flags h v h') (hsize : PageAligned size.toNat) :
    ∃ entry, h' = h ++ [entry] ∧ access entry.1 = prot ∧
      (∀ page, Covers entry page ↔
        v.toNat ≤ page * 0x1000 ∧ page * 0x1000 < v.toNat + size.toNat) ∧
      ∀ start stop, Maps entry start stop ↔ start = v.toNat ∧ stop = v.toNat + size.toNat := by
  have hround : (if gMode32 then roundUp size.toNat else size.toNat) = size.toNat := by
    have hlt := size.isLt
    unfold PageAligned at hsize
    cases gMode32 with
    | false => rfl
    | true =>
      rw [if_pos rfl, roundUp, u64]
      omega
  obtain ⟨at', flags', fd, offset, hentry⟩ := hg.asked
  rw [hround] at hentry
  exact ⟨_, hentry, rfl, fun page ↦ Iff.rfl, fun start stop ↦ Iff.rfl⟩

/-- An error that is taken for an address is at no page boundary. -/
theorem not_pageAligned_error {e : ℕ} (hpos : 1 ≤ e) (hle : e ≤ 4095) (hfits : Fits l) :
    ¬ PageAligned (errorCode e + l.maxStackSize - l.stackSize).toNat := by
  have hmax := pageAligned_maxStackSize l
  have hstack := hfits.1
  have hltmax := l.maxStackSize.isLt
  have hltstack := l.stackSize.isLt
  unfold PageAligned at hmax hstack ⊢
  rw [BitVec.toNat_sub, BitVec.toNat_add, toNat_errorCode hpos hle]
  omega

/-- For limits that fit, what is returned is the end of an area that was reserved. -/
theorem right_of_fits (hfits : Fits l) {addr addr' prot : ℕ} {flags flags' : MapFlags}
    {calls : List (SysCall × ℕ)} {h₁ : History}
    (hreserve : Granted gMode32 addr l.maxStackSize.toNat prot flags (h ++ refusals calls) base h₁)
    (hcommit : Granted gMode32 addr' l.stackSize.toNat protRw flags' h₁
      (base + l.maxStackSize - l.stackSize) h') :
    Right (h'.drop h.length) l (base + l.maxStackSize) l.maxStackSize := by
  have hbound := size_le_of_granted hreserve
  have hmax := pageAligned_maxStackSize l
  have hbase := hreserve.aligned
  obtain ⟨hstack, hle⟩ := hfits
  obtain ⟨entry₁, rfl, -, -, hmaps₁⟩ := entry_of_granted hreserve hmax
  obtain ⟨entry₂, rfl, haccess, hcovers, hmaps₂⟩ := entry_of_granted hcommit hstack
  have hpointer : (base + l.maxStackSize).toNat = base.toNat + l.maxStackSize.toNat :=
    BitVec.toNat_add_of_lt (lt_of_le_of_lt hbound (by decide))
  have hbottom : (base + l.maxStackSize - l.stackSize).toNat =
      base.toNat + l.maxStackSize.toNat - l.stackSize.toNat := by
    rw [BitVec.toNat_sub_of_le (BitVec.le_def.mpr (by omega)), hpointer]
  have hcalls : (h ++ refusals calls ++ [entry₁] ++ [entry₂]).drop h.length =
      refusals calls ++ [entry₁] ++ [entry₂] := by
    rw [List.append_assoc, List.append_assoc, List.drop_left, List.append_assoc]
  rw [hbottom] at hcovers hmaps₂
  rw [hcalls]
  refine ⟨⟨hle, by omega⟩, ?_, ⟨entry₁, by simp, ?_⟩, fun page hlow hhigh ↦ ?_, ?_⟩
  · unfold PageAligned at *
    omega
  · rw [hmaps₁]
    omega
  · rw [accessOf_append, if_pos ((hcovers page).mpr (by omega)), haccess]
  · intro entry hentry start stop hmaps
    rw [List.mem_append, List.mem_append, List.mem_singleton, List.mem_singleton] at hentry
    obtain (hentry | rfl) | rfl := hentry
    · obtain ⟨c, -, rfl⟩ := List.mem_map.mp hentry
      obtain ⟨call, e⟩ := c
      cases call <;> exact hmaps.elim
    · rw [hmaps₁] at hmaps
      omega
    · rw [hmaps₂] at hmaps
      omega

/-- A stack that is returned is right if and only if the limits fit. -/
theorem allocateStack_iff (hlaw : Lawful host) {limits : Option Limits}
    (hrun : run (oracle host) h (allocateStack gMode32 limits m) =
      (.ok ((stackPointer, maxStackSize), m'), h')) :
    ∃ l, limits = some l ∧
      (Right (h'.drop h.length) l stackPointer maxStackSize ↔ Fits l) := by
  obtain ⟨l, base, calls, h₁, rfl, rfl, rfl, hcommit, hreserve⟩ := allocateStack_inv hlaw hrun
  refine ⟨l, rfl, fun hright ↦ ?_, fun hfits ↦ ?_⟩
  · obtain ⟨⟨hle, hle'⟩, hpointer, hbottom⟩ := And.intro hright.ordered hright.aligned
    refine ⟨?_, hle⟩
    unfold PageAligned at *
    omega
  · obtain ⟨hint, hgot⟩ | ⟨-, e, hpos, hle, rfl⟩ := hreserve
    · exact right_of_fits hfits hgot hcommit
    · exact absurd hcommit.aligned (not_pageAligned_error hpos hle hfits)

/-- The calls that the usual limits of a 64-bit process lead to. -/
def usualCalls : History :=
  [(.mmap 0x2AFEFFF000 0x1000000 0 ⟨false, true, 0x4122⟩ (-1) 0, .ok 0x2AFEFFF000),
    (.mmap 0x2AFF7FF000 0x800000 3 ⟨true, false, 0x122⟩ (-1) 0, .ok 0x2AFF7FF000)]

theorem allocateStack_iff_usual :
    Right usualCalls ⟨0x800000, rlimInfinity⟩ 0x2AFFFFF000 0x1000000 := by
  have hrun : run (oracle generous) [] (allocateStack false (some ⟨0x800000, rlimInfinity⟩)
      plainMapper) = (.ok ((0x2AFFFFF000, 0x1000000), plainMapper), usualCalls) := by
    rw [allocateStack]
    simp only
    rw [reserveStack]
    rfl
  obtain ⟨l, hl, hiff⟩ := allocateStack_iff lawful_generous hrun
  cases hl
  exact hiff.mpr (by decide)

/-- Everything from `vm.mmap_min_addr` on is free. -/
def emptyMapper : Mapper := ⟨[⟨0x10000, 0xFFFFFFFF⟩], fun _ ↦ none⟩

/-- A soft limit of 64 MiB is mapped from 48 MiB below the area on. In 32-bit mode, where the first
place is taken, a soft limit of 17 bytes less than 8 MiB leads to a stack in no area at all. -/
theorem not_right :
    (∃ h', run (oracle generous) [] (allocateStack false (some ⟨0x4000000, rlimInfinity⟩)
        plainMapper) = (.ok ((0x2AFFFFF000, 0x1000000), plainMapper), h') ∧
      ¬ Right h' ⟨0x4000000, rlimInfinity⟩ 0x2AFFFFF000 0x1000000) ∧
    ∃ m' h', run (oracle crowded) [] (allocateStack true (some ⟨0x7FFFEF, rlimInfinity⟩)
        emptyMapper) = (.ok ((0xFFFFEF, 0x1000000), m'), h') ∧
      ¬ Right h' ⟨0x7FFFEF, rlimInfinity⟩ 0xFFFFEF 0x1000000 := by
  refine ⟨⟨[(.mmap 0x2AFEFFF000 0x1000000 0 ⟨false, true, 0x4122⟩ (-1) 0, .ok 0x2AFEFFF000),
      (.mmap 0x2AFBFFF000 0x4000000 3 ⟨true, false, 0x122⟩ (-1) 0, .ok 0x2AFBFFF000)],
      ?_, fun hright ↦ absurd hright.ordered.1 (by decide)⟩,
    ⟨[⟨0x10000, 0x7FFFFF⟩, ⟨0x1000000, 0xFFFFFFFF⟩], fun _ ↦ none⟩,
    [(.mmap 0xBEFFF000 0x1000000 0 ⟨false, true, 0x4122⟩ (-1) 0, .failed 17),
      (.mmap 0x800000 0x800000 3 ⟨true, false, 0x122⟩ (-1) 0, .ok 0x800000)],
      ?_, fun hright ↦ absurd hright.aligned.1 (by decide)⟩
  · rw [allocateStack]
    simp only
    rw [reserveStack]
    rfl
  · rw [allocateStack]
    simp only
    rw [reserveStack]
    rfl

end

end GuestStack

end Felix86
