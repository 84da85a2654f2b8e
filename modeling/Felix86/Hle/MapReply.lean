import Felix86.Hle.Mapper
import Mathlib.Data.BitVec

/-!
# What a mapping request returns

`Mapper::map` returns an address or an error, and in the two modes the errors are different: in
32-bit mode the negated `errno` (or `-ENOMEM` if the freelist has no room), otherwise `MAP_FAILED`.
Its callers are modelled against a kernel that answers as it wants within what `mmap` documents:
`Lawful`. `map_inv` says all that can come back.
-/

namespace Felix86

open Freelist (Fault Reply)
open Dialogue

/-- The calls made so far, each with its answer. -/
abbrev History := List (SysCall × Answer)

/-- The documented behaviour of `mmap`: an `errno` is between 1 and 4095, a mapping at a chosen
address is there, and a mapping is not empty, page aligned and below the end of the address
space. -/
structure Lawful (host : History → SysCall → Answer) : Prop where
  errno : ∀ h call e, host h call = .failed e → 1 ≤ e ∧ e ≤ 4095
  fixed : ∀ h addr size prot flags fd offset r,
    host h (.mmap addr size prot flags fd offset) = .ok r →
      flags.fixed = true ∨ flags.fixedNoreplace = true → r = addr
  nonempty : ∀ h addr size prot flags fd offset r,
    host h (.mmap addr size prot flags fd offset) = .ok r → 0 < size
  aligned : ∀ h addr size prot flags fd offset r,
    host h (.mmap addr size prot flags fd offset) = .ok r → PageAligned r
  bounded : ∀ h addr size prot flags fd offset r,
    host h (.mmap addr size prot flags fd offset) = .ok r → r + size ≤ 2 ^ 56

/-- The code `-e` of an error. -/
def errorCode (e : ℕ) : BitVec 64 := BitVec.ofInt 64 (-e)

/-- A request that got no mapping: nothing it asked for was granted, and it returned an error code,
which is `-1` outside of 32-bit mode. -/
structure Refused (mode32 : Bool) (h : History) (v : BitVec 64) (h' : History) : Prop where
  asked : ∃ calls : List (SysCall × ℕ), h' = h ++ calls.map fun c ↦ (c.1, .failed c.2)
  code : ∃ e, 1 ≤ e ∧ e ≤ 4095 ∧ v = errorCode e ∧ (mode32 = false → e = 1)

/-- A request that got a mapping: the one call it made was granted, at the address it returns. -/
structure Granted (mode32 : Bool) (addr size prot : ℕ) (flags : MapFlags) (h : History)
    (v : BitVec 64) (h' : History) : Prop where
  asked : ∃ at' flags' fd offset,
    h' = h ++ [(.mmap at' (if mode32 then Mapper.roundUp size else size) prot flags' fd offset,
      .ok v.toNat)]
  fixed : flags.fixed = true ∨ flags.fixedNoreplace = true → v = BitVec.ofNat 64 addr
  nonempty : 0 < if mode32 then Mapper.roundUp size else size
  aligned : PageAligned v.toNat
  bounded : v.toNat + (if mode32 then Mapper.roundUp size else size) ≤ 2 ^ 56

/-! ## Telling them apart -/

section

variable {mode32 : Bool} {addr size prot : ℕ} {flags : MapFlags} {h h' : History} {v : BitVec 64}

theorem toNat_errorCode {e : ℕ} (hpos : 1 ≤ e) (hle : e ≤ 4095) :
    (errorCode e).toNat = 2 ^ 64 - e := by
  rw [errorCode, BitVec.toNat_ofInt]
  omega

theorem Refused.toNat_ge (hr : Refused mode32 h v h') : 2 ^ 64 - 4095 ≤ v.toNat := by
  obtain ⟨e, hpos, hle, rfl, -⟩ := hr.code
  rw [toNat_errorCode hpos hle]
  omega

/-- An error is negative as a signed number, -/
theorem Refused.toInt_neg (hr : Refused mode32 h v h') : v.toInt < 0 := by
  have hge := hr.toNat_ge
  rw [BitVec.toInt_eq_toNat_cond, if_neg (by omega)]
  omega

/-- and an address is not. -/
theorem Granted.toInt_nonneg (hg : Granted mode32 addr size prot flags h v h') : 0 ≤ v.toInt := by
  have hle := hg.bounded
  rw [BitVec.toInt_eq_toNat_cond, if_pos (by omega)]
  omega

/-- Outside of 32-bit mode the only error is `MAP_FAILED`, -/
theorem Refused.eq_mapFailed (hr : Refused false h v h') : v = Mapper.mapFailed := by
  obtain ⟨e, -, -, rfl, hone⟩ := hr.code
  rw [hone rfl]
  rfl

/-- and an address is not `MAP_FAILED` in either mode. -/
theorem Granted.ne_mapFailed (hg : Granted mode32 addr size prot flags h v h') :
    v ≠ Mapper.mapFailed := by
  rintro rfl
  have hle : (Mapper.mapFailed).toNat ≤ 2 ^ 56 := le_trans (Nat.le_add_right _ _) hg.bounded
  exact absurd hle (by decide)

end

namespace Mapper

section

variable {host : History → SysCall → Answer} {h h' : History} {m m' : Mapper} {v : BitVec 64}
  {addr size prot offset : ℕ} {flags : MapFlags} {fd : ℤ}

theorem granted_of_answer (mode32 : Bool) (hlaw : Lawful host) {at' r : ℕ} {flags' : MapFlags}
    (hanswer : host h (.mmap at' (if mode32 then roundUp size else size) prot flags' fd offset) =
      .ok r)
    (hfixed : flags.fixed = true ∨ flags.fixedNoreplace = true → flags' = flags ∧ at' = addr) :
    Granted mode32 addr size prot flags h (BitVec.ofNat 64 r)
      (h ++ [(.mmap at' (if mode32 then roundUp size else size) prot flags' fd offset,
          .ok r)]) := by
  have hbound := hlaw.bounded _ _ _ _ _ _ _ _ hanswer
  have hr : (BitVec.ofNat 64 r).toNat = r := by
    rw [BitVec.toNat_ofNat, Nat.mod_eq_of_lt (by omega)]
  refine ⟨⟨at', flags', fd, offset, by rw [hr]⟩, fun hflags ↦ ?_,
    hlaw.nonempty _ _ _ _ _ _ _ _ hanswer, ?_, ?_⟩
  · obtain ⟨rfl, rfl⟩ := hfixed hflags
    rw [hlaw.fixed _ _ _ _ _ _ _ _ hanswer hflags]
  · rw [hr]
    exact hlaw.aligned _ _ _ _ _ _ _ _ hanswer
  · rw [hr]
    exact hbound

theorem refused_of_answer (hlaw : Lawful host) {mode32 : Bool} {call : SysCall} {e : ℕ}
    (hanswer : host h call = .failed e) {code : ℕ} (hcode : mode32 = true → code = e)
    (hone : mode32 = false → code = 1) :
    Refused mode32 h (errorCode code) (h ++ [(call, .failed e)]) := by
  refine ⟨⟨[(call, e)], rfl⟩, code, ?_⟩
  cases mode32 with
  | true =>
    obtain rfl := hcode rfl
    have hrange := hlaw.errno _ _ _ hanswer
    exact ⟨hrange.1, hrange.2, rfl, fun hmode ↦ nomatch hmode⟩
  | false =>
    obtain rfl := hone rfl
    exact ⟨le_rfl, by decide, rfl, fun _ ↦ rfl⟩

/-- The freelist is not part of the dialogue. -/
theorem of_run_allocate {reply : Reply}
    (hrun : run (oracle host) h (m.allocate addr size) = (.ok (reply, m'), h')) :
    (∃ list', Freelist.allocate m.freelist (u32 addr) size = .ok (reply, list') ∧
      m' = { m with freelist := list' }) ∧ h' = h := by
  obtain ⟨⟨reply', list'⟩, h₁, hfirst, hlast⟩ := exists_of_run_bind hrun
  obtain ⟨heq, rfl⟩ := of_run_ofExcept hfirst
  simp only [run_pure, Prod.mk.injEq, Except.ok.injEq] at hlast
  obtain ⟨⟨rfl, rfl⟩, rfl⟩ := hlast
  exact ⟨⟨list', heq, rfl⟩, rfl⟩

theorem of_run_deallocate (hrun : run (oracle host) h (m.deallocate addr size) = (.ok m', h')) :
    (∃ list', Freelist.deallocate m.freelist (u32 addr) size = .ok list' ∧
      m' = { m with freelist := list' }) ∧ h' = h := by
  obtain ⟨list', h₁, hfirst, hlast⟩ := exists_of_run_bind hrun
  obtain ⟨heq, rfl⟩ := of_run_ofExcept hfirst
  simp only [run_pure, Prod.mk.injEq, Except.ok.injEq] at hlast
  obtain ⟨rfl, rfl⟩ := hlast
  exact ⟨⟨list', heq, rfl⟩, rfl⟩

theorem of_run_makeRoom {result : ℕ}
    (hrun : run (oracle host) h (m.makeRoom flags result size) = (.ok m', h')) : h' = h := by
  rw [makeRoom] at hrun
  split at hrun
  · obtain ⟨_, h₁, hassert, hrest⟩ := exists_of_run_bind hrun
    obtain ⟨-, rfl⟩ := of_run_require hassert
    exact (of_run_deallocate hrest).2
  · simp only [run_pure, Prod.mk.injEq] at hrun
    exact hrun.2.symm

theorem map32Fixed_inv (hlaw : Lawful host) {result : ℤ}
    (hrun : run (oracle host) h (m.map32Fixed addr (roundUp size) prot flags fd offset) =
      (.ok (result, m'), h')) :
    Refused true h (BitVec.ofInt 64 result) h' ∨
      Granted true addr size prot flags h (BitVec.ofInt 64 result) h' := by
  obtain ⟨_, h₁, hassert, hask⟩ := exists_of_run_bind hrun
  obtain ⟨-, rfl⟩ := of_run_require hassert
  rw [run_query_bind] at hask
  cases hanswer : host h₁ (.mmap addr (roundUp size) prot flags fd offset) with
  | failed e =>
    simp only [oracle, hanswer, run_pure, Prod.mk.injEq, Except.ok.injEq] at hask
    obtain ⟨⟨rfl, -⟩, rfl⟩ := hask
    exact .inl (refused_of_answer hlaw hanswer (fun _ ↦ rfl) fun hmode ↦ nomatch hmode)
  | ok r =>
    simp only [oracle, hanswer] at hask
    obtain ⟨m₁, h₂, hroom, htake⟩ := exists_of_run_bind hask
    obtain rfl := of_run_makeRoom hroom
    obtain ⟨⟨mapping, m₂⟩, h₃, halloc, hcheck⟩ := exists_of_run_bind htake
    obtain ⟨-, rfl⟩ := of_run_allocate halloc
    obtain ⟨_, h₄, hplace, hend⟩ := exists_of_run_bind hcheck
    obtain ⟨-, rfl⟩ := of_run_require hplace
    simp only [run_pure, Prod.mk.injEq, Except.ok.injEq] at hend
    obtain ⟨⟨rfl, -⟩, rfl⟩ := hend
    rw [BitVec.ofInt_natCast]
    exact .inr (granted_of_answer true hlaw hanswer fun _ ↦ ⟨rfl, rfl⟩)

theorem map32Anywhere_inv (hlaw : Lawful host)
    (hflags : ¬(flags.fixed = true ∨ flags.fixedNoreplace = true)) {result : ℤ}
    (hrun : run (oracle host) h (m.map32Anywhere (roundUp size) prot flags fd offset) =
      (.ok (result, m'), h')) :
    Refused true h (BitVec.ofInt 64 result) h' ∨
      Granted true addr size prot flags h (BitVec.ofInt 64 result) h' := by
  obtain ⟨⟨reply, m₁⟩, h₁, halloc, hrest⟩ := exists_of_run_bind hrun
  obtain ⟨-, rfl⟩ := of_run_allocate halloc
  cases reply with
  | enomem =>
    simp only [run_pure, Prod.mk.injEq, Except.ok.injEq] at hrest
    obtain ⟨⟨rfl, -⟩, rfl⟩ := hrest
    refine .inl ⟨⟨[], by simp⟩, 12, by decide, by decide, rfl, fun hmode ↦ nomatch hmode⟩
  | address address =>
    simp only [run_query_bind] at hrest
    cases hanswer : host h₁
        (.mmap address (roundUp size) prot { flags with fixedNoreplace := true } fd offset) with
    | failed e =>
      simp only [oracle, hanswer, run_pure, Prod.mk.injEq, Except.ok.injEq] at hrest
      obtain ⟨⟨rfl, -⟩, rfl⟩ := hrest
      exact .inl (refused_of_answer hlaw hanswer (fun _ ↦ rfl) fun hmode ↦ nomatch hmode)
    | ok r =>
      simp only [oracle, hanswer] at hrest
      obtain ⟨_, h₂, hplace, hend⟩ := exists_of_run_bind hrest
      obtain ⟨rfl, rfl⟩ := of_run_require hplace
      simp only [run_pure, Prod.mk.injEq, Except.ok.injEq] at hend
      obtain ⟨⟨rfl, -⟩, rfl⟩ := hend
      rw [BitVec.ofInt_natCast]
      exact .inr (granted_of_answer true hlaw hanswer fun hfixed ↦ absurd hfixed hflags)

/-- Everything a request can return. -/
theorem map_inv (hlaw : Lawful host) {mode32 : Bool}
    (hrun : run (oracle host) h (m.map mode32 addr size prot flags fd offset) =
      (.ok (v, m'), h')) :
    Refused mode32 h v h' ∨ Granted mode32 addr size prot flags h v h' := by
  cases mode32 with
  | true =>
    obtain ⟨⟨result, m₁⟩, h₁, hmap, hend⟩ := exists_of_run_bind hrun
    simp only [run_pure, Prod.mk.injEq, Except.ok.injEq] at hend
    obtain ⟨⟨rfl, -⟩, rfl⟩ := hend
    rw [map32] at hmap
    split at hmap
    · exact map32Fixed_inv hlaw hmap
    · next hflags => exact map32Anywhere_inv hlaw hflags hmap
  | false =>
    simp only [map, Bool.false_eq_true, if_false, run_query_bind] at hrun
    cases hanswer : host h (.mmap addr size prot flags fd offset) with
    | failed e =>
      simp only [oracle, hanswer, run_pure, Prod.mk.injEq, Except.ok.injEq] at hrun
      obtain ⟨⟨rfl, -⟩, rfl⟩ := hrun
      have hcode : mapFailed = errorCode 1 := by decide
      rw [hcode]
      exact .inl (refused_of_answer hlaw hanswer (fun hmode ↦ nomatch hmode) fun _ ↦ rfl)
    | ok r =>
      simp only [oracle, hanswer, run_pure, Prod.mk.injEq, Except.ok.injEq] at hrun
      obtain ⟨⟨rfl, -⟩, rfl⟩ := hrun
      exact .inr (granted_of_answer false hlaw hanswer fun _ ↦ ⟨rfl, rfl⟩)

/-- In 32-bit mode a request at a chosen address is for a low one. -/
theorem lt_of_run_map (hfixed : flags.fixed = true ∨ flags.fixedNoreplace = true)
    (hrun : run (oracle host) h (m.map true addr size prot flags fd offset) = (.ok (v, m'), h')) :
    addr < uint32Max := by
  obtain ⟨_, h₁, hmap, -⟩ := exists_of_run_bind hrun
  rw [map32, if_pos hfixed] at hmap
  obtain ⟨_, h₂, hassert, -⟩ := exists_of_run_bind hmap
  exact (of_run_require hassert).1

/-- The freelist takes a range back and gives it out again, as `map32` does with one that a fixed
mapping replaces. -/
def Replaces (list : List Freelist.Node) (addr size : ℕ) : Prop :=
  ∃ list₁ list₂, Freelist.deallocate list (u32 addr) size = .ok list₁ ∧
    Freelist.allocate list₁ (u32 addr) size = .ok (.address addr, list₂)

/-- A fixed mapping that is granted is returned, if the freelist follows. -/
theorem run_map_of_grant {mode32 : Bool} (hfixed : flags.fixed = true)
    (hanswer : host h (.mmap addr (if mode32 then roundUp size else size) prot flags fd offset) =
      .ok addr)
    (hlist : mode32 = true → addr < uint32Max ∧ Replaces m.freelist addr (roundUp size)) :
    ∃ m', run (oracle host) h (m.map mode32 addr size prot flags fd offset) =
      (.ok (BitVec.ofNat 64 addr, m'),
        h ++ [(.mmap addr (if mode32 then roundUp size else size) prot flags fd offset,
          .ok addr)]) := by
  cases mode32 with
  | false =>
    refine ⟨m, ?_⟩
    simp only [Bool.false_eq_true, if_false] at hanswer ⊢
    simp only [map, Bool.false_eq_true, if_false, run_query_bind, oracle, hanswer, run_pure]
  | true =>
    obtain ⟨hlt, list₁, list₂, hgive, htake⟩ := hlist rfl
    simp only [if_true] at hanswer ⊢
    set h' := h ++ [(SysCall.mmap addr (roundUp size) prot flags fd offset, Answer.ok addr)]
    have hroom : run (oracle host) h' (m.makeRoom flags addr (roundUp size)) =
        (.ok { m with freelist := list₁ }, h') := by
      rw [makeRoom, if_pos hfixed]
      refine (run_require_bind hlt _ _).trans ?_
      exact run_ofExcept_bind hgive _
    have halloc : run (oracle host) h'
        (allocate { m with freelist := list₁ } addr (roundUp size)) =
        (.ok (.address addr, { m with freelist := list₂ }), h') := run_ofExcept_bind htake _
    refine ⟨{ m with freelist := list₂ }, ?_⟩
    have hfix : run (oracle host) h (m.map32Fixed addr (roundUp size) prot flags fd offset) =
        (.ok ((addr : ℤ), { m with freelist := list₂ }), h') := by
      rw [map32Fixed]
      refine (run_require_bind hlt _ _).trans ?_
      rw [run_query_bind]
      simp only [oracle, hanswer]
      refine (run_bind_of_ok _ hroom).trans ((run_bind_of_ok _ halloc).trans ?_)
      exact run_require_bind (c := pointer (.address addr) = addr) rfl _ _
    have hmap : run (oracle host) h (m.map32 addr size prot flags fd offset) =
        (.ok ((addr : ℤ), { m with freelist := list₂ }), h') := by
      rw [map32, if_pos (.inl hfixed), hfix]
    refine (run_bind_of_ok _ hmap).trans ?_
    simp only [run_pure, BitVec.ofInt_natCast]

end

end Mapper

end Felix86
