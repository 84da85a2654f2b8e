import Felix86.V2.FastPaths
import Felix86.V2.Instruction

/-!
# Registers in 32-bit mode

In 32-bit mode `getGPR` returns the host register as it is for a 32-bit operand, so the upper half
of every guest register has to be zero at each instruction boundary. Each handler keeps it so, given
what the decoder produces in 32-bit mode. Two functions that work on `ThreadState` do not: the
result of `felix86_syscall32` goes to `RAX` with its sign, and `felix86_iret` adds to `RSP` in 64
bits.
-/

namespace Felix86

namespace Jit

open Riscv

variable {ρ : Type*}

/-! ## Writes of registers -/

theorem low32_of_le {v : U64} {n : ℕ} (h : v.toNat < 2 ^ n) (hn : n ≤ 32) : Low32 v :=
  low32_iff.mpr (lt_of_lt_of_le h (Nat.pow_le_pow_right (by decide) hn))

theorem low32_load (m : Mem) (a : U64) {n : ℕ} (hn : n ≤ 4) : Low32 (m.load a n) :=
  low32_of_le (m.load_lt a (by omega)) (by omega)

theorem low32_setWidth {n : ℕ} (v : BitVec n) (hn : n ≤ 32) : Low32 (v.setWidth 64) := by
  refine low32_of_le ?_ hn
  rw [BitVec.toNat_setWidth]
  exact lt_of_le_of_lt (Nat.mod_le _ _) v.isLt

theorem low32_or {v w : U64} (hv : Low32 v) (hw : Low32 w) : Low32 (v ||| w) := by
  rw [low32_iff] at *
  rw [BitVec.toNat_or]
  exact Nat.or_lt_two_pow hv hw

theorem bytes_le_of_ne {size : Size} (h : size ≠ .qword) : size.bytes ≤ 4 := by
  cases size with
  | qword => exact absurd rfl h
  | _ => decide

namespace Config

variable (k : Config)

theorem low32_zext {size : Size} (hsize : size ≠ .qword) (v : U64) : Low32 (k.zext size v) := by
  refine low32_of_le ?_ (bits_le_of_ne hsize)
  rw [toNat_zext]
  exact Nat.mod_lt _ (Nat.two_pow_pos _)

theorem low32_merge_dword (old v : U64) : Low32 (k.merge .dword old v) := by
  rw [low32_iff, toNat_merge_dword]
  exact Nat.mod_lt _ (by decide)

theorem low32_merge {size : Size} (hsize : size ≠ .qword) {old : U64} (hold : Low32 old) (v : U64) :
    Low32 (k.merge size old v) := by
  have hlow := low32_iff.mp hold
  cases size with
  | dword => exact k.low32_merge_dword old v
  | qword => exact absurd rfl hsize
  | byte =>
    rw [low32_iff, toNat_merge_byte]
    omega
  | byteHigh =>
    rw [low32_iff, toNat_merge_byteHigh]
    omega
  | word =>
    rw [low32_iff, toNat_merge_word]
    omega

end Config

/-- All guest registers but those in `d` have a zero upper half. Between the host instructions of a
handler some of them may be anything. -/
def ZextBut (d : Set Ref) (c : Core ρ) : Prop := ∀ r ∉ d, Low32 (c.gpr r)

theorem Zext.but {c : Core ρ} (h : Zext c) : ZextBut ∅ c := fun r _ ↦ h r

theorem ZextBut.zext {c : Core ρ} (h : ZextBut ∅ c) : Zext c := fun r ↦ h r (Set.notMem_empty r)

/-- A write of any value makes one more register unknown. -/
theorem ZextBut.write {d : Set Ref} {c : Core ρ} (h : ZextBut d c) (r : Ref) (v : U64) :
    ZextBut (insert r d) (c.write r v) := by
  intro r' hr'
  rw [Set.mem_insert_iff, not_or] at hr'
  simp only [Core.write, Function.update_of_ne hr'.1]
  exact h r' hr'.2

/-- A 32-bit write makes a register known again. -/
theorem ZextBut.setRef_dword {d : Set Ref} {c : Core ρ} {r : Ref} (h : ZextBut (insert r d) c)
    (k : Config) (v : U64) : ZextBut d (k.setRef r .dword v c) := by
  intro r' hr'
  by_cases hr : r' = r
  · subst hr
    simp only [Config.setRef, Core.write, Function.update_self]
    exact k.low32_merge_dword _ _
  · simp only [Config.setRef, Core.write, Function.update_of_ne hr]
    exact h r' (by simp [hr, hr'])

theorem ZextBut.mono {d d' : Set Ref} {c : Core ρ} (h : ZextBut d c) (hd : d ⊆ d') : ZextBut d' c :=
  fun r hr ↦ h r fun hmem ↦ hr (hd hmem)

theorem ZextBut.put_hostRef {d : Set Ref} {c c' : Core ρ} (h : ZextBut d c) (k : Config) (r : Ref)
    (size : Size) (v : U64) : ZextBut (insert r d) ((k.hostRef r size c').put v c).2 := by
  have hscratch (w : U64) : ZextBut (insert r d) ((Host.scratch w).put v c).2 :=
    h.mono (Set.subset_insert r d)
  unfold Config.hostRef
  split
  · split
    · exact h.write r v
    · exact hscratch _
  · exact h.write r v
  · exact hscratch _

namespace Zext

variable {c : Core ρ} (h : Zext c) (k : Config) (i : Insn)
include h

theorem write (r : Ref) {v : U64} (hv : Low32 v) : Zext (c.write r v) := by
  intro r'
  by_cases hr : r' = r
  · subst hr
    simpa only [Core.write, Function.update_self] using hv
  · simpa only [Core.write, Function.update_of_ne hr] using h r'

theorem setRef (r : Ref) {size : Size} (hsize : size ≠ .qword) (v : U64) :
    Zext (k.setRef r size v c) :=
  h.write r (k.low32_merge hsize (h r) v)

/-- `setGPR` of an operand that is not a 64-bit register. -/
theorem set {op : Operand} (hop : ∀ r, op ≠ .reg r .qword) (v : U64) : Zext (k.set i op v c) := by
  cases op with
  | reg r size =>
    refine h.setRef k r ?_ v
    rintro rfl
    exact hop r rfl
  | mem m size => exact h
  | imm v size => exact h
  | seg s => exact h

/-- A register whose 32-bit value is written after any other value. -/
theorem write_setRef (r : Ref) (v w : U64) : Zext (k.setRef r .dword w (c.write r v)) :=
  ((h.but.write r v).setRef_dword k w).zext

theorem addRsp (hmode : k.mode32) (v : U64) : Zext (addRsp k v c) := by
  simp only [Jit.addRsp, Config.stackWidth, hmode, if_true]
  exact h.write_setRef k rsp _ _

end Zext

/-! ## Handlers of registers and memory -/

section CoreHandlers

variable (k : Config) (i : Insn) {c : Core ρ} (h : Zext c)
include h

theorem zext_amo (op : U64 → U64 → U64) (size : Size) (a src : U64) :
    Zext (amo op size a src c).2 :=
  h

theorem zext_lrsc (op : U64 → U64 → U64) (ones a shifted : U64) :
    Zext (lrsc op ones a shifted c).2 :=
  h

theorem zext_writeMemory (a v : U64) (size : Size) : Zext (Config.writeMemory a v size c) := h

theorem zext_jcc (cond : U64) : Zext (jcc k i cond c) := h

theorem zext_divDword (quotient remainder : U64 → U64 → U64) (ext : Option (U64 → U64)) :
    Zext (divDword k i quotient remainder ext c) := by
  simp only [divDword]
  refine (ZextBut.setRef_dword ?_ k _).zext
  refine ZextBut.setRef_dword ?_ k _
  have hrdx := (h.but.write rdx (c.gpr rdx <<< 32)).write rdx
    ((c.write rdx (c.gpr rdx <<< 32)).gpr rdx |||
      (k.hostRef rax .dword c).val (c.write rdx (c.gpr rdx <<< 32)))
  refine ((hrdx.put_hostRef k rax .dword _).write rdx _).mono ?_
  intro r hr
  simp only [Set.mem_insert_iff, Set.mem_empty_iff_false] at hr ⊢
  tauto

theorem zext_divCore (hsize : i.op0.size ≠ .qword) {c' : Core ρ} (hc : divCore k i c = some c') :
    Zext c' := by
  have hb : Size.byte ≠ .qword := by decide
  have hh : Size.byteHigh ≠ .qword := by decide
  have hw : Size.word ≠ .qword := by decide
  simp only [divCore] at hc
  split at hc
  · obtain rfl := Option.some.inj hc
    exact (h.setRef k rax hb _).setRef k rax hh _
  · obtain rfl := Option.some.inj hc
    exact (h.setRef k rax hb _).setRef k rax hh _
  · obtain rfl := Option.some.inj hc
    exact (h.setRef k rax hw _).setRef k rdx hw _
  · obtain rfl := Option.some.inj hc
    exact zext_divDword k i h _ _ _
  · next hq => exact absurd hq hsize

theorem zext_idivCore (hsize : i.op0.size ≠ .qword) {c' : Core ρ} (hc : idivCore k i c = some c') :
    Zext c' := by
  have hb : Size.byte ≠ .qword := by decide
  have hh : Size.byteHigh ≠ .qword := by decide
  have hw : Size.word ≠ .qword := by decide
  simp only [idivCore] at hc
  split at hc
  · obtain rfl := Option.some.inj hc
    exact (h.setRef k rax hb _).setRef k rax hh _
  · obtain rfl := Option.some.inj hc
    exact (h.setRef k rax hb _).setRef k rax hh _
  · obtain rfl := Option.some.inj hc
    exact (h.setRef k rax hw _).setRef k rdx hw _
  · obtain rfl := Option.some.inj hc
    exact zext_divDword k i h _ _ _
  · next hq => exact absurd hq hsize

/-! ### Handlers that write fixed registers -/

theorem zext_fastLea (hop : ∀ r, i.op0 ≠ .reg r .qword) : Zext (fastLea k i c) := by
  unfold fastLea
  split
  · exact h.set k i hop _
  · exact h

theorem zext_fastPush (hmode : k.mode32) : Zext (fastPush k i c) :=
  (zext_writeMemory h _ _ _).addRsp k hmode _

theorem zext_fastJmp : Zext (fastJmp k i c) := by
  unfold fastJmp
  split <;> exact h

theorem zext_strings (ha : i.addressWidth ≠ .qword) (m : Mem) (a b d : U64) :
    Zext (k.setRef rcx i.addressWidth a (k.setRef rsi i.addressWidth b
      (k.setRef rdi i.addressWidth d { c with mem := m }))) := by
  have hmem : Zext { c with mem := m } := h
  exact ((hmem.setRef k rdi ha d).setRef k rsi ha b).setRef k rcx ha a

theorem zext_fastMovs (ha : i.addressWidth ≠ .qword) : Zext (fastMovs k i c) :=
  zext_strings k i h ha _ _ _ _

theorem zext_fastStos (ha : i.addressWidth ≠ .qword) : Zext (fastStos k i c) := by
  have hmem (m : Mem) : Zext { c with mem := m } := h
  exact ((hmem _).setRef k rdi ha _).setRef k rcx ha _

theorem zext_fastLods (ha : i.addressWidth ≠ .qword) (hw : i.width ≠ .qword) :
    Zext (fastLods k i c) :=
  (h.setRef k rax hw _).setRef k rsi ha _

theorem zext_fastRdtsc (time : U64) : Zext (fastRdtsc k time c) := by
  have htime : Low32 (time >>> 32) := by
    have hlt := time.isLt
    rw [low32_iff, toNat_shr]
    omega
  exact (h.setRef k rax (by decide) time).write rdx htime

theorem zext_fastXgetbv : Zext (fastXgetbv k c) :=
  (h.write rax (show Low32 0b11 by decide)).write rdx (show Low32 0 by decide)

theorem zext_felix86Cpuid (eax ebx ecx edx : Core ρ → BitVec 32) :
    Zext (felix86Cpuid eax ebx ecx edx c) := by
  have hreg (v : BitVec 32) : Low32 (v.setWidth 64) := low32_setWidth v (by decide)
  exact (((h.write rax (hreg _)).write rbx (hreg _)).write rcx (hreg _)).write rdx (hreg _)

theorem zext_felix86Syscall32 {result : Core ρ → U64} (hresult : Low32 (result c))
    {child : Core ρ → Bool} {world : Core ρ → Core ρ} :
    Zext (felix86Syscall32 result child world c) := by
  unfold felix86Syscall32
  simp only
  split
  · exact (h.write rsp (h rcx)).write rax hresult
  · exact h.write rax hresult

theorem zext_felix86Iret (hrsp : (c.gpr rsp).toNat + 12 < 2 ^ 32) : Zext (felix86Iret c) := by
  have hlow : Low32 (c.gpr rsp + 12) := by
    rw [low32_iff, BitVec.toNat_add]
    exact lt_of_le_of_lt (Nat.mod_le _ _) hrsp
  exact h.write rsp hlow

/-! ### Moves and exchanges -/

variable (hop : ∀ r, i.op0 ≠ .reg r .qword)
include hop

theorem zext_movCore : Zext (movCore k i c) := by
  unfold movCore
  split
  · split
    · exact h
    · exact h
  · next op _ _ _ _ => 
    split
    · exact h.set k i (fun r hr ↦ hop r (by simp_all)) _
    · exact h
  · next r size r' size' h0 h1 =>
    have hsize : size ≠ .qword := fun hq ↦ hop r (by rw [h0, hq])
    split <;> exact h.setRef k r hsize _
  · exact h
  · next r m _ h0 h1 => exact h.write r (low32_load _ _ (by decide))
  · next r m _ h0 h1 => exact absurd h0 (hop r)
  · exact h.set k i (by simp_all) _

omit hop in
theorem zext_fastMovzx (hsrc : i.op1.size ≠ .qword) : Zext (fastMovzx k i c) := by
  unfold fastMovzx
  split
  · next r size _ =>
    have hwrite (v : U64) (hv : Low32 v) : Zext
        (if size = .word then c.write r (((c.gpr r >>> 16) <<< 16) ||| v) else c.write r v) := by
      split
      · refine h.write r (low32_or ?_ hv)
        have hlow := low32_iff.mp (h r)
        rw [low32_iff, toNat_shl, toNat_shr]
        omega
      · exact h.write r hv
    refine hwrite _ ?_
    split
    · exact k.low32_zext (show Size.byte ≠ .qword by decide) _
    · next r' size' _ hr' => exact k.low32_zext (by rwa [hr'] at hsrc) _
    · next m size' hm =>
      rw [hm] at hsrc
      exact low32_load _ _ (bytes_le_of_ne hsrc)
    · decide
  · exact h

omit hop in
theorem zext_xchgLock (hop' : ∀ r, i.op1 ≠ .reg r .qword) (m : MemOperand) (size : Size) :
    Zext (xchgLock k i m size c) := by
  have hwhole (op : U64 → U64 → U64) (size : Size) (a src : U64) :
      Zext (k.set i i.op1 (amo op size a src c).1 (amo op size a src c).2) :=
    (zext_amo h op size a src).set k i hop' _
  have hpart (op : U64 → U64 → U64) (ones a src : U64) (v : U64 → U64) :
      Zext (k.set i i.op1 (v (lrsc op ones a src c).1) (lrsc op ones a src c).2) :=
    (zext_lrsc h op ones a src).set k i hop' _
  cases size with
  | byte =>
    simp only [xchgLock]
    split
    · exact hwhole _ _ _ _
    · exact hpart _ _ _ _ fun old ↦ srlw old (k.lea i m true c <<< 3)
  | byteHigh =>
    simp only [xchgLock]
    split
    · exact hwhole _ _ _ _
    · exact hpart _ _ _ _ fun old ↦ srlw old (k.lea i m true c <<< 3)
  | word =>
    simp only [xchgLock]
    split
    · exact hwhole _ _ _ _
    · split
      · exact (zext_writeMemory h _ _ _).set k i hop' _
      · exact hpart _ _ _ _ fun old ↦ srlw old (k.lea i m true c <<< 3)
  | dword =>
    simp only [xchgLock]
    exact hwhole _ _ _ _
  | qword =>
    simp only [xchgLock]
    exact hwhole _ _ _ _

theorem zext_fastXchg (hop' : ∀ r, i.op1 ≠ .reg r .qword) : Zext (fastXchg k i c) := by
  unfold fastXchg
  split
  · exact zext_xchgLock k i h hop' _ _
  · exact (h.set k i hop' _).set k i hop _

theorem zext_xaddStore (result : U64) (before : Core ρ) : Zext (xaddStore k i result before c) := by
  unfold xaddStore
  split
  · exact h
  · exact h.set k i hop _

omit hop in
theorem zext_casPart (ones a src rax : U64) : Zext (casPart ones a src rax c).2 := by
  simp only [casPart]
  split <;> exact h

omit hop in
theorem zext_casWhole (a src rax : U64) (size : Size) : Zext (casWhole a src rax size c).2 := by
  simp only [casWhole]
  split <;> exact h

/-! ### The stack -/

theorem zext_popCore (hmode : k.mode32) : Zext (popCore k i c) := by
  unfold popCore
  split
  · exact Zext.addRsp h k hmode _
  · have hset := h.set k i hop (c.mem.load (c.gpr rsp) i.width.bytes)
    simp only
    split
    · split
      · refine hset.setRef k rsp ?_ _
        simp [Config.stackWidth, hmode]
      · exact hset.addRsp k hmode _
    · exact hset.addRsp k hmode _

omit hop in
theorem zext_fastLeave (hmode : k.mode32) (hw : i.width ≠ .qword) : Zext (fastLeave k i c) := by
  have hscratch (v w : U64) : Zext (k.setRef rbp i.width v (k.setRef rsp i.width w c)) :=
    (h.setRef k rsp hw w).setRef k rbp hw v
  unfold fastLeave
  cases hsize : i.width with
  | dword =>
    have hrbp := h.but.write rbp (c.gpr rbp + k.stackPointerSize)
    have hrsp := (hrbp.mono (Set.subset_insert rsp _)).setRef_dword k
      ((c.write rbp (c.gpr rbp + k.stackPointerSize)).gpr rbp)
    have hagain (v : U64) := hrsp.write rbp v
    rw [Set.insert_idem] at hagain
    simp only [Config.hostRef, hmode, if_true, Host.put, Host.val, Config.getRef]
    exact ((hagain _).setRef_dword k _).zext
  | qword => exact absurd hsize hw
  | _ =>
    rw [hsize] at hscratch
    exact hscratch _ _

omit hop in
theorem zext_fastLoop (hmode : k.mode32) (hw : i.addressWidth ≠ .qword) (more : U64) :
    Zext (fastLoop k i more c) := by
  unfold fastLoop
  cases hsize : i.addressWidth with
  | dword =>
    simp only [Config.hostRef, hmode, if_true, Host.put]
    exact zext_jcc k i (h.write_setRef k rcx _ _) _
  | qword => exact absurd hsize hw
  | _ =>
    rw [hsize] at hw
    exact zext_jcc k i (h.setRef k rcx hw _) _

omit hop in
theorem zext_fastCall (hmode : k.mode32) : Zext (fastCall k i c) := by
  unfold fastCall
  split <;> exact h.addRsp k hmode _

end CoreHandlers

/-! ## Handlers with flags -/

section StateHandlers

variable (k : Config) (i : Insn) (e : Flag → Bool) {s : State ρ} (h : Zext s.core)
include h

theorem zext_lockedAdd {src dst : U64} {c : Core ρ} (hc : lockedAdd k i src s.core =
    some (dst, c)) :
    Zext c := by
  have hgpr : c.gpr = s.core.gpr := by
    unfold lockedAdd at hc
    split at hc
    · next m size _ =>
      cases size <;> simp only [amo, lrsc] at hc <;> (repeat' split at hc) <;> cases hc <;> rfl
    · cases hc
  intro r
  rw [hgpr]
  exact h r

omit h in
theorem zext_divide {value : Core ρ → Option (Core ρ)} {t : State ρ}
    (hvalue : ∀ c, value s.core = some c → Zext c) (ht : divide i value s = some t) :
        Zext t.core := by
  obtain ⟨c, hc, rfl⟩ := Option.map_eq_some_iff.mp ht
  exact hvalue c hc

theorem zext_bitString (m : MemOperand) (update : BitVec 8 → BitVec 8 → BitVec 8) :
    Zext (bitString k i m update s).core :=
  h

omit h in
theorem core_segmentCall (g : Core ρ → Core ρ) : (segmentCall k i g s).core = g s.core := by
  unfold segmentCall
  split <;> rfl

theorem zext_fastCmp : Zext (fastCmp k i e s).core := by
  unfold fastCmp
  split
  · exact h
  · simpa using h

theorem zext_fastTest : Zext (fastTest k i e s).core := by
  unfold fastTest
  simp only
  split
  · exact h
  · simpa using h

theorem zext_fastCmps (ha : i.addressWidth ≠ .qword) : Zext (fastCmps k i e s).core :=
  zext_strings k i h ha s.core.mem _ _ _

theorem zext_fastScas (ha : i.addressWidth ≠ .qword) : Zext (fastScas k i e s).core :=
  (h.setRef k rdi ha _).setRef k rcx ha _

theorem zext_comis (r : Comparison) : Zext (comis e r s).core := by
  simpa [comis] using h

theorem zext_fastPtest (zero carry : Bool) : Zext (fastPtest e zero carry s).core := by
  simpa [fastPtest] using h

theorem zext_fcmov (cond : U64) (next : Core ρ → ρ) :
    Zext (s.map fun c ↦ if cond = 0 then c else { c with rest := next c }).core := by
  simp only [State.core_map]
  split <;> exact h

theorem zext_felix86Pcmpxstrx (index : Option (BitVec 5)) (next : ρ) (flags : Flag → Bool) :
    Zext (felix86Pcmpxstrx index next flags s).core := by
  have hrest : Zext { s.core with rest := next } := h
  unfold felix86Pcmpxstrx
  simp only
  split
  · exact hrest.write rcx (low32_setWidth _ (by decide))
  · exact hrest

variable (hop : ∀ r, i.op0 ≠ .reg r .qword)
include hop

theorem zext_opNoflagsDestreg {f f32 : U64 → U64 → U64} (hf : LaneOp f)
    (h32 : ∀ a b, LowEq .dword (f32 a b) (f a b)) (hi : i.Sized) (hreg : i.op0.isReg) :
    Zext (opNoflagsDestreg k i f f32 s).core := by
  rw [opNoflagsDestreg_eq k i hf h32 hi hreg]
  exact h.set k i hop _

theorem zext_fastAdd (hi : i.Sized) {t : State ρ} (ht : fastAdd k i e s = some t) :
    Zext t.core := by
  unfold fastAdd at ht
  split at ht
  · next hshort =>
    obtain rfl := Option.some.inj ht
    have hreg : i.op0.isReg := by simp_all
    exact zext_opNoflagsDestreg k i h hop laneOp_add (fun a b ↦ lowEq_sextw (by decide) _) hi hreg
  · simp only at ht
    split at ht
    · obtain ⟨⟨dst, c⟩, hc, rfl⟩ := Option.map_eq_some_iff.mp ht
      simpa using zext_lockedAdd k i h hc
    · obtain rfl := Option.some.inj ht
      simpa using h.set k i hop _

theorem zext_fastSub (hi : i.Sized) : Zext (fastSub k i e s).core := by
  unfold fastSub
  split
  · next hshort =>
    have hreg : i.op0.isReg := by simp_all
    exact zext_opNoflagsDestreg k i h hop laneOp_sub (fun a b ↦ lowEq_sextw (by decide) _) hi hreg
  · simp only
    split
    · simpa using zext_amo h _ _ _ _
    · simpa using h.set k i hop _

theorem zext_fastSbb : Zext (fastSbb k i e s).core := by
  simpa [fastSbb] using h.set k i hop _

theorem zext_fastAdc : Zext (fastAdc k i e s).core := by
  simpa [fastAdc] using h.set k i hop _

theorem zext_logic (op : U64 → U64 → U64) : Zext (logic k i e op s).core := by
  simp only [logic]
  split
  · simpa using zext_amo h _ _ _ _
  · simpa using h.set k i hop _

theorem zext_fastOr (hi : i.Sized) : Zext (fastOr k i e s).core := by
  unfold fastOr
  split
  · next hshort =>
    have hreg : i.op0.isReg := by simp_all
    exact zext_opNoflagsDestreg k i h hop laneOp_or (fun a b ↦ rfl) hi hreg
  · exact zext_logic k i e h hop _

theorem zext_fastXor (hi : i.Sized) : Zext (fastXor k i e s).core := by
  unfold fastXor
  split
  · next r _ =>
    simpa [Config.setRef, Config.merge] using h.write r (show Low32 (0 : U64) by decide)
  · split
    · next hshort =>
      have hreg : i.op0.isReg := by simp_all
      exact zext_opNoflagsDestreg k i h hop laneOp_xor (fun a b ↦ rfl) hi hreg
    · exact zext_logic k i e h hop _

theorem zext_incDec (step : U64) (af : U64 → U64 → U64) (of : U64 → U64 → Size → U64) :
    Zext (incDec k i e step af of s).core := by
  simp only [incDec]
  split
  · simpa using zext_amo h _ _ _ _
  · simpa using h.set k i hop _

theorem zext_fastNeg : Zext (fastNeg k i e s).core := by
  simpa [fastNeg] using h.set k i hop _

omit hop in
theorem zext_shiftZero (hmode : k.mode32) : Zext (shiftZero k i s).core := by
  unfold shiftZero
  split
  · next r hr =>
    have hget : Low32 (k.get i i.op0 s.core) := by
      simpa [hr, Config.get, Config.getRef, hmode] using h r
    simpa [Config.setRef, Config.merge] using h.write r hget
  · exact h

theorem zext_fastShl (hmode : k.mode32) : Zext (fastShl k i e s).core := by
  unfold fastShl
  split
  · simp only [fastShlImm]
    split
    · simpa using h.set k i hop _
    · exact zext_shiftZero k i h hmode
  · split
    · exact h.set k i hop _
    · simp only [State.core_map]
      split <;> simpa using h.set k i hop _

theorem zext_fastShr (hmode : k.mode32) : Zext (fastShr k i e s).core := by
  unfold fastShr
  split
  · simp only [fastShrImm]
    split
    · simpa using h.set k i hop _
    · exact zext_shiftZero k i h hmode
  · split
    · exact h.set k i hop _
    · simp only [State.core_map]
      split <;> simpa using h.set k i hop _

theorem zext_fastSar (hmode : k.mode32) : Zext (fastSar k i e s).core := by
  unfold fastSar
  split
  · simp only [fastSarImm]
    split
    · simpa using h.set k i hop _
    · exact zext_shiftZero k i h hmode
  · simp only [State.core_map]
    split <;> simpa using h.set k i hop _

theorem zext_doubleShift (value carry : U64 → U64 → U64 → U64 → U64) :
    Zext (doubleShift k i e value carry s).core := by
  simp only [doubleShift, State.core_map]
  split <;> simpa using h.set k i hop _

theorem zext_fastRol : Zext (fastRol k i e s).core := by
  simp only [fastRol]
  split
  · simp only [rolNoflags]
    split <;> exact h.set k i hop _
  · split
    · exact h
    · exact h.set k i hop _

theorem zext_fastRor : Zext (fastRor k i s).core := by
  simp only [fastRor]
  split
  · exact h
  · exact h.set k i hop _

theorem zext_fastRcl : Zext (fastRcl k i e s).core := by
  simpa [fastRcl] using h.set k i hop _

theorem zext_fastRcr : Zext (fastRcr k i e s).core := by
  simpa [fastRcr] using h.set k i hop _

/-! ### Multiplication, division and bits -/

section Wide

variable (hsize : i.op0.size ≠ .qword)
include hsize

omit hop in
theorem zext_imul1 : Zext (imul1 k i e s).core := by
  have hw : Size.word ≠ .qword := by decide
  have hd : Size.dword ≠ .qword := by decide
  simp only [imul1]
  split
  · simpa using h.setRef k rax hw _
  · simpa using h.setRef k rax hw _
  · simpa using (h.setRef k rax hw _).setRef k rdx hw _
  · simpa using (h.setRef k rax hd _).setRef k rdx hd _
  · next hq => exact absurd hq hsize

omit hop in
theorem zext_fastMul : Zext (fastMul k i e s).core := by
  have hw : Size.word ≠ .qword := by decide
  have hd : Size.dword ≠ .qword := by decide
  simp only [fastMul]
  split
  · simpa using h.setRef k rax hw _
  · simpa using h.setRef k rax hw _
  · simpa using (h.setRef k rax hw _).setRef k rdx hw _
  · simpa using (h.setRef k rax hd _).setRef k rdx hd _
  · next hq => exact absurd hq hsize

omit hsize in
theorem zext_imul23 (three : Bool) : Zext (imul23 k i e three s).core := by
  simp only [imul23]
  split
  · exact h.set k i hop _
  · exact h.set k i hop _

theorem zext_fastImul (opcount : ℕ) :
    Zext (fastImul k i e opcount s).core := by
  unfold fastImul
  split
  · exact zext_imul1 k i e h hsize
  · exact zext_imul23 k i e h hop _

end Wide

theorem zext_bitScan (value : U64 → U64) : Zext (bitScan k i value s).core := by
  simp only [bitScan]
  split
  · exact h
  · exact h.set k i hop _

theorem zext_bitTest (emitsCf : Bool) (update : Option (U64 → U64 → U64)) :
    Zext (bitTest k i emitsCf update s).core := by
  simp only [bitTest]
  split
  · simpa using h.set k i hop _
  · simpa using h

theorem zext_bitInstruction (emitsCf : Bool) (update : Option (U64 → U64 → U64))
    (updateByte : BitVec 8 → BitVec 8 → BitVec 8) :
    Zext (bitInstruction k i emitsCf update updateByte s).core := by
  unfold bitInstruction
  split
  · exact zext_bitString k i h _ _
  · exact zext_bitTest k i h hop _ _

theorem zext_fastBlsr : Zext (fastBlsr k i e s).core := by
  simpa [fastBlsr] using h.set k i hop _

theorem zext_fastXadd (hop' : ∀ r, i.op1 ≠ .reg r .qword) (hsize : i.op0.size ≠ .qword) :
    Zext (fastXadd k i e s).core := by
  unfold fastXadd
  split
  · next m width hatomic =>
    have hd : width = .dword := by
      unfold atomicOperand at hatomic
      grind [Operand.size]
    subst hd
    have hdst := k.low32_zext (show Size.dword ≠ .qword by decide)
      (amo (· + ·) .dword (k.lea i m true s.core) (k.get i i.op1 s.core) s.core).1
    have hmem := zext_amo h (· + ·) .dword (k.lea i m true s.core) (k.get i i.op1 s.core)
    simp only [if_true]
    split
    · simpa [Config.setRef, Config.merge] using hmem.write _ hdst
    · simpa using hmem
  · simp only [State.core_map, core_setAddFlags]
    exact zext_xaddStore k i (h.set k i hop' _) hop _ _

omit hop in
theorem zext_cmpxchgLock (m : MemOperand) (hw : i.width ≠ .qword) {t : State ρ}
    (ht : cmpxchgLock k i e m s = some t) : Zext t.core := by
  have hfinish (old dst : U64) {c : Core ρ} (hc : Zext c) (fl : Flag → U64) : Zext
      (if old - dst = 0 then setCmpFlags k e old dst (old - dst) i.width false false ⟨c, fl⟩
        else (setCmpFlags k e old dst (old - dst) i.width false false ⟨c, fl⟩).map
          (k.setRef rax i.width dst)).core := by
    split
    · simpa using hc
    · simpa using hc.setRef k rax hw dst
  cases hsize : i.width with
  | qword => exact absurd hsize hw
  | dword =>
    rw [hsize] at hfinish
    simp only [cmpxchgLock, hsize, Option.some.injEq] at ht
    subst ht
    exact hfinish _ _ (zext_casWhole h _ _ _ _) _
  | word =>
    rw [hsize] at hfinish
    simp only [cmpxchgLock, hsize] at ht
    split at ht
    · cases ht
    · obtain rfl := Option.some.inj ht
      exact hfinish _ _ (zext_casPart h _ _ _ _) _
  | byte =>
    rw [hsize] at hfinish
    simp only [cmpxchgLock, hsize] at ht
    split at ht
    · cases ht
    · obtain rfl := Option.some.inj ht
      exact hfinish _ _ (zext_casPart h _ _ _ _) _
  | byteHigh =>
    rw [hsize] at hfinish
    simp only [cmpxchgLock, hsize] at ht
    split at ht
    · cases ht
    · obtain rfl := Option.some.inj ht
      exact hfinish _ _ (zext_casPart h _ _ _ _) _

theorem zext_fastCmpxchg (hw : i.width ≠ .qword) {t : State ρ} (ht : fastCmpxchg k i e s = some t) :
    Zext t.core := by
  unfold fastCmpxchg at ht
  split at ht
  · exact zext_cmpxchgLock k i e h _ hw ht
  · obtain rfl := Option.some.inj ht
    simp only [State.core_map, core_setCmpFlags]
    split
    · exact h.set k i hop _
    · exact h.setRef k rax hw _

omit hop in
theorem zext_fastCmpxchg8b : Zext (fastCmpxchg8b k i s).core := by
  unfold fastCmpxchg8b
  split
  · next m _ _ =>
    simp only
    split
    · exact h
    · have hrdx := (h.but.write rdx (s.core.mem.load (k.lea i m true s.core) 8 >>> 32)).mono
        (Set.subset_insert rax _)
      exact ((hrdx.setRef_dword k _).setRef_dword k _).zext
  · exact h

end StateHandlers

/-! ## What the decoder gives in 32-bit mode -/

/-- The instructions of 64-bit mode. -/
def Mnemonic.long : Mnemonic ρ → Bool
  | .movsxd => true
  | .cdqe => true
  | .cqo => true
  | .cmpxchg16b => true
  | .syscall _ => true
  | _ => false

/-- The instructions that have a 64-bit operand in memory, or one of another unit. -/
def Mnemonic.wide : Mnemonic ρ → Bool
  | .cmpxchg8b => true
  | .comis _ => true
  | .ptest _ _ => true
  | .fcomi _ _ => true
  | .fcmov _ _ => true
  | .pcmpxstrx _ _ _ => true
  | .fromUnit _ _ => true
  | .other _ => true
  | _ => false

/-- The instructions that `OP_noflags_destreg` compiles. -/
def Mnemonic.lane : Mnemonic ρ → Bool
  | .add => true
  | .sub => true
  | .or => true
  | .xor => true
  | _ => false

/-- An instruction as it is decoded in 32-bit mode. -/
structure Instr.In32 (x : Instr ρ) : Prop where
  short : x.mnemonic.long = false
  addressWidth : x.insn.addressWidth ≠ .qword
  width : x.mnemonic.wide = false → x.insn.width ≠ .qword
  reg0 : ∀ r, x.insn.op0 ≠ .reg r .qword
  reg1 : ∀ r, x.insn.op1 ≠ .reg r .qword
  size0 : x.mnemonic.wide = false → x.insn.op0.size ≠ .qword
  size1 : x.mnemonic.wide = false → x.insn.op1.size ≠ .qword
  sized : x.mnemonic.lane = true → x.insn.Sized

/-- The steps that keep the upper halves zero: the result of a system call has to be a 32-bit
number, and what `IRETD` pops has to end below 4 GiB. -/
def Instr.Keeps32 (x : Instr ρ) (c : Core ρ) : Prop :=
  match x.mnemonic with
  | .int result _ _ => Low32 (result c)
  | .iretd => (c.gpr rsp).toNat + 12 < 2 ^ 32
  | _ => True

/-- Each instruction keeps the upper halves zero. -/
theorem zext_exec {k : Config} {x : Instr ρ} {e : Flag → Bool} {s t : State ρ} (hmode : k.mode32)
    (hx : x.In32) (hok : x.Keeps32 s.core) (h : Zext s.core) (ht : x.exec k e s = some t) :
    Zext t.core := by
  obtain ⟨m, i⟩ := x
  obtain ⟨hshort, ha, hw, hr0, hr1, hs0, hs1, hsized⟩ := hx
  simp only at *
  unfold Instr.exec at ht
  have hb : Size.byte ≠ .qword := by decide
  have hh : Size.byteHigh ≠ .qword := by decide
  have hw' : Size.word ≠ .qword := by decide
  have hd : Size.dword ≠ .qword := by decide
  cases m with
  | add => exact zext_fastAdd k i e h hr0 (hsized rfl) ht
  | cmpxchg => exact zext_fastCmpxchg k i e h hr0 (hw rfl) ht
  | div => exact zext_divide i (fun c ↦ zext_divCore k i h (hs0 rfl)) ht
  | idiv => exact zext_divide i (fun c ↦ zext_idivCore k i h (hs0 rfl)) ht
  | movsxd => cases hshort
  | cdqe => cases hshort
  | cqo => cases hshort
  | cmpxchg16b => cases hshort
  | syscall => cases hshort
  | sub =>
    obtain rfl := Option.some.inj ht
    exact zext_fastSub k i e h hr0 (hsized rfl)
  | sbb =>
    obtain rfl := Option.some.inj ht
    exact zext_fastSbb k i e h hr0
  | adc =>
    obtain rfl := Option.some.inj ht
    exact zext_fastAdc k i e h hr0
  | cmp =>
    obtain rfl := Option.some.inj ht
    exact zext_fastCmp k i e h
  | or =>
    obtain rfl := Option.some.inj ht
    exact zext_fastOr k i e h hr0 (hsized rfl)
  | xor =>
    obtain rfl := Option.some.inj ht
    exact zext_fastXor k i e h hr0 (hsized rfl)
  | and =>
    obtain rfl := Option.some.inj ht
    exact zext_logic k i e h hr0 _
  | test =>
    obtain rfl := Option.some.inj ht
    exact zext_fastTest k i e h
  | inc =>
    obtain rfl := Option.some.inj ht
    exact zext_incDec k i e h hr0 _ _ _
  | dec =>
    obtain rfl := Option.some.inj ht
    exact zext_incDec k i e h hr0 _ _ _
  | neg =>
    obtain rfl := Option.some.inj ht
    exact zext_fastNeg k i e h hr0
  | not =>
    obtain rfl := Option.some.inj ht
    exact h.set k i hr0 _
  | shl =>
    obtain rfl := Option.some.inj ht
    exact zext_fastShl k i e h hr0 hmode
  | shr =>
    obtain rfl := Option.some.inj ht
    exact zext_fastShr k i e h hr0 hmode
  | sar =>
    obtain rfl := Option.some.inj ht
    exact zext_fastSar k i e h hr0 hmode
  | shld =>
    obtain rfl := Option.some.inj ht
    exact zext_doubleShift k i e h hr0 _ _
  | shrd =>
    obtain rfl := Option.some.inj ht
    exact zext_doubleShift k i e h hr0 _ _
  | rol =>
    obtain rfl := Option.some.inj ht
    exact zext_fastRol k i e h hr0
  | ror =>
    obtain rfl := Option.some.inj ht
    exact zext_fastRor k i h hr0
  | rcl =>
    obtain rfl := Option.some.inj ht
    exact zext_fastRcl k i e h hr0
  | rcr =>
    obtain rfl := Option.some.inj ht
    exact zext_fastRcr k i e h hr0
  | imul opcount =>
    obtain rfl := Option.some.inj ht
    exact zext_fastImul k i e h hr0 (hs0 rfl) opcount
  | mul =>
    obtain rfl := Option.some.inj ht
    exact zext_fastMul k i e h (hs0 rfl)
  | bsf =>
    obtain rfl := Option.some.inj ht
    exact zext_bitScan k i h hr0 _
  | bsr =>
    obtain rfl := Option.some.inj ht
    exact zext_bitScan k i h hr0 _
  | tzcnt =>
    obtain rfl := Option.some.inj ht
    exact h.set k i hr0 _
  | bt =>
    obtain rfl := Option.some.inj ht
    exact zext_bitInstruction k i h hr0 _ _ _
  | btc =>
    obtain rfl := Option.some.inj ht
    exact zext_bitInstruction k i h hr0 _ _ _
  | bts =>
    obtain rfl := Option.some.inj ht
    exact zext_bitInstruction k i h hr0 _ _ _
  | btr =>
    obtain rfl := Option.some.inj ht
    exact zext_bitInstruction k i h hr0 _ _ _
  | blsr =>
    obtain rfl := Option.some.inj ht
    exact zext_fastBlsr k i e h hr0
  | bswap =>
    obtain rfl := Option.some.inj ht
    exact h.set k i hr0 _
  | mov =>
    obtain rfl := Option.some.inj ht
    rw [fastMov, core_segmentCall]
    exact zext_movCore k i h hr0
  | movzx =>
    obtain rfl := Option.some.inj ht
    exact zext_fastMovzx k i h (hs1 rfl)
  | movsx =>
    obtain rfl := Option.some.inj ht
    exact h.set k i hr0 _
  | lea =>
    obtain rfl := Option.some.inj ht
    exact zext_fastLea k i h hr0
  | cbw =>
    obtain rfl := Option.some.inj ht
    exact h.setRef k rax hw' _
  | cwde =>
    obtain rfl := Option.some.inj ht
    exact h.write_setRef k rax _ _
  | cwd =>
    obtain rfl := Option.some.inj ht
    exact h.setRef k rdx hw' _
  | cdq =>
    obtain rfl := Option.some.inj ht
    exact h.write_setRef k rdx _ _
  | xchg =>
    obtain rfl := Option.some.inj ht
    exact zext_fastXchg k i h hr0 hr1
  | xadd =>
    obtain rfl := Option.some.inj ht
    exact zext_fastXadd k i e h hr0 hr1 (hs0 rfl)
  | cmpxchg8b =>
    obtain rfl := Option.some.inj ht
    exact zext_fastCmpxchg8b k i h
  | push =>
    obtain rfl := Option.some.inj ht
    exact zext_fastPush k i h hmode
  | pop =>
    obtain rfl := Option.some.inj ht
    rw [fastPop, core_segmentCall]
    exact zext_popCore k i h hr0 hmode
  | call =>
    obtain rfl := Option.some.inj ht
    exact zext_fastCall k i h hmode
  | ret =>
    obtain rfl := Option.some.inj ht
    exact h.addRsp k hmode _
  | leave =>
    obtain rfl := Option.some.inj ht
    exact zext_fastLeave k i h hmode (hw rfl)
  | pushf =>
    obtain rfl := Option.some.inj ht
    exact h.addRsp k hmode _
  | popf =>
    obtain rfl := Option.some.inj ht
    exact h.addRsp k hmode _
  | jmp =>
    obtain rfl := Option.some.inj ht
    exact zext_fastJmp k i h
  | jcc cond =>
    obtain rfl := Option.some.inj ht
    exact h
  | jcxz size =>
    obtain rfl := Option.some.inj ht
    exact h
  | loop =>
    obtain rfl := Option.some.inj ht
    exact zext_fastLoop k i h hmode ha _
  | loope =>
    obtain rfl := Option.some.inj ht
    exact zext_fastLoop k i h hmode ha _
  | loopne =>
    obtain rfl := Option.some.inj ht
    exact zext_fastLoop k i h hmode ha _
  | cmov cond =>
    obtain rfl := Option.some.inj ht
    exact h.set k i hr0 _
  | setcc cond =>
    obtain rfl := Option.some.inj ht
    exact h.set k i hr0 _
  | movs =>
    obtain rfl := Option.some.inj ht
    exact zext_fastMovs k i h ha
  | cmps =>
    obtain rfl := Option.some.inj ht
    exact zext_fastCmps k i e h ha
  | scas =>
    obtain rfl := Option.some.inj ht
    exact zext_fastScas k i e h ha
  | lods =>
    obtain rfl := Option.some.inj ht
    exact zext_fastLods k i h ha (hw rfl)
  | stos =>
    obtain rfl := Option.some.inj ht
    exact zext_fastStos k i h ha
  | clc =>
    obtain rfl := Option.some.inj ht
    exact h
  | stc =>
    obtain rfl := Option.some.inj ht
    exact h
  | cmc =>
    obtain rfl := Option.some.inj ht
    exact h
  | cld =>
    obtain rfl := Option.some.inj ht
    exact h
  | std =>
    obtain rfl := Option.some.inj ht
    exact h
  | lahf =>
    obtain rfl := Option.some.inj ht
    exact h.setRef k rax hh _
  | sahf =>
    obtain rfl := Option.some.inj ht
    exact h
  | rdtsc time =>
    obtain rfl := Option.some.inj ht
    exact zext_fastRdtsc k h time
  | xgetbv =>
    obtain rfl := Option.some.inj ht
    exact zext_fastXgetbv k h
  | cpuid eax ebx ecx edx =>
    obtain rfl := Option.some.inj ht
    exact zext_felix86Cpuid h eax ebx ecx edx
  | int result child world =>
    obtain rfl := Option.some.inj ht
    exact zext_felix86Syscall32 h hok
  | iretd =>
    obtain rfl := Option.some.inj ht
    exact zext_felix86Iret h hok
  | comis compare =>
    obtain rfl := Option.some.inj ht
    exact zext_comis e h _
  | ptest zero carry =>
    obtain rfl := Option.some.inj ht
    exact zext_fastPtest e h _ _
  | fcomi compare next =>
    obtain rfl := Option.some.inj ht
    exact h
  | fcmov cond next =>
    obtain rfl := Option.some.inj ht
    exact zext_fcmov h _ _
  | pcmpxstrx index next flags =>
    obtain rfl := Option.some.inj ht
    exact zext_felix86Pcmpxstrx h _ _ _
  | fromUnit value next =>
    obtain rfl := Option.some.inj ht
    have hrest : Zext { s.core with rest := next s.core } := h
    exact hrest.set k i hr0 _
  | other world =>
    obtain rfl := Option.some.inj ht
    exact h
end Jit

end Felix86
