import Felix86.Lib.Widths

/-!
# Structures of 32-bit guests

Each structure of `guest_types.hpp` that has conversions both ways is one here, with the fields that
are converted, and so is the host's. The conversions are those of the source: an assignment between
fields of different width, with a cast where the source has one.

A field of the guest has a meaning as a number, which the assignments do not always keep: seconds
are signed there and their fields unsigned here, and limits are widened with their sign. In the
other direction an assignment cuts where the guest should get the nearest value. `x86_sysinfo` has
one direction only and a unit that is scaled. Fields that are padding are left out.
-/

namespace Felix86

namespace GuestTypes

open Widths

/-! ## Structures -/

structure Rlimit where
  rlimCur : BitVec 64
  rlimMax : BitVec 64
deriving DecidableEq, Repr

structure X86Rlimit where
  rlimCur : BitVec 32
  rlimMax : BitVec 32
deriving DecidableEq, Repr

structure Iovec where
  iovBase : BitVec 64
  iovLen : BitVec 64
deriving DecidableEq, Repr

structure X86Iovec where
  iovBase : BitVec 32
  iovLen : BitVec 32
deriving DecidableEq, Repr

structure Timespec where
  tvSec : BitVec 64
  tvNsec : BitVec 64
deriving DecidableEq, Repr

structure X86Timespec where
  tvSec : BitVec 32
  tvNsec : BitVec 32
deriving DecidableEq, Repr

structure Timeval where
  tvSec : BitVec 64
  tvUsec : BitVec 64
deriving DecidableEq, Repr

structure X86Timeval where
  tvSec : BitVec 32
  tvUsec : BitVec 32
deriving DecidableEq, Repr

structure EpollEvent where
  events : BitVec 32
  data : BitVec 64
deriving DecidableEq, Repr

structure X86EpollEvent where
  events : BitVec 32
  data : BitVec 64
deriving DecidableEq, Repr

/-- `ipc64_perm`. -/
structure IpcPerm where
  key : BitVec 32
  uid : BitVec 32
  gid : BitVec 32
  cuid : BitVec 32
  cgid : BitVec 32
  mode : BitVec 32
  seq : BitVec 16
deriving DecidableEq, Repr

structure X86IpcPerm32 where
  key : BitVec 32
  uid : BitVec 16
  gid : BitVec 16
  cuid : BitVec 16
  cgid : BitVec 16
  mode : BitVec 16
  seq : BitVec 16
deriving DecidableEq, Repr

structure X86IpcPerm64 where
  key : BitVec 32
  uid : BitVec 32
  gid : BitVec 32
  cuid : BitVec 32
  cgid : BitVec 32
  mode : BitVec 16
  seq : BitVec 16
deriving DecidableEq, Repr

/-- `riscv64_shmid64_ds`. -/
structure ShmidDs where
  shmPerm : IpcPerm
  shmSegsz : BitVec 64
  shmAtime : BitVec 64
  shmDtime : BitVec 64
  shmCtime : BitVec 64
  shmCpid : BitVec 32
  shmLpid : BitVec 32
  shmNattch : BitVec 64
deriving DecidableEq, Repr

structure X86ShmidDs64 where
  shmPerm : X86IpcPerm64
  shmSegsz : BitVec 32
  shmAtime : BitVec 32
  shmAtimeHigh : BitVec 32
  shmDtime : BitVec 32
  shmDtimeHigh : BitVec 32
  shmCtime : BitVec 32
  shmCtimeHigh : BitVec 32
  shmCpid : BitVec 32
  shmLpid : BitVec 32
  shmNattch : BitVec 32
deriving DecidableEq, Repr

structure X86ShmidDs32 where
  shmPerm : X86IpcPerm32
  shmSegsz : BitVec 32
  shmAtime : BitVec 32
  shmDtime : BitVec 32
  shmCtime : BitVec 32
  shmCpid : BitVec 16
  shmLpid : BitVec 16
  shmNattch : BitVec 16
deriving DecidableEq, Repr

/-- `riscv64_semid64_ds`. -/
structure SemidDs where
  semPerm : IpcPerm
  semOtime : BitVec 64
  semCtime : BitVec 64
  semNsems : BitVec 64
deriving DecidableEq, Repr

structure X86SemidDs32 where
  semPerm : X86IpcPerm32
  semOtime : BitVec 32
  semCtime : BitVec 32
  semBase : BitVec 32
  semPending : BitVec 32
  semPendingLast : BitVec 32
  undo : BitVec 32
  semNsems : BitVec 16
deriving DecidableEq, Repr

structure X86SemidDs64 where
  semPerm : X86IpcPerm64
  semOtime : BitVec 32
  semOtimeHigh : BitVec 32
  semCtime : BitVec 32
  semCtimeHigh : BitVec 32
  semNsems : BitVec 32
deriving DecidableEq, Repr

/-! ## Conversions -/

/-- What a structure of the guest has: the two conversions of the source, the value of the host that
means the same to an i386 kernel, and the nearest value of the guest. -/
structure Conversion (Guest Host : Type) where
  toHost : Guest → Host
  ofHost : Host → Guest
  meaning : Guest → Host
  nearest : Host → Guest

def rlimit : Conversion X86Rlimit Rlimit where
  toHost g := ⟨g.rlimCur.signExtend 64, g.rlimMax.signExtend 64⟩
  ofHost h := ⟨h.rlimCur.setWidth 32, h.rlimMax.setWidth 32⟩
  meaning g := ⟨extendLimit 64 g.rlimCur, extendLimit 64 g.rlimMax⟩
  nearest h := ⟨saturateUnsigned 32 h.rlimCur, saturateUnsigned 32 h.rlimMax⟩

def iovec : Conversion X86Iovec Iovec where
  toHost g := ⟨g.iovBase.setWidth 64, g.iovLen.setWidth 64⟩
  ofHost h := ⟨h.iovBase.setWidth 32, h.iovLen.setWidth 32⟩
  meaning g := ⟨g.iovBase.setWidth 64, g.iovLen.setWidth 64⟩
  nearest h := ⟨saturateUnsigned 32 h.iovBase, saturateUnsigned 32 h.iovLen⟩

def timespec : Conversion X86Timespec Timespec where
  toHost g := ⟨g.tvSec.setWidth 64, g.tvNsec.setWidth 64⟩
  ofHost h := ⟨h.tvSec.setWidth 32, h.tvNsec.setWidth 32⟩
  meaning g := ⟨g.tvSec.signExtend 64, g.tvNsec.signExtend 64⟩
  nearest h := ⟨saturateSigned 32 h.tvSec, saturateSigned 32 h.tvNsec⟩

def timeval : Conversion X86Timeval Timeval where
  toHost g := ⟨g.tvSec.setWidth 64, g.tvUsec.setWidth 64⟩
  ofHost h := ⟨h.tvSec.setWidth 32, h.tvUsec.setWidth 32⟩
  meaning g := ⟨g.tvSec.signExtend 64, g.tvUsec.signExtend 64⟩
  nearest h := ⟨saturateSigned 32 h.tvSec, saturateSigned 32 h.tvUsec⟩

def epollEvent : Conversion X86EpollEvent EpollEvent where
  toHost g := ⟨g.events, g.data⟩
  ofHost h := ⟨h.events, h.data⟩
  meaning g := ⟨g.events, g.data⟩
  nearest h := ⟨h.events, h.data⟩

def ipcPerm32 : Conversion X86IpcPerm32 IpcPerm where
  toHost g := ⟨g.key, g.uid.setWidth 32, g.gid.setWidth 32, g.cuid.setWidth 32, g.cgid.setWidth 32,
    g.mode.setWidth 32, g.seq⟩
  ofHost h := ⟨h.key, h.uid.setWidth 16, h.gid.setWidth 16, h.cuid.setWidth 16, h.cgid.setWidth 16,
    h.mode.setWidth 16, h.seq⟩
  meaning g := ⟨g.key, g.uid.setWidth 32, g.gid.setWidth 32, g.cuid.setWidth 32, g.cgid.setWidth 32,
    g.mode.setWidth 32, g.seq⟩
  nearest h := ⟨h.key, saturateUnsigned 16 h.uid, saturateUnsigned 16 h.gid,
    saturateUnsigned 16 h.cuid, saturateUnsigned 16 h.cgid, saturateUnsigned 16 h.mode, h.seq⟩

def ipcPerm64 : Conversion X86IpcPerm64 IpcPerm where
  toHost g := ⟨g.key, g.uid, g.gid, g.cuid, g.cgid, g.mode.setWidth 32, g.seq⟩
  ofHost h := ⟨h.key, h.uid, h.gid, h.cuid, h.cgid, h.mode.setWidth 16, h.seq⟩
  meaning g := ⟨g.key, g.uid, g.gid, g.cuid, g.cgid, g.mode.setWidth 32, g.seq⟩
  nearest h := ⟨h.key, h.uid, h.gid, h.cuid, h.cgid, saturateUnsigned 16 h.mode, h.seq⟩

/-- A time in two fields, put together with a shift. -/
def joinTime (low high : BitVec 32) : BitVec 64 := (high.setWidth 64 <<< 32) ||| low.setWidth 64

def shmidDs64 : Conversion X86ShmidDs64 ShmidDs where
  toHost g := ⟨ipcPerm64.toHost g.shmPerm, g.shmSegsz.setWidth 64,
    joinTime g.shmAtime g.shmAtimeHigh, joinTime g.shmDtime g.shmDtimeHigh,
      joinTime g.shmCtime g.shmCtimeHigh, g.shmCpid, g.shmLpid,
    g.shmNattch.setWidth 64⟩
  ofHost h := ⟨ipcPerm64.ofHost h.shmPerm, h.shmSegsz.setWidth 32, h.shmAtime.setWidth 32,
    (h.shmAtime >>> 32).setWidth 32, h.shmDtime.setWidth 32, (h.shmDtime >>> 32).setWidth 32,
    h.shmCtime.setWidth 32, (h.shmCtime >>> 32).setWidth 32, h.shmCpid, h.shmLpid,
    h.shmNattch.setWidth 32⟩
  meaning g := ⟨ipcPerm64.meaning g.shmPerm, g.shmSegsz.setWidth 64, g.shmAtimeHigh ++ g.shmAtime,
    g.shmDtimeHigh ++ g.shmDtime, g.shmCtimeHigh ++ g.shmCtime, g.shmCpid, g.shmLpid,
    g.shmNattch.setWidth 64⟩
  nearest h := ⟨ipcPerm64.nearest h.shmPerm, saturateUnsigned 32 h.shmSegsz,
    h.shmAtime.extractLsb' 0 32, h.shmAtime.extractLsb' 32 32, h.shmDtime.extractLsb' 0 32,
    h.shmDtime.extractLsb' 32 32, h.shmCtime.extractLsb' 0 32, h.shmCtime.extractLsb' 32 32,
    h.shmCpid, h.shmLpid, saturateUnsigned 32 h.shmNattch⟩

def shmidDs32 : Conversion X86ShmidDs32 ShmidDs where
  toHost g := ⟨ipcPerm32.toHost g.shmPerm, g.shmSegsz.setWidth 64, g.shmAtime.setWidth 64,
    g.shmDtime.setWidth 64, g.shmCtime.setWidth 64, g.shmCpid.setWidth 32, g.shmLpid.setWidth 32,
    g.shmNattch.setWidth 64⟩
  ofHost h := ⟨ipcPerm32.ofHost h.shmPerm, h.shmSegsz.setWidth 32, h.shmAtime.setWidth 32,
    h.shmDtime.setWidth 32, h.shmCtime.setWidth 32, h.shmCpid.setWidth 16, h.shmLpid.setWidth 16,
    h.shmNattch.setWidth 16⟩
  meaning g := ⟨ipcPerm32.meaning g.shmPerm, g.shmSegsz.setWidth 64, g.shmAtime.signExtend 64,
    g.shmDtime.signExtend 64, g.shmCtime.signExtend 64, g.shmCpid.setWidth 32,
      g.shmLpid.setWidth 32,
    g.shmNattch.setWidth 64⟩
  nearest h := ⟨ipcPerm32.nearest h.shmPerm, saturateUnsigned 32 h.shmSegsz,
    saturateSigned 32 h.shmAtime, saturateSigned 32 h.shmDtime, saturateSigned 32 h.shmCtime,
    saturateUnsigned 16 h.shmCpid, saturateUnsigned 16 h.shmLpid, saturateUnsigned 16 h.shmNattch⟩

def semidDs32 : Conversion X86SemidDs32 SemidDs where
  toHost g := ⟨ipcPerm32.toHost g.semPerm, g.semOtime.setWidth 64, g.semCtime.setWidth 64,
    g.semNsems.setWidth 64⟩
  ofHost h := ⟨ipcPerm32.ofHost h.semPerm, h.semOtime.setWidth 32, h.semCtime.setWidth 32, 0, 0, 0,
    0, h.semNsems.setWidth 16⟩
  meaning g := ⟨ipcPerm32.meaning g.semPerm, g.semOtime.signExtend 64, g.semCtime.signExtend 64,
    g.semNsems.setWidth 64⟩
  nearest h := ⟨ipcPerm32.nearest h.semPerm, saturateSigned 32 h.semOtime,
    saturateSigned 32 h.semCtime, 0, 0, 0, 0, saturateUnsigned 16 h.semNsems⟩

def semidDs64 : Conversion X86SemidDs64 SemidDs where
  toHost g := ⟨ipcPerm64.toHost g.semPerm,
    g.semOtime.setWidth 64 ||| (g.semOtimeHigh.setWidth 64 <<< 32),
    g.semCtime.setWidth 64 ||| (g.semCtimeHigh.setWidth 64 <<< 32), g.semNsems.setWidth 64⟩
  ofHost h := ⟨ipcPerm64.ofHost h.semPerm, h.semOtime.setWidth 32, (h.semOtime >>> 32).setWidth 32,
    h.semCtime.setWidth 32, (h.semCtime >>> 32).setWidth 32, h.semNsems.setWidth 32⟩
  meaning g := ⟨ipcPerm64.meaning g.semPerm, g.semOtimeHigh ++ g.semOtime,
    g.semCtimeHigh ++ g.semCtime, g.semNsems.setWidth 64⟩
  nearest h := ⟨ipcPerm64.nearest h.semPerm, h.semOtime.extractLsb' 0 32,
    h.semOtime.extractLsb' 32 32, h.semCtime.extractLsb' 0 32, h.semCtime.extractLsb' 32 32,
      saturateUnsigned 32 h.semNsems⟩

/-! ## When they are faithful -/

inductive X86Type
  | rlimit
  | iovec
  | timespec
  | timeval
  | epollEvent
  | shmidDs64
  | shmidDs32
  | semidDs32
  | semidDs64
deriving DecidableEq, Repr

namespace X86Type

abbrev Guest : X86Type → Type
  | rlimit => X86Rlimit
  | iovec => X86Iovec
  | timespec => X86Timespec
  | timeval => X86Timeval
  | epollEvent => X86EpollEvent
  | shmidDs64 => X86ShmidDs64
  | shmidDs32 => X86ShmidDs32
  | semidDs32 => X86SemidDs32
  | semidDs64 => X86SemidDs64

abbrev Host : X86Type → Type
  | rlimit => Rlimit
  | iovec => Iovec
  | timespec => Timespec
  | timeval => Timeval
  | epollEvent => EpollEvent
  | shmidDs64 | shmidDs32 => ShmidDs
  | semidDs32 | semidDs64 => SemidDs

def conversion : (t : X86Type) → Conversion t.Guest t.Host
  | rlimit => GuestTypes.rlimit
  | iovec => GuestTypes.iovec
  | timespec => GuestTypes.timespec
  | timeval => GuestTypes.timeval
  | epollEvent => GuestTypes.epollEvent
  | shmidDs64 => GuestTypes.shmidDs64
  | shmidDs32 => GuestTypes.shmidDs32
  | semidDs32 => GuestTypes.semidDs32
  | semidDs64 => GuestTypes.semidDs64

/-- A value of the guest comes back: the fields that nothing is made of are zero. -/
def Kept : (t : X86Type) → t.Guest → Prop
  | semidDs32, g => g.semBase = 0 ∧ g.semPending = 0 ∧ g.semPendingLast = 0 ∧ g.undo = 0
  | _, _ => True

/-- A value of the guest keeps its meaning: no time in one field is negative, and a limit is
infinite or below `2 ^ 31`. -/
def Meant : (t : X86Type) → t.Guest → Prop
  | rlimit, g => (g.rlimCur.msb = false ∨ g.rlimCur = BitVec.allOnes 32) ∧
      (g.rlimMax.msb = false ∨ g.rlimMax = BitVec.allOnes 32)
  | timespec, g => g.tvSec.msb = false ∧ g.tvNsec.msb = false
  | timeval, g => g.tvSec.msb = false ∧ g.tvUsec.msb = false
  | shmidDs32, g => g.shmAtime.msb = false ∧ g.shmDtime.msb = false ∧ g.shmCtime.msb = false
  | semidDs32, g => g.semOtime.msb = false ∧ g.semCtime.msb = false
  | _, _ => True

/-- The identifiers and the mode fit into 16 bits. -/
def PermFits (h : IpcPerm) : Prop :=
  FitsUnsigned 16 h.uid ∧ FitsUnsigned 16 h.gid ∧ FitsUnsigned 16 h.cuid ∧ FitsUnsigned 16 h.cgid ∧
    FitsUnsigned 16 h.mode

/-- A value of the host arrives as the nearest one of the guest: every field fits. -/
def Fits : (t : X86Type) → t.Host → Prop
  | rlimit, h => FitsUnsigned 32 h.rlimCur ∧ FitsUnsigned 32 h.rlimMax
  | iovec, h => FitsUnsigned 32 h.iovBase ∧ FitsUnsigned 32 h.iovLen
  | timespec, h => FitsSigned 32 h.tvSec ∧ FitsSigned 32 h.tvNsec
  | timeval, h => FitsSigned 32 h.tvSec ∧ FitsSigned 32 h.tvUsec
  | epollEvent, _ => True
  | shmidDs64, h => FitsUnsigned 16 h.shmPerm.mode ∧ FitsUnsigned 32 h.shmSegsz ∧
      FitsUnsigned 32 h.shmNattch
  | shmidDs32, h => PermFits h.shmPerm ∧ FitsUnsigned 32 h.shmSegsz ∧ FitsSigned 32 h.shmAtime ∧
      FitsSigned 32 h.shmDtime ∧ FitsSigned 32 h.shmCtime ∧ FitsUnsigned 16 h.shmCpid ∧
      FitsUnsigned 16 h.shmLpid ∧ FitsUnsigned 16 h.shmNattch
  | semidDs32, h => PermFits h.semPerm ∧ FitsSigned 32 h.semOtime ∧ FitsSigned 32 h.semCtime ∧
      FitsUnsigned 16 h.semNsems
  | semidDs64, h => FitsUnsigned 16 h.semPerm.mode ∧ FitsUnsigned 32 h.semNsems

end X86Type

/-! ### Permissions and times -/

theorem ipcPerm32_kept (g : X86IpcPerm32) : ipcPerm32.ofHost (ipcPerm32.toHost g) = g := by
  simp only [ipcPerm32, setWidth_extend (show 16 ≤ 32 by decide)]

theorem ipcPerm64_kept (g : X86IpcPerm64) : ipcPerm64.ofHost (ipcPerm64.toHost g) = g := by
  simp only [ipcPerm64, setWidth_extend (show 16 ≤ 32 by decide)]

theorem ipcPerm32_fits (h : IpcPerm) :
    ipcPerm32.ofHost h = ipcPerm32.nearest h ↔ X86Type.PermFits h := by
  simp only [ipcPerm32, X86IpcPerm32.mk.injEq, setWidth_eq_saturateUnsigned_iff, X86Type.PermFits,
    true_and, and_true]

theorem ipcPerm64_fits (h : IpcPerm) :
    ipcPerm64.ofHost h = ipcPerm64.nearest h ↔ FitsUnsigned 16 h.mode := by
  simp only [ipcPerm64, X86IpcPerm64.mk.injEq, setWidth_eq_saturateUnsigned_iff, true_and, and_true]

theorem joinTime_eq (low high : BitVec 32) : joinTime low high = high ++ low :=
  shl_or_eq_append high low

theorem joinTime_halves (low high : BitVec 32) : (joinTime low high).setWidth 32 = low ∧
    ((joinTime low high) >>> 32).setWidth 32 = high := by
  rw [joinTime_eq]
  exact halves_append high low

theorem extract_low (x : BitVec 64) : x.extractLsb' 0 32 = x.setWidth 32 := by
  apply BitVec.eq_of_getLsbD_eq
  intro i hi
  simp [hi]

theorem extract_high (x : BitVec 64) : x.extractLsb' 32 32 = (x >>> 32).setWidth 32 := by
  apply BitVec.eq_of_getLsbD_eq
  intro i hi
  simp [hi]

/-! ### The three laws -/

open X86Type in
theorem kept_iff (t : X86Type) (g : t.Guest) :
    t.conversion.ofHost (t.conversion.toHost g) = g ↔ t.Kept g := by
  have h16 := @setWidth_extend 32 16 (by decide)
  have h16' := @setWidth_extend 64 16 (by decide)
  have h32 := @setWidth_extend 64 32 (by decide)
  cases t with
  | rlimit =>
    have hsign := @setWidth_signExtend 64 32 (by decide)
    exact iff_of_true (by simp only [conversion, GuestTypes.rlimit, hsign]) trivial
  | iovec => exact iff_of_true (by simp only [conversion, GuestTypes.iovec, h32]) trivial
  | timespec => exact iff_of_true (by simp only [conversion, GuestTypes.timespec, h32]) trivial
  | timeval => exact iff_of_true (by simp only [conversion, GuestTypes.timeval, h32]) trivial
  | epollEvent => exact iff_of_true rfl trivial
  | shmidDs64 =>
    refine iff_of_true ?_ trivial
    simp only [conversion, GuestTypes.shmidDs64, ipcPerm64_kept, joinTime_halves, h32]
  | shmidDs32 =>
    refine iff_of_true ?_ trivial
    simp only [conversion, GuestTypes.shmidDs32, ipcPerm32_kept, h32, h16, h16']
  | semidDs32 =>
    simp only [conversion, GuestTypes.semidDs32, ipcPerm32_kept, h32, h16', Kept]
    cases g
    simp only [X86SemidDs32.mk.injEq, true_and, and_true]
    exact ⟨fun h ↦ ⟨h.1.symm, h.2.1.symm, h.2.2.1.symm, h.2.2.2.symm⟩,
      fun h ↦ ⟨h.1.symm, h.2.1.symm, h.2.2.1.symm, h.2.2.2.symm⟩⟩
  | semidDs64 =>
    refine iff_of_true ?_ trivial
    have hjoin : ∀ low high : BitVec 32,
        low.setWidth 64 ||| (high.setWidth 64 <<< 32) = joinTime low high := fun low high ↦
      BitVec.or_comm _ _
    simp only [conversion, GuestTypes.semidDs64, ipcPerm64_kept, hjoin, joinTime_halves, h32]

open X86Type in
theorem meant_iff (t : X86Type) (g : t.Guest) :
    t.conversion.toHost g = t.conversion.meaning g ↔ t.Meant g := by
  have hsign : ∀ x : BitVec 32, x.setWidth 64 = x.signExtend 64 ↔ x.msb = false :=
    setWidth_eq_signExtend_iff (by decide)
  have hlimit : ∀ x : BitVec 32, x.signExtend 64 = extendLimit 64 x ↔
      x.msb = false ∨ x = BitVec.allOnes 32 :=
    signExtend_eq_extendLimit_iff (by decide) (by decide)
  cases t with
  | rlimit => simp only [conversion, GuestTypes.rlimit, Rlimit.mk.injEq, hlimit, Meant]
  | iovec => exact iff_of_true rfl trivial
  | timespec => simp only [conversion, GuestTypes.timespec, Timespec.mk.injEq, hsign, Meant]
  | timeval => simp only [conversion, GuestTypes.timeval, Timeval.mk.injEq, hsign, Meant]
  | epollEvent => exact iff_of_true rfl trivial
  | shmidDs64 =>
    refine iff_of_true ?_ trivial
    simp only [conversion, GuestTypes.shmidDs64, joinTime_eq]
    rfl
  | shmidDs32 =>
    have hperm : ∀ p, ipcPerm32.toHost p = ipcPerm32.meaning p := fun _ ↦ rfl
    simp only [conversion, GuestTypes.shmidDs32, hperm, ShmidDs.mk.injEq, hsign, Meant, true_and,
      and_true]
  | semidDs32 =>
    have hperm : ∀ p, ipcPerm32.toHost p = ipcPerm32.meaning p := fun _ ↦ rfl
    simp only [conversion, GuestTypes.semidDs32, hperm, SemidDs.mk.injEq, hsign, Meant, true_and,
      and_true]
  | semidDs64 =>
    refine iff_of_true ?_ trivial
    have hjoin : ∀ low high : BitVec 32,
        low.setWidth 64 ||| (high.setWidth 64 <<< 32) = (high ++ low : BitVec 64) := fun low high ↦
      (BitVec.or_comm _ _).trans (joinTime_eq low high)
    simp only [conversion, GuestTypes.semidDs64, hjoin]
    rfl

open X86Type in
theorem fits_iff (t : X86Type) (h : t.Host) :
    t.conversion.ofHost h = t.conversion.nearest h ↔ t.Fits h := by
  cases t with
  | rlimit =>
    simp only [conversion, GuestTypes.rlimit, X86Rlimit.mk.injEq, setWidth_eq_saturateUnsigned_iff,
      Fits]
  | iovec =>
    simp only [conversion, GuestTypes.iovec, X86Iovec.mk.injEq, setWidth_eq_saturateUnsigned_iff,
      Fits]
  | timespec =>
    simp only [conversion, GuestTypes.timespec, X86Timespec.mk.injEq,
      setWidth_eq_saturateSigned_iff, Fits]
  | timeval =>
    simp only [conversion, GuestTypes.timeval, X86Timeval.mk.injEq, setWidth_eq_saturateSigned_iff,
      Fits]
  | epollEvent => exact iff_of_true rfl trivial
  | shmidDs64 =>
    simp only [conversion, GuestTypes.shmidDs64, X86ShmidDs64.mk.injEq, ipcPerm64_fits,
      setWidth_eq_saturateUnsigned_iff, extract_low, extract_high, Fits, true_and]
  | shmidDs32 =>
    simp only [conversion, GuestTypes.shmidDs32, X86ShmidDs32.mk.injEq, ipcPerm32_fits,
      setWidth_eq_saturateUnsigned_iff, setWidth_eq_saturateSigned_iff, Fits]
  | semidDs32 =>
    simp only [conversion, GuestTypes.semidDs32, X86SemidDs32.mk.injEq, ipcPerm32_fits,
      setWidth_eq_saturateUnsigned_iff, setWidth_eq_saturateSigned_iff, Fits, true_and]
  | semidDs64 =>
    simp only [conversion, GuestTypes.semidDs64, X86SemidDs64.mk.injEq, ipcPerm64_fits,
      setWidth_eq_saturateUnsigned_iff, extract_low, extract_high, Fits, true_and]

/-! ## `x86_sysinfo` -/

/-- The fields that count units of memory. -/
inductive Amount
  | totalram
  | freeram
  | sharedram
  | bufferram
  | totalswap
  | freeswap
  | totalhigh
  | freehigh
deriving DecidableEq, Repr

/-- `struct sysinfo`. -/
structure Sysinfo where
  uptime : BitVec 64
  loads : Fin 3 → BitVec 64
  amount : Amount → BitVec 64
  procs : BitVec 16
  memUnit : BitVec 32

structure X86Sysinfo where
  uptime : BitVec 32
  loads : Fin 3 → BitVec 32
  amount : Amount → BitVec 32
  procs : BitVec 16
  memUnit : BitVec 32

/-- The loop that doubles the unit, for as many rounds: the unit and how often it was doubled. -/
def scale : ℕ → BitVec 32 → ℕ → Option (BitVec 32 × ℕ)
  | 0, _, _ => none
  | rounds + 1, unit, shift =>
    if unit < 4096 then scale rounds (unit <<< 1) (shift + 1) else some (unit, shift)

/-- The constructor of `x86_sysinfo`. -/
def X86Sysinfo.ofHost (rounds : ℕ) (h : Sysinfo) : Option X86Sysinfo := do
  let (unit, shift) ←
    if h.amount .totalram >>> 32 ≠ 0 ∨ h.amount .totalswap >>> 32 ≠ 0 then scale rounds h.memUnit 0
    else some (h.memUnit, 0)
  some
    { uptime := (if (0x7fffffff : BitVec 64).slt h.uptime then 0x7fffffff else h.uptime).setWidth 32
      loads := fun i ↦
        (if BitVec.allOnes 64 < h.loads i then BitVec.allOnes 64 else h.loads i).setWidth 32
      amount := fun f ↦ (h.amount f >>> shift).setWidth 32
      procs := h.procs
      memUnit := unit }

/-- An amount in bytes. -/
def Sysinfo.bytes (h : Sysinfo) (f : Amount) : ℕ := (h.amount f).toNat * h.memUnit.toNat

/-- The guest gets the amounts rounded down to its unit, and the nearest values of the other
fields. -/
def Sysinfo.Faithful (h : Sysinfo) : Prop :=
  ∃ rounds g, X86Sysinfo.ofHost rounds h = some g ∧
    (∀ f, (g.amount f).toNat * g.memUnit.toNat = h.bytes f / g.memUnit.toNat * g.memUnit.toNat) ∧
    (∀ i, g.loads i = saturateUnsigned 32 (h.loads i)) ∧
    g.uptime = saturateSigned 32 h.uptime ∧ g.procs = h.procs

/-- The unit is changed. -/
def Sysinfo.Big (h : Sysinfo) : Prop :=
  2 ^ 32 ≤ (h.amount .totalram).toNat ∨ 2 ^ 32 ≤ (h.amount .totalswap).toNat

instance (h : Sysinfo) : Decidable h.Big := inferInstanceAs (Decidable (_ ∨ _))

/-- How often the unit is doubled, from the position of its highest bit. -/
def Sysinfo.doublings (h : Sysinfo) : ℕ := if h.Big then 12 - Nat.log2 h.memUnit.toNat else 0

structure Sysinfo.Fits (h : Sysinfo) : Prop where
  unit : h.Big → h.memUnit ≠ 0
  amount : h.memUnit ≠ 0 → ∀ f, (h.amount f).toNat < 2 ^ (32 + h.doublings)
  loads : ∀ i, FitsUnsigned 32 (h.loads i)
  uptime : h.uptime.toInt < -2 ^ 31 → h.uptime.setWidth 32 = BitVec.intMin 32

/-- A unit of zero is doubled without end. -/
theorem scale_zero (rounds shift : ℕ) : scale rounds 0 shift = none := by
  induction rounds generalizing shift with
  | zero => rfl
  | succ rounds ih => exact (if_pos (by decide)).trans (ih (shift + 1))

theorem scale_eq {unit : BitVec 32} (hunit : unit ≠ 0) (rounds shift : ℕ) :
    scale rounds unit shift = if 12 - Nat.log2 unit.toNat < rounds then
      some (unit <<< (12 - Nat.log2 unit.toNat), shift + (12 - Nat.log2 unit.toNat)) else none := by
  induction rounds generalizing unit shift with
  | zero => rfl
  | succ rounds ih =>
    have hpos : unit.toNat ≠ 0 := fun h ↦ hunit (BitVec.eq_of_toNat_eq h)
    have hlt : unit < 4096 ↔ Nat.log2 unit.toNat < 12 := by
      rw [Nat.log2_lt hpos]
      exact BitVec.lt_def
    rw [scale]
    by_cases h : unit < 4096
    · have hlog := hlt.mp h
      have hnat : (unit <<< 1).toNat = 2 * unit.toNat := by
        have hbound : unit.toNat < 4096 := h
        rw [BitVec.toNat_shiftLeft, Nat.shiftLeft_eq]
        omega
      have hne : unit <<< 1 ≠ 0 := by
        intro hzero
        rw [hzero] at hnat
        exact hpos (by simpa using hnat.symm)
      have hnext : Nat.log2 (unit <<< 1).toNat = Nat.log2 unit.toNat + 1 := by
        rw [hnat, Nat.log2_two_mul hpos]
      obtain ⟨d, hd⟩ : ∃ d, 12 - Nat.log2 unit.toNat = d + 1 := ⟨11 - Nat.log2 unit.toNat, by omega⟩
      rw [if_pos h, ih hne, hnext, hd, show 12 - (Nat.log2 unit.toNat + 1) = d by omega,
        Nat.add_comm d 1, BitVec.shiftLeft_add, ← Nat.add_assoc, Nat.add_comm 1 d]
      simp only [Nat.add_lt_add_iff_right]
    · have hlog : 12 - Nat.log2 unit.toNat = 0 := by
        have := mt hlt.mpr h
        omega
      rw [if_neg h, hlog, if_pos (Nat.succ_pos rounds), BitVec.shiftLeft_zero, Nat.add_zero]

namespace Sysinfo

variable {h : Sysinfo} {g : X86Sysinfo} {rounds : ℕ}

/-- The result, with the unit in closed form. -/
def converted (h : Sysinfo) : X86Sysinfo where
  uptime := (if (0x7fffffff : BitVec 64).slt h.uptime then 0x7fffffff else h.uptime).setWidth 32
  loads i := (if BitVec.allOnes 64 < h.loads i then BitVec.allOnes 64 else h.loads i).setWidth 32
  amount f := (h.amount f >>> h.doublings).setWidth 32
  procs := h.procs
  memUnit := h.memUnit <<< h.doublings

theorem shr_ne_zero_iff (x : BitVec 64) : x >>> 32 ≠ 0 ↔ 2 ^ 32 ≤ x.toNat := by
  rw [ne_eq, ← BitVec.toNat_inj, BitVec.toNat_ushiftRight, Nat.shiftRight_eq_div_pow]
  change ¬ x.toNat / 2 ^ 32 = 0 ↔ _
  omega

theorem big_iff (h : Sysinfo) :
    (h.amount .totalram >>> 32 ≠ 0 ∨ h.amount .totalswap >>> 32 ≠ 0) ↔ h.Big :=
  or_congr (shr_ne_zero_iff _) (shr_ne_zero_iff _)

theorem ofHost_eq (h : Sysinfo) (rounds : ℕ) : X86Sysinfo.ofHost rounds h =
    if h.Big ∧ (h.memUnit = 0 ∨ rounds ≤ h.doublings) then none else some h.converted := by
  rw [X86Sysinfo.ofHost]
  simp only [big_iff]
  by_cases hbig : h.Big
  · have hdoublings : h.doublings = 12 - Nat.log2 h.memUnit.toNat := if_pos hbig
    simp only [hbig, if_true, true_and]
    by_cases hunit : h.memUnit = 0
    · simp only [hunit, scale_zero, true_or, if_true]
      rfl
    · rw [scale_eq hunit, ← hdoublings]
      by_cases hlt : h.doublings < rounds
      · simp only [hlt, hunit, not_le.mpr hlt, if_true, or_self, if_false, Nat.zero_add]
        rfl
      · simp only [hlt, not_lt.mp hlt, or_true, if_true, if_false]
        rfl
  · have hdoublings : h.doublings = 0 := if_neg hbig
    simp only [hbig, if_false, false_and, converted, hdoublings, BitVec.shiftLeft_zero]
    rfl

/-- The constructor returns unless it doubles a unit of zero. -/
theorem exists_ofHost_iff : (∃ rounds, X86Sysinfo.ofHost rounds h = some g) ↔
    (h.Big → h.memUnit ≠ 0) ∧ g = h.converted := by
  constructor
  · rintro ⟨rounds, hg⟩
    rw [ofHost_eq] at hg
    split at hg
    · cases hg
    · next hnot => exact ⟨fun hbig hzero ↦ hnot ⟨hbig, .inl hzero⟩, (Option.some_inj.mp hg).symm⟩
  · rintro ⟨hunit, rfl⟩
    refine ⟨h.doublings + 1, ?_⟩
    rw [ofHost_eq, if_neg]
    rintro ⟨hbig, hzero | hle⟩
    · exact hunit hbig hzero
    · omega

/-- Doubling the unit loses no bit of it. -/
theorem toNat_shl_doublings (h : Sysinfo) :
    (h.memUnit <<< h.doublings).toNat = h.memUnit.toNat * 2 ^ h.doublings := by
  rw [BitVec.toNat_shiftLeft, Nat.shiftLeft_eq]
  apply Nat.mod_eq_of_lt
  rw [doublings]
  split
  · rcases Nat.eq_zero_or_pos h.memUnit.toNat with hzero | hpos
    · rw [hzero, Nat.zero_mul]
      decide
    · by_cases hlog : Nat.log2 h.memUnit.toNat < 12
      · have hlt : h.memUnit.toNat < 2 ^ (Nat.log2 h.memUnit.toNat + 1) :=
          (Nat.log2_lt (by omega)).mp (Nat.lt_succ_self _)
        calc h.memUnit.toNat * 2 ^ (12 - Nat.log2 h.memUnit.toNat)
            < 2 ^ (Nat.log2 h.memUnit.toNat + 1) * 2 ^ (12 - Nat.log2 h.memUnit.toNat) :=
              Nat.mul_lt_mul_of_pos_right hlt (Nat.two_pow_pos _)
          _ = 2 ^ 13 := by
              rw [← Nat.pow_add]
              congr 1
              omega
          _ ≤ 2 ^ 32 := by decide
      · rw [show 12 - Nat.log2 h.memUnit.toNat = 0 by omega, Nat.pow_zero, Nat.mul_one]
        exact h.memUnit.isLt
  · rw [Nat.pow_zero, Nat.mul_one]
    exact h.memUnit.isLt

theorem amount_iff (h : Sysinfo) (f : Amount) :
    (h.converted.amount f).toNat * h.converted.memUnit.toNat =
        h.bytes f / h.converted.memUnit.toNat * h.converted.memUnit.toNat ↔
      (h.memUnit ≠ 0 → (h.amount f).toNat < 2 ^ (32 + h.doublings)) := by
  have hunit : h.converted.memUnit.toNat = h.memUnit.toNat * 2 ^ h.doublings :=
    toNat_shl_doublings h
  have hamount : (h.converted.amount f).toNat = (h.amount f).toNat / 2 ^ h.doublings % 2 ^ 32 := by
    rw [converted, BitVec.toNat_setWidth, BitVec.toNat_ushiftRight, Nat.shiftRight_eq_div_pow]
  rw [hunit, hamount, bytes]
  by_cases hzero : h.memUnit = 0
  · rw [hzero]
    simp
  · have hpos : 0 < h.memUnit.toNat :=
      Nat.pos_of_ne_zero fun hnat ↦ hzero (BitVec.eq_of_toNat_eq hnat)
    have hpow := Nat.two_pow_pos h.doublings
    rw [Nat.mul_comm (h.amount f).toNat, Nat.mul_div_mul_left _ _ hpos,
      Nat.mul_left_inj (Nat.mul_pos hpos hpow).ne', Nat.mod_eq_iff_lt (Nat.two_pow_pos 32).ne',
      Nat.div_lt_iff_lt_mul hpow, ← Nat.pow_add]
    exact ⟨fun hlt _ ↦ hlt, fun hlt ↦ hlt hzero⟩

theorem loads_iff (h : Sysinfo) (i : Fin 3) :
    h.converted.loads i = saturateUnsigned 32 (h.loads i) ↔ FitsUnsigned 32 (h.loads i) := by
  have hcut : h.converted.loads i = (h.loads i).setWidth 32 := by
    have hle : ¬ BitVec.allOnes 64 < h.loads i := by
      rw [BitVec.lt_def, BitVec.toNat_allOnes]
      omega
    simp only [converted, hle, if_false]
  rw [hcut, setWidth_eq_saturateUnsigned_iff]

theorem uptime_iff (h : Sysinfo) : h.converted.uptime = saturateSigned 32 h.uptime ↔
    (h.uptime.toInt < -2 ^ 31 → h.uptime.setWidth 32 = BitVec.intMin 32) := by
  have hmax : (0x7fffffff : BitVec 64).toInt = 2 ^ 31 - 1 := by decide
  rw [converted, saturateSigned, BitVec.slt_eq_decide, hmax]
  dsimp only
  by_cases hhigh : 2 ^ 31 - 1 < h.uptime.toInt
  · rw [decide_eq_true hhigh, if_pos rfl, if_neg (by omega), if_pos (by omega)]
    exact iff_of_true (by decide) fun hlow ↦ absurd hlow (by omega)
  · rw [decide_eq_false hhigh, if_neg Bool.false_ne_true]
    by_cases hlow : h.uptime.toInt < -2 ^ 31
    · rw [if_pos hlow]
      exact ⟨fun heq _ ↦ heq, fun heq ↦ heq hlow⟩
    · rw [if_neg hlow, if_neg (by omega)]
      exact iff_of_true rfl fun h' ↦ absurd h' hlow

/-- **When the guest's `sysinfo` is faithful.** -/
theorem faithful_iff (h : Sysinfo) : h.Faithful ↔ h.Fits := by
  constructor
  · rintro ⟨rounds, g, hg, hamount, hloads, huptime, -⟩
    obtain ⟨hunit, rfl⟩ := exists_ofHost_iff.mp ⟨rounds, hg⟩
    exact ⟨hunit, fun hne f ↦ (amount_iff h f).mp (hamount f) hne,
      fun i ↦ (loads_iff h i).mp (hloads i), (uptime_iff h).mp huptime⟩
  · intro hfits
    obtain ⟨rounds, hg⟩ := exists_ofHost_iff.mpr ⟨hfits.unit, rfl⟩
    exact ⟨rounds, _, hg, fun f ↦ (amount_iff h f).mpr fun hne ↦ hfits.amount hne f,
      fun i ↦ (loads_iff h i).mpr (hfits.loads i), (uptime_iff h).mpr hfits.uptime, rfl⟩

end Sysinfo

/-- **When the structures of 32-bit guests are converted faithfully**: guest to host and back, what
the host is told, what the guest is told, and `sysinfo`. -/
theorem conversion_iff (t : X86Type) (g : t.Guest) (h : t.Host) (i : Sysinfo) :
    (t.conversion.ofHost (t.conversion.toHost g) = g ↔ t.Kept g) ∧
      (t.conversion.toHost g = t.conversion.meaning g ↔ t.Meant g) ∧
      (t.conversion.ofHost h = t.conversion.nearest h ↔ t.Fits h) ∧ (i.Faithful ↔ i.Fits) :=
  ⟨kept_iff t g, meant_iff t g, fits_iff t h, Sysinfo.faithful_iff i⟩

/-- One GiB in units of 256 KiB and a load average that needs 33 bits. -/
def busyHost : Sysinfo where
  uptime := 1
  loads _ := 0x100000000
  amount _ := 4096
  procs := 1
  memUnit := 0x40000

/-- A limit of `2 ^ 31`, a second before the epoch, a size of 4 GiB and a high load. -/
theorem not_faithful :
    rlimit.toHost ⟨0x80000000, 0x80000000⟩ ≠ rlimit.meaning ⟨0x80000000, 0x80000000⟩ ∧
      timespec.toHost ⟨0xffffffff, 0⟩ ≠ timespec.meaning ⟨0xffffffff, 0⟩ ∧
      timespec.ofHost ⟨0x80000000, 0⟩ ≠ timespec.nearest ⟨0x80000000, 0⟩ ∧
      rlimit.ofHost ⟨0x100000000, 0x100000000⟩ ≠ rlimit.nearest ⟨0x100000000, 0x100000000⟩ ∧
      ¬ busyHost.Faithful := by
  refine ⟨by decide, by decide, by decide, by decide, fun h ↦ ?_⟩
  have hloads := ((Sysinfo.faithful_iff busyHost).mp h).loads 0
  exact absurd hloads (by
    rw [← setWidth_eq_saturateUnsigned_iff]
    decide)

end GuestTypes

end Felix86
