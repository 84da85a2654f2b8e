import Felix86.Lib.Run
import Felix86.Lib.Nesting
import Felix86.Lib.Dialogue
import Felix86.Lib.ClosedRange
import Felix86.Common.Freelist
import Felix86.Common.FreelistConsolidate
import Felix86.Common.FreelistExact
import Felix86.Common.FreelistProgress
import Felix86.Hle.Mapper
import Felix86.Hle.Kernel
import Felix86.Hle.MapperAgree
import Felix86.Hle.MapReply
import Felix86.Hle.Brk
import Felix86.Hle.MapFailure
import Felix86.Hle.Fork
import Felix86.Hle.Socket32
import Felix86.Common.Segments
import Felix86.Hle.SignalMask
import Felix86.V2.HostCode
import Felix86.V2.BlockTables
import Felix86.V2.BlockFrame
import Felix86.V2.BlockLiveness
import Felix86.V2.StaleCode
import Felix86.V2.RoundingMode
import Felix86.Hle.SignalContext
import Felix86.Hle.SignalState
import Felix86.Hle.SignalResume
import Felix86.Lib.Riscv
import Felix86.Lib.Memory
import Felix86.V2.Recompiler
import Felix86.V2.HandlersArith
import Felix86.V2.HandlersShift
import Felix86.V2.HandlersMul
import Felix86.V2.HandlersData
import Felix86.V2.Instruction
import Felix86.V2.Registers
import Felix86.V2.FastPaths
import Felix86.V2.ZeroExtend
import Felix86.V2.ThreadGprs
import Felix86.V2.CompiledCopies
import Felix86.V2.HostPc
import Felix86.V2.AddressCache
import Felix86.V2.SubRegisters
import Felix86.V2.SuspendedFrames
import Felix86.V2.ControlFlags
import Felix86.V2.FlagValues
import Felix86.V2.BooleanFlags
import Felix86.V2.LockedForms
import Felix86.V2.ScanAhead
import Felix86.Lib.Paths
import Felix86.V2.VectorState
import Felix86.V2.LinkCode
import Felix86.V2.RipRegister
import Felix86.V2.LinkEncoding
import Felix86.Hle.AddressSpace
import Felix86.Hle.AltStack
import Felix86.V2.SelfModifying
import Felix86.Common.FpuState
import Felix86.Common.FpuImage
import Felix86.V2.FpuControl
import Felix86.V2.X87Stack
import Felix86.V2.StateTransfer
import Felix86.Hle.SignalFrame
import Felix86.V2.ExtensionB
import Felix86.V2.EffectiveAddress
import Felix86.Lib.Loops
import Felix86.Lib.Reservation
import Felix86.V2.AtomicLoops
import Felix86.V2.StringLoops
import Felix86.V2.EmittedCode
import Felix86.V2.BlockSize
import Felix86.V2.FlagAccess
import Felix86.V2.DeadFlags
import Felix86.Hle.GuestToHost
import Felix86.Hle.MarshalledCall
import Felix86.Lib.X86
import Felix86.V2.Outcomes
import Felix86.V2.AddSubLogic
import Felix86.V2.Shifts
import Felix86.V2.Rotates
import Felix86.V2.DoubleShifts
import Felix86.Lib.LongDivision
import Felix86.V2.WideDivision
import Felix86.V2.Division
import Felix86.V2.BitTests
import Felix86.V2.Products
import Felix86.Lib.PushDown
import Felix86.MainStack
import Felix86.Lib.Delimited
import Felix86.Hle.HostPaths
import Felix86.Common.Script
import Felix86.Hle.Execve
import Felix86.Lib.Layers
import Felix86.Common.Elf
import Felix86.Common.ElfImage
import Felix86.Lib.Truncation
import Felix86.Common.Float80
import Felix86.Lib.Positions
import Felix86.Common.PackedStrings
import Felix86.V2.ExchangeAdd
import Felix86.V2.PushPop
import Felix86.Common.FreelistSearch
import Felix86.V2.FlagsWord
import Felix86.Hle.RootfsPrefix
import Felix86.Lib.Widths
import Felix86.Hle.GuestTypes
import Felix86.Lib.Orbit
import Felix86.Lib.Dots
import Felix86.Common.Symlink
import Felix86.Hle.GuestStack
import Felix86.Hle.Pselect6
import Felix86.Lib.Elements
import Felix86.Hle.StagingBuffers
import Felix86.Lib.Lanes
import Felix86.V2.PackedShuffles
import Felix86.Lib.LaneArith
import Felix86.V2.PackedIntegers
