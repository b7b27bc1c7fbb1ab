import Rv8.Lib.Scatter
import Rv8.Lib.BitTree
import Rv8.Lib.BitField
import Rv8.Lib.Register
import Rv8.Lib.Probing
import Rv8.Lib.Calls
import Rv8.Lib.Prog
import Rv8.Lib.Log
import Rv8.Lib.X86
import Rv8.Lib.X86Memory
import Rv8.Lib.Steps
import Rv8.Lib.Turns
import Rv8.Lib.Record
import Rv8.Lib.OrderedMap
import Rv8.Lib.Limbs
import Rv8.Lib.LongDivision
import Rv8.Lib.Footprint
import Rv8.Lib.Blocks
import Rv8.Lib.Digits
import Rv8.Asm.Meta
import Rv8.Asm.Operands
import Rv8.Asm.Formats
import Rv8.Asm.Switch
import Rv8.Asm.Opcodes
import Rv8.Asm.Codec
import Rv8.Asm.RoundTrip
import Rv8.Asm.Compressed
import Rv8.Asm.Compress
import Rv8.Asm.Immediate
import Rv8.Asm.Assembler
import Rv8.Asm.Link
import Rv8.Asm.Reach
import Rv8.Asm.Pairs
import Rv8.Asm.LocalLabels
import Rv8.Asm.Operators
import Rv8.Asm.WideExact
import Rv8.Asm.WideDivision
import Rv8.Asm.LoadImm
import Rv8.Asm.Emit
import Rv8.Asm.EmitExact
import Rv8.Asm.Pseudo
import Rv8.Asm.Disasm
import Rv8.Asm.Layouts
import Rv8.Emu.Processor
import Rv8.Emu.Csr
import Rv8.Emu.Memory
import Rv8.Emu.Cache
import Rv8.Emu.CacheSets
import Rv8.Emu.CacheFlat
import Rv8.Emu.Paging
import Rv8.Emu.Mmu
import Rv8.Emu.Walk
import Rv8.Emu.WalkTurns
import Rv8.Emu.AccessedDirty
import Rv8.Emu.CachedMmu
import Rv8.Emu.TlbHistory
import Rv8.Emu.CacheBus
import Rv8.Emu.CacheRuns
import Rv8.Emu.CacheLog
import Rv8.Emu.CacheLru
import Rv8.Emu.CacheStats
import Rv8.Emu.StatsCurrent
import Rv8.Emu.Arith
import Rv8.Emu.Multiply
import Rv8.Emu.Privilege
import Rv8.Emu.Interp
import Rv8.Emu.MulDiv
import Rv8.Emu.Frame
import Rv8.Emu.Runloop
import Rv8.Emu.ZeroRegister
import Rv8.Emu.InstCache
import Rv8.Emu.Trap
import Rv8.Emu.Delivery
import Rv8.Emu.IllegalInstruction
import Rv8.Emu.Shift
import Rv8.Emu.StepBound
import Rv8.Emu.Permissions
import Rv8.Emu.TrapVectors
import Rv8.Emu.FloatCsr
import Rv8.Emu.CsrViews
import Rv8.Emu.Proxy
import Rv8.Emu.ProxyBrk
import Rv8.Emu.ProxyStack
import Rv8.Emu.Reservation
import Rv8.Emu.Fetch
import Rv8.Emu.StraddlingFetch
import Rv8.Emu.UserMode
import Rv8.Emu.UserView
import Rv8.Emu.BareAccess
import Rv8.Emu.Amo
import Rv8.Emu.FloatMove
import Rv8.Emu.LoadedImm
import Rv8.Emu.PairTarget
import Rv8.Emu.Annotations
import Rv8.Emu.Segments
import Rv8.Emu.Plic
import Rv8.Emu.Windows
import Rv8.Emu.Uart
import Rv8.Emu.Htif
import Rv8.Jit.Fusion
import Rv8.Jit.TraceCache
import Rv8.Jit.Runloop
import Rv8.Jit.Emitter
import Rv8.Jit.Alu
import Rv8.Jit.Divide
import Rv8.Jit.MulHigh
import Rv8.Jit.Agrees
import Rv8.Jit.Jump
import Rv8.Jit.JumpAgrees
import Rv8.Jit.LoadStore
import Rv8.Jit.Trace
import Rv8.Jit.TraceRun
import Rv8.Jit.Passes
import Rv8.Hash.DenseHashtable
import Rv8.Hash.Refines
import Rv8.Hash.Run
import Rv8.Util.Queue
import Rv8.Util.QueueSafety
import Rv8.Util.QueueFifo
import Rv8.Util.QueueWrap
import Rv8.Elf.Format
import Rv8.Elf.File
import Rv8.Elf.Sections
import Rv8.Elf.Checks
import Rv8.Elf.Object
import Rv8.Elf.Save
import Rv8.Elf.RoundTrip
import Rv8.Elf.SymbolMaps
import Rv8.Elf.ObjectMaps
import Rv8.Meta.Bitmask
import Rv8.Meta.CodecNode
import Rv8.Meta.SwitchDecoder
import Rv8.Meta.ReadFile
import Rv8.Meta.MetaLines
