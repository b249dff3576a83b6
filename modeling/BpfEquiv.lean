import BpfEquiv.Smt.Term
import BpfEquiv.Smt.Solver
import BpfEquiv.Elf
import BpfEquiv.State
import BpfEquiv.Memory
import BpfEquiv.Alu
import BpfEquiv.Trace
import BpfEquiv.Helper
import BpfEquiv.PtrHelper
import BpfEquiv.Run
import BpfEquiv.Check
import BpfEquiv.Hoare
import BpfEquiv.Smt.Split
import BpfEquiv.Asm
import BpfEquiv.Flat
import BpfEquiv.Isa
import BpfEquiv.Coverage
import BpfEquiv.MemorySpec
import BpfEquiv.Concrete
import BpfEquiv.Operators
import BpfEquiv.MemoryModel
import BpfEquiv.Linkage
import BpfEquiv.StepData
import BpfEquiv.StepFlow
import BpfEquiv.StepLaw
import BpfEquiv.Log
import BpfEquiv.TraceSpec
import BpfEquiv.Kernel
import BpfEquiv.TailCall
import BpfEquiv.Packet
import BpfEquiv.Canon
import BpfEquiv.PerCpu
import BpfEquiv.Callback
import BpfEquiv.Driver
import BpfEquiv.Guard
import BpfEquiv.TimerScan
import BpfEquiv.Budget
import BpfEquiv.ForkRank
import BpfEquiv.PtrOps
import BpfEquiv.Adequacy
import BpfEquiv.RegionNames
import BpfEquiv.Identity
import BpfEquiv.Crc
import BpfEquiv.Ksym
import BpfEquiv.CStr
import BpfEquiv.Exc
import BpfEquiv.GlobalNames
import BpfEquiv.Shared
import BpfEquiv.LoadImage
import BpfEquiv.Btf
import BpfEquiv.CoreRelo
import BpfEquiv.BitField
import BpfEquiv.CoreField
import BpfEquiv.CoreAnon
import BpfEquiv.CorePatch
import BpfEquiv.Walk
import BpfEquiv.CoreSelf
import BpfEquiv.Subst
import BpfEquiv.TestTags
import BpfEquiv.CText
import BpfEquiv.Naked
import BpfEquiv.Scan
import BpfEquiv.Worklist
import BpfEquiv.Affected
import BpfEquiv.Gate
import BpfEquiv.DataExact
import BpfEquiv.Mangled
import BpfEquiv.Inline
import BpfEquiv.CoreModules
import BpfEquiv.CoreDecode
import BpfEquiv.CoreSizes
import BpfEquiv.CNumber
import BpfEquiv.Kconfig
import BpfEquiv.ToolHash
import BpfEquiv.GuardRun
import BpfEquiv.Lts
import BpfEquiv.Pipeline
import BpfEquiv.ReprC
import BpfEquiv.MacroBody
import BpfEquiv.SynCookie
import BpfEquiv.Glob
import BpfEquiv.PrivateSections
import BpfEquiv.CubicRoot
import BpfEquiv.ArenaLock
import BpfEquiv.Checksum
import BpfEquiv.ClsRedirect
import BpfEquiv.DepthFirst
import BpfEquiv.MapsSection
