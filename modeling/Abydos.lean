import Abydos.Boot.Cxxabi
import Abydos.Boot.Handover
import Abydos.Boot.Handshake
import Abydos.Boot.Harts
import Abydos.Boot.Lifecycle
import Abydos.Boot.Preloader
import Abydos.Boot.Rootfs
import Abydos.Boot.Secondary
import Abydos.Boot.Stacks
import Abydos.Defs
import Abydos.Driver.Devicetree
import Abydos.Driver.Manager
import Abydos.Driver.Probe
import Abydos.Driver.SysMem
import Abydos.Driver.SysRoot
import Abydos.Driver.Uart
import Abydos.Fdt.Ancestors
import Abydos.Fdt.Blob
import Abydos.Fdt.Bounds
import Abydos.Fdt.Flat
import Abydos.Fdt.Helper
import Abydos.Fdt.Inside
import Abydos.Fdt.Libfdt
import Abydos.Fdt.Nodes
import Abydos.Fdt.Phandle
import Abydos.Fdt.Props
import Abydos.Fdt.Refine
import Abydos.Fdt.Search
import Abydos.Fdt.Tokens
import Abydos.Fdt.Translate
import Abydos.Fdt.Window
import Abydos.Fdt.Write
import Abydos.Lib.Frame
import Abydos.Lib.Interleave
import Abydos.Lib.Keeps
import Abydos.Lib.Numeral
import Abydos.Lib.Partial
import Abydos.Lib.Preorder
import Abydos.Lib.Program
import Abydos.Lib.Radix
import Abydos.Lib.Riscv
import Abydos.Lib.Script
import Abydos.Lib.Tiling
import Abydos.Lib.Word
import Abydos.Lock.MallocLock
import Abydos.Lock.RetargetLock
import Abydos.Mmu.Atomic
import Abydos.Mmu.Block
import Abydos.Mmu.Blocks
import Abydos.Mmu.Calls
import Abydos.Mmu.Conflict
import Abydos.Mmu.Create
import Abydos.Mmu.Entries
import Abydos.Mmu.Exact
import Abydos.Mmu.Footprint
import Abydos.Mmu.Ownership
import Abydos.Mmu.Plan
import Abydos.Mmu.Pte
import Abydos.Mmu.Remap
import Abydos.Mmu.Rv64
import Abydos.Mmu.Slots
import Abydos.Mmu.Space
import Abydos.Mmu.Table
import Abydos.Mmu.Translate
import Abydos.Mmu.Undo
import Abydos.Mmu.Walk
import Abydos.Sched.RoundRobin
import Abydos.Trap.Ecall
import Abydos.Trap.Entry
import Abydos.Trap.Isr
import Abydos.Trap.Macros
import Abydos.Trap.ThreadPointer
import Abydos.Trap.Timer
import Abydos.Vfs.Archive
import Abydos.Vfs.Concurrent
import Abydos.Vfs.Confined
import Abydos.Vfs.Cursor
import Abydos.Vfs.Descriptors
import Abydos.Vfs.Files
import Abydos.Vfs.Libcpio
import Abydos.Vfs.Lifetime
import Abydos.Vfs.Listing
import Abydos.Vfs.Mount
import Abydos.Vfs.Mountpoint
import Abydos.Vfs.Resolve
import Abydos.Vfs.Scans
import Abydos.Vfs.Tables
import Abydos.Vfs.VirtualFS
import Abydos.Vmm.Confirm
import Abydos.Vmm.Globals
import Abydos.Vmm.Manager
import Abydos.Vmm.Resume
import Abydos.Vmm.Retry
import Abydos.Vmm.Spaces
