import Yaos.Alloc.LinearZone
import Yaos.PageTable

set_option autoImplicit false

/-! # Kernel stacks (`kernel/vm.c`, `arch/x86_64/traps.c`)

`alloc_vm_stack` takes a range of the kernel stack zone, leaves its lowest 2 MiB unmapped as a guard
and maps the top page of the rest. The pages below are mapped by the page fault handler when they are
first touched, where `check_stack` finds the address in one of the stacks that were registered. -/

namespace Yaos

open Word

/-- `struct stack_owner`. -/
structure StackOwner where
  start : Nat
  /-- A `u32`. -/
  size : Nat
  cpu : Nat
  name : String
deriving DecidableEq, Repr

/-- The zone of the kernel stacks, its page tables and the ranges on record. -/
structure Stacks where
  /-- `kernel_stack_zone`. -/
  zone : LinearZone
  tables : PgTables
  /-- How many nodes are left on `pStackFree`. -/
  spare : Nat
  /-- The nodes on `pStackHead`. -/
  owners : List StackOwner

/-- `KERNEL_STACK_ZONE_START`. -/
def kernelStackZoneStart : Nat := 0xffff810000000000

/-- `KERNEL_STACK_ZONE_SIZE`. -/
def kernelStackZoneSize : Nat := 0x10000000000

/-- `MAX_STACKS`. -/
def maxStacks : Nat := 100

/-- `init_vm`, as far as stacks are concerned, over page tables that exist already. -/
def initStacks (tables : PgTables) : Except Fault Stacks := do
  let zone ← initVmZone kernelStackZoneStart kernelStackZoneSize
  .ok { zone := zone, tables := tables, spare := maxStacks, owners := [] }

/-- `register_stack`. -/
def registerStack (s : Stacks) (start end_ : Nat) (name : String) (cpu : Nat) :
    Except Fault Stacks := do
  assert "pstack" (0 < s.spare)
  let owner := { start := start, size := wsub end_ start % 2 ^ 32, cpu := cpu, name := name }
  .ok { s with spare := s.spare - 1, owners := owner :: s.owners }

/-- `pstack->start <= addr && pstack->start + (ulong)pstack->size >= addr`: the first byte behind the
    stack, which may be in the page reserved below the next one, counts as part of it. -/
def StackOwner.holds (o : StackOwner) (addr : Nat) : Bool :=
  o.start ≤ addr && addr ≤ wadd o.start o.size

/-- `check_stack`. -/
def checkStack (s : Stacks) (addr : Nat) : Bool := s.owners.any fun o => o.holds addr

/-- `map_flags_stack()`. -/
def mapFlagsStack : Nat := pteP ||| pteW ||| ptePS

/-- Returns the lowest address of the stack, or 0. -/
def allocVmStack (s : Stacks) (size : Nat) : Except Fault (Nat × Stacks) := do
  let (p, zone) ← allocLinearZoneImpl s.zone 0 (wadd size 0x200000)
  if p = 0 then .ok (0, { s with zone := zone })
  else
    -- the lowest page is reserved for the stack overflow check
    let addr := wadd p 0x200000
    let (ret, tables) ← mapAllocAt s.tables (wsub (wadd addr size) 0x1000) 0x1000 mapFlagsStack
    if ret ≠ OK then do
      let zone ← freeLinearZone zone (wsub addr 0x200000) (wadd size 0x200000)
      .ok (0, { s with zone := zone, tables := tables })
    else .ok (addr, { s with zone := zone, tables := tables })

/-- `free_vm_stack`. -/
def freeVmStack (s : Stacks) (addr size : Nat) : Except Fault Stacks := do
  let tables ← unmapFreeAt s.tables addr size
  let zone ← freeLinearZone s.zone (wsub addr 0x200000) (wadd size 0x200000)
  .ok { s with zone := zone, tables := tables }

/-! ## The page fault handler -/

/-- What `page_fault_handler` reads of the processor: `cr2`, the stack pointer it runs on, the top of
    this processor's page fault stack, `except_count` and `tf->trapno`. -/
structure PageFault where
  cr2 : Nat
  rsp : Nat
  pgStack : Nat
  exceptCount : Nat
  trapno : Nat
deriving DecidableEq, Repr

/-- `map_page(cr2)`, where `alloc_small_phy_page_safe` answers `paddr`. What `map_4k_page_p2v` returns
    is not looked at. -/
def mapPage (s : Stacks) (cr2 paddr : Nat) : Except Fault Stacks :=
  if paddr = 0 then .error (.panic "no memory to map page fault\n")
  else do
    let (_, tables) ← map4kPageP2V s.tables paddr (alignDown 0x1000 cr2) mapFlagsStack
    .ok { s with tables := tables }

/-- A fault that is not on a stack is printed, and the processor stops. -/
def pageFaultHandler (s : Stacks) (f : PageFault) (paddr : Nat) : Except Fault Stacks :=
  if f.pgStack < f.rsp ∨ f.rsp < wsub f.pgStack 0x200000 then .error .hang
  else if f.exceptCount ≠ 0 ∧ checkStack s f.cr2 then mapPage s f.cr2 paddr
  else do
    assert "tf->trapno == 0xe" (f.trapno = 0xe)
    if checkStack s f.cr2 then mapPage s f.cr2 paddr else .error .hang

/-! ## Runs -/

/-- A stack as it was handed out: `size` bytes from `start`. -/
structure StackRange where
  start : Nat
  size : Nat
deriving DecidableEq, Repr

/-- The state of a run: the kernel's, and the stacks handed out and registered so far. -/
structure StackRun where
  kernel : Stacks
  live : List StackRange

/-- What happens to the stacks. -/
inductive StackStep
  /-- `alloc_vm_stack(size)` and `register_stack` on the range returned. -/
  | create (size : Nat) (name : String) (cpu : Nat)
  /-- A page fault, with the frame `alloc_small_phy_page_safe` has for it. -/
  | fault (f : PageFault) (paddr : Nat)
deriving DecidableEq, Repr

/-- The stack part of `create_thread_oncpu`, for a thread that has no stack yet. -/
def StackRun.create (st : StackRun) (size : Nat) (name : String) (cpu : Nat) :
    Except Fault StackRun := do
  let (addr, s) ← allocVmStack st.kernel size
  if addr = 0 then .ok { st with kernel := s }
  else do
    let s ← registerStack s addr (wadd addr size) name cpu
    .ok { kernel := s, live := { start := addr, size := size } :: st.live }

/-- One step. -/
def StackRun.step (st : StackRun) : StackStep → Except Fault StackRun
  | .create size name cpu => st.create size name cpu
  | .fault f paddr => do
      let s ← pageFaultHandler st.kernel f paddr
      .ok { st with kernel := s }

end Yaos
