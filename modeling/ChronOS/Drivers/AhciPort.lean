/-
  Drivers/AhciPort.lean --- the configuration of a port in
  `kernel/src/drivers/storage/ahci/ahci.c`.

  `dev_ahci_port_configure` takes a page for the command list, one for received
  FISes and one for the command table of each of the 32 slots, maps each of them
  and writes the addresses into the registers of the port and the headers of the
  list.  Headers are bytes of memory here; `readHeader` is the structure that the
  commands see.

  Registers read back what was written to them.  Whether the device ends the two
  waits on `cmdSts` is given from outside (`PortWaits`).
-/
import ChronOS.Drivers.Ahci
import ChronOS.Mm.PagingTables

set_option autoImplicit false

namespace ChronOS.Drivers

open ChronOS.Foundation ChronOS.Mm

def HBA_PxCMD_FRE : BitVec 32 := 1#32 <<< 4
def HBA_PxCMD_ST : BitVec 32 := 1#32 <<< 0

/-- The registers of `hba_port_t` that the configuration accesses. -/
structure HbaPort where
  commandListBase : BitVec 32
  commandListBaseUpper : BitVec 32
  fisBaseAddress : BitVec 32
  fisBaseAddressUpper : BitVec 32
  cmdSts : BitVec 32
  deriving DecidableEq, Repr

/-- `ahci_port_t`: the registers and the data buffer. -/
structure AhciPort where
  hbaPort : HbaPort
  buffer : Word
  deriving DecidableEq, Repr

/-- Whether the device clears `FR` and `CR` after a stop, and `CR` before a start. -/
structure PortWaits where
  stops : Bool
  starts : Bool

/-- `dev_ahci_stop_cmd`; `none` is a wait that does not end. -/
def devAhciStopCmd (waits : PortWaits) (port : HbaPort) : Option HbaPort :=
  let port := { port with cmdSts := port.cmdSts &&& ~~~ HBA_PxCMD_ST }
  let port := { port with cmdSts := port.cmdSts &&& ~~~ HBA_PxCMD_FRE }
  if waits.stops then some port else none

/-- `dev_ahci_start_cmd`. -/
def devAhciStartCmd (waits : PortWaits) (port : HbaPort) : Option HbaPort :=
  if waits.starts then
    let port := { port with cmdSts := port.cmdSts ||| HBA_PxCMD_FRE }
    some { port with cmdSts := port.cmdSts ||| HBA_PxCMD_ST }
  else none

/-- The flags of memory that the device accesses. -/
def DEVICE_FLAGS : Word := PAGE_NORMAL ||| PAGE_CACHE_DISABLED ||| PAGE_WRITE_THROUGH

/-- `&cmdHeader[i]`. -/
def headerAddress (cmdHeader : Word) (i : Nat) : Word := cmdHeader + BitVec.ofNat 64 (32 * i)

/-- The `hba_cmd_hdr_t` at `x`. -/
def readHeader (m : Mem) (x : Word) : CmdHeader where
  commandFISLength := (m x).setWidth 5
  write := (m x >>> 6).setWidth 1
  prdtLength := m.read 2 (x + 2)
  commandTableBaseAddress := m.read 4 (x + 8)
  commandTableBaseAddressUpper := m.read 4 (x + 12)

/-- The address of the command table of a header. -/
def CmdHeader.table (header : CmdHeader) : Word :=
  joinHalves header.commandTableBaseAddress header.commandTableBaseAddressUpper

/-- The assignments to the two address words of `cmdHeader[i]`. -/
def enterTable (cmdHeader : Word) (i : Nat) (address : Word) (m : Mem) : Mem :=
  let m := m.write (n := 4) (headerAddress cmdHeader i + 8) (address.setWidth 32)
  m.write (n := 4) (headerAddress cmdHeader i + 12) (upperHalf address)

/-- The command list as the device is told: both halves of the base. -/
def programmedBase (port : HbaPort) : Word :=
  port.commandListBase.setWidth 64 + port.commandListBaseUpper.setWidth 64 <<< 32

/-- The assignments to the two registers of the command list. -/
def setCommandList (newBase : Word) (port : HbaPort) : HbaPort :=
  { port with commandListBase := newBase.setWidth 32, commandListBaseUpper := upperHalf newBase }

/-- The assignments to the two registers of the received FISes. -/
def setFisBase (fisBase : Word) (port : HbaPort) : HbaPort :=
  { port with fisBaseAddress := fisBase.setWidth 32, fisBaseAddressUpper := upperHalf fisBase }

/-- `memset((void *)((uintptr_t)port->hbaPort->commandListBase), 0, 1024)`: the lower half
alone. -/
def clearCommandList (port : HbaPort) (m : Mem) : Mem :=
  memset m (port.commandListBase.setWidth 64) 0 1024

section Configure

variable {σ : Type} (src : PageSource σ) (pml4 : Word)

/-- A page from the allocator, mapped to itself for the device. -/
def devicePage (s : Machine σ) : Option (Word × Machine σ) := do
  let (page, pmm, mem) ← src.getpage s.pmm s.mem
  let s ← pagingMap src pml4 (page &&& 0xFFFFFFFFFFFFF000#64) (page &&& 0xFFFFFFFFFFFFF000#64)
    DEVICE_FLAGS { mem, pmm }
  return (page, s)

/-- One iteration of the loop over the slots: the page for the table, and the state after it. -/
def configureTable (cmdHeader : Word) (i : Nat) (s : Machine σ) : Option (Word × Machine σ) := do
  let s := { s with mem := s.mem.write (n := 2) (headerAddress cmdHeader i + 2) 8 }
  let (cmdTableAddress, s) ← devicePage src pml4 s
  let address := cmdTableAddress + BitVec.ofNat 64 (i <<< 8)
  let mem := enterTable cmdHeader i address s.mem
  return (cmdTableAddress, { s with mem := memset mem cmdTableAddress 0 256 })

/-- The first `n` iterations, with the pages they got. -/
def configureTables (cmdHeader : Word) : Nat → Machine σ → Option (List Word × Machine σ)
  | 0, s => some ([], s)
  | n + 1, s => do
      let (pages, s) ← configureTables cmdHeader n s
      let (page, s) ← configureTable src pml4 cmdHeader n s
      return (pages ++ [page], s)

/-- `dev_ahci_port_configure`, with the pages of the command tables. -/
def devAhciPortConfigure (waits : PortWaits) (port : HbaPort) (s : Machine σ) :
    Option (HbaPort × List Word × Machine σ) := do
  let port ← devAhciStopCmd waits port
  let (newBase, s) ← devicePage src pml4 s
  let port := setCommandList newBase port
  let s := { s with mem := clearCommandList port s.mem }
  let (fisBase, s) ← devicePage src pml4 s
  let port := setFisBase fisBase port
  let s := { s with mem := memset s.mem fisBase 0 256 }
  let (pages, s) ← configureTables src pml4 (programmedBase port) 32 s
  let port ← devAhciStartCmd waits port
  return (port, pages, s)

/-- One iteration of the last loop of `dev_ahci_init`: the buffer of a port, and its
configuration. -/
def devAhciInitPort (waits : PortWaits) (port : AhciPort) (s : Machine σ) :
    Option (AhciPort × Machine σ) := do
  let (page, pmm, mem) ← src.getpage s.pmm s.mem
  let port := { port with buffer := page }
  let mem := memset mem port.buffer 0 0x1000
  let (hbaPort, _, s) ← devAhciPortConfigure src pml4 waits port.hbaPort { mem, pmm }
  return ({ port with hbaPort }, s)

end Configure

/-! ## Runs of the configuration -/

section Progress

variable {σ : Type} {src : PageSource σ} {n : Nat} {s : Machine σ}

theorem devicePage_eq_some {s' : Machine σ} {pml4 page : Word}
    (h : devicePage src pml4 s = some (page, s')) :
    ∃ pmm mem, src.getpage s.pmm s.mem = some (page, pmm, mem) ∧
      pagingMap src pml4 (page &&& 0xFFFFFFFFFFFFF000#64) (page &&& 0xFFFFFFFFFFFFF000#64)
        DEVICE_FLAGS { mem, pmm } = some s' := by
  simp only [devicePage, Option.bind_eq_bind, Option.bind_eq_some_iff] at h
  obtain ⟨⟨page, pmm, mem⟩, hget, s₁, hmap, heq⟩ := h
  cases heq
  exact ⟨pmm, mem, hget, hmap⟩

theorem devicePage_progress (h : src.Supplies (n + 4) s.pmm) (pml4 : Word) :
    ∃ page s', devicePage src pml4 s = some (page, s') ∧ src.Supplies n s'.pmm := by
  obtain ⟨page, pmm, mem, hget, hrest⟩ := h s.mem
  obtain ⟨s', hmap, hrest'⟩ := pagingMap_progress (s := ⟨mem, pmm⟩) hrest pml4
    (page &&& 0xFFFFFFFFFFFFF000#64) (page &&& 0xFFFFFFFFFFFFF000#64) DEVICE_FLAGS
  refine ⟨page, s', ?_, hrest'⟩
  simp only [devicePage, hget, hmap, Option.bind_eq_bind, Option.bind_some, Option.pure_def]

theorem configureTables_progress (pml4 cmdHeader : Word) :
    ∀ (k : Nat) {n : Nat} {s : Machine σ}, src.Supplies (n + 4 * k) s.pmm →
      ∃ pages s', configureTables src pml4 cmdHeader k s = some (pages, s') ∧
        src.Supplies n s'.pmm := by
  intro k
  induction k with
  | zero =>
    intro n s h
    exact ⟨[], s, rfl, h⟩
  | succ k ih =>
    intro n s h
    rw [Nat.mul_succ, ← Nat.add_assoc, Nat.add_right_comm] at h
    obtain ⟨pages, s₁, hloop, h₁⟩ := ih h
    obtain ⟨page, s₂, hpage, h₂⟩ := devicePage_progress (n := n) (s := { s₁ with
      mem := s₁.mem.write (n := 2) (headerAddress cmdHeader k + 2) 8 }) h₁ pml4
    set address := page + BitVec.ofNat 64 (k <<< 8) with haddress
    refine ⟨pages ++ [page],
      { s₂ with mem := memset (enterTable cmdHeader k address s₂.mem) page 0 256 }, ?_, h₂⟩
    simp only [configureTables, configureTable, hloop, hpage, haddress, Option.bind_eq_bind,
      Option.bind_some, Option.pure_def]

/-- With 136 pages the configuration of a port succeeds, unless the device keeps it waiting. -/
theorem devAhciPortConfigure_progress (h : src.Supplies 136 s.pmm) (pml4 : Word) (port : HbaPort) :
    ∃ port' pages s',
      devAhciPortConfigure src pml4 ⟨true, true⟩ port s = some (port', pages, s') := by
  obtain ⟨port₁, hstop⟩ : ∃ port₁, devAhciStopCmd ⟨true, true⟩ port = some port₁ := ⟨_, rfl⟩
  obtain ⟨newBase, s₁, hlist, h₁⟩ := devicePage_progress (n := 132) h pml4
  set port₂ := setCommandList newBase port₁ with hport₂
  obtain ⟨fisBase, s₂, hfis, h₂⟩ := devicePage_progress (n := 128)
    (s := { s₁ with mem := clearCommandList port₂ s₁.mem }) h₁ pml4
  set port₃ := setFisBase fisBase port₂ with hport₃
  obtain ⟨pages, s₃, htables, -⟩ := configureTables_progress pml4 (programmedBase port₃) 32
    (n := 0) (s := { s₂ with mem := memset s₂.mem fisBase 0 256 }) h₂
  obtain ⟨port₄, hstart⟩ : ∃ port₄, devAhciStartCmd ⟨true, true⟩ port₃ = some port₄ := ⟨_, rfl⟩
  refine ⟨port₄, pages, s₃, ?_⟩
  simp only [devAhciPortConfigure, hstop, hlist, ← hport₂, hfis, ← hport₃, htables, hstart,
    Option.bind_eq_bind, Option.bind_some, Option.pure_def]

/-- One page more for the buffer. -/
theorem devAhciInitPort_progress (h : src.Supplies 137 s.pmm) (pml4 : Word) (port : AhciPort) :
    ∃ port' s', devAhciInitPort src pml4 ⟨true, true⟩ port s = some (port', s') := by
  obtain ⟨page, pmm, mem, hget, hrest⟩ := h s.mem
  obtain ⟨hbaPort, pages, s', hconf⟩ := devAhciPortConfigure_progress
    (s := ⟨memset mem page 0 0x1000, pmm⟩) hrest pml4 port.hbaPort
  refine ⟨⟨hbaPort, page⟩, s', ?_⟩
  simp only [devAhciInitPort, hget, hconf, Option.bind_eq_bind, Option.bind_some, Option.pure_def]

theorem devAhciInitPort_buffer {pml4 : Word} {waits : PortWaits} {port port' : AhciPort}
    {s' : Machine σ} (h : devAhciInitPort src pml4 waits port s = some (port', s')) :
    ∃ pmm mem, src.getpage s.pmm s.mem = some (port'.buffer, pmm, mem) := by
  simp only [devAhciInitPort, Option.bind_eq_bind, Option.bind_eq_some_iff] at h
  obtain ⟨⟨page, pmm, mem⟩, hget, ⟨hbaPort, pages, s₁⟩, -, heq⟩ := h
  cases heq
  exact ⟨pmm, mem, hget⟩

end Progress

/-! ## A stock of pages in ascending order -/

/-- The pages `base`, `base + 0x1000` and so on. -/
def pagesFrom (base n : Nat) : List Word :=
  (List.range n).map fun i => BitVec.ofNat 64 (base + 0x1000 * i)

theorem pagesFrom_ascending {base n : Nat} (hbound : base + 0x1000 * n ≤ 2 ^ 40) :
    (pagesFrom base n).Pairwise (· < ·) := by
  refine List.pairwise_map.mpr (List.pairwise_lt_range.imp_of_mem fun hi hj hlt => ?_)
  rw [List.mem_range] at hi hj
  simp only [BitVec.lt_def, BitVec.toNat_ofNat]
  omega

theorem frameAddress_of_mem_pagesFrom {base n : Nat} (haligned : base % 4096 = 0)
    (hbound : base + 0x1000 * n ≤ 2 ^ 40) {p : Word} (hp : p ∈ pagesFrom base n) :
    FrameAddress p := by
  obtain ⟨i, hi, rfl⟩ := List.mem_map.mp hp
  rw [List.mem_range] at hi
  unfold FrameAddress PageAligned
  simp only [BitVec.toNat_ofNat]
  omega

/-- `pmm_getpage` on a machine whose free pages start at `base`. -/
def ascendingPool (base n : Nat) (haligned : base % 4096 = 0)
    (hbound : base + 0x1000 * n ≤ 2 ^ 40) : PagePool where
  pages := pagesFrom base n
  nodup := (pagesFrom_ascending hbound).imp BitVec.ne_of_lt
  frame := fun _ hp => frameAddress_of_mem_pagesFrom haligned hbound hp

theorem pagesFrom_succ (base n : Nat) :
    pagesFrom base (n + 1) = BitVec.ofNat 64 base :: pagesFrom (base + 0x1000) n := by
  simp only [pagesFrom, List.range_succ_eq_map, List.map_cons, List.map_map, Nat.mul_zero,
    Nat.add_zero, List.cons.injEq, true_and]
  refine List.map_congr_left fun i _ => congrArg (BitVec.ofNat 64) ?_
  simp only [Nat.succ_eq_add_one]
  omega

/-- The pages of the list follow each other downwards. -/
def Descending (pages : List Word) : Prop := pages.IsChain fun p q => p = q + 0x1000

theorem pagesFrom_descending (base n : Nat) : Descending (pagesFrom base n).reverse := by
  refine List.isChain_reverse.mpr (List.isChain_iff_getElem.mpr fun i hi => ?_)
  simp only [pagesFrom, List.getElem_map, List.getElem_range]
  rw [Nat.mul_succ, ← Nat.add_assoc, BitVec.ofNat_add]
  rfl

/-- The same stock, from its last page on. -/
def reversePool (pool : PagePool) : PagePool where
  pages := pool.pages.reverse
  nodup := List.nodup_reverse.mpr pool.nodup
  frame := fun p hp => pool.frame p (List.mem_reverse.mp hp)

/-- An empty memory, and free pages from `base` on. -/
def pagesMachine (base n : Nat) (haligned : base % 4096 = 0)
    (hbound : base + 0x1000 * n ≤ 2 ^ 40) : Machine PagePool where
  mem := fun _ => 0
  pmm := ascendingPool base n haligned hbound

theorem pagesMachine_supplies {base n : Nat} (haligned : base % 4096 = 0)
    (hbound : base + 0x1000 * n ≤ 2 ^ 40) :
    poolSource.Supplies n (pagesMachine base n haligned hbound).pmm :=
  poolSource_supplies n _ (by simp [pagesMachine, ascendingPool, pagesFrom])

/-- The registers of a port that was not configured yet. -/
def resetPort : HbaPort := ⟨0, 0, 0, 0, 0⟩

/-- On such a machine the configuration succeeds, and the first page is its command list. -/
theorem configure_ascending {base : Nat} (haligned : base % 4096 = 0)
    (hbound : base + 0x1000 * 136 ≤ 2 ^ 40) :
    ∃ port pages s pmm mem,
      devAhciPortConfigure poolSource 0x1000 ⟨true, true⟩ resetPort
        (pagesMachine base 136 haligned hbound) = some (port, pages, s) ∧
      poolSource.getpage (pagesMachine base 136 haligned hbound).pmm (fun _ => 0) =
        some (BitVec.ofNat 64 base, pmm, mem) := by
  obtain ⟨port, pages, s, h⟩ := devAhciPortConfigure_progress
    (pagesMachine_supplies haligned hbound) 0x1000 resetPort
  obtain ⟨p, pmm, mem, hget, -⟩ := pagesMachine_supplies haligned hbound fun _ => 0
  have hpages : pagesFrom base 136 = p :: pmm.pages := (poolSource_getpage hget).1
  rw [pagesFrom_succ] at hpages
  obtain rfl := (List.cons.inj hpages).1
  exact ⟨port, pages, s, pmm, mem, h, hget⟩

section Pool

variable {pml4 cmdHeader page : Word} {s s' : Machine PagePool}

theorem length_of_supplies : ∀ {n : Nat} {pool : PagePool}, poolSource.Supplies n pool →
    n ≤ pool.pages.length := by
  intro n
  induction n with
  | zero => exact fun _ => Nat.zero_le _
  | succ n ih =>
    intro pool h
    obtain ⟨p, pool', m', hget, hrest⟩ := h fun _ => 0
    rw [(poolSource_getpage hget).1]
    exact Nat.succ_le_succ (ih hrest)

theorem poolSource_of_cons {pool : PagePool} {p : Word} {rest : List Word}
    (h : pool.pages = p :: rest) :
    ∃ pool' : PagePool, pool'.pages = rest ∧
      ∀ m, poolSource.getpage pool m = some (p, pool', m) := by
  obtain ⟨pages, hnodup, hframe⟩ := pool
  obtain rfl : pages = p :: rest := h
  exact ⟨_, rfl, fun _ => rfl⟩

theorem nextTable_pool {t i flags c : Word}
    (h : nextTable poolSource t i flags s = some (c, s')) : s'.pmm.pages <:+ s.pmm.pages := by
  unfold nextTable at h
  dsimp only at h
  split_ifs at h
  · cases h
    exact List.suffix_rfl
  · rw [Option.map_eq_some_iff] at h
    obtain ⟨⟨page, pmm, mem⟩, hget, heq⟩ := h
    obtain ⟨-, rfl⟩ := Prod.mk.inj heq
    rw [(poolSource_getpage hget).1]
    exact List.suffix_cons _ _

theorem pagingMap_pool {dir virtual physical flags : Word}
    (h : pagingMap poolSource dir virtual physical flags s = some s') :
    s'.pmm.pages <:+ s.pmm.pages := by
  simp only [pagingMap, Option.bind_eq_bind, Option.bind_eq_some_iff, Prod.exists] at h
  obtain ⟨pdp, s₁, h₁, pd, s₂, h₂, pt, s₃, h₃, heq⟩ := h
  cases heq
  exact (nextTable_pool h₃).trans ((nextTable_pool h₂).trans (nextTable_pool h₁))

theorem devicePage_pool (h : devicePage poolSource pml4 s = some (page, s')) :
    (page :: s'.pmm.pages).Sublist s.pmm.pages := by
  obtain ⟨pmm, mem, hget, hmap⟩ := devicePage_eq_some h
  rw [(poolSource_getpage hget).1]
  exact (pagingMap_pool hmap).sublist.cons_cons page

/-- The pages of the tables are some of those in the stock, in the same order. -/
theorem configureTables_pool :
    ∀ (n : Nat) {pages : List Word} {s' : Machine PagePool},
      configureTables poolSource pml4 cmdHeader n s = some (pages, s') →
      (pages ++ s'.pmm.pages).Sublist s.pmm.pages := by
  intro n
  induction n with
  | zero =>
    intro pages s' h
    cases h
    exact List.Sublist.refl _
  | succ n ih =>
    intro pages s' h
    simp only [configureTables, configureTable, Option.bind_eq_bind, Option.bind_eq_some_iff] at h
    obtain ⟨⟨before, s₁⟩, hloop, ⟨page, s₂⟩, ⟨⟨p, s₃⟩, hpage, heq'⟩, heq⟩ := h
    obtain ⟨rfl, rfl⟩ := Prod.mk.inj (Option.some.inj heq')
    cases heq
    have hlast : (before ++ p :: s₃.pmm.pages).Sublist (before ++ s₁.pmm.pages) :=
      (devicePage_pool hpage).append_left before
    rw [List.append_assoc]
    exact hlast.trans (ih hloop)

end Pool

/-! ## The address of the command list -/

section CommandList

variable {σ : Type} {src : PageSource σ} {pml4 : Word} {waits : PortWaits}

theorem toNat_programmedBase (port : HbaPort) :
    (programmedBase port).toNat =
      port.commandListBase.toNat + 2 ^ 32 * port.commandListBaseUpper.toNat := by
  have hlow := port.commandListBase.isLt
  have hhigh := port.commandListBaseUpper.isLt
  unfold programmedBase
  simp only [BitVec.toNat_add, BitVec.toNat_setWidth, BitVec.toNat_shiftLeft, Nat.shiftLeft_eq]
  omega

theorem programmedBase_of_halves {port : HbaPort} {base : Word}
    (hlow : port.commandListBase = base.setWidth 32)
    (hhigh : port.commandListBaseUpper = upperHalf base) : programmedBase port = base := by
  apply BitVec.eq_of_toNat_eq
  rw [toNat_programmedBase, hlow, hhigh]
  simp only [upperHalf, BitVec.toNat_setWidth, BitVec.toNat_ushiftRight,
    Nat.shiftRight_eq_div_pow]
  omega

theorem devAhciPortConfigure_registers {port port' : HbaPort} {s s' : Machine σ}
    {pages : List Word}
    (h : devAhciPortConfigure src pml4 waits port s = some (port', pages, s')) :
    ∃ newBase pmm mem, src.getpage s.pmm s.mem = some (newBase, pmm, mem) ∧
      port'.commandListBase = newBase.setWidth 32 ∧
      port'.commandListBaseUpper = upperHalf newBase := by
  simp only [devAhciPortConfigure, devAhciStartCmd, Option.bind_eq_bind,
    Option.bind_eq_some_iff] at h
  obtain ⟨port₁, -, ⟨newBase, s₁⟩, hlist, ⟨fisBase, s₂⟩, -, ⟨pages, s₃⟩, -, port₂, hstart, heq⟩ := h
  obtain ⟨rfl, -, -⟩ := by simpa only [Option.pure_def, Option.some.injEq, Prod.mk.injEq] using heq
  obtain ⟨pmm, mem, hget, -⟩ := devicePage_eq_some hlist
  refine ⟨newBase, pmm, mem, hget, ?_⟩
  split_ifs at hstart
  cases hstart
  exact ⟨rfl, rfl⟩

/-- The commands fill the headers that the device is told of, and the bytes cleared at the
configuration are those of the list. -/
structure ListAgrees (port : HbaPort) (a : Ahci) : Prop where
  headers : ∀ slot < 32, driverHeader a slot = headerAddress (programmedBase port) slot
  cleared : ∀ m x, clearCommandList port m x =
    if (x - programmedBase port).toNat < 1024 then 0 else m x

theorem listAgrees_iff {port : HbaPort} {a : Ahci} (ha : a.commandListBase = port.commandListBase) :
    ListAgrees port a ↔ port.commandListBase.setWidth 64 = programmedBase port := by
  constructor
  · intro h
    have hzero := h.headers 0 (by decide)
    rwa [driverHeader, headerAddress, ha, BitVec.add_left_inj] at hzero
  · intro heq
    refine ⟨fun slot _ => ?_, fun m x => ?_⟩
    · rw [driverHeader, headerAddress, ha, heq]
    · rw [clearCommandList, heq, memset_apply _ _ _ _ _ (by decide)]

/-- After the configuration the registers hold the page that the allocator returned, and the
commands use the same list as the configuration and the device exactly when it is below 4 GiB. -/
theorem command_list_agrees_iff {port port' : HbaPort} {s s' : Machine σ} {pages : List Word}
    {newBase : Word} {pmm : σ} {mem : Mem} {a : Ahci}
    (hget : src.getpage s.pmm s.mem = some (newBase, pmm, mem))
    (h : devAhciPortConfigure src pml4 waits port s = some (port', pages, s'))
    (ha : a.commandListBase = port'.commandListBase) :
    programmedBase port' = newBase ∧ (ListAgrees port' a ↔ newBase.toNat < 2 ^ 32) := by
  obtain ⟨base, pmm', mem', hget', hlow, hhigh⟩ := devAhciPortConfigure_registers h
  obtain ⟨rfl, -⟩ := Prod.mk.inj (Option.some.inj (hget.symm.trans hget'))
  have hbase := programmedBase_of_halves hlow hhigh
  refine ⟨hbase, ?_⟩
  rw [listAgrees_iff ha, hbase, hlow, ← BitVec.toNat_inj]
  simp only [BitVec.toNat_setWidth]
  have hlt := newBase.isLt
  omega

end CommandList

/-- With its free pages from 1 MiB on the machine has one command list. -/
theorem low_list_agrees :
    ∃ port pages s, devAhciPortConfigure poolSource 0x1000 ⟨true, true⟩ resetPort
        (pagesMachine 0x100000 136 (by decide) (by decide)) = some (port, pages, s) ∧
      ∀ a : Ahci, a.commandListBase = port.commandListBase →
        programmedBase port = 0x100000 ∧ ListAgrees port a := by
  obtain ⟨port, pages, s, pmm, mem, h, hget⟩ :=
    @configure_ascending 0x100000 (by decide) (by decide)
  refine ⟨port, pages, s, h, fun a ha => ?_⟩
  obtain ⟨hbase, hiff⟩ := command_list_agrees_iff hget h ha
  exact ⟨hbase, hiff.mpr (by decide)⟩

/-- With its free pages from 4 GiB on the list is at `0x100000000`, and the commands fill headers
from address 0 on. -/
theorem high_list_disagrees :
    ∃ port pages s, devAhciPortConfigure poolSource 0x1000 ⟨true, true⟩ resetPort
        (pagesMachine 0x100000000 136 (by decide) (by decide)) = some (port, pages, s) ∧
      programmedBase port = 0x100000000 ∧ ∀ a : Ahci, a.commandListBase = port.commandListBase →
        driverHeader a 0 = 0 ∧ ¬ ListAgrees port a := by
  obtain ⟨port, pages, s, pmm, mem, h, hget⟩ :=
    @configure_ascending 0x100000000 (by decide) (by decide)
  obtain ⟨newBase, pmm', mem', hget', hlow, hhigh⟩ := devAhciPortConfigure_registers h
  obtain ⟨rfl, -⟩ := Prod.mk.inj (Option.some.inj (hget.symm.trans hget'))
  have hbase := programmedBase_of_halves hlow hhigh
  refine ⟨port, pages, s, h, hbase, fun a ha => ?_⟩
  rw [listAgrees_iff ha, hbase, driverHeader, ha, hlow]
  decide

/-! ## Pages for the device -/

section Pages

variable {σ : Type} {src : PageSource σ} {taken : σ → Set Word} {frames dirs : Set Word}
  {pml4 page : Word} {s s' : Machine σ} {owner owner' : Owner}

theorem device_flags : Present DEVICE_FLAGS ∧ NoAddressBits DEVICE_FLAGS := by decide

/-- The page that a call took from the allocator: it is no table, and neither its bytes nor those
of pages that are still not in use were written. -/
structure NewPage (taken : σ → Set Word) (frames : Set Word) (s s' : Machine σ) (owner' : Owner)
    (page : Word) : Prop where
  frame : FrameAddress page
  managed : page ∈ frames
  fresh : page ∉ taken s.pmm
  inUse : page ∈ taken s'.pmm
  notTable : owner' page = none
  bytes : ∀ q ∈ frames, PageAligned q → q = page ∨ q ∉ taken s'.pmm →
    ∀ x, InPage q x → s'.mem x = s.mem x

theorem tables_of_getpage (hlaw : src.Lawful taken) (hT : Tables dirs s.mem (taken s.pmm) owner)
    {pmm : σ} {mem : Mem} (hget : src.getpage s.pmm s.mem = some (page, pmm, mem)) :
    Tables dirs mem (taken pmm) owner := by
  have hkept := hlaw.untouched _ _ _ _ _ hget
  have hsub : taken s.pmm ⊆ taken pmm := hlaw.taken_next _ _ _ _ _ hget ▸ Set.subset_insert _ _
  exact (hT.congr fun t ht => hkept t (hT.inUse t ht) (hT.aligned t ht)).1.mono hsub

theorem devicePage_spec (hlaw : src.Lawful taken) (hquiet : src.Quiet frames)
    (hT : Tables dirs s.mem (taken s.pmm) owner) (hdir : pml4 ∈ dirs)
    (h : devicePage src pml4 s = some (page, s')) :
    ∃ owner', Grows taken dirs s s' owner owner' ∧ NewPage taken frames s s' owner' page := by
  obtain ⟨pmm, mem, hget, hmap⟩ := devicePage_eq_some h
  have hframe := hlaw.frame _ _ _ _ _ hget
  have hfresh := hlaw.fresh _ _ _ _ _ hget
  have hnext := hlaw.taken_next _ _ _ _ _ hget
  have hkept := hlaw.untouched _ _ _ _ _ hget
  have hquiet₁ := hquiet.keeps _ _ _ _ _ hget
  have hsub : taken s.pmm ⊆ taken pmm := hnext ▸ Set.subset_insert _ _
  have hinUse : page ∈ taken pmm := hnext ▸ Set.mem_insert _ _
  have hT₁ := tables_of_getpage hlaw hT hget
  have hnone : owner page = none := hT.owner_eq_none hfresh
  obtain ⟨owner', hgrows, -⟩ := pagingMap_spec hlaw hT₁ hdir device_flags.1 device_flags.2 hmap
  refine ⟨owner', ⟨hgrows.tables, hsub.trans hgrows.taken_mono, hgrows.owner_mono,
    fun t ht => hgrows.owner_new t (hsub ht), fun p hp haligned ho x hx => ?_⟩,
    ⟨hframe, hquiet.returns _ _ _ _ _ hget, hfresh, hgrows.taken_mono hinUse,
      hgrows.owner_new page hinUse hnone, fun q hq haligned hcase x hx => ?_⟩⟩
  · exact (hgrows.outside p (hsub hp) haligned ho x hx).trans (hkept p hp haligned x hx)
  · refine Eq.trans ?_ (hquiet₁ q hq x hx)
    rcases hcase with rfl | hunused
    · exact hgrows.outside q hinUse haligned hnone x hx
    · exact pagingMap_unused hlaw hquiet hT₁ hdir device_flags.1 device_flags.2 hmap hq haligned
        hunused hx

end Pages

/-! ## Headers -/

section Headers

variable {m m' : Mem} {cmdHeader : Word}

/-- The table of slot `i`, as the header in memory says. -/
def slotTable (cmdHeader : Word) (m : Mem) (i : Nat) : Word :=
  (readHeader m (headerAddress cmdHeader i)).table

theorem slotTable_congr {i : Nat}
    (h : ∀ k < 32, m' (headerAddress cmdHeader i + BitVec.ofNat 64 k) =
      m (headerAddress cmdHeader i + BitVec.ofNat 64 k)) :
    slotTable cmdHeader m' i = slotTable cmdHeader m i := by
  have hword : ∀ off : Nat, off + 4 ≤ 32 →
      m'.read 4 (headerAddress cmdHeader i + BitVec.ofNat 64 off) =
        m.read 4 (headerAddress cmdHeader i + BitVec.ofNat 64 off) := by
    intro off hoff
    apply Mem.read_congr
    intro k hk
    rw [BitVec.add_assoc, ← BitVec.ofNat_add]
    exact h (off + k) (by omega)
  exact congrArg₂ joinHalves (hword 8 (by decide)) (hword 12 (by decide))

theorem inPage_header {i : Nat} (hi : i < 32) {k : Nat} (hk : k < 32) :
    InPage cmdHeader (headerAddress cmdHeader i + BitVec.ofNat 64 k) := by
  unfold InPage headerAddress
  rw [BitVec.add_assoc, ← BitVec.ofNat_add, toNat_offset cmdHeader (by omega)]
  omega

/-- A memory that differs in the header of slot `i` only. -/
structure SameButHeader (cmdHeader : Word) (i : Nat) (m m' : Mem) : Prop where
  outside : ∀ x, ¬ InPage cmdHeader x → m' x = m x
  others : ∀ j < 32, j ≠ i → ∀ k < 32, m' (headerAddress cmdHeader j + BitVec.ofNat 64 k) =
    m (headerAddress cmdHeader j + BitVec.ofNat 64 k)

theorem SameButHeader.trans {i : Nat} {m'' : Mem} (h : SameButHeader cmdHeader i m m')
    (h' : SameButHeader cmdHeader i m' m'') : SameButHeader cmdHeader i m m'' where
  outside := fun x hx => (h'.outside x hx).trans (h.outside x hx)
  others := fun j hj hne k hk => (h'.others j hj hne k hk).trans (h.others j hj hne k hk)

theorem header_write (m : Mem) (cmdHeader : Word) {i : Nat} (hi : i < 32) (off : Nat) {n : Nat}
    (hoff : off + n ≤ 32) (v : BitVec (8 * n)) :
    SameButHeader cmdHeader i m
      (m.write (headerAddress cmdHeader i + BitVec.ofNat 64 off) v) := by
  refine ⟨fun x hx => Mem.write_of_ge ?_, fun j hj hne k hk => Mem.write_of_ge ?_⟩
  · unfold InPage at hx
    unfold headerAddress
    bv_omega
  · unfold headerAddress
    bv_omega

theorem enterTable_sameButHeader (m : Mem) (cmdHeader address : Word) {i : Nat} (hi : i < 32) :
    SameButHeader cmdHeader i m (enterTable cmdHeader i address m) :=
  (header_write m cmdHeader hi 8 (by decide : 8 + 4 ≤ 32) (address.setWidth 32)).trans
    (header_write _ cmdHeader hi 12 (by decide : 12 + 4 ≤ 32) (upperHalf address))

theorem slotTable_enterTable (m : Mem) (cmdHeader address : Word) (i : Nat) :
    slotTable cmdHeader (enterTable cmdHeader i address m) i = address := by
  have hlow : (enterTable cmdHeader i address m).read 4 (headerAddress cmdHeader i + 8) =
      address.setWidth 32 := by
    refine (Mem.read_congr fun k hk => Mem.write_of_ge ?_).trans
      (Mem.read_write_self (n := 4) m (by decide) (headerAddress cmdHeader i + 8) _)
    bv_omega
  have hhigh : (enterTable cmdHeader i address m).read 4 (headerAddress cmdHeader i + 12) =
      upperHalf address := Mem.read_write_self (n := 4) _ (by decide) _ _
  exact (congrArg₂ joinHalves hlow hhigh).trans (joinHalves_upperHalf address)

end Headers

/-! ## Command tables -/

section CommandTables

variable {σ : Type} {src : PageSource σ} {taken : σ → Set Word} {frames dirs : Set Word}
  {pml4 cmdHeader page : Word} {s s' : Machine σ} {owner owner' : Owner}

/-- The command list is a page in use that is no table. -/
structure ListPage (taken : σ → Set Word) (cmdHeader : Word) (s : Machine σ) (owner : Owner) :
    Prop where
  aligned : PageAligned cmdHeader
  inUse : cmdHeader ∈ taken s.pmm
  notTable : owner cmdHeader = none

/-- A page that was taken since `s`, and of which the first 256 bytes are cleared. -/
structure Entered (taken : σ → Set Word) (s s' : Machine σ) (owner' : Owner) (page : Word) :
    Prop where
  frame : FrameAddress page
  fresh : page ∉ taken s.pmm
  inUse : page ∈ taken s'.pmm
  notTable : owner' page = none
  cleared : ∀ x, InPage page x → s'.mem x = if (x - page).toNat < 256 then 0 else s.mem x

/-- One iteration: a page is taken, entered into the header of the slot and cleared up to its
first 256 bytes; other headers, and pages that are not in use, stay as they are. -/
structure TableStep (taken : σ → Set Word) (frames dirs : Set Word) (cmdHeader : Word) (i : Nat)
    (s s' : Machine σ) (owner owner' : Owner) (page : Word) : Prop
    extends Entered taken s s' owner' page where
  tables : Tables dirs s'.mem (taken s'.pmm) owner'
  taken_mono : taken s.pmm ⊆ taken s'.pmm
  owner_new : ∀ t ∈ taken s.pmm, owner t = none → owner' t = none
  managed : page ∈ frames
  table : slotTable cmdHeader s'.mem i = page + BitVec.ofNat 64 (i <<< 8)
  others : ∀ j < 32, j ≠ i → slotTable cmdHeader s'.mem j = slotTable cmdHeader s.mem j
  used : ∀ q ∈ taken s.pmm, PageAligned q → owner q = none → q ≠ cmdHeader →
    ∀ x, InPage q x → s'.mem x = s.mem x
  unused : ∀ q ∈ frames, PageAligned q → q ∉ taken s'.pmm → ∀ x, InPage q x → s'.mem x = s.mem x

theorem memset_of_not_inPage {m : Mem} {x : Word} {n : Nat} (hn : n ≤ 0x1000)
    (h : ¬ InPage page x) : memset m page 0 n x = m x := by
  rw [memset_apply m page 0 x n (by omega), if_neg]
  unfold InPage at h
  omega

theorem clear_of_not_inPage {m : Mem} {x : Word} (h : ¬ InPage page x) :
    memset m page 0 256 x = m x := memset_of_not_inPage (by decide) h

theorem tables_of_enter {m : Mem} {used : Set Word} (hT : Tables dirs m used owner)
    (hlist : PageAligned cmdHeader ∧ owner cmdHeader = none)
    (hpage : PageAligned page ∧ owner page = none) (address : Word) {i : Nat} (hi : i < 32) :
    Tables dirs (memset (enterTable cmdHeader i address m) page 0 256) used owner := by
  have henter := enterTable_sameButHeader m cmdHeader address hi
  have hT₁ := (hT.congr_page hlist.1 hlist.2 henter.outside).1
  exact (hT₁.congr_page hpage.1 hpage.2 fun x hx => clear_of_not_inPage hx).1

theorem configureTable_spec (hlaw : src.Lawful taken) (hquiet : src.Quiet frames)
    (hT : Tables dirs s.mem (taken s.pmm) owner) (hdir : pml4 ∈ dirs)
    (hlist : ListPage taken cmdHeader s owner) {i : Nat} (hi : i < 32)
    (h : configureTable src pml4 cmdHeader i s = some (page, s')) :
    ∃ owner', TableStep taken frames dirs cmdHeader i s s' owner owner' page := by
  obtain ⟨hlistAligned, hlistUsed, hlistNone⟩ := hlist
  simp only [configureTable, Option.bind_eq_bind, Option.bind_eq_some_iff] at h
  obtain ⟨⟨p, s₂⟩, hpage, heq⟩ := h
  cases heq
  -- the length is written into the header, then the page is taken, then the address is written
  have hlength := header_write s.mem cmdHeader hi 2 (by decide : 2 + 2 ≤ 32) 8
  set m₁ := s.mem.write (n := 2) (headerAddress cmdHeader i + BitVec.ofNat 64 2) 8
  have hT₁ := (hT.congr_page hlistAligned hlistNone hlength.outside).1
  obtain ⟨owner', hgrows, hnew⟩ :=
    devicePage_spec (s := ⟨m₁, s.pmm⟩) hlaw hquiet hT₁ hdir hpage
  have hne : p ≠ cmdHeader := fun heq => hnew.fresh (heq ▸ hlistUsed)
  have hlistNone' : owner' cmdHeader = none := hgrows.owner_new _ hlistUsed hlistNone
  set address := p + BitVec.ofNat 64 (i <<< 8)
  have henter := enterTable_sameButHeader s₂.mem cmdHeader address hi
  have hother : ∀ {q x : Word}, PageAligned q → InPage q x → q ≠ cmdHeader →
      ¬ InPage cmdHeader x :=
    fun haligned hx hqne hin => hqne (InPage.unique haligned hlistAligned hx hin)
  -- the page is not the one of the list, so clearing it leaves the headers alone
  have hheader : ∀ j < 32, ∀ k < 32, ¬ InPage p (headerAddress cmdHeader j + BitVec.ofNat 64 k) :=
    fun j hj k hk hin =>
      hne (InPage.unique hnew.frame.1 hlistAligned hin (inPage_header hj hk))
  have hkeep : ∀ {q x : Word}, PageAligned q → InPage q x → q ≠ cmdHeader → q ≠ p →
      s₂.mem x = m₁ x → memset (enterTable cmdHeader i address s₂.mem) p 0 256 x = s.mem x := by
    intro q x haligned hx hqlist hqp hsame
    have hnot := hother haligned hx hqlist
    rw [clear_of_not_inPage fun hin => hqp (InPage.unique haligned hnew.frame.1 hx hin),
      henter.outside x hnot, hsame]
    exact hlength.outside x hnot
  refine ⟨owner',
    { tables := tables_of_enter hgrows.tables ⟨hlistAligned, hlistNone'⟩
        ⟨hnew.frame.1, hnew.notTable⟩ address hi
      taken_mono := hgrows.taken_mono, owner_new := hgrows.owner_new, frame := hnew.frame
      managed := hnew.managed, fresh := hnew.fresh, inUse := hnew.inUse
      notTable := hnew.notTable, table := ?_, others := ?_, cleared := ?_, used := ?_
      unused := ?_ }⟩
  · intro x hx
    have hnot := hother hnew.frame.1 hx hne
    dsimp only
    rw [memset_apply _ _ _ _ _ (by decide), henter.outside x hnot,
      hnew.bytes p hnew.managed hnew.frame.1 (Or.inl rfl) x hx]
    exact if_congr Iff.rfl rfl (hlength.outside x hnot)
  · exact (slotTable_congr fun k hk => clear_of_not_inPage (hheader i hi k hk)).trans
      (slotTable_enterTable s₂.mem cmdHeader address i)
  · intro j hj hji
    refine slotTable_congr fun k hk => ?_
    dsimp only
    rw [clear_of_not_inPage (hheader j hj k hk), henter.others j hj hji k hk,
      hgrows.outside cmdHeader hlistUsed hlistAligned hlistNone _ (inPage_header hj hk)]
    exact hlength.others j hj hji k hk
  · intro q hq haligned hnone hqne x hx
    exact hkeep haligned hx hqne (fun heq => hnew.fresh (heq ▸ hq))
      (hgrows.outside q hq haligned hnone x hx)
  · intro q hq haligned hunused x hx
    refine hkeep haligned hx ?_ ?_ (hnew.bytes q hq haligned (Or.inr hunused) x hx)
    · rintro rfl
      exact hunused (hgrows.taken_mono hlistUsed)
    · rintro rfl
      exact hunused hnew.inUse

/-- The invariant of the loop, after the iterations for `pages`. -/
structure Configured (taken : σ → Set Word) (frames dirs : Set Word) (cmdHeader : Word)
    (s₀ s : Machine σ) (owner : Owner) (pages : List Word) : Prop where
  tables : Tables dirs s.mem (taken s.pmm) owner
  listPage : ListPage taken cmdHeader s owner
  listOld : cmdHeader ∈ taken s₀.pmm
  taken_mono : taken s₀.pmm ⊆ taken s.pmm
  nodup : pages.Nodup
  entered : ∀ p ∈ pages, Entered taken s₀ s owner p
  table : ∀ i p, pages[i]? = some p → slotTable cmdHeader s.mem i = p + BitVec.ofNat 64 (i <<< 8)
  unused : ∀ q ∈ frames, PageAligned q → q ∉ taken s.pmm → ∀ x, InPage q x → s.mem x = s₀.mem x

theorem Configured.start (hT : Tables dirs s.mem (taken s.pmm) owner)
    (hlist : ListPage taken cmdHeader s owner) :
    Configured taken frames dirs cmdHeader s s owner [] where
  tables := hT
  listPage := hlist
  listOld := hlist.inUse
  taken_mono := subset_rfl
  nodup := List.nodup_nil
  entered := by simp
  table := by simp
  unused := fun _ _ _ _ _ _ => rfl

theorem Configured.step {s₀ : Machine σ} {pages : List Word}
    (h : Configured taken frames dirs cmdHeader s₀ s owner pages) (hlen : pages.length < 32)
    (hstep : TableStep taken frames dirs cmdHeader pages.length s s' owner owner' page) :
    Configured taken frames dirs cmdHeader s₀ s' owner' (pages ++ [page]) := by
  obtain ⟨hlistAligned, hlistUsed, hlistNone⟩ := h.listPage
  constructor
  case tables => exact hstep.tables
  case listPage =>
    exact ⟨hlistAligned, hstep.taken_mono hlistUsed, hstep.owner_new _ hlistUsed hlistNone⟩
  case listOld => exact h.listOld
  case taken_mono => exact h.taken_mono.trans hstep.taken_mono
  case nodup =>
    refine List.nodup_append.mpr ⟨h.nodup, List.nodup_singleton _, fun p hp q hq heq => ?_⟩
    rw [List.mem_singleton.mp hq] at heq
    exact hstep.fresh (heq ▸ (h.entered p hp).inUse)
  case entered =>
    intro p hp
    rcases List.mem_append.mp hp with hp | hp
    · obtain ⟨hframe, hfresh, hinUse, hnone, hcleared⟩ := h.entered p hp
      have hne : p ≠ cmdHeader := fun heq => hfresh (heq ▸ h.listOld)
      exact ⟨hframe, hfresh, hstep.taken_mono hinUse, hstep.owner_new p hinUse hnone,
        fun x hx => (hstep.used p hinUse hframe.1 hnone hne x hx).trans (hcleared x hx)⟩
    · obtain rfl := List.mem_singleton.mp hp
      refine ⟨hstep.frame, fun hin => hstep.fresh (h.taken_mono hin), hstep.inUse, hstep.notTable,
        fun x hx => (hstep.cleared x hx).trans ?_⟩
      exact if_congr Iff.rfl rfl (h.unused p hstep.managed hstep.frame.1 hstep.fresh x hx)
  case table =>
    intro i p hp
    rcases Nat.lt_or_ge i pages.length with hlt | hge
    · rw [List.getElem?_append_left hlt] at hp
      rw [hstep.others i (by omega) (by omega)]
      exact h.table i p hp
    · rw [List.getElem?_append_right hge, List.getElem?_singleton] at hp
      split_ifs at hp with hi
      cases hp
      obtain rfl : i = pages.length := by omega
      exact hstep.table
  case unused =>
    intro q hq haligned hunused x hx
    rw [hstep.unused q hq haligned hunused x hx]
    exact h.unused q hq haligned (fun hin => hunused (hstep.taken_mono hin)) x hx

theorem configureTables_configured (hlaw : src.Lawful taken) (hquiet : src.Quiet frames)
    (hT : Tables dirs s.mem (taken s.pmm) owner) (hdir : pml4 ∈ dirs)
    (hlist : ListPage taken cmdHeader s owner) :
    ∀ (n : Nat) {pages : List Word} {s' : Machine σ}, n ≤ 32 →
      configureTables src pml4 cmdHeader n s = some (pages, s') →
      pages.length = n ∧ ∃ owner', Configured taken frames dirs cmdHeader s s' owner' pages := by
  intro n
  induction n with
  | zero =>
    intro pages s' _ h
    cases h
    exact ⟨rfl, owner, Configured.start hT hlist⟩
  | succ n ih =>
    intro pages s' hn h
    simp only [configureTables, Option.bind_eq_bind, Option.bind_eq_some_iff] at h
    obtain ⟨⟨before, s₁⟩, hloop, ⟨page, s₂⟩, hlast, heq⟩ := h
    cases heq
    obtain ⟨rfl, owner₁, hconf⟩ := ih (by omega) hloop
    obtain ⟨owner₂, hstep⟩ :=
      configureTable_spec hlaw hquiet hconf.tables hdir hconf.listPage (by omega) hlast
    exact ⟨by simp, owner₂, hconf.step (by omega) hstep⟩

/-! ### Pages that need no further table -/

/-- The addresses of the first 2 MiB share their page table. -/
theorem path_low {v : Word} (hv : v.toNat < 2 ^ 21) : (path v).take 3 = [0, 0, 0] := by
  have hzero : ∀ k, 21 ≤ k → (v >>> k).setWidth 9 = 0#9 := by
    intro k hk
    have hlt : v.toNat < 2 ^ k := Nat.lt_of_lt_of_le hv (Nat.pow_le_pow_right (by decide) hk)
    apply BitVec.eq_of_toNat_eq
    rw [BitVec.toNat_setWidth, BitVec.toNat_ushiftRight, Nat.shiftRight_eq_div_pow,
      Nat.div_eq_of_lt hlt]
    rfl
  simp only [path, List.take, hzero 39 (by decide), hzero 30 (by decide), hzero 21 (by decide)]
  rfl

section Low

variable {pt : Word} {pmm : σ} {mem : Mem}

/-- Where that table exists, a page of the first 2 MiB is mapped without another one. -/
theorem devicePage_low (hlaw : src.Lawful taken) (hT : Tables dirs s.mem (taken s.pmm) owner)
    (hdir : pml4 ∈ dirs) (hown : owner pt = some (pml4, [0, 0, 0]))
    (hget : src.getpage s.pmm s.mem = some (page, pmm, mem)) (hlow : page.toNat < 2 ^ 21) :
    ∃ m, devicePage src pml4 s = some (page, ⟨m, pmm⟩) ∧ Tables dirs m (taken pmm) owner := by
  have hT₁ := tables_of_getpage hlaw hT hget
  have hmasked : (page &&& 0xFFFFFFFFFFFFF000#64).toNat < 2 ^ 21 :=
    Nat.lt_of_le_of_lt Nat.and_le_left hlow
  have hpt := hT₁.forest.linked _ _ _ hown
  rw [← path_low hmasked] at hpt
  obtain ⟨m, hmap, hT₂, -⟩ := @pagingMap_of_walk _ src _ ⟨mem, pmm⟩ _ _ hT₁ pml4 _
    (page &&& 0xFFFFFFFFFFFFF000#64) _ _ hdir hpt device_flags.1
  refine ⟨m, ?_, hT₂⟩
  simp only [devicePage, hget, hmap, Option.bind_eq_bind, Option.bind_some, Option.pure_def]

theorem configureTable_low (hlaw : src.Lawful taken) (hT : Tables dirs s.mem (taken s.pmm) owner)
    (hdir : pml4 ∈ dirs) (hown : owner pt = some (pml4, [0, 0, 0]))
    (hlist : ListPage taken cmdHeader s owner) {i : Nat} (hi : i < 32)
    (hget : ∀ m, ∃ m', src.getpage s.pmm m = some (page, pmm, m')) (hlow : page.toNat < 2 ^ 21) :
    ∃ m, configureTable src pml4 cmdHeader i s = some (page, ⟨m, pmm⟩) ∧
      Tables dirs m (taken pmm) owner ∧ ListPage taken cmdHeader ⟨m, pmm⟩ owner := by
  obtain ⟨hlistAligned, hlistUsed, hlistNone⟩ := hlist
  have hlength := header_write s.mem cmdHeader hi 2 (by decide : 2 + 2 ≤ 32) 8
  obtain ⟨mem, hget⟩ := hget (s.mem.write (n := 2) (headerAddress cmdHeader i + 2) 8)
  have hT₁ := (hT.congr_page hlistAligned hlistNone hlength.outside).1
  obtain ⟨m, hpage, hT₂⟩ := devicePage_low (s := { s with
    mem := s.mem.write (n := 2) (headerAddress cmdHeader i + 2) 8 }) hlaw hT₁ hdir hown hget hlow
  have hnone : owner page = none := hT.owner_eq_none (hlaw.fresh _ _ _ _ _ hget)
  have hinUse : cmdHeader ∈ taken pmm :=
    hlaw.taken_next _ _ _ _ _ hget ▸ Set.mem_insert_of_mem _ hlistUsed
  refine ⟨_, ?_, tables_of_enter hT₂ ⟨hlistAligned, hlistNone⟩
    ⟨(hlaw.frame _ _ _ _ _ hget).1, hnone⟩ (page + BitVec.ofNat 64 (i <<< 8)) hi,
    ⟨hlistAligned, hinUse, hlistNone⟩⟩
  simp only [configureTable, hpage, Option.bind_eq_bind, Option.bind_some, Option.pure_def]

/-- The loop then gets the pages of the stock in order, without a gap. -/
theorem configureTables_low {s : Machine PagePool}
    (hT : Tables dirs s.mem (PagePool.taken s.pmm) owner) (hdir : pml4 ∈ dirs)
    (hown : owner pt = some (pml4, [0, 0, 0])) (hlist : ListPage PagePool.taken cmdHeader s owner)
    (hlow : ∀ p ∈ s.pmm.pages, p.toNat < 2 ^ 21) :
    ∀ n ≤ 32, n ≤ s.pmm.pages.length →
      ∃ m pmm, configureTables poolSource pml4 cmdHeader n s =
          some (s.pmm.pages.take n, ⟨m, pmm⟩) ∧ pmm.pages = s.pmm.pages.drop n ∧
        Tables dirs m (PagePool.taken pmm) owner ∧
        ListPage PagePool.taken cmdHeader ⟨m, pmm⟩ owner := by
  intro n
  induction n with
  | zero =>
    intro _ _
    exact ⟨s.mem, s.pmm, rfl, rfl, hT, hlist⟩
  | succ n ih =>
    intro hn hlen
    obtain ⟨m₁, pmm₁, hloop, hdrop, hT₁, hlist₁⟩ := ih (by omega) (by omega)
    obtain ⟨page, hat⟩ : ∃ page, s.pmm.pages[n]? = some page :=
      ⟨_, List.getElem?_eq_getElem (by omega)⟩
    have hpages : pmm₁.pages = page :: s.pmm.pages.drop (n + 1) := by
      rw [hdrop, List.drop_eq_getElem?_toList_append, hat]
      rfl
    obtain ⟨pmm, hrest, hget⟩ := poolSource_of_cons hpages
    obtain ⟨m, hlast, hT₂, hlist₂⟩ := configureTable_low poolSource_lawful hT₁ hdir hown hlist₁
      (Nat.lt_of_succ_le hn) (fun m => ⟨m, hget m⟩) (hlow page (List.mem_of_getElem? hat))
    refine ⟨m, pmm, ?_, hrest, hT₂, hlist₂⟩
    rw [List.take_add_one, hat]
    simp only [configureTables, hloop, hlast, Option.bind_eq_bind, Option.bind_some,
      Option.pure_def, Option.toList_some]

end Low

/-! ### Where the tables are -/

/-- `x` is one of the 256 bytes of the command table at `table`. -/
def InTable (table x : Word) : Prop := (x - table).toNat < 256

instance (table x : Word) : Decidable (InTable table x) := inferInstanceAs (Decidable (_ < _))

/-- The tables are pairwise disjoint, each lies in one of the pages, and all are zero. -/
structure OwnTables (table : Nat → Word) (pages : List Word) (m : Mem) : Prop where
  disjoint : ∀ i < 32, ∀ j < 32, i ≠ j → ∀ x, ¬ (InTable (table i) x ∧ InTable (table j) x)
  inside : ∀ i < 32, ∃ p ∈ pages, ∀ x, InTable (table i) x → InPage p x
  zero : ∀ i < 32, ∀ x, InTable (table i) x → m x = 0

/-- What the pages of the loop have to be like: the table of slot `i + 16`, which is one page
further on, is not that of slot `i`; that page is one of the 32 as well; and the memory of the
tables which are not at the beginning of their page was zero. -/
structure PagesFit (pages : List Word) (m : Mem) : Prop where
  apart : ∀ i p q, pages[i]? = some p → pages[i + 16]? = some q → p ≠ q + 0x1000
  next : ∀ i p, 16 ≤ i → pages[i]? = some p → p + 0x1000 ∈ pages
  blank : ∀ i p, i % 16 ≠ 0 → pages[i]? = some p →
    ∀ x, InTable (p + BitVec.ofNat 64 (i <<< 8)) x → m x = 0

/-- The page that the table of slot `i` is in: that of the slot, or the one behind it. -/
def homePage (i : Nat) (p : Word) : Word := if i < 16 then p else p + 0x1000

theorem homePage_aligned {p : Word} (hp : FrameAddress p) (i : Nat) :
    PageAligned (homePage i p) := by
  obtain ⟨haligned, hlt⟩ := hp
  unfold homePage PageAligned at *
  split_ifs <;> bv_omega

theorem inTable_iff {p : Word} {i : Nat} (hi : i < 32) (x : Word) :
    InTable (p + BitVec.ofNat 64 (i <<< 8)) x ↔
      256 * (i % 16) ≤ (x - homePage i p).toNat ∧
        (x - homePage i p).toNat < 256 * (i % 16) + 256 := by
  unfold InTable homePage
  rw [Nat.shiftLeft_eq]
  split_ifs with hlow
  · have hmod : i % 16 = i := Nat.mod_eq_of_lt hlow
    bv_omega
  · have hmod : i % 16 = i - 16 := by omega
    bv_omega

theorem inPage_of_inTable {p x : Word} {i : Nat} (hi : i < 32)
    (hx : InTable (p + BitVec.ofNat 64 (i <<< 8)) x) : InPage (homePage i p) x := by
  have hoff := (inTable_iff hi x).mp hx
  unfold InPage
  omega

/-- Two tables meet only when they are in the same place of the same page. -/
theorem table_meet {p q x : Word} {i j : Nat} (hp : FrameAddress p) (hq : FrameAddress q)
    (hi : i < 32) (hj : j < 32) (hx : InTable (p + BitVec.ofNat 64 (i <<< 8)) x)
    (hx' : InTable (q + BitVec.ofNat 64 (j <<< 8)) x) :
    homePage i p = homePage j q ∧ i % 16 = j % 16 := by
  have hhome := InPage.unique (homePage_aligned hp i) (homePage_aligned hq j)
    (inPage_of_inTable hi hx) (inPage_of_inTable hj hx')
  have hoff := (inTable_iff hi x).mp hx
  have hoff' := (inTable_iff hj x).mp hx'
  rw [hhome] at hoff
  exact ⟨hhome, by omega⟩

theorem homePage_mem {pages : List Word} {i : Nat} {p : Word}
    (hnext : 16 ≤ i → p + 0x1000 ∈ pages) (hp : pages[i]? = some p) : homePage i p ∈ pages := by
  unfold homePage
  split_ifs with hlow
  · exact List.mem_of_getElem? hp
  · exact hnext (by omega)

section Fit

variable {s₀ : Machine σ} {pages : List Word}

/-- Of a table in one of the pages, the loop clears what is at the beginning of the page. -/
theorem Configured.table_bytes (h : Configured taken frames dirs cmdHeader s₀ s owner pages)
    {i : Nat} {p : Word} (hi : i < 32) (hhome : homePage i p ∈ pages) {x : Word}
    (hx : InTable (p + BitVec.ofNat 64 (i <<< 8)) x) :
    s.mem x = if i % 16 = 0 then 0 else s₀.mem x := by
  have hoff := (inTable_iff hi x).mp hx
  rw [(h.entered _ hhome).cleared x (inPage_of_inTable hi hx)]
  refine if_congr ?_ rfl rfl
  omega

theorem Configured.pagesFit (h : Configured taken frames dirs cmdHeader s₀ s owner pages)
    (hlen : pages.length = 32) (hown : OwnTables (slotTable cmdHeader s.mem) pages s.mem) :
    PagesFit pages s₀.mem := by
  have hlt : ∀ {i p}, pages[i]? = some p → i < 32 := by
    intro i p hp
    rw [← hlen]
    exact (List.getElem?_eq_some_iff.mp hp).1
  have hself : ∀ t : Word, InTable t t := by simp [InTable]
  have hnext : ∀ i p, 16 ≤ i → pages[i]? = some p → p + 0x1000 ∈ pages := by
    intro i p hi hp
    obtain ⟨q, hq, hin⟩ := hown.inside i (hlt hp)
    rw [h.table i p hp] at hin
    have hhome := inPage_of_inTable (hlt hp) (hself (p + BitVec.ofNat 64 (i <<< 8)))
    have heq := InPage.unique (h.entered q hq).frame.1
      (homePage_aligned (h.entered p (List.mem_of_getElem? hp)).frame i) (hin _ (hself _)) hhome
    rw [heq, homePage, if_neg (by omega)] at hq
    exact hq
  refine ⟨fun i p q hp hq heq => ?_, hnext, fun i p hmod hp x hx => ?_⟩
  · have hsame : q + BitVec.ofNat 64 ((i + 16) <<< 8) = p + BitVec.ofNat 64 (i <<< 8) := by
      rw [heq, Nat.shiftLeft_eq, Nat.shiftLeft_eq]
      bv_omega
    have hi := hlt hq
    refine hown.disjoint i (by omega) (i + 16) hi (by omega) (p + BitVec.ofNat 64 (i <<< 8)) ?_
    rw [h.table i p hp, h.table (i + 16) q hq, hsame]
    exact ⟨hself _, hself _⟩
  · have hzero := hown.zero i (hlt hp) x
    rw [h.table i p hp, h.table_bytes (hlt hp) (homePage_mem (fun hi => hnext i p hi hp) hp) hx,
      if_neg hmod] at hzero
    exact hzero hx

theorem Configured.ownTables (h : Configured taken frames dirs cmdHeader s₀ s owner pages)
    (hlen : pages.length = 32) (hfit : PagesFit pages s₀.mem) :
    OwnTables (slotTable cmdHeader s.mem) pages s.mem := by
  have hpage : ∀ i < 32, ∃ p, pages[i]? = some p ∧ FrameAddress p := by
    intro i hi
    have hp : pages[i]? = some (pages[i]) := List.getElem?_eq_getElem (by omega)
    exact ⟨_, hp, (h.entered _ (List.mem_of_getElem? hp)).frame⟩
  refine ⟨fun i hi j hj hne x hx => ?_, fun i hi => ?_, fun i hi x hx => ?_⟩
  · obtain ⟨p, hp, hframe⟩ := hpage i hi
    obtain ⟨q, hq, hframe'⟩ := hpage j hj
    rw [h.table i p hp, h.table j q hq] at hx
    obtain ⟨hhome, hmod⟩ := table_meet hframe hframe' hi hj hx.1 hx.2
    -- the same place in a page is shared by slots `i` and `i + 16` only
    rcases Nat.lt_or_gt_of_ne hne with hlt | hgt
    · obtain rfl : j = i + 16 := by omega
      rw [homePage, homePage, if_pos (by omega), if_neg (by omega)] at hhome
      exact hfit.apart i p q hp hq hhome
    · obtain rfl : i = j + 16 := by omega
      rw [homePage, homePage, if_neg (by omega), if_pos (by omega)] at hhome
      exact hfit.apart j q p hq hp hhome.symm
  · obtain ⟨p, hp, -⟩ := hpage i hi
    refine ⟨homePage i p, homePage_mem (fun hge => hfit.next i p hge hp) hp, fun x hx => ?_⟩
    rw [h.table i p hp] at hx
    exact inPage_of_inTable hi hx
  · obtain ⟨p, hp, -⟩ := hpage i hi
    rw [h.table i p hp] at hx
    rw [h.table_bytes hi (homePage_mem (fun hge => hfit.next i p hge hp) hp) hx]
    split_ifs with hmod
    · rfl
    · exact hfit.blank i p hmod hp x hx

end Fit

/-! ### Ascending pages -/

/-- The page at the end of an ascending list is the highest. -/
theorem le_of_ascending {pages : List Word} (hasc : pages.Pairwise (· < ·)) {n : Nat} {p q : Word}
    (hlen : pages.length = n + 1) (hlast : pages[n]? = some q) (hp : p ∈ pages) :
    p.toNat ≤ q.toNat := by
  obtain ⟨i, hi, rfl⟩ := List.getElem_of_mem hp
  obtain ⟨hn, rfl⟩ := List.getElem?_eq_some_iff.mp hlast
  rcases Nat.lt_or_ge i n with hlt | hge
  · have hlt := BitVec.lt_def.mp (List.pairwise_iff_getElem.mp hasc i n hi hn hlt)
    omega
  · obtain rfl : i = n := by omega
    exact Nat.le_refl _

/-- The page behind the last of ascending pages is none of them, and the last table is there. -/
theorem not_pagesFit_of_ascending {pages : List Word} {m : Mem} (hlen : pages.length = 32)
    (hframe : ∀ p ∈ pages, FrameAddress p) (hasc : pages.Pairwise (· < ·)) :
    ¬ PagesFit pages m := by
  intro hfit
  have hlast : pages[31]? = some (pages[31]) := List.getElem?_eq_getElem (by omega)
  have hle := le_of_ascending hasc hlen hlast (hfit.next 31 _ (by decide) hlast)
  have hlt := (hframe _ (List.mem_of_getElem? hlast)).2
  bv_omega

/-- Descending pages fit: the page behind that of a slot is the one of the slot before. -/
theorem pagesFit_of_descending {pages : List Word} {m : Mem} (hlen : pages.length = 32)
    (hnodup : pages.Nodup) (hdesc : Descending pages)
    (hzero : ∀ q ∈ pages, ∀ x, InPage q x → m x = 0) : PagesFit pages m := by
  have hprev : ∀ i q, pages[i + 1]? = some q → pages[i]? = some (q + 0x1000) := by
    intro i q hq
    obtain ⟨hi, rfl⟩ := List.getElem?_eq_some_iff.mp hq
    rw [List.getElem?_eq_getElem (by omega), ← List.IsChain.getElem hdesc i hi]
  have hnext : ∀ i p, 16 ≤ i → pages[i]? = some p → p + 0x1000 ∈ pages := by
    intro i p hi hp
    obtain ⟨j, rfl⟩ : ∃ j, i = j + 1 := ⟨i - 1, by omega⟩
    exact List.mem_of_getElem? (hprev j p hp)
  refine ⟨fun i p q hp hq heq => ?_, hnext, fun i p _ hp x hx => ?_⟩
  · have hsame : pages[i]? = pages[i + 15]? := by rw [hp, heq, hprev (i + 15) q hq]
    have hi : i < pages.length := (List.getElem?_eq_some_iff.mp hp).1
    have hindex := (List.getElem?_inj hi hnodup).mp hsame
    omega
  · have hi : i < pages.length := (List.getElem?_eq_some_iff.mp hp).1
    exact hzero _ (homePage_mem (fun hge => hnext i p hge hp) hp) x
      (inPage_of_inTable (hlen ▸ hi) hx)

/-- The command tables that the loop enters into the headers have their own memory exactly when
the pages it got fit. -/
theorem command_tables_own_memory_iff (hlaw : src.Lawful taken) (hquiet : src.Quiet frames)
    (hT : Tables dirs s.mem (taken s.pmm) owner) (hdir : pml4 ∈ dirs)
    (hlist : ListPage taken cmdHeader s owner) {pages : List Word}
    (h : configureTables src pml4 cmdHeader 32 s = some (pages, s')) :
    OwnTables (slotTable cmdHeader s'.mem) pages s'.mem ↔ PagesFit pages s.mem := by
  obtain ⟨hlen, owner', hconf⟩ :=
    configureTables_configured hlaw hquiet hT hdir hlist 32 (Nat.le_refl _) h
  exact ⟨hconf.pagesFit hlen, hconf.ownTables hlen⟩

/-- A call of `dev_ahci_port_configure` whose command list is below 4 GiB runs the loop on that
list, a page of its own, so its command tables have their own memory exactly when the pages fit;
and they are the tables that the commands find in the headers. -/
theorem devAhciPortConfigure_tables (hlaw : src.Lawful taken) (hquiet : src.Quiet frames)
    (hT : Tables dirs s.mem (taken s.pmm) owner) (hdir : pml4 ∈ dirs) {waits : PortWaits}
    {port port' : HbaPort} {pages : List Word}
    (h : devAhciPortConfigure src pml4 waits port s = some (port', pages, s'))
    (hlow : (programmedBase port').toNat < 2 ^ 32) :
    (∃ s₁, configureTables src pml4 (programmedBase port') 32 s₁ = some (pages, s') ∧
      (OwnTables (slotTable (programmedBase port') s'.mem) pages s'.mem ↔
        PagesFit pages s₁.mem)) ∧
    ∀ a : Ahci, a.commandListBase = port'.commandListBase → a.cmdHeaders = readHeader s'.mem →
      ∀ slot < 32, (a.cmdHeaders (driverHeader a slot)).table =
        slotTable (programmedBase port') s'.mem slot := by
  simp only [devAhciPortConfigure, devAhciStartCmd, Option.bind_eq_bind,
    Option.bind_eq_some_iff] at h
  obtain ⟨port₁, -, ⟨newBase, s₁⟩, hlist, ⟨fisBase, s₂⟩, hfis, ⟨pages', s₃⟩, hloop, port₂, hstart,
    heq⟩ := h
  cases heq
  dsimp only at hfis hloop
  obtain ⟨hlower, hupper⟩ : port'.commandListBase = newBase.setWidth 32 ∧
      port'.commandListBaseUpper = upperHalf newBase := by
    split_ifs at hstart
    cases hstart
    exact ⟨rfl, rfl⟩
  rw [programmedBase_of_halves hlower hupper] at hlow ⊢
  have hfull : (newBase.setWidth 32).setWidth 64 = newBase := by
    apply BitVec.eq_of_toNat_eq
    simp only [BitVec.toNat_setWidth]
    omega
  -- the list and the page of the received FISes are cleared, which leaves the tables alone
  obtain ⟨owner₁, hgrows₁, hnew₁⟩ := devicePage_spec hlaw hquiet hT hdir hlist
  have hT₁ := (hgrows₁.tables.congr_page hnew₁.frame.1 hnew₁.notTable fun x hx =>
    memset_of_not_inPage (by decide : 1024 ≤ 0x1000) hx).1
  rw [clearCommandList, setCommandList, hfull] at hfis
  obtain ⟨owner₂, hgrows₂, hnew₂⟩ := devicePage_spec (s := ⟨_, s₁.pmm⟩) hlaw hquiet hT₁ hdir hfis
  have hT₂ := (hgrows₂.tables.congr_page hnew₂.frame.1 hnew₂.notTable fun x hx =>
    clear_of_not_inPage hx).1
  have hpage : ListPage taken newBase ⟨memset s₂.mem fisBase 0 256, s₂.pmm⟩ owner₂ :=
    ⟨hnew₁.frame.1, hgrows₂.taken_mono hnew₁.inUse,
      hgrows₂.owner_new _ hnew₁.inUse hnew₁.notTable⟩
  rw [@programmedBase_of_halves (setFisBase fisBase _) newBase rfl rfl] at hloop
  obtain ⟨hlen, owner', hconf⟩ :=
    configureTables_configured hlaw hquiet hT₂ hdir hpage 32 (Nat.le_refl _) hloop
  refine ⟨⟨_, hloop, hconf.pagesFit hlen, hconf.ownTables hlen⟩, fun a ha hheaders slot _ => ?_⟩
  rw [hheaders, driverHeader, ha, hlower, hfull]
  rfl

end CommandTables

/-- An empty directory and a page for the command list, with free pages from 1 MiB on. -/
theorem emptyMachine_tables {pool : PagePool} (hpages : ∀ p ∈ pool.pages, 0x100000 ≤ p.toNat) :
    ∃ owner, Tables {0x1000} (fun _ => 0) (PagePool.taken pool) owner ∧
      ListPage PagePool.taken 0x2000 ⟨fun _ => 0, pool⟩ owner := by
  have hused : ∀ p : Word, p.toNat < 0x100000 → p ∈ PagePool.taken pool :=
    fun p hp hmem => absurd (hpages p hmem) (by omega)
  refine ⟨_, Tables.of_zero (fun d hd => ?_) (fun d hd => hused d ?_) fun _ _ _ _ => rfl,
    ⟨by decide, hused _ (by decide), ?_⟩⟩
  · rw [Set.mem_singleton_iff.mp hd]
    decide
  · rw [Set.mem_singleton_iff.mp hd]
    decide
  · exact if_neg (by simp)

/-- A machine that hands out its last pages first. -/
def descendingMachine : Machine PagePool where
  mem := fun _ => 0
  pmm := reversePool (ascendingPool 0x100000 35 (by decide) (by decide))

theorem descendingMachine_bounds {p : Word} (hp : p ∈ descendingMachine.pmm.pages) :
    0x100000 ≤ p.toNat ∧ p.toNat < 2 ^ 21 := by
  obtain ⟨i, hi, rfl⟩ := List.mem_map.mp (List.mem_reverse.mp hp)
  rw [List.mem_range] at hi
  rw [BitVec.toNat_ofNat]
  omega

/-- Mapping one page creates the page table of the first 2 MiB; at least 32 pages are left. -/
theorem descendingMachine_mapped :
    ∃ s owner pt, pagingMap poolSource 0x1000 0 0 DEVICE_FLAGS descendingMachine = some s ∧
      Tables {0x1000} s.mem (PagePool.taken s.pmm) owner ∧
      ListPage PagePool.taken 0x2000 s owner ∧ owner pt = some (0x1000, [0, 0, 0]) ∧
      s.pmm.pages <:+ descendingMachine.pmm.pages ∧ 32 ≤ s.pmm.pages.length ∧
      ∀ q ∈ s.pmm.pages, ∀ x, InPage q x → s.mem x = 0 := by
  obtain ⟨owner, hT, hlist⟩ := emptyMachine_tables fun p hp => (descendingMachine_bounds hp).1
  have hdir : (0x1000 : Word) ∈ ({0x1000} : Set Word) := Set.mem_singleton _
  have hsupply : poolSource.Supplies (32 + 3) descendingMachine.pmm :=
    poolSource_supplies _ _ (by simp [descendingMachine, reversePool, ascendingPool, pagesFrom])
  obtain ⟨s, hmap, hrest⟩ := pagingMap_progress hsupply 0x1000 0 0 DEVICE_FLAGS
  obtain ⟨owner', hgrows, hwalk⟩ :=
    pagingMap_spec poolSource_lawful hT hdir device_flags.1 device_flags.2 hmap
  have hmapped := hwalk 0x1000 hdir 0
  rw [if_pos ⟨rfl, rfl⟩] at hmapped
  obtain ⟨pt, hpt⟩ := table_of_pageWalk hmapped
  rw [path_low (by decide)] at hpt
  refine ⟨s, owner', pt, hmap, hgrows.tables, ⟨hlist.aligned, hgrows.taken_mono hlist.inUse,
    hgrows.owner_new _ hlist.inUse hlist.notTable⟩,
    hgrows.tables.forest.owner_of_walk hdir hpt (by decide), pagingMap_pool hmap,
    length_of_supplies hrest, fun q hq x hx => ?_⟩
  exact pagingMap_unused poolSource_lawful poolSource_quiet hT hdir device_flags.1 device_flags.2
    hmap (Set.mem_univ q) (s.pmm.frame q hq).1 (fun htaken => htaken hq) hx

/-- With these pages the tables have their own memory. -/
theorem descending_tables_own_memory :
    ∃ s₀ pages s, pagingMap poolSource 0x1000 0 0 DEVICE_FLAGS descendingMachine = some s₀ ∧
      configureTables poolSource 0x1000 0x2000 32 s₀ = some (pages, s) ∧
      OwnTables (slotTable 0x2000 s.mem) pages s.mem := by
  obtain ⟨s₀, owner, pt, hmap, hT, hlist, hown, hsuffix, hlen, hzero⟩ := descendingMachine_mapped
  have hdir : (0x1000 : Word) ∈ ({0x1000} : Set Word) := Set.mem_singleton _
  obtain ⟨m, pmm, hloop, -⟩ := configureTables_low hT hdir hown hlist
    (fun p hp => (descendingMachine_bounds (hsuffix.subset hp)).2) 32 (Nat.le_refl _) hlen
  have hdesc : Descending s₀.pmm.pages :=
    List.IsChain.suffix (pagesFrom_descending 0x100000 35) hsuffix
  refine ⟨s₀, _, _, hmap, hloop, (command_tables_own_memory_iff poolSource_lawful
    poolSource_quiet hT hdir hlist hloop).mpr ?_⟩
  exact pagesFit_of_descending (by rw [List.length_take]; omega)
    ((List.take_sublist _ _).nodup s₀.pmm.nodup) (List.IsChain.take hdesc 32)
    fun q hq => hzero q (List.mem_of_mem_take hq)

theorem pagesMachine_bounds {p : Word}
    (hp : p ∈ (pagesMachine 0x100000 136 (by decide) (by decide)).pmm.pages) :
    0x100000 ≤ p.toNat := by
  obtain ⟨i, hi, rfl⟩ := List.mem_map.mp hp
  rw [List.mem_range] at hi
  rw [BitVec.toNat_ofNat]
  omega

/-- With ascending pages the table of the last slot is behind the last page. -/
theorem ascending_tables_leave_pages :
    ∃ pages s, configureTables poolSource 0x1000 0x2000 32
        (pagesMachine 0x100000 136 (by decide) (by decide)) = some (pages, s) ∧
      pages.Pairwise (· < ·) ∧ ¬ OwnTables (slotTable 0x2000 s.mem) pages s.mem := by
  obtain ⟨owner, hT, hlist⟩ := emptyMachine_tables fun _ hp => pagesMachine_bounds hp
  obtain ⟨pages, s, h, -⟩ := configureTables_progress 0x1000 0x2000 32 (n := 8)
    (@pagesMachine_supplies 0x100000 136 (by decide) (by decide))
  obtain ⟨hlen, owner', hconf⟩ := configureTables_configured poolSource_lawful poolSource_quiet hT
    (Set.mem_singleton _) hlist 32 (Nat.le_refl _) h
  have hasc : pages.Pairwise (· < ·) :=
    (pagesFrom_ascending (by decide)).sublist
      ((List.sublist_append_left pages _).trans (configureTables_pool 32 h))
  exact ⟨pages, s, h, hasc, fun hown =>
    not_pagesFit_of_ascending hlen (fun p hp => (hconf.entered p hp).frame) hasc
      (hconf.pagesFit hlen hown)⟩

end ChronOS.Drivers
