/-
  Pci/Pci.lean --- the enumeration of `kernel/src/pci/pci.c`.

  `pci_init` walks the allocation entries of the MCFG table, and for each the buses,
  devices and functions, in the memory-mapped configuration space.  The headers are
  a function of the address; the identification fields that the enumeration reads
  do not change while it runs.  `calls` and `drivers` record the calls of
  `enum_function` and of the drivers in their order.

  The loop over the buses stops before `end_bus`, which the table includes, and a
  bus without device 0 is left at once.  So the enumeration finds every function
  exactly when there is none on the last bus of an entry and none on a bus without
  device 0.
-/
import ChronOS.Foundation.Memory
import ChronOS.Foundation.Loop

set_option autoImplicit false

namespace ChronOS.Pci

open ChronOS.Foundation

/-! ## The enumeration -/

/-- `pci_dev_hdr_t`: the fields that `enum_function` reads. -/
structure PciDevHdr where
  vendorId : BitVec 16
  deviceId : BitVec 16
  progIf : Byte
  subclass : Byte
  cls : Byte
  deriving DecidableEq, Repr

/-- `dev_cfg_t`. -/
structure DevCfg where
  baseAddr : Word
  pciSegGroup : BitVec 16
  startBus : Byte
  endBus : Byte
  deriving DecidableEq, Repr

/-- `mcfg_t`: the length in its header, and the entries behind it. -/
structure Mcfg where
  len : BitVec 32
  entry : Nat → DevCfg

/-- A call of `enum_function`: the entry that is walked, the address, and what `current_bus`,
`current_device` and `current_func` are during the call. -/
structure EnumCall where
  entry : Nat
  address : Word
  bus : Word
  device : Word
  func : Word
  deriving DecidableEq, Repr

/-- What `enum_function` does about a device it knows. -/
inductive DriverCall
  | uhciFound
  | ahciInit (address bus device func : Word)
  | enableMsi (address : Word) (vector : Byte)
  | eduInit (address : Word)
  | e1000Init (address bus device func : Word)
  deriving DecidableEq, Repr

/-- The globals, the pages mapped so far, and the calls.  `entry` is the counter of the loop over
the table. -/
structure PciState where
  currentBus : Word
  currentDevice : Word
  currentFunc : Word
  entry : Nat
  mapped : List Word
  calls : List EnumCall
  drivers : List DriverCall

/-- `paging_map` of the page of `address` to itself. -/
def PciState.pagingMap (s : PciState) (address : Word) : PciState :=
  { s with mapped := s.mapped ++ [address &&& 0xFFFFFFFFFFFFF000#64] }

def PciState.driver (s : PciState) (call : DriverCall) : PciState :=
  { s with drivers := s.drivers ++ [call] }

/-- The part of `enum_function` that looks for known devices. -/
def enumKnown (h : PciDevHdr) (address : Word) (s : PciState) : PciState :=
  let s :=
    if h.cls = 0x0C then
      if h.subclass = 0x03 ∧ h.progIf = 0x00 then s.driver .uhciFound else s
    else if h.cls = 0x01 then
      if h.subclass = 0x06 ∧ h.progIf = 0x01 then
        s.driver (.ahciInit address s.currentBus s.currentDevice s.currentFunc)
      else s
    else s
  let s :=
    if h.vendorId = 0x1234 ∧ h.deviceId = 0x11E8 then
      (s.driver (.enableMsi address 0xA0)).driver (.eduInit address)
    else s
  if h.vendorId = 0x8086 ∧ h.deviceId = 0x100E then
    s.driver (.e1000Init address s.currentBus s.currentDevice s.currentFunc)
  else s

section Enumeration

variable (hdrAt : Word → PciDevHdr)

/-- `enum_function`. -/
def enumFunction (deviceAddress function : Word) (s : PciState) : PciState :=
  let offset := function <<< 12
  let functionAddress := deviceAddress + offset
  let s := s.pagingMap functionAddress
  let s := { s with currentFunc := function }
  let s := { s with calls := s.calls ++
    [⟨s.entry, functionAddress, s.currentBus, s.currentDevice, s.currentFunc⟩] }
  let h := hdrAt functionAddress
  if h.deviceId = 0 then s else
  if h.deviceId = 0xFFFF then s else
  enumKnown h functionAddress s

/-- `enum_dev`. -/
def enumDev (busAddress : Word) (device : BitVec 32) (s : PciState) : PciState :=
  let offset := device <<< 15
  let deviceAddress := busAddress + offset.setWidth 64
  let s := s.pagingMap deviceAddress
  let s := { s with currentDevice := device.setWidth 64 }
  let h := hdrAt deviceAddress
  if h.deviceId = 0 then s else
  if h.deviceId = 0xFFFF then s else
  (List.range 8).foldl (fun s function => enumFunction hdrAt deviceAddress
    (BitVec.ofNat 64 function) s) s

/-- `enum_bus`. -/
def enumBus (baseAddress : Word) (bus : BitVec 32) (s : PciState) : PciState :=
  let offset := (bus <<< 20).setWidth 64
  let busAddress := baseAddress + offset
  let s := s.pagingMap busAddress
  let s := { s with currentBus := bus.setWidth 64 }
  let h := hdrAt busAddress
  if h.deviceId = 0 then s else
  if h.deviceId = 0xFFFF then s else
  (List.range 32).foldl (fun s device => enumDev hdrAt busAddress (BitVec.ofNat 32 device) s) s

/-- One iteration of the loop of `pci_init`: the buses from `start_bus` up to, and without,
`end_bus`. -/
def enumEntry (cfg : DevCfg) (t : Nat) (s : PciState) : PciState :=
  let s := { s with entry := t }
  (List.range' cfg.startBus.toNat (cfg.endBus.toNat - cfg.startBus.toNat)).foldl
    (fun s bus => enumBus hdrAt cfg.baseAddr (BitVec.ofNat 32 bus) s) s

/-- The number of entries as `pci_init` computes it, in 64 bits and then cut to an `int`. -/
def Mcfg.entries (mcfg : Mcfg) : BitVec 32 :=
  ((mcfg.len.setWidth 64 - 44#64) / 16#64).setWidth 32

/-- `pci_init`; `mcfg` is what `acpi_find_table` found. -/
def pciInit (mcfg : Option Mcfg) (s : PciState) : PciState :=
  match mcfg with
  | none => s
  | some mcfg =>
    (List.range mcfg.entries.toInt.toNat).foldl (fun s t => enumEntry hdrAt (mcfg.entry t) t s) s

end Enumeration

/-! ## The calls of `enum_function` -/

/-- There is a function behind the header. -/
def PciDevHdr.Present (h : PciDevHdr) : Prop := h.deviceId ≠ 0 ∧ h.deviceId ≠ 0xFFFF

instance (h : PciDevHdr) : Decidable h.Present := inferInstanceAs (Decidable (_ ∧ _))

/-- The address of the header of a function. -/
def functionAddress (base : Word) (bus device function : Nat) : Word :=
  base + BitVec.ofNat 64 (bus <<< 20) + BitVec.ofNat 64 (device <<< 15) +
    BitVec.ofNat 64 (function <<< 12)

/-- The call for a function at its address, with the globals set to its numbers. -/
def callFor (t : Nat) (base : Word) (bus device function : Nat) : EnumCall :=
  ⟨t, functionAddress base bus device function, BitVec.ofNat 64 bus, BitVec.ofNat 64 device,
    BitVec.ofNat 64 function⟩

section Calls

variable (hdrAt : Word → PciDevHdr) (t : Nat) (base : Word)

/-- The calls for a device, a bus, an entry and the table. -/
def deviceCalls (bus device : Nat) : List EnumCall :=
  if (hdrAt (functionAddress base bus device 0)).Present then
    (List.range 8).flatMap fun function => [callFor t base bus device function]
  else []

def busCalls (bus : Nat) : List EnumCall :=
  if (hdrAt (functionAddress base bus 0 0)).Present then
    (List.range 32).flatMap (deviceCalls hdrAt t base bus)
  else []

def entryCalls (cfg : DevCfg) : List EnumCall :=
  (List.range' cfg.startBus.toNat (cfg.endBus.toNat - cfg.startBus.toNat)).flatMap
    (busCalls hdrAt t cfg.baseAddr)

def tableCalls (mcfg : Mcfg) : List EnumCall :=
  (List.range mcfg.entries.toInt.toNat).flatMap fun t => entryCalls hdrAt t (mcfg.entry t)

end Calls

/-- The state after a step differs from the one before in nothing that a caller relies on. -/
structure SamePlace (s s' : PciState) : Prop where
  entry : s'.entry = s.entry
  bus : s'.currentBus = s.currentBus
  device : s'.currentDevice = s.currentDevice

theorem enumKnown_frame (h : PciDevHdr) (address : Word) (s : PciState) :
    (enumKnown h address s).calls = s.calls ∧ SamePlace s (enumKnown h address s) := by
  unfold enumKnown
  split_ifs <;> exact ⟨rfl, rfl, rfl, rfl⟩

section Steps

variable {hdrAt : Word → PciDevHdr} {base : Word} {bus device : Nat}

/-- The two checks of the device id. -/
theorem if_present {α : Type} (h : PciDevHdr) (x y : α) :
    (if h.deviceId = 0 then x else if h.deviceId = 0xFFFF then x else y) =
      if h.Present then y else x := by
  unfold PciDevHdr.Present
  split_ifs <;> simp_all

theorem enumFunction_calls {function : Nat} (hf : function < 8) {s : PciState}
    (hbus : s.currentBus = BitVec.ofNat 64 bus)
    (hdevice : s.currentDevice = BitVec.ofNat 64 device) :
    SamePlace s (enumFunction hdrAt (functionAddress base bus device 0)
        (BitVec.ofNat 64 function) s) ∧
      (enumFunction hdrAt (functionAddress base bus device 0) (BitVec.ofNat 64 function) s).calls =
        s.calls ++ [callFor s.entry base bus device function] := by
  have hoffset : ∀ f < 8, BitVec.ofNat 64 f <<< 12 = BitVec.ofNat 64 (f <<< 12) := by decide
  have haddress : functionAddress base bus device 0 + BitVec.ofNat 64 function <<< 12 =
      functionAddress base bus device function := by
    rw [hoffset function hf]
    exact congrArg (· + _) (BitVec.add_zero _)
  unfold enumFunction
  simp only [haddress, if_present, PciState.pagingMap]
  have hcall : (⟨s.entry, functionAddress base bus device function, s.currentBus,
      s.currentDevice, BitVec.ofNat 64 function⟩ : EnumCall) =
      callFor s.entry base bus device function := by
    rw [hbus, hdevice]
    rfl
  rw [hcall]
  split_ifs with hpresent
  · obtain ⟨hcalls, hplace⟩ := enumKnown_frame
      (hdrAt (functionAddress base bus device function))
      (functionAddress base bus device function) _
    exact ⟨⟨hplace.entry, hplace.bus, hplace.device⟩, hcalls⟩
  · exact ⟨⟨rfl, rfl, rfl⟩, rfl⟩

/-- The numbers of a device and of a bus, and where their headers are. -/
theorem device_offset : ∀ d < 32,
    (BitVec.ofNat 32 d <<< 15).setWidth 64 = BitVec.ofNat 64 (d <<< 15) ∧
      (BitVec.ofNat 32 d).setWidth 64 = BitVec.ofNat 64 d := by
  decide

theorem bus_offset : ∀ b < 256,
    (BitVec.ofNat 32 b <<< 20).setWidth 64 = BitVec.ofNat 64 (b <<< 20) ∧
      (BitVec.ofNat 32 b).setWidth 64 = BitVec.ofNat 64 b := by
  decide +kernel

theorem functionAddress_bus (base : Word) (bus : Nat) :
    functionAddress base bus 0 0 = base + BitVec.ofNat 64 (bus <<< 20) :=
  (BitVec.add_zero _).trans (BitVec.add_zero _)

theorem functionAddress_device (base : Word) (bus device : Nat) :
    functionAddress base bus device 0 =
      functionAddress base bus 0 0 + BitVec.ofNat 64 (device <<< 15) := by
  rw [functionAddress_bus]
  exact BitVec.add_zero _

/-- The loop over the functions of a device. -/
theorem enumFunctions_calls {t : Nat} {s : PciState}
    (hs : s.entry = t ∧ s.currentBus = BitVec.ofNat 64 bus ∧
      s.currentDevice = BitVec.ofNat 64 device) :
    let s' := (List.range 8).foldl (fun s function =>
      enumFunction hdrAt (functionAddress base bus device 0) (BitVec.ofNat 64 function) s) s
    (s'.entry = t ∧ s'.currentBus = BitVec.ofNat 64 bus ∧
        s'.currentDevice = BitVec.ofNat 64 device) ∧
      s'.calls = s.calls ++
        (List.range 8).flatMap fun function => [callFor t base bus device function] := by
  refine foldl_log PciState.calls (fun s => s.entry = t ∧ s.currentBus = BitVec.ofNat 64 bus ∧
    s.currentDevice = BitVec.ofNat 64 device) (fun function hf s ⟨ht, hbus, hdevice⟩ => ?_) hs
  obtain ⟨hplace, hcalls⟩ := enumFunction_calls (List.mem_range.mp hf) hbus hdevice
  rw [ht] at hcalls
  exact ⟨⟨hplace.entry.trans ht, hplace.bus.trans hbus, hplace.device.trans hdevice⟩, hcalls⟩

theorem enumDev_calls {t : Nat} (hd : device < 32) {s : PciState}
    (hs : s.entry = t ∧ s.currentBus = BitVec.ofNat 64 bus) :
    let s' := enumDev hdrAt (functionAddress base bus 0 0) (BitVec.ofNat 32 device) s
    (s'.entry = t ∧ s'.currentBus = BitVec.ofNat 64 bus) ∧
      s'.calls = s.calls ++ deviceCalls hdrAt t base bus device := by
  obtain ⟨hoffset, hnumber⟩ := device_offset device hd
  unfold enumDev deviceCalls
  simp only [hoffset, hnumber, ← functionAddress_device, if_present, PciState.pagingMap]
  split_ifs with hpresent
  · let s₁ := { s.pagingMap (functionAddress base bus device 0) with
      currentDevice := BitVec.ofNat 64 device }
    obtain ⟨⟨ht, hbus, -⟩, hcalls⟩ := enumFunctions_calls (s := s₁) ⟨hs.1, hs.2, rfl⟩
    exact ⟨⟨ht, hbus⟩, hcalls⟩
  · exact ⟨hs, (List.append_nil _).symm⟩

theorem enumBus_calls {t : Nat} (hb : bus < 256) {s : PciState} (ht : s.entry = t) :
    let s' := enumBus hdrAt base (BitVec.ofNat 32 bus) s
    s'.entry = t ∧ s'.calls = s.calls ++ busCalls hdrAt t base bus := by
  obtain ⟨hoffset, hnumber⟩ := bus_offset bus hb
  unfold enumBus busCalls
  simp only [hoffset, hnumber, ← functionAddress_bus, if_present, PciState.pagingMap]
  split_ifs with hpresent
  · let s₁ := { s.pagingMap (functionAddress base bus 0 0) with
      currentBus := BitVec.ofNat 64 bus }
    obtain ⟨⟨ht, -⟩, hcalls⟩ := foldl_log PciState.calls
      (fun s => s.entry = t ∧ s.currentBus = BitVec.ofNat 64 bus)
      (fun device hd s hs => enumDev_calls (List.mem_range.mp hd) hs) (s := s₁) ⟨ht, rfl⟩
    exact ⟨ht, hcalls⟩
  · exact ⟨ht, (List.append_nil _).symm⟩

theorem enumEntry_calls (cfg : DevCfg) (t : Nat) (s : PciState) :
    (enumEntry hdrAt cfg t s).calls = s.calls ++ entryCalls hdrAt t cfg := by
  refine (foldl_log PciState.calls (fun s => s.entry = t) (fun bus hb s ht => ?_) rfl).2
  rw [List.mem_range'_1] at hb
  have hend := cfg.endBus.isLt
  exact enumBus_calls (by omega) ht

/-- The calls of `pci_init`, in order. -/
theorem pciInit_calls (mcfg : Mcfg) (s : PciState) :
    (pciInit hdrAt (some mcfg) s).calls = s.calls ++ tableCalls hdrAt mcfg :=
  (foldl_log PciState.calls (fun _ => True)
    (fun t _ s _ => ⟨trivial, enumEntry_calls (mcfg.entry t) t s⟩) trivial).2

end Steps

/-! ## Which functions are found -/

/-- The call is one for these numbers. -/
def EnumCall.isFor (t bus device function : Nat) (c : EnumCall) : Bool :=
  c.entry = t ∧ c.bus = BitVec.ofNat 64 bus ∧ c.device = BitVec.ofNat 64 device ∧
    c.func = BitVec.ofNat 64 function

theorem ofNat_inj {m n : Nat} (hm : m < 256) (hn : n < 256) :
    BitVec.ofNat 64 m = BitVec.ofNat 64 n ↔ m = n := by
  rw [← BitVec.toNat_inj, BitVec.toNat_ofNat, BitVec.toNat_ofNat, Nat.mod_eq_of_lt (by omega),
    Nat.mod_eq_of_lt (by omega)]

section Found

variable {hdrAt : Word → PciDevHdr} {t t' bus bus' device device' function : Nat} {base : Word}
  (hb : bus < 256) (hd : device < 32) (hf : function < 8)

include hb hd hf

theorem callFor_filter (hb' : bus' < 256) (hd' : device' < 32) {function' : Nat}
    (hf' : function' < 8) :
    [callFor t' base bus' device' function'].filter (EnumCall.isFor t bus device function) =
      if function' = function ∧ t' = t ∧ bus' = bus ∧ device' = device then
        [callFor t base bus device function] else [] := by
  have hfor : (callFor t' base bus' device' function').isFor t bus device function =
      decide (function' = function ∧ t' = t ∧ bus' = bus ∧ device' = device) := by
    simp only [EnumCall.isFor, callFor, ofNat_inj hb' hb,
      ofNat_inj (by omega : device' < 256) (by omega : device < 256),
      ofNat_inj (by omega : function' < 256) (by omega : function < 256)]
    exact decide_eq_decide.mpr (by tauto)
  split_ifs with h
  · rw [List.filter_cons, hfor, decide_eq_true h]
    obtain ⟨rfl, rfl, rfl, rfl⟩ := h
    rfl
  · rw [List.filter_cons, hfor, decide_eq_false h]
    rfl

theorem deviceCalls_filter (hb' : bus' < 256) (hd' : device' < 32) :
    (deviceCalls hdrAt t' base bus' device').filter (EnumCall.isFor t bus device function) =
      if device' = device ∧ t' = t ∧ bus' = bus ∧
          (hdrAt (functionAddress base bus' device' 0)).Present then
        [callFor t base bus device function] else [] := by
  unfold deviceCalls
  split_ifs with hpresent h h
  · rw [filter_flatMap_if List.nodup_range fun i hi =>
      callFor_filter hb hd hf hb' hd' (List.mem_range.mp hi)]
    exact if_pos ⟨List.mem_range.mpr hf, h.2.1, h.2.2.1, h.1⟩
  · rw [filter_flatMap_if List.nodup_range fun i hi =>
      callFor_filter hb hd hf hb' hd' (List.mem_range.mp hi)]
    exact if_neg fun ⟨_, ht, hbus, hdevice⟩ => h ⟨hdevice, ht, hbus, hpresent⟩
  · exact absurd h.2.2.2 hpresent
  · rfl

theorem busCalls_filter (hb' : bus' < 256) :
    (busCalls hdrAt t' base bus').filter (EnumCall.isFor t bus device function) =
      if bus' = bus ∧ t' = t ∧ (hdrAt (functionAddress base bus' 0 0)).Present ∧
          (hdrAt (functionAddress base bus' device 0)).Present then
        [callFor t base bus device function] else [] := by
  unfold busCalls
  split_ifs with hpresent h h
  · rw [filter_flatMap_if List.nodup_range fun i hi =>
      deviceCalls_filter hb hd hf hb' (List.mem_range.mp hi)]
    exact if_pos ⟨List.mem_range.mpr hd, h.2.1, h.1, h.2.2.2⟩
  · rw [filter_flatMap_if List.nodup_range fun i hi =>
      deviceCalls_filter hb hd hf hb' (List.mem_range.mp hi)]
    exact if_neg fun ⟨_, ht, hbus, hdevice⟩ => h ⟨hbus, ht, hpresent, hdevice⟩
  · exact absurd h.2.2.1 hpresent
  · rfl

theorem entryCalls_filter (cfg : DevCfg) :
    (entryCalls hdrAt t' cfg).filter (EnumCall.isFor t bus device function) =
      if (cfg.startBus.toNat ≤ bus ∧ bus < cfg.endBus.toNat) ∧ t' = t ∧
          (hdrAt (functionAddress cfg.baseAddr bus 0 0)).Present ∧
          (hdrAt (functionAddress cfg.baseAddr bus device 0)).Present then
        [callFor t cfg.baseAddr bus device function] else [] := by
  have hend := cfg.endBus.isLt
  unfold entryCalls
  rw [filter_flatMap_if List.nodup_range' fun i hi =>
    busCalls_filter hb hd hf (by rw [List.mem_range'_1] at hi; omega)]
  refine if_congr (and_congr_left fun _ => ?_) rfl rfl
  rw [List.mem_range'_1]
  omega

end Found

/-- The number of entries in the table; one that is too short for its header has none. -/
theorem Mcfg.entries_eq (mcfg : Mcfg) : mcfg.entries.toInt.toNat = (mcfg.len.toNat - 44) / 16 := by
  have hlen := mcfg.len.isLt
  have hval : mcfg.entries.toNat =
      (2 ^ 64 - 44 + mcfg.len.toNat) % 2 ^ 64 / 16 % 2 ^ 32 := by
    have hwide : mcfg.len.toNat < 2 ^ 64 := by omega
    unfold Mcfg.entries
    rw [BitVec.toNat_setWidth, BitVec.toNat_udiv, BitVec.toNat_sub, BitVec.toNat_setWidth,
      Nat.mod_eq_of_lt hwide]
    rfl
  rw [BitVec.toInt_eq_toNat_cond, hval]
  omega

/-- A function that the table and the headers describe. -/
structure Mcfg.HasFunction (mcfg : Mcfg) (hdrAt : Word → PciDevHdr)
    (t bus device function : Nat) : Prop where
  entry : t < (mcfg.len.toNat - 44) / 16
  start : (mcfg.entry t).startBus.toNat ≤ bus
  stop : bus ≤ (mcfg.entry t).endBus.toNat
  device_lt : device < 32
  function_lt : function < 8
  present : (hdrAt (functionAddress (mcfg.entry t).baseAddr bus device function)).Present

/-- The kernel's state before `pci_init`. -/
def PciState.boot : PciState := ⟨0, 0, 0, 0, [], [], []⟩

/-- Of the calls of `enum_function`, there is exactly one with the numbers of a given function of
the table when the loops get to it, and none when they do not. -/
theorem pciInit_calls_filter {mcfg : Mcfg} {hdrAt : Word → PciDevHdr}
    {t bus device function : Nat} (h : mcfg.HasFunction hdrAt t bus device function) :
    (pciInit hdrAt (some mcfg) PciState.boot).calls.filter
        (EnumCall.isFor t bus device function) =
      if bus < (mcfg.entry t).endBus.toNat ∧
          (hdrAt (functionAddress (mcfg.entry t).baseAddr bus 0 0)).Present ∧
          (hdrAt (functionAddress (mcfg.entry t).baseAddr bus device 0)).Present then
        [callFor t (mcfg.entry t).baseAddr bus device function] else [] := by
  have hend := (mcfg.entry t).endBus.isLt
  have hbus : bus < 256 := Nat.lt_of_le_of_lt h.stop hend
  have hentry : ∀ i ∈ List.range mcfg.entries.toInt.toNat,
      (entryCalls hdrAt i (mcfg.entry i)).filter (EnumCall.isFor t bus device function) =
        if i = t ∧ (mcfg.entry i).startBus.toNat ≤ bus ∧ bus < (mcfg.entry i).endBus.toNat ∧
            (hdrAt (functionAddress (mcfg.entry i).baseAddr bus 0 0)).Present ∧
            (hdrAt (functionAddress (mcfg.entry i).baseAddr bus device 0)).Present then
          [callFor t (mcfg.entry t).baseAddr bus device function] else [] := by
    intro i _
    rw [entryCalls_filter hbus h.device_lt h.function_lt]
    by_cases hi : i = t
    · subst hi
      refine if_congr ?_ rfl rfl
      exact ⟨fun ⟨hrange, _, hpresent⟩ => ⟨rfl, hrange.1, hrange.2, hpresent⟩,
        fun ⟨_, hstart, hstop, hpresent⟩ => ⟨⟨hstart, hstop⟩, rfl, hpresent⟩⟩
    · rw [if_neg fun hin => hi hin.2.1, if_neg fun hin => hi hin.1]
  rw [pciInit_calls, PciState.boot, List.nil_append, tableCalls,
    filter_flatMap_if List.nodup_range hentry]
  refine if_congr ?_ rfl rfl
  rw [List.mem_range, mcfg.entries_eq]
  exact ⟨fun hin => ⟨hin.2.2.1, hin.2.2.2⟩, fun hin => ⟨h.entry, h.start, hin⟩⟩

/-- `enum_function` is called exactly once for every function of the table, at its address and
with the globals set to its numbers. -/
def EnumeratesEach (hdrAt : Word → PciDevHdr) (mcfg : Mcfg) : Prop :=
  ∀ t bus device function, mcfg.HasFunction hdrAt t bus device function →
    (pciInit hdrAt (some mcfg) PciState.boot).calls.filter
        (EnumCall.isFor t bus device function) =
      [callFor t (mcfg.entry t).baseAddr bus device function]

/-- The enumeration is complete exactly when every function is on a bus before the last one of its
entry, and on a bus that has device 0. -/
theorem enumeration_complete_iff (hdrAt : Word → PciDevHdr) (mcfg : Mcfg)
    (hfirst : ∀ t bus device function, mcfg.HasFunction hdrAt t bus device function →
      mcfg.HasFunction hdrAt t bus device 0) :
    EnumeratesEach hdrAt mcfg ↔
      ∀ t bus device function, mcfg.HasFunction hdrAt t bus device function →
        bus < (mcfg.entry t).endBus.toNat ∧ mcfg.HasFunction hdrAt t bus 0 0 := by
  refine forall_congr' fun t => forall_congr' fun bus => forall_congr' fun device =>
    forall_congr' fun function => imp_congr_right fun h => ?_
  have hzero := hfirst t bus device function h
  rw [pciInit_calls_filter h]
  constructor
  · intro hcalls
    split_ifs at hcalls with hreached
    exact ⟨hreached.1, ⟨h.entry, h.start, h.stop, by decide, by decide, hreached.2.1⟩⟩
  · intro ⟨hbus, hdevice⟩
    exact if_pos ⟨hbus, hdevice.present, hzero.present⟩

/-- A table with one entry, for the buses `start` to `stop`. -/
def oneEntry (start stop : Byte) : Mcfg := ⟨60, fun _ => ⟨0xB0000000, 0, start, stop⟩⟩

/-- A host bridge as device 0 and an AHCI controller as device 2 of bus 0, and nothing else. -/
def smallHeaders (a : Word) : PciDevHdr :=
  if a = 0xB0000000 then ⟨0x8086, 0x29C0, 0x00, 0x00, 0x06⟩
  else if a = 0xB0010000 then ⟨0x8086, 0x2922, 0x01, 0x06, 0x01⟩
  else ⟨0xFFFF, 0xFFFF, 0xFF, 0xFF, 0xFF⟩

/-- Where the functions of `smallHeaders` are on the first two buses. -/
theorem smallHeaders_present : ∀ bus < 2, ∀ device < 32, ∀ function < 8,
    (smallHeaders (functionAddress 0xB0000000 bus device function)).Present →
      bus = 0 ∧ function = 0 := by
  decide +kernel

/-- When the entry is for bus 0 alone, nothing is enumerated. -/
theorem oneEntry_misses_last_bus :
    (∀ t bus device function, (oneEntry 0 0).HasFunction smallHeaders t bus device function →
      (oneEntry 0 0).HasFunction smallHeaders t bus device 0) ∧
    (oneEntry 0 0).HasFunction smallHeaders 0 0 2 0 ∧
    (pciInit smallHeaders (some (oneEntry 0 0)) PciState.boot).calls = [] := by
  refine ⟨fun t bus device function h => ?_, ⟨by decide, by decide, by decide, by decide,
    by decide, by decide⟩, by decide +kernel⟩
  have hbus : bus ≤ 0 := h.stop
  obtain ⟨-, rfl⟩ := smallHeaders_present bus (by omega) device h.device_lt function h.function_lt
    h.present
  exact h

/-- When the entry is for the buses 0 and 1, the enumeration is complete. -/
theorem oneEntry_enumerates : EnumeratesEach smallHeaders (oneEntry 0 1) := by
  have hwhere : ∀ t bus device function,
      (oneEntry 0 1).HasFunction smallHeaders t bus device function → bus = 0 ∧ function = 0 := by
    intro t bus device function h
    have hbus : bus ≤ 1 := h.stop
    exact smallHeaders_present bus (by omega) device h.device_lt function h.function_lt h.present
  refine (enumeration_complete_iff smallHeaders (oneEntry 0 1)
    fun t bus device function h => ?_).mpr
    fun t bus device function h => ?_
  · obtain ⟨-, rfl⟩ := hwhere t bus device function h
    exact h
  · obtain ⟨rfl, -⟩ := hwhere t bus device function h
    have hbus : 0 < ((oneEntry 0 1).entry t).endBus.toNat := Nat.one_pos
    have hpresent : (smallHeaders (functionAddress 0xB0000000 0 0 0)).Present := by decide
    exact ⟨hbus, h.entry, h.start, h.stop, by decide, by decide, hpresent⟩

end ChronOS.Pci
