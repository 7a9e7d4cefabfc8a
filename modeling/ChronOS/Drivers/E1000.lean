/-
  Drivers/E1000.lean --- the receive ring of
  `kernel/src/drivers/ethernet/e1000/e1000.c`.

  The descriptors are a typed store by address, as `rx_descs` points to them.  The
  device is the one of the data sheet as far as the ring goes: while RDH and RDT
  differ it may write a packet into descriptor RDH, set its DD bit and advance RDH.
  It runs between any two iterations of `dev_e1000_handle_recv`.

  The tail register is written one behind `rx_cur`, so a full ring has 31 packets
  and is not mistaken for an empty one.  That is the invariant everything here
  rests on.
-/
import ChronOS.Foundation.Fifo
import ChronOS.Mm.Paging

set_option autoImplicit false

namespace ChronOS.Drivers

open ChronOS.Foundation ChronOS.Mm

/-! ## The driver -/

def REG_RCTRL : BitVec 16 := 0x0100
def REG_RXDESCLO : BitVec 16 := 0x2800
def REG_RXDESCHI : BitVec 16 := 0x2804
def REG_RXDESCLEN : BitVec 16 := 0x2808
def REG_RXDESCHEAD : BitVec 16 := 0x2810
def REG_RXDESCTAIL : BitVec 16 := 0x2818
def REG_TXDESCLO : BitVec 16 := 0x3800
def REG_TXDESCHI : BitVec 16 := 0x3804

def RCTL_EN : BitVec 32 := 1 <<< 1
def RCTL_SBP : BitVec 32 := 1 <<< 2
def RCTL_UPE : BitVec 32 := 1 <<< 3
def RCTL_MPE : BitVec 32 := 1 <<< 4
def RCTL_LBM_NONE : BitVec 32 := 0 <<< 6
def RTCL_RDMTS_HALF : BitVec 32 := 0 <<< 8
def RCTL_BAM : BitVec 32 := 1 <<< 15
def RCTL_SECRC : BitVec 32 := 1 <<< 26
def RCTL_BSIZE_8192 : BitVec 32 := 2 <<< 16 ||| 1 <<< 25

def E1000_NUM_RX_DESC : Nat := 32

/-- `e1000_io_type`, which is -1 until `dev_e1000_init` has looked at BAR0. -/
inductive IoType
  | unset
  | mmio
  | portIo
  deriving DecidableEq, Repr

/-- `e1000_rx_desc_t`. -/
structure RxDesc where
  addr : Word
  length : BitVec 16
  checksum : BitVec 16
  status : Byte
  errors : Byte
  special : BitVec 16
  deriving DecidableEq, Repr

/-- The globals of the driver, the registers of the device and the descriptors. -/
structure E1000 where
  ioType : IoType
  regs : BitVec 16 → BitVec 32
  rxDescs : Nat → Word
  descAt : Word → RxDesc
  rxCur : BitVec 16

/-- What `net_handle` is called with: the buffer and the length. -/
abbrev Packet := Word × BitVec 32

/-- `dev_e1000_write`; without an IO type it only logs an error. -/
def devE1000Write (reg : BitVec 16) (value : BitVec 32) (d : E1000) : E1000 :=
  match d.ioType with
  | .unset => d
  | .mmio | .portIo => { d with regs := Function.update d.regs reg value }

/-- A write to the descriptor at `p`. -/
def E1000.setDesc (d : E1000) (p : Word) (x : RxDesc) : E1000 :=
  { d with descAt := Function.update d.descAt p x }

section Init

variable {σ : Type} (src : PageSource σ)

/-- One iteration of the loop of `dev_e1000_init_rx`; two of the three pages are only taken. -/
def initRxDesc (descs : Word) (i : Nat) (d : E1000) (s : Machine σ) :
    Option (E1000 × Machine σ) := do
  let p := descs + BitVec.ofNat 64 (i * 16)
  let d := { d with rxDescs := Function.update d.rxDescs i p }
  let (addr, pmm, mem) ← src.getpage s.pmm s.mem
  let d := d.setDesc p { d.descAt p with addr := addr }
  let (_, pmm, mem) ← src.getpage pmm mem
  let (_, pmm, mem) ← src.getpage pmm mem
  return (d.setDesc p { d.descAt p with status := 0 }, ⟨mem, pmm⟩)

/-- The first `n` iterations. -/
def initRxDescs (descs : Word) : Nat → E1000 → Machine σ → Option (E1000 × Machine σ)
  | 0, d, s => some (d, s)
  | n + 1, d, s => do
    let (d, s) ← initRxDescs descs n d s
    initRxDesc src descs n d s

/-- The register writes of `dev_e1000_init_rx`. -/
def initRxRegs (ptr : Word) (d : E1000) : E1000 :=
  let d := devE1000Write REG_TXDESCLO ((ptr >>> 32).setWidth 32) d
  let d := devE1000Write REG_TXDESCHI ((ptr &&& 0xFFFFFFFF).setWidth 32) d
  let d := devE1000Write REG_RXDESCLO (ptr.setWidth 32) d
  let d := devE1000Write REG_RXDESCHI 0 d
  let d := devE1000Write REG_RXDESCLEN (BitVec.ofNat 32 (E1000_NUM_RX_DESC * 16)) d
  let d := devE1000Write REG_RXDESCHEAD 0 d
  let d := devE1000Write REG_RXDESCTAIL (BitVec.ofNat 32 (E1000_NUM_RX_DESC - 1)) d
  let d := { d with rxCur := 0 }
  devE1000Write REG_RCTRL (RCTL_EN ||| RCTL_SBP ||| RCTL_UPE ||| RCTL_MPE ||| RCTL_LBM_NONE |||
    RTCL_RDMTS_HALF ||| RCTL_BAM ||| RCTL_SECRC ||| RCTL_BSIZE_8192) d

/-- `dev_e1000_init_rx`. -/
def devE1000InitRx (d : E1000) (s : Machine σ) : Option (E1000 × Machine σ) := do
  let (ptr, pmm, mem) ← src.getpage s.pmm s.mem
  let (d, s) ← initRxDescs src ptr E1000_NUM_RX_DESC d ⟨mem, pmm⟩
  return (initRxRegs ptr d, s)

end Init

/-- The descriptor that `rx_descs[i]` points to. -/
def E1000.desc (d : E1000) (i : Nat) : RxDesc := d.descAt (d.rxDescs i)

/-- The DD bit of descriptor `i` is set. -/
def E1000.Done (d : E1000) (i : Nat) : Prop := (d.desc i).status &&& 1#8 ≠ 0

instance (d : E1000) (i : Nat) : Decidable (d.Done i) := inferInstanceAs (Decidable (_ ≠ _))

/-- The packet in descriptor `i`. -/
def E1000.packet (d : E1000) (i : Nat) : Packet :=
  ((d.desc i).addr, (d.desc i).length.setWidth 32)

/-- One iteration of `dev_e1000_handle_recv`: the packet handed to `net_handle` and the state
after it, or nothing when the loop ends. -/
def recvIteration (d : E1000) : Option (Packet × E1000) :=
  if d.Done d.rxCur.toNat then
    let packet := d.packet d.rxCur.toNat
    let p := d.rxDescs d.rxCur.toNat
    let d := d.setDesc p { d.descAt p with status := 0 }
    let oldCur := d.rxCur
    let d := { d with rxCur := BitVec.ofNat 16 ((d.rxCur.toNat + 1) % E1000_NUM_RX_DESC) }
    some (packet, devE1000Write REG_RXDESCTAIL (oldCur.setWidth 32) d)
  else none

/-- `dev_e1000_handle_recv`, with the packets it handed to `net_handle`. -/
def devE1000HandleRecv : Nat → E1000 → Option (List Packet × E1000)
  | 0, _ => none
  | fuel + 1, d =>
    match recvIteration d with
    | none => some ([], d)
    | some (packet, d) =>
      (devE1000HandleRecv fuel d).map fun (packets, d) => (packet :: packets, d)

/-! ## The device -/

/-- RDH and RDT. -/
def E1000.rdh (d : E1000) : Nat := (d.regs REG_RXDESCHEAD).toNat

def E1000.rdt (d : E1000) : Nat := (d.regs REG_RXDESCTAIL).toNat

/-- The address of descriptor `i` for the device, from the base registers. -/
def E1000.deviceDesc (d : E1000) (i : Nat) : Word :=
  (d.regs REG_RXDESCHI ++ d.regs REG_RXDESCLO) + BitVec.ofNat 64 (i * 16)

/-- The device writes a packet into descriptor RDH and advances RDH.  It leaves the address of the
buffer alone, sets DD, and takes the other fields from `wb`.  Its descriptor is the one that
`rx_descs` points to, as it is for a ring below 4 GiB (`device_finds_ring_iff`). -/
def deviceReceive (wb : RxDesc) (d : E1000) : E1000 :=
  let p := d.rxDescs d.rdh
  let rdh := (d.rdh + 1) % E1000_NUM_RX_DESC
  let d := d.setDesc p { wb with addr := (d.descAt p).addr, status := wb.status ||| 1#8 }
  { d with regs := Function.update d.regs REG_RXDESCHEAD (BitVec.ofNat 32 rdh) }

/-- The ring, with the packets received so far and those handed to `net_handle` so far. -/
structure RecvState where
  dev : E1000
  received : List Packet
  delivered : List Packet

/-- A step of the device, or an iteration of `dev_e1000_handle_recv`. -/
inductive RecvStep : RecvState → RecvState → Prop
  | device {s : RecvState} (wb : RxDesc) (hfree : s.dev.rdh ≠ s.dev.rdt) :
      RecvStep s ⟨deviceReceive wb s.dev,
        s.received ++ [(deviceReceive wb s.dev).packet s.dev.rdh], s.delivered⟩
  | iteration {s : RecvState} {packet : Packet} {dev : E1000}
      (h : recvIteration s.dev = some (packet, dev)) :
      RecvStep s ⟨dev, s.received, s.delivered ++ [packet]⟩

/-- The number of descriptors from `rx_cur` up to RDH. -/
def E1000.pending (d : E1000) : Nat :=
  (d.rdh + E1000_NUM_RX_DESC - d.rxCur.toNat) % E1000_NUM_RX_DESC

/-! ## The invariant of the ring -/

theorem devE1000Write_eq {d : E1000} (hio : d.ioType ≠ .unset) (reg : BitVec 16)
    (value : BitVec 32) :
    devE1000Write reg value d = { d with regs := Function.update d.regs reg value } := by
  unfold devE1000Write
  split
  · exact absurd ‹_› hio
  · rfl
  · rfl

/-- The ring holds `n` packets: DD is set on the `n` descriptors from `rx_cur` on and on no other
one, RDH is behind the last of them, and RDT is one before `rx_cur`. -/
structure RingHolds (d : E1000) (n : Nat) : Prop where
  io : d.ioType ≠ .unset
  apart : ∀ i < E1000_NUM_RX_DESC, ∀ j < E1000_NUM_RX_DESC, d.rxDescs i = d.rxDescs j → i = j
  cur : d.rxCur.toNat < E1000_NUM_RX_DESC
  count : n < E1000_NUM_RX_DESC
  head : d.rdh = (d.rxCur.toNat + n) % E1000_NUM_RX_DESC
  tail : d.rdt = (d.rxCur.toNat + 31) % E1000_NUM_RX_DESC
  done : ∀ i < E1000_NUM_RX_DESC, d.Done i ↔ i ∈ ringCells E1000_NUM_RX_DESC d.rxCur.toNat n

namespace RingHolds

variable {d : E1000} {n : Nat}

theorem pending_eq (h : RingHolds d n) : d.pending = n := by
  unfold E1000.pending
  rw [h.head]
  exact ring_distance h.cur h.count

theorem rdh_lt (h : RingHolds d n) : d.rdh < E1000_NUM_RX_DESC := by
  rw [h.head]
  exact Nat.mod_lt _ (by decide)

theorem rdh_notMem (h : RingHolds d n) :
    d.rdh ∉ ringCells E1000_NUM_RX_DESC d.rxCur.toNat n := by
  rw [h.head]
  exact notMem_ringCells h.cur (Nat.le_refl n) h.count

/-- The device stops at 31 packets. -/
theorem count_of_free (h : RingHolds d n) (hfree : d.rdh ≠ d.rdt) :
    n + 1 < E1000_NUM_RX_DESC := by
  have hcount := h.count
  have hne : n ≠ 31 := by
    rintro rfl
    exact hfree (h.head.trans h.tail.symm)
  unfold E1000_NUM_RX_DESC at hcount ⊢
  omega

end RingHolds

theorem setDesc_desc_of_ne {d : E1000} {p : Word} {x : RxDesc} {i : Nat} (h : d.rxDescs i ≠ p) :
    (d.setDesc p x).desc i = d.desc i := by
  unfold E1000.setDesc E1000.desc
  exact Function.update_of_ne h x d.descAt

theorem setDesc_desc_self (d : E1000) (i : Nat) (x : RxDesc) :
    (d.setDesc (d.rxDescs i) x).desc i = x := by
  unfold E1000.setDesc E1000.desc
  exact Function.update_self (d.rxDescs i) x d.descAt

/-! ## A step of the device -/

section Device

variable {d : E1000} {n : Nat} (wb : RxDesc)

theorem deviceReceive_rdh (d : E1000) :
    (deviceReceive wb d).rdh = (d.rdh + 1) % E1000_NUM_RX_DESC := by
  have hlt : (d.rdh + 1) % E1000_NUM_RX_DESC < 2 ^ 32 :=
    (Nat.mod_lt _ (by decide)).trans (by decide)
  simp only [deviceReceive, E1000.rdh, Function.update_self, BitVec.toNat_ofNat]
  exact Nat.mod_eq_of_lt hlt

theorem deviceReceive_rdt (d : E1000) : (deviceReceive wb d).rdt = d.rdt := by
  have hne : REG_RXDESCTAIL ≠ REG_RXDESCHEAD := by decide
  simp only [deviceReceive, E1000.setDesc, E1000.rdt, Function.update_of_ne hne]

theorem deviceReceive_desc_of_ne (h : RingHolds d n) {i : Nat} (hi : i < E1000_NUM_RX_DESC)
    (hne : i ≠ d.rdh) : (deviceReceive wb d).desc i = d.desc i :=
  setDesc_desc_of_ne fun heq => hne (h.apart i hi _ h.rdh_lt heq)

theorem deviceReceive_done (d : E1000) : (deviceReceive wb d).Done d.rdh := by
  have hbit : ∀ b : Byte, (b ||| 1#8) &&& 1#8 ≠ 0 := by decide
  let x : RxDesc := { wb with addr := (d.desc d.rdh).addr, status := wb.status ||| 1#8 }
  have hdesc : (deviceReceive wb d).desc d.rdh = x := setDesc_desc_self d d.rdh x
  unfold E1000.Done
  rw [hdesc]
  exact hbit wb.status

/-- A step of the device appends its packet to those in the ring. -/
theorem RingHolds.receive (h : RingHolds d n) (hfree : d.rdh ≠ d.rdt) :
    RingHolds (deviceReceive wb d) (n + 1) ∧
      ringContents E1000_NUM_RX_DESC (deviceReceive wb d).packet d.rxCur.toNat (n + 1) =
        ringContents E1000_NUM_RX_DESC d.packet d.rxCur.toNat n ++
          [(deviceReceive wb d).packet d.rdh] := by
  have hkeep : ∀ i < E1000_NUM_RX_DESC, i ≠ d.rdh → (deviceReceive wb d).desc i = d.desc i :=
    fun i hi => deviceReceive_desc_of_ne wb h hi
  constructor
  · refine ⟨h.io, h.apart, h.cur, h.count_of_free hfree, ?_, ?_, fun i hi => ?_⟩
    · rw [deviceReceive_rdh, h.head, Nat.mod_add_mod]
      rfl
    · rw [deviceReceive_rdt]
      exact h.tail
    · have hcells : i ∈ ringCells E1000_NUM_RX_DESC d.rxCur.toNat (n + 1) ↔
          i ∈ ringCells E1000_NUM_RX_DESC d.rxCur.toNat n ∨ i = d.rdh := by
        rw [ringCells_succ_last, List.mem_append, List.mem_singleton, h.head]
      by_cases hrdh : i = d.rdh
      · subst hrdh
        exact ⟨fun _ => hcells.mpr (Or.inr rfl), fun _ => deviceReceive_done wb d⟩
      · have hsame : (deviceReceive wb d).Done i ↔ d.Done i := by
          unfold E1000.Done
          rw [hkeep i hi hrdh]
        rw [hsame, h.done i hi]
        exact ⟨fun hmem => hcells.mpr (Or.inl hmem),
          fun hmem => (hcells.mp hmem).resolve_right hrdh⟩
  · rw [h.head]
    refine ringContents_push fun i hi => ?_
    have hne : i ≠ d.rdh := by
      rintro rfl
      exact h.rdh_notMem hi
    unfold E1000.packet
    rw [hkeep i (lt_of_mem_ringCells (by decide) hi) hne]

end Device

/-! ## An iteration of the driver -/

/-- An iteration clears DD of the descriptor at `rx_cur`, moves `rx_cur` on and writes the
descriptor's index to RDT. -/
structure Consumed (d d' : E1000) : Prop where
  io : d'.ioType = d.ioType
  ptrs : d'.rxDescs = d.rxDescs
  descAt : d'.descAt = Function.update d.descAt (d.rxDescs d.rxCur.toNat)
    { d.desc d.rxCur.toNat with status := 0 }
  cur : d'.rxCur.toNat = (d.rxCur.toNat + 1) % E1000_NUM_RX_DESC
  rdh : d'.rdh = d.rdh
  rdt : d'.rdt = d.rxCur.toNat

theorem recvIteration_spec {d d' : E1000} {packet : Packet} (hio : d.ioType ≠ .unset)
    (h : recvIteration d = some (packet, d')) :
    d.Done d.rxCur.toNat ∧ packet = d.packet d.rxCur.toNat ∧ Consumed d d' := by
  unfold recvIteration at h
  split_ifs at h with hdone
  cases h
  refine ⟨hdone, rfl, ?_⟩
  rw [devE1000Write_eq (by exact hio)]
  have hlt : (d.rxCur.toNat + 1) % E1000_NUM_RX_DESC < 2 ^ 16 :=
    (Nat.mod_lt _ (by decide)).trans (by decide)
  have hne : REG_RXDESCHEAD ≠ REG_RXDESCTAIL := by decide
  refine ⟨rfl, rfl, rfl, Nat.mod_eq_of_lt hlt, ?_, ?_⟩
  · simp only [E1000.rdh, E1000.setDesc, Function.update_of_ne hne]
  · have hcur : d.rxCur.toNat < 2 ^ 32 := d.rxCur.isLt.trans (by decide)
    simp only [E1000.rdt, E1000.setDesc, Function.update_self, BitVec.toNat_setWidth]
    exact Nat.mod_eq_of_lt hcur

theorem recvIteration_none {d : E1000} : recvIteration d = none ↔ ¬ d.Done d.rxCur.toNat := by
  unfold recvIteration
  split_ifs with hdone
  · exact ⟨fun h => h.elim, fun h => h hdone⟩
  · exact ⟨fun _ => hdone, fun _ => rfl⟩

theorem Consumed.desc_of_ne {d d' : E1000} {n i : Nat} (hc : Consumed d d') (h : RingHolds d n)
    (hi : i < E1000_NUM_RX_DESC) (hne : i ≠ d.rxCur.toNat) : d'.desc i = d.desc i := by
  unfold E1000.desc
  rw [hc.descAt, hc.ptrs]
  exact Function.update_of_ne (fun heq => hne (h.apart i hi _ h.cur heq)) _ _

theorem Consumed.not_done {d d' : E1000} (hc : Consumed d d') : ¬ d'.Done d.rxCur.toNat := by
  unfold E1000.Done E1000.desc
  rw [hc.descAt, hc.ptrs, Function.update_self, not_not]
  exact BitVec.zero_and

/-- The descriptor before `rx_cur` is at the far end of the ring. -/
theorem ring_back {cur : Nat} (hcur : cur < E1000_NUM_RX_DESC) :
    ((cur + 1) % E1000_NUM_RX_DESC + 31) % E1000_NUM_RX_DESC = cur := by
  unfold E1000_NUM_RX_DESC at hcur ⊢
  omega

/-- An iteration removes the first packet from the ring and delivers it. -/
theorem RingHolds.consume {d d' : E1000} {n : Nat} {packet : Packet} (h : RingHolds d n)
    (hiter : recvIteration d = some (packet, d')) :
    ∃ m, n = m + 1 ∧ RingHolds d' m ∧
      ringContents E1000_NUM_RX_DESC d.packet d.rxCur.toNat n =
        packet :: ringContents E1000_NUM_RX_DESC d'.packet d'.rxCur.toNat m := by
  obtain ⟨hdone, rfl, hc⟩ := recvIteration_spec h.io hiter
  have hmem := (h.done _ h.cur).mp hdone
  cases n with
  | zero => exact absurd hmem List.not_mem_nil
  | succ m =>
    have hm : m < E1000_NUM_RX_DESC := Nat.lt_of_succ_lt h.count
    have hcur' : d'.rxCur.toNat < E1000_NUM_RX_DESC := by
      rw [hc.cur]
      exact Nat.mod_lt _ (by decide)
    have hout : d.rxCur.toNat ∉ ringCells E1000_NUM_RX_DESC d'.rxCur.toNat m := by
      have hfar := notMem_ringCells hcur' (Nat.le_of_lt_succ hm : m ≤ 31) (by decide)
      rwa [hc.cur, ring_back h.cur, ← hc.cur] at hfar
    have hcells : ringCells E1000_NUM_RX_DESC d.rxCur.toNat (m + 1) =
        d.rxCur.toNat :: ringCells E1000_NUM_RX_DESC d'.rxCur.toNat m := by
      rw [hc.cur]
      exact ringCells_succ_first h.cur
    refine ⟨m, rfl, ⟨?_, ?_, hcur', hm, ?_, ?_, fun i hi => ?_⟩, ?_⟩
    · rw [hc.io]
      exact h.io
    · rw [hc.ptrs]
      exact h.apart
    · rw [hc.rdh, hc.cur, h.head, Nat.mod_add_mod, Nat.add_assoc, Nat.add_comm 1 m]
    · rw [hc.rdt, hc.cur, ring_back h.cur]
    · by_cases hfirst : i = d.rxCur.toNat
      · subst hfirst
        exact ⟨fun hd => absurd hd hc.not_done, fun hi => absurd hi hout⟩
      · have hsame : d'.Done i ↔ d.Done i := by
          unfold E1000.Done
          rw [hc.desc_of_ne h hi hfirst]
        rw [hsame, h.done i hi, hcells, List.mem_cons]
        exact ⟨fun hmem => hmem.resolve_left hfirst, Or.inr⟩
    · rw [ringContents_pop h.cur, ← hc.cur]
      refine congrArg (_ :: ·) (List.map_congr_left fun i hi => ?_)
      have hne : i ≠ d.rxCur.toNat := by
        rintro rfl
        exact hout hi
      unfold E1000.packet
      rw [hc.desc_of_ne h (lt_of_mem_ringCells (by decide) hi) hne]

/-! ## Runs -/

/-- The ring holds what was received and not yet delivered. -/
def RecvState.Balanced (s : RecvState) : Prop :=
  ∃ n, RingHolds s.dev n ∧ s.received = s.delivered ++
    ringContents E1000_NUM_RX_DESC s.dev.packet s.dev.rxCur.toNat n

theorem RecvStep.balanced {s s' : RecvState} (hstep : RecvStep s s') (h : s.Balanced) :
    s'.Balanced := by
  obtain ⟨n, hring, hbalance⟩ := h
  cases hstep with
  | device wb hfree =>
    obtain ⟨hring', hcontents⟩ := hring.receive wb hfree
    refine ⟨n + 1, hring', ?_⟩
    rw [hbalance, List.append_assoc, ← hcontents]
    rfl
  | iteration hiter =>
    obtain ⟨m, rfl, hring', hcontents⟩ := hring.consume hiter
    refine ⟨m, hring', ?_⟩
    rw [hbalance, hcontents, List.append_assoc]
    rfl

theorem balanced_run {s s' : RecvState} (hrun : Relation.ReflTransGen RecvStep s s')
    (h : s.Balanced) : s'.Balanced := by
  induction hrun with
  | refl => exact h
  | tail _ hstep ih => exact hstep.balanced ih

/-- Left to itself, a call of `dev_e1000_handle_recv` returns and delivers all that is in the
ring. -/
theorem handleRecv_drains {d : E1000} {n fuel : Nat} (hfuel : n < fuel) (h : RingHolds d n) :
    ∃ d', devE1000HandleRecv fuel d =
        some (ringContents E1000_NUM_RX_DESC d.packet d.rxCur.toNat n, d') ∧ RingHolds d' 0 := by
  induction n generalizing d fuel with
  | zero =>
    obtain ⟨fuel, rfl⟩ := Nat.exists_eq_succ_of_ne_zero (Nat.ne_of_gt hfuel)
    have hend : recvIteration d = none := by
      rw [recvIteration_none, h.done _ h.cur]
      exact List.not_mem_nil
    refine ⟨d, ?_, h⟩
    rw [devE1000HandleRecv, hend]
    rfl
  | succ n ih =>
    obtain ⟨fuel, rfl⟩ := Nat.exists_eq_succ_of_ne_zero (Nat.ne_of_gt (Nat.zero_lt_of_lt hfuel))
    have hfirst : d.Done d.rxCur.toNat := by
      rw [h.done _ h.cur, ringCells_succ_first h.cur]
      exact List.mem_cons_self
    obtain ⟨⟨packet, d₁⟩, hiter⟩ := Option.ne_none_iff_exists'.mp
      fun hnone => recvIteration_none.mp hnone hfirst
    obtain ⟨m, hm, hring, hcontents⟩ := h.consume hiter
    obtain rfl := Nat.succ.inj hm
    obtain ⟨d', hrest, hempty⟩ := ih (Nat.lt_of_succ_lt_succ hfuel) hring
    refine ⟨d', ?_, hempty⟩
    rw [devE1000HandleRecv, hiter, hcontents]
    simp only [hrest, Option.map_some]

/-! ## The state left by `dev_e1000_init_rx` -/

section Init

variable {σ : Type} {src : PageSource σ}

theorem initRxDesc_spec {descs : Word} {i : Nat} {d d' : E1000} {s s' : Machine σ}
    (h : initRxDesc src descs i d s = some (d', s')) :
    d'.ioType = d.ioType ∧
      d'.rxDescs = Function.update d.rxDescs i (descs + BitVec.ofNat 64 (i * 16)) ∧
      ∃ x : RxDesc, x.status = 0 ∧
        d'.descAt = Function.update d.descAt (descs + BitVec.ofNat 64 (i * 16)) x := by
  simp only [initRxDesc, Option.bind_eq_bind, Option.bind_eq_some_iff] at h
  obtain ⟨⟨addr, pmm, mem⟩, -, ⟨_, pmm₁, mem₁⟩, -, ⟨_, pmm₂, mem₂⟩, -, heq⟩ := h
  cases heq
  refine ⟨rfl, rfl, _, ?_, Function.update_idem _ _ _⟩
  rfl

/-- After `n` iterations the first `n` pointers are set and their descriptors are free. -/
theorem initRxDescs_spec {descs : Word} {n : Nat} {d d' : E1000} {s s' : Machine σ}
    (h : initRxDescs src descs n d s = some (d', s')) :
    d'.ioType = d.ioType ∧ ∀ i < n, d'.rxDescs i = descs + BitVec.ofNat 64 (i * 16) ∧
      (d'.desc i).status = 0 := by
  induction n generalizing d' s' with
  | zero =>
    cases h
    exact ⟨rfl, fun i hi => absurd hi (Nat.not_lt_zero i)⟩
  | succ n ih =>
    obtain ⟨⟨d₁, s₁⟩, hrest, hlast⟩ := Option.bind_eq_some_iff.mp h
    obtain ⟨hio, hfirst⟩ := ih hrest
    obtain ⟨hio', hptrs, x, hx, hdesc⟩ := initRxDesc_spec hlast
    refine ⟨hio'.trans hio, fun i hi => ?_⟩
    have hptr : d'.rxDescs i = descs + BitVec.ofNat 64 (i * 16) := by
      rw [hptrs, Function.update_apply]
      split_ifs with heq
      · rw [heq]
      · exact (hfirst i (by omega)).1
    refine ⟨hptr, ?_⟩
    -- a pointer that is written again is written with a free descriptor again
    unfold E1000.desc
    rw [hdesc, hptr, Function.update_apply]
    split_ifs with heq
    · exact hx
    · have hne : i ≠ n := fun hin => heq (by rw [hin])
      obtain ⟨hold, hstatus⟩ := hfirst i (by omega)
      rw [← hold]
      exact hstatus

theorem initRxRegs_spec (ptr : Word) {d : E1000} (hio : d.ioType ≠ .unset) :
    (initRxRegs ptr d).ioType = d.ioType ∧ (initRxRegs ptr d).rxDescs = d.rxDescs ∧
      (initRxRegs ptr d).descAt = d.descAt ∧ (initRxRegs ptr d).rxCur = 0 ∧
      (initRxRegs ptr d).rdh = 0 ∧ (initRxRegs ptr d).rdt = 31 := by
  obtain ⟨io, regs, ptrs, desc, cur⟩ := d
  cases io with
  | unset => exact absurd rfl hio
  | mmio => exact ⟨rfl, rfl, rfl, rfl, rfl, rfl⟩
  | portIo => exact ⟨rfl, rfl, rfl, rfl, rfl, rfl⟩

theorem devE1000InitRx_empty {d d' : E1000} {s s' : Machine σ} (hio : d.ioType ≠ .unset)
    (h : devE1000InitRx src d s = some (d', s')) : RingHolds d' 0 := by
  simp only [devE1000InitRx, Option.bind_eq_bind, Option.bind_eq_some_iff] at h
  obtain ⟨⟨ptr, pmm, mem⟩, -, ⟨d₁, s₁⟩, hdescs, heq⟩ := h
  cases heq
  obtain ⟨hio₁, hfree⟩ := initRxDescs_spec hdescs
  obtain ⟨hio', hptrs, hdesc, hcur, hrdh, hrdt⟩ := initRxRegs_spec ptr (hio₁ ▸ hio)
  refine ⟨?_, fun i hi j hj heq => ?_, ?_, by decide, ?_, ?_, fun i hi => ?_⟩
  · rw [hio', hio₁]
    exact hio
  · rw [hptrs, (hfree i hi).1, (hfree j hj).1] at heq
    unfold E1000_NUM_RX_DESC at hi hj
    bv_omega
  · rw [hcur]
    decide
  · rw [hcur, hrdh]
    rfl
  · rw [hcur, hrdt]
    rfl
  · have hstatus := (hfree i hi).2
    unfold E1000.desc at hstatus
    unfold E1000.Done E1000.desc
    rw [hptrs, hdesc, hstatus]
    exact ⟨fun hne => absurd BitVec.zero_and hne, fun hmem => absurd hmem List.not_mem_nil⟩

end Init

/-- Whatever the interleaving of the device with the iterations of `dev_e1000_handle_recv`: what
was handed to `net_handle` is a part of what was received, from the start and in order; the rest is
in the descriptors from `rx_cur` up to RDH; RDT is one before `rx_cur`; and the descriptor that the
device may write next is none of those. -/
theorem receive_ring_in_order {σ : Type} {src : PageSource σ} {d d₀ : E1000} {m m₀ : Machine σ}
    (hio : d.ioType ≠ .unset) (hinit : devE1000InitRx src d m = some (d₀, m₀)) {s : RecvState}
    (hrun : Relation.ReflTransGen RecvStep ⟨d₀, [], []⟩ s) :
    s.delivered <+: s.received ∧
      s.received = s.delivered ++
        ringContents E1000_NUM_RX_DESC s.dev.packet s.dev.rxCur.toNat s.dev.pending ∧
      s.dev.rdt = (s.dev.rxCur.toNat + (E1000_NUM_RX_DESC - 1)) % E1000_NUM_RX_DESC ∧
      (s.dev.rdh ≠ s.dev.rdt → ¬ s.dev.Done s.dev.rdh ∧ s.dev.rxDescs s.dev.rdh ∉
        (ringCells E1000_NUM_RX_DESC s.dev.rxCur.toNat s.dev.pending).map s.dev.rxDescs) := by
  have hempty : RecvState.Balanced ⟨d₀, [], []⟩ := ⟨0, devE1000InitRx_empty hio hinit, rfl⟩
  obtain ⟨n, hring, hbalance⟩ := balanced_run hrun hempty
  rw [hring.pending_eq]
  refine ⟨⟨_, hbalance.symm⟩, hbalance, hring.tail, fun _ => ⟨?_, fun hmem => ?_⟩⟩
  · rw [hring.done _ hring.rdh_lt]
    exact hring.rdh_notMem
  · obtain ⟨i, hi, heq⟩ := List.mem_map.mp hmem
    have hlt : i < E1000_NUM_RX_DESC := lt_of_mem_ringCells (by decide) hi
    rw [hring.apart i hlt _ hring.rdh_lt heq] at hi
    exact hring.rdh_notMem hi

theorem RecvStep.same_ring {s s' : RecvState} (h : RecvStep s s') :
    s'.dev.rxDescs = s.dev.rxDescs ∧ s'.dev.deviceDesc = s.dev.deviceDesc := by
  cases h with
  | device wb hfree => exact ⟨rfl, rfl⟩
  | iteration hiter =>
    unfold recvIteration at hiter
    split_ifs at hiter
    cases hiter
    unfold devE1000Write
    split <;> exact ⟨rfl, rfl⟩

/-- After any run the device and the driver mean the same descriptors exactly when the page of the
ring is below 4 GiB: the upper half of its address is not programmed. -/
theorem device_finds_ring_iff {σ : Type} {src : PageSource σ} {d d₀ : E1000} {m m₀ : Machine σ}
    {ptr : Word} {pmm : σ} {mem : Mem} (hget : src.getpage m.pmm m.mem = some (ptr, pmm, mem))
    (hio : d.ioType ≠ .unset) (hinit : devE1000InitRx src d m = some (d₀, m₀)) {s : RecvState}
    (hrun : Relation.ReflTransGen RecvStep ⟨d₀, [], []⟩ s) :
    (∀ i < E1000_NUM_RX_DESC, s.dev.deviceDesc i = s.dev.rxDescs i) ↔ ptr.toNat < 2 ^ 32 := by
  have hsame : s.dev.rxDescs = d₀.rxDescs ∧ s.dev.deviceDesc = d₀.deviceDesc := by
    induction hrun with
    | refl => exact ⟨rfl, rfl⟩
    | tail _ hstep ih => exact ⟨hstep.same_ring.1.trans ih.1, hstep.same_ring.2.trans ih.2⟩
  simp only [devE1000InitRx, hget, Option.bind_eq_bind, Option.bind_some,
    Option.bind_eq_some_iff] at hinit
  obtain ⟨⟨d₁, s₁⟩, hdescs, heq⟩ := hinit
  cases heq
  obtain ⟨hio₁, hfree⟩ := initRxDescs_spec hdescs
  rw [hsame.1, hsame.2, (initRxRegs_spec ptr (hio₁ ▸ hio)).2.1]
  have hbase : ∀ i, (initRxRegs ptr d₁).deviceDesc i =
      (0#32 ++ ptr.setWidth 32) + BitVec.ofNat 64 (i * 16) := by
    obtain ⟨io, regs, ptrs, desc, cur⟩ := d₁
    cases io with
    | unset => exact absurd hio₁.symm hio
    | mmio => exact fun i => rfl
    | portIo => exact fun i => rfl
  have hlow : (0#32 ++ ptr.setWidth 32 : Word) = ptr ↔ ptr.toNat < 2 ^ 32 := by
    rw [← BitVec.toNat_inj, BitVec.toNat_append, BitVec.toNat_setWidth]
    simp only [BitVec.toNat_ofNat, Nat.zero_mod, Nat.zero_shiftLeft, Nat.zero_or]
    omega
  rw [← hlow]
  constructor
  · intro h
    have hzero := h 0 (by decide)
    rwa [hbase, (hfree 0 (by decide)).1, BitVec.add_left_inj] at hzero
  · intro heq i hi
    rw [hbase, heq, (hfree i hi).1]

/-- Pages counted up from a page number. -/
def countingPages : PageSource Nat := ⟨fun n m => some (BitVec.ofNat 64 (0x1000 * n), n + 1, m)⟩

/-- The driver before `dev_e1000_init_rx`, over MMIO. -/
def idleE1000 : E1000 := ⟨.mmio, fun _ => 0, fun _ => 0, fun _ => ⟨0, 0, 0, 0, 0, 0⟩, 0⟩

/-- The driver after it. -/
def readyE1000 : E1000 :=
  ((devE1000InitRx countingPages idleE1000 ⟨fun _ => 0, 1⟩).map Prod.fst).getD idleE1000

/-- The device receives two packets, then one iteration runs. -/
theorem readyE1000_delivers_first :
    ∃ s m₀, devE1000InitRx countingPages idleE1000 ⟨fun _ => 0, 1⟩ = some (readyE1000, m₀) ∧
      Relation.ReflTransGen RecvStep ⟨readyE1000, [], []⟩ s ∧
      s.received = [(0x2000, 60), (0x5000, 42)] ∧ s.delivered = [(0x2000, 60)] ∧
      s.delivered <+: s.received ∧ s.dev.rdt = (s.dev.rxCur.toNat + 31) % 32 := by
  have hinit : ∃ m₀, devE1000InitRx countingPages idleE1000 ⟨fun _ => 0, 1⟩ =
      some (readyE1000, m₀) := ⟨_, rfl⟩
  obtain ⟨m₀, hinit⟩ := hinit
  let d₁ := deviceReceive ⟨0, 60, 0, 0, 0, 0⟩ readyE1000
  let d₂ := deviceReceive ⟨0, 42, 0, 0, 0, 0⟩ d₁
  have hsome : (recvIteration d₂).isSome := by decide +kernel
  obtain ⟨⟨packet, d₃⟩, hiter⟩ := Option.isSome_iff_exists.mp hsome
  obtain ⟨-, rfl, -⟩ := recvIteration_spec (by decide) hiter
  have hrun : Relation.ReflTransGen RecvStep ⟨readyE1000, [], []⟩
      ⟨d₃, [d₁.packet 0, d₂.packet 1], [d₂.packet 0]⟩ := by
    refine Relation.ReflTransGen.head (RecvStep.device ⟨0, 60, 0, 0, 0, 0⟩ ?_) ?_
    · decide +kernel
    refine Relation.ReflTransGen.head (RecvStep.device ⟨0, 42, 0, 0, 0, 0⟩ ?_) ?_
    · decide +kernel
    exact Relation.ReflTransGen.single (RecvStep.iteration hiter)
  obtain ⟨hpart, -, htail, -⟩ := receive_ring_in_order (by decide) hinit hrun
  have hreceived : [d₁.packet 0, d₂.packet 1] = [(0x2000, 60), (0x5000, 42)] := by decide +kernel
  have hdelivered : [d₂.packet 0] = [(0x2000, 60)] := by decide +kernel
  exact ⟨_, m₀, hinit, hrun, hreceived, hdelivered, hpart, htail⟩

end ChronOS.Drivers
