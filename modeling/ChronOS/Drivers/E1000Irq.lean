/-
  Drivers/E1000Irq.lean --- `e1000_irq_handler` in
  `kernel/src/drivers/ethernet/e1000/e1000.c`.

  The device latches the causes of its interrupts in one register, which is cleared
  by the read at the start of the handler.  The handler then looks at three of the
  causes in turn and serves the first one only, so a packet that arrived together
  with a change of the link or a threshold is left in the ring.

  Between two interrupts the device receives packets and latches causes in any
  order; the ring itself is the one of `Drivers/E1000.lean`.
-/
import ChronOS.Drivers.E1000

set_option autoImplicit false

namespace ChronOS.Drivers

open ChronOS.Foundation ChronOS.Mm

/-! ## The handler -/

def REG_CTRL : BitVec 16 := 0x0000
def REG_IMASK : BitVec 16 := 0x00D0
def ECTRL_SLU : BitVec 32 := 0x40

/-- The interrupt cause register, which the source calls `0xc0`. -/
def REG_ICR : BitVec 16 := 0x00C0

/-- `dev_e1000_read`; the read of the cause register clears it. -/
def devE1000Read (reg : BitVec 16) (d : E1000) : BitVec 32 × E1000 :=
  match d.ioType with
  | .unset => (0, d)
  | .mmio | .portIo =>
    (d.regs reg, if reg = REG_ICR then { d with regs := Function.update d.regs reg 0 } else d)

/-- `dev_e1000_linkup`. -/
def devE1000Linkup (d : E1000) : E1000 :=
  let (val, d) := devE1000Read REG_CTRL d
  devE1000Write REG_CTRL (val ||| ECTRL_SLU) d

/-- `e1000_irq_handler`, with the packets it handed to `net_handle`; `isInit` is
`e1000_is_init`. -/
def e1000IrqHandler (isInit : Bool) (fuel : Nat) (d : E1000) : Option (List Packet × E1000) :=
  let d := devE1000Write REG_IMASK 0x1 d
  let (status, d) := devE1000Read REG_ICR d
  if !isInit then some ([], d)
  else if status &&& 0x04 ≠ 0 then some ([], devE1000Linkup d)
  else if status &&& 0x10 ≠ 0 then some ([], d)
  else if status &&& 0x80 ≠ 0 then devE1000HandleRecv fuel d
  else some ([], d)

/-- The causes that are waiting to be read. -/
def E1000.causes (d : E1000) : BitVec 32 := d.regs REG_ICR

/-- The device latches further causes. -/
def latch (cause : BitVec 32) (d : E1000) : E1000 :=
  { d with regs := Function.update d.regs REG_ICR (d.causes ||| cause) }

/-- The device receives a packet or latches other causes, or an interrupt is handled. -/
inductive IrqStep : RecvState → RecvState → Prop
  | receive {s : RecvState} (wb : RxDesc) (hfree : s.dev.rdh ≠ s.dev.rdt) :
      IrqStep s ⟨latch 0x80 (deviceReceive wb s.dev),
        s.received ++ [(deviceReceive wb s.dev).packet s.dev.rdh], s.delivered⟩
  | cause {s : RecvState} (cause : BitVec 32) :
      IrqStep s ⟨latch cause s.dev, s.received, s.delivered⟩
  | irq {s : RecvState} {isInit : Bool} {packets : List Packet} {dev : E1000}
      (h : e1000IrqHandler isInit E1000_NUM_RX_DESC s.dev = some (packets, dev)) :
      IrqStep s ⟨dev, s.received, s.delivered ++ packets⟩

/-! ## Registers beside the ring -/

/-- A state that differs in registers other than RDH and RDT. -/
structure SameRing (d d' : E1000) : Prop where
  io : d'.ioType = d.ioType
  ptrs : d'.rxDescs = d.rxDescs
  descAt : d'.descAt = d.descAt
  cur : d'.rxCur = d.rxCur
  rdh : d'.rdh = d.rdh
  rdt : d'.rdt = d.rdt

namespace SameRing

variable {d d' d'' : E1000}

theorem trans (h : SameRing d d') (h' : SameRing d' d'') : SameRing d d'' :=
  ⟨h'.io.trans h.io, h'.ptrs.trans h.ptrs, h'.descAt.trans h.descAt, h'.cur.trans h.cur,
    h'.rdh.trans h.rdh, h'.rdt.trans h.rdt⟩

theorem desc (h : SameRing d d') : d'.desc = d.desc := by
  funext i
  rw [E1000.desc, E1000.desc, h.descAt, h.ptrs]

theorem packet (h : SameRing d d') : d'.packet = d.packet := by
  funext i
  rw [E1000.packet, E1000.packet, h.desc]

theorem ringHolds {n : Nat} (h : SameRing d d') (hring : RingHolds d n) : RingHolds d' n where
  io := h.io ▸ hring.io
  apart := h.ptrs ▸ hring.apart
  cur := h.cur ▸ hring.cur
  count := hring.count
  head := by rw [h.rdh, h.cur, hring.head]
  tail := by rw [h.rdt, h.cur, hring.tail]
  done := by
    intro i hi
    rw [h.cur, ← hring.done i hi, E1000.Done, E1000.Done, h.desc]

end SameRing

theorem update_sameRing (d : E1000) {reg : BitVec 16} (hhead : reg ≠ REG_RXDESCHEAD)
    (htail : reg ≠ REG_RXDESCTAIL) (value : BitVec 32) :
    SameRing d { d with regs := Function.update d.regs reg value } :=
  ⟨rfl, rfl, rfl, rfl, congrArg BitVec.toNat (Function.update_of_ne hhead.symm _ _),
    congrArg BitVec.toNat (Function.update_of_ne htail.symm _ _)⟩

theorem latch_sameRing (cause : BitVec 32) (d : E1000) : SameRing d (latch cause d) :=
  update_sameRing d (by decide) (by decide) _

theorem devE1000Linkup_sameRing {d : E1000} (hio : d.ioType ≠ .unset) :
    SameRing d (devE1000Linkup d) := by
  have hread : (devE1000Read REG_CTRL d).2 = d := by
    unfold devE1000Read
    split <;> rfl
  unfold devE1000Linkup
  dsimp only
  rw [hread, devE1000Write_eq hio]
  exact update_sameRing d (by decide) (by decide) _

/-- The start of the handler: the causes are read, and gone. -/
theorem handler_start {d : E1000} (hio : d.ioType ≠ .unset) :
    (devE1000Read REG_ICR (devE1000Write REG_IMASK 0x1 d)).1 = d.causes ∧
      SameRing d (devE1000Read REG_ICR (devE1000Write REG_IMASK 0x1 d)).2 := by
  have hne : REG_ICR ≠ REG_IMASK := by decide
  have hmask := @update_sameRing d REG_IMASK (by decide) (by decide) 0x1
  rw [devE1000Write_eq hio]
  unfold devE1000Read
  split
  · exact absurd ‹_› hio
  all_goals
    refine ⟨Function.update_of_ne hne 0x1 d.regs, ?_⟩
    rw [if_pos rfl]
    exact hmask.trans (update_sameRing _ (by decide) (by decide) _)

/-! ## One interrupt -/

/-- The causes for which an interrupt of an initialised driver looks at the ring. -/
def Serves (cause : BitVec 32) : Prop :=
  cause &&& 0x04 = 0 ∧ cause &&& 0x10 = 0 ∧ cause &&& 0x80 ≠ 0

instance (cause : BitVec 32) : Decidable (Serves cause) :=
  inferInstanceAs (Decidable (_ ∧ _ ∧ _))

/-- An interrupt delivers all that is in the ring, or nothing at all. -/
theorem e1000IrqHandler_spec {d : E1000} {n : Nat} (h : RingHolds d n) (isInit : Bool) :
    ∃ d', (isInit = true ∧ Serves d.causes ∧ RingHolds d' 0 ∧
        e1000IrqHandler isInit E1000_NUM_RX_DESC d =
          some (ringContents E1000_NUM_RX_DESC d.packet d.rxCur.toNat n, d')) ∨
      (¬ (isInit = true ∧ Serves d.causes) ∧ SameRing d d' ∧
        e1000IrqHandler isInit E1000_NUM_RX_DESC d = some ([], d')) := by
  obtain ⟨hstatus, hsame⟩ := handler_start h.io
  have hring := hsame.ringHolds h
  unfold e1000IrqHandler
  dsimp only
  rw [hstatus]
  split_ifs with hinit hlink hthreshold hreceive
  · exact ⟨_, Or.inr ⟨fun hserves => by simp [hserves.1] at hinit, hsame, rfl⟩⟩
  · exact ⟨_, Or.inr ⟨fun hserves => hlink hserves.2.1,
      hsame.trans (devE1000Linkup_sameRing hring.io), rfl⟩⟩
  · exact ⟨_, Or.inr ⟨fun hserves => hthreshold hserves.2.2.1, hsame, rfl⟩⟩
  · obtain ⟨d', hrecv, hempty⟩ := handleRecv_drains h.count hring
    rw [hsame.packet, hsame.cur] at hrecv
    exact ⟨d', Or.inl ⟨by simpa using hinit, ⟨not_not.mp hlink, not_not.mp hthreshold, hreceive⟩,
      hempty, hrecv⟩⟩
  · exact ⟨_, Or.inr ⟨fun hserves => hreceive hserves.2.2.2, hsame, rfl⟩⟩

/-! ## Runs -/

theorem IrqStep.balanced {s s' : RecvState} (hstep : IrqStep s s') (h : s.Balanced) :
    s'.Balanced := by
  obtain ⟨n, hring, hbalance⟩ := h
  cases hstep with
  | receive wb hfree =>
    obtain ⟨n', hring', hbalance'⟩ := (RecvStep.device wb hfree).balanced ⟨n, hring, hbalance⟩
    have hlatch := latch_sameRing 0x80 (deviceReceive wb s.dev)
    refine ⟨n', hlatch.ringHolds hring', ?_⟩
    dsimp only at hbalance' ⊢
    rw [hlatch.packet, hlatch.cur, hbalance']
  | cause cause =>
    have hlatch := latch_sameRing cause s.dev
    refine ⟨n, hlatch.ringHolds hring, ?_⟩
    dsimp only
    rw [hlatch.packet, hlatch.cur, hbalance]
  | irq hirq =>
    rename_i isInit packets dev
    obtain ⟨d', ⟨-, -, hempty, hrun⟩ | ⟨-, hsame, hrun⟩⟩ := e1000IrqHandler_spec hring isInit
    · obtain ⟨rfl, rfl⟩ := Prod.mk.inj (Option.some.inj (hirq.symm.trans hrun))
      exact ⟨0, hempty, by rw [hbalance]; exact (List.append_nil _).symm⟩
    · obtain ⟨rfl, rfl⟩ := Prod.mk.inj (Option.some.inj (hirq.symm.trans hrun))
      refine ⟨n, hsame.ringHolds hring, ?_⟩
      dsimp only
      rw [hsame.packet, hsame.cur, hbalance, List.append_nil]

theorem irq_balanced {s s' : RecvState} (hrun : Relation.ReflTransGen IrqStep s s')
    (h : s.Balanced) : s'.Balanced := by
  induction hrun with
  | refl => exact h
  | tail _ hstep ih => exact hstep.balanced ih

/-- The next interrupt hands every packet to `net_handle` whose descriptor has its DD bit set. -/
def DeliversAll (d : E1000) : Prop :=
  ∃ packets d', e1000IrqHandler true E1000_NUM_RX_DESC d = some (packets, d') ∧
    ∀ i < E1000_NUM_RX_DESC, d.Done i → d.packet i ∈ packets

/-- After any run of the device and of interrupts, an interrupt with the receive cause delivers
all packets in the ring exactly when neither of the other two causes is latched with it, or there
is no packet. -/
theorem receive_interrupt_delivers_iff {σ : Type} {src : PageSource σ} {d d₀ : E1000}
    {m m₀ : Machine σ} (hio : d.ioType ≠ .unset)
    (hinit : devE1000InitRx src d m = some (d₀, m₀)) {s : RecvState}
    (hrun : Relation.ReflTransGen IrqStep ⟨d₀, [], []⟩ s) (hreceive : s.dev.causes &&& 0x80 ≠ 0) :
    DeliversAll s.dev ↔ (s.dev.causes &&& 0x04 = 0 ∧ s.dev.causes &&& 0x10 = 0) ∨
      ∀ i < E1000_NUM_RX_DESC, ¬ s.dev.Done i := by
  have hempty : RecvState.Balanced ⟨d₀, [], []⟩ := ⟨0, devE1000InitRx_empty hio hinit, rfl⟩
  obtain ⟨n, hring, -⟩ := irq_balanced hrun hempty
  obtain ⟨d', ⟨-, hserves, -, hirq⟩ | ⟨hnot, -, hirq⟩⟩ := e1000IrqHandler_spec hring true
  · refine iff_of_true ⟨_, d', hirq, fun i hi hdone => ?_⟩ (Or.inl ⟨hserves.1, hserves.2.1⟩)
    exact List.mem_map_of_mem ((hring.done i hi).mp hdone)
  · constructor
    · rintro ⟨packets, d'', hirq', hall⟩
      obtain ⟨rfl, -⟩ := Prod.mk.inj (Option.some.inj (hirq.symm.trans hirq'))
      exact Or.inr fun i hi hdone => List.not_mem_nil (hall i hi hdone)
    · rintro (hcauses | hnone)
      · exact absurd ⟨rfl, hcauses.1, hcauses.2, hreceive⟩ hnot
      · exact ⟨[], d', hirq, fun i hi hdone => absurd hdone (hnone i hi)⟩

/-- A packet of 60 bytes arrives at the driver after its initialisation. -/
def onePacket : E1000 := latch 0x80 (deviceReceive ⟨0, 60, 0, 0, 0, 0⟩ readyE1000)

theorem onePacket_run :
    Relation.ReflTransGen IrqStep ⟨readyE1000, [], []⟩ ⟨onePacket, [(0x2000, 60)], []⟩ := by
  have hstep := IrqStep.receive (s := ⟨readyE1000, [], []⟩) ⟨0, 60, 0, 0, 0, 0⟩ (by decide +kernel)
  have hpacket : (deviceReceive ⟨0, 60, 0, 0, 0, 0⟩ readyE1000).packet readyE1000.rdh =
      (0x2000, 60) := by decide +kernel
  rw [hpacket] at hstep
  exact Relation.ReflTransGen.single hstep

/-- With no other cause the packet is delivered. -/
theorem onePacket_delivered :
    onePacket.causes &&& 0x80 ≠ 0 ∧ onePacket.Done 0 ∧ DeliversAll onePacket := by
  obtain ⟨m₀, hinit⟩ : ∃ m₀, devE1000InitRx countingPages idleE1000 ⟨fun _ => 0, 1⟩ =
      some (readyE1000, m₀) := ⟨_, rfl⟩
  have hcauses : onePacket.causes &&& 0x80 ≠ 0 := by decide +kernel
  refine ⟨hcauses, by decide +kernel, ?_⟩
  exact (receive_interrupt_delivers_iff (by decide) hinit onePacket_run hcauses).mpr
    (Or.inl (by decide +kernel))

/-- When the link changes before the interrupt is handled, the packet stays in the ring, and the
cause that announced it is gone. -/
theorem onePacket_with_link_change :
    Relation.ReflTransGen IrqStep ⟨readyE1000, [], []⟩
        ⟨latch 0x04 onePacket, [(0x2000, 60)], []⟩ ∧
      (latch 0x04 onePacket).causes = 0x84 ∧ (latch 0x04 onePacket).Done 0 ∧
      ¬ DeliversAll (latch 0x04 onePacket) ∧
      ∃ d', e1000IrqHandler true E1000_NUM_RX_DESC (latch 0x04 onePacket) = some ([], d') ∧
        d'.causes = 0 ∧ d'.Done 0 := by
  have hdone : (latch 0x04 onePacket).Done 0 := by decide +kernel
  obtain ⟨d', hirq⟩ : ∃ d', e1000IrqHandler true E1000_NUM_RX_DESC (latch 0x04 onePacket) =
      some ([], d') := ⟨_, rfl⟩
  refine ⟨onePacket_run.tail (IrqStep.cause 0x04), by decide +kernel, hdone, ?_, ?_⟩
  · rintro ⟨packets, d'', hirq', hall⟩
    obtain ⟨rfl, -⟩ := Prod.mk.inj (Option.some.inj (hirq.symm.trans hirq'))
    exact List.not_mem_nil (hall 0 (by decide) hdone)
  · exact ⟨_, rfl, by decide +kernel, by decide +kernel⟩

end ChronOS.Drivers
