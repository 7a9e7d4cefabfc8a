/-
  Net/Arp.lean --- `net_handle`, `arp_handle` and `ethernet_send_packet`.

  A C object is the function from offsets to its bytes; `arp_handle` works in place
  on the received frame, whose ARP part starts at offset 14.  What `kmalloc` returns
  holds arbitrary bytes.  `net_handle` is given with the frames that it passes to
  `dev_e1000_send_data`.

  `arp_handle` looks for `ARP_REQUEST` in the hardware type, which is 1 in every ARP
  packet on Ethernet, and at the target address not at all.  So every such packet
  for IPv4 is answered, an answer too.
-/
import ChronOS.Utils.Strings

set_option autoImplicit false

namespace ChronOS.Net

open ChronOS.Foundation ChronOS.Utils

/-! ## Objects -/

/-- The contents of an object, by offset. -/
abbrev Bytes := Nat → Byte

namespace Bytes

def set (b : Bytes) (o : Nat) (v : Byte) : Bytes := fun i => if i = o then v else b i

/-- A 16-bit load and store; the machine is little-endian. -/
def read16 (b : Bytes) (o : Nat) : BitVec 16 := b (o + 1) ++ b o

def write16 (b : Bytes) (o : Nat) (v : BitVec 16) : Bytes :=
  (b.set o (v.extractLsb' 0 8)).set (o + 1) (v.extractLsb' 8 8)

/-- `memcpy` of `n` bytes to offset `o` from offset `o'` of another object. -/
def memcpy (b : Bytes) (o : Nat) (src : Bytes) (o' n : Nat) : Bytes := fun i =>
  if o ≤ i ∧ i < o + n then src (o' + (i - o)) else b i

end Bytes

/-! ## The handlers -/

def swap16 (x : BitVec 16) : BitVec 16 := x >>> 8 ||| x <<< 8

def ntohs (netshort : BitVec 16) : BitVec 16 := swap16 netshort

def htons (hostshort : BitVec 16) : BitVec 16 := swap16 hostshort

def ETHERNET_PROTOCOL_IPV4 : BitVec 16 := 0x0800
def ETHERNET_HW_TYPE : BitVec 16 := 1
def ARP_REQUEST : BitVec 16 := 1
def ARP_REPLY : BitVec 16 := 2

/-- `sizeof(ethernet_packet_t)` and `sizeof(arp_packet_t)`. -/
def ETHERNET_HEADER : Nat := 14
def ARP_SIZE : Nat := 28

/-- A frame passed to `dev_e1000_send_data`, with its length. -/
structure Frame where
  bytes : Bytes
  length : Nat

/-- `broadcast_mac`. -/
def broadcastMac : Bytes := fun _ => 0xFF

/-- `ethernet_send_packet`; `packet` is the block that `kmalloc` returned, `data` starts at offset
`o` of its object. -/
def ethernetSendPacket (mac packet destination data : Bytes) (o length : Nat)
    (protocol : BitVec 16) : Frame :=
  let packet := packet.memcpy 0 destination 0 6
  let packet := packet.memcpy 6 mac 0 6
  let packet := packet.memcpy ETHERNET_HEADER data o length
  let packet := packet.write16 12 (htons protocol)
  ⟨packet, length + ETHERNET_HEADER⟩

/-- The fields that `arp_handle` overwrites, in the order in which it does. -/
def arpReply (mac destHwAddress destProtocolAddress data : Bytes) (p : Nat) : Bytes :=
  let data := data.memcpy (p + 8) mac 0 6
  let data := data.set (p + 14) 192
  let data := data.set (p + 15) 168
  let data := data.set (p + 16) 1
  let data := data.set (p + 17) 100
  let data := data.memcpy (p + 18) destHwAddress 0 6
  let data := data.memcpy (p + 24) destProtocolAddress 0 4
  let data := data.write16 (p + 6) (htons ARP_REPLY)
  let data := data.set (p + 4) 6
  let data := data.set (p + 5) 4
  let data := data.write16 p (htons ETHERNET_HW_TYPE)
  data.write16 (p + 2) (htons ETHERNET_PROTOCOL_IPV4)

/-- `arp_handle` on the packet at offset `p`: the object after it, and the frames sent.  `stack`
are the bytes of its two local arrays before they are filled. -/
def arpHandle (mac kmalloc stack data : Bytes) (p : Nat) : Bytes × List Frame :=
  let destHwAddress := stack.memcpy 0 data (p + 8) 6
  let destProtocolAddress := stack.memcpy 0 data (p + 14) 4
  if ntohs (data.read16 (p + 2)) = ETHERNET_PROTOCOL_IPV4 then
    if ntohs (data.read16 p) = ARP_REQUEST then
      let data := arpReply mac destHwAddress destProtocolAddress data p
      (data, [ethernetSendPacket mac kmalloc destHwAddress data p ARP_SIZE 0x806])
    else
      -- an ARP_REPLY is only logged
      (data, [])
  else (data, [])

/-- `net_handle`; IPv4 packets are only logged. -/
def netHandle (mac kmalloc stack data : Bytes) : Bytes × List Frame :=
  if memcmp data mac 6 = 0 ∨ memcmp data broadcastMac 6 = 0 then
    if ntohs (data.read16 12) = 0x806 then arpHandle mac kmalloc stack data ETHERNET_HEADER
    else (data, [])
  else (data, [])

/-! ## The fields of a frame -/

/-- The value of a 16-bit field on the wire, where the high byte comes first. -/
theorem ntohs_read16 (b : Bytes) (o : Nat) : ntohs (b.read16 o) = b o ++ b (o + 1) := by
  have hbit : ∀ (x y : Byte) (i : Nat), BitVec.getLsbD (w := 16) (x ++ y) i =
      if i < 8 then y.getLsbD i else x.getLsbD (i - 8) := fun x y i => BitVec.getLsbD_append
  apply BitVec.eq_of_getLsbD_eq
  intro i hi
  have hhigh : ¬ 8 + i < 8 := by omega
  rw [ntohs, swap16, Bytes.read16, BitVec.getLsbD_or, BitVec.getLsbD_ushiftRight,
    BitVec.getLsbD_shiftLeft, hbit, hbit, hbit, if_neg hhigh, Nat.add_sub_cancel_left]
  by_cases hlow : i < 8
  · simp [hlow]
  · have hrest : i - 8 < 8 := by omega
    have hzero : (b (o + 1)).getLsbD i = false := BitVec.getLsbD_of_ge _ _ (by omega)
    simp [hi, hlow, hrest, hzero]

/-- A frame is a frame for `mac`. -/
def ForHost (mac data : Bytes) : Prop :=
  (∀ i < 6, data i = mac i) ∨ ∀ i < 6, data i = 0xFF

/-- The ARP part of a frame, as it is on the wire. -/
def hardwareType (data : Bytes) : BitVec 16 := data 14 ++ data 15

def protocol (data : Bytes) : BitVec 16 := data 16 ++ data 17

def opcode (data : Bytes) : BitVec 16 := data 20 ++ data 21

/-- The target protocol address is 192.168.1.100. -/
def TargetIsHost (data : Bytes) : Prop :=
  data 38 = 192 ∧ data 39 = 168 ∧ data 40 = 1 ∧ data 41 = 100

/-- What should be answered: a request for IPv4 and for the host's address, sent to the host. -/
def ShouldAnswer (mac data : Bytes) : Prop :=
  ForHost mac data ∧ protocol data = ETHERNET_PROTOCOL_IPV4 ∧ opcode data = ARP_REQUEST ∧
    TargetIsHost data

/-- The frame is the answer to the request in `data`. -/
structure Answers (mac data : Bytes) (frame : Frame) : Prop where
  length : frame.length = ETHERNET_HEADER + ARP_SIZE
  destination : ∀ i < 6, frame.bytes i = data (22 + i)
  source : ∀ i < 6, frame.bytes (6 + i) = mac i
  type : frame.bytes 12 = 0x08 ∧ frame.bytes 13 = 0x06
  hardwareType : hardwareType frame.bytes = ETHERNET_HW_TYPE
  protocol : protocol frame.bytes = ETHERNET_PROTOCOL_IPV4
  lengths : frame.bytes 18 = 6 ∧ frame.bytes 19 = 4
  opcode : opcode frame.bytes = ARP_REPLY
  srcHardware : ∀ i < 6, frame.bytes (22 + i) = mac i
  srcProtocol : frame.bytes 28 = 192 ∧ frame.bytes 29 = 168 ∧ frame.bytes 30 = 1 ∧
    frame.bytes 31 = 100
  dstHardware : ∀ i < 6, frame.bytes (32 + i) = data (22 + i)
  dstProtocol : ∀ i < 4, frame.bytes (38 + i) = data (28 + i)

/-- Whatever is sent is an answer to the frame that was received. -/
theorem sendPacket_answers (mac kmalloc stack data : Bytes) :
    Answers mac data (ethernetSendPacket mac kmalloc (stack.memcpy 0 data 22 6)
      (arpReply mac (stack.memcpy 0 data 22 6) (stack.memcpy 0 data 28 4) data 14)
      14 ARP_SIZE 0x806) := by
  -- every byte of the frame is found by evaluating the writes at its offset
  constructor
  case length => rfl
  case destination => intro i hi; interval_cases i <;> rfl
  case source => intro i hi; interval_cases i <;> rfl
  case type => exact ⟨rfl, rfl⟩
  case hardwareType => exact (rfl : _ = (0#8 ++ 1#8 : BitVec 16))
  case protocol => exact (rfl : _ = (8#8 ++ 0#8 : BitVec 16))
  case lengths => exact ⟨rfl, rfl⟩
  case opcode => exact (rfl : _ = (0#8 ++ 2#8 : BitVec 16))
  case srcHardware => intro i hi; interval_cases i <;> rfl
  case srcProtocol => exact ⟨rfl, rfl, rfl, rfl⟩
  case dstHardware => intro i hi; interval_cases i <;> rfl
  case dstProtocol => intro i hi; interval_cases i <;> rfl

/-! ## When a frame is answered -/

/-- The type of a frame, as it is on the wire. -/
def etherType (data : Bytes) : BitVec 16 := data 12 ++ data 13

section Handle

variable (mac kmalloc stack data : Bytes)

theorem forHost_iff :
    memcmp data mac 6 = 0 ∨ memcmp data broadcastMac 6 = 0 ↔ ForHost mac data :=
  or_congr (memcmp_eq_zero data mac 6) (memcmp_eq_zero data broadcastMac 6)

/-- The condition under which the code answers: a packet for IPv4 with hardware type 1. -/
def Answered : Prop :=
  ForHost mac data ∧ protocol data = ETHERNET_PROTOCOL_IPV4 ∧ hardwareType data = ARP_REQUEST

theorem netHandle_answered (htype : etherType data = 0x806) (h : Answered mac data) :
    ∃ frame, (netHandle mac kmalloc stack data).2 = [frame] ∧ Answers mac data frame := by
  obtain ⟨hhost, hprotocol, hhardware⟩ := h
  refine ⟨_, ?_, sendPacket_answers mac kmalloc stack data⟩
  have htype : ntohs (data.read16 12) = 0x806 := (ntohs_read16 data 12).trans htype
  have hprotocol : ntohs (data.read16 (ETHERNET_HEADER + 2)) = ETHERNET_PROTOCOL_IPV4 :=
    (ntohs_read16 data 16).trans hprotocol
  have hhardware : ntohs (data.read16 ETHERNET_HEADER) = ARP_REQUEST :=
    (ntohs_read16 data 14).trans hhardware
  rw [netHandle, if_pos ((forHost_iff mac data).mpr hhost), if_pos htype, arpHandle,
    if_pos hprotocol, if_pos hhardware]
  rfl

theorem netHandle_ignored (h : ¬ Answered mac data) :
    (netHandle mac kmalloc stack data).2 = [] := by
  rw [netHandle]
  split_ifs with hhost hether
  · rw [arpHandle, ntohs_read16, ntohs_read16]
    split_ifs with hprotocol hhardware
    · exact absurd ⟨(forHost_iff mac data).mp hhost, hprotocol, hhardware⟩ h
    · rfl
    · rfl
  · rfl
  · rfl

/-- A frame is sent for exactly the frames that should be answered, and it is the answer. -/
def ResponderLaw : Prop :=
  ((netHandle mac kmalloc stack data).2 ≠ [] ↔ ShouldAnswer mac data) ∧
    (netHandle mac kmalloc stack data).2.length ≤ 1 ∧
    ∀ frame ∈ (netHandle mac kmalloc stack data).2, Answers mac data frame

theorem sent_iff (htype : etherType data = 0x806) :
    (netHandle mac kmalloc stack data).2 ≠ [] ↔ Answered mac data := by
  constructor
  · intro hsent
    by_contra h
    exact hsent (netHandle_ignored mac kmalloc stack data h)
  · intro h
    obtain ⟨frame, hsent, -⟩ := netHandle_answered mac kmalloc stack data htype h
    rw [hsent]
    exact List.cons_ne_nil frame []

theorem sent_answers (htype : etherType data = 0x806) :
    (netHandle mac kmalloc stack data).2.length ≤ 1 ∧
      ∀ frame ∈ (netHandle mac kmalloc stack data).2, Answers mac data frame := by
  by_cases h : Answered mac data
  · obtain ⟨frame, hsent, hanswers⟩ := netHandle_answered mac kmalloc stack data htype h
    rw [hsent]
    refine ⟨Nat.le_refl 1, fun g hg => ?_⟩
    rw [List.mem_singleton.mp hg]
    exact hanswers
  · rw [netHandle_ignored mac kmalloc stack data h]
    exact ⟨Nat.zero_le 1, fun g hg => absurd hg List.not_mem_nil⟩

/-- The law holds for an ARP frame exactly when it is not for the host, or not for IPv4, or its
hardware type is 1 exactly when it is a request for the host's address. -/
theorem arp_responder_iff (htype : etherType data = 0x806) :
    ResponderLaw mac kmalloc stack data ↔
      ¬ ForHost mac data ∨ protocol data ≠ ETHERNET_PROTOCOL_IPV4 ∨
        (hardwareType data = ARP_REQUEST ↔ opcode data = ARP_REQUEST ∧ TargetIsHost data) := by
  have hsent := sent_iff mac kmalloc stack data htype
  have hanswers := sent_answers mac kmalloc stack data htype
  unfold ResponderLaw ShouldAnswer
  rw [and_iff_left hanswers, hsent, Answered]
  by_cases hhost : ForHost mac data
  · by_cases hprotocol : protocol data = ETHERNET_PROTOCOL_IPV4
    · simp [hhost, hprotocol]
    · simp [hprotocol]
  · simp [hhost]

end Handle

/-! ## Two hosts -/

/-- An answer is answered by the host that it is for. -/
theorem Answers.answered {mac peer data : Bytes} {frame : Frame} (h : Answers mac data frame)
    (hpeer : ∀ i < 6, data (22 + i) = peer i) :
    etherType frame.bytes = 0x806 ∧ Answered peer frame.bytes := by
  refine ⟨?_, Or.inl fun i hi => (h.destination i hi).trans (hpeer i hi), h.protocol,
    h.hardwareType⟩
  rw [etherType, h.type.1, h.type.2]
  rfl

/-- The first `n` frames that two hosts send each other after the first has received `frame`. -/
def exchange (kmalloc stack : Bytes) : Nat → Bytes → Bytes → Bytes → List Frame
  | 0, _, _, _ => []
  | n + 1, mac, peer, data =>
    match (netHandle mac kmalloc stack data).2 with
    | [] => []
    | frame :: _ => frame :: exchange kmalloc stack n peer mac frame.bytes

/-- Once a host has answered another one that runs the same code, the two never stop. -/
theorem exchange_length (kmalloc stack : Bytes) (n : Nat) {mac peer data : Bytes}
    (htype : etherType data = 0x806) (h : Answered mac data)
    (hpeer : ∀ i < 6, data (22 + i) = peer i) :
    (exchange kmalloc stack n mac peer data).length = n := by
  induction n generalizing mac peer data with
  | zero => rfl
  | succ n ih =>
    obtain ⟨frame, hsent, hanswers⟩ := netHandle_answered mac kmalloc stack data htype h
    obtain ⟨htype', hagain⟩ := hanswers.answered hpeer
    rw [exchange, hsent, List.length_cons, ih htype' hagain hanswers.srcHardware]

/-- A device's MAC address. -/
def hostMac : Bytes := fun i => [0x52, 0x54, 0x00, 0x12, 0x34, 0x56].getD i 0

/-- An ARP packet to `hostMac` from 02:00:00:00:00:01 at 192.168.1.2, for 192.168.1.100. -/
def arpFrame (opcode : Byte) : Bytes := fun i =>
  [0x52, 0x54, 0x00, 0x12, 0x34, 0x56, 0x02, 0x00, 0x00, 0x00, 0x00, 0x01, 0x08, 0x06,
    0x00, 0x01, 0x08, 0x00, 6, 4, 0x00, opcode, 0x02, 0x00, 0x00, 0x00, 0x00, 0x01, 192, 168, 1, 2,
    0x52, 0x54, 0x00, 0x12, 0x34, 0x56, 192, 168, 1, 100].getD i 0

/-- A reply is answered. -/
theorem arpFrame_reply_answered :
    etherType (arpFrame 2) = 0x806 ∧ opcode (arpFrame 2) = ARP_REPLY ∧
      ¬ ShouldAnswer hostMac (arpFrame 2) ∧
      (netHandle hostMac (fun _ => 0) (fun _ => 0) (arpFrame 2)).2.length = 1 := by
  refine ⟨by decide, by decide, fun h => ?_, by decide⟩
  exact absurd h.2.2.1 (by decide)

/-- A request for the host's address is answered as it should. -/
theorem arpFrame_request_law :
    etherType (arpFrame 1) = 0x806 ∧ ShouldAnswer hostMac (arpFrame 1) ∧
      ResponderLaw hostMac (fun _ => 0) (fun _ => 0) (arpFrame 1) := by
  have htarget : TargetIsHost (arpFrame 1) := ⟨rfl, rfl, rfl, rfl⟩
  refine ⟨by decide, ⟨Or.inl (by decide), by decide, by decide, htarget⟩, ?_⟩
  refine (arp_responder_iff hostMac _ _ (arpFrame 1) (by decide)).mpr (Or.inr (Or.inr ?_))
  exact ⟨fun _ => ⟨by decide, htarget⟩, fun _ => by decide⟩

end ChronOS.Net
