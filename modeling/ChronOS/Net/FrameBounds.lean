/-
  Net/FrameBounds.lean --- the bytes of a received frame that `net_handle`,
  `arp_handle` and `ipv4_handle` touch.

  `net_handle` gets the length of the frame but compares the destination and reads
  the type without looking at it, and does not pass it to `arp_handle`.
  `ipv4_handle` compares the length of the whole frame with the size of the IPv4
  header alone, which starts 14 bytes into the frame.

  The offsets are listed in the order of the accesses; a byte that is not in the
  list has no influence on the handlers and is not changed by them
  (`netHandle_set_outside`, `ipv4Handle_set_outside`).
-/
import ChronOS.Net.Arp

set_option autoImplicit false

namespace ChronOS.Net

open ChronOS.Foundation ChronOS.Utils

/-! ## The accesses -/

/-- `sizeof(ipv4_packet_t)`. -/
def IPV4_SIZE : Nat := 20

/-- `ipv4_handle` on the packet at offset `p`: the protocol that it logs.  The comparison with
`sizeof` is one of 64-bit unsigned numbers. -/
def ipv4Handle (data : Bytes) (p : Nat) (length : BitVec 32) : Option Byte :=
  if (length.signExtend 64).toNat < IPV4_SIZE then none else some (data (p + 9))

/-- The offsets of `a` that `memcmp` reads from `i` on: it stops at the first difference. -/
def memcmpReads (a b : Bytes) : Nat → Nat → List Nat
  | _, 0 => []
  | i, n + 1 => i :: if a i = b i then memcmpReads a b (i + 1) n else []

/-- The bytes of the destination that `net_handle` compares. -/
def destinationReads (mac data : Bytes) : List Nat :=
  memcmpReads data mac 0 6 ++
    if memcmp data mac 6 = 0 then [] else memcmpReads data broadcastMac 0 6

/-- The fields that `arp_handle` stores to, in the order of `arpReply`. -/
def arpReplyWrites (p : Nat) : List Nat :=
  List.range' (p + 8) 6 ++ [p + 14, p + 15, p + 16, p + 17] ++ List.range' (p + 18) 6 ++
    List.range' (p + 24) 4 ++ [p + 6, p + 7, p + 4, p + 5, p, p + 1, p + 2, p + 3]

/-- The accesses of `arp_handle` to the packet at offset `p`. -/
def arpAccesses (data : Bytes) (p : Nat) : List Nat :=
  List.range' (p + 8) 6 ++ List.range' (p + 14) 4 ++ [p + 2, p + 3] ++
    if ntohs (data.read16 (p + 2)) = ETHERNET_PROTOCOL_IPV4 then
      [p, p + 1] ++
        if ntohs (data.read16 p) = ARP_REQUEST then
          -- `ethernet_send_packet` copies the packet
          arpReplyWrites p ++ List.range' p ARP_SIZE
        else
          [p, p + 1] ++ if ntohs (data.read16 p) = ARP_REPLY then List.range' (p + 8) 6 else []
    else []

/-- The accesses of `ipv4_handle`. -/
def ipv4Accesses (p : Nat) (length : BitVec 32) : List Nat :=
  if (length.signExtend 64).toNat < IPV4_SIZE then [] else [p + 9]

/-- The accesses of `net_handle` to a frame. -/
def netAccesses (mac data : Bytes) (length : BitVec 32) : List Nat :=
  destinationReads mac data ++
    if memcmp data mac 6 = 0 ∨ memcmp data broadcastMac 6 = 0 then
      [12, 13] ++
        if ntohs (data.read16 12) = 0x806 then arpAccesses data ETHERNET_HEADER
        else
          [12, 13] ++
            if ntohs (data.read16 12) = 0x800 then ipv4Accesses ETHERNET_HEADER length else []
    else []

/-! ## Bytes that are not accessed -/

namespace Bytes

theorem set_of_ne {b : Bytes} {o i : Nat} {v : Byte} (h : i ≠ o) : b.set o v i = b i := if_neg h

theorem read16_set {b : Bytes} {o i : Nat} {v : Byte} (h : o ∉ [i, i + 1]) :
    (b.set o v).read16 i = b.read16 i := by
  simp only [List.mem_cons, List.not_mem_nil, or_false, not_or] at h
  rw [read16, read16, set_of_ne (Ne.symm h.1), set_of_ne (Ne.symm h.2)]

theorem set_comm {b : Bytes} {o i : Nat} {v w : Byte} (h : o ≠ i) :
    (b.set o v).set i w = (b.set i w).set o v := by
  funext j
  unfold set
  split_ifs with hi ho
  · exact absurd (ho.symm.trans hi) h
  · rfl
  · rfl
  · rfl

theorem write16_set {b : Bytes} {o i : Nat} {v : Byte} {w : BitVec 16} (h : o ≠ i)
    (h' : o ≠ i + 1) : (b.set o v).write16 i w = (b.write16 i w).set o v := by
  rw [write16, set_comm h, set_comm h']
  rfl

theorem memcpy_set_dst {b src : Bytes} {o i i' n : Nat} {v : Byte} (h : o ∉ List.range' i n) :
    (b.set o v).memcpy i src i' n = (b.memcpy i src i' n).set o v := by
  rw [List.mem_range'_1] at h
  funext j
  by_cases hj : j = o
  · subst hj
    have hout : ¬ (i ≤ j ∧ j < i + n) := h
    simp only [memcpy, set, if_neg hout, if_true]
  · simp only [memcpy, set, if_neg hj]

theorem memcpy_set_src {b src : Bytes} {o i i' n : Nat} {v : Byte} (h : o ∉ List.range' i' n) :
    b.memcpy i (src.set o v) i' n = b.memcpy i src i' n := by
  rw [List.mem_range'_1] at h
  funext j
  unfold memcpy
  split_ifs with hin
  · exact set_of_ne (by omega)
  · rfl

end Bytes

section Outside

variable {mac kmalloc stack data : Bytes} {o p : Nat} {v : Byte}

theorem memcmpFrom_set_outside (b : Bytes) :
    ∀ {n i : Nat}, o ∉ memcmpReads data b i n →
      memcmpFrom (data.set o v) b i n = memcmpFrom data b i n := by
  intro n
  induction n with
  | zero => exact fun _ => rfl
  | succ n ih =>
    intro i h
    rw [memcmpReads, List.mem_cons, not_or] at h
    obtain ⟨hi, hrest⟩ := h
    rw [memcmpFrom, memcmpFrom, Bytes.set_of_ne (Ne.symm hi)]
    by_cases heq : data i = b i
    · rw [if_pos heq] at hrest
      rw [ih hrest]
    · -- a difference ends both loops
      by_cases hlt : data i < b i
      · rw [if_pos hlt, if_pos hlt]
      · have hgt : b i < data i := BitVec.lt_of_le_ne (BitVec.not_lt.mp hlt) (Ne.symm heq)
        rw [if_neg hlt, if_pos hgt, if_neg hlt, if_pos hgt]

theorem arpReply_set_outside {hw proto : Bytes} (h : o ∉ arpReplyWrites p) :
    arpReply mac hw proto (data.set o v) p = (arpReply mac hw proto data p).set o v := by
  simp only [arpReplyWrites, List.mem_append, List.mem_cons, List.not_mem_nil, or_false,
    not_or] at h
  obtain ⟨⟨⟨⟨hsrc, h14, h15, h16, h17⟩, hdst⟩, hproto⟩, h6, h7, h4, h5, h0, h1, h2, h3⟩ := h
  unfold arpReply
  dsimp only
  rw [Bytes.memcpy_set_dst hsrc, Bytes.set_comm h14, Bytes.set_comm h15, Bytes.set_comm h16,
    Bytes.set_comm h17, Bytes.memcpy_set_dst hdst, Bytes.memcpy_set_dst hproto,
    Bytes.write16_set h6 h7, Bytes.set_comm h4, Bytes.set_comm h5, Bytes.write16_set h0 h1,
    Bytes.write16_set h2 h3]

theorem arpHandle_set_outside (h : o ∉ arpAccesses data p) :
    arpHandle mac kmalloc stack (data.set o v) p =
      ((arpHandle mac kmalloc stack data p).1.set o v,
        (arpHandle mac kmalloc stack data p).2) := by
  unfold arpAccesses at h
  rw [List.mem_append, List.mem_append, List.mem_append, not_or, not_or, not_or] at h
  obtain ⟨⟨⟨hhw, hproto⟩, htype⟩, hrest⟩ := h
  unfold arpHandle
  dsimp only
  rw [Bytes.memcpy_set_src hhw, Bytes.memcpy_set_src hproto, Bytes.read16_set htype]
  by_cases hip : ntohs (data.read16 (p + 2)) = ETHERNET_PROTOCOL_IPV4
  · rw [if_pos hip, List.mem_append, not_or] at hrest
    obtain ⟨hkind, hrest⟩ := hrest
    rw [if_pos hip, if_pos hip, Bytes.read16_set hkind]
    by_cases hrequest : ntohs (data.read16 p) = ARP_REQUEST
    · rw [if_pos hrequest, List.mem_append, not_or] at hrest
      rw [if_pos hrequest, if_pos hrequest, arpReply_set_outside hrest.1, ethernetSendPacket,
        Bytes.memcpy_set_src hrest.2]
      rfl
    · rw [if_neg hrequest, if_neg hrequest]
  · rw [if_neg hip, if_neg hip]

theorem ipv4Handle_set_outside {length : BitVec 32} (h : o ∉ ipv4Accesses p length) :
    ipv4Handle (data.set o v) p length = ipv4Handle data p length := by
  unfold ipv4Accesses at h
  unfold ipv4Handle
  split_ifs at h ⊢ with hshort
  · rfl
  · rw [Bytes.set_of_ne fun heq => h (List.mem_singleton.mpr heq.symm)]

/-- A byte that is not accessed is neither changed nor looked at. -/
theorem netHandle_set_outside {length : BitVec 32} (h : o ∉ netAccesses mac data length) :
    netHandle mac kmalloc stack (data.set o v) =
      ((netHandle mac kmalloc stack data).1.set o v, (netHandle mac kmalloc stack data).2) := by
  unfold netAccesses at h
  rw [List.mem_append, not_or, destinationReads, List.mem_append, not_or] at h
  obtain ⟨⟨hmac, hbroadcast⟩, hrest⟩ := h
  have hown : memcmp (data.set o v) mac 6 = memcmp data mac 6 := memcmpFrom_set_outside mac hmac
  have hhost : (memcmp (data.set o v) mac 6 = 0 ∨ memcmp (data.set o v) broadcastMac 6 = 0) ↔
      memcmp data mac 6 = 0 ∨ memcmp data broadcastMac 6 = 0 := by
    rw [hown]
    by_cases hzero : memcmp data mac 6 = 0
    · simp only [hzero, true_or]
    · rw [if_neg hzero] at hbroadcast
      rw [show memcmp (data.set o v) broadcastMac 6 = memcmp data broadcastMac 6 from
        memcmpFrom_set_outside broadcastMac hbroadcast]
  unfold netHandle
  by_cases hfor : memcmp data mac 6 = 0 ∨ memcmp data broadcastMac 6 = 0
  · rw [if_pos hfor, List.mem_append, not_or] at hrest
    obtain ⟨htype, hrest⟩ := hrest
    rw [if_pos (hhost.mpr hfor), if_pos hfor, Bytes.read16_set htype]
    by_cases harp : ntohs (data.read16 12) = 0x806
    · rw [if_pos harp] at hrest
      rw [if_pos harp, if_pos harp, arpHandle_set_outside hrest]
    · rw [if_neg harp, if_neg harp]
  · rw [if_neg fun hset => hfor (hhost.mp hset), if_neg hfor]

end Outside

/-! ## Which lengths are safe -/

theorem memcmpReads_lt {a b : Bytes} :
    ∀ {n i o : Nat}, o ∈ memcmpReads a b i n → o < i + n := by
  intro n
  induction n with
  | zero => exact fun h => absurd h List.not_mem_nil
  | succ n ih =>
    intro i o h
    rw [memcmpReads, List.mem_cons] at h
    rcases h with rfl | h
    · omega
    · split_ifs at h with heq
      · have := ih h
        omega
      · exact absurd h List.not_mem_nil

theorem destinationReads_lt {mac data : Bytes} {o : Nat} (h : o ∈ destinationReads mac data) :
    o < 6 := by
  rw [destinationReads, List.mem_append] at h
  rcases h with h | h
  · exact memcmpReads_lt h
  · split_ifs at h with hzero
    · exact absurd h List.not_mem_nil
    · exact memcmpReads_lt h

/-- `arp_handle` always reads the sender's addresses, and touches nothing behind the packet. -/
theorem mem_arpAccesses (data : Bytes) (p : Nat) :
    p + 17 ∈ arpAccesses data p ∧ ∀ o ∈ arpAccesses data p, o < p + ARP_SIZE := by
  constructor
  · simp [arpAccesses, List.mem_range'_1]
  · intro o ho
    unfold arpAccesses at ho
    unfold ARP_SIZE at *
    split_ifs at ho <;>
      simp only [arpReplyWrites, List.mem_append, List.mem_cons, List.not_mem_nil, or_false,
        List.mem_range'_1] at ho <;> omega

/-- The handlers stay inside a frame of the given length, and do not read the header of the
protocol when the frame is too short for it. -/
structure StaysInside (mac data : Bytes) (length : BitVec 16) : Prop where
  inside : ∀ o ∈ netAccesses mac data (length.setWidth 32), o < length.toNat
  arp : etherType data = 0x806 → length.toNat < ETHERNET_HEADER + ARP_SIZE →
    ∀ o ∈ netAccesses mac data (length.setWidth 32), o < ETHERNET_HEADER
  ipv4 : etherType data = 0x800 → length.toNat < ETHERNET_HEADER + IPV4_SIZE →
    ∀ o ∈ netAccesses mac data (length.setWidth 32), o < ETHERNET_HEADER

section Lengths

variable {mac data : Bytes} {length : BitVec 16}

/-- What is accessed in a frame for the host, by its type. -/
theorem mem_netAccesses (hhost : ForHost mac data) {o : Nat} :
    o ∈ netAccesses mac data (length.setWidth 32) ↔
      o ∈ destinationReads mac data ∨ o = 12 ∨ o = 13 ∨
        (etherType data = 0x806 ∧ o ∈ arpAccesses data 14) ∨
        (etherType data = 0x800 ∧ IPV4_SIZE ≤ length.toNat ∧ o = 23) := by
  have hwide : ((length.setWidth 32).signExtend 64).toNat = length.toNat := by
    have hlength : (length.setWidth 32).toNat = length.toNat :=
      BitVec.toNat_setWidth_of_le (by decide)
    have hlt := length.isLt
    rw [toNat_signExtend_of_lt (by omega), hlength]
  have htype : ntohs (data.read16 12) = etherType data := ntohs_read16 data 12
  rw [netAccesses, List.mem_append, if_pos ((forHost_iff mac data).mpr hhost), htype,
    List.mem_append, ipv4Accesses, hwide]
  generalize etherType data = t
  by_cases harp : t = 0x806
  · subst harp
    simp [ETHERNET_HEADER, or_assoc]
  · rw [if_neg harp, List.mem_append]
    by_cases hip : t = 0x800
    · subst hip
      by_cases hshort : length.toNat < IPV4_SIZE
      · simp [hshort, Nat.not_le.mpr hshort]
      · simp [hshort, Nat.not_lt.mp hshort, ETHERNET_HEADER]
        tauto
    · rw [if_neg hip]
      simp only [harp, hip, false_and, or_false, List.mem_cons, List.not_mem_nil]
      tauto

theorem netAccesses_of_other (hhost : ¬ ForHost mac data) :
    netAccesses mac data (length.setWidth 32) = destinationReads mac data := by
  rw [netAccesses, if_neg fun h => hhost ((forHost_iff mac data).mp h), List.append_nil]

/-- Of a frame that is not for the host nothing behind the destination is read. -/
theorem staysInside_of_other (hhost : ¬ ForHost mac data) :
    StaysInside mac data length ↔ ∀ o ∈ destinationReads mac data, o < length.toNat := by
  have hdest := @netAccesses_of_other mac data length hhost
  constructor
  · intro h o ho
    exact h.inside o (hdest ▸ ho)
  · intro h
    have hshort : ∀ o ∈ netAccesses mac data (length.setWidth 32), o < ETHERNET_HEADER := by
      intro o ho
      rw [hdest] at ho
      exact Nat.lt_trans (destinationReads_lt ho) (by decide)
    exact ⟨fun o ho => h o (hdest ▸ ho), fun _ _ => hshort, fun _ _ => hshort⟩

/-- How far the accesses to a frame for the host go. -/
theorem netAccesses_of_host (hhost : ForHost mac data) {o : Nat}
    (ho : o ∈ netAccesses mac data (length.setWidth 32)) :
    o < 14 ∨ (etherType data = 0x806 ∧ o < 42) ∨
      (etherType data = 0x800 ∧ 20 ≤ length.toNat ∧ o = 23) := by
  rcases (mem_netAccesses hhost).mp ho with hdest | rfl | rfl | ⟨htype, ho⟩ | hip
  · have := destinationReads_lt hdest
    exact Or.inl (by omega)
  · exact Or.inl (by decide)
  · exact Or.inl (by decide)
  · exact Or.inr (Or.inl ⟨htype, (mem_arpAccesses data 14).2 o ho⟩)
  · exact Or.inr (Or.inr hip)

theorem StaysInside.lengths (hhost : ForHost mac data) (h : StaysInside mac data length) :
    14 ≤ length.toNat ∧ (etherType data = 0x806 → 42 ≤ length.toNat) ∧
      (etherType data = 0x800 → length.toNat < 20 ∨ 34 ≤ length.toNat) := by
  have hmem := fun o => @mem_netAccesses mac data length hhost o
  refine ⟨?_, fun harp => ?_, fun hip => ?_⟩
  · exact h.inside 13 ((hmem 13).mpr (Or.inr (Or.inr (Or.inl rfl))))
  · by_contra hshort
    have hread : 31 ∈ arpAccesses data 14 := (mem_arpAccesses data 14).1
    exact absurd (h.arp harp (Nat.not_le.mp hshort) 31
      ((hmem 31).mpr (Or.inr (Or.inr (Or.inr (Or.inl ⟨harp, hread⟩)))))) (by decide)
  · by_contra hbetween
    rw [not_or, Nat.not_lt, Nat.not_le] at hbetween
    exact absurd (h.ipv4 hip hbetween.2 23
      ((hmem 23).mpr (Or.inr (Or.inr (Or.inr (Or.inr ⟨hip, hbetween.1, rfl⟩)))))) (by decide)

theorem StaysInside.of_lengths (hhost : ForHost mac data) (hheader : 14 ≤ length.toNat)
    (harp : etherType data = 0x806 → 42 ≤ length.toNat)
    (hip : etherType data = 0x800 → length.toNat < 20 ∨ 34 ≤ length.toNat) :
    StaysInside mac data length := by
  have hne : (0x806 : BitVec 16) ≠ 0x800 := by decide
  refine ⟨fun o ho => ?_, fun htype hshort o ho => ?_, fun htype hshort o ho => ?_⟩
  · rcases netAccesses_of_host hhost ho with hlt | ⟨htype, hlt⟩ | ⟨htype, hlong, rfl⟩
    · omega
    · exact Nat.lt_of_lt_of_le hlt (harp htype)
    · have := hip htype
      omega
  · exact absurd (harp htype) (Nat.not_le.mpr hshort)
  · have hlen := hip htype
    unfold ETHERNET_HEADER IPV4_SIZE at *
    rcases netAccesses_of_host hhost ho with hlt | ⟨htype', -⟩ | ⟨-, hlong, -⟩
    · exact hlt
    · exact absurd (htype'.symm.trans htype) hne
    · omega

/-- The lengths for which the handlers stay inside.  A frame for the host needs its Ethernet
header; an ARP packet has to be complete; an IPv4 packet has to be complete too, or shorter than
the IPv4 header alone.  Of another frame only the bytes of the destination up to a difference
count. -/
theorem handlers_stay_inside_iff (mac data : Bytes) (length : BitVec 16) :
    StaysInside mac data length ↔
      (¬ ForHost mac data ∧ ∀ o ∈ destinationReads mac data, o < length.toNat) ∨
      (ForHost mac data ∧ 14 ≤ length.toNat ∧
        (etherType data = 0x806 → 42 ≤ length.toNat) ∧
        (etherType data = 0x800 → length.toNat < 20 ∨ 34 ≤ length.toNat)) := by
  by_cases hhost : ForHost mac data
  · rw [or_iff_right fun h => h.1 hhost, and_iff_right hhost]
    constructor
    · intro h
      exact h.lengths hhost
    · rintro ⟨hheader, harp, hip⟩
      exact .of_lengths hhost hheader harp hip
  · rw [or_iff_left fun h => hhost h.1, and_iff_right hhost]
    exact staysInside_of_other hhost

end Lengths

/-- An IPv4 packet to `hostMac`. -/
def ipv4Frame : Bytes := fun i =>
  [0x52, 0x54, 0x00, 0x12, 0x34, 0x56, 0x02, 0x00, 0x00, 0x00, 0x00, 0x01, 0x08, 0x00].getD i 0

/-- Of a frame of 20 bytes, `ipv4_handle` reads byte 23; of an ARP packet that is cut off behind
the Ethernet header, `arp_handle` reads and answers bytes behind its end; and of an empty frame
`net_handle` reads the destination. -/
theorem short_frames_read_outside :
    23 ∈ netAccesses hostMac ipv4Frame 20 ∧ ¬ StaysInside hostMac ipv4Frame 20 ∧
      41 ∈ netAccesses hostMac (arpFrame 1) 14 ∧ ¬ StaysInside hostMac (arpFrame 1) 14 ∧
      0 ∈ netAccesses hostMac ipv4Frame 0 ∧ ¬ StaysInside hostMac ipv4Frame 0 := by
  have hip : 23 ∈ netAccesses hostMac ipv4Frame 20 := by decide
  have harp : 41 ∈ netAccesses hostMac (arpFrame 1) 14 := by decide
  have hempty : 0 ∈ netAccesses hostMac ipv4Frame 0 := by decide
  exact ⟨hip, fun h => absurd (h.inside 23 hip) (by decide), harp,
    fun h => absurd (h.inside 41 harp) (by decide), hempty,
    fun h => absurd (h.inside 0 hempty) (by decide)⟩

end ChronOS.Net
