/-
  Apic/Ioapic.lean --- the two walks over the MADT in `kernel/src/apic/ioapic.c`.

  The table is the function from offsets to its bytes, whatever firmware has put
  there; the two pointers of a walk are offsets.  Its records start behind the
  44 bytes of `madt_t`, and each says in its second byte how long it is.

  `ioapic_remap_irq` stops at a record shorter than its own header; `ioapic_init`
  does not, and stays at a record of length 0 for ever.  With `fuel` running out a
  walk is `none`.
-/
import ChronOS.Foundation.Memory

set_option autoImplicit false

namespace ChronOS.Apic

open ChronOS.Foundation

/-! ## The walks -/

/-- The bytes of the table, by offset. -/
abbrev Madt := Nat → Byte

/-- `sizeof(madt_t)` and `sizeof(madt_vlr_t)`. -/
def MADT_SIZE : Nat := 44
def VLR_SIZE : Nat := 2

/-- A 32-bit field at offset `o`. -/
def Madt.read32 (t : Madt) (o : Nat) : BitVec 32 := t (o + 3) ++ t (o + 2) ++ t (o + 1) ++ t o

/-- `madt->h.len`. -/
def Madt.len (t : Madt) : Nat := (t.read32 4).toNat

/-- `entry_type` and `rec_length` of the record at offset `p`. -/
def Madt.entryType (t : Madt) (p : Nat) : Byte := t p

def Madt.recLength (t : Madt) (p : Nat) : Nat := (t (p + 1)).toNat

/-- `source` and `interrupt` of the override at offset `p`. -/
def Madt.source (t : Madt) (p : Nat) : Byte := t (p + 3)

def Madt.interrupt (t : Madt) (p : Nat) : BitVec 32 := t.read32 (p + 4)

/-- The loop of `ioapic_init`: the records it visits, and `ioapic_entry`. -/
def initWalk (t : Madt) : Nat → Nat → Option Nat → Option (List Nat × Option Nat)
  | 0, _, _ => none
  | fuel + 1, entry, ioapicEntry =>
    if entry < t.len then
      let ioapicEntry := if t.entryType entry = 1 then some entry else ioapicEntry
      (initWalk t fuel (entry + t.recLength entry) ioapicEntry).map fun (visited, found) =>
        (entry :: visited, found)
    else some ([], ioapicEntry)

/-- The record at offset `p` is an override of `irq`. -/
def Madt.Overrides (t : Madt) (irq : BitVec 32) (p : Nat) : Prop :=
  t.entryType p = 2 ∧ (t.source p).setWidth 32 = irq

instance (t : Madt) (irq : BitVec 32) (p : Nat) : Decidable (t.Overrides irq p) :=
  inferInstanceAs (Decidable (_ ∧ _))

/-- The loop of `ioapic_remap_irq`: the records it visits, and what is returned. -/
def remapWalk (t : Madt) (irq : BitVec 32) : Nat → Nat → Option (List Nat × BitVec 32)
  | 0, _ => none
  | fuel + 1, p =>
    if p < t.len then
      if t.recLength p < VLR_SIZE then some ([p], irq)
      else if t.Overrides irq p then some ([p], t.interrupt p)
      else (remapWalk t irq fuel (p + t.recLength p)).map fun (visited, ret) => (p :: visited, ret)
    else some ([], irq)

/-- `ioapic_remap_irq`; without a MADT the number stays as it is. -/
def ioapicRemapIrq (madt : Option Madt) (irq : BitVec 32) : Option (BitVec 32) :=
  match madt with
  | none => some irq
  | some t => (remapWalk t irq (t.len + 1) MADT_SIZE).map Prod.snd

/-- The bytes that an iteration of `ioapic_remap_irq` reads. -/
def recordReads (t : Madt) (irq : BitVec 32) (p : Nat) : List Nat :=
  if t.recLength p < VLR_SIZE then [p + 1]
  else if t.entryType p = 2 then
    [p + 1, p, p + 3] ++ if t.Overrides irq p then List.range' (p + 4) 4 else [p + 1]
  else [p + 1, p, p + 1]

/-- The bytes that `ioapic_remap_irq` reads: the length of the table, and those of the records
that it visits. -/
def remapReads (t : Madt) (irq : BitVec 32) : List Nat :=
  List.range' 4 4 ++
    ((remapWalk t irq (t.len + 1) MADT_SIZE).elim [] Prod.fst).flatMap (recordReads t irq)

/-! ## Both walks end, or not -/

/-- The offsets that `ioapic_init` comes to. -/
inductive Reached (t : Madt) : Nat → Prop
  | start : Reached t MADT_SIZE
  | next {p : Nat} (h : Reached t p) (hp : p < t.len) : Reached t (p + t.recLength p)

section Walks

variable {t : Madt} {irq : BitVec 32}

/-- What an iteration of `ioapic_remap_irq` can do: end at the end of the table, stop at a record
without a header or at an override, or go on behind the record. -/
theorem remapWalk_cases {fuel p : Nat} {visited : List Nat} {ret : BitVec 32}
    (h : remapWalk t irq (fuel + 1) p = some (visited, ret)) :
    (¬ p < t.len ∧ visited = [] ∧ ret = irq) ∨
      p < t.len ∧
        (t.recLength p < VLR_SIZE ∧ visited = [p] ∧ ret = irq ∨
          ¬ t.recLength p < VLR_SIZE ∧
            (t.Overrides irq p ∧ visited = [p] ∧ ret = t.interrupt p ∨
              ¬ t.Overrides irq p ∧ ∃ rest, visited = p :: rest ∧
                remapWalk t irq fuel (p + t.recLength p) = some (rest, ret))) := by
  rw [remapWalk] at h
  split_ifs at h with hlt hshort hmatch
  · cases h
    exact Or.inr ⟨hlt, Or.inl ⟨hshort, rfl, rfl⟩⟩
  · cases h
    exact Or.inr ⟨hlt, Or.inr ⟨hshort, Or.inl ⟨hmatch, rfl, rfl⟩⟩⟩
  · obtain ⟨⟨rest, ret'⟩, hrest, heq⟩ := Option.map_eq_some_iff.mp h
    cases heq
    exact Or.inr ⟨hlt, Or.inr ⟨hshort, Or.inr ⟨hmatch, rest, rfl, hrest⟩⟩⟩
  · cases h
    exact Or.inl ⟨hlt, rfl, rfl⟩

/-- Every record that `ioapic_remap_irq` does not stop at moves its pointer on. -/
theorem remapWalk_ends (t : Madt) (irq : BitVec 32) :
    ∀ {fuel p : Nat}, t.len ≤ p + fuel →
      ∃ visited ret, remapWalk t irq (fuel + 1) p = some (visited, ret) := by
  intro fuel
  induction fuel with
  | zero =>
    intro p hfuel
    exact ⟨[], irq, if_neg (Nat.not_lt.mpr hfuel)⟩
  | succ fuel ih =>
    intro p hfuel
    rw [remapWalk]
    split_ifs with hp hshort hmatch
    · exact ⟨_, _, rfl⟩
    · exact ⟨_, _, rfl⟩
    · have hlong : 2 ≤ t.recLength p := Nat.not_lt.mp hshort
      obtain ⟨visited, ret, hrest⟩ := @ih (p + t.recLength p) (by omega)
      rw [hrest]
      exact ⟨_, _, rfl⟩
    · exact ⟨_, _, rfl⟩

/-- The walk of `ioapic_init` ends. -/
def InitEnds (t : Madt) : Prop :=
  ∃ fuel visited found, initWalk t fuel MADT_SIZE none = some (visited, found)

theorem initWalk_ends (hpos : ∀ p, Reached t p → p < t.len → t.recLength p ≠ 0) :
    ∀ {fuel p : Nat} {found : Option Nat}, Reached t p → t.len ≤ p + fuel →
      ∃ visited found', initWalk t (fuel + 1) p found = some (visited, found') := by
  intro fuel
  induction fuel with
  | zero =>
    intro p found _ hfuel
    exact ⟨[], found, if_neg (Nat.not_lt.mpr hfuel)⟩
  | succ fuel ih =>
    intro p found hp hfuel
    by_cases hlt : p < t.len
    · have hprogress := hpos p hp hlt
      obtain ⟨visited, found', hrest⟩ := @ih _ (if t.entryType p = 1 then some p else found)
        (hp.next hlt) (by omega)
      rw [initWalk, if_pos hlt]
      dsimp only
      rw [hrest]
      exact ⟨_, _, rfl⟩
    · rw [initWalk, if_neg hlt]
      exact ⟨_, _, rfl⟩

/-- A record of length 0 is visited for ever. -/
theorem initWalk_of_zero {p : Nat} (hlt : p < t.len) (hzero : t.recLength p = 0) :
    ∀ (fuel : Nat) (found : Option Nat), initWalk t fuel p found = none := by
  intro fuel
  induction fuel with
  | zero => exact fun _ => rfl
  | succ fuel ih =>
    intro found
    rw [initWalk, if_pos hlt, hzero, Nat.add_zero]
    dsimp only
    rw [ih]
    rfl

/-- A walk that ends has come to the end of every record on its way. -/
theorem InitEnds.from_reached (h : InitEnds t) {p : Nat} (hp : Reached t p) :
    ∃ fuel found r, initWalk t fuel p found = some r := by
  induction hp with
  | start =>
    obtain ⟨fuel, visited, found, h⟩ := h
    exact ⟨fuel, none, _, h⟩
  | @next p _ hlt ih =>
    obtain ⟨fuel, found, r, hwalk⟩ := ih
    cases fuel with
    | zero => exact absurd hwalk (by simp [initWalk])
    | succ fuel =>
      rw [initWalk, if_pos hlt, Option.map_eq_some_iff] at hwalk
      obtain ⟨r', hrest, -⟩ := hwalk
      exact ⟨fuel, _, r', hrest⟩

theorem initEnds_iff :
    InitEnds t ↔ ∀ p, Reached t p → p < t.len → t.recLength p ≠ 0 := by
  constructor
  · intro h p hp hlt hzero
    obtain ⟨fuel, found, r, hwalk⟩ := h.from_reached hp
    rw [initWalk_of_zero hlt hzero] at hwalk
    cases hwalk
  · intro hpos
    obtain ⟨visited, found, h⟩ := @initWalk_ends t hpos t.len MADT_SIZE none .start (by omega)
    exact ⟨_, visited, found, h⟩

/-- On records of at least two bytes, `ioapic_remap_irq` visits what `ioapic_init` visits, up to
the record that it returns with. -/
theorem walks_agree (hlong : ∀ p, Reached t p → p < t.len → VLR_SIZE ≤ t.recLength p) :
    ∀ {fuel fuel' p : Nat} {found found' : Option Nat} {visited visited' : List Nat}
      {ret : BitVec 32}, Reached t p → remapWalk t irq fuel p = some (visited, ret) →
      initWalk t fuel' p found = some (visited', found') →
      visited <+: visited' ∧
        (visited = visited' ∨ ∃ q, visited.getLast? = some q ∧ t.Overrides irq q) := by
  intro fuel
  induction fuel with
  | zero =>
    intro fuel' p found found' visited visited' ret _ hremap
    exact absurd hremap (by simp [remapWalk])
  | succ fuel ih =>
    intro fuel' p found found' visited visited' ret hp hremap hinit
    cases fuel' with
    | zero => exact absurd hinit (by simp [initWalk])
    | succ fuel' =>
      rw [initWalk] at hinit
      obtain ⟨hend, rfl, -⟩ | ⟨hlt, ⟨hshort, -⟩ | ⟨-, hstep⟩⟩ := remapWalk_cases hremap
      · rw [if_neg hend] at hinit
        cases hinit
        exact ⟨List.nil_prefix, Or.inl rfl⟩
      · exact absurd hshort (Nat.not_lt.mpr (hlong p hp hlt))
      · rw [if_pos hlt, Option.map_eq_some_iff] at hinit
        obtain ⟨⟨rest', found''⟩, hinit, heq'⟩ := hinit
        obtain ⟨rfl, rfl⟩ := Prod.mk.inj heq'
        obtain ⟨hmatch, rfl, -⟩ | ⟨-, rest, rfl, hrest⟩ := hstep
        · exact ⟨⟨rest', rfl⟩, Or.inr ⟨p, rfl, hmatch⟩⟩
        · obtain ⟨hpart, hsame | ⟨q, hlast, hq⟩⟩ := ih (hp.next hlt) hrest hinit
          · exact ⟨List.cons_prefix_cons.mpr ⟨rfl, hpart⟩, Or.inl (congrArg (p :: ·) hsame)⟩
          · refine ⟨List.cons_prefix_cons.mpr ⟨rfl, hpart⟩, Or.inr ⟨q, ?_, hq⟩⟩
            rw [List.getLast?_cons, hlast]
            rfl

end Walks

/-- Both walks end, and they agree where no record is shorter than its header. -/
structure WalksEndAndAgree (t : Madt) : Prop where
  remap : ∀ irq, ∃ fuel visited ret, remapWalk t irq fuel MADT_SIZE = some (visited, ret)
  init : InitEnds t
  agree : (∀ p, Reached t p → p < t.len → VLR_SIZE ≤ t.recLength p) →
    ∀ irq fuel fuel' visited visited' ret found',
      remapWalk t irq fuel MADT_SIZE = some (visited, ret) →
      initWalk t fuel' MADT_SIZE none = some (visited', found') →
      visited <+: visited' ∧
        (visited = visited' ∨ ∃ q, visited.getLast? = some q ∧ t.Overrides irq q)

/-- The walk of `ioapic_remap_irq` always ends and the two agree; the walk of `ioapic_init` ends
exactly when it does not come to a record of length 0. -/
theorem madt_walks_iff (t : Madt) :
    WalksEndAndAgree t ↔ ∀ p, Reached t p → p < t.len → t.recLength p ≠ 0 := by
  refine ⟨fun h => initEnds_iff.mp h.init, fun hpos => ⟨fun irq => ?_, initEnds_iff.mpr hpos, ?_⟩⟩
  · obtain ⟨visited, ret, h⟩ := remapWalk_ends t irq (Nat.le_add_left t.len MADT_SIZE)
    exact ⟨_, visited, ret, h⟩
  · intro hlong irq fuel fuel' visited visited' ret found' hremap hinit
    exact walks_agree hlong .start hremap hinit

/-- A table of 46 bytes with a record of length 0. -/
def emptyRecord : Madt := fun o => if o = 4 then 46 else 0

theorem emptyRecord_never_ends :
    (∀ fuel, initWalk emptyRecord fuel MADT_SIZE none = none) ∧ ¬ WalksEndAndAgree emptyRecord ∧
      ioapicRemapIrq (some emptyRecord) 9 = some 9 := by
  have hlt : MADT_SIZE < emptyRecord.len := by decide
  have hzero : emptyRecord.recLength MADT_SIZE = 0 := by decide
  refine ⟨fun fuel => initWalk_of_zero hlt hzero fuel none, fun h => ?_, by decide⟩
  exact initEnds_iff.mp h.init MADT_SIZE .start hlt hzero

/-! ## What is read decides -/

section Reads

variable {t t' : Madt} {irq : BitVec 32} {p : Nat}

theorem Madt.read32_congr {o o' : Nat} (h : ∀ k < 4, t' (o' + k) = t (o + k)) :
    t'.read32 o' = t.read32 o := by
  have hfirst : t' o' = t o := h 0 (by decide)
  unfold Madt.read32
  rw [h 3 (by decide), h 2 (by decide), h 1 (by decide), hfirst]

/-- Two tables agree on what an iteration at `p` reads. -/
def SameReads (t t' : Madt) (irq : BitVec 32) (p : Nat) : Prop :=
  ∀ o ∈ recordReads t irq p, t' o = t o

theorem SameReads.recLength (h : SameReads t t' irq p) : t'.recLength p = t.recLength p := by
  refine congrArg BitVec.toNat (h (p + 1) ?_)
  unfold recordReads
  split_ifs <;> simp

theorem SameReads.overrides (h : SameReads t t' irq p) (hlong : ¬ t.recLength p < VLR_SIZE) :
    t'.Overrides irq p ↔ t.Overrides irq p := by
  have htype : t'.entryType p = t.entryType p := by
    refine h p ?_
    unfold recordReads
    rw [if_neg hlong]
    split_ifs <;> simp
  unfold Madt.Overrides
  rw [htype]
  refine and_congr_right fun hoverride => ?_
  have hsource : t'.source p = t.source p := by
    refine h (p + 3) ?_
    unfold recordReads
    rw [if_neg hlong, if_pos hoverride]
    simp
  rw [hsource]

theorem SameReads.interrupt (h : SameReads t t' irq p) (hlong : ¬ t.recLength p < VLR_SIZE)
    (hmatch : t.Overrides irq p) : t'.interrupt p = t.interrupt p := by
  refine Madt.read32_congr fun k hk => h (p + 4 + k) ?_
  unfold recordReads
  rw [if_neg hlong, if_pos hmatch.1, if_pos hmatch, List.mem_append, List.mem_range'_1]
  exact Or.inr (by omega)

/-- Only the bytes in `recordReads` of the visited records have an influence on the walk. -/
theorem remapWalk_congr (hlen : t'.len = t.len) :
    ∀ {fuel p : Nat} {visited : List Nat} {ret : BitVec 32},
      remapWalk t irq fuel p = some (visited, ret) → (∀ q ∈ visited, SameReads t t' irq q) →
      remapWalk t' irq fuel p = some (visited, ret) := by
  intro fuel
  induction fuel with
  | zero =>
    intro p visited ret h
    exact absurd h (by simp [remapWalk])
  | succ fuel ih =>
    intro p visited ret h hsame
    rw [remapWalk, hlen]
    obtain ⟨hend, rfl, rfl⟩ | ⟨hlt, ⟨hshort, rfl, rfl⟩ | ⟨hlong, hstep⟩⟩ := remapWalk_cases h
    · exact if_neg hend
    · have hp := hsame p List.mem_cons_self
      rw [if_pos hlt, hp.recLength, if_pos hshort]
    · obtain ⟨hmatch, rfl, rfl⟩ | ⟨hmatch, rest, rfl, hrest⟩ := hstep
      · have hp := hsame p List.mem_cons_self
        rw [if_pos hlt, hp.recLength, if_neg hlong, if_pos ((hp.overrides hlong).mpr hmatch),
          hp.interrupt hlong hmatch]
      · have hp := hsame p List.mem_cons_self
        rw [if_pos hlt, hp.recLength, if_neg hlong, if_neg (mt (hp.overrides hlong).mp hmatch),
          ih hrest fun q hq => hsame q (List.mem_cons_of_mem p hq)]
        rfl

end Reads

/-! ## Overrides -/

/-- `sizeof(apic_int_override_t)`. -/
def OVERRIDE_SIZE : Nat := 10

/-- A record that says how long it is and is as long as its type requires: it has its header, and
an override all of its fields. -/
structure MadtRecord where
  bytes : List Byte
  header : VLR_SIZE ≤ bytes.length
  length_eq : (bytes.getD 1 0).toNat = bytes.length
  override : bytes.getD 0 0 = 2 → OVERRIDE_SIZE ≤ bytes.length

/-- The bytes of a record, by offset. -/
def MadtRecord.view (r : MadtRecord) : Madt := fun o => r.bytes.getD o 0

/-- What the record sequence says about `irq`: the interrupt of its first override. -/
def firstOverride (irq : BitVec 32) (records : List MadtRecord) : BitVec 32 :=
  ((records.find? fun r => decide (r.view.Overrides irq 0)).map
    fun r => r.view.interrupt 0).getD irq

theorem firstOverride_of_pos {irq : BitVec 32} {r : MadtRecord} (records : List MadtRecord)
    (h : r.view.Overrides irq 0) : firstOverride irq (r :: records) = r.view.interrupt 0 := by
  simp [firstOverride, h]

theorem firstOverride_of_neg {irq : BitVec 32} {r : MadtRecord} (records : List MadtRecord)
    (h : ¬ r.view.Overrides irq 0) :
    firstOverride irq (r :: records) = firstOverride irq records := by
  simp [firstOverride, h]

/-- The bytes of a sequence of records. -/
def recordBytes (records : List MadtRecord) : List Byte := records.flatMap MadtRecord.bytes

/-- The table holds `bytes` from offset `p` on. -/
def HoldsAt (t : Madt) (p : Nat) (bytes : List Byte) : Prop :=
  ∀ o < bytes.length, t (p + o) = bytes.getD o 0

/-- The table is its header and the records, which fill its length. -/
structure IsMadt (t : Madt) (records : List MadtRecord) : Prop where
  len : t.len = MADT_SIZE + (recordBytes records).length
  holds : HoldsAt t MADT_SIZE (recordBytes records)

section Records

variable {t : Madt} {p : Nat} {irq : BitVec 32}

theorem HoldsAt.split {xs ys : List Byte} (h : HoldsAt t p (xs ++ ys)) :
    HoldsAt t p xs ∧ HoldsAt t (p + xs.length) ys := by
  refine ⟨fun o ho => ?_, fun o ho => ?_⟩
  · rw [h o (by rw [List.length_append]; omega), List.getD_append _ _ _ _ ho]
  · have hsum := h (xs.length + o) (by rw [List.length_append]; omega)
    rw [List.getD_append_right _ _ _ _ (Nat.le_add_right _ _), Nat.add_sub_cancel_left] at hsum
    rw [Nat.add_assoc]
    exact hsum

theorem HoldsAt.recLength {r : MadtRecord} (h : HoldsAt t p r.bytes) :
    t.recLength p = r.bytes.length := by
  have hheader : 2 ≤ r.bytes.length := r.header
  rw [← r.length_eq, ← h 1 (by omega)]
  rfl

theorem HoldsAt.entryType {r : MadtRecord} (h : HoldsAt t p r.bytes) :
    t.entryType p = r.view.entryType 0 := by
  have hheader : 2 ≤ r.bytes.length := r.header
  exact h 0 (by omega)

theorem HoldsAt.overrides {r : MadtRecord} (h : HoldsAt t p r.bytes) :
    t.Overrides irq p ↔ r.view.Overrides irq 0 := by
  unfold Madt.Overrides
  rw [h.entryType]
  refine and_congr_right fun htype => ?_
  have hsize : 10 ≤ r.bytes.length := r.override htype
  have hsource : t.source p = r.view.source 0 := h 3 (by omega)
  rw [hsource]

theorem HoldsAt.interrupt {r : MadtRecord} (h : HoldsAt t p r.bytes)
    (htype : r.view.entryType 0 = 2) : t.interrupt p = r.view.interrupt 0 := by
  have hsize : 10 ≤ r.bytes.length := r.override htype
  refine Madt.read32_congr fun k hk => ?_
  rw [Nat.zero_add, Nat.add_assoc]
  exact h (4 + k) (by omega)

/-- An iteration at a record of the table reads bytes of that record. -/
theorem HoldsAt.reads {r : MadtRecord} (h : HoldsAt t p r.bytes) {o : Nat}
    (ho : o ∈ recordReads t irq p) : o < p + r.bytes.length := by
  have hheader : 2 ≤ r.bytes.length := r.header
  unfold recordReads at ho
  rw [h.recLength, if_neg (Nat.not_lt.mpr r.header), h.entryType] at ho
  split_ifs at ho with htype hmatch
  · have hsize : 10 ≤ r.bytes.length := r.override htype
    simp only [List.cons_append, List.nil_append, List.mem_cons, List.mem_range'_1] at ho
    omega
  · have hsize : 10 ≤ r.bytes.length := r.override htype
    simp only [List.mem_append, List.mem_cons, List.not_mem_nil, or_false] at ho
    omega
  · simp only [List.mem_cons, List.not_mem_nil, or_false] at ho
    omega

/-- The walk over a sequence of records: by induction on it, the pointer is at the beginning of
the records that are left. -/
theorem remapWalk_records :
    ∀ {records : List MadtRecord} {fuel p : Nat}, HoldsAt t p (recordBytes records) →
      t.len = p + (recordBytes records).length → (recordBytes records).length ≤ fuel →
      ∃ visited, remapWalk t irq (fuel + 1) p = some (visited, firstOverride irq records) ∧
        ∀ q ∈ visited, ∀ o ∈ recordReads t irq q, o < t.len := by
  intro records
  induction records with
  | nil =>
    intro fuel p _ hlen _
    have hend : ¬ p < t.len := by
      rw [hlen]
      exact Nat.lt_irrefl p
    exact ⟨[], if_neg hend, fun q hq => absurd hq List.not_mem_nil⟩
  | cons r records ih =>
    intro fuel p hholds hlen hfuel
    have hbytes : recordBytes (r :: records) = r.bytes ++ recordBytes records := List.flatMap_cons
    rw [hbytes] at hholds
    rw [hbytes, List.length_append] at hlen hfuel
    obtain ⟨hr, hrest⟩ := hholds.split
    have hheader : 2 ≤ r.bytes.length := r.header
    have hlt : p < t.len := by omega
    have hreads : ∀ o ∈ recordReads t irq p, o < t.len := by
      intro o ho
      have := hr.reads ho
      omega
    have hlong : ¬ t.recLength p < VLR_SIZE := by
      rw [hr.recLength]
      exact Nat.not_lt.mpr r.header
    by_cases hmatch : t.Overrides irq p
    · have hfirst : r.view.Overrides irq 0 := hr.overrides.mp hmatch
      refine ⟨[p], ?_, fun q hq => ?_⟩
      · rw [remapWalk, if_pos hlt, if_neg hlong, if_pos hmatch, hr.interrupt hfirst.1,
          firstOverride_of_pos records hfirst]
      · rw [List.mem_singleton.mp hq]
        exact hreads
    · have hfirst : ¬ r.view.Overrides irq 0 := fun hm => hmatch (hr.overrides.mpr hm)
      obtain ⟨fuel, rfl⟩ : ∃ k, fuel = k + 1 := ⟨fuel - 1, by omega⟩
      obtain ⟨visited, hwalk, hvisited⟩ := @ih fuel (p + r.bytes.length) hrest (by omega) (by omega)
      refine ⟨p :: visited, ?_, fun q hq => ?_⟩
      · rw [remapWalk, if_pos hlt, if_neg hlong, if_neg hmatch, hr.recLength, hwalk,
          firstOverride_of_neg records hfirst]
        rfl
      · rcases List.mem_cons.mp hq with rfl | hq
        · exact hreads
        · exact hvisited q hq

end Records

/-- `ioapic_remap_irq` follows the first override of the number in the table, and reads no byte
outside the table. -/
theorem remap_follows_overrides {t : Madt} {records : List MadtRecord} (h : IsMadt t records)
    (irq : BitVec 32) :
    ioapicRemapIrq (some t) irq = some (firstOverride irq records) ∧
      ∀ o ∈ remapReads t irq, o < t.len := by
  have hlen := h.len
  have hsize : MADT_SIZE = 44 := rfl
  obtain ⟨visited, hwalk, hreads⟩ := @remapWalk_records t irq records t.len MADT_SIZE h.holds hlen
    (by omega)
  refine ⟨?_, fun o ho => ?_⟩
  · rw [ioapicRemapIrq, hwalk]
    rfl
  · rw [remapReads, hwalk, List.mem_append] at ho
    rcases ho with ho | ho
    · rw [List.mem_range'_1] at ho
      omega
    · obtain ⟨q, hq, ho⟩ := List.mem_flatMap.mp ho
      exact hreads q hq o ho

/-- A local APIC and the override of the timer. -/
def timerRecords : List MadtRecord :=
  [⟨[0, 8, 0, 0, 1, 0, 0, 0], by decide, by decide, by decide⟩,
    ⟨[2, 10, 0, 0, 2, 0, 0, 0, 0, 0], by decide, by decide, by decide⟩]

/-- The table with these records. -/
def timerMadt : Madt := fun o =>
  if o = 4 then 62
  else if o < MADT_SIZE then 0
  else (recordBytes timerRecords).getD (o - MADT_SIZE) 0

theorem timerMadt_remaps :
    ioapicRemapIrq (some timerMadt) 0 = some 2 ∧ ioapicRemapIrq (some timerMadt) 1 = some 1 := by
  have h : IsMadt timerMadt timerRecords := ⟨by decide, by unfold HoldsAt; decide⟩
  exact ⟨(remap_follows_overrides h 0).1, (remap_follows_overrides h 1).1⟩

end ChronOS.Apic
