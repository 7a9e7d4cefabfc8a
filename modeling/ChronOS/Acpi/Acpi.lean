/-
  Acpi/Acpi.lean --- `acpi_find_table` and `acpi_find_nth_table`.

  Both functions walk the root table: the XSDT if `xsdt` is not NULL, otherwise the
  RSDT.  The number of entries is a 64-bit unsigned difference and quotient that is
  cut to an `int`; for a length below the size of the header it is negative, and the
  loops do not run.

  The memory is the one that the kernel reads, so also the null pointer has four bytes
  that `memcmp` compares; an entry that is the null pointer and is found is
  returned, as NULL.
-/
import ChronOS.Utils.Strings

set_option autoImplicit false

namespace ChronOS.Acpi

open ChronOS.Foundation ChronOS.Utils

def NULL : Word := 0

/-! ## The root table -/

/-- `sizeof(sdt_hdr_t)`. -/
def SDT_HDR_SIZE : Word := 36

/-- `hdr->len`. -/
def hdrLen (m : Mem) (hdr : Word) : BitVec 32 := m.read 4 (hdr + 4)

/-- `(len - sizeof(sdt_hdr_t)) / size` as an `int`. -/
def entryCount (len : BitVec 32) (size : Word) : BitVec 32 :=
  ((len.setWidth 64 - SDT_HDR_SIZE) / size).setWidth 32

/-- `xsdt->table_ptr[i]`. -/
def xsdtPtr (m : Mem) (xsdt : Word) (i : Nat) : Word :=
  m.read64 (xsdt + SDT_HDR_SIZE + BitVec.ofNat 64 (8 * i))

/-- `rsdt->table_ptr[i]`. -/
def rsdtPtr (m : Mem) (rsdt : Word) (i : Nat) : Word :=
  (m.read 4 (rsdt + SDT_HDR_SIZE + BitVec.ofNat 64 (4 * i))).setWidth 64

/-- The globals `rsdt` and `xsdt`. -/
structure Roots where
  rsdt : Word
  xsdt : Word
  deriving DecidableEq, Repr

namespace Roots

/-- `entries`, as all three functions of acpi.c compute it. -/
def entries (g : Roots) (m : Mem) : BitVec 32 :=
  if g.xsdt ≠ NULL then entryCount (hdrLen m g.xsdt) 8 else entryCount (hdrLen m g.rsdt) 4

/-- `hdr` in iteration `i` of the lookups. -/
def tablePtr (g : Roots) (m : Mem) (i : Nat) : Word :=
  if g.xsdt ≠ NULL then xsdtPtr m g.xsdt i else rsdtPtr m g.rsdt i

end Roots

/-! ## The lookups -/

/-- `memcmp(hdr->signature, signature, 4)`. -/
def signatureCmp (m : Mem) (hdr signature : Word) : Int :=
  memcmp (fun i => m (hdr + BitVec.ofNat 64 i)) (fun i => m (signature + BitVec.ofNat 64 i)) 4

/-- What a lookup did: the indices of the entries that it read, and what it returned. -/
structure Lookup where
  read : List Nat
  hdr : Word
  deriving DecidableEq, Repr

/-- The lookup with an iteration before it that read entry `i` and did not return. -/
def Lookup.after (i : Nat) (r : Lookup) : Lookup := { r with read := i :: r.read }

/-- The loop of `acpi_find_table` from index `i` on, with `left` iterations to go. -/
def findLoop (g : Roots) (m : Mem) (signature : Word) : (left i : Nat) → Lookup
  | 0, _ => ⟨[], NULL⟩
  | left + 1, i =>
    let hdr := g.tablePtr m i
    if signatureCmp m hdr signature = 0 then ⟨[i], hdr⟩
    else (findLoop g m signature left (i + 1)).after i

/-- `acpi_find_table`; `none` if `strlen` does not return. -/
def acpiFindTable (g : Roots) (m : Mem) (signature : Word) : Option Lookup :=
  (strlen m signature).map fun len =>
    if len ≠ 4 then ⟨[], NULL⟩ else findLoop g m signature (g.entries m).toInt.toNat 0

/-- The loop of `acpi_find_nth_table` from index `i` on, with `left` iterations to go. -/
def findNthLoop (g : Roots) (m : Mem) (signature : Word) : (left i : Nat) → BitVec 32 → Lookup
  | 0, _, _ => ⟨[], NULL⟩
  | left + 1, i, idx =>
    let hdr := g.tablePtr m i
    if signatureCmp m hdr signature = 0 then
      if idx = 0 then ⟨[i], hdr⟩ else (findNthLoop g m signature left (i + 1) (idx - 1)).after i
    else (findNthLoop g m signature left (i + 1) idx).after i

/-- `acpi_find_nth_table`; `none` if `strlen` does not return. -/
def acpiFindNthTable (g : Roots) (m : Mem) (signature : Word) (idx : BitVec 32) : Option Lookup :=
  (strlen m signature).map fun len =>
    if len ≠ 4 then ⟨[], NULL⟩ else findNthLoop g m signature (g.entries m).toInt.toNat 0 idx

/-! ## The entries of the root table -/

namespace Roots

/-- The length field of the root table. -/
def length (g : Roots) (m : Mem) : Nat :=
  (if g.xsdt ≠ NULL then hdrLen m g.xsdt else hdrLen m g.rsdt).toNat

/-- The size of an entry of the root table. -/
def entrySize (g : Roots) : Nat := if g.xsdt ≠ NULL then 8 else 4

/-- The number of whole entries between the header and the end of the table. -/
def count (g : Roots) (m : Mem) : Nat := (g.length m - 36) / g.entrySize

end Roots

/-- The signature of the header is the given one. -/
def HasSignature (m : Mem) (signature hdr : Word) : Prop :=
  ∀ i : Nat, i < 4 → m (hdr + BitVec.ofNat 64 i) = m (signature + BitVec.ofNat 64 i)

instance (m : Mem) (signature hdr : Word) : Decidable (HasSignature m signature hdr) :=
  inferInstanceAs (Decidable (∀ i : Nat, i < 4 → _))

/-- The entries whose header has the signature, in the order of the table. -/
def Roots.matching (g : Roots) (m : Mem) (signature : Word) : List Word :=
  ((List.range (g.count m)).map (g.tablePtr m)).filter fun hdr =>
    decide (HasSignature m signature hdr)

/-- The wrap of the difference and the cut of the quotient cancel out: a length below the header
gives a negative number of entries. -/
theorem toNat_entryCount (len : BitVec 32) {size : Nat} (hsize : size = 8 ∨ size = 4) :
    (entryCount len (BitVec.ofNat 64 size)).toInt.toNat = (len.toNat - 36) / size := by
  have hlen := len.isLt
  have hhdr : SDT_HDR_SIZE.toNat = 36 := rfl
  have hword : (len.setWidth 64).toNat = len.toNat := by
    rw [BitVec.toNat_setWidth]
    omega
  have hcount : (entryCount len (BitVec.ofNat 64 size)).toNat =
      (len.setWidth 64 - SDT_HDR_SIZE).toNat / size % 2 ^ 32 := by
    rw [entryCount, BitVec.toNat_setWidth, BitVec.toNat_udiv, BitVec.toNat_ofNat,
      Nat.mod_eq_of_lt (show size < 2 ^ 64 by omega)]
  rw [BitVec.toNat_sub, hword, hhdr] at hcount
  rw [BitVec.toInt_eq_toNat_cond, hcount]
  rcases hsize with rfl | rfl <;> omega

theorem Roots.toNat_entries (g : Roots) (m : Mem) : (g.entries m).toInt.toNat = g.count m := by
  unfold Roots.entries Roots.count Roots.length Roots.entrySize
  split_ifs
  · exact toNat_entryCount _ (Or.inl rfl)
  · exact toNat_entryCount _ (Or.inr rfl)

theorem signatureCmp_eq_zero (m : Mem) (hdr signature : Word) :
    signatureCmp m hdr signature = 0 ↔ HasSignature m signature hdr :=
  memcmp_eq_zero _ _ 4

/-! ## The loops -/

section Loops

variable {g : Roots} {m : Mem} {signature : Word}

/-- The two loops are one for the first occurrence. -/
theorem findNthLoop_zero :
    ∀ left i, findNthLoop g m signature left i 0 = findLoop g m signature left i := by
  intro left
  induction left with
  | zero => exact fun _ => rfl
  | succ left ih =>
    intro i
    rw [findNthLoop, findLoop, ih]
    rfl

/-- The loop reads the entries from `i` on, at most `left` of them. -/
theorem findNthLoop_read {j : Nat} :
    ∀ {left i : Nat} {idx : BitVec 32}, j ∈ (findNthLoop g m signature left i idx).read →
      j < i + left := by
  intro left
  induction left with
  | zero => exact fun hj => absurd hj List.not_mem_nil
  | succ left ih =>
    intro i idx hj
    have hafter : ∀ {k}, j ∈ ((findNthLoop g m signature left (i + 1) k).after i).read →
        j < i + (left + 1) := by
      intro k hj
      rcases List.mem_cons.mp hj with rfl | hj
      · omega
      · have := ih hj
        omega
    unfold findNthLoop at hj
    dsimp only at hj
    split_ifs at hj with hcmp hidx
    · rw [List.mem_singleton.mp hj]
      omega
    · exact hafter hj
    · exact hafter hj

/-- The loop finds occurrence `idx` among the entries that are left: by induction on their number,
a match that is not the last one to skip takes one off both. -/
theorem findNthLoop_hdr :
    ∀ {left i : Nat} {idx : BitVec 32},
      (findNthLoop g m signature left i idx).hdr =
        ((((List.range' i left).map (g.tablePtr m)).filter fun hdr =>
          decide (HasSignature m signature hdr))[idx.toNat]?).getD NULL := by
  intro left
  induction left with
  | zero => exact fun {_ _} => rfl
  | succ left ih =>
    intro i idx
    rw [findNthLoop, List.range'_succ, List.map_cons]
    have hsig := signatureCmp_eq_zero m (g.tablePtr m i) signature
    by_cases hcmp : signatureCmp m (g.tablePtr m i) signature = 0
    · rw [if_pos hcmp, List.filter_cons_of_pos (by simpa using hsig.mp hcmp)]
      by_cases hidx : idx = 0
      · rw [if_pos hidx, hidx]
        rfl
      · have hsucc : idx.toNat = (idx - 1).toNat + 1 := by bv_omega
        rw [if_neg hidx, hsucc, List.getElem?_cons_succ]
        exact ih
    · rw [if_neg hcmp, List.filter_cons_of_neg (by simpa using mt hsig.mpr hcmp)]
      exact ih

end Loops

/-- The lookups follow the occurrences of the signature in the root table, agree on the first one,
and read no entry beyond its length.  The occurrences are counted by `idx` as an unsigned number,
which is its value if it is not negative. -/
theorem lookup_by_occurrence (g : Roots) (m : Mem) {signature : Word}
    (hsig : strlen m signature = some 4) (idx : BitVec 32) :
    ∃ r, acpiFindNthTable g m signature idx = some r ∧
      r.hdr = ((g.matching m signature)[idx.toNat]?).getD NULL ∧
      (r.hdr = NULL ↔ (g.matching m signature).length ≤ idx.toNat ∨
        (g.matching m signature)[idx.toNat]? = some NULL) ∧
      (∀ i ∈ r.read, (i : Int) < ((g.length m : Int) - 36) / g.entrySize) ∧
      acpiFindTable g m signature = acpiFindNthTable g m signature 0 := by
  have hhdr := @findNthLoop_hdr g m signature (g.count m) 0 idx
  rw [← List.range_eq_range'] at hhdr
  change _ = ((g.matching m signature)[idx.toNat]?).getD NULL at hhdr
  refine ⟨findNthLoop g m signature (g.count m) 0 idx, ?_, hhdr, ?_, fun i hi => ?_, ?_⟩
  · rw [acpiFindNthTable, hsig, g.toNat_entries]
    rfl
  · rw [hhdr, ← List.getElem?_eq_none_iff]
    cases (g.matching m signature)[idx.toNat]? with
    | none => simp
    | some hdr => simp
  · have hlt := findNthLoop_read hi
    unfold Roots.count Roots.entrySize at hlt
    unfold Roots.entrySize
    split_ifs at hlt ⊢ <;> omega
  · rw [acpiFindTable, acpiFindNthTable, hsig]
    simp only [findNthLoop_zero]

/-- The string "SSDT" at 8, an XSDT of 63 bytes at 16 with three whole entries, and the signatures
"SSDT", "FACP" and "SSDT" at 80, 84 and 88. -/
def sampleTables : Mem := fun x =>
  ([0, 0, 0, 0, 0, 0, 0, 0, 0x53, 0x53, 0x44, 0x54, 0, 0, 0, 0,
    0x58, 0x53, 0x44, 0x54, 63, 0, 0, 0] ++ List.replicate 28 0 ++
    [80, 0, 0, 0, 0, 0, 0, 0, 84, 0, 0, 0, 0, 0, 0, 0, 88, 0, 0, 0, 0, 0, 0, 0, 0, 0, 0, 0,
      0x53, 0x53, 0x44, 0x54, 0x46, 0x41, 0x43, 0x50, 0x53, 0x53, 0x44, 0x54]).getD x.toNat 0

def sampleRoots : Roots := ⟨0, 16⟩

theorem strlen_signature {m : Mem} {signature : Word}
    (hbytes : ∀ k : Nat, k < 4 → (m (signature + BitVec.ofNat 64 k) == 0) = false)
    (hend : (m (signature + 4) == 0) = true) : strlen m signature = some 4 := by
  refine searchIndex_eq_some.mpr ⟨hend, fun i hi => ?_⟩
  have := hbytes i.toNat (BitVec.lt_def.mp hi)
  rwa [BitVec.ofNat_toNat, BitVec.setWidth_eq] at this

theorem sampleTables_occurrences :
    (∃ r, acpiFindNthTable sampleRoots sampleTables 8 1 = some r ∧ r.hdr = 88) ∧
      ∃ r, acpiFindNthTable sampleRoots sampleTables 8 2 = some r ∧ r.hdr = NULL := by
  have hsig : strlen sampleTables 8 = some 4 := strlen_signature (by decide) (by decide)
  obtain ⟨r, hr, hhdr, -⟩ := lookup_by_occurrence sampleRoots sampleTables hsig 1
  obtain ⟨r', hr', hhdr', -⟩ := lookup_by_occurrence sampleRoots sampleTables hsig 2
  exact ⟨⟨r, hr, hhdr.trans (by decide)⟩, r', hr', hhdr'.trans (by decide)⟩

/-- An XSDT at 16 whose only entry is the null pointer, where the signature of an SSDT lies. -/
def nullTables : Mem := fun x =>
  ([0x53, 0x53, 0x44, 0x54, 0, 0, 0, 0, 0x53, 0x53, 0x44, 0x54, 0, 0, 0, 0,
    0x58, 0x53, 0x44, 0x54, 44] : List Byte).getD x.toNat 0

theorem nullTables_occurrence :
    strlen nullTables 8 = some 4 ∧ sampleRoots.matching nullTables 8 = [NULL] ∧
      ∃ r, acpiFindNthTable sampleRoots nullTables 8 0 = some r ∧ r.hdr = NULL := by
  have hsig : strlen nullTables 8 = some 4 := strlen_signature (by decide) (by decide)
  refine ⟨hsig, by decide, ?_⟩
  rw [acpiFindNthTable, hsig]
  exact ⟨_, rfl, by decide⟩

end ChronOS.Acpi
