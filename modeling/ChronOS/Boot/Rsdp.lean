/-
  Boot/Rsdp.lean --- the search for the RSDP in `gnu-efi/bootloader/main.c`.

  `efi_main` walks the configuration table of the firmware.  `CompareGuid` of the
  EFI library returns 0 for equal GUIDs, while the `strncmp` of main.c returns 1 for
  equal strings, and `efi_main` takes both results as the answer to "are they
  equal?".  So it looks at the entries that are not ACPI 2.0 ones, and among those
  it keeps the address of every entry with the signature, valid or not, until one
  validates.

  Memory does not change during the walk.
-/
import ChronOS.Foundation.Memory

set_option autoImplicit false

namespace ChronOS.Boot

open ChronOS.Foundation

/-! ## The code -/

/-- `EFI_GUID`, as the four `INT32` that `RtCompareGuid` reads. -/
abbrev EfiGuid : Type := Fin 4 → BitVec 32

/-- The words of a GUID from its fields, in little-endian order. -/
def EfiGuid.ofFields (data1 : BitVec 32) (data2 data3 : BitVec 16) (data4 : Fin 8 → Byte) :
    EfiGuid :=
  ![data1, data3 ++ data2, data4 3 ++ data4 2 ++ data4 1 ++ data4 0,
    data4 7 ++ data4 6 ++ data4 5 ++ data4 4]

/-- `ACPI_20_TABLE_GUID`. -/
def ACPI_20_TABLE_GUID : EfiGuid :=
  EfiGuid.ofFields 0x8868e871 0xe4f1 0x11d3 ![0xbc, 0x22, 0x0, 0x80, 0xc7, 0x3c, 0x88, 0x81]

/-- `CompareGuid`, which is `RtCompareGuid`. -/
def compareGuid (g1 g2 : EfiGuid) : BitVec 32 :=
  (g1 0 - g2 0) ||| (g1 1 - g2 1) ||| (g1 2 - g2 2) ||| (g1 3 - g2 3)

/-- The loop of `strncmp`, from the characters at `i` on. -/
def strncmpFrom (s1 s2 : Nat → Byte) : Nat → Nat → BitVec 32
  | _, 0 => 1
  | i, n + 1 =>
      if s1 i ≠ s2 i then 0
      else if s1 i = 0 then 1
      else strncmpFrom s1 s2 (i + 1) n

/-- `strncmp` of main.c. -/
def strncmp (s1 s2 : Nat → Byte) (n : Nat) : BitVec 32 := strncmpFrom s1 s2 0 n

/-- The characters of the string "RSD PTR " and its terminator. -/
def rsdPtr (i : Nat) : Byte := [0x52, 0x53, 0x44, 0x20, 0x50, 0x54, 0x52, 0x20].getD i 0

/-- The bytes from `table` on. -/
def bytesFrom (m : Mem) (table : Word) (i : Nat) : Byte := m (table + BitVec.ofNat 64 i)

/-- The number of bytes `ValidateRSDP` adds up: 20, or `Length` from revision 2 on. -/
def rsdpLength (m : Mem) (rsdp : Word) : Nat :=
  if m (rsdp + 15) < 2#8 then 20 else (m.read 4 (rsdp + 20)).toNat

/-- `ValidateRSDP`; `sum` is a `UINT8`. -/
def validateRSDP (m : Mem) (rsdp : Word) : Bool :=
  (List.range (rsdpLength m rsdp)).foldl (fun sum i => sum + bytesFrom m rsdp i) 0#8 == 0

/-- `EFI_CONFIGURATION_TABLE`. -/
structure ConfigEntry where
  vendorGuid : EfiGuid
  vendorTable : Word
  deriving DecidableEq

/-- The loop of `efi_main` over the entries, with the `rsdp` it has so far. -/
def findRsdp (m : Mem) : List ConfigEntry → Word → Word
  | [], rsdp => rsdp
  | entry :: entries, rsdp =>
      if compareGuid entry.vendorGuid ACPI_20_TABLE_GUID ≠ 0 then
        let table := entry.vendorTable
        if strncmp rsdPtr (bytesFrom m table) 8 ≠ 0 then
          if validateRSDP m table then table else findRsdp m entries table
        else findRsdp m entries rsdp
      else findRsdp m entries rsdp

/-- `boot_info.rsdp`. -/
def bootRsdp (m : Mem) (configTable : List ConfigEntry) : Word := findRsdp m configTable 0

/-! ## What is searched for -/

section Spec

variable (m : Mem)

/-- The table at `table` starts with "RSD PTR ". -/
def Signed (table : Word) : Prop := ∀ i < 8, bytesFrom m table i = rsdPtr i

/-- The bytes of the table add up to zero modulo 256. -/
def SumsToZero (table : Word) : Prop :=
  (∑ i ∈ Finset.range (rsdpLength m table), (bytesFrom m table i).toNat) % 256 = 0

/-- An ACPI 2.0 entry with a valid RSDP. -/
structure ValidEntry (e : ConfigEntry) : Prop where
  guid : e.vendorGuid = ACPI_20_TABLE_GUID
  signed : Signed m e.vendorTable
  sum : SumsToZero m e.vendorTable

/-- What reaches the kernel is 0 or a valid RSDP, and a valid one if there is one. -/
def OnlyValidRsdp (configTable : List ConfigEntry) : Prop :=
  (bootRsdp m configTable = 0 ∨
      ∃ e ∈ configTable, ValidEntry m e ∧ bootRsdp m configTable = e.vendorTable) ∧
    ((∃ e ∈ configTable, ValidEntry m e) → bootRsdp m configTable ≠ 0)

/-- An entry under another GUID that has the signature. -/
structure Candidate (e : ConfigEntry) : Prop where
  guid : e.vendorGuid ≠ ACPI_20_TABLE_GUID
  signed : Signed m e.vendorTable

/-- The first candidate with a valid checksum or, if there is none, the last candidate. -/
def Kept (configTable : List ConfigEntry) (e : ConfigEntry) : Prop :=
  ∃ before after, configTable = before ++ e :: after ∧ Candidate m e ∧
    (∀ c ∈ before, Candidate m c → ¬ SumsToZero m c.vendorTable) ∧
    (SumsToZero m e.vendorTable ∨ ∀ c ∈ after, ¬ Candidate m c)

end Spec

/-! ## What the tests decide -/

theorem compareGuid_eq_zero {g1 g2 : EfiGuid} : compareGuid g1 g2 = 0 ↔ g1 = g2 := by
  constructor
  · intro h
    simp only [compareGuid, BitVec.ofNat_eq_ofNat, BitVec.or_eq_zero_iff] at h
    obtain ⟨⟨⟨h0, h1⟩, h2⟩, h3⟩ := h
    funext i
    fin_cases i
    · exact sub_eq_zero.mp h0
    · exact sub_eq_zero.mp h1
    · exact sub_eq_zero.mp h2
    · exact sub_eq_zero.mp h3
  · rintro rfl
    simp [compareGuid]

/-- On strings without a terminator among the first `n` characters `strncmp` decides equality. -/
theorem strncmpFrom_ne_zero {s1 s2 : Nat → Byte} (n : Nat) :
    ∀ i, (∀ k < n, s1 (i + k) ≠ 0) →
      (strncmpFrom s1 s2 i n ≠ 0 ↔ ∀ k < n, s1 (i + k) = s2 (i + k)) := by
  induction n with
  | zero =>
    intro i _
    exact iff_of_true (show (1 : BitVec 32) ≠ 0 by decide) fun k hk => absurd hk (Nat.not_lt_zero k)
  | succ n ih =>
    intro i hchars
    have hchar : s1 i ≠ 0 := hchars 0 (Nat.succ_pos n)
    rw [strncmpFrom, if_neg (show ¬ s1 i = 0 from hchar)]
    by_cases hdiff : s1 i ≠ s2 i
    · rw [if_pos hdiff]
      exact iff_of_false (by decide) fun h => hdiff (h 0 (Nat.succ_pos n))
    · have hrest : ∀ k, i + 1 + k = i + (k + 1) := fun k => by omega
      rw [if_neg hdiff, ih (i + 1) fun k hk => by
        rw [hrest]; exact hchars (k + 1) (Nat.succ_lt_succ hk)]
      constructor
      · intro h k hk
        cases k with
        | zero => exact not_not.mp hdiff
        | succ k => exact hrest k ▸ h k (Nat.lt_of_succ_lt_succ hk)
      · intro h k hk
        exact hrest k ▸ h (k + 1) (Nat.succ_lt_succ hk)

theorem strncmp_rsdPtr (m : Mem) (table : Word) :
    strncmp rsdPtr (bytesFrom m table) 8 ≠ 0 ↔ Signed m table := by
  have hchars : ∀ k < 8, rsdPtr (0 + k) ≠ 0 := by decide
  rw [strncmp, strncmpFrom_ne_zero 8 0 hchars]
  simp only [Nat.zero_add, Signed, eq_comm]

/-- The `UINT8` sum is the sum modulo 256. -/
theorem toNat_foldl_add (f : Nat → Byte) (n : Nat) :
    ((List.range n).foldl (fun sum i => sum + f i) 0#8).toNat =
      (∑ i ∈ Finset.range n, (f i).toNat) % 256 := by
  induction n with
  | zero => rfl
  | succ n ih =>
    rw [List.range_succ, List.foldl_append, List.foldl_cons, List.foldl_nil, BitVec.toNat_add, ih,
      Finset.sum_range_succ, Nat.mod_add_mod]

theorem validateRSDP_iff (m : Mem) (rsdp : Word) :
    validateRSDP m rsdp = true ↔ SumsToZero m rsdp := by
  rw [validateRSDP, beq_iff_eq, ← BitVec.toNat_inj, toNat_foldl_add]
  rfl

/-! ## The walk -/

section Walk

variable {m : Mem} {e : ConfigEntry} {entries : List ConfigEntry} {rsdp : Word}

/-- An entry that is no candidate is passed over. -/
theorem findRsdp_skip (h : ¬ Candidate m e) :
    findRsdp m (e :: entries) rsdp = findRsdp m entries rsdp := by
  rw [findRsdp]
  by_cases hguid : compareGuid e.vendorGuid ACPI_20_TABLE_GUID ≠ 0
  · have hsigned : ¬ strncmp rsdPtr (bytesFrom m e.vendorTable) 8 ≠ 0 := fun hsig =>
      h ⟨mt compareGuid_eq_zero.mpr hguid, (strncmp_rsdPtr m _).mp hsig⟩
    rw [if_pos hguid]
    exact if_neg hsigned
  · exact if_neg hguid

/-- A candidate is kept, and ends the walk if it validates. -/
theorem findRsdp_candidate (h : Candidate m e) :
    findRsdp m (e :: entries) rsdp =
      if validateRSDP m e.vendorTable then e.vendorTable
      else findRsdp m entries e.vendorTable := by
  rw [findRsdp, if_pos (mt compareGuid_eq_zero.mp h.guid)]
  exact if_pos ((strncmp_rsdPtr m _).mpr h.signed)

theorem findRsdp_no_candidate (h : ∀ c ∈ entries, ¬ Candidate m c) :
    findRsdp m entries rsdp = rsdp := by
  induction entries with
  | nil => rfl
  | cons c entries ih =>
    rw [findRsdp_skip (h c List.mem_cons_self)]
    exact ih fun c' hc' => h c' (List.mem_cons_of_mem c hc')

theorem findRsdp_kept (h : Kept m entries e) : findRsdp m entries rsdp = e.vendorTable := by
  obtain ⟨before, after, rfl, hcand, hbefore, hend⟩ := h
  induction before generalizing rsdp with
  | nil =>
    rw [List.nil_append, findRsdp_candidate hcand]
    split
    · rfl
    · next hinvalid =>
        exact findRsdp_no_candidate (hend.resolve_left fun hsum =>
          hinvalid ((validateRSDP_iff m _).mpr hsum))
  | cons c before ih =>
    have hrest := fun r => @ih r fun c' hc' => hbefore c' (List.mem_cons_of_mem c hc')
    rw [List.cons_append]
    by_cases hc : Candidate m c
    · have hinvalid : ¬ validateRSDP m c.vendorTable = true := fun hvalid =>
        hbefore c List.mem_cons_self hc ((validateRSDP_iff m _).mp hvalid)
      rw [findRsdp_candidate hc, if_neg hinvalid]
      exact hrest c.vendorTable
    · rw [findRsdp_skip hc]
      exact hrest rsdp

/-- If there is a candidate, one is kept. -/
theorem exists_kept (h : ∃ c ∈ entries, Candidate m c) : ∃ e, Kept m entries e := by
  induction entries with
  | nil => exact absurd h (by simp)
  | cons c entries ih =>
    by_cases hsum : Candidate m c ∧ SumsToZero m c.vendorTable
    · exact ⟨c, [], entries, rfl, hsum.1, by simp, Or.inl hsum.2⟩
    by_cases hrest : ∃ c ∈ entries, Candidate m c
    · obtain ⟨e, before, after, rfl, hcand, hbefore, hend⟩ := ih hrest
      refine ⟨e, c :: before, after, rfl, hcand, ?_, hend⟩
      exact List.forall_mem_cons.mpr ⟨fun hc hzero => hsum ⟨hc, hzero⟩, hbefore⟩
    · obtain ⟨c', hc', hcand⟩ := h
      have hnone : ∀ c' ∈ entries, ¬ Candidate m c' := fun c' hc' hcand => hrest ⟨c', hc', hcand⟩
      rcases List.mem_cons.mp hc' with rfl | hc'
      · exact ⟨c', [], entries, rfl, hcand, by simp, Or.inr hnone⟩
      · exact absurd hcand (hnone c' hc')

theorem Kept.signed (h : Kept m entries e) : Signed m e.vendorTable := by
  obtain ⟨-, -, -, hcand, -⟩ := h
  exact hcand.signed

end Walk

/-- Only a valid RSDP reaches the kernel exactly when the entry that is kept from the other GUIDs
is valid and is an ACPI 2.0 entry too, at an address other than 0; or when no ACPI 2.0 entry is
valid and no other entry with the signature is there to be kept, except at address 0. -/
theorem onlyValidRsdp_iff (m : Mem) (configTable : List ConfigEntry) :
    OnlyValidRsdp m configTable ↔
      (∃ e, Kept m configTable e ∧ SumsToZero m e.vendorTable ∧ e.vendorTable ≠ 0 ∧
          ∃ g ∈ configTable, g.vendorGuid = ACPI_20_TABLE_GUID ∧ g.vendorTable = e.vendorTable) ∨
        (∀ g ∈ configTable, ¬ ValidEntry m g) ∧
          ∀ e, Kept m configTable e → e.vendorTable = 0 := by
  constructor
  · rintro ⟨hresult, hexists⟩
    by_cases hzero : bootRsdp m configTable = 0
    · refine .inr ⟨fun g hg hvalid => hexists ⟨g, hg, hvalid⟩ hzero, fun e hkept => ?_⟩
      exact (findRsdp_kept hkept).symm.trans hzero
    · obtain ⟨g, hg, hvalid, hrsdp⟩ := hresult.resolve_left hzero
      have hsome : ∃ c ∈ configTable, Candidate m c := by
        by_contra hnone
        exact hzero (findRsdp_no_candidate fun c hc hcand => hnone ⟨c, hc, hcand⟩)
      obtain ⟨e, hkept⟩ := exists_kept hsome
      have haddress : e.vendorTable = g.vendorTable := (findRsdp_kept hkept).symm.trans hrsdp
      refine .inl ⟨e, hkept, haddress ▸ hvalid.sum, ?_, g, hg, hvalid.guid, haddress.symm⟩
      rw [haddress, ← hrsdp]
      exact hzero
  · rintro (⟨e, hkept, hsum, hne, g, hg, hguid, haddress⟩ | ⟨hnone, hkept⟩)
    · have hrsdp : bootRsdp m configTable = e.vendorTable := findRsdp_kept hkept
      refine ⟨.inr ⟨g, hg, ⟨hguid, ?_, ?_⟩, hrsdp.trans haddress.symm⟩, fun _ => hrsdp ▸ hne⟩
      · rw [haddress]
        exact hkept.signed
      · rw [haddress]
        exact hsum
    · have hrsdp : bootRsdp m configTable = 0 := by
        by_cases hsome : ∃ c ∈ configTable, Candidate m c
        · obtain ⟨e, he⟩ := exists_kept hsome
          exact (findRsdp_kept he).trans (hkept e he)
        · exact findRsdp_no_candidate fun c hc hcand => hsome ⟨c, hc, hcand⟩
      refine ⟨.inl hrsdp, ?_⟩
      rintro ⟨g, hg, hvalid⟩
      exact absurd hvalid (hnone g hg)

/-- A valid RSDP of revision 0 at 0x1000, and one with a wrong checksum at 0x2000. -/
def twoTables : Mem := fun a =>
  if a.toNat < 0x1000 then 0
  else if a.toNat < 0x1008 then rsdPtr (a.toNat - 0x1000)
  else if a.toNat = 0x1008 then 0xE1
  else if a.toNat < 0x2000 then 0
  else if a.toNat < 0x2008 then rsdPtr (a.toNat - 0x2000)
  else 0

/-- An ACPI 2.0 entry with a valid table is passed over, and an entry under another GUID is taken
although its table is not valid. -/
theorem bootRsdp_wrong :
    bootRsdp twoTables [⟨ACPI_20_TABLE_GUID, 0x1000⟩] = 0 ∧
      ValidEntry twoTables ⟨ACPI_20_TABLE_GUID, 0x1000⟩ ∧
      bootRsdp twoTables [⟨ACPI_20_TABLE_GUID, 0x1000⟩, ⟨0, 0x2000⟩] = 0x2000 ∧
      ¬ SumsToZero twoTables 0x2000 := by
  refine ⟨by decide +kernel, ⟨rfl, ?_, ?_⟩, by decide +kernel, ?_⟩
  · unfold Signed
    decide +kernel
  · unfold SumsToZero
    decide +kernel
  · unfold SumsToZero
    decide +kernel

end ChronOS.Boot
