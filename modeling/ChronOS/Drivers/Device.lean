/-
  Drivers/Device.lean --- `kernel/src/drivers/device.c`.

  A device lives in a page of its own, with its name in the first 16 bytes.
  `device_mkdev` copies 16 bytes from the name it is given, however long that is, and
  `devopen` compares the name field as a string.  A name of 16 or more characters
  leaves no terminator in the field, so its string goes on with `dev_id`, which is
  never set and keeps what the page held before.

  A name is given by its characters and by the bytes behind its terminator.  The page
  allocator is a parameter, as in the paging code.
-/
import ChronOS.Mm.PagingTables
import ChronOS.Utils.Strings

set_option autoImplicit false

namespace ChronOS.Drivers

open ChronOS.Foundation ChronOS.Utils ChronOS.Mm

def DEVICES_MAX_DEV : Nat := 128

/-- A `char *` to a string, as far as a callee can read it. -/
structure CString where
  text : List Byte
  behind : Nat → Byte
  noZero : ∀ c ∈ text, c ≠ 0
  fits : text.length < 2 ^ 64

/-- The byte at offset `k`. -/
def CString.bytes (s : CString) (k : Nat) : Byte :=
  if k < s.text.length then s.text.getD k 0 else if k = s.text.length then 0 else s.behind k

/-- The arguments of `device_mkdev`. -/
structure Mkdev where
  name : CString
  ioctl : Word
  read : Word
  write : Word

/-- Memory, the allocator and the array `devices`. -/
structure Registry (σ : Type) where
  machine : Machine σ
  devices : List Word

/-! ## The code -/

/-- The stores to `newdev`; `name` is at offset 0, and the callbacks are at 24, 32 and 40. -/
def initDevice (m : Mem) (newdev : Word) (c : Mkdev) : Mem :=
  let m : Mem := fun x =>
    if (x - newdev).toNat < 16 then c.name.bytes (x - newdev).toNat else m x
  let m := m.write64 (newdev + 24) c.ioctl
  let m := m.write64 (newdev + 32) c.read
  m.write64 (newdev + 40) c.write

/-- `device_mkdev`: its result and the state after it. -/
def deviceMkdev {σ : Type} (src : PageSource σ) (c : Mkdev) (s : Registry σ) :
    Option (BitVec 32 × Registry σ) :=
  match s.devices.findIdx? (· == 0) with
  | none => some (1, s)
  | some i => do
      let (newdev, pmm, mem) ← src.getpage s.machine.pmm s.machine.mem
      return (0, ⟨⟨initDevice mem newdev c, pmm⟩, s.devices.set i newdev⟩)

/-- The loop of `devopen`. -/
def devopenFrom (m : Mem) (name : CString) : List Word → Option Word
  | [] => some 0
  | d :: devices =>
      if d = 0 then devopenFrom m name devices
      else do
        let r ← strcmp (fun k => m (d + k)) fun k => name.bytes k.toNat
        if r = 0 then some d else devopenFrom m name devices

/-- `devopen`. -/
def devopen {σ : Type} (name : CString) (s : Registry σ) : Option Word :=
  devopenFrom s.machine.mem name s.devices

/-- Calls of `device_mkdev` one after the other, with their results. -/
def runMkdev {σ : Type} (src : PageSource σ) :
    List Mkdev → Registry σ → Option (List (BitVec 32) × Registry σ)
  | [], s => some ([], s)
  | c :: calls, s => do
      let (r, s) ← deviceMkdev src c s
      let (rs, s) ← runMkdev src calls s
      return (r :: rs, s)

/-! ## What the registry is for -/

/-- The device at `d` has the callbacks of the call. -/
structure HasCallbacks (m : Mem) (d : Word) (c : Mkdev) : Prop where
  ioctl : m.read64 (d + 24) = c.ioctl
  read : m.read64 (d + 32) = c.read
  write : m.read64 (d + 40) = c.write

/-- The lookup of `n` when the calls `made` have succeeded: the device of the first call with that
name, which is the one in the slot of its number, or NULL. -/
structure FindsFirst {σ : Type} (made : List Mkdev) (s : Registry σ) (n : CString) : Prop where
  found : ∀ before c after, made = before ++ c :: after → c.name.text = n.text →
    (∀ b ∈ before, b.name.text ≠ n.text) →
    ∃ d, devopen n s = some d ∧ s.devices[before.length]? = some d ∧ d ≠ 0 ∧
      HasCallbacks s.machine.mem d c
  missing : (∀ c ∈ made, c.name.text ≠ n.text) → devopen n s = some 0

/-- What holds after the calls: the first 128 have succeeded and the others failed; every name is
looked up correctly; a further call succeeds if there is room, and changes nothing if not. -/
structure ServesCalls {σ : Type} (src : PageSource σ) (calls : List Mkdev)
    (results : List (BitVec 32)) (s : Registry σ) : Prop where
  results : results = (List.range calls.length).map fun i => if i < DEVICES_MAX_DEV then 0 else 1
  lookup : ∀ n, FindsFirst (calls.take DEVICES_MAX_DEV) s n
  room : calls.length < DEVICES_MAX_DEV →
    ∀ c r s', deviceMkdev src c s = some (r, s') → r = 0
  full : DEVICES_MAX_DEV ≤ calls.length → ∀ c, deviceMkdev src c s = some (1, s)

/-- The registry works for the calls, whatever memory holds before and whatever pages the allocator
hands out, page 0 apart. -/
def RegistryWorks (calls : List Mkdev) : Prop :=
  ∀ (σ : Type) (src : PageSource σ) (taken : σ → Set Word) (s : Machine σ), src.Lawful taken →
    0 ∈ taken s.pmm → ∀ results s',
      runMkdev src calls ⟨s, List.replicate DEVICES_MAX_DEV 0⟩ = some (results, s') →
        ServesCalls src calls results s'

/-! ## Names -/

section Names

variable {a b : CString}

theorem bytes_of_lt {k : Nat} (h : k < a.text.length) : a.bytes k = a.text.getD k 0 := if_pos h

theorem bytes_length (a : CString) : a.bytes a.text.length = 0 :=
  (if_neg (Nat.lt_irrefl _)).trans (if_pos rfl)

theorem bytes_ne_zero {k : Nat} (h : k < a.text.length) : a.bytes k ≠ 0 := by
  rw [bytes_of_lt h, List.getD_eq_getElem _ _ h]
  exact a.noZero _ (List.getElem_mem h)

/-- Equal names have the same bytes up to the terminator. -/
theorem bytes_congr (h : a.text = b.text) {k : Nat} (hk : k ≤ b.text.length) :
    a.bytes k = b.bytes k := by
  unfold CString.bytes
  rw [h]
  split_ifs
  · rfl
  · rfl
  · omega

/-- The bytes of the shorter name decide. -/
theorem text_eq_of_bytes (hlen : a.text.length = b.text.length)
    (h : ∀ k < a.text.length, a.bytes k = b.bytes k) : a.text = b.text := by
  refine List.ext_getElem hlen fun k hk hk' => ?_
  have hbyte := h k hk
  rwa [bytes_of_lt hk, bytes_of_lt hk', List.getD_eq_getElem _ _ hk,
    List.getD_eq_getElem _ _ hk'] at hbyte

end Names

/-- The string at `d` is `n`. -/
def Matches (m : Mem) (d : Word) (n : CString) : Prop :=
  ∀ k ≤ n.text.length, m (d + BitVec.ofNat 64 k) = n.bytes k

theorem strcmp_name (m : Mem) (d : Word) (n : CString) :
    ∃ r, strcmp (fun k => m (d + k)) (fun k => n.bytes k.toNat) = some r ∧
      (r = 0 ↔ Matches m d n) := by
  have hlen : (BitVec.ofNat 64 n.text.length).toNat = n.text.length := Nat.mod_eq_of_lt n.fits
  obtain ⟨r, hr, hzero⟩ := @strcmp_returns (fun k => m (d + k)) (fun k => n.bytes k.toNat)
    (BitVec.ofNat 64 n.text.length) (by rw [hlen]; exact bytes_length n) fun k hk =>
      bytes_ne_zero (hlen ▸ BitVec.lt_def.mp hk)
  refine ⟨r, hr, hzero.trans ⟨fun h k hk => ?_, fun h k hk => ?_⟩⟩
  · have hfits := n.fits
    have hnat : (BitVec.ofNat 64 k).toNat = k := Nat.mod_eq_of_lt (by omega)
    have := h (BitVec.ofNat 64 k) (by rw [BitVec.le_def, hlen, hnat]; exact hk)
    rwa [hnat] at this
  · have := h k.toNat (by rw [BitVec.le_def, hlen] at hk; exact hk)
    rwa [BitVec.ofNat_toNat, BitVec.setWidth_eq] at this

/-! ## Lookup -/

section Lookup

variable {m : Mem} {n : CString}

theorem devopenFrom_skip {d : Word} (h : d = 0 ∨ ¬ Matches m d n) (devices : List Word) :
    devopenFrom m n (d :: devices) = devopenFrom m n devices := by
  rw [devopenFrom]
  by_cases hd : d = 0
  · exact if_pos hd
  · obtain ⟨r, hr, hzero⟩ := strcmp_name m d n
    rw [if_neg hd, hr]
    exact if_neg (mt hzero.mp (h.resolve_left hd))

theorem devopenFrom_hit {d : Word} (hd : d ≠ 0) (h : Matches m d n) (devices : List Word) :
    devopenFrom m n (d :: devices) = some d := by
  obtain ⟨r, hr, hzero⟩ := strcmp_name m d n
  rw [devopenFrom, if_neg hd, hr]
  exact if_pos (hzero.mpr h)

theorem devopenFrom_skipAll {before : List Word} (h : ∀ d ∈ before, d = 0 ∨ ¬ Matches m d n)
    (devices : List Word) : devopenFrom m n (before ++ devices) = devopenFrom m n devices := by
  induction before with
  | nil => rfl
  | cons d before ih =>
    rw [List.cons_append, devopenFrom_skip (h d List.mem_cons_self)]
    exact ih fun d' hd' => h d' (List.mem_cons_of_mem d hd')

theorem devopenFrom_matches {devices : List Word} {d : Word} (hd : d ≠ 0)
    (h : devopenFrom m n devices = some d) : Matches m d n := by
  induction devices with
  | nil => exact absurd (Option.some.inj h).symm hd
  | cons d' devices ih =>
    by_cases hskip : d' = 0 ∨ ¬ Matches m d' n
    · rw [devopenFrom_skip hskip] at h
      exact ih h
    · obtain ⟨hne, hmatch⟩ := not_or.mp hskip
      have hmatch := not_not.mp hmatch
      rw [devopenFrom_hit hne hmatch] at h
      exact Option.some.inj h ▸ hmatch

end Lookup

/-! ## One device -/

section Init

variable {m : Mem} {d : Word} {c : Mkdev}

/-- The stores to a device are to its name and its callbacks. -/
theorem initDevice_of_outside {x : Word} (hname : 16 ≤ (x - d).toNat)
    (hcallbacks : (x - d).toNat < 24 ∨ 48 ≤ (x - d).toNat) : initDevice m d c x = m x := by
  unfold initDevice
  rw [Mem.write64_of_ge (by bv_omega), Mem.write64_of_ge (by bv_omega),
    Mem.write64_of_ge (by bv_omega)]
  exact if_neg (by omega)

/-- A device keeps the first 16 bytes of its name and its callbacks. -/
structure Keeps (m : Mem) (d : Word) (c : Mkdev) : Prop where
  name : ∀ k < 16, m (d + BitVec.ofNat 64 k) = c.name.bytes k
  callbacks : HasCallbacks m d c

theorem initDevice_keeps (m : Mem) (d : Word) (c : Mkdev) : Keeps (initDevice m d c) d c := by
  refine ⟨fun k hk => ?_, ?_, ?_, ?_⟩
  · have hoff : (d + BitVec.ofNat 64 k - d).toNat = k := toNat_offset d (by omega)
    unfold initDevice
    rw [Mem.write64_of_ge (by bv_omega), Mem.write64_of_ge (by bv_omega),
      Mem.write64_of_ge (by bv_omega)]
    refine (if_pos ?_).trans ?_
    · rw [hoff]
      exact hk
    · rw [hoff]
  · unfold initDevice
    rw [Mem.read64_write64_of_disjoint (by bv_omega) (by bv_omega),
      Mem.read64_write64_of_disjoint (by bv_omega) (by bv_omega), Mem.read64_write64_self]
  · unfold initDevice
    rw [Mem.read64_write64_of_disjoint (by bv_omega) (by bv_omega), Mem.read64_write64_self]
  · exact Mem.read64_write64_self _ _ _

theorem Keeps.congr {m' : Mem} (h : Keeps m d c) (hsame : ∀ x, InPage d x → m' x = m x) :
    Keeps m' d c := by
  have hbyte : ∀ k < 4096, m' (d + BitVec.ofNat 64 k) = m (d + BitVec.ofNat 64 k) := by
    intro k hk
    refine hsame _ ?_
    unfold InPage
    rw [toNat_offset d (by omega)]
    exact hk
  have hword : ∀ o < 4088,
      m'.read64 (d + BitVec.ofNat 64 o) = m.read64 (d + BitVec.ofNat 64 o) := by
    intro o ho
    refine Mem.read64_congr fun k hk => ?_
    rw [add_assoc, ← BitVec.ofNat_add]
    exact hbyte (o + k) (by omega)
  obtain ⟨hname, hioctl, hread, hwrite⟩ := h
  exact ⟨fun k hk => (hbyte k (by omega)).trans (hname k hk), (hword 24 (by decide)).trans hioctl,
    (hword 32 (by decide)).trans hread, (hword 40 (by decide)).trans hwrite⟩

/-- The string at a device with a name of less than 16 characters is its name. -/
theorem Keeps.matches_iff (h : Keeps m d c) (hshort : c.name.text.length < 16) (n : CString) :
    Matches m d n ↔ c.name.text = n.text := by
  constructor
  · intro hmatch
    have hbyte : ∀ k < 16, k ≤ n.text.length → c.name.bytes k = n.bytes k :=
      fun k hk hkn => (h.name k hk).symm.trans (hmatch k hkn)
    have hlen : c.name.text.length = n.text.length := by
      rcases Nat.lt_trichotomy c.name.text.length n.text.length with hlt | heq | hgt
      · have hend := hbyte _ hshort hlt.le
        rw [bytes_length] at hend
        exact absurd hend.symm (bytes_ne_zero hlt)
      · exact heq
      · have hend := hbyte n.text.length (by omega) le_rfl
        rw [bytes_length] at hend
        exact absurd hend (bytes_ne_zero hgt)
    exact text_eq_of_bytes hlen fun k hk => hbyte k (by omega) (by omega)
  · intro htext k hk
    have hlen := congrArg List.length htext
    rw [h.name k (by omega), bytes_congr htext hk]

end Init
/-! ## Runs -/

/-- The invariant: the devices stand in the order of their calls at the beginning of the array, each
in a page of its own. -/
structure Registered {σ : Type} (taken : σ → Set Word) (s : Registry σ)
    (entries : List (Mkdev × Word)) : Prop where
  devices : s.devices =
    entries.map Prod.snd ++ List.replicate (DEVICES_MAX_DEV - entries.length) 0
  room : entries.length ≤ DEVICES_MAX_DEV
  keeps : ∀ e ∈ entries, Keeps s.machine.mem e.2 e.1
  page : ∀ e ∈ entries, e.2 ≠ 0 ∧ PageAligned e.2 ∧ e.2 ∈ taken s.machine.pmm
  zero : 0 ∈ taken s.machine.pmm

section Runs

variable {σ : Type} {src : PageSource σ} {taken : σ → Set Word} {s s' : Registry σ}
  {entries : List (Mkdev × Word)}

theorem Registered.start {s : Machine σ} (hzero : 0 ∈ taken s.pmm) :
    Registered taken ⟨s, List.replicate DEVICES_MAX_DEV 0⟩ [] :=
  ⟨rfl, Nat.zero_le _, by simp, by simp, hzero⟩

theorem free_succ (hroom : entries.length < DEVICES_MAX_DEV) :
    DEVICES_MAX_DEV - entries.length = DEVICES_MAX_DEV - (entries.length + 1) + 1 := by
  omega

theorem Registered.devices_room (h : Registered taken s entries)
    (hroom : entries.length < DEVICES_MAX_DEV) :
    s.devices = entries.map Prod.snd ++
      0 :: List.replicate (DEVICES_MAX_DEV - (entries.length + 1)) 0 := by
  rw [h.devices, free_succ hroom, List.replicate_succ]

/-- The slot that `device_mkdev` takes. -/
theorem Registered.findIdx (h : Registered taken s entries) :
    s.devices.findIdx? (· == 0) =
      if entries.length < DEVICES_MAX_DEV then some entries.length else none := by
  have hused : (entries.map Prod.snd).findIdx? (· == 0) = none := by
    rw [List.findIdx?_eq_none_iff]
    intro d hd
    obtain ⟨e, he, rfl⟩ := List.mem_map.mp hd
    simpa using (h.page e he).1
  by_cases hroom : entries.length < DEVICES_MAX_DEV
  · rw [if_pos hroom, h.devices_room hroom, List.findIdx?_append, hused, Option.none_or,
      List.length_map]
    simp [List.findIdx?_cons]
  · have hk : DEVICES_MAX_DEV - entries.length = 0 := by omega
    rw [if_neg hroom, h.devices, hk, List.replicate_zero, List.append_nil, hused]

/-- A call with a free slot. -/
theorem Registered.mkdev (hlaw : src.Lawful taken) (h : Registered taken s entries)
    (hroom : entries.length < DEVICES_MAX_DEV) {c : Mkdev} {r : BitVec 32}
    (hcall : deviceMkdev src c s = some (r, s')) :
    r = 0 ∧ ∃ d, Registered taken s' (entries ++ [(c, d)]) := by
  have hslot := h.findIdx
  rw [if_pos hroom] at hslot
  simp only [deviceMkdev, hslot, Option.bind_eq_bind, Option.bind_eq_some_iff, Prod.exists] at hcall
  obtain ⟨d, pmm, mem, hget, heq⟩ := hcall
  cases heq
  have hfresh := hlaw.fresh _ _ _ _ _ hget
  have hnext := hlaw.taken_next _ _ _ _ _ hget
  have haligned := (hlaw.frame _ _ _ _ _ hget).1
  refine ⟨rfl, d, ?_, ?_, ?_, ?_, ?_⟩
  · show s.devices.set entries.length d = _
    rw [h.devices_room hroom, List.length_append, List.length_singleton, List.map_append,
      List.set_append_right _ _ (by simp)]
    simp
  · rw [List.length_append, List.length_singleton]
    omega
  · -- the new device is initialised, and the others lie in other pages
    intro e he
    rcases List.mem_append.mp he with hold | hnew
    · obtain ⟨-, hpage, htaken⟩ := h.page e hold
      have hne : e.2 ≠ d := fun heq => hfresh (heq ▸ htaken)
      refine (h.keeps e hold).congr fun x hx => ?_
      have hout : ¬ InPage d x := fun hd => hne (InPage.unique hpage haligned hx hd)
      have hfar : 4096 ≤ (x - d).toNat := Nat.not_lt.mp hout
      have hkept : initDevice mem d c x = mem x := initDevice_of_outside (by omega) (by omega)
      exact hkept.trans (hlaw.untouched _ _ _ _ _ hget e.2 htaken hpage x hx)
    · obtain rfl := List.mem_singleton.mp hnew
      exact initDevice_keeps mem d c
  · intro e he
    show _ ∧ _ ∧ e.2 ∈ taken pmm
    rw [hnext]
    rcases List.mem_append.mp he with hold | hnew
    · obtain ⟨hne, hpage, htaken⟩ := h.page e hold
      exact ⟨hne, hpage, Set.mem_insert_of_mem d htaken⟩
    · obtain rfl := List.mem_singleton.mp hnew
      refine ⟨fun hzero => hfresh ?_, haligned, Set.mem_insert d _⟩
      rw [show d = 0 from hzero]
      exact h.zero
  · show 0 ∈ taken pmm
    rw [hnext]
    exact Set.mem_insert_of_mem d h.zero

theorem Registered.mkdev_full (h : Registered taken s entries)
    (hfull : DEVICES_MAX_DEV ≤ entries.length) (c : Mkdev) :
    deviceMkdev src c s = some (1, s) := by
  have hslot := h.findIdx
  rw [if_neg (Nat.not_lt.mpr hfull)] at hslot
  simp only [deviceMkdev, hslot]

theorem results_full (n : Nat) {i : Nat} (hi : DEVICES_MAX_DEV ≤ i) :
    ((List.range' i n).map fun i => if i < DEVICES_MAX_DEV then (0 : BitVec 32) else 1) =
      List.replicate n 1 := by
  refine List.eq_replicate_iff.mpr ⟨by simp, fun r hr => ?_⟩
  obtain ⟨j, hj, rfl⟩ := List.mem_map.mp hr
  rw [List.mem_range'_1] at hj
  exact if_neg (by omega)

/-- Whole runs: the calls that find a slot are the first ones. -/
theorem Registered.run (hlaw : src.Lawful taken) :
    ∀ {calls : List Mkdev} {s s' : Registry σ} {entries : List (Mkdev × Word)}
      {results : List (BitVec 32)}, Registered taken s entries →
      runMkdev src calls s = some (results, s') →
      (∃ entries', Registered taken s' (entries ++ entries') ∧
        entries'.map Prod.fst = calls.take (DEVICES_MAX_DEV - entries.length)) ∧
      results = (List.range' entries.length calls.length).map fun i =>
        if i < DEVICES_MAX_DEV then 0 else 1 := by
  intro calls
  induction calls with
  | nil =>
    intro s s' entries results h hrun
    cases hrun
    exact ⟨⟨[], by rwa [List.append_nil], by simp⟩, rfl⟩
  | cons c calls ih =>
    intro s s' entries results h hrun
    simp only [runMkdev, Option.bind_eq_bind, Option.bind_eq_some_iff, Prod.exists] at hrun
    obtain ⟨r, s₁, hcall, rs, s₂, hrest, heq⟩ := hrun
    cases heq
    rw [List.length_cons, List.range'_succ, List.map_cons]
    by_cases hroom : entries.length < DEVICES_MAX_DEV
    · obtain ⟨rfl, d, h₁⟩ := h.mkdev hlaw hroom hcall
      obtain ⟨⟨entries', hreg, hmade⟩, hresults⟩ := ih h₁ hrest
      rw [List.length_append, List.length_singleton] at hmade hresults
      refine ⟨⟨(c, d) :: entries', ?_, ?_⟩, ?_⟩
      · rwa [List.append_cons]
      · rw [List.map_cons, hmade, free_succ hroom, List.take_succ_cons]
      · rw [if_pos hroom, hresults]
    · have hsame : deviceMkdev src c s = some (1, s) := h.mkdev_full (Nat.not_lt.mp hroom) c
      obtain ⟨rfl, rfl⟩ := Prod.mk.inj (Option.some.inj (hsame.symm.trans hcall))
      obtain ⟨hreg, hresults⟩ := ih h hrest
      have hk : DEVICES_MAX_DEV - entries.length = 0 := by omega
      refine ⟨?_, ?_⟩
      · rw [hk] at hreg ⊢
        exact hreg
      · rw [if_neg hroom, hresults, results_full _ (by omega), results_full _ (by omega)]

/-- With a page for every free slot the calls return. -/
theorem Registered.run_returns (hlaw : src.Lawful taken) :
    ∀ (calls : List Mkdev) {s : Registry σ} {entries : List (Mkdev × Word)},
      Registered taken s entries →
      src.Supplies (DEVICES_MAX_DEV - entries.length) s.machine.pmm →
      ∃ results s', runMkdev src calls s = some (results, s') := by
  intro calls
  induction calls with
  | nil => exact fun _ _ => ⟨_, _, rfl⟩
  | cons c calls ih =>
    intro s entries h hpages
    by_cases hroom : entries.length < DEVICES_MAX_DEV
    · rw [free_succ hroom] at hpages
      obtain ⟨d, pmm, mem, hget, hrest⟩ := hpages s.machine.mem
      have hslot := h.findIdx
      rw [if_pos hroom] at hslot
      have hcall : deviceMkdev src c s =
          some (0, ⟨⟨initDevice mem d c, pmm⟩, s.devices.set entries.length d⟩) := by
        simp only [deviceMkdev, hslot, hget]
        rfl
      obtain ⟨-, d', h₁⟩ := h.mkdev hlaw hroom hcall
      obtain ⟨rs, s', hrun⟩ := ih h₁ (by rwa [List.length_append, List.length_singleton])
      exact ⟨0 :: rs, s', by simp [runMkdev, hcall, hrun]⟩
    · have hcall : deviceMkdev src c s = some (1, s) := h.mkdev_full (Nat.not_lt.mp hroom) c
      obtain ⟨rs, s', hrun⟩ := ih h hpages
      exact ⟨1 :: rs, s', by simp [runMkdev, hcall, hrun]⟩

/-- Lookups among devices with short names. -/
theorem Registered.findsFirst (h : Registered taken s entries)
    (hshort : ∀ e ∈ entries, e.1.name.text.length < 16) (n : CString) :
    FindsFirst (entries.map Prod.fst) s n := by
  have hmatch : ∀ e ∈ entries, Matches s.machine.mem e.2 n ↔ e.1.name.text = n.text :=
    fun e he => (h.keeps e he).matches_iff (hshort e he) n
  constructor
  · intro before c after hsplit hname hbefore
    obtain ⟨eb, rest, rfl, rfl, hrest⟩ := List.map_eq_append_iff.mp hsplit
    obtain ⟨e, ea, rfl, rfl, rfl⟩ := List.map_eq_cons_iff.mp hrest
    have he : e ∈ eb ++ e :: ea := by simp
    have hdevices : s.devices = eb.map Prod.snd ++ e.2 :: (ea.map Prod.snd ++
        List.replicate (DEVICES_MAX_DEV - (eb ++ e :: ea).length) 0) := by
      rw [h.devices]
      simp
    refine ⟨e.2, ?_, ?_, (h.page e he).1, (h.keeps e he).callbacks⟩
    · rw [devopen, hdevices, devopenFrom_skipAll, devopenFrom_hit (h.page e he).1
        ((hmatch e he).mpr hname)]
      intro d hd
      obtain ⟨e', he', rfl⟩ := List.mem_map.mp hd
      have hmem : e' ∈ eb ++ e :: ea := List.mem_append_left _ he'
      exact Or.inr (mt (hmatch e' hmem).mp (hbefore e'.1 (List.mem_map_of_mem he')))
    · rw [hdevices]
      simp
  · intro hnone
    have hskip : ∀ d ∈ s.devices, d = 0 ∨ ¬ Matches s.machine.mem d n := by
      intro d hd
      rw [h.devices] at hd
      rcases List.mem_append.mp hd with hd | hd
      · obtain ⟨e, he, rfl⟩ := List.mem_map.mp hd
        exact Or.inr (mt (hmatch e he).mp (hnone e.1 (List.mem_map_of_mem he)))
      · exact Or.inl (List.eq_of_mem_replicate hd)
    have := devopenFrom_skipAll hskip []
    rwa [List.append_nil] at this

end Runs

/-! ## Long names -/

/-- The page number `k` of a stock that starts at 2 MiB. -/
def stockPage (k : Nat) : Word := BitVec.ofNat 64 (0x200000 + 0x1000 * k)

theorem toNat_stockPage {k : Nat} (hk : k < DEVICES_MAX_DEV) :
    (stockPage k).toNat = 0x200000 + 0x1000 * k := by
  unfold DEVICES_MAX_DEV at hk
  exact Nat.mod_eq_of_lt (by omega)

/-- Enough pages for all devices. -/
def devicePool : PagePool where
  pages := (List.range DEVICES_MAX_DEV).map stockPage
  nodup := by
    refine List.nodup_range.map_on fun i hi j hj heq => ?_
    have := congrArg BitVec.toNat heq
    rw [toNat_stockPage (List.mem_range.mp hi), toNat_stockPage (List.mem_range.mp hj)] at this
    omega
  frame := by
    intro p hp
    obtain ⟨k, hk, rfl⟩ := List.mem_map.mp hp
    have hk := List.mem_range.mp hk
    unfold FrameAddress PageAligned
    rw [toNat_stockPage hk]
    unfold DEVICES_MAX_DEV at hk
    omega

theorem zero_notMem_devicePool : (0 : Word) ∉ devicePool.pages := by
  intro hzero
  obtain ⟨k, hk, heq⟩ := List.mem_map.mp hzero
  have := congrArg BitVec.toNat heq
  rw [toNat_stockPage (List.mem_range.mp hk)] at this
  exact absurd this (by simp)

/-- Calls served from the stock write to the names and callbacks of the pages they take from it. -/
theorem runMkdev_pool_frame :
    ∀ {calls : List Mkdev} {s s' : Registry PagePool} {results : List (BitVec 32)},
      runMkdev poolSource calls s = some (results, s') →
      (∀ d ∈ s'.devices, d ∈ s.devices ∨ d ∈ s.machine.pmm.pages) ∧
        ∀ x, (∀ p ∈ s.machine.pmm.pages, 16 ≤ (x - p).toNat ∧
            ((x - p).toNat < 24 ∨ 48 ≤ (x - p).toNat)) →
          s'.machine.mem x = s.machine.mem x := by
  intro calls
  induction calls with
  | nil =>
    intro s s' results hrun
    cases hrun
    exact ⟨fun d hd => Or.inl hd, fun x _ => rfl⟩
  | cons c calls ih =>
    intro s s' results hrun
    simp only [runMkdev, Option.bind_eq_bind, Option.bind_eq_some_iff, Prod.exists] at hrun
    obtain ⟨r, s₁, hcall, rs, s₂, hrest, heq⟩ := hrun
    cases heq
    obtain ⟨hdevices, hframe⟩ := ih hrest
    unfold deviceMkdev at hcall
    split at hcall
    · cases hcall
      exact ⟨hdevices, hframe⟩
    · simp only [Option.bind_eq_bind, Option.bind_eq_some_iff, Prod.exists] at hcall
      obtain ⟨d, pmm, mem, hget, heq⟩ := hcall
      cases heq
      obtain ⟨hpages, rfl⟩ := poolSource_getpage hget
      rw [hpages]
      refine ⟨fun d' hd' => ?_, fun x hx => ?_⟩
      · rcases hdevices d' hd' with hold | hnew
        · rcases List.mem_or_eq_of_mem_set hold with hold | rfl
          · exact Or.inl hold
          · exact Or.inr List.mem_cons_self
        · exact Or.inr (List.mem_cons_of_mem d hnew)
      · obtain ⟨hname, hcallbacks⟩ := hx d List.mem_cons_self
        have hrest := hframe x fun p hp => hx p (List.mem_cons_of_mem d hp)
        exact hrest.trans (initDevice_of_outside hname hcallbacks)

/-- What stands behind the name field can be such that a name of 16 or more characters is not
found. -/
theorem registry_fails_on_long {calls : List Mkdev} {c : Mkdev}
    (hc : c ∈ calls.take DEVICES_MAX_DEV) (hlong : 16 ≤ c.name.text.length) :
    ¬ RegistryWorks calls := by
  intro hworks
  -- the byte after the field differs from the one of the name
  obtain ⟨fill, hfill⟩ : ∃ fill : Byte, fill ≠ c.name.bytes 16 :=
    ⟨c.name.bytes 16 + 1, by bv_omega⟩
  have hzero : (0 : Word) ∈ devicePool.taken := zero_notMem_devicePool
  have hsupply : poolSource.Supplies DEVICES_MAX_DEV devicePool :=
    poolSource_supplies _ devicePool (by simp [devicePool])
  have hstart : Registered PagePool.taken ⟨⟨fun _ => fill, devicePool⟩, _⟩ [] := .start hzero
  obtain ⟨results, s', hrun⟩ := hstart.run_returns poolSource_lawful calls hsupply
  have hserves := hworks _ _ _ ⟨fun _ => fill, devicePool⟩ poolSource_lawful hzero results s' hrun
  -- the first call with the name is the one whose device is to be found
  obtain ⟨first, hfirst⟩ := Option.isSome_iff_exists.mp (List.find?_isSome (p := fun b : Mkdev =>
    decide (b.name.text = c.name.text)) |>.mpr ⟨c, hc, by simp⟩)
  obtain ⟨hsame, before, after, hsplit, hbefore⟩ := List.find?_eq_some_iff_append.mp hfirst
  obtain ⟨d, hopen, hslot, hd, -⟩ := (hserves.lookup c.name).found before first after hsplit
    (by simpa using hsame) fun b hb => by simpa using hbefore b hb
  have hmatch := devopenFrom_matches hd hopen 16 hlong
  obtain ⟨hdevices, hframe⟩ := runMkdev_pool_frame hrun
  have hpool : d ∈ devicePool.pages := by
    rcases hdevices d (List.mem_of_getElem? hslot) with hold | hnew
    · exact absurd (List.eq_of_mem_replicate hold) hd
    · exact hnew
  have hkept : s'.machine.mem (d + BitVec.ofNat 64 16) = fill := by
    refine hframe _ fun p hp => ?_
    have hoff : (d + BitVec.ofNat 64 16 - d).toNat = 16 := toNat_offset d (by decide)
    have hin : InPage d (d + BitVec.ofNat 64 16) := by
      unfold InPage
      omega
    by_cases hpd : p = d
    · subst hpd
      omega
    · have hout : ¬ InPage p (d + BitVec.ofNat 64 16) := fun hp' =>
        hpd (InPage.unique (devicePool.frame p hp).1 (devicePool.frame d hpool).1 hp' hin)
      unfold InPage at hout
      omega
  exact hfill (hkept.symm.trans hmatch)

/-- The registry works exactly for calls whose names have less than 16 characters, as far as there
are slots for them. -/
theorem registryWorks_iff (calls : List Mkdev) :
    RegistryWorks calls ↔ ∀ c ∈ calls.take DEVICES_MAX_DEV, c.name.text.length < 16 := by
  constructor
  · intro hworks c hc
    by_contra hlong
    exact registry_fails_on_long hc (Nat.not_lt.mp hlong) hworks
  · intro hshort σ src taken s hlaw hzero results s' hrun
    obtain ⟨⟨entries, hreg, hmade⟩, hresults⟩ := (Registered.start hzero).run hlaw hrun
    rw [List.nil_append] at hreg
    rw [List.length_nil, Nat.sub_zero] at hmade
    have hlength : entries.length = min DEVICES_MAX_DEV calls.length := by
      have := congrArg List.length hmade
      rwa [List.length_map, List.length_take] at this
    refine ⟨?_, fun n => ?_, fun hroom c r s'' hcall => ?_, fun hfull c => ?_⟩
    · rw [hresults, List.length_nil, List.range_eq_range']
    · rw [← hmade]
      refine hreg.findsFirst (fun e he => ?_) n
      exact hshort e.1 (hmade ▸ List.mem_map_of_mem he)
    · exact (hreg.mkdev hlaw (by omega) hcall).1
    · exact hreg.mkdev_full (by omega) c

/-- Sixteen times the letter A. -/
def longName : CString where
  text := List.replicate 16 0x41
  behind := fun _ => 0
  noZero := by decide
  fits := by decide

/-- A device with that name is not found in a page that held ones before. -/
theorem longName_not_found :
    ((runMkdev poolSource [⟨longName, 0, 0, 0⟩]
        ⟨⟨fun _ => 1, devicePool⟩, List.replicate DEVICES_MAX_DEV 0⟩).bind fun r =>
      devopen longName r.2) = some 0 := by
  decide +kernel

end ChronOS.Drivers
