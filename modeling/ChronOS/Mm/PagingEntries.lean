/-
  Mm/PagingEntries.lean --- the entries `__paging_map` leaves along a path.

  The translation of a page is one address; the hardware also reads the flags,
  at all four levels.  `Remaps` relates the entries along the path of a page
  before and after a call: the entries of tables that exist are kept as they are,
  new tables are linked with the flags of the call, and the last entry is updated
  by mask and or.  The two results about flags are read off that relation.
-/
import ChronOS.Mm.PagingTables

set_option autoImplicit false

namespace ChronOS.Mm

open ChronOS.Foundation

def PAGE_USER : Word := 1#64 <<< 2

/-- The entries the walk along `p` reads from the table `t` on, root first; the last one is
the first that is not present. -/
def pathEntries (m : Mem) : Word → List (BitVec 9) → List Word
  | _, [] => []
  | t, i :: p =>
      let pde := m.read64 (slot t (i.setWidth 64))
      pde :: if Present pde then pathEntries m (pdeGetaddress pde) p else []

section Entries

variable {m : Mem} {t pde : Word} {i : BitVec 9}

theorem pathEntries_of_present (h : m.read64 (slot t (i.setWidth 64)) = pde) (hp : Present pde)
    (p : List (BitVec 9)) :
    pathEntries m t (i :: p) = pde :: pathEntries m (pdeGetaddress pde) p := by
  simp only [pathEntries, h, if_pos hp]

theorem pathEntries_of_not_present (h : m.read64 (slot t (i.setWidth 64)) = pde)
    (hp : ¬ Present pde) (p : List (BitVec 9)) : pathEntries m t (i :: p) = [pde] := by
  simp only [pathEntries, h, if_neg hp]

end Entries

/-- The last-level entry of `virtual`, when its table exists. -/
def leafEntry (m : Mem) (dir virtual : Word) : Option Word :=
  (pathEntries m dir (path virtual))[3]?

/-! ## The call level by level -/

/-- How a call changes the entries along a path of `n` levels. -/
inductive Remaps (physical flags : Word) : Nat → List Word → List Word → Prop
  | leaf (pde : Word) : Remaps physical flags 1 [pde] [pdeSetaddress pde physical ||| flags]
  | kept {n : Nat} {pde : Word} {old new : List Word} :
      Present pde → Remaps physical flags (n + 1) old new →
      Remaps physical flags (n + 2) (pde :: old) (pde :: new)
  | linked {n : Nat} {pde page : Word} {new : List Word} :
      ¬ Present pde → FrameAddress page → Remaps physical flags (n + 1) [0] new →
      Remaps physical flags (n + 2) [pde] ((pdeSetaddress pde page ||| flags) :: new)

section Levels

variable {σ : Type} (src : PageSource σ)

/-- `__paging_map` from the table `t` on, for the indices that are left. -/
def mapFrom (physical flags : Word) : Word → List (BitVec 9) → Machine σ → Option (Machine σ)
  | _, [], s => some s
  | t, [i], s =>
      let pde := s.mem.read64 (slot t (i.setWidth 64))
      let pde := pdeSetaddress pde physical ||| flags
      some { s with mem := s.mem.write64 (slot t (i.setWidth 64)) pde }
  | t, i :: j :: p, s => do
      let (c, s) ← nextTable src t (i.setWidth 64) flags s
      mapFrom physical flags c (j :: p) s

theorem pagingMap_eq_mapFrom (dir virtual physical flags : Word) (s : Machine σ) :
    pagingMap src dir virtual physical flags s =
      mapFrom src physical flags dir (path virtual) s := by
  unfold pagingMap path
  simp only [pmidxInit_eq, mapFrom]

variable {src} {taken : σ → Set Word} {dirs : Set Word}

/-- One get-or-create block, as the entries of the tables see it. -/
theorem nextTable_entries (hlaw : src.Lawful taken) {s s' : Machine σ} {owner : Owner}
    (hT : Tables dirs s.mem (taken s.pmm) owner) {t c flags : Word} (ht : owner t ≠ none)
    {i : BitVec 9} (hflags : NoAddressBits flags)
    (h : nextTable src t (i.setWidth 64) flags s = some (c, s')) :
    (Present (s.mem.read64 (slot t (i.setWidth 64))) ∧
      c = pdeGetaddress (s.mem.read64 (slot t (i.setWidth 64))) ∧ s' = s) ∨
    (¬ Present (s.mem.read64 (slot t (i.setWidth 64))) ∧ FrameAddress c ∧
      s'.mem.read64 (slot t (i.setWidth 64)) =
        pdeSetaddress (s.mem.read64 (slot t (i.setWidth 64))) c ||| flags ∧
      pdeGetaddress (s'.mem.read64 (slot t (i.setWidth 64))) = c ∧
      (∀ j : BitVec 9, s'.mem.read64 (slot c (j.setWidth 64)) = 0) ∧
      ∀ n, owner n ≠ none → n ≠ t → ∀ j : BitVec 9,
        s'.mem.read64 (slot n (j.setWidth 64)) = s.mem.read64 (slot n (j.setWidth 64))) := by
  unfold nextTable at h
  by_cases hp : Present (s.mem.read64 (slot t (i.setWidth 64)))
  · rw [if_pos hp] at h
    cases h
    exact Or.inl ⟨hp, rfl, rfl⟩
  · rw [if_neg hp, Option.map_eq_some_iff] at h
    obtain ⟨⟨page, pmm, mem⟩, hget, heq⟩ := h
    obtain ⟨rfl, rfl⟩ := Prod.mk.inj heq
    obtain ⟨hsame, hzero⟩ := link_words hlaw hT ht hget i
      (pdeSetaddress (s.mem.read64 (slot t (i.setWidth 64))) page ||| flags)
    have hframe := hlaw.frame _ _ _ _ _ hget
    refine Or.inr ⟨hp, hframe, Mem.read64_write64_self _ _ _, ?_, hzero,
      fun n hn hnt j => hsame n hn j (Or.inl hnt)⟩
    rw [Mem.read64_write64_self, pdeGetaddress_link hflags, hframe.mask]

/-- The call changes the entries along its path as `Remaps` says, and leaves the tables above
the one it starts from alone. -/
theorem mapFrom_remaps (hlaw : src.Lawful taken) {physical flags : Word}
    (hpresent : Present flags) (hflags : NoAddressBits flags) :
    ∀ (p : List (BitVec 9)) (t r : Word) (q : List (BitVec 9)) (s s' : Machine σ) (owner : Owner),
      Tables dirs s.mem (taken s.pmm) owner → owner t = some (r, q) →
      q.length + p.length = 4 → p ≠ [] → mapFrom src physical flags t p s = some s' →
      Remaps physical flags p.length (pathEntries s.mem t p) (pathEntries s'.mem t p) ∧
      ∀ n r' q', owner n = some (r', q') → q'.length < q.length → ∀ j : BitVec 9,
        s'.mem.read64 (slot n (j.setWidth 64)) = s.mem.read64 (slot n (j.setWidth 64)) := by
  intro p
  induction p with
  | nil => intro t r q s s' owner _ _ _ hne; exact absurd rfl hne
  | cons i p ih =>
    intro t r q s s' owner hT ht hlen _ h
    have hother : ∀ n r' q', owner n = some (r', q') → q'.length < q.length → n ≠ t := by
      rintro n r' q' hn hlt rfl
      rw [hn] at ht
      cases ht
      omega
    cases p with
    | nil =>
      cases h
      have haligned := hT.aligned t (by simp [ht])
      refine ⟨?_, fun n r' q' hn hlt j => ?_⟩
      · simp only [pathEntries, Mem.read64_write64_self, ite_self, List.length_singleton]
        exact .leaf _
      · exact read64_write64_slot_of_ne haligned (hT.aligned n (by simp [hn]))
          (Or.inl (hother n r' q' hn hlt))
    | cons j p =>
      simp only [mapFrom, Option.bind_eq_bind, Option.bind_eq_some_iff, Prod.exists] at h
      obtain ⟨c, s₁, hnext, hrest⟩ := h
      simp only [List.length_cons] at hlen
      obtain ⟨o₁, hgrows, hown, -⟩ :=
        nextTable_grows hlaw hT ht (by omega) hpresent hflags hnext
      obtain ⟨hremaps, hframe⟩ := ih c r (q ++ [i]) s₁ s' o₁ hgrows.tables hown
        (by simp only [List.length_append, List.length_cons, List.length_nil]; omega) (by simp)
        hrest
      simp only [List.length_append, List.length_cons, List.length_nil] at hframe
      have hentry := hframe t r q (hgrows.owner_mono t _ ht) (by omega) i
      rcases nextTable_entries hlaw hT (by simp [ht]) hflags hnext with
        ⟨hp, rfl, rfl⟩ | ⟨hp, hpage, hnew, hlink, hzero, hsame⟩
      · refine ⟨?_, fun n r' q' hn hlt => hframe n r' q' (hgrows.owner_mono n _ hn) (by omega)⟩
        rw [pathEntries_of_present rfl hp, pathEntries_of_present hentry hp]
        exact .kept hp hremaps
      · rw [pathEntries_of_not_present (hzero j) not_present_zero] at hremaps
        refine ⟨?_, fun n r' q' hn hlt k => ?_⟩
        · rw [pathEntries_of_not_present rfl hp,
            pathEntries_of_present (hentry.trans hnew) (present_or hpresent), ← hnew, hlink, hnew]
          exact .linked hp hpage hremaps
        · rw [hframe n r' q' (hgrows.owner_mono n _ hn) (by omega) k]
          exact hsame n (by simp [hn]) (hother n r' q' hn hlt) k

theorem pagingMap_remaps (hlaw : src.Lawful taken) {s s' : Machine σ} {owner : Owner}
    (hT : Tables dirs s.mem (taken s.pmm) owner) {dir virtual physical flags : Word}
    (hdir : dir ∈ dirs) (hpresent : Present flags) (hflags : NoAddressBits flags)
    (h : pagingMap src dir virtual physical flags s = some s') :
    Remaps physical flags 4 (pathEntries s.mem dir (path virtual))
      (pathEntries s'.mem dir (path virtual)) := by
  rw [pagingMap_eq_mapFrom] at h
  exact (mapFrom_remaps hlaw hpresent hflags (path virtual) dir dir [] s s' owner hT
    (hT.forest.root dir hdir) rfl (by simp [path]) h).1

end Levels

/-! ## The last entry -/

/-- The last entry comes from the one before, or from an empty one. -/
theorem Remaps.leaf_eq {physical flags : Word} {n : Nat} {old new : List Word}
    (h : Remaps physical flags n old new) :
    new[n - 1]? = some (pdeSetaddress (old[n - 1]?.getD 0) physical ||| flags) := by
  induction h with
  | leaf pde => rfl
  | kept _ _ ih => simpa using ih
  | @linked n pde page new _ _ _ ih =>
    have hzero : ([0] : List Word)[n]?.getD 0 = 0 := by cases n <;> rfl
    simp only [Nat.add_sub_cancel, Nat.add_succ_sub_one, List.getElem?_cons_succ,
      hzero] at ih ⊢
    exact ih

/-- Every bit of `bits` is one of `flags`. -/
def Within (bits flags : Word) : Prop := bits &&& ~~~ flags = 0

instance (bits flags : Word) : Decidable (Within bits flags) := inferInstanceAs (Decidable (_ = _))

theorem within_iff (bits flags : Word) :
    Within bits flags ↔ ∀ i < 64, bits.getLsbD i = true → flags.getLsbD i = true := by
  unfold Within
  constructor
  · intro h i hi hbit
    have := congrArg (fun x : Word => x.getLsbD i) h
    simpa [hbit, hi] using this
  · intro h
    apply BitVec.eq_of_getLsbD_eq
    intro i hi
    have := h i hi
    cases hbit : bits.getLsbD i <;> simp_all

theorem lt_two_pow_iff_getLsbD (x : Word) (k : Nat) :
    x.toNat < 2 ^ k ↔ ∀ i < 64, k ≤ i → x.getLsbD i = false := by
  constructor
  · intro h i _ hk
    exact Nat.testBit_lt_two_pow (Nat.lt_of_lt_of_le h (Nat.pow_le_pow_right (by decide) hk))
  · intro h
    apply Nat.lt_pow_two_of_testBit
    intro i hk
    by_cases hi : i < 64
    · exact h i hi hk
    · exact BitVec.getLsbD_of_ge x i (by omega)

/-- The updated entry is the rounded address and the flags exactly when the address fits in 40
bits and neither its low bits nor the bits kept from the old entry add to the flags. -/
theorem updated_entry_eq_iff {pde physical flags : Word} (hphysical : physical.toNat < 2 ^ 52)
    (hflags : AttributeFlags flags) :
    pdeSetaddress pde physical ||| flags = (physical &&& ~~~ 0xfff#64) ||| flags ↔
      physical.toNat < 2 ^ 40 ∧ Within (physical &&& 0xfff#64) flags ∧
        Within (pde &&& 0xfff0000000000fff#64) flags := by
  have hkeep : ∀ i < 64, (0xfff0000000000fff#64).getLsbD i = decide (i < 12 ∨ 52 ≤ i) := by decide
  have haddr : ∀ i < 64, (0x000000ffffffffff#64).getLsbD i = decide (i < 40) := by decide
  have hlow : ∀ i < 64, (0xfff#64).getLsbD i = decide (i < 12) := by decide
  have hhigh := (lt_two_pow_iff_getLsbD physical 52).mp hphysical
  have hattr := (lt_two_pow_iff_getLsbD flags 7).mp hflags
  -- bit by bit: the address field agrees, and the other bits agree when they add nothing
  have hbit : ∀ i < 64, (pdeSetaddress pde physical ||| flags).getLsbD i =
        ((physical &&& ~~~ 0xfff#64) ||| flags).getLsbD i ↔
      (40 ≤ i → physical.getLsbD i = false) ∧
      ((physical &&& 0xfff#64).getLsbD i = true → flags.getLsbD i = true) ∧
      ((pde &&& 0xfff0000000000fff#64).getLsbD i = true → flags.getLsbD i = true) := by
    intro i hi
    have hp := hhigh i hi
    have hf := hattr i hi
    unfold pdeSetaddress
    simp only [BitVec.getLsbD_or, BitVec.getLsbD_and, BitVec.getLsbD_not, hkeep i hi, haddr i hi,
      hlow i hi, hi, decide_true, Bool.true_and]
    generalize physical.getLsbD i = p at *
    generalize flags.getLsbD i = f at *
    generalize pde.getLsbD i = o at *
    rcases Nat.lt_or_ge i 12 with h12 | h12
    · cases p <;> cases f <;> cases o <;> simp [h12] <;> omega
    · have hf' := hf (by omega)
      rcases Nat.lt_or_ge i 40 with h40 | h40
      · simp [hf', h40, Nat.not_lt.mpr h12, show ¬ 52 ≤ i by omega, show ¬ 40 ≤ i by omega]
      · rcases Nat.lt_or_ge i 52 with h52 | h52
        · simp [hf', Nat.not_lt.mpr h12, h40, Nat.not_lt.mpr h40, Nat.not_le.mpr h52]
        · simp [hf', hp h52, Nat.not_lt.mpr h40, Nat.not_lt.mpr h12, h52]
  rw [BitVec.eq_of_getLsbD_eq_iff, lt_two_pow_iff_getLsbD, within_iff, within_iff]
  constructor
  · intro h
    exact ⟨fun i hi => ((hbit i hi).mp (h i hi)).1, fun i hi => ((hbit i hi).mp (h i hi)).2.1,
      fun i hi => ((hbit i hi).mp (h i hi)).2.2⟩
  · intro ⟨h₁, h₂, h₃⟩ i hi
    exact (hbit i hi).mpr ⟨h₁ i hi, h₂ i hi, h₃ i hi⟩

section Results

variable {σ : Type} {src : PageSource σ} {taken : σ → Set Word} {dirs : Set Word}

/-- After `__paging_map` the last entry of the page is the address rounded down to a page and
the flags, exactly when the address fits in 40 bits, its low 12 bits are among the flags, and so
are the bits 0..11 and 52..63 that the entry had before. -/
theorem leaf_entry_exact_iff (hlaw : src.Lawful taken) {s s' : Machine σ} {owner : Owner}
    (hT : Tables dirs s.mem (taken s.pmm) owner) {dir virtual physical flags : Word}
    (hdir : dir ∈ dirs) (hphysical : physical.toNat < 2 ^ 52) (hpresent : Present flags)
    (hflags : AttributeFlags flags) (h : pagingMap src dir virtual physical flags s = some s') :
    leafEntry s'.mem dir virtual = some ((physical &&& ~~~ 0xfff#64) ||| flags) ↔
      physical.toNat < 2 ^ 40 ∧ Within (physical &&& 0xfff#64) flags ∧
        Within ((leafEntry s.mem dir virtual).getD 0 &&& 0xfff0000000000fff#64) flags := by
  have hleaf := (pagingMap_remaps hlaw hT hdir hpresent hflags.noAddressBits h).leaf_eq
  rw [leafEntry, hleaf, Option.some.injEq, leafEntry, updated_entry_eq_iff hphysical hflags]

/-! ## Permissions -/

/-- The entry has the right: `PAGE_READWRITE` or `PAGE_USER`. -/
def Grants (pde right : Word) : Prop := pde &&& right ≠ 0

instance (pde right : Word) : Decidable (Grants pde right) := inferInstanceAs (Decidable (_ ≠ _))

/-- The processor grants a right for a page that has it in the present entries of all four
levels. -/
def Effective (m : Mem) (dir virtual right : Word) : Prop :=
  (pathEntries m dir (path virtual)).length = 4 ∧
    ∀ pde ∈ pathEntries m dir (path virtual), Present pde ∧ Grants pde right

/-- The rights asked for in `flags` are effective. -/
def Honoured (m : Mem) (dir virtual flags : Word) : Prop :=
  (Grants flags PAGE_READWRITE → Effective m dir virtual PAGE_READWRITE) ∧
    (Grants flags PAGE_USER → Effective m dir virtual PAGE_USER)

theorem Grants.or {pde flags right : Word} (h : Grants flags right) :
    Grants (pde ||| flags) right := by
  intro hzero
  rw [BitVec.and_or_distrib_right] at hzero
  exact h (BitVec.or_eq_zero_iff.mp hzero).2

theorem Remaps.length_eq {physical flags : Word} {n : Nat} {old new : List Word}
    (h : Remaps physical flags n old new) : new.length = n := by
  induction h with
  | leaf pde => rfl
  | kept _ _ ih => simpa using ih
  | linked _ _ _ ih => simpa using ih

theorem Remaps.present {physical flags : Word} (hpresent : Present flags) {n : Nat}
    {old new : List Word} (h : Remaps physical flags n old new) : ∀ pde ∈ new, Present pde := by
  induction h with
  | leaf pde => simpa using present_or hpresent
  | kept hp _ ih => simpa [hp] using ih
  | linked _ _ _ ih => simpa [present_or hpresent] using ih

/-- The new entries all have a right asked for when the tables that were there have it. -/
theorem Remaps.grants_iff {physical flags right : Word} (hright : Grants flags right) {n : Nat}
    {old new : List Word} (h : Remaps physical flags n old new) :
    (∀ pde ∈ new, Grants pde right) ↔
      ∀ pde ∈ old.take (n - 1), Present pde → Grants pde right := by
  induction h with
  | leaf pde => simpa using hright.or
  | kept hp _ ih =>
    simp only [List.forall_mem_cons, ih, Nat.add_succ_sub_one, Nat.add_zero, List.take_succ_cons,
      hp, true_imp_iff]
  | @linked n pde page new hp _ _ ih =>
    have hnew : ∀ pde ∈ new, Grants pde right := by
      refine ih.mpr fun x hx hpx => absurd hpx ?_
      rw [List.mem_singleton.mp (List.mem_of_mem_take hx)]
      exact not_present_zero
    simp only [List.forall_mem_cons, hright.or, true_and, Nat.add_succ_sub_one,
      List.take_succ_cons, hp, false_imp_iff]
    simpa using hnew

/-- A right asked for is effective exactly when the tables on the path that exist have it. -/
theorem effective_iff (hlaw : src.Lawful taken) {s s' : Machine σ} {owner : Owner}
    (hT : Tables dirs s.mem (taken s.pmm) owner) {dir virtual physical flags right : Word}
    (hdir : dir ∈ dirs) (hpresent : Present flags) (hflags : NoAddressBits flags)
    (hright : Grants flags right) (h : pagingMap src dir virtual physical flags s = some s') :
    Effective s'.mem dir virtual right ↔
      ∀ pde ∈ (pathEntries s.mem dir (path virtual)).take 3, Present pde → Grants pde right := by
  have hremaps := pagingMap_remaps hlaw hT hdir hpresent hflags h
  rw [← hremaps.grants_iff hright]
  constructor
  · intro ⟨_, heff⟩ pde hpde
    exact (heff pde hpde).2
  · intro hgrants
    exact ⟨hremaps.length_eq, fun pde hpde => ⟨hremaps.present hpresent pde hpde, hgrants pde hpde⟩⟩

/-- One call of `__paging_map` on the directory, with `PAGE_PRESENT` and attribute flags. -/
def MapStep (src : PageSource σ) (dir : Word) (s s' : Machine σ) : Prop :=
  ∃ virtual physical flags, Present flags ∧ AttributeFlags flags ∧
    pagingMap src dir virtual physical flags s = some s'

theorem MapStep.tables (hlaw : src.Lawful taken) {dir : Word} (hdir : dir ∈ dirs)
    {s s' : Machine σ} (hT : ∃ owner, Tables dirs s.mem (taken s.pmm) owner)
    (hrun : Relation.ReflTransGen (MapStep src dir) s s') :
    ∃ owner, Tables dirs s'.mem (taken s'.pmm) owner := by
  induction hrun with
  | refl => exact hT
  | tail _ hstep ih =>
    obtain ⟨owner, hT⟩ := ih
    obtain ⟨_, _, _, hpresent, hflags, hmap⟩ := hstep
    obtain ⟨owner', hgrows, -⟩ := pagingMap_spec hlaw hT hdir hpresent hflags.noAddressBits hmap
    exact ⟨owner', hgrows.tables⟩

/-- A directory starts empty and any number of pages are mapped in it.  The rights asked for in
a further call are effective exactly when each of them is held by the tables on the path of the
page that exist before the call. -/
theorem requested_rights_effective_iff (hlaw : src.Lawful taken) {dir : Word} {s₀ s s' : Machine σ}
    (haligned : PageAligned dir) (hdir : dir ∈ taken s₀.pmm)
    (hzero : ∀ x, InPage dir x → s₀.mem x = 0)
    (hrun : Relation.ReflTransGen (MapStep src dir) s₀ s) {virtual physical flags : Word}
    (hpresent : Present flags) (hflags : AttributeFlags flags)
    (h : pagingMap src dir virtual physical flags s = some s') :
    Honoured s'.mem dir virtual flags ↔
      ∀ right ∈ [PAGE_READWRITE, PAGE_USER], Grants flags right →
        ∀ pde ∈ (pathEntries s.mem dir (path virtual)).take 3, Present pde → Grants pde right := by
  have hT₀ : ∃ owner, Tables {dir} s₀.mem (taken s₀.pmm) owner :=
    ⟨_, Tables.of_zero (by simpa using haligned) (by simpa using hdir) (by simpa using hzero)⟩
  obtain ⟨owner, hT⟩ := MapStep.tables hlaw (Set.mem_singleton dir) hT₀ hrun
  have heff : ∀ right, Grants flags right → (Effective s'.mem dir virtual right ↔ _) :=
    fun right hright => effective_iff hlaw hT (Set.mem_singleton dir) hpresent
      hflags.noAddressBits hright h
  simp only [Honoured, List.forall_mem_cons, List.not_mem_nil, false_imp_iff, implies_true,
    and_true]
  exact and_congr (imp_congr_right (heff PAGE_READWRITE)) (imp_congr_right (heff PAGE_USER))

end Results

/-! ## On an empty directory -/

/-- Zeroed memory, with the directory at 0x1000 and six pages to build tables from. -/
def blankMachine : Machine PagePool where
  mem := fun _ => 0
  pmm := ⟨[0x100000, 0x101000, 0x102000, 0x103000, 0x104000, 0x105000], by decide,
    by simp [FrameAddress, PageAligned]⟩

theorem blankMachine_dir : PageAligned 0x1000 ∧ 0x1000 ∈ blankMachine.pmm.taken ∧
    ∀ x, InPage 0x1000 x → blankMachine.mem x = 0 := by
  refine ⟨by simp [PageAligned], ?_, fun _ _ => rfl⟩
  simp [PagePool.taken, blankMachine]

theorem blankMachine_tables :
    ∃ owner, Tables {0x1000} blankMachine.mem blankMachine.pmm.taken owner := by
  obtain ⟨haligned, hdir, hzero⟩ := blankMachine_dir
  exact ⟨_, Tables.of_zero (by simpa using haligned) (by simpa using hdir) (by simpa using hzero)⟩

/-- Two pages can be mapped in a row. -/
theorem blankMachine_map (virtual physical flags virtual' physical' flags' : Word) :
    ∃ s s', pagingMap poolSource 0x1000 virtual physical flags blankMachine = some s ∧
      pagingMap poolSource 0x1000 virtual' physical' flags' s = some s' := by
  have hpool : poolSource.Supplies (3 + 3) blankMachine.pmm := poolSource_supplies 6 _ (by decide)
  obtain ⟨s, hs, hrest⟩ := pagingMap_progress hpool 0x1000 virtual physical flags
  obtain ⟨s', hs', -⟩ := pagingMap_progress (n := 0) hrest 0x1000 virtual' physical' flags'
  exact ⟨s, s', hs, hs'⟩

theorem blankMachine_pathEntries (virtual : Word) :
    pathEntries blankMachine.mem 0x1000 (path virtual) = [0] :=
  pathEntries_of_not_present (read64_slot_of_zero _ fun _ _ => rfl) not_present_zero _

/-- A table linked with `PAGE_PRESENT` alone is read-only. -/
theorem Remaps.head_read_only {physical : Word} {n : Nat} {new : List Word}
    (h : Remaps physical PAGE_PRESENT (n + 2) [0] new) :
    ∃ pde, Present pde ∧ ¬ Grants pde PAGE_READWRITE ∧ new = pde :: new.tail := by
  cases h with
  | kept hp _ => exact absurd hp not_present_zero
  | linked _ hpage _ =>
    refine ⟨_, present_or (by decide), not_not.mpr ?_, rfl⟩
    have hmask : 0x000000fffffff000#64 &&& (0x000000ffffffffff#64 &&& PAGE_READWRITE) = 0#64 := by
      decide
    rw [← hpage.mask, pdeSetaddress, BitVec.and_or_distrib_right, BitVec.and_or_distrib_right,
      BitVec.and_assoc, BitVec.and_assoc, BitVec.and_assoc, hmask, BitVec.and_zero]
    decide

/-- Mapping the unaligned address 0x200004 with `PAGE_NORMAL` makes the page a user page. -/
theorem unaligned_address_sets_user_bit :
    ∃ s, pagingMap poolSource 0x1000 0 0x200004 PAGE_NORMAL blankMachine = some s ∧
      leafEntry s.mem 0x1000 0 = some 0x200007 ∧
      leafEntry s.mem 0x1000 0 ≠ some ((0x200004 &&& ~~~ 0xfff#64) ||| PAGE_NORMAL) := by
  obtain ⟨owner, hT⟩ := blankMachine_tables
  obtain ⟨s, -, hmap, -⟩ := blankMachine_map 0 0x200004 PAGE_NORMAL 0 0 0
  have hleaf := (pagingMap_remaps poolSource_lawful hT (Set.mem_singleton _) (by decide)
    (by decide) hmap).leaf_eq
  rw [blankMachine_pathEntries] at hleaf
  have hentry : leafEntry s.mem 0x1000 0 = some 0x200007 := hleaf
  exact ⟨s, hmap, hentry, by rw [hentry]; decide⟩

/-- Mapping an aligned address on an empty path gives the exact entry. -/
theorem aligned_address_gives_exact_entry :
    ∃ s, pagingMap poolSource 0x1000 0 0x200000 PAGE_NORMAL blankMachine = some s ∧
      leafEntry s.mem 0x1000 0 = some 0x200003 := by
  obtain ⟨owner, hT⟩ := blankMachine_tables
  obtain ⟨s, -, hmap, -⟩ := blankMachine_map 0 0x200000 PAGE_NORMAL 0 0 0
  refine ⟨s, hmap, (leaf_entry_exact_iff poolSource_lawful hT (Set.mem_singleton _) (by decide)
    (by decide) (by decide) hmap).mpr ⟨by decide, by decide, ?_⟩⟩
  rw [leafEntry, blankMachine_pathEntries]
  decide

/-- The first page of a region is mapped read-only.  The next page of it is then mapped
writable, but the tables above it stay read-only. -/
theorem neighbour_keeps_page_read_only :
    ∃ s s', pagingMap poolSource 0x1000 0 0x200000 PAGE_PRESENT blankMachine = some s ∧
      pagingMap poolSource 0x1000 0x1000 0x201000 PAGE_NORMAL s = some s' ∧
      ¬ Effective s'.mem 0x1000 0x1000 PAGE_READWRITE ∧
      ¬ Honoured s'.mem 0x1000 0x1000 PAGE_NORMAL := by
  obtain ⟨owner, hT⟩ := blankMachine_tables
  obtain ⟨s, s', hmap, hmap'⟩ :=
    blankMachine_map 0 0x200000 PAGE_PRESENT 0x1000 0x201000 PAGE_NORMAL
  have hdir : (0x1000 : Word) ∈ ({0x1000} : Set Word) := Set.mem_singleton _
  have hfirst := pagingMap_remaps poolSource_lawful hT hdir (by decide) (by decide) hmap
  obtain ⟨owner', hgrows, -⟩ :=
    pagingMap_spec poolSource_lawful hT hdir (by decide) (by decide) hmap
  rw [blankMachine_pathEntries] at hfirst
  -- both pages are reached through the entry that the first call has linked read-only
  obtain ⟨pde, hpresent, hreadonly, hpath⟩ := hfirst.head_read_only
  have hhead : pde ∈ (pathEntries s.mem 0x1000 (path 0x1000)).take 3 := by
    have hentry : pde = s.mem.read64 (slot 0x1000 0) := (List.cons.inj hpath).1.symm
    rw [hentry]
    exact List.mem_cons_self
  have hnot : ¬ Effective s'.mem 0x1000 0x1000 PAGE_READWRITE := by
    intro heff
    have hall := (effective_iff poolSource_lawful hgrows.tables hdir (by decide) (by decide)
      (by decide) hmap').mp heff
    exact hreadonly (hall pde hhead hpresent)
  exact ⟨s, s', hmap, hmap', hnot, fun hhonoured => hnot (hhonoured.1 (by decide))⟩

/-- The right to write to a page of an empty directory is effective. -/
theorem first_page_is_writable :
    ∃ s, pagingMap poolSource 0x1000 0 0x200000 PAGE_NORMAL blankMachine = some s ∧
      Honoured s.mem 0x1000 0 PAGE_NORMAL := by
  obtain ⟨haligned, hdir, hzero⟩ := blankMachine_dir
  obtain ⟨s, -, hmap, -⟩ := blankMachine_map 0 0x200000 PAGE_NORMAL 0 0 0
  refine ⟨s, hmap, (requested_rights_effective_iff poolSource_lawful haligned hdir hzero .refl
    (by decide) (by decide) hmap).mpr fun right _ _ pde hpde hpresent => absurd hpresent ?_⟩
  rw [blankMachine_pathEntries] at hpde
  rw [List.mem_singleton.mp (List.mem_of_mem_take hpde)]
  exact not_present_zero

end ChronOS.Mm
