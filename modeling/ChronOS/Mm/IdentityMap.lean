/-
  Mm/IdentityMap.lean --- what the loops of `paging_init` and `create_page_table` map,
  and whether that is all of the memory that `pmm_getpage` hands out.

  The loops count addresses up to `get_mem_size`, which is the sum of the descriptors'
  sizes and not the highest address, and `create_page_table` starts at the kernel.  An
  entry keeps 40 bits of the physical address.  So a page of the segment that
  `pmm_init` chose is mapped to itself only if the address range that the loops run
  over happens to contain it.
-/
import ChronOS.Mm.PagingTables
import ChronOS.Mm.PmmRuns

set_option autoImplicit false

namespace ChronOS.Mm

open ChronOS.Foundation

/-! ## The mapping loop -/

/-- The loop from `start` to `stop` maps the page of `x`: one of the addresses it counts through
has the page number of `x`. -/
def Maps (start stop x : Word) : Prop :=
  ∃ j : Nat, start.toNat + 0x1000 * j < stop.toNat ∧
    pageNumber (start + BitVec.ofNat 64 (0x1000 * j)) = pageNumber x

/-- The address bits an entry keeps are determined by the page number. -/
theorem frame_of_pageNumber {t x : Word} (h : pageNumber t = pageNumber x) :
    t &&& 0x000000fffffff000#64 = x &&& 0x000000fffffff000#64 := by
  have hbits : ∀ i < 64, (0x000000fffffff000#64).getLsbD i = decide (12 ≤ i ∧ i < 40) := by
    decide
  apply BitVec.eq_of_getLsbD_eq
  intro i hi
  rw [BitVec.getLsbD_and, BitVec.getLsbD_and, hbits i hi]
  by_cases hmid : 12 ≤ i ∧ i < 40
  · have hbit := congrArg (fun n : BitVec 36 => n.getLsbD (i - 12)) h
    have hlt : i - 12 < 36 := by omega
    have hsum : 12 + (i - 12) = i := by omega
    simp only [pageNumber, BitVec.getLsbD_setWidth, BitVec.getLsbD_ushiftRight, hlt, hsum,
      decide_true, Bool.true_and] at hbit
    rw [hbit]
  · simp [hmid]

/-- The loop ends only if the counter can pass `stop` without wrapping around. -/
theorem identityMap_stop {σ : Type} {src : PageSource σ} {tbl stop flags : Word} {fuel : Nat} :
    ∀ {t : Word} {s s' : Machine σ}, identityMap src tbl stop flags fuel t s = some s' →
      ∃ u : Word, stop.toNat ≤ u.toNat ∧ u.toNat % 0x1000 = t.toNat % 0x1000 := by
  induction fuel with
  | zero =>
    intro t s s' h
    exact absurd h (Option.some_ne_none s').symm
  | succ fuel ih =>
    intro t s s' h
    unfold identityMap at h
    split_ifs at h with hlt
    · obtain ⟨s₁, -, hrest⟩ := Option.bind_eq_some_iff.mp h
      obtain ⟨u, hstop, hmod⟩ := ih hrest
      refine ⟨u, hstop, hmod.trans ?_⟩
      bv_omega
    · exact ⟨t, BitVec.not_lt.mp hlt, rfl⟩

theorem maps_step {t stop : Word} (hlt : t < stop) (hwrap : t.toNat + 0x1000 < 2 ^ 64) (x : Word) :
    Maps t stop x ↔ pageNumber x = pageNumber t ∨ Maps (t + 0x1000#64) stop x := by
  have hnext : (t + 0x1000#64).toNat = t.toNat + 0x1000 := by bv_omega
  have hshift : ∀ j : Nat, t + 0x1000#64 + BitVec.ofNat 64 (0x1000 * j) =
      t + BitVec.ofNat 64 (0x1000 * (j + 1)) := by
    intro j
    rw [BitVec.add_assoc, Nat.mul_succ, Nat.add_comm, BitVec.ofNat_add]
  constructor
  · intro ⟨j, hj, hpage⟩
    cases j with
    | zero => exact Or.inl (hpage.symm.trans (by simp))
    | succ j =>
      rw [← hshift j] at hpage
      exact Or.inr ⟨j, by omega, hpage⟩
  · intro h
    rcases h with hpage | ⟨j, hj, hpage⟩
    · have hstart := BitVec.lt_def.mp hlt
      refine ⟨0, by omega, ?_⟩
      rw [Nat.mul_zero, hpage]
      exact congrArg pageNumber (BitVec.add_zero t)
    · rw [hshift j] at hpage
      rw [hnext, Nat.add_assoc, Nat.add_comm 0x1000, ← Nat.mul_succ] at hj
      exact ⟨j + 1, hj, hpage⟩

/-- Below `2 ^ 48` the pages a loop maps are those between its bounds. -/
theorem maps_iff {start stop x : Word} (hstart : PageAligned start) (hx : PageAligned x)
    (hstop : stop.toNat ≤ 2 ^ 48) (hlt : x.toNat < 2 ^ 48) :
    Maps start stop x ↔ start.toNat ≤ x.toNat ∧ x.toNat < stop.toNat := by
  unfold PageAligned at hstart hx
  have hnumber : ∀ y : Word, (pageNumber y).toNat = y.toNat / 4096 % 2 ^ 36 := by
    intro y
    rw [pageNumber, BitVec.toNat_setWidth, BitVec.toNat_ushiftRight, Nat.shiftRight_eq_div_pow]
  constructor
  · intro ⟨j, hj, hpage⟩
    have hnat : (start + BitVec.ofNat 64 (0x1000 * j)).toNat = start.toNat + 0x1000 * j := by
      rw [BitVec.toNat_add, BitVec.toNat_ofNat]
      omega
    have heq := congrArg BitVec.toNat hpage
    rw [hnumber, hnumber, hnat] at heq
    omega
  · intro ⟨hle, hbelow⟩
    have hsum : start.toNat + 0x1000 * ((x.toNat - start.toNat) / 0x1000) = x.toNat := by omega
    refine ⟨(x.toNat - start.toNat) / 0x1000, by omega, congrArg pageNumber ?_⟩
    apply BitVec.eq_of_toNat_eq
    rw [BitVec.toNat_add, BitVec.toNat_ofNat]
    omega

theorem not_maps_of_ge {t stop : Word} (hge : ¬ t < stop) (x : Word) : ¬ Maps t stop x := by
  intro ⟨j, hj, _⟩
  exact hge (BitVec.lt_def.mpr (by omega))

section Loop

variable {σ : Type} {src : PageSource σ} {taken : σ → Set Word} {dirs : Set Word}

/-- A loop that ends maps exactly the pages it counts through, each to itself as far as the
entry keeps its address, and no other page. -/
theorem identityMap_spec (hlaw : src.Lawful taken) {tbl stop flags : Word} (hdir : tbl ∈ dirs)
    (hpresent : Present flags) (hflags : NoAddressBits flags) {fuel : Nat} :
    ∀ {t : Word} {s s' : Machine σ} {owner : Owner}, Tables dirs s.mem (taken s.pmm) owner →
      identityMap src tbl stop flags fuel t s = some s' →
      ∃ owner', Grows taken dirs s s' owner owner' ∧
        ∀ r ∈ dirs, ∀ x, (r = tbl ∧ Maps t stop x →
            pageWalk s'.mem r x = some (x &&& 0x000000fffffff000#64)) ∧
          (¬ (r = tbl ∧ Maps t stop x) → pageWalk s'.mem r x = pageWalk s.mem r x) := by
  induction fuel with
  | zero =>
    intro t s s' owner _ h
    exact absurd h (Option.some_ne_none s').symm
  | succ fuel ih =>
    intro t s s' owner hT h
    obtain ⟨u, hstop, hmod⟩ := identityMap_stop h
    unfold identityMap at h
    split_ifs at h with hlt
    · obtain ⟨s₁, hmap, hrest⟩ := Option.bind_eq_some_iff.mp h
      obtain ⟨owner₁, hgrows, hwalk⟩ := pagingMap_spec hlaw hT hdir hpresent hflags hmap
      obtain ⟨owner', hgrows', hwalk'⟩ := ih hgrows.tables hrest
      refine ⟨owner', hgrows.trans hgrows', ?_⟩
      have hwrap : t.toNat + 0x1000 < 2 ^ 64 := by
        have hu := u.isLt
        have ht := BitVec.lt_def.mp hlt
        omega
      intro r hr x
      obtain ⟨hin, hout⟩ := hwalk' r hr x
      have hfirst := hwalk r hr x
      rw [maps_step hlt hwrap]
      by_cases hlater : r = tbl ∧ Maps (t + 0x1000#64) stop x
      · exact ⟨fun _ => hin hlater, fun hnot => absurd ⟨hlater.1, Or.inr hlater.2⟩ hnot⟩
      · rw [hout hlater, hfirst]
        constructor
        · intro ⟨hr', hpage⟩
          have hpage := hpage.resolve_right fun hm => hlater ⟨hr', hm⟩
          rw [if_pos ⟨hr', hpage⟩, frame_of_pageNumber hpage]
        · intro hnot
          exact if_neg fun h => hnot ⟨h.1, Or.inl h.2⟩
    · cases h
      refine ⟨owner, Grows.refl hT, fun r _ x => ⟨fun hm => ?_, fun _ => rfl⟩⟩
      exact absurd hm.2 (not_maps_of_ge hlt x)

/-- A loop of at most `n` iterations ends when there are pages for all the tables it may need. -/
theorem identityMap_progress {tbl stop flags : Word} {n fuel rest : Nat} (hfuel : n < fuel) :
    ∀ {t : Word} {s : Machine σ}, src.Supplies (3 * n + rest) s.pmm →
      stop.toNat ≤ t.toNat + 0x1000 * n → t.toNat + 0x1000 * n < 2 ^ 64 →
      ∃ s', identityMap src tbl stop flags fuel t s = some s' ∧ src.Supplies rest s'.pmm := by
  induction n generalizing fuel with
  | zero =>
    intro t s hpages hstop _
    obtain ⟨fuel, rfl⟩ := Nat.exists_eq_succ_of_ne_zero (Nat.ne_of_gt hfuel)
    have hge : ¬ t < stop := fun hlt => by
      have := BitVec.lt_def.mp hlt
      omega
    refine ⟨s, ?_, ?_⟩
    · unfold identityMap
      rw [if_neg hge]
    · simpa using hpages
  | succ n ih =>
    intro t s hpages hstop hwrap
    obtain ⟨fuel, rfl⟩ := Nat.exists_eq_succ_of_ne_zero (Nat.ne_of_gt (Nat.zero_lt_of_lt hfuel))
    unfold identityMap
    split_ifs with hlt
    · have hsplit : 3 * (n + 1) + rest = 3 * n + rest + 3 := by omega
      rw [hsplit] at hpages
      obtain ⟨s₁, hmap, hpages₁⟩ := pagingMap_progress hpages tbl t t flags
      have hnext : (t + 0x1000#64).toNat = t.toNat + 0x1000 := by bv_omega
      obtain ⟨s', hrest, hpages'⟩ := ih (Nat.lt_of_succ_lt_succ hfuel) hpages₁
        (by rw [hnext]; omega) (by rw [hnext]; omega)
      exact ⟨s', Option.bind_eq_some_iff.mpr ⟨s₁, hmap, hrest⟩, hpages'⟩
    · refine ⟨s, rfl, ?_⟩
      have hsplit : 3 * (n + 1) + rest = rest + 3 * (n + 1) := by omega
      exact (hsplit ▸ hpages).mono

end Loop

/-! ## The two tables -/

section Built

variable {σ : Type} {src : PageSource σ} {taken : σ → Set Word}

/-- The flags of both loops set the present bit and no address bit. -/
theorem normal_flags : Present PAGE_NORMAL ∧ NoAddressBits PAGE_NORMAL := by
  refine ⟨?_, ?_⟩
  · unfold Present
    decide
  · unfold NoAddressBits
    decide

theorem framebuffer_flags :
    Present (PAGE_NORMAL ||| PAGE_CACHE_DISABLED ||| PAGE_WRITE_THROUGH) ∧
      NoAddressBits (PAGE_NORMAL ||| PAGE_CACHE_DISABLED ||| PAGE_WRITE_THROUGH) := by
  refine ⟨?_, ?_⟩
  · unfold Present
    decide
  · unfold NoAddressBits
    decide

/-- A table made of a fresh cleared page by two loops translates what one of the loops maps, and
nothing else. -/
theorem twoLoops_walk (hlaw : src.Lawful taken) {s s₁ s₂ : Machine σ} {tbl : Word} {pmm : σ}
    {mem : Mem} (hget : src.getpage s.pmm s.mem = some (tbl, pmm, mem))
    {start stop start' stop' flags flags' : Word} (hflags : Present flags ∧ NoAddressBits flags)
    (hflags' : Present flags' ∧ NoAddressBits flags')
    (hloop : identityMap src tbl stop flags maxPages start ⟨memset mem tbl 0 0x1000, pmm⟩ = some s₁)
    (hloop' : identityMap src tbl stop' flags' maxPages start' s₁ = some s₂) (x : Word) :
    (Maps start stop x ∨ Maps start' stop' x →
        pageWalk s₂.mem tbl x = some (x &&& 0x000000fffffff000#64)) ∧
      (¬ (Maps start stop x ∨ Maps start' stop' x) → pageWalk s₂.mem tbl x = none) := by
  have hzero : ∀ y, InPage tbl y → memset mem tbl 0 0x1000 y = 0 :=
    fun y hy => memset_page_of_inPage hy 0
  have hused : ({tbl} : Set Word) ⊆ taken pmm := by
    rw [hlaw.taken_next _ _ _ _ _ hget]
    exact Set.singleton_subset_iff.mpr (Set.mem_insert _ _)
  have hT := Tables.of_zero (fun d hd => by
    rw [Set.mem_singleton_iff.mp hd]
    exact (hlaw.frame _ _ _ _ _ hget).1) hused (fun d hd => by
    rw [Set.mem_singleton_iff.mp hd]
    exact hzero)
  obtain ⟨owner₁, hgrows, hwalk⟩ :=
    identityMap_spec hlaw (Set.mem_singleton tbl) hflags.1 hflags.2 hT hloop
  obtain ⟨-, -, hwalk'⟩ :=
    identityMap_spec hlaw (Set.mem_singleton tbl) hflags'.1 hflags'.2 hgrows.tables hloop'
  obtain ⟨hin, hout⟩ := hwalk tbl (Set.mem_singleton tbl) x
  obtain ⟨hin', hout'⟩ := hwalk' tbl (Set.mem_singleton tbl) x
  by_cases hlater : Maps start' stop' x
  · exact ⟨fun _ => hin' ⟨rfl, hlater⟩, fun hnot => absurd (Or.inr hlater) hnot⟩
  · rw [hout' fun h => hlater h.2]
    constructor
    · intro hmaps
      exact hin ⟨rfl, hmaps.resolve_right hlater⟩
    · intro hnot
      rw [hout fun h => hnot (Or.inl h.2)]
      exact pageWalk_of_zero hzero x

/-- An entry keeps the whole address of a page exactly when it fits in 40 bits. -/
theorem frame_eq_iff {x : Word} (haligned : PageAligned x) :
    x &&& 0x000000fffffff000#64 = x ↔ x.toNat < 2 ^ 40 := by
  constructor
  · intro hmask
    have hle : (x &&& 0x000000fffffff000#64).toNat ≤ (0x000000fffffff000#64).toNat := by
      rw [BitVec.toNat_and]
      exact Nat.and_le_right
    rw [hmask] at hle
    exact Nat.lt_of_le_of_lt hle (by decide)
  · exact fun hlt => FrameAddress.mask ⟨haligned, hlt⟩

/-- Such a table translates a page to itself exactly when a loop maps it and its address fits in
40 bits. -/
theorem identity_iff {m : Mem} {tbl x : Word} {P : Prop} (haligned : PageAligned x)
    (hin : P → pageWalk m tbl x = some (x &&& 0x000000fffffff000#64))
    (hout : ¬ P → pageWalk m tbl x = none) :
    pageWalk m tbl x = some x ↔ P ∧ x.toNat < 2 ^ 40 := by
  by_cases hP : P
  · rw [hin hP, Option.some.injEq, frame_eq_iff haligned]
    exact (and_iff_right hP).symm
  · rw [hout hP]
    exact ⟨fun h => absurd h.symm (Option.some_ne_none x), fun h => absurd h.1 hP⟩

theorem pagingInit_identity_iff (hlaw : src.Lawful taken) {memSize fbBase bufSize pml4 x : Word}
    {s s' : Machine σ} (h : pagingInit src memSize fbBase bufSize s = some (pml4, s'))
    (haligned : PageAligned x) :
    pageWalk s'.mem pml4 x = some x ↔
      (Maps 0 memSize x ∨ Maps fbBase (fbBase + (bufSize + 0x1000#64)) x) ∧
        x.toNat < 2 ^ 40 := by
  simp only [pagingInit, Option.bind_eq_bind, Option.bind_eq_some_iff] at h
  obtain ⟨⟨page, pmm, mem⟩, hget, s₁, hloop, s₂, hloop', heq⟩ := h
  cases heq
  obtain ⟨hin, hout⟩ :=
    twoLoops_walk hlaw hget normal_flags framebuffer_flags hloop hloop' x
  exact identity_iff haligned hin hout

theorem createPageTable_identity_iff (hlaw : src.Lawful taken)
    {kernStart kernEnd memSize tbl x : Word} {s s' : Machine σ}
    (h : createPageTable src kernStart kernEnd memSize s = some (tbl, s'))
    (haligned : PageAligned x) :
    pageWalk s'.mem tbl x = some x ↔
      (Maps kernStart (kernEnd + 0x1000#64) x ∨ Maps (kernEnd + 0x1000#64) memSize x) ∧
        x.toNat < 2 ^ 40 := by
  simp only [createPageTable, Option.bind_eq_bind, Option.bind_eq_some_iff] at h
  obtain ⟨⟨page, pmm, mem⟩, hget, s₁, hloop, s₂, hloop', heq⟩ := h
  cases heq
  obtain ⟨hin, hout⟩ := twoLoops_walk hlaw hget normal_flags normal_flags hloop hloop' x
  exact identity_iff haligned hin hout

/-- With pages for all the tables they may need, two loops of at most `n` and `n'` iterations
end. -/
theorem twoLoops_progress {s : Machine σ} {n n' rest : Nat} (hn : n < maxPages)
    (hn' : n' < maxPages) (hpages : src.Supplies (3 * n + (3 * n' + rest) + 1) s.pmm)
    {start stop start' stop' flags flags' : Word} (hstop : stop.toNat ≤ start.toNat + 0x1000 * n)
    (hwrap : start.toNat + 0x1000 * n < 2 ^ 64) (hstop' : stop'.toNat ≤ start'.toNat + 0x1000 * n')
    (hwrap' : start'.toNat + 0x1000 * n' < 2 ^ 64) :
    ∃ tbl pmm mem s₁ s₂, src.getpage s.pmm s.mem = some (tbl, pmm, mem) ∧
      identityMap src tbl stop flags maxPages start ⟨memset mem tbl 0 0x1000, pmm⟩ = some s₁ ∧
      identityMap src tbl stop' flags' maxPages start' s₁ = some s₂ ∧
      src.Supplies rest s₂.pmm := by
  obtain ⟨tbl, pmm, mem, hget, hpages₀⟩ := hpages s.mem
  obtain ⟨s₁, hloop, hpages₁⟩ := @identityMap_progress _ src tbl stop flags _ _ _ hn start
    ⟨memset mem tbl 0 0x1000, pmm⟩ hpages₀ hstop hwrap
  obtain ⟨s₂, hloop', hpages₂⟩ := @identityMap_progress _ src tbl stop' flags' _ _ _ hn' start'
    s₁ hpages₁ hstop' hwrap'
  exact ⟨tbl, pmm, mem, s₁, s₂, hget, hloop, hloop', hpages₂⟩

theorem pagingInit_progress {s : Machine σ} {n n' rest : Nat} (hn : n < maxPages)
    (hn' : n' < maxPages) (hpages : src.Supplies (3 * n + (3 * n' + rest) + 1) s.pmm)
    {memSize fbBase bufSize : Word} (hstop : memSize.toNat ≤ 0x1000 * n)
    (hwrap : 0x1000 * n < 2 ^ 64)
    (hstop' : (fbBase + (bufSize + 0x1000#64)).toNat ≤ fbBase.toNat + 0x1000 * n')
    (hwrap' : fbBase.toNat + 0x1000 * n' < 2 ^ 64) :
    ∃ pml4 s', pagingInit src memSize fbBase bufSize s = some (pml4, s') ∧
      src.Supplies rest s'.pmm := by
  have hzero : (0 : Word).toNat + 0x1000 * n = 0x1000 * n := Nat.zero_add _
  obtain ⟨pml4, pmm, mem, s₁, s₂, hget, hloop, hloop', hrest⟩ := twoLoops_progress hn hn' hpages
    (by rw [hzero]; exact hstop) (by rw [hzero]; exact hwrap) hstop' hwrap'
  refine ⟨pml4, s₂, ?_, hrest⟩
  simp only [pagingInit, Option.bind_eq_bind, Option.bind_eq_some_iff]
  exact ⟨_, hget, s₁, hloop, s₂, hloop', rfl⟩

theorem createPageTable_progress {s : Machine σ} {n n' rest : Nat} (hn : n < maxPages)
    (hn' : n' < maxPages) (hpages : src.Supplies (3 * n + (3 * n' + rest) + 1) s.pmm)
    {kernStart kernEnd memSize : Word}
    (hstop : (kernEnd + 0x1000#64).toNat ≤ kernStart.toNat + 0x1000 * n)
    (hwrap : kernStart.toNat + 0x1000 * n < 2 ^ 64)
    (hstop' : memSize.toNat ≤ (kernEnd + 0x1000#64).toNat + 0x1000 * n')
    (hwrap' : (kernEnd + 0x1000#64).toNat + 0x1000 * n' < 2 ^ 64) :
    ∃ tbl s', createPageTable src kernStart kernEnd memSize s = some (tbl, s') ∧
      src.Supplies rest s'.pmm := by
  obtain ⟨tbl, pmm, mem, s₁, s₂, hget, hloop, hloop', hrest⟩ :=
    twoLoops_progress hn hn' hpages hstop hwrap hstop' hwrap'
  refine ⟨tbl, s₂, ?_, hrest⟩
  simp only [createPageTable, Option.bind_eq_bind, Option.bind_eq_some_iff]
  exact ⟨_, hget, s₁, hloop, s₂, hloop', rfl⟩

end Built

/-! ## The chosen segment -/

/-- The page at `x` lies in the descriptor's range. -/
def Descriptor.Holds (d : Descriptor) (x : Word) : Prop :=
  PageAligned x ∧ d.physAddr.toNat ≤ x.toNat ∧ x.toNat + 0x1000 ≤ d.stop

/-- What `get_mem_size` returns once `pmm_init` has run. -/
def bootMemSize (map : MemoryMap) (kernStart kernEnd : Word) (pmm : Pmm) : Word :=
  getMemSize map.entries (pmmInit kernStart kernEnd map.entries pmm).memorySizeBytes

/-- The segment that `pmm_init` chose is conventional memory, and every page of it is mapped to
itself, in the table of `paging_init` and in a table of `create_page_table`, exactly when its
address fits in 40 bits, it lies in the range up to the memory size or in the framebuffer, and it
lies in the part of that range from the kernel on. -/
theorem segment_identity_mapped_iff {σ : Type} {src : PageSource σ} {taken : σ → Set Word}
    (hlaw : src.Lawful taken) (map : MemoryMap) (kernStart kernEnd fbBase bufSize : Word)
    (pmm : Pmm) (d : Descriptor) (hchosen : chosenDescriptor map.entries pmm = some d)
    {s₀ s₁ s₂ s₃ : Machine σ} {pml4 tbl : Word}
    (hinit : pagingInit src (bootMemSize map kernStart kernEnd pmm) fbBase bufSize s₀ =
      some (pml4, s₁))
    (htable : createPageTable src kernStart kernEnd (bootMemSize map kernStart kernEnd pmm) s₂ =
      some (tbl, s₃)) :
    (d ∈ map.entries ∧ d.type = efiConventionalMemory) ∧
    ((∀ x, d.Holds x → pageWalk s₁.mem pml4 x = some x ∧ pageWalk s₃.mem tbl x = some x) ↔
      ∀ x, d.Holds x → x.toNat < 2 ^ 40 ∧
        (Maps 0 (bootMemSize map kernStart kernEnd pmm) x ∨
          Maps fbBase (fbBase + (bufSize + 0x1000#64)) x) ∧
        (Maps kernStart (kernEnd + 0x1000#64) x ∨
          Maps (kernEnd + 0x1000#64) (bootMemSize map kernStart kernEnd pmm) x)) := by
  obtain ⟨hd, htype, -⟩ := chosenDescriptor_eq_some hchosen
  refine ⟨⟨hd, htype⟩, forall_congr' fun x => imp_congr_right fun hx => ?_⟩
  rw [pagingInit_identity_iff hlaw hinit hx.1, createPageTable_identity_iff hlaw htable hx.1]
  constructor
  · intro ⟨⟨hkernel, hlt⟩, hprocess, _⟩
    exact ⟨hlt, hkernel, hprocess⟩
  · intro ⟨hlt, hkernel, hprocess⟩
    exact ⟨⟨hkernel, hlt⟩, hprocess, hlt⟩

/-- The `n` pages from 256 MiB on. -/
def rangePool (n : Nat) (hn : n ≤ 0x10000) : PagePool where
  pages := (List.range n).map fun i => BitVec.ofNat 64 (0x10000000 + 0x1000 * i)
  nodup := by
    refine List.Nodup.map_on ?_ List.nodup_range
    intro i hi j hj heq
    rw [List.mem_range] at hi hj
    have hval := congrArg BitVec.toNat heq
    rw [BitVec.toNat_ofNat, BitVec.toNat_ofNat] at hval
    omega
  frame := by
    intro p hp
    obtain ⟨i, hi, rfl⟩ := List.mem_map.mp hp
    rw [List.mem_range] at hi
    unfold FrameAddress PageAligned
    rw [BitVec.toNat_ofNat]
    omega

/-- Memory that is all zero, and 1024 pages to build tables from. -/
def roomyMachine : Machine PagePool := ⟨fun _ => 0, rangePool 1024 (by decide)⟩

theorem roomyMachine_supplies : poolSource.Supplies 1024 roomyMachine.pmm := by
  refine poolSource_supplies 1024 _ ?_
  simp [roomyMachine, rangePool]

/-- Two pages for the kernel at 1 MiB and five conventional pages at 4 MiB. -/
def holeMap : MemoryMap where
  entries := [⟨2, 0x100000, 2⟩, ⟨7, 0x400000, 5⟩]
  bounded := by unfold Descriptor.stop; decide
  disjoint := by unfold Descriptor.stop; decide

theorem holeMap_memSize : bootMemSize holeMap 0x100000 0x102000 bootPmm = 0x7000 := by
  decide +kernel

/-- On `holeMap` the first page that `pmm_getpage` returns is not mapped to itself. -/
theorem holeMap_first_page_unmapped :
    chosenDescriptor holeMap.entries bootPmm = some ⟨7, 0x400000, 5⟩ ∧
    (⟨7, 0x400000, 5⟩ : Descriptor).Holds 0x404000 ∧
    ∃ pml4 s, pagingInit poolSource (bootMemSize holeMap 0x100000 0x102000 bootPmm) 0x800000 0
        roomyMachine = some (pml4, s) ∧ pageWalk s.mem pml4 0x404000 ≠ some 0x404000 := by
  have hholds : (⟨7, 0x400000, 5⟩ : Descriptor).Holds 0x404000 := by
    unfold Descriptor.Holds Descriptor.stop PageAligned
    decide
  have hpages : poolSource.Supplies (3 * 7 + (3 * 1 + 999) + 1) roomyMachine.pmm :=
    roomyMachine_supplies
  rw [holeMap_memSize]
  obtain ⟨pml4, s, hinit, -⟩ := @pagingInit_progress _ poolSource _ 7 1 999 (by decide) (by decide)
    hpages 0x7000 0x800000 0 (by decide) (by decide) (by decide) (by decide)
  refine ⟨by decide, hholds, pml4, s, hinit, fun hwalk => ?_⟩
  obtain ⟨hmaps, -⟩ := (pagingInit_identity_iff poolSource_lawful hinit hholds.1).mp hwalk
  rcases hmaps with hmem | hfb
  · exact absurd ((maps_iff (by decide) hholds.1 (by decide) (by decide)).mp hmem) (by decide)
  · exact absurd ((maps_iff (by decide) hholds.1 (by decide) (by decide)).mp hfb) (by decide)

/-- Memory without a hole: 259 pages up to the end of the kernel, then five conventional ones. -/
def solidMap : MemoryMap where
  entries := [⟨2, 0, 0x103⟩, ⟨7, 0x103000, 5⟩]
  bounded := by unfold Descriptor.stop; decide
  disjoint := by unfold Descriptor.stop; decide

theorem solidMap_memSize : bootMemSize solidMap 0x100000 0x102000 bootPmm = 0x108000 := by
  decide +kernel

/-- On `solidMap` both tables are built and map every page of the segment to itself. -/
theorem solidMap_identity_mapped :
    chosenDescriptor solidMap.entries bootPmm = some ⟨7, 0x103000, 5⟩ ∧
    ∃ pml4 s₁ tbl s₂,
      pagingInit poolSource (bootMemSize solidMap 0x100000 0x102000 bootPmm) 0x800000 0
        roomyMachine = some (pml4, s₁) ∧
      createPageTable poolSource 0x100000 0x102000
        (bootMemSize solidMap 0x100000 0x102000 bootPmm) s₁ = some (tbl, s₂) ∧
      ∀ x, (⟨7, 0x103000, 5⟩ : Descriptor).Holds x →
        pageWalk s₁.mem pml4 x = some x ∧ pageWalk s₂.mem tbl x = some x := by
  have hpages : poolSource.Supplies (3 * 264 + (3 * 1 + 228) + 1) roomyMachine.pmm :=
    roomyMachine_supplies
  have hsize := solidMap_memSize
  obtain ⟨pml4, s₁, hinit, hpages₁⟩ := @pagingInit_progress _ poolSource _ 264 1 228 (by decide)
    (by decide) hpages 0x108000 0x800000 0 (by decide) (by decide) (by decide) (by decide)
  obtain ⟨tbl, s₂, htable, -⟩ := @createPageTable_progress _ poolSource _ 3 5 203 (by decide)
    (by decide) hpages₁ 0x100000 0x102000 0x108000 (by decide) (by decide) (by decide) (by decide)
  rw [← hsize] at hinit htable
  refine ⟨by decide, pml4, s₁, tbl, s₂, hinit, htable, ?_⟩
  refine (segment_identity_mapped_iff poolSource_lawful solidMap 0x100000 0x102000 0x800000 0
    bootPmm _ (by decide) hinit htable).2.mpr fun x ⟨haligned, hlow, hhigh⟩ => ?_
  have hlow : 0x103000 ≤ x.toNat := hlow
  have hhigh : x.toNat + 0x1000 ≤ 0x108000 := hhigh
  rw [hsize]
  refine ⟨by omega, Or.inl ?_, Or.inr ?_⟩
  · rw [maps_iff (by decide) haligned (by decide) (by omega)]
    exact ⟨Nat.zero_le _, Nat.lt_of_lt_of_le (by omega) hhigh⟩
  · rw [maps_iff (by decide) haligned (by decide) (by omega)]
    exact ⟨hlow, Nat.lt_of_lt_of_le (by omega) hhigh⟩

end ChronOS.Mm
