/-
  Shmall/HeapRuns.lean --- the kernel heap over whole runs.

  A run starts with `heap_init` and is made of calls of `kmalloc` and `kfree` and of
  stores into blocks.  The kernel frees only blocks it holds and writes only into
  their bytes; beyond that one thing has to be asked for, because `kfree` reads
  behind the region when the last block is freed (`EndClear`).

  In every state of such a run the region is divided into tiles and the bins hold
  the holes (`Represents`), every block in use has a tile of its own, and every call
  returns.
-/
import ChronOS.Shmall.Coalescing
import ChronOS.Shmall.Realloc

set_option autoImplicit false

namespace ChronOS.Shmall

open ChronOS.Foundation ChronOS.Mm

/-! ## Runs -/

/-- The heap that `heap_init` leaves when the words it uses as list heads were zero. -/
inductive Started (g : HeapPages) : HeapState → Prop
  | init {σ : Type} {src : PageSource σ} {taken : σ → Set Word} {frames : Set Word}
      {s s' : Machine σ} : src.Lawful taken → src.Quiet frames → 0 ∈ taken s.pmm →
      heapInit src s = some (g, s') → g.pages = consecutive 0x200 g.region →
      (∀ i, 1 ≤ i → i < BIN_COUNT → s.mem.read64 (listHead g i) = 0) → Started g ⟨s'.mem, []⟩

/-- What the kernel does with the heap. -/
inductive HeapOp where
  | kmalloc (size : BitVec 32)
  | kfree (ptr : Word)
  | store (block : Word × Word) (contents : Nat → Byte)

/-- The answer of a call and the state after it. -/
def HeapOp.run (heap : Word) : HeapOp → HeapState → Option (Word × HeapState)
  | .kmalloc size, s => (Shmall.kmalloc heap size s.mem).map fun r =>
      (r.1, ⟨r.2, if r.1 = 0 then s.live else (r.1, size.signExtend 64) :: s.live⟩)
  | .kfree ptr, s => (Shmall.kfree heap ptr s.mem).map fun m =>
      (0, ⟨m, s.live.filter fun b => b.1 ≠ ptr⟩)
  | .store block contents, s => some (0, s.fill block.1 block.2 contents)

/-- Blocks are freed and written by their holder.  A block that ends with the region is freed when
what follows the region reads as no hole. -/
def HeapOp.Legal (g : HeapPages) (s : HeapState) : HeapOp → Prop
  | .kmalloc _ => True
  | .kfree ptr => (∃ b ∈ s.live, b.1 = ptr) ∧ (ptr - 8 ≠ g.region →
      getFoot s.mem (ptr - 8) + 8 = regionAt g HEAP_INIT_SIZE → EndClear g s.mem)
  | .store block _ => block ∈ s.live

/-- A run of legal operations, with their answers. -/
inductive Run (g : HeapPages) : HeapState → List (HeapOp × Word) → HeapState → Prop
  | nil (s : HeapState) : Run g s [] s
  | cons {s s' s'' : HeapState} {op : HeapOp} {p : Word} {calls : List (HeapOp × Word)} :
      op.Legal g s → op.run g.heap s = some (p, s') → Run g s' calls s'' →
      Run g s ((op, p) :: calls) s''

/-- Every block in use lies in a tile of its own. -/
structure Accounted (g : HeapPages) (s : HeapState) (ts : List Tile) (lists : Nat → List Tile) :
    Prop where
  rep : Represents g s.mem ts lists
  live : ∀ b ∈ s.live, ∃ t ∈ ts, t.hole = false ∧ b.1 = regionAt g (t.off + 8) ∧ b.2.toNat ≤ t.size
  distinct : s.live.Pairwise fun b c => b.1 ≠ c.1

/-- What an operation does to the tiles, and its answer: the allocator without the memory. -/
inductive TileStep (g : HeapPages) : HeapOp → List Tile → Word → List Tile → Prop
  | full {size : BitVec 32} {ts : List Tile} :
      (∀ c ∈ ts, c.hole = true → c.size < (size.signExtend 64).toNat) →
      TileStep g (.kmalloc size) ts 0 ts
  | fit {size : BitVec 32} {ts ts' : List Tile} {off : Nat} :
      BestFit 32 4 (size.signExtend 64).toNat ts off ts' → 0x1000 ≤ wilderness ts' →
      TileStep g (.kmalloc size) ts (regionAt g (off + 8)) ts'
  | lost {size : BitVec 32} {ts ts' : List Tile} {off : Nat} :
      BestFit 32 4 (size.signExtend 64).toNat ts off ts' → wilderness ts' < 0x1000 →
      TileStep g (.kmalloc size) ts 0 ts'
  | free {pre post : List Tile} {t : Tile} : t.hole = false →
      TileStep g (.kfree (regionAt g (t.off + 8))) (pre ++ t :: post) 0 (released pre t post)
  | store {ts : List Tile} {block : Word × Word} {contents : Nat → Byte} :
      TileStep g (.store block contents) ts 0 ts

/-- A run of the allocator of tiles. -/
inductive TileRun (g : HeapPages) : List Tile → List (HeapOp × Word) → List Tile → Prop
  | nil (ts : List Tile) : TileRun g ts [] ts
  | cons {ts ts' ts'' : List Tile} {op : HeapOp} {p : Word} {calls : List (HeapOp × Word)} :
      TileStep g op ts p ts' → TileRun g ts' calls ts'' → TileRun g ts ((op, p) :: calls) ts''

/-- The block that an operation frees or writes. -/
def HeapOp.target : HeapOp → Option Word
  | .kmalloc _ => none
  | .kfree ptr => some ptr
  | .store block _ => some block.1

/-- An operation is one of the tiles, and it keeps every block but the one it is about. -/
structure Stepped (g : HeapPages) (s : HeapState) (ts : List Tile) (op : HeapOp) (p : Word)
    (s' : HeapState) (ts' : List Tile) (lists' : Nat → List Tile) : Prop where
  step : TileStep g op ts p ts'
  accounted : Accounted g s' ts' lists'
  kept : ∀ b ∈ s.live, op.target ≠ some b.1 → b ∈ s'.live ∧
    ∀ i < b.2.toNat, s'.mem (b.1 + BitVec.ofNat 64 i) = s.mem (b.1 + BitVec.ofNat 64 i)

/-! ## The start -/

section Start

variable {g : HeapPages} {m : Mem}

/-- The words of the heap structure after `init_heap`. -/
theorem Prepared.filled_pages (h : Prepared g m) : Pages g (filled g m) := by
  refine ⟨?_, Mem.read64_write64_self _ _ _, fun i hi => h.filled_slot hi⟩
  unfold filled setBounds
  rw [Mem.read64_write64_of_disjoint (by bv_omega) (by bv_omega), Mem.read64_write64_self]

/-- The tile that `heap_init` makes of the region. -/
def regionTile : Tile := ⟨0, HEAP_INIT_SIZE - 32, true⟩

theorem Prepared.filled_represents (h : Prepared g m)
    (hempty : ∀ i, 1 ≤ i → i < BIN_COUNT → m.read64 (listHead g i) = 0) :
    Represents g (filled g m) [regionTile] fun i => if i = 8 then [regionTile] else [] := by
  obtain ⟨hhole, hsize, hnext, hprev, hfoot⟩ := h.filled_region
  have hnode : nodeAt g regionTile = g.region := BitVec.add_zero _
  refine ⟨h.filled_pages, ⟨rfl, rfl⟩, ?_, ?_, ?_, ?_⟩
  · intro t ht
    obtain rfl := List.mem_singleton.mp ht
    exact ⟨⟨hnode ▸ hsize, hnode ▸ hfoot⟩, hnode ▸ hhole⟩
  · intro i hi
    have hhead := h.filled_head hi
    unfold BinList
    change (filled g m).read64 (listHead g i) = _ at hhead
    rw [hhead]
    split_ifs with h8
    · refine DList.cons_iff.mpr ⟨hnode.symm, hnode ▸ h.apart.ne_zero, by simp, DList.nil_iff.mpr ?_⟩
      rw [hnode]
      exact hnext
    · refine DList.nil_iff.mpr ?_
      rcases Nat.eq_zero_or_pos i with rfl | hpos
      · exact (congrArg m.read64 (BitVec.add_zero g.bins)).trans h.first
      · exact hempty i hpos hi
  · intro i hi t
    have hbin : binOf regionTile.size = 8 := by
      unfold regionTile HEAP_INIT_SIZE binOf
      have : 10 ≤ Nat.log 2 (max 4 (0x200000 - 32)) := Nat.le_log_of_pow_le (by decide) (by decide)
      dsimp only
      omega
    split_ifs with h8
    · rw [List.mem_singleton]
      constructor
      · rintro rfl
        exact ⟨⟨List.mem_singleton_self _, rfl⟩, h8 ▸ hbin⟩
      · exact fun ht => List.mem_singleton.mp ht.1.1
    · refine ⟨fun ht => absurd ht List.not_mem_nil, fun ht => absurd ?_ h8⟩
      rw [← ht.2, List.mem_singleton.mp ht.1.1, hbin]
  · intro i hi
    split_ifs
    · exact List.pairwise_singleton _ _
    · exact List.Pairwise.nil

theorem Started.represents {s : HeapState} (h : Started g s) :
    g.Placed ∧ s.live = [] ∧ ∃ lists, Represents g s.mem [regionTile] lists := by
  obtain ⟨hlaw, hquiet, hzero, hinit, hrow, hempty⟩ := h
  obtain ⟨⟨g', s₁⟩, hpages, hrest⟩ := Option.bind_eq_some_iff.mp hinit
  obtain ⟨mem, hmem, heq⟩ := Option.bind_eq_some_iff.mp hrest
  obtain ⟨rfl, rfl⟩ := Prod.mk.inj (Option.some.inj heq)
  have hapart := heapInitPages_apart hlaw hzero hpages hrow
  have hprepared := heapInitPages_prepared hpages hapart
  have hempty' : ∀ i, 1 ≤ i → i < BIN_COUNT → s₁.mem.read64 (listHead g' i) = 0 :=
    fun i hpos hi => (heapInitPages_head hquiet hpages hapart hpos hi).trans (hempty i hpos hi)
  obtain rfl := Option.some.inj
    ((hprepared.initHeap_empty (hempty' 8 (by decide) (by decide))).symm.trans hmem)
  obtain ⟨_, _, _, _, _, _, _, -, hregion, -, -, hbins, -⟩ := heapInitPages_eq_some hpages
  have hlow := (hlaw.frame _ _ _ _ _ hregion).2
  refine ⟨⟨hapart, (hlaw.frame _ _ _ _ _ hbins).1, ?_⟩, rfl, _, hprepared.filled_represents hempty'⟩
  unfold HEAP_INIT_SIZE
  omega

end Start

/-! ## One operation -/

section Step

variable {g : HeapPages} {s : HeapState} {ts : List Tile} {lists : Nat → List Tile}
  {t c : Tile} {b : Word × Word} {m' : Mem} {A : Set Nat}

/-- The bytes of a block are bytes of its tile. -/
theorem block_kept (hin : t.stop 32 ≤ HEAP_INIT_SIZE) (hb : b.1 = regionAt g (t.off + 8))
    (hsize : b.2.toNat ≤ t.size) (hc : ChangesIn g.region A s.mem m')
    (hA : ∀ k ∈ tileBytes t, k ∉ A) :
    ∀ i < b.2.toNat, m' (b.1 + BitVec.ofNat 64 i) = s.mem (b.1 + BitVec.ofNat 64 i) := by
  intro i hi
  unfold HEAP_INIT_SIZE Tile.stop at hin
  refine hc _ ?_
  rw [hb, regionAt_add, regionAt_sub g (by omega)]
  exact hA _ ⟨by omega, by unfold Tile.stop; omega⟩

/-- A tile in use has no byte in common with the holes. -/
theorem used_notMem_freeBytes (htiled : Tiling 32 0 ts HEAP_INIT_SIZE) (ht : t ∈ ts)
    (hused : t.hole = false) {k : Nat} (hk : k ∈ tileBytes t) : k ∉ freeBytes {c | c ∈ ts} := by
  rintro ⟨c, ⟨hc, hhole⟩, hk'⟩
  have hne : c ≠ t := fun heq => absurd hhole (heq ▸ hused ▸ Bool.false_ne_true)
  have := htiled.apart hc ht hne
  have := hk.1
  have := hk.2
  have := hk'.1
  have := hk'.2
  omega

theorem tile_notMem_headBytes (hg : g.Placed) (hin : t.stop 32 ≤ HEAP_INIT_SIZE) {k : Nat}
    (hk : k ∈ tileBytes t) : k ∉ headBytes g := by
  intro hk'
  have := le_of_mem_headBytes hg hk'
  have := hk.2
  omega

theorem tile_unique (htiled : Tiling 32 0 ts HEAP_INIT_SIZE) (ht : t ∈ ts) (hc : c ∈ ts)
    (heq : regionAt g (t.off + 8) = regionAt g (c.off + 8)) : t = c := by
  by_contra hne
  have hapart := htiled.apart ht hc hne
  have htin := (htiled.bounds ht).2
  have hcin := (htiled.bounds hc).2
  have hoff := congrArg (fun a => (a - g.region).toNat) heq
  unfold HEAP_INIT_SIZE Tile.stop at *
  rw [regionAt_sub g (by omega), regionAt_sub g (by omega)] at hoff
  omega

theorem fill_changesIn (hin : t.stop 32 ≤ HEAP_INIT_SIZE) (hb : b.1 = regionAt g (t.off + 8))
    (hsize : b.2.toNat ≤ t.size) (contents : Nat → Byte) :
    ChangesIn g.region (Set.Ico (t.off + 8) (t.off + 24 + t.size)) s.mem
      (s.fill b.1 b.2 contents).mem := by
  intro y hy
  unfold HEAP_INIT_SIZE Tile.stop at hin
  refine if_neg fun hlt => hy ?_
  have hy' := add_offset b.1 y
  rw [hb, regionAt_add] at hy'
  rw [hb] at hlt
  rw [← hy', regionAt_sub g (by omega)]
  exact ⟨by omega, by omega⟩

/-- `kmalloc` returns, whatever it is asked for. -/
theorem Accounted.kmalloc (hg : g.Placed) (h : Accounted g s ts lists) (size : BitVec 32) :
    ∃ p s' ts' lists', (HeapOp.kmalloc size).run g.heap s = some (p, s') ∧
      Stepped g s ts (.kmalloc size) p s' ts' lists' := by
  rcases heapAlloc_spec hg h.rep (size.signExtend 64) with
    ⟨halloc, hsmall⟩ | ⟨off, ts', m', lists', hfit, halloc, hrep, hc⟩
  · refine ⟨0, s, ts, lists, ?_, .full hsmall, h, fun b hb _ => ⟨hb, fun i hi => rfl⟩⟩
    rw [HeapOp.run, Shmall.kmalloc, halloc]
    rfl
  have hkept : ∀ b ∈ s.live, ∀ i < b.2.toNat,
      m' (b.1 + BitVec.ofNat 64 i) = s.mem (b.1 + BitVec.ofNat 64 i) := by
    intro b hb
    obtain ⟨t, ht, hused, haddr, hsize⟩ := h.live b hb
    have hin := (h.rep.tiled.bounds ht).2
    refine block_kept hin haddr hsize hc fun k hk hk' => ?_
    exact hk'.elim (used_notMem_freeBytes h.rep.tiled ht hused hk) (tile_notMem_headBytes hg hin hk)
  have hlive : ∀ b ∈ s.live, ∃ t ∈ ts', t.hole = false ∧ b.1 = regionAt g (t.off + 8) ∧
      b.2.toNat ≤ t.size := by
    intro b hb
    obtain ⟨t, ht, hused, hrest⟩ := h.live b hb
    exact ⟨t, hfit.mem_used ht hused, hused, hrest⟩
  by_cases hw : wilderness ts' < 0x1000
  · rw [if_pos hw] at halloc
    refine ⟨0, ⟨m', s.live⟩, ts', lists', ?_, .lost hfit hw, ⟨hrep, hlive, h.distinct⟩,
      fun b hb _ => ⟨hb, hkept b hb⟩⟩
    rw [HeapOp.run, Shmall.kmalloc, halloc]
    rfl
  rw [if_neg hw] at halloc
  obtain ⟨t, ht, htoff, hused, hsize⟩ := hfit.target
  have hin := (hrep.tiled.bounds ht).2
  have hne : regionAt g (off + 8) ≠ 0 := by
    unfold Tile.stop at hin
    exact regionAt_ne_zero hg (by omega)
  refine ⟨_, ⟨m', (regionAt g (off + 8), size.signExtend 64) :: s.live⟩, ts', lists', ?_,
    .fit hfit (Nat.not_lt.mp hw), ⟨hrep, ?_, ?_⟩,
    fun b hb _ => ⟨List.mem_cons_of_mem _ hb, hkept b hb⟩⟩
  · rw [HeapOp.run, Shmall.kmalloc, halloc, Option.map_some, if_neg hne]
  · exact List.forall_mem_cons.mpr ⟨⟨t, ht, hused, htoff ▸ rfl, hsize⟩, hlive⟩
  · refine List.pairwise_cons.mpr ⟨fun b hb heq => ?_, h.distinct⟩
    obtain ⟨c, hc', hcoff, hhole⟩ := hfit.source
    obtain ⟨d, hd, hdused, haddr, -⟩ := h.live b hb
    have hsame : regionAt g (c.off + 8) = regionAt g (d.off + 8) := by
      rw [hcoff, ← haddr]
      exact heq
    have hcd := tile_unique h.rep.tiled hc' hd hsame
    rw [← hcd, hhole] at hdused
    cases hdused

theorem mem_released {pre post : List Tile} (hc : c ∈ pre ++ post) (hused : c.hole = false) :
    c ∈ released pre t post := by
  unfold released
  split_ifs with hpre
  · subst hpre
    exact List.mem_cons_of_mem _ hc
  · exact mem_coalesce hc hused

/-- `kfree` of a block returns. -/
theorem Accounted.kfree (hg : g.Placed) (h : Accounted g s ts lists) {ptr : Word}
    (hlegal : (HeapOp.kfree ptr).Legal g s) :
    ∃ p s' ts' lists', (HeapOp.kfree ptr).run g.heap s = some (p, s') ∧
      Stepped g s ts (.kfree ptr) p s' ts' lists' := by
  obtain ⟨⟨b, hb, rfl⟩, hend⟩ := hlegal
  obtain ⟨t, ht, hused, haddr, -⟩ := h.live b hb
  obtain ⟨pre, post, rfl⟩ := List.append_of_mem ht
  have hin := (h.rep.tiled.bounds ht).2
  have hhead : b.1 - 8 = nodeAt g t := by
    rw [haddr, ← regionAt_add]
    exact BitVec.add_sub_cancel ..
  have hclear : pre ≠ [] → post = [] → EndClear g s.mem := by
    rintro hpre rfl
    obtain ⟨k, hfront, rfl, hstop⟩ := Tiling.append_iff.mp h.rep.tiled
    have hoff : 0 < t.off := by
      obtain ⟨c, pre, rfl⟩ := List.exists_cons_of_ne_nil hpre
      have := (hfront.bounds (t := c) (by simp)).2
      unfold Tile.stop at this
      omega
    rw [hhead] at hend
    refine hend ?_ ?_
    · unfold HEAP_INIT_SIZE Tile.stop at hin
      unfold nodeAt regionAt
      bv_omega
    · rw [getFoot_eq (h.rep.tags t ht).size hin, footAt]
      refine (regionAt_add g _ 8).trans (congrArg (regionAt g) ?_)
      have : t.off + t.size + 32 = HEAP_INIT_SIZE := hstop
      omega
  obtain ⟨m', lists', hfree, hrep, hc⟩ := heapFree_spec hg h.rep hused hclear
  -- the other blocks are in other tiles
  have hother : ∀ c ∈ s.live, c.1 ≠ b.1 → ∃ d ∈ pre ++ post, d.hole = false ∧
      c.1 = regionAt g (d.off + 8) ∧ c.2.toNat ≤ d.size := by
    intro c hc hne
    obtain ⟨d, hd, hdused, hdaddr, hdsize⟩ := h.live c hc
    have hdt : d ≠ t := by
      rintro rfl
      exact hne (hdaddr.trans haddr.symm)
    refine ⟨d, ?_, hdused, hdaddr, hdsize⟩
    rcases List.mem_append.mp hd with hd | hd
    · exact List.mem_append_left _ hd
    · exact List.mem_append_right _ ((List.mem_cons.mp hd).resolve_left hdt)
  have hfilter : ∀ c ∈ s.live.filter (fun c => c.1 ≠ b.1), c ∈ s.live ∧ c.1 ≠ b.1 :=
    fun c hc => ⟨List.mem_of_mem_filter hc, of_decide_eq_true (List.mem_filter.mp hc).2⟩
  refine ⟨0, ⟨m', s.live.filter fun c => c.1 ≠ b.1⟩, _, lists', ?_, haddr ▸ .free hused,
    ⟨hrep, fun c hc => ?_, h.distinct.filter _⟩, fun c hmem hne => ⟨?_, ?_⟩⟩
  · rw [HeapOp.run, Shmall.kfree, haddr, hfree]
    rfl
  · obtain ⟨d, hd, hdused, hrest⟩ := hother c (hfilter c hc).1 (hfilter c hc).2
    exact ⟨d, mem_released hd hdused, hdused, hrest⟩
  · exact List.mem_filter.mpr ⟨hmem, decide_eq_true fun heq => hne (congrArg some heq.symm)⟩
  · obtain ⟨d, hd, hdused, hdaddr, hdsize⟩ := hother c hmem fun heq => hne (congrArg some heq.symm)
    obtain ⟨hdmem, hdt⟩ := (h.rep.gap hused).mem_tiles hd
    have hdin := (h.rep.tiled.bounds hdmem).2
    refine block_kept hdin hdaddr hdsize hc fun k hk hk' => ?_
    rcases hk' with (⟨e, ⟨he, hehole⟩, hk'⟩ | hk') | hk'
    · exact used_notMem_freeBytes h.rep.tiled hdmem hdused hk
        ⟨e, ⟨((h.rep.gap hused).mem_tiles he).1, hehole⟩, hk'⟩
    · have := h.rep.tiled.apart hdmem ht hdt
      have := hk.1
      have := hk.2
      have := hk'.1
      have := hk'.2
      omega
    · exact tile_notMem_headBytes hg hdin hk hk'

/-- A store into a block keeps the others. -/
theorem Accounted.store (hg : g.Placed) (h : Accounted g s ts lists) (hb : b ∈ s.live)
    (contents : Nat → Byte) :
    Stepped g s ts (.store b contents) 0 (s.fill b.1 b.2 contents) ts lists := by
  obtain ⟨t, ht, hused, haddr, hsize⟩ := h.live b hb
  have hin := (h.rep.tiled.bounds ht).2
  have hc : ChangesIn g.region _ s.mem (s.fill b.1 b.2 contents).mem :=
    fill_changesIn hin haddr hsize contents
  refine ⟨.store, ⟨h.rep.of_payload hg ht hused hc, h.live, h.distinct⟩,
    fun c hmem hne => ⟨hmem, ?_⟩⟩
  obtain ⟨d, hd, hdused, hdaddr, hdsize⟩ := h.live c hmem
  have hdt : d ≠ t := by
    rintro rfl
    exact hne (congrArg some (haddr.trans hdaddr.symm))
  refine block_kept (h.rep.tiled.bounds hd).2 hdaddr hdsize hc fun k hk hk' => ?_
  have := h.rep.tiled.apart hd ht hdt
  have := hk.1
  have := hk.2
  have := hk'.1
  have := hk'.2
  unfold Tile.stop at *
  omega

/-- Every legal operation returns, does what the allocator of tiles does, and keeps the other
blocks. -/
theorem Accounted.step (hg : g.Placed) (h : Accounted g s ts lists) {op : HeapOp}
    (hlegal : op.Legal g s) :
    ∃ p s' ts' lists', op.run g.heap s = some (p, s') ∧ Stepped g s ts op p s' ts' lists' := by
  cases op with
  | kmalloc size => exact h.kmalloc hg size
  | kfree ptr => exact h.kfree hg hlegal
  | store block contents => exact ⟨0, _, ts, lists, rfl, h.store hg hlegal contents⟩

end Step

/-! ## Whole runs -/

section Runs

variable {g : HeapPages} {s s' : HeapState} {ts : List Tile} {lists : Nat → List Tile}
  {calls : List (HeapOp × Word)}

/-- What one operation preserves, a run preserves. -/
theorem Accounted.run (hg : g.Placed) (h : Accounted g s ts lists) (hrun : Run g s calls s') :
    (∃ ts' lists', TileRun g ts calls ts' ∧ Accounted g s' ts' lists') ∧
      ∀ b ∈ s.live, (∀ call ∈ calls, call.1.target ≠ some b.1) → b ∈ s'.live ∧
        ∀ i < b.2.toNat, s'.mem (b.1 + BitVec.ofNat 64 i) = s.mem (b.1 + BitVec.ofNat 64 i) := by
  induction hrun generalizing ts lists with
  | nil s => exact ⟨⟨ts, lists, .nil ts, h⟩, fun b hb _ => ⟨hb, fun i hi => rfl⟩⟩
  | cons hlegal hcall hrest ih =>
    obtain ⟨p, s₁, ts₁, lists₁, hcall₁, hstep⟩ := h.step hg hlegal
    obtain ⟨rfl, rfl⟩ := Prod.mk.inj (Option.some.inj (hcall₁.symm.trans hcall))
    obtain ⟨⟨ts', lists', htiles, haccounted⟩, hkept⟩ := ih hstep.accounted
    refine ⟨⟨ts', lists', .cons hstep.step htiles, haccounted⟩, fun b hb hnot => ?_⟩
    obtain ⟨hb₁, hbytes₁⟩ := hstep.kept b hb (hnot _ List.mem_cons_self)
    obtain ⟨hb', hbytes'⟩ := hkept b hb₁ fun call hmem => hnot call (List.mem_cons_of_mem _ hmem)
    exact ⟨hb', fun i hi => (hbytes' i hi).trans (hbytes₁ i hi)⟩

theorem Started.accounted {s₀ : HeapState} (h : Started g s₀) :
    g.Placed ∧ ∃ lists, Accounted g s₀ [regionTile] lists := by
  obtain ⟨hg, hlive, lists, hrep⟩ := h.represents
  exact ⟨hg, lists, hrep, fun b hb => absurd (hlive ▸ hb) List.not_mem_nil,
    hlive ▸ List.Pairwise.nil⟩

/-- A property of the blocks and the tiles holds after a run of calls that all keep it. -/
theorem Accounted.run_induction {P : HeapState → List Tile → Prop} {Q : HeapOp × Word → Prop}
    (hkeeps : ∀ {s s' ts ts' lists lists' op p}, Accounted g s ts lists →
      op.run g.heap s = some (p, s') → Stepped g s ts op p s' ts' lists' → Q (op, p) → P s ts →
      P s' ts')
    (hg : g.Placed) (h : Accounted g s ts lists) (hrun : Run g s calls s')
    (hQ : ∀ call ∈ calls, Q call) (hP : P s ts) :
    ∃ ts' lists', Accounted g s' ts' lists' ∧ P s' ts' := by
  induction hrun generalizing ts lists with
  | nil s => exact ⟨ts, lists, h, hP⟩
  | cons hlegal hcall hrest ih =>
    obtain ⟨p, s₁, ts₁, lists₁, hcall₁, hstep⟩ := h.step hg hlegal
    obtain ⟨rfl, rfl⟩ := Prod.mk.inj (Option.some.inj (hcall₁.symm.trans hcall))
    exact ih hstep.accounted (fun call hmem => hQ call (List.mem_cons_of_mem _ hmem))
      (hkeeps h hcall hstep (hQ _ List.mem_cons_self) hP)

/-- The heap in a memory of zeros. -/
theorem freshMem_started : Started heapPoolPages ⟨freshMem, []⟩ := by
  obtain ⟨pool', hinit⟩ := heapInit_freshMem
  exact .init (s := ⟨fun _ => 0, heapPool⟩) poolSource_lawful poolSource_quiet zero_taken_heapPool
    hinit heapPoolPages_pages fun i _ _ => Mem.read64_eq_zero fun _ _ => rfl

theorem freshMem_two_blocks :
    ∃ s s', Run heapPoolPages ⟨freshMem, []⟩ [(.kmalloc 16, 0x101008)] s ∧
      Run heapPoolPages s [(.kmalloc 32, 0x101038)] s' ∧ (0x101008, 16) ∈ s.live := by
  have hfirst : ((HeapOp.kmalloc 16).run heapPoolPages.heap ⟨freshMem, []⟩).map
      (fun r => (r.1, r.2.live)) = some (0x101008, [(0x101008, 16)]) := by
    decide +kernel
  have hsecond : (((HeapOp.kmalloc 16).run heapPoolPages.heap ⟨freshMem, []⟩).bind fun r =>
      ((HeapOp.kmalloc 32).run heapPoolPages.heap r.2).map Prod.fst) = some 0x101038 := by
    decide +kernel
  obtain ⟨⟨p, s⟩, hcall, heq⟩ := Option.map_eq_some_iff.mp hfirst
  obtain ⟨rfl, hlive⟩ := Prod.mk.inj heq
  rw [hcall, Option.bind_some] at hsecond
  obtain ⟨⟨q, s'⟩, hcall', rfl⟩ := Option.map_eq_some_iff.mp hsecond
  refine ⟨s, s', .cons trivial hcall (.nil s), .cons trivial hcall' (.nil s'), ?_⟩
  rw [show s.live = [(0x101008, 16)] from hlive]
  exact List.mem_cons_self

/-- The kernel heap implements the allocator of tiles: after any run, the answers are those of
the allocator that starts with the region as one hole, the memory holds its tiles with all holes
in their bins, every block in use has a tile of its own, and the next call returns. -/
theorem kernel_heap_refines_tiles {s₀ : HeapState} (hstart : Started g s₀)
    (hrun : Run g s₀ calls s) :
    ∃ ts lists, TileRun g [regionTile] calls ts ∧ Accounted g s ts lists ∧
      ∀ op : HeapOp, op.Legal g s → ∃ p s', op.run g.heap s = some (p, s') := by
  obtain ⟨hg, lists₀, haccounted⟩ := hstart.accounted
  obtain ⟨⟨ts, lists, htiles, h⟩, -⟩ := haccounted.run hg hrun
  refine ⟨ts, lists, htiles, h, fun op hlegal => ?_⟩
  obtain ⟨p, s', -, -, hcall, -⟩ := h.step hg hlegal
  exact ⟨p, s', hcall⟩

/-- A run of one call. -/
theorem one_call_refines_tiles :
    ∃ s ts lists, Run heapPoolPages ⟨freshMem, []⟩ [(.kmalloc 16, 0x101008)] s ∧
      TileRun heapPoolPages [regionTile] [(.kmalloc 16, 0x101008)] ts ∧
      Accounted heapPoolPages s ts lists := by
  obtain ⟨s, -, hrun, -, -⟩ := freshMem_two_blocks
  obtain ⟨ts, lists, htiles, h, -⟩ := kernel_heap_refines_tiles freshMem_started hrun
  exact ⟨s, ts, lists, hrun, htiles, h⟩

/-- Blocks in use are in tiles of their own. -/
theorem Accounted.apart (h : Accounted g s ts lists) {b c : Word × Word} (hb : b ∈ s.live)
    (hc : c ∈ s.live) (hne : b ≠ c) {i j : Nat} (hi : i < b.2.toNat) (hj : j < c.2.toNat) :
    b.1 + BitVec.ofNat 64 i ≠ c.1 + BitVec.ofNat 64 j := by
  obtain ⟨t, ht, -, htaddr, htsize⟩ := h.live b hb
  obtain ⟨d, hd, -, hdaddr, hdsize⟩ := h.live c hc
  have : Std.Symm fun b c : Word × Word => b.1 ≠ c.1 := ⟨fun _ _ => Ne.symm⟩
  have haddr : b.1 ≠ c.1 := h.distinct.forall hb hc hne
  have htd : t ≠ d := by
    rintro rfl
    exact haddr (htaddr.trans hdaddr.symm)
  have hapart := h.rep.tiled.apart ht hd htd
  have htin := (h.rep.tiled.bounds ht).2
  have hdin := (h.rep.tiled.bounds hd).2
  intro heq
  rw [htaddr, hdaddr, regionAt_add, regionAt_add] at heq
  have hoff := congrArg (fun a => (a - g.region).toNat) heq
  unfold HEAP_INIT_SIZE Tile.stop at *
  rw [regionAt_sub g (by omega), regionAt_sub g (by omega)] at hoff
  omega

/-- A block keeps its contents through any number of calls and stores that are not about it; it
lies in the region and has no byte in common with another block. -/
theorem live_block_kept {s₀ : HeapState} {calls' : List (HeapOp × Word)} {b : Word × Word}
    (hstart : Started g s₀) (hrun : Run g s₀ calls s) (hrun' : Run g s calls' s')
    (hb : b ∈ s.live) (hnot : ∀ call ∈ calls', call.1.target ≠ some b.1) :
    b ∈ s'.live ∧
      (∀ i < b.2.toNat, s'.mem (b.1 + BitVec.ofNat 64 i) = s.mem (b.1 + BitVec.ofNat 64 i)) ∧
      (∀ i < b.2.toNat, (b.1 + BitVec.ofNat 64 i - g.region).toNat < HEAP_INIT_SIZE) ∧
      ∀ c ∈ s'.live, b ≠ c → ∀ i < b.2.toNat, ∀ j < c.2.toNat,
        b.1 + BitVec.ofNat 64 i ≠ c.1 + BitVec.ofNat 64 j := by
  obtain ⟨hg, lists₀, haccounted⟩ := hstart.accounted
  obtain ⟨⟨ts, lists, -, h⟩, -⟩ := haccounted.run hg hrun
  obtain ⟨⟨ts', lists', -, h'⟩, hkept⟩ := h.run hg hrun'
  obtain ⟨hb', hbytes⟩ := hkept b hb hnot
  refine ⟨hb', hbytes, fun i hi => ?_, fun c hc hne i hi j hj => h'.apart hb' hc hne hi hj⟩
  obtain ⟨t, ht, -, haddr, hsize⟩ := h.live b hb
  have hin := (h.rep.tiled.bounds ht).2
  unfold HEAP_INIT_SIZE Tile.stop at hin
  rw [haddr, regionAt_add, regionAt_sub g (by omega)]
  unfold HEAP_INIT_SIZE
  omega

/-- The block of sixteen bytes while another one is allocated. -/
theorem sixteen_bytes_kept :
    ∃ s s', Run heapPoolPages ⟨freshMem, []⟩ [(.kmalloc 16, 0x101008)] s ∧
      Run heapPoolPages s [(.kmalloc 32, 0x101038)] s' ∧ (0x101008, 16) ∈ s'.live := by
  obtain ⟨s, s', hrun, hrun', hlive⟩ := freshMem_two_blocks
  refine ⟨s, s', hrun, hrun', (live_block_kept freshMem_started hrun hrun' hlive ?_).1⟩
  intro call hcall
  rw [List.mem_singleton.mp hcall]
  exact (Option.some_ne_none _).symm

end Runs

end ChronOS.Shmall
