/-
  Shmall/HeapUse.lean --- how well the kernel heap uses the region.

  Three facts about runs.  As long as the block at the start of the region is not
  freed, no two holes lie next to each other.  As long as `kmalloc` does not answer
  NULL, what is not a hole is a block that somebody holds.  And whether `kmalloc`
  can answer at all is decided by the last tile: with 4096 bytes left behind the
  request it always succeeds, and below 4096 bytes it never does, whatever holes
  there are elsewhere.
-/
import ChronOS.Shmall.HeapRuns

set_option autoImplicit false

namespace ChronOS.Shmall

open ChronOS.Foundation

variable {g : HeapPages} {s₀ s : HeapState} {calls : List (HeapOp × Word)}

/-! ## Holes next to each other -/

/-- The block that `heap_free` does not join to its neighbour is at the start of the region. -/
theorem released_of_pos {pre post : List Tile} {t : Tile} {b : Nat}
    (htiled : Tiling 32 0 (pre ++ t :: post) b) (hpos : t.off ≠ 0) :
    released pre t post = coalesce 32 pre t post := by
  refine if_neg ?_
  rintro rfl
  exact hpos htiled.1

/-- Until the first block of the region is freed, no two holes are neighbours. -/
theorem holes_not_adjacent (hstart : Started g s₀) (hrun : Run g s₀ calls s)
    (hfirst : ∀ call ∈ calls, call.1 ≠ .kfree (regionAt g 8)) :
    ∃ ts lists, Accounted g s ts lists ∧ Coalesced ts := by
  obtain ⟨hg, lists₀, haccounted⟩ := hstart.accounted
  refine haccounted.run_induction (P := fun _ ts => Coalesced ts) ?_ hg hrun hfirst
    (List.isChain_singleton _)
  intro s s' ts ts' lists lists' op p h _ hstep hnot hts
  cases hstep.step with
  | full => exact hts
  | fit hfit _ => exact hts.bestFit hfit
  | lost hfit _ => exact hts.bestFit hfit
  | store => exact hts
  | @free pre post t hused =>
    have hpos : t.off ≠ 0 := fun hoff =>
      hnot (congrArg (fun k => HeapOp.kfree (regionAt g (k + 8))) hoff)
    rw [released_of_pos h.rep.tiled hpos]
    exact hts.coalesce hused

theorem freshMem_freed : ∃ s, Run heapPoolPages ⟨freshMem, []⟩
    [(.kmalloc 16, 0x101008), (.kmalloc 32, 0x101038), (.kfree 0x101038, 0)] s := by
  obtain ⟨s, s', hfirst, hsecond, -⟩ := freshMem_two_blocks
  cases hfirst with | cons _ hcall hnil =>
  cases hnil
  cases hsecond with | cons _ hcall' hnil =>
  cases hnil
  -- what the calls leave is evaluated from the start
  have hstate : (((HeapOp.kmalloc 16).run heapPoolPages.heap ⟨freshMem, []⟩).bind fun r =>
      ((HeapOp.kmalloc 32).run heapPoolPages.heap r.2).bind fun r =>
        ((HeapOp.kfree 0x101038).run heapPoolPages.heap r.2).map fun r' =>
          (r.2.live, getFoot r.2.mem 0x101030, r'.1)) =
      some ([(0x101038, 32), (0x101008, 16)], 0x101068, 0) := by
    decide +kernel
  rw [hcall, Option.bind_some, hcall', Option.bind_some] at hstate
  obtain ⟨⟨p, s''⟩, hcall'', heq⟩ := Option.map_eq_some_iff.mp hstate
  simp only [Prod.mk.injEq] at heq
  obtain ⟨hlive, hfoot, rfl⟩ := heq
  refine ⟨s'', .cons trivial hcall (.cons trivial hcall' (.cons ⟨?_, fun _ hlast => ?_⟩ hcall''
    (.nil s'')))⟩
  · exact ⟨(0x101038, 32), hlive ▸ List.mem_cons_self, rfl⟩
  · rw [show (0x101038 : Word) - 8 = 0x101030 from rfl, hfoot] at hlast
    cases hlast

/-- The block freed there has been joined to the hole behind it. -/
theorem freed_block_joined : ∃ s ts lists, Run heapPoolPages ⟨freshMem, []⟩
      [(.kmalloc 16, 0x101008), (.kmalloc 32, 0x101038), (.kfree 0x101038, 0)] s ∧
    Accounted heapPoolPages s ts lists ∧ Coalesced ts := by
  obtain ⟨s, hrun⟩ := freshMem_freed
  obtain ⟨ts, lists, h, hts⟩ := holes_not_adjacent freshMem_started hrun (by
    intro call hmem heq
    simp only [List.mem_cons, List.not_mem_nil, or_false] at hmem
    rcases hmem with rfl | rfl | rfl
    · cases heq
    · cases heq
    · exact absurd (HeapOp.kfree.inj heq) (by decide))
  exact ⟨s, ts, lists, hrun, h, hts⟩

/-! ## Lost blocks -/

theorem of_mem_released {pre post : List Tile} {t c : Tile} (hc : c ∈ released pre t post)
    (hused : c.hole = false) : c ∈ pre ++ post := by
  unfold released at hc
  split_ifs at hc with hpre
  · subst hpre
    rcases List.mem_cons.mp hc with rfl | hc
    · cases hused
    · exact hc
  · exact of_mem_coalesce hc hused

theorem live_of_kmalloc {heap p : Word} {size : BitVec 32} {s' : HeapState}
    (hcall : (HeapOp.kmalloc size).run heap s = some (p, s')) (hp : p ≠ 0) :
    s'.live = (p, size.signExtend 64) :: s.live := by
  obtain ⟨r, -, heq⟩ := Option.map_eq_some_iff.mp hcall
  cases heq
  exact if_neg hp

theorem live_of_kfree {heap p ptr : Word} {s' : HeapState}
    (hcall : (HeapOp.kfree ptr).run heap s = some (p, s')) :
    s'.live = s.live.filter fun b => b.1 ≠ ptr := by
  obtain ⟨r, -, heq⟩ := Option.map_eq_some_iff.mp hcall
  obtain ⟨-, rfl⟩ := Prod.mk.inj heq
  rfl

/-- While no `kmalloc` answers NULL, every tile is a hole or holds a block in use. -/
theorem no_block_lost (hstart : Started g s₀) (hrun : Run g s₀ calls s)
    (hnull : ∀ call ∈ calls, ∀ size, call.1 = .kmalloc size → call.2 ≠ 0) :
    ∃ ts lists, Accounted g s ts lists ∧
      ∀ t ∈ ts, t.hole = false → ∃ b ∈ s.live, b.1 = regionAt g (t.off + 8) := by
  obtain ⟨hg, lists₀, haccounted⟩ := hstart.accounted
  refine haccounted.run_induction (P := fun s ts => ∀ t ∈ ts, t.hole = false →
    ∃ b ∈ s.live, b.1 = regionAt g (t.off + 8)) ?_ hg hrun hnull ?_
  · intro s s' ts ts' lists lists' op p h hcall hstep hnot hts
    cases hstep.step with
    | full => exact absurd rfl (hnot _ rfl)
    | lost => exact absurd rfl (hnot _ rfl)
    | store =>
      cases hcall
      exact hts
    | fit hfit _ =>
      intro t ht hused
      rw [live_of_kmalloc hcall (hnot _ rfl)]
      rcases hfit.of_mem_used ht hused with hold | hoff
      · obtain ⟨b, hb, haddr⟩ := hts t hold hused
        exact ⟨b, List.mem_cons_of_mem _ hb, haddr⟩
      · exact ⟨_, List.mem_cons_self, hoff ▸ rfl⟩
    | @free pre post c hcused =>
      intro t ht hused
      have hmem := of_mem_released ht hused
      obtain ⟨hmem', hne⟩ := (h.rep.gap hcused).mem_tiles hmem
      obtain ⟨b, hb, haddr⟩ := hts t hmem' hused
      rw [live_of_kfree hcall]
      refine ⟨b, List.mem_filter.mpr ⟨hb, decide_eq_true fun heq => hne ?_⟩, haddr⟩
      exact tile_unique h.rep.tiled hmem' (by simp) (haddr.symm.trans heq)
  · intro t ht hused
    rw [List.mem_singleton.mp ht] at hused
    cases hused

/-- In that run nothing is lost. -/
theorem freed_block_not_lost : ∃ s ts lists, Run heapPoolPages ⟨freshMem, []⟩
      [(.kmalloc 16, 0x101008), (.kmalloc 32, 0x101038), (.kfree 0x101038, 0)] s ∧
    Accounted heapPoolPages s ts lists ∧ ∀ t ∈ ts, t.hole = false →
      ∃ b ∈ s.live, b.1 = regionAt heapPoolPages (t.off + 8) := by
  obtain ⟨s, hrun⟩ := freshMem_freed
  obtain ⟨ts, lists, h, hts⟩ := no_block_lost freshMem_started hrun (by
    intro call hmem size heq
    simp only [List.mem_cons, List.not_mem_nil, or_false] at hmem
    rcases hmem with rfl | rfl | rfl
    · exact (by decide : (0x101008 : Word) ≠ 0)
    · exact (by decide : (0x101038 : Word) ≠ 0)
    · cases heq)
  exact ⟨s, ts, lists, hrun, h, hts⟩

/-! ## The last tile -/

theorem wilderness_concat (front : List Tile) (w : Tile) : wilderness (front ++ [w]) = w.size := by
  rw [wilderness, List.getLast?_concat]
  rfl

/-- Taking a hole can make the last tile smaller, but by no more than the block and its tags. -/
theorem wilderness_bestFit {n off : Nat} {ts ts' : List Tile} (hfit : BestFit 32 4 n ts off ts') :
    wilderness ts' ≤ wilderness ts ∧ wilderness ts ≤ n + 32 + wilderness ts' := by
  cases hfit with
  | take pre t post _ _ _ =>
    rcases List.eq_nil_or_concat' post with rfl | ⟨post, w, rfl⟩
    · rw [wilderness_concat, List.append_nil]
      unfold Tile.rest Tile.taken
      split_ifs with hcut
      · have hlast := wilderness_concat (pre ++ [⟨t.off, n, false⟩])
          ⟨t.off + n + 32, t.size - n - 32, true⟩
        rw [List.append_assoc, List.singleton_append] at hlast
        rw [hlast]
        dsimp only
        omega
      · rw [wilderness_concat]
        dsimp only
        omega
    · have hold := wilderness_concat (pre ++ t :: post) w
      have hnew := wilderness_concat
        (pre ++ t.taken 32 4 n :: (t.rest 32 4 n ++ post)) w
      simp only [List.append_assoc, List.cons_append] at hold hnew
      rw [hold, hnew]
      omega

/-- `get_wilderness` gives the last tile, with its hole flag and its size. -/
theorem Accounted.wilderness {ts : List Tile} {lists : Nat → List Tile}
    (h : Accounted g s ts lists) :
    ∃ w ∈ ts, (nodeSize s.mem (getWilderness s.mem g.heap)).toNat = w.size ∧
      Shmall.wilderness ts = w.size ∧
      (nodeHole s.mem (getWilderness s.mem g.heap) ≠ 0 → w.hole = true) := by
  rcases List.eq_nil_or_concat' ts with rfl | ⟨front, w, rfl⟩
  · exact absurd (show 0 = HEAP_INIT_SIZE from h.rep.tiled) (by decide)
  · have hmem : w ∈ front ++ [w] := by simp
    have hin := (h.rep.tiled.bounds hmem).2
    unfold Tile.stop HEAP_INIT_SIZE at hin
    rw [h.rep.getWilderness, (h.rep.tags w hmem).size, (h.rep.tags w hmem).hole]
    refine ⟨w, hmem, ?_, wilderness_concat front w, fun hne => ?_⟩
    · rw [BitVec.toNat_ofNat, Nat.mod_eq_of_lt (by omega)]
    · by_contra hhole
      exact hne (if_neg hhole)

/-- After any run `kmalloc` returns.  With 4096 bytes to spare in a hole at the end of the region
it succeeds, and with less than 4096 bytes in the last tile it never does. -/
theorem kmalloc_depends_on_wilderness (hstart : Started g s₀) (hrun : Run g s₀ calls s)
    (size : BitVec 32) : ∃ p s', (HeapOp.kmalloc size).run g.heap s = some (p, s') ∧
      (nodeHole s.mem (getWilderness s.mem g.heap) ≠ 0 → (size.signExtend 64).toNat + 32 + 0x1000 ≤
        (nodeSize s.mem (getWilderness s.mem g.heap)).toNat → p ≠ 0) ∧
      (nodeSize s.mem (getWilderness s.mem g.heap) < MIN_WILDERNESS → p = 0) := by
  obtain ⟨hg, lists₀, haccounted⟩ := hstart.accounted
  obtain ⟨⟨ts, lists, -, h⟩, -⟩ := haccounted.run hg hrun
  obtain ⟨p, s', ts', lists', hcall, hstep⟩ := h.kmalloc hg size
  refine ⟨p, s', hcall, ?_⟩
  obtain ⟨w, hw, hsize, hlast, hhole⟩ := h.wilderness
  rw [BitVec.lt_def, hsize]
  change _ ∧ (w.size < 0x1000 → _)
  cases hstep.step with
  | full hsmall =>
    refine ⟨fun hne hroom => ?_, fun _ => rfl⟩
    have := hsmall w hw (hhole hne)
    omega
  | @fit _ _ _ off hfit hwide =>
    have hle := wilderness_bestFit hfit
    obtain ⟨t, ht, htoff, -, -⟩ := hfit.target
    have hin := (hstep.accounted.rep.tiled.bounds ht).2
    unfold Tile.stop at hin
    exact ⟨fun _ _ => regionAt_ne_zero hg (by omega), fun hlt => by omega⟩
  | lost hfit hnarrow =>
    have hle := wilderness_bestFit hfit
    exact ⟨fun _ hroom => by omega, fun _ => rfl⟩

/-- On the fresh heap a block of sixteen bytes is not refused. -/
theorem fresh_kmalloc_succeeds : ∃ p s', (HeapOp.kmalloc 16).run heapPoolPages.heap
    ⟨freshMem, []⟩ = some (p, s') ∧ p ≠ 0 := by
  obtain ⟨p, s', hcall, hroom, -⟩ :=
    kmalloc_depends_on_wilderness freshMem_started (.nil _) 16
  exact ⟨p, s', hcall, hroom (by decide +kernel) (by decide +kernel)⟩

/-! ## Reallocation -/

/-- On the kernel heap `laihost_realloc` returns, and so no block in use keeps its contents. -/
theorem Run.not_preservesContents (hstart : Started g s₀) (hrun : Run g s₀ calls s)
    {b : Word × Word} (hb : b ∈ s.live) {contents : Nat → Byte}
    (hlegal : (HeapOp.kfree b.1).Legal g (s.fill b.1 b.2 contents)) :
    ¬ PreservesContents g.heap s b.1 b.2 := by
  obtain ⟨hg, lists₀, haccounted⟩ := hstart.accounted
  obtain ⟨⟨ts, lists, -, h⟩, -⟩ := haccounted.run hg hrun
  have hptr : b.1 ≠ 0 := by
    obtain ⟨t, ht, -, haddr, -⟩ := h.live b hb
    have hin := (h.rep.tiled.bounds ht).2
    unfold Tile.stop at hin
    exact haddr ▸ regionAt_ne_zero hg (by omega)
  obtain ⟨p, s₁, ts₁, lists₁, hfree, hstep⟩ :=
    (h.store hg hb contents).accounted.kfree hg hlegal
  obtain ⟨q, s₂, ts₂, lists₂, hmalloc, -⟩ := hstep.accounted.kmalloc hg 0x80000000
  obtain ⟨m₁, hm₁, heq⟩ := Option.map_eq_some_iff.mp hfree
  cases heq
  obtain ⟨r, hr, -⟩ := Option.map_eq_some_iff.mp hmalloc
  have hcall : ∃ r', laihostRealloc g.heap b.1 0x80000000 b.2 (s.fill b.1 b.2 contents) =
      some r' := by
    rw [laihostRealloc, if_pos hptr]
    exact ⟨_, Option.bind_eq_some_iff.mpr ⟨_, Option.map_eq_some_iff.mpr ⟨m₁, hm₁, rfl⟩,
      Option.map_eq_some_iff.mpr ⟨r, hr, rfl⟩⟩⟩
  obtain ⟨⟨p', s'⟩, hcall⟩ := hcall
  exact fun hall => not_kept_of_negative hptr hcall (hall _ _ _ _ hcall)

end ChronOS.Shmall
