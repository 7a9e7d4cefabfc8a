/-
  Mm/PagingTables.lean --- page tables are a forest of radix trees.

  `Tables` is the invariant of every directory the kernel builds: the tables
  form a radix forest of depth four, every table is a page the allocator has
  given away, and an entry that is not present is zero.  `Grows` is what any
  call of the paging code may do to it, and `pagingMap_spec` and
  `pagingUnmap_spec` are the specifications the rest of the development cites.
-/
import ChronOS.Mm.Paging

set_option autoImplicit false

namespace ChronOS.Mm

open ChronOS.Foundation

/-- What `__paging_map` relies on when it calls `pmm_getpage`: the page is a
frame address, it was never handed out before, and the call does not write into
pages that are in use.  `taken` is the set of pages in use. -/
structure PageSource.Lawful {σ : Type} (src : PageSource σ) (taken : σ → Set Word) :
    Prop where
  frame : ∀ a m p a' m', src.getpage a m = some (p, a', m') → FrameAddress p
  fresh : ∀ a m p a' m', src.getpage a m = some (p, a', m') → p ∉ taken a
  taken_next : ∀ a m p a' m', src.getpage a m = some (p, a', m') →
    taken a' = insert p (taken a)
  untouched : ∀ a m p a' m', src.getpage a m = some (p, a', m') →
    ∀ q ∈ taken a, PageAligned q → ∀ x, InPage q x → m' x = m x

/-- A finite stock of pages to hand out. -/
structure PagePool where
  pages : List Word
  nodup : pages.Nodup
  frame : ∀ p ∈ pages, FrameAddress p

/-- `pmm_getpage` served from a stock of pages, in order. -/
def poolSource : PageSource PagePool where
  getpage pool m :=
    match pool with
    | ⟨[], _, _⟩ => none
    | ⟨p :: rest, hnodup, hframe⟩ =>
        some (p, ⟨rest, (List.nodup_cons.mp hnodup).2,
          fun q hq => hframe q (List.mem_cons_of_mem p hq)⟩, m)

/-- Every page that is not in the stock is in use. -/
def PagePool.taken (pool : PagePool) : Set Word := { p | p ∉ pool.pages }

theorem poolSource_getpage {pool pool' : PagePool} {m m' : Mem} {p : Word}
    (h : poolSource.getpage pool m = some (p, pool', m')) :
    pool.pages = p :: pool'.pages ∧ m' = m := by
  obtain ⟨pages, hnodup, hframe⟩ := pool
  cases pages with
  | nil => simp [poolSource] at h
  | cons q rest =>
      simp only [poolSource, Option.some.injEq, Prod.mk.injEq] at h
      obtain ⟨rfl, rfl, rfl⟩ := h
      exact ⟨rfl, rfl⟩

theorem poolSource_lawful : poolSource.Lawful PagePool.taken := by
  constructor
  · intro pool m p pool' m' h
    apply pool.frame
    rw [(poolSource_getpage h).1]
    exact List.mem_cons_self
  · intro pool m p pool' m' h hmem
    apply hmem
    rw [(poolSource_getpage h).1]
    exact List.mem_cons_self
  · intro pool m p pool' m' h
    have hpages := (poolSource_getpage h).1
    have hnodup := pool.nodup
    rw [hpages, List.nodup_cons] at hnodup
    ext q
    simp only [PagePool.taken, hpages, Set.mem_ofPred_eq, Set.mem_insert_iff, List.mem_cons,
      not_or]
    by_cases hq : q = p
    · simp [hq, hnodup.1]
    · simp [hq]
  · intro pool m p pool' m' h q _ _ x _
    rw [(poolSource_getpage h).2]

/-- Where each table in use is linked: its directory and the indices leading to it. -/
abbrev Owner : Type := Word → Option (Word × List (BitVec 9))

/-- The page tables of the directories `dirs`. -/
structure Tables (dirs : Set Word) (m : Mem) (used : Set Word) (owner : Owner) : Prop where
  forest : Radix.Forest 4 dirs (child m) owner
  aligned : ∀ t, owner t ≠ none → PageAligned t
  inUse : ∀ t, owner t ≠ none → t ∈ used
  cleared : ∀ t, owner t ≠ none → ∀ i, child m t i = none →
    m.read64 (slot t (i.setWidth 64)) = 0

/-! ## Entries of one page -/

theorem inPage_slot (t : Word) (i : BitVec 9) {k : Nat} (hk : k < 8) :
    InPage t (slot t (i.setWidth 64) + BitVec.ofNat 64 k) := by
  unfold InPage slot
  have hi := i.isLt
  bv_omega

theorem slot_disjoint {t u : Word} {i j : BitVec 9} (ht : PageAligned t)
    (hu : PageAligned u) (h : t ≠ u ∨ i ≠ j) :
    8 ≤ (slot t (i.setWidth 64) - slot u (j.setWidth 64)).toNat := by
  unfold PageAligned slot at *
  have hi := i.isLt
  have hj := j.isLt
  bv_omega

theorem read64_slot_congr {m m' : Mem} {t : Word} (i : BitVec 9)
    (h : ∀ x, InPage t x → m' x = m x) :
    m'.read64 (slot t (i.setWidth 64)) = m.read64 (slot t (i.setWidth 64)) :=
  Mem.read64_congr fun _ hk => h _ (inPage_slot t i hk)

theorem child_congr {m m' : Mem} {t : Word} (i : BitVec 9)
    (h : m'.read64 (slot t (i.setWidth 64)) = m.read64 (slot t (i.setWidth 64))) :
    child m' t i = child m t i := by
  unfold child entryTarget
  rw [h]

/-- A word stored in a slot of `t` stays inside the page `t`. -/
theorem write64_slot_of_not_inPage {m : Mem} {t x v : Word} (i : BitVec 9)
    (h : ¬ InPage t x) : m.write64 (slot t (i.setWidth 64)) v x = m x := by
  apply Mem.write64_of_ge
  unfold InPage slot at *
  have hi := i.isLt
  bv_omega

theorem child_write64_self (m : Mem) (t : Word) (i : BitVec 9) (v : Word) :
    child (m.write64 (slot t (i.setWidth 64)) v) t i =
      if Present v then some (pdeGetaddress v) else none := by
  unfold child entryTarget
  rw [Mem.read64_write64_self]

theorem read64_write64_slot_of_ne {m : Mem} {t u v : Word} {i j : BitVec 9}
    (ht : PageAligned t) (hu : PageAligned u) (h : u ≠ t ∨ j ≠ i) :
    (m.write64 (slot t (i.setWidth 64)) v).read64 (slot u (j.setWidth 64)) =
      m.read64 (slot u (j.setWidth 64)) := by
  have hsym : t ≠ u ∨ i ≠ j := h.imp Ne.symm Ne.symm
  exact Mem.read64_write64_of_disjoint (slot_disjoint ht hu hsym) (slot_disjoint hu ht h)

theorem read64_slot_of_zero {m : Mem} {t : Word} (i : BitVec 9)
    (h : ∀ x, InPage t x → m x = 0) : m.read64 (slot t (i.setWidth 64)) = 0 :=
  Mem.read64_eq_zero fun _ hk => h _ (inPage_slot t i hk)

theorem child_of_zero {m : Mem} {t : Word} {i : BitVec 9}
    (h : m.read64 (slot t (i.setWidth 64)) = 0) : child m t i = none := by
  unfold child entryTarget
  rw [h]
  exact if_neg not_present_zero

open Classical in
/-- Directories whose page is all zero translate nothing and are well formed. -/
theorem Tables.of_zero {dirs used : Set Word} {m : Mem}
    (haligned : ∀ d ∈ dirs, PageAligned d) (hused : dirs ⊆ used)
    (hzero : ∀ d ∈ dirs, ∀ x, InPage d x → m x = 0) :
    Tables dirs m used (fun n => if n ∈ dirs then some (n, []) else none) := by
  have hdir : ∀ t, (if t ∈ dirs then some (t, ([] : List (BitVec 9))) else none) ≠ none →
      t ∈ dirs := by
    intro t ht
    by_contra hnot
    exact ht (if_neg hnot)
  constructor
  · apply Radix.Forest.of_empty (by decide)
    intro d hd i
    exact child_of_zero (read64_slot_of_zero i (hzero d hd))
  · exact fun t ht => haligned t (hdir t ht)
  · exact fun t ht => hused (hdir t ht)
  · intro t ht i _
    exact read64_slot_of_zero i (hzero t (hdir t ht))

/-- A directory whose page is all zero translates nothing. -/
theorem pageWalk_of_zero {m : Mem} {dir : Word} (h : ∀ x, InPage dir x → m x = 0)
    (virtual : Word) : pageWalk m dir virtual = none := by
  rw [pageWalk_eq_walk]
  apply Radix.Forest.walk_eq_none_of_empty
  · intro i
    exact child_of_zero (read64_slot_of_zero i h)
  · simp [path]

/-- Writes outside the tables change neither the tables nor a translation. -/
theorem Tables.congr {dirs used : Set Word} {m m' : Mem} {owner : Owner}
    (hT : Tables dirs m used owner)
    (hsame : ∀ t, owner t ≠ none → ∀ x, InPage t x → m' x = m x) :
    Tables dirs m' used owner ∧ ∀ r ∈ dirs, ∀ v, pageWalk m' r v = pageWalk m r v := by
  have hword : ∀ t, owner t ≠ none → ∀ i : BitVec 9,
      m'.read64 (slot t (i.setWidth 64)) = m.read64 (slot t (i.setWidth 64)) :=
    fun t ht i => read64_slot_congr i (hsame t ht)
  have hchild : ∀ t, owner t ≠ none → ∀ i, child m' t i = child m t i :=
    fun t ht i => child_congr i (hword t ht i)
  refine ⟨⟨hT.forest.congr hchild, hT.aligned, hT.inUse, ?_⟩, ?_⟩
  · intro t ht i hi
    rw [hchild t ht i] at hi
    exact (hword t ht i).trans (hT.cleared t ht i hi)
  · intro r hr v
    rw [pageWalk_eq_walk, pageWalk_eq_walk]
    exact hT.forest.walk_congr hchild (path v) r r [] (hT.forest.root r hr) (by simp [path])

theorem Tables.mono {dirs used used' : Set Word} {m : Mem} {owner : Owner}
    (hT : Tables dirs m used owner) (hsub : used ⊆ used') : Tables dirs m used' owner :=
  ⟨hT.forest, hT.aligned, fun t ht => hsub (hT.inUse t ht), hT.cleared⟩

/-- Writes into one page that is not a table leave the tables alone. -/
theorem Tables.congr_page {dirs used : Set Word} {m m' : Mem} {owner : Owner}
    (hT : Tables dirs m used owner) {p : Word} (haligned : PageAligned p) (hnone : owner p = none)
    (hsame : ∀ x, ¬ InPage p x → m' x = m x) :
    Tables dirs m' used owner ∧ ∀ r ∈ dirs, ∀ v, pageWalk m' r v = pageWalk m r v := by
  refine hT.congr fun t ht x hx => hsame x fun hin => ?_
  rw [InPage.unique (hT.aligned t ht) haligned hx hin] at ht
  exact ht hnone

/-- A page that is not in use is not a table. -/
theorem Tables.owner_eq_none {dirs used : Set Word} {m : Mem} {owner : Owner}
    (hT : Tables dirs m used owner) {page : Word} (hpage : page ∉ used) : owner page = none := by
  by_contra hne
  exact hpage (hT.inUse page hne)

/-! ## One level of the walk -/

section Spec

variable {σ : Type} {src : PageSource σ} {taken : σ → Set Word} {dirs : Set Word}

/-- The paging code only adds tables: links, tables and foreign pages in use all
survive. -/
structure Grows (taken : σ → Set Word) (dirs : Set Word) (s s' : Machine σ)
    (owner owner' : Owner) : Prop where
  tables : Tables dirs s'.mem (taken s'.pmm) owner'
  taken_mono : taken s.pmm ⊆ taken s'.pmm
  owner_mono : ∀ t o, owner t = some o → owner' t = some o
  owner_new : ∀ t ∈ taken s.pmm, owner t = none → owner' t = none
  outside : ∀ p ∈ taken s.pmm, PageAligned p → owner p = none →
    ∀ x, InPage p x → s'.mem x = s.mem x

theorem Grows.refl {s : Machine σ} {owner : Owner}
    (hT : Tables dirs s.mem (taken s.pmm) owner) : Grows taken dirs s s owner owner where
  tables := hT
  taken_mono := subset_rfl
  owner_mono := fun _ _ h => h
  owner_new := fun _ _ h => h
  outside := fun _ _ _ _ _ _ => rfl

theorem Grows.trans {s₁ s₂ s₃ : Machine σ} {o₁ o₂ o₃ : Owner}
    (h : Grows taken dirs s₁ s₂ o₁ o₂) (h' : Grows taken dirs s₂ s₃ o₂ o₃) :
    Grows taken dirs s₁ s₃ o₁ o₃ where
  tables := h'.tables
  taken_mono := h.taken_mono.trans h'.taken_mono
  owner_mono := fun t o ho => h'.owner_mono t o (h.owner_mono t o ho)
  owner_new := fun t ht ho => h'.owner_new t (h.taken_mono ht) (h.owner_new t ht ho)
  outside := by
    intro p hp halign ho x hx
    rw [h'.outside p (h.taken_mono hp) halign (h.owner_new p hp ho) x hx,
      h.outside p hp halign ho x hx]

/-- No full walk from a directory changed. -/
def SameWalks (dirs : Set Word) (m m' : Mem) : Prop :=
  ∀ r ∈ dirs, ∀ q : List (BitVec 9), q.length = 4 →
    Radix.walk (child m') r q = Radix.walk (child m) r q

section Link

variable {s : Machine σ} {owner : Owner} {t page : Word} {pmm : σ} {mem : Mem}

/-- Linking a fresh cleared page into an entry of `t` writes no other page in use. -/
theorem link_bytes (hlaw : src.Lawful taken) (ht : PageAligned t)
    (hget : src.getpage s.pmm s.mem = some (page, pmm, mem)) (i : BitVec 9) (v : Word) {u : Word}
    (hu : u ∈ taken s.pmm) (hualigned : PageAligned u) (hut : u ≠ t) {x : Word}
    (hx : InPage u x) :
    (memset mem page 0 0x1000).write64 (slot t (i.setWidth 64)) v x = s.mem x := by
  have hnotT : ¬ InPage t x := fun h => hut (InPage.unique hualigned ht hx h)
  have hnotP : ¬ InPage page x := by
    intro h
    have heq := InPage.unique hualigned (hlaw.frame _ _ _ _ _ hget).1 hx h
    rw [heq] at hu
    exact hlaw.fresh _ _ _ _ _ hget hu
  rw [write64_slot_of_not_inPage i hnotT, memset_page_of_not_inPage hnotP]
  exact hlaw.untouched _ _ _ _ _ hget u hu hualigned x hx

/-- Among the entries of the tables only the linked one changes, and the new table is empty. -/
theorem link_words (hlaw : src.Lawful taken) (hT : Tables dirs s.mem (taken s.pmm) owner)
    (ht : owner t ≠ none) (hget : src.getpage s.pmm s.mem = some (page, pmm, mem))
    (i : BitVec 9) (v : Word) :
    (∀ n, owner n ≠ none → ∀ j : BitVec 9, (n ≠ t ∨ j ≠ i) →
      ((memset mem page 0 0x1000).write64 (slot t (i.setWidth 64)) v).read64
        (slot n (j.setWidth 64)) = s.mem.read64 (slot n (j.setWidth 64))) ∧
    ∀ j : BitVec 9, ((memset mem page 0 0x1000).write64 (slot t (i.setWidth 64)) v).read64
      (slot page (j.setWidth 64)) = 0 := by
  have htaligned := hT.aligned t ht
  have hpaligned := (hlaw.frame _ _ _ _ _ hget).1
  have hpt : page ≠ t := fun heq => hlaw.fresh _ _ _ _ _ hget (heq ▸ hT.inUse t ht)
  refine ⟨fun n hn j hslot => ?_, fun j => ?_⟩
  · by_cases hnt : n = t
    · subst hnt
      rw [read64_write64_slot_of_ne htaligned htaligned hslot]
      apply read64_slot_congr
      intro x hx
      have hnotP : ¬ InPage page x := fun h => hpt (InPage.unique hpaligned htaligned h hx)
      rw [memset_page_of_not_inPage hnotP]
      exact hlaw.untouched _ _ _ _ _ hget n (hT.inUse n hn) htaligned x hx
    · exact read64_slot_congr j fun x hx =>
        link_bytes hlaw htaligned hget i v (hT.inUse n hn) (hT.aligned n hn) hnt hx
  · rw [read64_write64_slot_of_ne htaligned hpaligned (Or.inl hpt)]
    exact read64_slot_of_zero j fun x hx => memset_page_of_inPage hx 0

end Link

/-- Linking a fresh cleared page into a free entry of an inner table. -/
theorem link_grows (hlaw : src.Lawful taken) {s : Machine σ} {owner : Owner}
    (hT : Tables dirs s.mem (taken s.pmm) owner) {t r : Word} {q : List (BitVec 9)}
    (ht : owner t = some (r, q)) (hq : q.length < 3) {i : BitVec 9}
    (hfree : child s.mem t i = none) {page : Word} {pmm : σ} {mem : Mem}
    (hget : src.getpage s.pmm s.mem = some (page, pmm, mem)) {v : Word}
    (hv : Present v) (hpage : pdeGetaddress v = page) :
    ∃ owner', Grows taken dirs s
        ⟨(memset mem page 0 0x1000).write64 (slot t (i.setWidth 64)) v, pmm⟩ owner owner' ∧
      owner' page = some (r, q ++ [i]) ∧
      SameWalks dirs s.mem
        ((memset mem page 0 0x1000).write64 (slot t (i.setWidth 64)) v) := by
  classical
  have howned : owner t ≠ none := by simp [ht]
  have htaligned := hT.aligned t howned
  have hpaligned := (hlaw.frame _ _ _ _ _ hget).1
  have hfresh := hlaw.fresh _ _ _ _ _ hget
  have hnext := hlaw.taken_next _ _ _ _ _ hget
  have hnew : owner page = none := hT.owner_eq_none hfresh
  set m' := (memset mem page 0 0x1000).write64 (slot t (i.setWidth 64)) v with hm'
  obtain ⟨hsameWord, hzero⟩ := link_words hlaw hT howned hget i v
  rw [← hm'] at hsameWord hzero
  have hsame : ∀ n, owner n ≠ none → ∀ j, (n ≠ t ∨ j ≠ i) → child m' n j = child s.mem n j :=
    fun n hn j hslot => child_congr j (hsameWord n hn j hslot)
  have hlink : child m' t i = some page := by
    rw [hm', child_write64_self, if_pos hv, hpage]
  have hempty : ∀ j, child m' page j = none := fun j => child_of_zero (hzero j)
  have hwalks : SameWalks dirs s.mem m' := by
    intro r' hr' p hp
    exact hT.forest.walk_graft ht (by omega) hfree hsame hlink hempty p r' r' []
      (hT.forest.root r' hr') (by simpa using hp)
  refine ⟨Function.update owner page (some (r, q ++ [i])), ?_,
    Function.update_self _ _ _, hwalks⟩
  have hupd : ∀ u, u ≠ page → Function.update owner page (some (r, q ++ [i])) u = owner u :=
    fun u hu => Function.update_of_ne hu _ _
  refine
    { tables :=
        { forest := hT.forest.graft ht (by omega) hfree hnew hsame hlink hempty
          aligned := ?_, inUse := ?_, cleared := ?_ }
      taken_mono := ?_, owner_mono := ?_, owner_new := ?_, outside := ?_ }
  · intro u hu
    by_cases hup : u = page
    · exact hup ▸ hpaligned
    · exact hT.aligned u (hupd u hup ▸ hu)
  · intro u hu
    by_cases hup : u = page
    · simp [hnext, hup]
    · have := hT.inUse u (hupd u hup ▸ hu)
      simp [hnext, this]
  · intro u hu j hj
    by_cases hup : u = page
    · exact hup ▸ hzero j
    · have hold : owner u ≠ none := hupd u hup ▸ hu
      by_cases hslot : u ≠ t ∨ j ≠ i
      · rw [hsame u hold j hslot] at hj
        exact (hsameWord u hold j hslot).trans (hT.cleared u hold j hj)
      · push Not at hslot
        rw [hslot.1, hslot.2, hlink] at hj
        cases hj
  · intro u hu
    simp [hnext, hu]
  · intro u o ho
    have hup : u ≠ page := by
      intro heq
      rw [heq, hnew] at ho
      cases ho
    rw [hupd u hup, ho]
  · intro u hu ho
    have hup : u ≠ page := fun heq => hfresh (heq ▸ hu)
    rw [hupd u hup, ho]
  · intro u hu hualigned ho x hx
    have hut : u ≠ t := by
      intro heq
      rw [heq, ht] at ho
      cases ho
    exact link_bytes hlaw htaligned hget i v hu hualigned hut hx

/-- The get-or-create block of `__paging_map`: the table it returns is the one
owned at the extended path. -/
theorem nextTable_grows (hlaw : src.Lawful taken) {s s' : Machine σ} {owner : Owner}
    (hT : Tables dirs s.mem (taken s.pmm) owner) {t r c flags : Word}
    {q : List (BitVec 9)} (ht : owner t = some (r, q)) (hq : q.length < 3) {i : BitVec 9}
    (hpresent : Present flags) (hflags : NoAddressBits flags)
    (h : nextTable src t (i.setWidth 64) flags s = some (c, s')) :
    ∃ owner', Grows taken dirs s s' owner owner' ∧ owner' c = some (r, q ++ [i]) ∧
      SameWalks dirs s.mem s'.mem := by
  unfold nextTable at h
  by_cases hp : Present (s.mem.read64 (slot t (i.setWidth 64)))
  · rw [if_pos hp] at h
    cases h
    have hchild : child s.mem t i =
        some (pdeGetaddress (s.mem.read64 (slot t (i.setWidth 64)))) := if_pos hp
    exact ⟨owner, Grows.refl hT, hT.forest.child t r q i _ ht (by omega) hchild,
      fun _ _ _ _ => rfl⟩
  · rw [if_neg hp, Option.map_eq_some_iff] at h
    obtain ⟨⟨page, pmm, mem⟩, hget, heq⟩ := h
    cases heq
    have hframe := hlaw.frame _ _ _ _ _ hget
    exact link_grows hlaw hT ht hq (if_neg hp) hget (present_or hpresent)
      ((pdeGetaddress_link hflags).trans hframe.mask)

/-! ## Last-level entries -/

/-- Overwriting a last-level entry by a present one or by zero. -/
theorem leaf_write {m : Mem} {used : Set Word} {owner : Owner}
    (hT : Tables dirs m used owner) {t r : Word} {q : List (BitVec 9)}
    (ht : owner t = some (r, q)) (hq : q.length = 3) (i : BitVec 9) {v : Word}
    (hv : Present v ∨ v = 0) :
    Tables dirs (m.write64 (slot t (i.setWidth 64)) v) used owner ∧
      ∀ r' ∈ dirs, ∀ p : List (BitVec 9), p.length = 4 →
        Radix.walk (child (m.write64 (slot t (i.setWidth 64)) v)) r' p =
          if r' = r ∧ p = q ++ [i] then
            if Present v then some (pdeGetaddress v) else none
          else Radix.walk (child m) r' p := by
  have htaligned := hT.aligned t (by simp [ht])
  have hsameWord : ∀ n, owner n ≠ none → ∀ j, (n ≠ t ∨ j ≠ i) →
      (m.write64 (slot t (i.setWidth 64)) v).read64 (slot n (j.setWidth 64)) =
        m.read64 (slot n (j.setWidth 64)) :=
    fun n hn j hslot => read64_write64_slot_of_ne htaligned (hT.aligned n hn) hslot
  have hsame : ∀ n, owner n ≠ none → ∀ j, (n ≠ t ∨ j ≠ i) →
      child (m.write64 (slot t (i.setWidth 64)) v) n j = child m n j :=
    fun n hn j hslot => child_congr j (hsameWord n hn j hslot)
  refine ⟨⟨hT.forest.setLeaf ht (by omega) hsame, hT.aligned, hT.inUse, ?_⟩, ?_⟩
  · intro n hn j hj
    by_cases hslot : n ≠ t ∨ j ≠ i
    · rw [hsame n hn j hslot] at hj
      exact (hsameWord n hn j hslot).trans (hT.cleared n hn j hj)
    · push Not at hslot
      rw [hslot.1, hslot.2, child_write64_self] at hj
      rw [hslot.1, hslot.2, Mem.read64_write64_self]
      cases hv with
      | inl hpresent => simp [hpresent] at hj
      | inr hzero => exact hzero
  · intro r' hr' p hp
    obtain ⟨hhit, hmiss⟩ := hT.forest.walk_setLeaf ht (by omega) hsame hr' hp
    by_cases hpath : r' = r ∧ p = q ++ [i]
    · rw [if_pos hpath, hhit hpath, child_write64_self]
    · rw [if_neg hpath, hmiss hpath]

/-! ## The two operations -/

/-- `__paging_map` sets the translation of one page of one directory and changes
no other translation. -/
theorem pagingMap_spec (hlaw : src.Lawful taken) {s s' : Machine σ} {owner : Owner}
    (hT : Tables dirs s.mem (taken s.pmm) owner) {dir virtual physical flags : Word}
    (hdir : dir ∈ dirs) (hpresent : Present flags) (hflags : NoAddressBits flags)
    (h : pagingMap src dir virtual physical flags s = some s') :
    ∃ owner', Grows taken dirs s s' owner owner' ∧
      ∀ r ∈ dirs, ∀ x, pageWalk s'.mem r x =
        if r = dir ∧ pageNumber x = pageNumber virtual then
          some (physical &&& 0x000000fffffff000#64)
        else pageWalk s.mem r x := by
  unfold pagingMap at h
  simp only [pmidxInit_eq, Option.bind_eq_bind, Option.bind_eq_some_iff, Prod.exists] at h
  obtain ⟨pdp, s₁, h₁, pd, s₂, h₂, pt, s₃, h₃, heq⟩ := h
  have hroot := hT.forest.root dir hdir
  obtain ⟨o₁, hg₁, hown₁, hw₁⟩ :=
    nextTable_grows hlaw hT hroot (by simp) hpresent hflags h₁
  obtain ⟨o₂, hg₂, hown₂, hw₂⟩ :=
    nextTable_grows hlaw hg₁.tables hown₁ (by simp) hpresent hflags h₂
  obtain ⟨o₃, hg₃, hown₃, hw₃⟩ :=
    nextTable_grows hlaw hg₂.tables hown₂ (by simp) hpresent hflags h₃
  have hg := (hg₁.trans hg₂).trans hg₃
  cases heq
  set pde := s₃.mem.read64 (slot pt (((virtual >>> 12).setWidth 9).setWidth 64))
  have hleafPresent : Present (pdeSetaddress pde physical ||| flags) := present_or hpresent
  obtain ⟨hT', hwalk⟩ := leaf_write hg.tables hown₃ (by simp) ((virtual >>> 12).setWidth 9)
    (Or.inl hleafPresent)
  refine ⟨o₃, ⟨hT', hg.taken_mono, hg.owner_mono, hg.owner_new, ?_⟩, ?_⟩
  · intro p hp haligned ho x hx
    have hnot : ¬ InPage pt x := by
      intro hpt
      have hptAligned := hg.tables.aligned pt (by simp [hown₃])
      have heq := InPage.unique haligned hptAligned hx hpt
      have hnone := hg.owner_new p hp ho
      rw [heq, hown₃] at hnone
      cases hnone
    exact (write64_slot_of_not_inPage _ hnot).trans (hg.outside p hp haligned ho x hx)
  · intro r hr x
    have hpath : path virtual = [] ++ [(virtual >>> 39).setWidth 9] ++
        [(virtual >>> 30).setWidth 9] ++ [(virtual >>> 21).setWidth 9] ++
        [(virtual >>> 12).setWidth 9] := rfl
    rw [pageWalk_eq_walk, hwalk r hr (path x) rfl, ← hpath, if_pos hleafPresent,
      pdeGetaddress_link hflags, pageWalk_eq_walk, hw₃ r hr _ rfl, hw₂ r hr _ rfl,
      hw₁ r hr _ rfl]
    simp only [path_eq_iff]

/-- `__paging_unmap` removes the translation of one page of one directory and
changes no other translation. -/
theorem pagingUnmap_spec {m : Mem} {used : Set Word} {owner : Owner}
    (hT : Tables dirs m used owner) {dir : Word} (hdir : dir ∈ dirs) (virtual : Word) :
    Tables dirs (pagingUnmap dir virtual m) used owner ∧
      (∀ p, PageAligned p → owner p = none → ∀ x, InPage p x →
        pagingUnmap dir virtual m x = m x) ∧
      ∀ r ∈ dirs, ∀ x, pageWalk (pagingUnmap dir virtual m) r x =
        if r = dir ∧ pageNumber x = pageNumber virtual then none
        else pageWalk m r x := by
  have hroot := hT.forest.root dir hdir
  have hsplit : path virtual = (path virtual).take 3 ++ [(virtual >>> 12).setWidth 9] := rfl
  -- when the walk stops early the page was not mapped and nothing is written
  have hnoop : pageWalk m dir virtual = none → ∀ r ∈ dirs, ∀ x, pageWalk m r x =
      if r = dir ∧ pageNumber x = pageNumber virtual then none else pageWalk m r x := by
    intro hnone r _ x
    by_cases hhit : r = dir ∧ pageNumber x = pageNumber virtual
    · have hpath : path x = path virtual := (path_eq_iff x virtual).mpr hhit.2
      rw [if_pos hhit, pageWalk_eq_walk, hhit.1, hpath, ← pageWalk_eq_walk, hnone]
    · rw [if_neg hhit]
  have heq := pagingUnmap_eq m dir virtual
  cases hpt : Radix.walk (child m) dir ((path virtual).take 3) with
  | none =>
      have hnone : pageWalk m dir virtual = none := by
        rw [pageWalk_eq_walk, hsplit, Radix.walk_append, hpt]
        rfl
      simp only [hpt] at heq
      rw [heq]
      exact ⟨hT, fun _ _ _ _ _ => rfl, hnoop hnone⟩
  | some pt =>
      have hown := hT.forest.owner_of_walk hdir hpt (by simp [path])
      by_cases hleaf : child m pt ((virtual >>> 12).setWidth 9) = none
      · have hnone : pageWalk m dir virtual = none := by
          rw [pageWalk_eq_walk, hsplit, Radix.walk_append, hpt]
          simp [hleaf]
        simp only [hpt, if_pos hleaf] at heq
        rw [heq]
        exact ⟨hT, fun _ _ _ _ _ => rfl, hnoop hnone⟩
      · simp only [hpt, if_neg hleaf] at heq
        rw [heq]
        obtain ⟨hT', hwalk⟩ := leaf_write hT hown (by simp [path])
          ((virtual >>> 12).setWidth 9) (Or.inr rfl)
        refine ⟨hT', ?_, ?_⟩
        · intro p haligned ho x hx
          apply write64_slot_of_not_inPage
          intro hptx
          have heq := InPage.unique haligned (hT.aligned pt (by simp [hown])) hx hptx
          rw [heq, hown] at ho
          cases ho
        · intro r hr x
          rw [pageWalk_eq_walk, hwalk r hr (path x) rfl, ← hsplit,
            if_neg not_present_zero, pageWalk_eq_walk]
          simp only [path_eq_iff]

/-! ## Tables that exist -/

theorem table_of_pageWalk {m : Mem} {dir v f : Word} (h : pageWalk m dir v = some f) :
    ∃ pt, Radix.walk (child m) dir ((path v).take 3) = some pt := by
  have hsplit : path v = (path v).take 3 ++ [(v >>> 12).setWidth 9] := rfl
  rw [pageWalk_eq_walk, hsplit, Radix.walk_append, Option.bind_eq_some_iff] at h
  obtain ⟨pt, hpt, -⟩ := h
  exact ⟨pt, hpt⟩

/-- The frame of a new entry: the page of the address, with the address bits of the flags. -/
theorem pdeGetaddress_or (pde a flags : Word) :
    pdeGetaddress (pdeSetaddress pde a ||| flags) =
      (a &&& 0x000000fffffff000#64) ||| (flags &&& 0x000ffffffffff000#64) := by
  have hlink := @pdeGetaddress_link pde a 0 (by decide)
  rw [BitVec.ofNat_eq_ofNat, BitVec.or_zero] at hlink
  rw [← hlink, pdeGetaddress, pdeGetaddress, BitVec.and_or_distrib_right]

/-- A level whose entry is present allocates nothing. -/
theorem nextTable_of_child {s : Machine σ} {t c : Word} {i : BitVec 9}
    (h : child s.mem t i = some c) (flags : Word) :
    nextTable src t (i.setWidth 64) flags s = some (c, s) := by
  unfold child entryTarget at h
  unfold nextTable
  by_cases hp : Present (s.mem.read64 (slot t (i.setWidth 64)))
  · rw [if_pos hp] at h
    rw [if_pos hp, Option.some.inj h]
  · rw [if_neg hp] at h
    cases h

/-- Where the tables of the page exist, `__paging_map` writes the last entry only, whatever the
flags. -/
theorem pagingMap_of_walk {s : Machine σ} {used : Set Word} {owner : Owner}
    (hT : Tables dirs s.mem used owner) {dir virtual physical flags pt : Word} (hdir : dir ∈ dirs)
    (hpt : Radix.walk (child s.mem) dir ((path virtual).take 3) = some pt)
    (hpresent : Present flags) :
    ∃ m, pagingMap src dir virtual physical flags s = some { s with mem := m } ∧
      Tables dirs m used owner ∧
      ∀ r ∈ dirs, ∀ x, pageWalk m r x =
        if r = dir ∧ pageNumber x = pageNumber virtual then
          some ((physical &&& 0x000000fffffff000#64) ||| (flags &&& 0x000ffffffffff000#64))
        else pageWalk s.mem r x := by
  have hown := hT.forest.owner_of_walk hdir hpt (by simp [path])
  have hsplit : path virtual = (path virtual).take 3 ++ [(virtual >>> 12).setWidth 9] := rfl
  have htake : (path virtual).take 3 = [(virtual >>> 39).setWidth 9,
      (virtual >>> 30).setWidth 9, (virtual >>> 21).setWidth 9] := rfl
  rw [htake] at hpt
  simp only [Radix.walk_cons, Option.bind_eq_some_iff] at hpt
  obtain ⟨pdp, h₁, pd, h₂, pt', h₃, hpt⟩ := hpt
  obtain rfl := Option.some.inj hpt
  set pde := s.mem.read64 (slot pt' (((virtual >>> 12).setWidth 9).setWidth 64)) with hpde
  have hleaf : Present (pdeSetaddress pde physical ||| flags) := present_or hpresent
  obtain ⟨hT', hwalk⟩ := leaf_write hT hown (by simp [path]) ((virtual >>> 12).setWidth 9)
    (Or.inl hleaf)
  refine ⟨_, ?_, hT', fun r hr x => ?_⟩
  · simp only [pagingMap, pmidxInit_eq, nextTable_of_child h₁, nextTable_of_child h₂,
      nextTable_of_child h₃, Option.bind_eq_bind, Option.bind_some, hpde]
  · rw [pageWalk_eq_walk, hwalk r hr (path x) rfl, ← hsplit, if_pos hleaf, pdeGetaddress_or,
      pageWalk_eq_walk]
    simp only [path_eq_iff]

/-! ## Sources that follow one another -/

section Follows

variable {τ : Type} {src' : PageSource τ} {R : Mem → σ → τ → Prop}

/-- `src'` answers as `src` does in the states that `R` relates.  The relation depends on no
byte of a page in use. -/
structure PageSource.Follows (src' : PageSource τ) (src : PageSource σ) (taken : σ → Set Word)
    (R : Mem → σ → τ → Prop) : Prop where
  getpage : ∀ {m a b p a' m'}, R m a b → src.getpage a m = some (p, a', m') →
    ∃ b', src'.getpage b m = some (p, b', m') ∧ R m' a' b'
  keeps : ∀ {m m' a b}, R m a b →
    (∀ x, (∀ q ∈ taken a, PageAligned q → ¬ InPage q x) → m' x = m x) → R m' a b

theorem nextTable_follows (hlaw : src.Lawful taken) (hfol : src'.Follows src taken R)
    {s s' : Machine σ} {owner : Owner} (hT : Tables dirs s.mem (taken s.pmm) owner)
    {t c flags : Word} (ht : owner t ≠ none) {i : BitVec 9}
    (h : nextTable src t (i.setWidth 64) flags s = some (c, s')) {b : τ} (hR : R s.mem s.pmm b) :
    ∃ b', nextTable src' t (i.setWidth 64) flags ⟨s.mem, b⟩ = some (c, ⟨s'.mem, b'⟩) ∧
      R s'.mem s'.pmm b' := by
  unfold nextTable at h ⊢
  dsimp only at h ⊢
  split_ifs at h ⊢ with hp
  · cases h
    exact ⟨b, rfl, hR⟩
  · rw [Option.map_eq_some_iff] at h
    obtain ⟨⟨page, pmm, mem⟩, hget, heq⟩ := h
    obtain ⟨rfl, rfl⟩ := Prod.mk.inj heq
    obtain ⟨b', hget', hR'⟩ := hfol.getpage hR hget
    refine ⟨b', by rw [hget']; rfl, hfol.keeps hR' fun x hx => ?_⟩
    -- the page and the table are both in use now
    rw [hlaw.taken_next _ _ _ _ _ hget] at hx
    have hpage := hx page (Set.mem_insert _ _) (hlaw.frame _ _ _ _ _ hget).1
    have htable := hx t (Set.mem_insert_of_mem _ (hT.inUse t ht)) (hT.aligned t ht)
    exact (write64_slot_of_not_inPage i htable).trans (memset_page_of_not_inPage hpage 0)

theorem pagingMap_follows (hlaw : src.Lawful taken) (hfol : src'.Follows src taken R)
    {s s' : Machine σ} {owner : Owner} (hT : Tables dirs s.mem (taken s.pmm) owner)
    {dir virtual physical flags : Word} (hdir : dir ∈ dirs) (hpresent : Present flags)
    (hflags : NoAddressBits flags) (h : pagingMap src dir virtual physical flags s = some s')
    {b : τ} (hR : R s.mem s.pmm b) :
    ∃ b', pagingMap src' dir virtual physical flags ⟨s.mem, b⟩ = some ⟨s'.mem, b'⟩ ∧
      R s'.mem s'.pmm b' := by
  unfold pagingMap at h ⊢
  simp only [pmidxInit_eq, Option.bind_eq_bind, Option.bind_eq_some_iff, Prod.exists] at h ⊢
  obtain ⟨pdp, s₁, h₁, pd, s₂, h₂, pt, s₃, h₃, heq⟩ := h
  have hroot := hT.forest.root dir hdir
  obtain ⟨o₁, hg₁, hown₁, -⟩ := nextTable_grows hlaw hT hroot (by simp) hpresent hflags h₁
  obtain ⟨o₂, hg₂, hown₂, -⟩ := nextTable_grows hlaw hg₁.tables hown₁ (by simp) hpresent hflags h₂
  obtain ⟨o₃, hg₃, hown₃, -⟩ := nextTable_grows hlaw hg₂.tables hown₂ (by simp) hpresent hflags h₃
  obtain ⟨b₁, h₁', hR₁⟩ := nextTable_follows hlaw hfol hT (by simp [hroot]) h₁ hR
  obtain ⟨b₂, h₂', hR₂⟩ := nextTable_follows hlaw hfol hg₁.tables (by simp [hown₁]) h₂ hR₁
  obtain ⟨b₃, h₃', hR₃⟩ := nextTable_follows hlaw hfol hg₂.tables (by simp [hown₂]) h₃ hR₂
  cases heq
  have howned : o₃ pt ≠ none := by simp [hown₃]
  refine ⟨b₃, ⟨_, _, h₁', _, _, h₂', _, _, h₃', rfl⟩, hfol.keeps hR₃ fun x hx => ?_⟩
  exact write64_slot_of_not_inPage _
    (hx pt (hg₃.tables.inUse pt howned) (hg₃.tables.aligned pt howned))

end Follows

/-! ## Pages that are not in use -/

/-- What the allocator keeps for itself is in none of the pages `frames` that it hands out. -/
structure PageSource.Quiet (src : PageSource σ) (frames : Set Word) : Prop where
  returns : ∀ a m p a' m', src.getpage a m = some (p, a', m') → p ∈ frames
  keeps : ∀ a m p a' m', src.getpage a m = some (p, a', m') →
    ∀ q ∈ frames, ∀ x, InPage q x → m' x = m x

theorem poolSource_quiet : poolSource.Quiet Set.univ where
  returns := fun _ _ _ _ _ _ => Set.mem_univ _
  keeps := fun _ _ _ _ _ h _ _ _ _ => by rw [(poolSource_getpage h).2]

/-- A source follows itself, and pages that are not in use stay as they were. -/
theorem PageSource.Quiet.follows {frames : Set Word} (hquiet : src.Quiet frames)
    (hlaw : src.Lawful taken) (m₀ : Mem) :
    src.Follows src taken fun m a b => b = a ∧
      ∀ q ∈ frames, PageAligned q → q ∉ taken a → ∀ x, InPage q x → m x = m₀ x where
  getpage := by
    rintro m a _ p a' m' ⟨rfl, hsame⟩ hget
    refine ⟨a', hget, rfl, fun q hq haligned hunused x hx => ?_⟩
    rw [hlaw.taken_next _ _ _ _ _ hget, Set.mem_insert_iff, not_or] at hunused
    exact (hquiet.keeps _ _ _ _ _ hget q hq x hx).trans (hsame q hq haligned hunused.2 x hx)
  keeps := by
    rintro m m' a _ ⟨rfl, hsame⟩ hkeep
    refine ⟨rfl, fun q hq haligned hunused x hx => ?_⟩
    refine (hkeep x fun p hp hp' hin => ?_).trans (hsame q hq haligned hunused x hx)
    exact hunused (InPage.unique haligned hp' hx hin ▸ hp)

/-- `__paging_map` writes into no page that is still not in use after it. -/
theorem pagingMap_unused (hlaw : src.Lawful taken) {frames : Set Word} (hquiet : src.Quiet frames)
    {s s' : Machine σ} {owner : Owner} (hT : Tables dirs s.mem (taken s.pmm) owner)
    {dir virtual physical flags : Word} (hdir : dir ∈ dirs) (hpresent : Present flags)
    (hflags : NoAddressBits flags) (h : pagingMap src dir virtual physical flags s = some s')
    {q : Word} (hq : q ∈ frames) (haligned : PageAligned q) (hunused : q ∉ taken s'.pmm) {x : Word}
    (hx : InPage q x) : s'.mem x = s.mem x := by
  obtain ⟨-, -, -, hsame⟩ := pagingMap_follows hlaw (hquiet.follows hlaw s.mem) hT hdir hpresent
    hflags h ⟨rfl, fun _ _ _ _ _ _ => rfl⟩
  exact hsame q hq haligned hunused x hx

/-! ## Progress -/

/-- `n` successive calls of `pmm_getpage` all return a page, whatever the memory
holds. -/
def PageSource.Supplies (src : PageSource σ) : Nat → σ → Prop
  | 0, _ => True
  | n + 1, a => ∀ m, ∃ p a' m', src.getpage a m = some (p, a', m') ∧ src.Supplies n a'

theorem PageSource.Supplies.pred {n : Nat} :
    ∀ {a : σ}, src.Supplies (n + 1) a → src.Supplies n a := by
  induction n with
  | zero => intro a _; trivial
  | succ n ih =>
      intro a h m
      obtain ⟨p, a', m', hget, hrest⟩ := h m
      exact ⟨p, a', m', hget, ih hrest⟩

theorem PageSource.Supplies.mono {n k : Nat} {a : σ} (h : src.Supplies (n + k) a) :
    src.Supplies n a := by
  induction k with
  | zero => exact h
  | succ k ih => exact ih h.pred

theorem poolSource_supplies :
    ∀ (n : Nat) (pool : PagePool), n ≤ pool.pages.length → poolSource.Supplies n pool := by
  intro n
  induction n with
  | zero => intro pool _; trivial
  | succ n ih =>
      intro pool hlen m
      obtain ⟨pages, hnodup, hframe⟩ := pool
      cases pages with
      | nil => simp at hlen
      | cons p rest => exact ⟨p, _, m, rfl, ih _ (by simpa using hlen)⟩

/-- One level of the walk asks for at most one page. -/
theorem nextTable_progress {n : Nat} {s : Machine σ} (h : src.Supplies (n + 1) s.pmm)
    (t i flags : Word) :
    ∃ c s', nextTable src t i flags s = some (c, s') ∧ src.Supplies n s'.pmm := by
  unfold nextTable
  by_cases hp : Present (s.mem.read64 (slot t i))
  · exact ⟨_, s, if_pos hp, h.pred⟩
  · obtain ⟨p, a', m', hget, hrest⟩ := h s.mem
    simp only [if_neg hp, hget, Option.map_some]
    exact ⟨_, _, rfl, hrest⟩

theorem pagingMap_progress {n : Nat} {s : Machine σ} (h : src.Supplies (n + 3) s.pmm)
    (dir virtual physical flags : Word) :
    ∃ s', pagingMap src dir virtual physical flags s = some s' ∧ src.Supplies n s'.pmm := by
  obtain ⟨pdp, s₁, h₁, hs₁⟩ := nextTable_progress h dir (pmidxInit virtual).pdpI flags
  obtain ⟨pd, s₂, h₂, hs₂⟩ := nextTable_progress hs₁ pdp (pmidxInit virtual).pdI flags
  obtain ⟨pt, s₃, h₃, hs₃⟩ := nextTable_progress hs₂ pd (pmidxInit virtual).ptI flags
  have hmap : ∃ m, pagingMap src dir virtual physical flags s = some { s₃ with mem := m } := by
    unfold pagingMap
    simp only [h₁, h₂, h₃, Option.bind_eq_bind, Option.bind_some]
    exact ⟨_, rfl⟩
  obtain ⟨m, hmap⟩ := hmap
  exact ⟨_, hmap, hs₃⟩

/-! ## Memory apart from the tables -/

/-- The `n` bytes from `base` on lie in pages that are in use and are not tables. -/
def Apart (base : Word) (n : Nat) (used : Set Word) (owner : Owner) : Prop :=
  ∀ k < n, ∃ p ∈ used, PageAligned p ∧ owner p = none ∧ InPage p (base + BitVec.ofNat 64 k)

/-- Bytes apart from the tables are in no table. -/
theorem Apart.not_inPage {m : Mem} {used : Set Word} {owner : Owner} {base : Word} {n k : Nat}
    (h : Apart base n used owner) (hT : Tables dirs m used owner) (hk : k < n) {t : Word}
    (ht : owner t ≠ none) : ¬ InPage t (base + BitVec.ofNat 64 k) := by
  intro hin
  obtain ⟨p, -, haligned, hnone, hp⟩ := h k hk
  rw [InPage.unique haligned (hT.aligned t ht) hp hin] at hnone
  exact ht hnone

/-- The paging code leaves such bytes alone, and they stay apart. -/
theorem Grows.apart {s s' : Machine σ} {owner owner' : Owner}
    (hg : Grows taken dirs s s' owner owner') {base : Word} {n : Nat}
    (h : Apart base n (taken s.pmm) owner) :
    Apart base n (taken s'.pmm) owner' ∧
      ∀ k < n, s'.mem (base + BitVec.ofNat 64 k) = s.mem (base + BitVec.ofNat 64 k) := by
  refine ⟨fun k hk => ?_, fun k hk => ?_⟩
  · obtain ⟨p, hp, haligned, hnone, hin⟩ := h k hk
    exact ⟨p, hg.taken_mono hp, haligned, hg.owner_new p hp hnone, hin⟩
  · obtain ⟨p, hp, haligned, hnone, hin⟩ := h k hk
    exact hg.outside p hp haligned hnone _ hin

end Spec

end ChronOS.Mm
