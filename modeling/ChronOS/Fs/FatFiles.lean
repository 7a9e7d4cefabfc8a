/-
  Fs/FatFiles.lean --- the clusters of all files of a volume, over whole runs.

  Files grow and are cut in any order, through `create_chain` and `remove_chain` of
  `kernel/src/fs/fat/ff.c`.  A disk error may stop either of them at any point; the file that
  was worked on is then damaged, and the question is what happens to the others.

  `TableStep` is the abstract allocator, a table with the chains of the files in it.  The
  functions are shown to take steps of it, and the invariants are those of the abstract steps.
-/
import ChronOS.Fs.FatChains

set_option autoImplicit false

namespace ChronOS.Fs

open ChronOS.Foundation

/-! ## Counting clusters -/

section Counting

variable {g : Geometry} {T T' : BitVec 32 → BitVec 32} {c n : BitVec 32} {h : Hints}

/-- The free clusters. -/
def Geometry.free (g : Geometry) (T : BitVec 32 → BitVec 32) : Finset (BitVec 32) :=
  Finset.univ.filter fun d => g.Cluster d ∧ T d = 0

@[simp] theorem Geometry.mem_free {d : BitVec 32} : d ∈ g.free T ↔ g.Cluster d ∧ T d = 0 := by
  simp [Geometry.free]

theorem card_clusters_le (g : Geometry) (s : Finset (BitVec 32)) (hs : ∀ d ∈ s, g.Cluster d) :
    s.card ≤ g.nFatent.toNat - 2 := by
  have hmaps : ∀ d ∈ s, d.toNat ∈ Finset.Ico 2 g.nFatent.toNat := fun d hd =>
    Finset.mem_Ico.mpr (hs d hd)
  have hinj : Set.InjOn BitVec.toNat (s : Set (BitVec 32)) := fun _ _ _ _ heq =>
    BitVec.eq_of_toNat_eq heq
  have hle := Finset.card_le_card_of_injOn BitVec.toNat hmaps hinj
  rwa [Nat.card_Ico] at hle

/-- Clusters in use that become free. -/
theorem card_free_add {l : List (BitVec 32)} (hnodup : l.Nodup)
    (hl : ∀ d ∈ l, g.Cluster d ∧ T d ≠ 0 ∧ T' d = 0) (hother : ∀ d, d ∉ l → (T' d = 0 ↔ T d = 0)) :
    (g.free T').card = (g.free T).card + l.length := by
  have hunion : g.free T' = g.free T ∪ l.toFinset := by
    ext d
    rw [Finset.mem_union, List.mem_toFinset, Geometry.mem_free, Geometry.mem_free]
    by_cases hd : d ∈ l
    · obtain ⟨hc, -, hzero⟩ := hl d hd
      exact ⟨fun _ => Or.inr hd, fun _ => ⟨hc, hzero⟩⟩
    · rw [hother d hd]
      exact ⟨Or.inl, fun hor => hor.resolve_right hd⟩
  have hdisjoint : Disjoint (g.free T) l.toFinset := by
    refine Finset.disjoint_left.mpr fun d hfree hd => ?_
    exact (hl d (List.mem_toFinset.mp hd)).2.1 (Geometry.mem_free.mp hfree).2
  rw [hunion, Finset.card_union_of_disjoint hdisjoint, List.toFinset_card_of_nodup hnodup]

theorem card_free_le (g : Geometry) (T : BitVec 32 → BitVec 32) :
    (g.free T).card ≤ g.nFatent.toNat - 2 :=
  card_clusters_le g _ fun _ hd => (Geometry.mem_free.mp hd).1

namespace Hints

/-- The count of free clusters is `k`, or not known: any number above that of the clusters
stands for this. -/
def Counts (n : BitVec 32) (k : Nat) (h : Hints) : Prop :=
  h.freeClst.toNat = k ∨ n - 2 < h.freeClst

variable {k m : Nat}

theorem Counts.taken (hk : k + 1 ≤ n.toNat - 2) (hcount : h.Counts n (k + 1)) :
    (h.taken n c).Counts n k := by
  unfold Counts Hints.taken at *
  rcases hcount with hexact | hunknown
  · rw [if_pos ⟨by bv_omega, by bv_omega⟩]
    left
    show (h.freeClst - 1).toNat = k
    bv_omega
  · rw [if_neg fun hvalid => absurd hunknown (BitVec.not_lt.mpr hvalid.2)]
    exact Or.inr hunknown

theorem Counts.freed (hk : k + 1 ≤ n.toNat - 2) (hcount : h.Counts n k) :
    (h.freed n).Counts n (k + 1) := by
  unfold Counts Hints.freed at *
  rcases hcount with hexact | hunknown
  · rw [if_pos (by bv_omega)]
    left
    show (h.freeClst + 1).toNat = k + 1
    bv_omega
  · rw [if_neg (by bv_omega)]
    exact Or.inr hunknown

theorem Counts.freed_iterate (hk : k + m ≤ n.toNat - 2) (hcount : h.Counts n k) :
    ((Hints.freed n)^[m] h).Counts n (k + m) := by
  induction m generalizing k h with
  | zero => exact hcount
  | succ m ih =>
    rw [Function.iterate_succ_apply, show k + (m + 1) = k + 1 + m by omega]
    exact ih (by omega) (hcount.freed (by omega))

end Hints

end Counting

/-! ## The functions return

The FAT may hold anything here: chains that run into each other, or in circles. -/

section Returning

variable {σ : Type} {D : Drive σ} {M : Media D} {g : Geometry} {P : Lba → Prop}
  {base : Lba → Sector} {T : BitVec 32 → BitVec 32} {v : Vol σ} {c : BitVec 32}

theorem HasTable.get_outside (hv : HasTable M g P base T v) (hc : ¬ g.Cluster c) :
    getFat D c v = some (1, v) := by
  rw [getFat, hv.nFatent]
  exact if_pos (by unfold Geometry.Cluster at hc; bv_omega)

theorem HasTable.put_outside (hv : HasTable M g P base T v) (hc : ¬ g.Cluster c)
    {val : BitVec 32} : putFat D c val v = some (.intErr, v) := by
  rw [putFat, hv.nFatent]
  exact if_neg hc

/-- Each turn frees a cluster that was in use, and a free one ends the loop. -/
theorem removeLoop_returns (hM : M.Answers) (ht : g.Table M.limit)
    (hv : HasTable M g P base T v) (hc : g.Cluster c) {fuel : Nat}
    (hfuel : g.nFatent.toNat - 2 < (g.free T).card + fuel) :
    ∃ r v', removeLoop D fuel c v = some (r, v') := by
  induction fuel generalizing T v c with
  | zero =>
    have := card_free_le g T
    omega
  | succ fuel ih =>
    rw [removeLoop]
    obtain ⟨⟨val, v₁⟩, hget, hv₁, -, hval⟩ := (hv.get ht hc).result hM
    rw [hget]
    simp only [Option.bind_eq_bind, Option.bind_some]
    split_ifs with h0 h1 herr
    · exact ⟨_, _, rfl⟩
    · exact ⟨_, _, rfl⟩
    · exact ⟨_, _, rfl⟩
    · obtain ⟨⟨r, v₂⟩, hput, x, hv₂, -, hcases⟩ := (hv₁.put ht hc 0).result hM
      obtain rfl : val = T c := hval.resolve_right fun hbad => herr hbad.1
      rw [hput]
      simp only [Option.bind_some]
      rcases hcases with ⟨rfl, rfl⟩ | ⟨rfl, -⟩
      · rw [if_neg (not_not.mpr rfl)]
        split_ifs with hnext
        · have hv₃ := hv₂.setHints (v₂.fs.toHints.freed v₂.fs.nFatent)
          rw [held_zero] at hv₃
          rw [hv₃.nFatent] at hnext
          refine ih hv₃ ⟨by bv_omega, hnext⟩ ?_
          have hcard : (g.free (Function.update T c 0)).card = (g.free T).card + 1 := by
            refine card_free_add (List.nodup_singleton c) (fun d hd => ?_) fun d hd => ?_
            · obtain rfl := List.mem_singleton.mp hd
              exact ⟨hc, h0, Function.update_self ..⟩
            · rw [Function.update_of_ne (List.ne_of_not_mem_cons hd)]
          omega
        · exact ⟨_, _, rfl⟩
      · exact ⟨_, _, rfl⟩

theorem removeChain_returns (hM : M.Answers) (ht : g.Table M.limit)
    (hv : HasTable M g P base T v) (clst pclst : BitVec 32) :
    ∃ r v', removeChain D clst pclst v = some (r, v') := by
  have hloop : ∀ {T v}, HasTable M g P base T v → g.Cluster clst →
      ∃ r v', removeLoop D v.fs.nFatent.toNat clst v = some (r, v') := by
    intro T v hv hc
    refine removeLoop_returns hM ht hv hc ?_
    have hlt : clst.toNat < g.nFatent.toNat := hc.2
    rw [hv.nFatent]
    omega
  rw [removeChain]
  split_ifs with hbad hp
  · exact ⟨_, _, rfl⟩
  · have hc : g.Cluster clst := ⟨by bv_omega, by have := hv.nFatent; bv_omega⟩
    by_cases hpc : g.Cluster pclst
    · obtain ⟨⟨res, v₁⟩, hput, x, hv₁, -, -⟩ := (hv.put ht hpc 0xFFFFFFFF).result hM
      rw [hput]
      simp only [Option.bind_eq_bind, Option.bind_some]
      split_ifs
      · exact ⟨_, _, rfl⟩
      · exact hloop hv₁ hc
    · rw [hv.put_outside hpc]
      exact ⟨_, _, rfl⟩
  · exact hloop hv ⟨by bv_omega, by have := hv.nFatent; bv_omega⟩

theorem createChain_returns (hM : M.Answers) (ht : g.Table M.limit) (hn3 : 2 < g.nFatent.toNat)
    (hv : HasTable M g P base T v) (clst : BitVec 32) :
    ∃ n v', createChain D clst v = some (n, v') := by
  by_cases hclst : clst ≠ 0 → g.Cluster clst
  · obtain ⟨⟨n, v'⟩, h⟩ := (createChain_spec ht hn3 hv hclst).returns hM
    exact ⟨n, v', h⟩
  · -- outside the FAT `get_fat` returns 1
    obtain ⟨hne, hc⟩ := not_forall.mp hclst
    rw [createChain, if_neg hne, hv.get_outside hc]
    exact ⟨_, _, rfl⟩

/-- Whatever the FAT holds and whichever clusters they are called with, `remove_chain` and
`create_chain` return on a drive that answers: their loops end after at most as many turns as
the FAT has entries, even when chains are circular or run into each other. -/
theorem chains_return (hM : M.Answers) (ht : g.Table M.limit) (hn3 : 2 < g.nFatent.toNat)
    (hv : HasTable M g P base T v) (clst pclst : BitVec 32) :
    (∃ r v', removeChain D clst pclst v = some (r, v')) ∧
      ∃ n v', createChain D clst v = some (n, v') :=
  ⟨removeChain_returns hM ht hv clst pclst, createChain_returns hM ht hn3 hv clst⟩

end Returning

/-- The FAT of a diskette with zeros outside it. -/
abbrev DisketteTable (T : BitVec 32 → BitVec 32) (v : Vol (Lba → Sector)) : Prop :=
  HasTable ramMedia diskette (fun _ => False) (fun _ _ => 0) T v

theorem zeroDiskette_hasTable :
    DisketteTable (diskette.entry fun _ _ => 0) zeroDiskette :=
  ⟨_, zeroDiskette_shows, fun _ _ => rfl, fun _ => rfl, fun _ hq => hq.elim⟩

/-- An entry that is written on a drive without failures. -/
theorem diskette_entry {P : Lba → Prop} {base : Lba → Sector} {T : BitVec 32 → BitVec 32}
    {v : Vol (Lba → Sector)} (hv : HasTable ramMedia diskette P base T v) {c : BitVec 32}
    (hc : diskette.Cluster c) (val : BitVec 32) :
    ∃ v', HasTable ramMedia diskette P base (Function.update T c (diskette.fsType.held val)) v' ∧
      v'.fs.toHints = v.fs.toHints := by
  obtain ⟨⟨r, v'⟩, -, x, hv', hhints, ⟨-, rfl⟩ | ⟨-, hbad⟩⟩ :=
    (hv.put diskette_table hc val).result ramMedia_reliable.answers
  · exact ⟨v', hv', hhints⟩
  · exact absurd ramMedia_reliable hbad

/-- Clusters 2 and 3 lead to each other. -/
theorem circle_is_removed : ∃ T v r v', DisketteTable T v ∧
    T 2 = 3 ∧ T 3 = 2 ∧ removeChain ramDrive 2 0 v = some (r, v') := by
  obtain ⟨v₁, hv₁, -⟩ := diskette_entry zeroDiskette_hasTable (c := 2) (by decide) 3
  obtain ⟨v, hv, -⟩ := diskette_entry hv₁ (c := 3) (by decide) 2
  obtain ⟨⟨r, v', h⟩, -⟩ := chains_return ramMedia_reliable.answers diskette_table
    (by decide) hv 2 0
  exact ⟨_, v, r, v', hv, rfl, rfl, h⟩

/-! ## The abstract allocator -/

/-- What is known of the clusters of the files: nothing after a disk error. -/
abbrev Files (ι : Type) : Type := ι → Option (List (BitVec 32))

/-- No file has the cluster `d`. -/
def Nobody {ι : Type} (files : Files ι) (d : BitVec 32) : Prop :=
  ∀ i l, files i = some l → d ∉ l

/-- A table, the files whose chains are in it, and the allocation information. -/
structure Allocation (ι : Type) where
  files : Files ι
  table : BitVec 32 → BitVec 32
  hints : Hints

/-- One operation on one file. -/
inductive TableStep {ι : Type} [DecidableEq ι] (g : Geometry) (reliable : Prop) :
    Allocation ι → Allocation ι → Prop
  /-- a free cluster becomes the end of the file -/
  | took {files : Files ι} {T T' : BitVec 32 → BitVec 32} {h : Hints} {i : ι}
      {l : List (BitVec 32)} {n : BitVec 32} (hi : files i = some l) (hn : g.Cluster n)
      (hfree : T n = 0) (hnew : g.Eoc (T' n)) (hlink : ∀ x ∈ l.getLast?, T' x = n)
      (hother : ∀ d, d ≠ n → d ∉ l.getLast? → T' d = T d) :
      TableStep g reliable ⟨files, T, h⟩
        ⟨Function.update files i (some (l ++ [n])), T', h.taken g.nFatent n⟩
  /-- there is none -/
  | refused {a : Allocation ι}
      (hwhy : a.hints.freeClst = 0 ∨ Full g a.table ∨ ∃ d, g.Cluster d ∧ a.table d = 1) :
      TableStep g reliable a a
  /-- the end of the file becomes free -/
  | cut {files : Files ι} {T T' : BitVec 32 → BitVec 32} {h : Hints} {i : ι}
      {pre post : List (BitVec 32)} (hi : files i = some (pre ++ post))
      (hend : ∀ x ∈ pre.getLast?, g.Eoc (T' x)) (hzero : ∀ d ∈ post, T' d = 0)
      (hother : ∀ d, d ∉ pre.getLast? → d ∉ post → T' d = T d) :
      TableStep g reliable ⟨files, T, h⟩
        ⟨Function.update files i (some pre), T', (Hints.freed g.nFatent)^[post.length] h⟩
  /-- a disk error on the way -/
  | lost {files : Files ι} {T T' : BitVec 32 → BitVec 32} {h h' : Hints} {i : ι}
      {l : List (BitVec 32)} (hi : files i = some l) (hrel : ¬ reliable)
      (hother : ∀ d, d ∉ l → T d ≠ 0 → T' d = T d) :
      TableStep g reliable ⟨files, T, h⟩ ⟨Function.update files i none, T', h'⟩

section Abstract

variable {ι : Type} {g : Geometry} {reliable : Prop} {a a' : Allocation ι}
  {T : BitVec 32 → BitVec 32} {files files' : Files ι} {i : ι} {d : BitVec 32}

/-- The chains of the files are in the table. -/
abbrev Allocation.Owned (g : Geometry) (a : Allocation ι) : Prop :=
  Foundation.Owned a.table g.Cluster g.Eoc a.files

theorem used_of_mem {l : List (BitVec 32)} {c : BitVec 32} (hl : Linked T g.Cluster g.Eoc l)
    (hc : c ∈ l) : T c ≠ 0 := by
  intro hzero
  rcases hl.next_of_mem hc with hnext | hnext
  · have hlow : 2 ≤ T c := hnext.1
    bv_omega
  · have hhigh : g.nFatent ≤ T c := hnext
    have hlt := (hl.live_of_mem hc).2
    bv_omega

/-- Every cluster is accounted for: no file is damaged, a cluster that is in use belongs to a
file or was in use before, by nobody, in the table `T₀`, and the free ones are counted. -/
structure Accounted (g : Geometry) (files₀ : Files ι) (T₀ : BitVec 32 → BitVec 32)
    (a : Allocation ι) : Prop where
  known : ∀ i, a.files i ≠ none
  used : ∀ d, g.Cluster d → a.table d ≠ 0 → Nobody a.files d → T₀ d ≠ 0 ∧ Nobody files₀ d
  valid : ∀ d, g.Cluster d → a.table d ≠ 1
  count : a.hints.Counts g.nFatent (g.free a.table).card

/-- Then a cluster is refused only when none is free. -/
theorem Accounted.full {files₀ : Files ι} {T₀ : BitVec 32 → BitVec 32}
    (ha : Accounted g files₀ T₀ a)
    (hwhy : a.hints.freeClst = 0 ∨ Full g a.table ∨ ∃ d, g.Cluster d ∧ a.table d = 1) :
    Full g a.table := by
  rcases hwhy with hnone | hfull | ⟨d, hc, hone⟩
  · intro d hc hzero
    have hmem : d ∈ g.free a.table := Geometry.mem_free.mpr ⟨hc, hzero⟩
    have hpos := Finset.card_pos.mpr ⟨d, hmem⟩
    rcases ha.count with hexact | hunknown
    · rw [hnone] at hexact
      exact absurd hexact.symm (Nat.pos_iff_ne_zero.mp hpos)
    · rw [hnone] at hunknown
      exact absurd hunknown BitVec.not_lt_zero
  · exact hfull
  · exact absurd hone (ha.valid d hc)

variable [DecidableEq ι]

theorem Nobody.update (hd : Nobody files d) {o : Option (List (BitVec 32))}
    (ho : ∀ l, o = some l → d ∉ l) : Nobody (Function.update files i o) d := by
  intro j l hj
  by_cases hij : j = i
  · subst hij
    rw [Function.update_self] at hj
    exact ho l hj
  · rw [Function.update_of_ne hij] at hj
    exact hd j l hj

/-- No step lets the chain of one file run into another's. -/
theorem TableStep.owned (hstep : TableStep g reliable a a') (ho : a.Owned g) : a'.Owned g := by
  have hend : ∀ e, g.Eoc e → ¬ g.Cluster e := fun e he => he.not_cluster
  cases hstep with
  | took hi hn hfree hnew hlink hother =>
    refine Owned.grow ho hend hi hn (fun j l' hj hmem => ?_) hnew hlink hother
    exact used_of_mem (ho.linked j l' hj) hmem hfree
  | refused => exact ho
  | cut hi hcut hzero hother => exact Owned.cut ho hend hi hcut hother
  | lost hi hrel hother =>
    refine Owned.lose ho fun j l' hj hown x hx => hother x ?_ (used_of_mem (ho.linked j l' hown) hx)
    exact fun hmem => ho.apart j _ l' _ hj hown hi hx hmem

/-- Clusters that are in use and belong to none of the files are left alone. -/
theorem TableStep.foreign (hstep : TableStep g reliable a a') (hused : a.table d ≠ 0)
    (hd : Nobody a.files d) : a'.table d = a.table d ∧ Nobody a'.files d := by
  cases hstep with
  | took hi hn hfree hnew hlink hother =>
    have hne : d ≠ _ := fun heq => hused (heq ▸ hfree)
    refine ⟨hother d hne fun hlast => hd _ _ hi (List.mem_of_getLast? hlast), hd.update ?_⟩
    rintro l ⟨⟩ hmem
    rcases List.mem_append.mp hmem with hmem | hmem
    · exact hd _ _ hi hmem
    · exact hne (List.mem_singleton.mp hmem)
  | refused => exact ⟨rfl, hd⟩
  | cut hi hcut hzero hother =>
    have hnot := hd _ _ hi
    rw [List.mem_append, not_or] at hnot
    refine ⟨hother d (fun hlast => hnot.1 (List.mem_of_getLast? hlast)) hnot.2, hd.update ?_⟩
    rintro l ⟨⟩
    exact hnot.1
  | lost hi hrel hother => exact ⟨hother d (hd _ _ hi) hused, hd.update fun l hl => nomatch hl⟩

theorem Nobody.of_update {l l' : List (BitVec 32)} (hi : files i = some l)
    (hd : Nobody (Function.update files i (some l')) d) (hl : d ∉ l' → d ∉ l) :
    d ∉ l' ∧ Nobody files d := by
  have hself := hd i l' (Function.update_self ..)
  refine ⟨hself, fun j k hj => ?_⟩
  by_cases hij : j = i
  · subst hij
    obtain rfl : l = k := Option.some.inj (hi.symm.trans hj)
    exact hl hself
  · exact hd j k (by rwa [Function.update_of_ne hij])

theorem known_update (hknown : ∀ i, files i ≠ none) (l : List (BitVec 32)) (j : ι) :
    Function.update files i (some l) j ≠ none := by
  by_cases hij : j = i
  · rw [hij, Function.update_self]
    exact Option.some_ne_none l
  · rw [Function.update_of_ne hij]
    exact hknown j

theorem Geometry.Eoc.two_lt (hn3 : 2 < g.nFatent.toNat) (hd : g.Eoc d) : 2 < d := by
  have hge : g.nFatent ≤ d := hd
  bv_omega

variable {files₀ : Files ι} {T₀ T' : BitVec 32 → BitVec 32} {h : Hints}

theorem Accounted.took {l : List (BitVec 32)} {n : BitVec 32} (hn3 : 2 < g.nFatent.toNat)
    (ha : Accounted g files₀ T₀ ⟨files, T, h⟩) (hl : Linked T g.Cluster g.Eoc l)
    (hi : files i = some l) (hn : g.Cluster n) (hfree : T n = 0) (hnew : g.Eoc (T' n))
    (hlink : ∀ x ∈ l.getLast?, T' x = n) (hother : ∀ d, d ≠ n → d ∉ l.getLast? → T' d = T d) :
    Accounted g files₀ T₀
      ⟨Function.update files i (some (l ++ [n])), T', h.taken g.nFatent n⟩ where
  known := known_update ha.known _
  used := by
    intro d hc hused hd
    obtain ⟨hmem, hnobody⟩ := hd.of_update hi fun hmem hl => hmem (List.mem_append_left _ hl)
    rw [List.mem_append, List.mem_singleton, not_or] at hmem
    have hsame := hother d hmem.2 fun hlast => hmem.1 (List.mem_of_getLast? hlast)
    exact ha.used d hc (fun hzero => hused (hsame.trans hzero)) hnobody
  valid := by
    intro d hc
    show T' d ≠ 1
    by_cases hdn : d = n
    · have := hnew.two_lt hn3
      rw [hdn]
      bv_omega
    · by_cases hlast : d ∈ l.getLast?
      · have := hn.1
        rw [hlink d hlast]
        bv_omega
      · rw [hother d hdn hlast]
        exact ha.valid d hc
  count := by
    have hcard : (g.free T).card = (g.free T').card + 1 := by
      refine card_free_add (T := T') (List.nodup_singleton n) (fun d hd => ?_) fun d hd => ?_
      · obtain rfl := List.mem_singleton.mp hd
        have := hnew.two_lt hn3
        exact ⟨hn, by bv_omega, hfree⟩
      · rw [List.mem_singleton] at hd
        by_cases hlast : d ∈ l.getLast?
        · have := hn.1
          have hused := used_of_mem hl (List.mem_of_getLast? hlast)
          rw [hlink d hlast]
          exact iff_of_false hused (by bv_omega)
        · rw [hother d hd hlast]
    have hcount : h.Counts g.nFatent (g.free T).card := ha.count
    rw [hcard] at hcount
    exact hcount.taken (hcard ▸ card_free_le g T)

theorem Accounted.cut {pre post : List (BitVec 32)} (hn3 : 2 < g.nFatent.toNat)
    (ha : Accounted g files₀ T₀ ⟨files, T, h⟩) (hl : Linked T g.Cluster g.Eoc (pre ++ post))
    (hi : files i = some (pre ++ post)) (hend : ∀ x ∈ pre.getLast?, g.Eoc (T' x))
    (hzero : ∀ d ∈ post, T' d = 0)
    (hother : ∀ d, d ∉ pre.getLast? → d ∉ post → T' d = T d) :
    Accounted g files₀ T₀
      ⟨Function.update files i (some pre), T', (Hints.freed g.nFatent)^[post.length] h⟩ where
  known := known_update ha.known _
  used := by
    intro d hc hused hd
    have hpost : d ∉ post := fun hmem => hused (hzero d hmem)
    obtain ⟨hpre, hnobody⟩ := hd.of_update hi fun hpre hmem =>
      (List.mem_append.mp hmem).elim hpre hpost
    have hsame := hother d (fun hlast => hpre (List.mem_of_getLast? hlast)) hpost
    exact ha.used d hc (fun hzero => hused (hsame.trans hzero)) hnobody
  valid := by
    intro d hc
    show T' d ≠ 1
    by_cases hlast : d ∈ pre.getLast?
    · have := (hend d hlast).two_lt hn3
      bv_omega
    · by_cases hpost : d ∈ post
      · rw [hzero d hpost]
        decide
      · rw [hother d hlast hpost]
        exact ha.valid d hc
  count := by
    have hcard : (g.free T').card = (g.free T).card + post.length := by
      have hnodup := hl.nodup fun e (he : g.Eoc e) => he.not_cluster
      refine card_free_add (List.nodup_append.mp hnodup).2.1 (fun d hd => ?_) fun d hd => ?_
      · have hmem := List.mem_append_right pre hd
        exact ⟨hl.live_of_mem hmem, used_of_mem hl hmem, hzero d hd⟩
      · by_cases hlast : d ∈ pre.getLast?
        · have hused := used_of_mem hl (List.mem_append_left _ (List.mem_of_getLast? hlast))
          have := (hend d hlast).two_lt hn3
          exact iff_of_false (by bv_omega) hused
        · rw [hother d hlast hd]
    have hcount : h.Counts g.nFatent (g.free T).card := ha.count
    have hle := card_free_le g T'
    rw [hcard] at hle
    show Hints.Counts _ (g.free T').card _
    rw [hcard]
    exact hcount.freed_iterate hle

/-- Without disk errors every cluster stays accounted for. -/
theorem TableStep.accounted (hn3 : 2 < g.nFatent.toNat) (hrel : reliable)
    (hstep : TableStep g reliable a a') (ho : a.Owned g) (ha : Accounted g files₀ T₀ a) :
    Accounted g files₀ T₀ a' := by
  cases hstep with
  | took hi hn hfree hnew hlink hother =>
    exact ha.took hn3 (ho.linked _ _ hi) hi hn hfree hnew hlink hother
  | refused => exact ha
  | cut hi hend hzero hother => exact ha.cut hn3 (ho.linked _ _ hi) hi hend hzero hother
  | lost hi hbad => exact absurd hrel hbad

theorem foreign_run (hrun : Relation.ReflTransGen (TableStep g reliable) a a')
    (hused : a.table d ≠ 0) (hd : Nobody a.files d) :
    a'.table d = a.table d ∧ Nobody a'.files d := by
  induction hrun with
  | refl => exact ⟨rfl, hd⟩
  | tail _ hstep ih =>
    obtain ⟨hsame, hd'⟩ := ih
    obtain ⟨hsame', hd''⟩ := hstep.foreign (hsame ▸ hused) hd'
    exact ⟨hsame'.trans hsame, hd''⟩

theorem owned_run (hrun : Relation.ReflTransGen (TableStep g reliable) a a') (ho : a.Owned g) :
    a'.Owned g := by
  induction hrun with
  | refl => exact ho
  | tail _ hstep ih => exact hstep.owned ih

theorem accounted_run (hn3 : 2 < g.nFatent.toNat) (hrel : reliable)
    (hrun : Relation.ReflTransGen (TableStep g reliable) a a') (ho : a.Owned g)
    (ha : Accounted g files₀ T₀ a) : Accounted g files₀ T₀ a' := by
  induction hrun with
  | refl => exact ha
  | tail hrun hstep ih => exact hstep.accounted hn3 hrel (owned_run hrun ho) ih

end Abstract

/-! ## The functions take its steps -/

/-- The clusters of a file after `create_chain` has returned `n` for it. -/
def grown (n : BitVec 32) (l : List (BitVec 32)) : Option (List (BitVec 32)) :=
  if n = 0xFFFFFFFF then none else if n < 2 then some l else some (l ++ [n])

/-- A file is lengthened by a cluster, or loses its clusters from one of them on.  The callers
pass the last cluster of what the file has or keeps, and 0 if there is none. -/
inductive FileStep {σ ι : Type} [DecidableEq ι] (D : Drive σ) :
    Files ι × Vol σ → Files ι × Vol σ → Prop
  | grow {files : Files ι} {v v' : Vol σ} {i : ι} {l : List (BitVec 32)} {n : BitVec 32}
      (hi : files i = some l) (h : createChain D (l.getLast?.getD 0) v = some (n, v')) :
      FileStep D (files, v) (Function.update files i (grown n l), v')
  | cut {files : Files ι} {v v' : Vol σ} {i : ι} {pre post : List (BitVec 32)} {c : BitVec 32}
      {r : Fresult} (hi : files i = some (pre ++ c :: post))
      (h : removeChain D c (pre.getLast?.getD 0) v = some (r, v')) :
      FileStep D (files, v) (Function.update files i (if r = .ok then some pre else none), v')

section Refinement

variable {σ ι : Type} [DecidableEq ι] {D : Drive σ} {M : Media D} {g : Geometry} {P : Lba → Prop}
  {base : Lba → Sector} {T : BitVec 32 → BitVec 32} {v v' : Vol σ} {files files' : Files ι}
  {i : ι} {l pre post : List (BitVec 32)} {c n : BitVec 32} {r : Fresult}

/-- The cluster that a caller of `create_chain` passes for the chain `l`. -/
theorem lastCluster_cases (hl : Linked T g.Cluster g.Eoc l) :
    l = [] ∧ l.getLast?.getD 0 = 0 ∨ ∃ x, l.getLast? = some x ∧ l.getLast?.getD 0 = x ∧ x ≠ 0 ∧
      x ∈ l ∧ g.Cluster x ∧ g.Eoc (T x) := by
  rcases List.eq_nil_or_concat' l with rfl | ⟨pre, x, rfl⟩
  · exact Or.inl ⟨rfl, rfl⟩
  · have hmem : x ∈ pre ++ [x] := List.mem_append_right pre (List.mem_singleton.mpr rfl)
    have hx := hl.live_of_mem hmem
    have hne : x ≠ 0 := by
      have := hx.1
      bv_omega
    exact Or.inr ⟨x, List.getLast?_concat, by rw [List.getLast?_concat]; rfl, hne, hmem, hx,
      hl.fin_last⟩

theorem lastCluster_ne_zero (hl : Linked T g.Cluster g.Eoc l) (hne : l.getLast?.getD 0 ≠ 0) :
    l.getLast?.getD 0 ∈ l ∧ g.Cluster (l.getLast?.getD 0) ∧ g.Eoc (T (l.getLast?.getD 0)) := by
  obtain ⟨-, hzero⟩ | ⟨x, -, heq, -, hmem⟩ := lastCluster_cases hl
  · exact absurd hzero hne
  · rwa [heq]

theorem removeChain_spec (ht : g.Table M.limit) (hv : HasTable M g P base T v)
    (hl : Linked T g.Cluster g.Eoc (pre ++ c :: post))
    (h : removeChain D c (pre.getLast?.getD 0) v = some (r, v')) :
    ∃ T', HasTable M g P base T' v' ∧
      (∀ d, d ∉ pre.getLast? → d ∉ c :: post → T' d = T d) ∧
      (r = .ok ∧ (∀ x ∈ pre.getLast?, g.Eoc (T' x)) ∧ (∀ d ∈ c :: post, T' d = 0) ∧
          v'.fs.toHints = (Hints.freed g.nFatent)^[(c :: post).length] v.fs.toHints ∨
        r = .diskErr ∧ ¬ M.Reliable) := by
  obtain ⟨y, hy⟩ : ∃ y, y ∈ (pre ++ c :: post).head? := by cases pre <;> exact ⟨_, rfl⟩
  obtain ⟨e, hleads, he⟩ := hl y hy
  have hnodup := hl.nodup fun e (he : g.Eoc e) => he.not_cluster
  obtain ⟨d, -, hrest⟩ := Leads.append_iff.mp hleads
  obtain rfl : c = d := hrest.1
  rcases List.eq_nil_or_concat' pre with rfl | ⟨pre, x, rfl⟩
  · obtain ⟨T', hv', hother, hcases⟩ :=
      removeChain_whole ht he hv (List.cons_ne_nil c post) hrest h
    refine ⟨T', hv', fun d _ hd => hother d hd, hcases.imp_left fun ⟨hr, hzero, hhints⟩ =>
      ⟨hr, fun x hx => ?_, hzero, hhints⟩⟩
    cases hx
  · have hx : g.Cluster x := hl.live_of_mem (by simp)
    have hxrest : x ∉ c :: post := fun hmem =>
      (List.nodup_append.mp hnodup).2.2 x (by simp) x hmem rfl
    simp only [List.getLast?_append, List.getLast?_singleton, Option.some_or, Option.getD_some] at h
    obtain ⟨T', hv', hother, hcases⟩ :=
      removeChain_after ht he hv (List.cons_ne_nil c post) hx hxrest hrest h
    simp only [List.getLast?_append, List.getLast?_singleton, Option.some_or, Option.mem_some]
    exact ⟨T', hv', fun d hd => hother d (Ne.symm hd), hcases.imp_left
      fun ⟨hr, hend, hzero, hhints⟩ => ⟨hr, fun y hy => hy ▸ hend, hzero, hhints⟩⟩

/-- The value that `create_chain` returns for a file. -/
theorem createChain_value (ht : g.Table M.limit) (hn3 : 2 < g.nFatent.toNat)
    (hv : HasTable M g P base T v) (hl : Linked T g.Cluster g.Eoc l)
    (h : createChain D (l.getLast?.getD 0) v = some (n, v')) :
    g.Cluster n ∧ T n = 0 ∨
      (n = 0 ∧ (v.fs.freeClst = 0 ∨ Full g T) ∧ HasTable M g P base T v' ∧
        v'.fs.toHints = v.fs.toHints) ∨
      (n = 1 ∧ ∃ d, g.Cluster d ∧ T d = 1) ∨ n = 0xFFFFFFFF ∧ ¬ M.Reliable := by
  have hclst := lastCluster_ne_zero hl
  have hcreated := (createChain_spec ht hn3 hv fun hne => (hclst hne).2.1).post _ h
  generalize l.getLast?.getD 0 = clst at hclst hcreated
  cases hcreated with
  | took hn hfree => exact Or.inl ⟨hn, hfree⟩
  | followed hne hn => exact absurd hn (hclst hne).2.2.not_cluster
  | full hv' hhints hfull => exact Or.inr (Or.inl ⟨rfl, hfull, hv', hhints⟩)
  | broken _ _ hbad =>
    refine Or.inr (Or.inr (Or.inl ⟨rfl, hbad.resolve_left fun ⟨hne, hlow⟩ => ?_⟩))
    have := (hclst hne).2.2.two_lt hn3
    bv_omega
  | failed _ hrel => exact Or.inr (Or.inr (Or.inr ⟨rfl, hrel⟩))

/-- The clusters that `create_chain` gives to a file, as a step of the allocator. -/
theorem createChain_step (ht : g.Table M.limit) (hn3 : 2 < g.nFatent.toNat)
    (hv : HasTable M g P base T v) (ho : Owned T g.Cluster g.Eoc files) (hi : files i = some l)
    (h : createChain D (l.getLast?.getD 0) v = some (n, v')) :
    ∃ T', HasTable M g P base T' v' ∧ TableStep g M.Reliable ⟨files, T, v.fs.toHints⟩
      ⟨Function.update files i (grown n l), T', v'.fs.toHints⟩ := by
  have hl := ho.linked i l hi
  have hself : Function.update files i (some l) = files := by rw [← hi, Function.update_eq_self]
  have hclst := lastCluster_ne_zero hl
  have hlast := lastCluster_cases hl
  generalize l.getLast?.getD 0 = clst at h hclst hlast
  have hother_of : ∀ d, d ∉ l.getLast? → d = clst → clst = 0 := by
    rintro d hd rfl
    obtain ⟨-, hzero⟩ | ⟨x, hx, rfl, -⟩ := hlast
    · exact hzero
    · exact absurd hx hd
  have hcreated := (createChain_spec ht hn3 hv fun hne => (hclst hne).2.1).post _ h
  cases hcreated with
  | @took n v' T' hn hfree hend hv' hnew hlink hother hhints =>
    have hgrown : grown n l = some (l ++ [n]) := by
      obtain ⟨hlow, hhigh⟩ := hn
      have := ht.nFatent_lt
      rw [grown, if_neg (by bv_omega), if_neg (by bv_omega)]
    rw [hgrown, hhints]
    refine ⟨T', hv', .took hi hn hfree hnew (fun x hx => ?_) fun d hdn hd =>
      hother d hdn (hother_of d hd)⟩
    obtain ⟨rfl, -⟩ | ⟨y, hy, rfl, hne, -⟩ := hlast
    · cases hx
    · rw [← Option.some.inj (hy.symm.trans hx)]
      exact hlink hne
  | followed hne hn => exact absurd hn (hclst hne).2.2.not_cluster
  | full hv' hhints hfull =>
    rw [hhints, grown, if_neg (by decide), if_pos (by decide), hself]
    exact ⟨T, hv', .refused (hfull.imp_right Or.inl)⟩
  | broken hv' hhints hbad =>
    rw [hhints, grown, if_neg (by decide), if_pos (by decide), hself]
    refine ⟨T, hv', .refused (Or.inr (Or.inr (hbad.resolve_left fun ⟨hne, hlow⟩ => ?_)))⟩
    have := (hclst hne).2.2.two_lt hn3
    bv_omega
  | failed hv' hrel hother =>
    rw [grown, if_pos rfl]
    refine ⟨_, hv', .lost hi hrel fun d hd hused => hother d (hother_of d fun hmem => ?_) hused⟩
    exact hd (List.mem_of_getLast? hmem)

theorem FileStep.table (ht : g.Table M.limit) (hn3 : 2 < g.nFatent.toNat)
    (hstep : FileStep D (files, v) (files', v')) (hv : HasTable M g P base T v)
    (ho : Owned T g.Cluster g.Eoc files) :
    ∃ T', HasTable M g P base T' v' ∧
      TableStep g M.Reliable ⟨files, T, v.fs.toHints⟩ ⟨files', T', v'.fs.toHints⟩ := by
  cases hstep with
  | grow hi h => exact createChain_step ht hn3 hv ho hi h
  | cut hi h =>
    obtain ⟨T', hv', hother, ⟨rfl, hend, hzero, hhints⟩ | ⟨rfl, hrel⟩⟩ :=
      removeChain_spec ht hv (ho.linked _ _ hi) h
    · rw [if_pos rfl, hhints]
      exact ⟨T', hv', .cut hi hend hzero hother⟩
    · rw [if_neg (by decide)]
      refine ⟨T', hv', .lost hi hrel fun d hd _ => ?_⟩
      rw [List.mem_append, not_or] at hd
      exact hother d (fun hlast => hd.1 (List.mem_of_getLast? hlast)) hd.2

/-- The steps of the functions, over a whole run. -/
theorem fileRun_table (ht : g.Table M.limit) (hn3 : 2 < g.nFatent.toNat)
    (hrun : Relation.ReflTransGen (FileStep D) (files, v) (files', v'))
    (hv : HasTable M g P base T v) (ho : Owned T g.Cluster g.Eoc files) :
    ∃ T', HasTable M g P base T' v' ∧ Owned T' g.Cluster g.Eoc files' ∧
      Relation.ReflTransGen (TableStep g M.Reliable) ⟨files, T, v.fs.toHints⟩
        ⟨files', T', v'.fs.toHints⟩ := by
  generalize hend : (files', v') = b at hrun
  induction hrun generalizing files' v' with
  | refl =>
    cases hend
    exact ⟨T, hv, ho, .refl⟩
  | @tail b c hrun hstep ih =>
    subst hend
    obtain ⟨T₁, hv₁, ho₁, hrun₁⟩ := ih rfl
    obtain ⟨T', hv', hstep'⟩ := FileStep.table ht hn3 hstep hv₁ ho₁
    exact ⟨T', hv', hstep'.owned ho₁, hrun₁.tail hstep'⟩

/-- However files are lengthened and cut, and whichever disk calls fail on the way, the files
that were not being worked on when a call failed have their clusters in the order that the FAT
gives; no cluster is in two files; a cluster that was in use by none of them keeps its entry
and comes to none of them; and nothing outside the FAT has changed. -/
theorem files_stay_apart (ht : g.Table M.limit) (hn3 : 2 < g.nFatent.toNat)
    (hv : HasTable M g P base T v) (ho : Owned T g.Cluster g.Eoc files)
    (hrun : Relation.ReflTransGen (FileStep D) (files, v) (files', v')) :
    ∃ T', HasTable M g P base T' v' ∧ Owned T' g.Cluster g.Eoc files' ∧
      ∀ d, T d ≠ 0 → Nobody files d → T' d = T d ∧ Nobody files' d := by
  obtain ⟨T', hv', ho', hrun'⟩ := fileRun_table ht hn3 hrun hv ho
  refine ⟨T', hv', ho', fun d hused hd => ?_⟩
  exact foreign_run hrun' hused hd

end Refinement

theorem entry_zero (g : Geometry) (c : BitVec 32) : g.entry (fun _ _ => 0) c = 0 := by
  have hzero : streamField (g.fatBytes fun _ _ => 0) (g.fsType.width * c.toNat) g.fsType.bits =
      0#g.fsType.bits := by
    apply BitVec.eq_of_getLsbD_eq
    intro i hi
    rw [getLsbD_streamField _ _ hi, streamBit, Geometry.fatBytes, byteAt, ite_self,
      BitVec.getLsbD_zero, BitVec.ofNat_eq_ofNat, BitVec.getLsbD_zero]
  rw [Geometry.entry, hzero, BitVec.setWidth_zero]
  rfl

/-- A diskette with a free cluster and an unknown number of them. -/
structure DisketteRoom (T : BitVec 32 → BitVec 32) (v : Vol (Lba → Sector)) : Prop where
  table : DisketteTable T v
  valid : ∀ d, diskette.Cluster d → T d ≠ 1
  unknown : diskette.nFatent - 2 < v.fs.freeClst
  free : ∃ d, diskette.Cluster d ∧ T d = 0

/-- There a file without clusters gets one. -/
theorem DisketteRoom.grows {T : BitVec 32 → BitVec 32} {v : Vol (Lba → Sector)}
    (h : DisketteRoom T v) : ∃ n v' T', createChain ramDrive 0 v = some (n, v') ∧
      grown n [] = some [n] ∧ DisketteTable T' v' ∧ diskette.Eoc (T' n) ∧
      (∀ d, d ≠ n → T' d = T d) ∧ v'.fs.toHints = v.fs.toHints.taken diskette.nFatent n := by
  obtain ⟨⟨n, v'⟩, hcall, hcreated⟩ := (createChain_spec diskette_table (by decide) h.table
    fun hne => absurd rfl hne).result ramMedia_reliable.answers
  cases hcreated with
  | @took n v' T' hn _ _ hv' hnew _ hother hhints =>
    obtain ⟨hlow, hhigh⟩ := hn
    have := diskette_table.nFatent_lt
    refine ⟨n, v', T', hcall, ?_, hv', hnew, fun d hd => hother d hd fun _ => rfl, hhints⟩
    rw [grown, if_neg (by bv_omega), if_neg (by bv_omega)]
    rfl
  | followed hne => exact absurd rfl hne
  | full _ _ hfull =>
    obtain ⟨d, hc, hzero⟩ := h.free
    refine absurd hfull (not_or.mpr ⟨fun hnone => ?_, fun hfull => hfull d hc hzero⟩)
    exact absurd (hnone ▸ h.unknown) (by decide)
  | broken _ _ hbad =>
    obtain ⟨hne, -⟩ | ⟨d, hc, hone⟩ := hbad
    · exact absurd rfl hne
    · exact absurd hone (h.valid d hc)
  | failed _ hrel => exact absurd ramMedia_reliable hrel

/-- Two files with nothing in them. -/
def emptyFiles (_ : Bool) : Option (List (BitVec 32)) := some []

theorem emptyFiles_owned (T : BitVec 32 → BitVec 32) :
    Owned T diskette.Cluster diskette.Eoc emptyFiles where
  linked := by
    rintro i l ⟨⟩
    exact Linked.nil
  apart := by
    rintro i j l l' hij ⟨⟩ ⟨⟩ d hd
    cases hd

theorem diskette_run : ∃ n m v', Relation.ReflTransGen (FileStep ramDrive)
    (emptyFiles, zeroDiskette) (fun i => if i then some [m] else some [n], v') := by
  have hzero : ∀ d, diskette.entry (fun _ _ => 0) d = 0 := entry_zero diskette
  have hroom : DisketteRoom (diskette.entry fun _ _ => 0) zeroDiskette :=
    ⟨zeroDiskette_hasTable, fun d _ => by rw [hzero]; decide, by decide, 2, by decide, hzero 2⟩
  obtain ⟨n, v₁, T₁, h, hn, hv₁, hnew, hother, hhints⟩ := hroom.grows
  have hroom₁ : DisketteRoom T₁ v₁ := by
    refine ⟨hv₁, fun d _ => ?_, ?_, ?_⟩
    · by_cases hd : d = n
      · have := hnew.two_lt (by decide)
        rw [hd]
        bv_omega
      · rw [hother d hd, hzero]
        decide
    · have hfree := congrArg Hints.freeClst hhints
      exact hfree ▸ (by decide : diskette.nFatent - 2 < 0xFFFFFFFF)
    · by_cases hd : 2 = n
      · exact ⟨3, by decide, by rw [hother 3 (by rw [← hd]; decide), hzero]⟩
      · exact ⟨2, by decide, by rw [hother 2 hd, hzero]⟩
  obtain ⟨m, v', T', h', hm, -⟩ := hroom₁.grows
  have hfirst : FileStep ramDrive (emptyFiles, zeroDiskette)
      (Function.update emptyFiles false (grown n []), v₁) := .grow (l := []) rfl h
  have hsecond : FileStep ramDrive (Function.update emptyFiles false (grown n []), v₁)
      (Function.update (Function.update emptyFiles false (grown n [])) true (grown m []), v') :=
    .grow (l := []) rfl h'
  refine ⟨n, m, v', (Relation.ReflTransGen.single hfirst).tail ?_⟩
  convert hsecond using 2
  rw [hn, hm]
  funext i
  cases i <;> rfl

/-- They are different clusters, and both chains end with them. -/
theorem two_files_apart : ∃ n m v' T', Relation.ReflTransGen (FileStep ramDrive)
      (emptyFiles, zeroDiskette) (fun i => if i then some [m] else some [n], v') ∧
    DisketteTable T' v' ∧ n ≠ m ∧ diskette.Eoc (T' n) ∧ diskette.Eoc (T' m) := by
  obtain ⟨n, m, v', hrun⟩ := diskette_run
  obtain ⟨T', hv', ho, -⟩ := files_stay_apart diskette_table (by decide) zeroDiskette_hasTable
    (emptyFiles_owned _) hrun
  have hlinked : ∀ (i : Bool) x, (if i then some [m] else some [n]) = some ([] ++ [x]) →
      diskette.Eoc (T' x) := fun i x hi => (ho.linked i _ hi).fin_last
  refine ⟨n, m, v', T', hrun, hv', ?_, hlinked false n rfl, hlinked true m rfl⟩
  rintro rfl
  exact ho.apart false true _ _ (by decide) rfl rfl (List.mem_singleton.mpr rfl)
    (List.mem_singleton.mpr rfl)

section Accounts

variable {σ ι : Type} [DecidableEq ι] {D : Drive σ} {M : Media D} {g : Geometry} {P : Lba → Prop}
  {base : Lba → Sector} {T : BitVec 32 → BitVec 32} {v v' : Vol σ} {files files' : Files ι}

/-- On a drive without failures no cluster is lost: from files whose chains are in the FAT, with
a count of free clusters that is right or unknown, every run leaves all files whole; what is in
use and in no file was so at the start; the count is still right or unknown; and the next
`create_chain` gives a file a cluster that was free, or finds that there is none. -/
theorem clusters_accounted (ht : g.Table M.limit) (hn3 : 2 < g.nFatent.toNat)
    (hrel : M.Reliable) (hv : HasTable M g P base T v) (ho : Owned T g.Cluster g.Eoc files)
    (hknown : ∀ i, files i ≠ none) (hvalid : ∀ d, g.Cluster d → T d ≠ 1)
    (hcount : v.fs.toHints.Counts g.nFatent (g.free T).card)
    (hrun : Relation.ReflTransGen (FileStep D) (files, v) (files', v')) :
    ∃ T', HasTable M g P base T' v' ∧ Owned T' g.Cluster g.Eoc files' ∧
      Accounted g files T ⟨files', T', v'.fs.toHints⟩ ∧
      ∀ i l, files' i = some l → ∃ n v'', createChain D (l.getLast?.getD 0) v' = some (n, v'') ∧
        (g.Cluster n ∧ T' n = 0 ∨ n = 0 ∧ Full g T') := by
  obtain ⟨T', hv', ho', hrun'⟩ := fileRun_table ht hn3 hrun hv ho
  have ha' : Accounted g files T ⟨files', T', v'.fs.toHints⟩ :=
    accounted_run hn3 hrel hrun' ho ⟨hknown, fun d _ hused hd => ⟨hused, hd⟩, hvalid, hcount⟩
  refine ⟨T', hv', ho', ha', fun i l hi => ?_⟩
  obtain ⟨n, v'', h⟩ := createChain_returns hrel.answers ht hn3 hv' (l.getLast?.getD 0)
  refine ⟨n, v'', h, ?_⟩
  rcases createChain_value ht hn3 hv' (ho'.linked i l hi) h with
    hfree | ⟨rfl, hfull, -⟩ | ⟨-, d, hc, hone⟩ | ⟨-, hbad⟩
  · exact Or.inl hfree
  · exact Or.inr ⟨rfl, ha'.full (hfull.imp_right Or.inl)⟩
  · exact absurd hone (ha'.valid d hc)
  · exact absurd hrel hbad

end Accounts

/-- After the first clusters of the two files, all is accounted for and the next is free. -/
theorem third_cluster_free : ∃ n m v' T', DisketteTable T' v' ∧
    Accounted diskette emptyFiles (diskette.entry fun _ _ => 0)
      ⟨fun i => if i then some [m] else some [n], T', v'.fs.toHints⟩ ∧
    ∃ k v'', createChain ramDrive n v' = some (k, v'') ∧
      (diskette.Cluster k ∧ T' k = 0 ∨ k = 0 ∧ Full diskette T') := by
  obtain ⟨n, m, v', hrun⟩ := diskette_run
  obtain ⟨T', hv', -, ha, hnext⟩ := clusters_accounted diskette_table (by decide)
    ramMedia_reliable zeroDiskette_hasTable (emptyFiles_owned _) (fun _ => Option.some_ne_none _)
    (fun d _ => by rw [entry_zero]; decide) (Or.inr (by decide)) hrun
  exact ⟨n, m, v', T', hv', ha, hnext false [n] rfl⟩

end ChronOS.Fs
