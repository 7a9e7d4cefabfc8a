/-
  Fs/FatChains.lean --- `remove_chain` and `create_chain` of `kernel/src/fs/fat/ff.c`.

  The clusters of a file are a chain in the FAT.  `create_chain` looks for a free cluster,
  going round from a suggested one, marks it as the end of a chain and links it behind the
  last cluster of the file; `remove_chain` frees what follows a cluster.  Both keep the count
  of free clusters and may be stopped by a disk error between any two accesses to the FAT.
-/
import ChronOS.Foundation.Chains
import ChronOS.Fs.FatTable

set_option autoImplicit false

namespace ChronOS.Fs

open ChronOS.Foundation

/-! ## The functions -/

namespace Hints

/-- The count after a cluster was freed, if it is valid. -/
def freed (n : BitVec 32) (h : Hints) : Hints :=
  if h.freeClst < n - 2 then
    { h with freeClst := h.freeClst + 1, fsiFlag := h.fsiFlag ||| 1 }
  else h

/-- The allocation information after a cluster was taken. -/
def taken (n ncl : BitVec 32) (h : Hints) : Hints :=
  let h := { h with lastClst := ncl }
  if 0 < h.freeClst ∧ h.freeClst ≤ n - 2 then
    { h with freeClst := h.freeClst - 1, fsiFlag := h.fsiFlag ||| 1 }
  else h

end Hints

/-- A volume with other allocation information. -/
def Vol.setHints {σ : Type} (v : Vol σ) (h : Hints) : Vol σ :=
  { v with fs := { v.fs with toHints := h } }

section Functions

variable {σ : Type} (D : Drive σ)

/-- The loop of `remove_chain`. -/
def removeLoop : Nat → BitVec 32 → Vol σ → Option (Fresult × Vol σ)
  | 0, _, _ => none
  | fuel + 1, clst, v => do
      let (nxt, v) ← getFat D clst v
      if nxt = 0 then some (.ok, v)
      else if nxt = 1 then some (.intErr, v)
      else if nxt = 0xFFFFFFFF then some (.diskErr, v)
      else
        let (res, v) ← putFat D clst 0 v
        if res ≠ .ok then some (res, v)
        else
          let v := v.setHints (v.fs.toHints.freed v.fs.nFatent)
          if nxt < v.fs.nFatent then removeLoop fuel nxt v else some (.ok, v)

/-- `remove_chain`; `removeChain_returns` says that the fuel is enough. -/
def removeChain (clst pclst : BitVec 32) (v : Vol σ) : Option (Fresult × Vol σ) :=
  if clst < 2 ∨ v.fs.nFatent ≤ clst then some (.intErr, v)
  else if pclst ≠ 0 then do
    let (res, v) ← putFat D pclst 0xFFFFFFFF v
    if res ≠ .ok then some (res, v) else removeLoop D v.fs.nFatent.toNat clst v
  else removeLoop D v.fs.nFatent.toNat clst v

/-- How the search for a free cluster ends: with a cluster, or with a value that
`create_chain` returns. -/
inductive Scan
  | found (ncl : BitVec 32)
  | stop (val : BitVec 32)
  deriving DecidableEq, Repr

/-- The search for a free cluster. -/
def scan (scl : BitVec 32) : Nat → BitVec 32 → Vol σ → Option (Scan × Vol σ)
  | 0, _, _ => none
  | fuel + 1, ncl, v =>
      let ncl := ncl + 1
      -- the wrap-around; without a hint the search has begun at the first cluster
      if v.fs.nFatent ≤ ncl ∧ scl < 2 then some (.stop 0, v)
      else do
        let ncl := if v.fs.nFatent ≤ ncl then 2 else ncl
        let (cs, v) ← getFat D ncl v
        if cs = 0 then some (.found ncl, v)
        else if cs = 1 ∨ cs = 0xFFFFFFFF then some (.stop cs, v)
        else if ncl = scl then some (.stop 0, v)
        else scan scl fuel ncl v

/-- The link from the previous cluster, if there is one and the mark was written. -/
def linkPrevious (clst ncl : BitVec 32) (res : Fresult) (v : Vol σ) :
    Option (Fresult × Vol σ) :=
  if res = .ok ∧ clst ≠ 0 then putFat D clst ncl v else some (res, v)

/-- The end of `create_chain`: the new cluster is marked, linked and counted. -/
def claim (clst ncl : BitVec 32) (v : Vol σ) : Option (BitVec 32 × Vol σ) := do
  let (res, v) ← putFat D ncl 0xFFFFFFFF v
  let (res, v) ← linkPrevious D clst ncl res v
  if res = .ok then some (ncl, v.setHints (v.fs.toHints.taken v.fs.nFatent ncl))
  else some (if res = .diskErr then 0xFFFFFFFF else 1, v)

/-- `create_chain` from the search on; `scan_spec` says that the fuel is enough. -/
def searchAndClaim (clst scl : BitVec 32) (v : Vol σ) : Option (BitVec 32 × Vol σ) := do
  let (res, v) ← scan D scl v.fs.nFatent.toNat scl v
  match res with
  | .found ncl => claim D clst ncl v
  | .stop val => some (val, v)

/-- `create_chain` from the start cluster on. -/
def createFrom (clst scl : BitVec 32) (v : Vol σ) : Option (BitVec 32 × Vol σ) :=
  if v.fs.freeClst = 0 then some (0, v)
  else if scl = clst then do
    let ncl := scl + 1
    let ncl := if v.fs.nFatent ≤ ncl then 2 else ncl
    let (cs, v) ← getFat D ncl v
    if cs = 1 ∨ cs = 0xFFFFFFFF then some (cs, v)
    else if cs ≠ 0 then
      let cs := v.fs.lastClst
      searchAndClaim D clst (if 2 ≤ cs ∧ cs < v.fs.nFatent then cs else scl) v
    else claim D clst ncl v
  else searchAndClaim D clst scl v

/-- `create_chain`. -/
def createChain (clst : BitVec 32) (v : Vol σ) : Option (BitVec 32 × Vol σ) :=
  if clst = 0 then
    let scl := v.fs.lastClst
    createFrom D clst (if scl = 0 ∨ v.fs.nFatent ≤ scl then 1 else scl) v
  else do
    let (cs, v) ← getFat D clst v
    if cs < 2 then some (1, v)
    else if cs = 0xFFFFFFFF then some (cs, v)
    else if cs < v.fs.nFatent then some (cs, v)
    else createFrom D clst clst v

end Functions

/-! ## The table of a volume -/

section Table

variable {σ : Type} {D : Drive σ} {M : Media D} {g : Geometry} {P : Lba → Prop}
  {base : Lba → Sector} {T : BitVec 32 → BitVec 32} {v v' : Vol σ} {r : Fresult}
  {c d val : BitVec 32}

/-- The entries of the volume are `T`, outside the FAT it is `base`, and the window is over
none of the sectors `P`, which are not in the FATs: those may be transferred without it. -/
def HasTable (M : Media D) (g : Geometry) (P : Lba → Prop) (base : Lba → Sector)
    (T : BitVec 32 → BitVec 32) (v : Vol σ) : Prop :=
  ∃ img, Shows M g img v ∧ (∀ q, ¬ g.InFat q → img q = base q) ∧ (∀ c, g.entry img c = T c) ∧
    ∀ q, P q → g.Main M.limit q ∧ ¬ g.InFat q ∧ q ≠ v.fs.winsect

namespace HasTable

theorem geometry (hv : HasTable M g P base T v) : v.fs.toGeometry = g := by
  obtain ⟨img, hshows, -⟩ := hv
  exact hshows.geometry

theorem nFatent (hv : HasTable M g P base T v) : v.fs.nFatent = g.nFatent :=
  congrArg Geometry.nFatent hv.geometry

/-- Entries are no longer than 28 bits. -/
theorem lt (hv : HasTable M g P base T v) (c : BitVec 32) : (T c).toNat < 2 ^ 28 := by
  obtain ⟨img, -, -, hT, -⟩ := hv
  rw [← hT c, Geometry.entry, BitVec.toNat_setWidth]
  refine Nat.lt_of_le_of_lt (Nat.mod_le _ _) ?_
  refine Nat.lt_of_lt_of_le (BitVec.isLt _) (Nat.pow_le_pow_right (by decide) ?_)
  cases g.fsType <;> decide

/-- So none looks like a disk error. -/
theorem ne_error (hv : HasTable M g P base T v) (c : BitVec 32) : T c ≠ 0xFFFFFFFF := by
  intro heq
  have hlt := hv.lt c
  rw [heq] at hlt
  exact absurd hlt (by decide)

theorem setHints (hv : HasTable M g P base T v) (h : Hints) :
    HasTable M g P base T (v.setHints h) := by
  obtain ⟨img, hs, hout, hT, haway⟩ := hv
  exact ⟨img, ⟨hs.geometry, hs.sound, hs.elsewhere, hs.window, hs.clean, hs.dirty, hs.mirrored⟩,
    hout, hT, haway⟩

/-- The FAT is accessed without coming near those sectors. -/
theorem away {q : Lba} (hkept : Kept g v v')
    (haway : g.Main M.limit q ∧ ¬ g.InFat q ∧ q ≠ v.fs.winsect) :
    g.Main M.limit q ∧ ¬ g.InFat q ∧ q ≠ v'.fs.winsect := by
  obtain ⟨hmain, hfat, hne⟩ := haway
  refine ⟨hmain, hfat, ?_⟩
  rcases hkept.2 with hsame | hin | hinvalid
  · rwa [hsame]
  · exact fun heq => hfat (heq ▸ hin)
  · have hlt := hmain.1
    have hlimit := M.limit_lt
    rw [hinvalid]
    bv_omega

theorem get (ht : g.Table M.limit) (hv : HasTable M g P base T v) (hc : g.Cluster c) :
    Ensures M.Answers (getFat D c v) fun (val, v') =>
      HasTable M g P base T v' ∧ v'.fs.toHints = v.fs.toHints ∧
        (val = T c ∨ val = 0xFFFFFFFF ∧ ¬ M.Reliable) := by
  obtain ⟨img, hs, hout, hT, haway⟩ := hv
  refine (getFat_spec ht hs hc).imp ?_
  rintro ⟨val, v'⟩ ⟨hs', hkept, hval⟩
  exact ⟨⟨img, hs', hout, hT, fun q hq => away hkept (haway q hq)⟩, hkept.1, hT c ▸ hval⟩

theorem put (ht : g.Table M.limit) (hv : HasTable M g P base T v) (hc : g.Cluster c)
    (val : BitVec 32) : Ensures M.Answers (putFat D c val v) fun (r, v') =>
      ∃ x, HasTable M g P base (Function.update T c x) v' ∧ v'.fs.toHints = v.fs.toHints ∧
        (r = .ok ∧ x = g.fsType.held val ∨ r = .diskErr ∧ ¬ M.Reliable) := by
  obtain ⟨img, hs, hout, hT, haway⟩ := hv
  refine (putFat_entries ht hs hc val).imp ?_
  rintro ⟨r, v'⟩ ⟨img', hs', hkept, hout', hother, hcases⟩
  refine ⟨g.entry img' c, ⟨img', hs', fun q hq => (hout' q hq).trans (hout q hq), fun d => ?_,
    fun q hq => away hkept (haway q hq)⟩, hkept.1, hcases⟩
  by_cases hd : d = c
  · rw [hd, Function.update_self]
  · rw [Function.update_of_ne hd, hother d hd, hT d]

end HasTable

/-! ### Values -/

theorem held_zero (t : FsType) : t.held 0 = 0 := by cases t <;> decide

/-- The numbers of clusters fit into an entry. -/
theorem held_cluster (ht : g.Table M.limit) (hc : g.Cluster c) : g.fsType.held c = c := by
  have hlt : c.toNat < g.nFatent.toNat := hc.2
  have hentries := ht.entries
  apply BitVec.eq_of_toNat_eq
  rw [FsType.held, BitVec.toNat_setWidth, BitVec.toNat_setWidth,
    Nat.mod_eq_of_lt (show c.toNat < 2 ^ g.fsType.bits by omega), Nat.mod_eq_of_lt c.isLt]

theorem Geometry.Table.nFatent_lt (ht : g.Table M.limit) : g.nFatent.toNat < 2 ^ 28 := by
  refine Nat.lt_of_lt_of_le ht.entries (Nat.pow_le_pow_right (by decide) ?_)
  cases g.fsType <;> decide

/-- The mark for the end of a chain is no cluster. -/
theorem le_held_eoc (ht : g.Table M.limit) : g.nFatent ≤ g.fsType.held 0xFFFFFFFF := by
  have hentries := ht.entries
  rw [BitVec.le_def]
  cases htype : g.fsType with
  | none => exact absurd htype ht.known
  | fat12 =>
    rw [htype, FsType.bits] at hentries
    exact Nat.le_of_lt_succ hentries
  | fat16 =>
    rw [htype, FsType.bits] at hentries
    exact Nat.le_of_lt_succ hentries
  | fat32 =>
    rw [htype, FsType.bits] at hentries
    exact Nat.le_of_lt_succ hentries

/-! ## Removing a chain -/

/-- What one turn of the loop of `remove_chain` does. -/
theorem removeLoop_cases (ht : g.Table M.limit) (hv : HasTable M g P base T v) (hc : g.Cluster c)
    {fuel : Nat} (h : removeLoop D (fuel + 1) c v = some (r, v')) :
    (T c = 0 ∧ r = .ok ∧ HasTable M g P base T v' ∧ v'.fs.toHints = v.fs.toHints) ∨
    (T c = 1 ∧ r = .intErr ∧ HasTable M g P base T v' ∧ v'.fs.toHints = v.fs.toHints) ∨
    (r = .diskErr ∧ ¬ M.Reliable ∧ ∃ x, HasTable M g P base (Function.update T c x) v') ∨
    (2 ≤ T c ∧ ∃ v₁, HasTable M g P base (Function.update T c 0) v₁ ∧
      v₁.fs.toHints = v.fs.toHints.freed g.nFatent ∧
      (T c < g.nFatent → removeLoop D fuel (T c) v₁ = some (r, v')) ∧
      (g.nFatent ≤ T c → r = .ok ∧ v' = v₁)) := by
  rw [removeLoop] at h
  obtain ⟨⟨nxt, v₁⟩, hget, h⟩ := Option.bind_eq_some_iff.mp h
  obtain ⟨hv₁, hhints₁, rfl | ⟨rfl, hrel⟩⟩ := (hv.get ht hc).post _ hget
  · dsimp only at h
    split_ifs at h with h0 h1 herr
    · cases h
      exact Or.inl ⟨h0, rfl, hv₁, hhints₁⟩
    · cases h
      exact Or.inr (Or.inl ⟨h1, rfl, hv₁, hhints₁⟩)
    · exact absurd herr (hv.ne_error c)
    · obtain ⟨⟨res, v₂⟩, hput, h⟩ := Option.bind_eq_some_iff.mp h
      obtain ⟨x, hv₂, hhints₂, ⟨rfl, rfl⟩ | ⟨rfl, hrel⟩⟩ := (hv₁.put ht hc 0).post _ hput
      · dsimp only at h
        rw [if_neg (not_not.mpr rfl), hv₂.nFatent, hhints₂, hhints₁] at h
        rw [held_zero] at hv₂
        refine Or.inr (Or.inr (Or.inr ⟨by bv_omega, _, hv₂.setHints _, rfl, ?_, ?_⟩))
        · intro hlt
          rwa [(hv₂.setHints _).nFatent, if_pos hlt] at h
        · intro hge
          rw [(hv₂.setHints _).nFatent, if_neg (by bv_omega)] at h
          cases h
          exact ⟨rfl, rfl⟩
      · cases h
        exact Or.inr (Or.inr (Or.inl ⟨rfl, hrel, x, hv₂⟩))
  · cases h
    refine Or.inr (Or.inr (Or.inl ⟨rfl, hrel, T c, ?_⟩))
    rwa [Function.update_eq_self]

/-- An end of a chain. -/
def Geometry.Eoc (g : Geometry) (e : BitVec 32) : Prop := g.nFatent ≤ e

theorem Geometry.Eoc.not_cluster {e : BitVec 32} (he : g.Eoc e) : ¬ g.Cluster e := by
  intro hc
  have hlt := hc.2
  have hge : g.nFatent ≤ e := he
  bv_omega

/-- What removing the clusters `l` has done to the table: nothing to any other, and to them
what it should unless a disk call has failed. -/
def Removed (M : Media D) (g : Geometry) (P : Lba → Prop) (base : Lba → Sector)
    (T : BitVec 32 → BitVec 32) (v : Vol σ) (l : List (BitVec 32)) (r : Fresult) (v' : Vol σ) :
    Prop :=
  ∃ T', HasTable M g P base T' v' ∧ (∀ d, d ∉ l → T' d = T d) ∧
    (r = .ok ∧ (∀ d ∈ l, T' d = 0) ∧
        v'.fs.toHints = (Hints.freed g.nFatent)^[l.length] v.fs.toHints ∨
      r = .diskErr ∧ ¬ M.Reliable)

/-- The loop frees the chain that it is given. -/
theorem removeLoop_chain (ht : g.Table M.limit) {l : List (BitVec 32)} {e : BitVec 32}
    (he : g.Eoc e) {fuel : Nat} (hv : HasTable M g P base T v) (hne : l ≠ [])
    (hl : Leads T g.Cluster c l e) (h : removeLoop D fuel c v = some (r, v')) :
    Removed M g P base T v l r v' := by
  induction l generalizing c fuel v T with
  | nil => exact absurd rfl hne
  | cons x l ih =>
    have hnodup := hl.nodup he.not_cluster
    obtain ⟨rfl, hc, hrest⟩ := hl
    -- the link of a cluster of the chain is a cluster or an end, and not 0 or 1
    have hlink : 2 ≤ T x := by
      cases l with
      | nil =>
        obtain rfl : T x = e := hrest
        have hge : g.nFatent ≤ T x := he
        obtain ⟨hlow, hhigh⟩ := hc
        bv_omega
      | cons y l => exact hrest.2.1.1
    cases fuel with
    | zero => cases h
    | succ fuel =>
      rcases removeLoop_cases ht hv hc h with ⟨h0, -⟩ | ⟨h1, -⟩ | ⟨hr, hrel, y, hv'⟩ |
        ⟨-, v₁, hv₁, hhints, hgo, hend⟩
      · rw [h0] at hlink
        cases hlink
      · rw [h1] at hlink
        exact absurd hlink (by decide)
      · refine ⟨_, hv', fun d hd => ?_, Or.inr ⟨hr, hrel⟩⟩
        exact Function.update_of_ne (List.ne_of_not_mem_cons hd) ..
      · have hx : x ∉ l := (List.nodup_cons.mp hnodup).1
        cases l with
        | nil =>
          obtain rfl : T x = e := hrest
          obtain ⟨rfl, rfl⟩ := hend he
          refine ⟨_, hv₁, fun d hd => ?_, Or.inl ⟨rfl, fun d hd => ?_, hhints⟩⟩
          · exact Function.update_of_ne (List.ne_of_not_mem_cons hd) ..
          · obtain rfl := List.mem_singleton.mp hd
            exact Function.update_self ..
        | cons y l =>
          have hsame : ∀ d ∈ y :: l, Function.update T x 0 d = T d := fun d hd =>
            Function.update_of_ne (ne_of_mem_of_not_mem hd hx) ..
          obtain ⟨T', hv', hother, hcases⟩ := ih hv₁ (List.cons_ne_nil y l) (hrest.congr hsame)
            (hgo hrest.2.1.2)
          refine ⟨T', hv', fun d hd => ?_, hcases.imp_left fun ⟨hr, hzero, hhints'⟩ =>
            ⟨hr, fun d hd => ?_, ?_⟩⟩
          · rw [hother d fun hmem => hd (List.mem_cons_of_mem x hmem)]
            exact Function.update_of_ne (List.ne_of_not_mem_cons hd) ..
          · rcases List.mem_cons.mp hd with rfl | hd
            · rw [hother d hx]
              exact Function.update_self ..
            · exact hzero d hd
          · rw [hhints', hhints]
            rfl

theorem removeChain_whole (ht : g.Table M.limit) {l : List (BitVec 32)} {e : BitVec 32}
    (he : g.Eoc e) (hv : HasTable M g P base T v) (hne : l ≠ [])
    (hl : Leads T g.Cluster c l e) (h : removeChain D c 0 v = some (r, v')) :
    Removed M g P base T v l r v' := by
  have hc : g.Cluster c := by
    cases l with
    | nil => exact absurd rfl hne
    | cons x l => exact hl.2.1
  obtain ⟨hlow, hhigh⟩ := hc
  have hn := hv.nFatent
  rw [removeChain, if_neg (by bv_omega), if_neg (not_not.mpr rfl)] at h
  exact removeLoop_chain ht he hv hne hl h

theorem removeChain_after (ht : g.Table M.limit) {l : List (BitVec 32)} {e p : BitVec 32}
    (he : g.Eoc e) (hv : HasTable M g P base T v) (hne : l ≠ []) (hp : g.Cluster p) (hpl : p ∉ l)
    (hl : Leads T g.Cluster c l e) (h : removeChain D c p v = some (r, v')) :
    ∃ T', HasTable M g P base T' v' ∧ (∀ d, d ≠ p → d ∉ l → T' d = T d) ∧
      (r = .ok ∧ g.Eoc (T' p) ∧ (∀ d ∈ l, T' d = 0) ∧
          v'.fs.toHints = (Hints.freed g.nFatent)^[l.length] v.fs.toHints ∨
        r = .diskErr ∧ ¬ M.Reliable) := by
  have hc : g.Cluster c := by
    cases l with
    | nil => exact absurd rfl hne
    | cons x l => exact hl.2.1
  obtain ⟨hlow, hhigh⟩ := hc
  have hn := hv.nFatent
  have hp0 : p ≠ 0 := by
    have := hp.1
    bv_omega
  rw [removeChain, if_neg (by bv_omega), if_pos hp0] at h
  obtain ⟨⟨res, v₁⟩, hput, h⟩ := Option.bind_eq_some_iff.mp h
  obtain ⟨x, hv₁, hhints, ⟨rfl, rfl⟩ | ⟨rfl, hrel⟩⟩ := (hv.put ht hp _).post _ hput
  · dsimp only at h
    rw [if_neg (not_not.mpr rfl)] at h
    have hl' : Leads (Function.update T p (g.fsType.held 0xFFFFFFFF)) g.Cluster c l e :=
      hl.congr fun d hd => Function.update_of_ne (ne_of_mem_of_not_mem hd hpl) ..
    obtain ⟨T', hv', hother, hcases⟩ := removeLoop_chain ht he hv₁ hne hl' h
    refine ⟨T', hv', fun d hdp hd => ?_, hcases.imp_left fun ⟨hr, hzero, hh⟩ =>
      ⟨hr, ?_, hzero, hhints ▸ hh⟩⟩
    · rw [hother d hd, Function.update_of_ne hdp]
    · rw [Geometry.Eoc, hother p hpl, Function.update_self]
      exact le_held_eoc ht
  · cases h
    exact ⟨_, hv₁, fun d hdp _ => Function.update_of_ne hdp .., Or.inr ⟨rfl, hrel⟩⟩

/-! ## Taking a cluster -/

/-- The clusters behind `scl` up to `ncl`, counted round, are in use. -/
def Seen (g : Geometry) (T : BitVec 32 → BitVec 32) (scl ncl : BitVec 32) : Prop :=
  (scl ≤ ncl ∧ ncl < g.nFatent ∧ ∀ d, scl < d → d ≤ ncl → T d ≠ 0) ∨
  (2 ≤ ncl ∧ ncl < scl ∧ (∀ d, scl < d → d < g.nFatent → T d ≠ 0) ∧
    ∀ d, 2 ≤ d → d ≤ ncl → T d ≠ 0)

/-- No cluster is free. -/
def Full (g : Geometry) (T : BitVec 32 → BitVec 32) : Prop := ∀ d, g.Cluster d → T d ≠ 0

section Search

variable {scl ncl : BitVec 32}

/-- Without a hint, the search ends at the last cluster. -/
theorem Seen.full_of_last (hseen : Seen g T scl ncl) (hn : g.nFatent.toNat < 2 ^ 28)
    (hscl : scl < g.nFatent) (hlast : g.nFatent ≤ ncl + 1) (hlow : scl < 2) : Full g T := by
  intro d hd
  obtain ⟨hd2, hdn⟩ := hd
  rcases hseen with ⟨-, hncl, hused⟩ | ⟨h2, hlt, -, -⟩
  · exact hused d (by bv_omega) (by bv_omega)
  · bv_omega

/-- With one, it ends where it has begun. -/
theorem Seen.full_of_round (hseen : Seen g T scl ncl) (hn : g.nFatent.toNat < 2 ^ 28)
    (hscl : scl < g.nFatent) (h1 : 1 ≤ scl)
    (hround : (if g.nFatent ≤ ncl + 1 then 2 else ncl + 1) = scl) (hT : T scl ≠ 0) :
    Full g T := by
  intro d hd
  obtain ⟨hd2, hdn⟩ := hd
  by_cases hds : d = scl
  · exact hds ▸ hT
  rcases hseen with ⟨hle, hncl, hused⟩ | ⟨h2, hlt, hhigh, hlow⟩
  · split_ifs at hround with hwrap
    · exact hused d (by bv_omega) (by bv_omega)
    · bv_omega
  · rw [if_neg (by bv_omega)] at hround
    by_cases hside : scl < d
    · exact hhigh d hside hdn
    · exact hlow d hd2 (by bv_omega)

/-- The next one to look at is a cluster. -/
theorem Seen.cluster (hseen : Seen g T scl ncl) (hn : g.nFatent.toNat < 2 ^ 28)
    (hscl : scl < g.nFatent) (h1 : 1 ≤ scl) (hwrap : ¬ (g.nFatent ≤ ncl + 1 ∧ scl < 2)) :
    g.Cluster (if g.nFatent ≤ ncl + 1 then 2 else ncl + 1) := by
  split_ifs with hlast
  · exact ⟨by decide, by bv_omega⟩
  · rcases hseen with ⟨hle, hncl, -⟩ | ⟨h2, hlt, -, -⟩
    · exact ⟨by bv_omega, by bv_omega⟩
    · exact ⟨by bv_omega, by bv_omega⟩

/-- One cluster further. -/
theorem Seen.next (hseen : Seen g T scl ncl) (hn : g.nFatent.toNat < 2 ^ 28)
    (hscl : scl < g.nFatent) {ncl' : BitVec 32}
    (hncl' : (if g.nFatent ≤ ncl + 1 then 2 else ncl + 1) = ncl')
    (hwrap : ¬ (g.nFatent ≤ ncl + 1 ∧ scl < 2)) (hne : ncl' ≠ scl) (hT : T ncl' ≠ 0) :
    Seen g T scl ncl' := by
  rcases hseen with ⟨hle, hncl, hused⟩ | ⟨h2, hlt, hhigh, hlow⟩
  · split_ifs at hncl' with hlast
    · refine Or.inr ⟨by bv_omega, by bv_omega, fun d hd hdn => hused d hd (by bv_omega),
        fun d hd2 hd => ?_⟩
      obtain rfl : d = ncl' := by bv_omega
      exact hT
    · refine Or.inl ⟨by bv_omega, by bv_omega, fun d hd hdn => ?_⟩
      by_cases hdlast : d = ncl'
      · exact hdlast ▸ hT
      · exact hused d hd (by bv_omega)
  · rw [if_neg (by bv_omega)] at hncl'
    refine Or.inr ⟨by bv_omega, by bv_omega, hhigh, fun d hd2 hd => ?_⟩
    by_cases hdlast : d = ncl'
    · exact hdlast ▸ hT
    · exact hlow d hd2 (by bv_omega)

/-- What the search for a free cluster finds. -/
def Scan.Means (M : Media D) (g : Geometry) (T : BitVec 32 → BitVec 32) : Scan → Prop
  | .found ncl => g.Cluster ncl ∧ T ncl = 0
  | .stop val => val = 0 ∧ Full g T ∨ (val = 1 ∧ ∃ d, g.Cluster d ∧ T d = 1) ∨
      val = 0xFFFFFFFF ∧ ¬ M.Reliable

/-- How many clusters are left to look at. -/
def Geometry.ahead (g : Geometry) (scl ncl : BitVec 32) : Nat :=
  if scl ≤ ncl then g.nFatent.toNat - ncl.toNat + scl.toNat else scl.toNat - ncl.toNat

theorem Seen.ahead_pos (hseen : Seen g T scl ncl) : 0 < g.ahead scl ncl := by
  unfold Geometry.ahead
  rcases hseen with ⟨hle, hlt, -⟩ | ⟨-, hlt, -⟩
  · rw [if_pos hle]
    bv_omega
  · rw [if_neg (by bv_omega)]
    bv_omega

/-- As long as the search has not come round, there is one cluster less ahead. -/
theorem Seen.ahead_lt (hseen : Seen g T scl ncl) (hn : g.nFatent.toNat < 2 ^ 28)
    (hscl : scl < g.nFatent) {ncl' : BitVec 32}
    (hncl' : (if g.nFatent ≤ ncl + 1 then 2 else ncl + 1) = ncl')
    (hwrap : ¬ (g.nFatent ≤ ncl + 1 ∧ scl < 2)) (hne : ncl' ≠ scl) :
    g.ahead scl ncl' < g.ahead scl ncl := by
  unfold Geometry.ahead
  rcases hseen with ⟨hle, hlt, -⟩ | ⟨-, hlt, -⟩
  · rw [if_pos hle]
    split_ifs at hncl' ⊢ <;> bv_omega
  · rw [if_neg (by bv_omega)] at hncl'
    rw [if_neg (by bv_omega), if_neg (by bv_omega)]
    bv_omega

theorem scan_spec (ht : g.Table M.limit) (hscl : scl < g.nFatent) (h1 : 1 ≤ scl) {fuel : Nat}
    (hv : HasTable M g P base T v) (hseen : Seen g T scl ncl) (hfuel : g.ahead scl ncl ≤ fuel) :
    Ensures M.Answers (scan D scl fuel ncl v) fun (res, v') =>
      HasTable M g P base T v' ∧ v'.fs.toHints = v.fs.toHints ∧ res.Means M g T := by
  have hn := ht.nFatent_lt
  induction fuel generalizing ncl v with
  | zero => exact absurd hseen.ahead_pos (Nat.not_lt.mpr hfuel)
  | succ fuel ih =>
    rw [scan]
    dsimp only
    obtain ⟨ncl', hncl'⟩ : ∃ x, (if g.nFatent ≤ ncl + 1 then 2 else ncl + 1) = x := ⟨_, rfl⟩
    rw [hv.nFatent, hncl']
    by_cases hwrap : g.nFatent ≤ ncl + 1 ∧ scl < 2
    · rw [if_pos hwrap]
      exact .some ⟨hv, rfl, Or.inl ⟨rfl, hseen.full_of_last hn hscl hwrap.1 hwrap.2⟩⟩
    · rw [if_neg hwrap]
      have hc := hncl' ▸ hseen.cluster hn hscl h1 hwrap
      refine (hv.get ht hc).bind ?_
      rintro ⟨cs, v₁⟩ ⟨hv₁, hhints, rfl | ⟨rfl, hrel⟩⟩
      · dsimp only
        split_ifs with h0 hbad hround
        · exact .some ⟨hv₁, hhints, hc, h0⟩
        · refine .some ⟨hv₁, hhints, Or.inr (Or.inl ?_)⟩
          exact hbad.elim (fun hone => ⟨hone, ncl', hc, hone⟩)
            fun herr => absurd herr (hv.ne_error ncl')
        · exact .some ⟨hv₁, hhints,
            Or.inl ⟨rfl, hseen.full_of_round hn hscl h1 (hncl'.trans hround) (hround ▸ h0)⟩⟩
        · have hless := hseen.ahead_lt hn hscl hncl' hwrap hround
          refine (ih hv₁ (hseen.next hn hscl hncl' hwrap hround h0) (by omega)).imp ?_
          rintro ⟨res, v'⟩ ⟨hv', hhints', hmeans⟩
          exact ⟨hv', hhints'.trans hhints, hmeans⟩
      · exact .some ⟨hv₁, hhints, Or.inr (Or.inr ⟨rfl, hrel⟩)⟩

end Search

/-- What `create_chain` has done when it returns, by the value that it returns. -/
inductive Created (M : Media D) (g : Geometry) (P : Lba → Prop) (base : Lba → Sector)
    (T : BitVec 32 → BitVec 32) (v : Vol σ) (clst : BitVec 32) : BitVec 32 → Vol σ → Prop
  /-- a free cluster is the new end of the chain -/
  | took {n : BitVec 32} {v' : Vol σ} {T' : BitVec 32 → BitVec 32} (hn : g.Cluster n)
      (hfree : T n = 0) (hend : clst ≠ 0 → g.Eoc (T clst)) (hv' : HasTable M g P base T' v')
      (hnew : g.Eoc (T' n)) (hlink : clst ≠ 0 → T' clst = n)
      (hother : ∀ d, d ≠ n → (d = clst → clst = 0) → T' d = T d)
      (hhints : v'.fs.toHints = v.fs.toHints.taken g.nFatent n) :
      Created M g P base T v clst n v'
  /-- the chain goes on already -/
  | followed {v' : Vol σ} (hclst : clst ≠ 0) (hn : g.Cluster (T clst))
      (hv' : HasTable M g P base T v') (hhints : v'.fs.toHints = v.fs.toHints) :
      Created M g P base T v clst (T clst) v'
  /-- no cluster is free, or none is said to be -/
  | full {v' : Vol σ} (hv' : HasTable M g P base T v') (hhints : v'.fs.toHints = v.fs.toHints)
      (hfull : v.fs.freeClst = 0 ∨ Full g T) : Created M g P base T v clst 0 v'
  /-- an entry is no cluster and no end -/
  | broken {v' : Vol σ} (hv' : HasTable M g P base T v') (hhints : v'.fs.toHints = v.fs.toHints)
      (hbad : clst ≠ 0 ∧ T clst < 2 ∨ ∃ d, g.Cluster d ∧ T d = 1) :
      Created M g P base T v clst 1 v'
  /-- a disk error, after which a free cluster may be marked and the end of the chain lost -/
  | failed {v' : Vol σ} {T' : BitVec 32 → BitVec 32} (hv' : HasTable M g P base T' v')
      (hrel : ¬ M.Reliable)
      (hother : ∀ d, (d = clst → clst = 0) → T d ≠ 0 → T' d = T d) :
      Created M g P base T v clst 0xFFFFFFFF v'

section Create

variable {clst ncl scl n : BitVec 32} {v₀ : Vol σ}

/-- A state from which the rest of `create_chain` goes on. -/
theorem Created.of_same (hhints : v.fs.toHints = v₀.fs.toHints)
    (h : Created M g P base T v clst n v') : Created M g P base T v₀ clst n v' := by
  have hfree : v.fs.freeClst = v₀.fs.freeClst := congrArg Hints.freeClst hhints
  cases h with
  | took hn hfree hend hv' hnew hlink hother hh =>
    exact .took hn hfree hend hv' hnew hlink hother (hhints ▸ hh)
  | followed hclst hn hv' hh => exact .followed hclst hn hv' (hh.trans hhints)
  | full hv' hh hfull => exact .full hv' (hh.trans hhints) (hfree ▸ hfull)
  | broken hv' hh hbad => exact .broken hv' (hh.trans hhints) hbad
  | failed hv' hrel hother => exact .failed hv' hrel hother

theorem claim_spec (ht : g.Table M.limit) (hv : HasTable M g P base T v) (hn : g.Cluster ncl)
    (hfree : T ncl = 0) (hclst : clst ≠ 0 → g.Cluster clst ∧ g.Eoc (T clst)) :
    Ensures M.Answers (claim D clst ncl v) fun (n, v') => Created M g P base T v clst n v' := by
  have heoc := le_held_eoc ht
  refine (hv.put ht hn _).bind ?_
  rintro ⟨res, v₁⟩ ⟨x, hv₁, hhints₁, hcases⟩
  have hmarked : ∀ d, T d ≠ 0 → Function.update T ncl x d = T d := by
    intro d hd
    refine Function.update_of_ne ?_ ..
    rintro rfl
    exact hd hfree
  dsimp only [linkPrevious]
  by_cases hlink : res = .ok ∧ clst ≠ 0
  · rw [if_pos hlink]
    obtain ⟨hc, hend⟩ := hclst hlink.2
    obtain ⟨-, rfl⟩ : res = .ok ∧ x = g.fsType.held 0xFFFFFFFF :=
      hcases.resolve_right fun ⟨hbad, _⟩ => by rw [hlink.1] at hbad; cases hbad
    -- the cluster is linked from the end of a chain, which is not free
    have hne : ncl ≠ clst := by
      rintro rfl
      have hge : g.nFatent ≤ T ncl := hend
      rw [hfree] at hge
      have := hc.2
      bv_omega
    refine (hv₁.put ht hc ncl).bind ?_
    rintro ⟨res', v₂⟩ ⟨y, hv₂, hhints₂, ⟨rfl, rfl⟩ | ⟨rfl, hrel⟩⟩
    · refine .some (.took hn hfree (fun _ => hend) (hv₂.setHints _) ?_ (fun _ => ?_)
        (fun d hdn hdc => ?_) ?_)
      · rw [Function.update_of_ne hne, Function.update_self]
        exact heoc
      · rw [Function.update_self, held_cluster ht hn]
      · rw [Function.update_of_ne fun heq => hlink.2 (hdc heq), Function.update_of_ne hdn]
      · show v₂.fs.toHints.taken v₂.fs.nFatent _ = _
        rw [hv₂.nFatent, hhints₂, hhints₁]
    · refine .some (.failed hv₂ hrel fun d hdc hd => ?_)
      rw [Function.update_of_ne fun heq => hlink.2 (hdc heq), hmarked d hd]
  · rw [if_neg hlink]
    rcases hcases with ⟨rfl, rfl⟩ | ⟨rfl, hrel⟩
    · have hzero : clst = 0 := by
        by_contra hne
        exact hlink ⟨rfl, hne⟩
      refine .some (.took hn hfree (fun hne => absurd hzero hne) (hv₁.setHints _) ?_
        (fun hne => absurd hzero hne) (fun d hdn _ => Function.update_of_ne hdn ..) ?_)
      · rw [Function.update_self]
        exact heoc
      · show v₁.fs.toHints.taken v₁.fs.nFatent _ = _
        rw [hv₁.nFatent, hhints₁]
    · exact .some (.failed hv₁ hrel fun d _ hd => hmarked d hd)

/-- The search begins behind its start, which it may come back to. -/
theorem Seen.start (hscl : scl < g.nFatent) : Seen g T scl scl :=
  Or.inl ⟨by bv_omega, hscl, fun d hd hd' => by bv_omega⟩

theorem searchAndClaim_spec (ht : g.Table M.limit) (hscl : scl < g.nFatent) (h1 : 1 ≤ scl)
    (hv : HasTable M g P base T v) (hclst : clst ≠ 0 → g.Cluster clst ∧ g.Eoc (T clst)) :
    Ensures M.Answers (searchAndClaim D clst scl v) fun (n, v') =>
      Created M g P base T v clst n v' := by
  have hahead : g.ahead scl scl ≤ v.fs.nFatent.toNat := by
    rw [Geometry.ahead, if_pos (BitVec.le_refl scl), hv.nFatent]
    bv_omega
  refine (scan_spec ht hscl h1 hv (.start hscl) hahead).bind ?_
  rintro ⟨res, v₁⟩ ⟨hv₁, hhints, hmeans⟩
  cases res with
  | found ncl =>
    exact (claim_spec ht hv₁ hmeans.1 hmeans.2 hclst).imp fun _ h => h.of_same hhints
  | stop val =>
    refine .some ?_
    rcases hmeans with ⟨rfl, hfull⟩ | ⟨rfl, hbad⟩ | ⟨rfl, hrel⟩
    · exact .full hv₁ hhints (Or.inr hfull)
    · exact .broken hv₁ hhints (Or.inr hbad)
    · exact .failed hv₁ hrel fun _ _ _ => rfl

theorem createFrom_spec (ht : g.Table M.limit) (hscl : scl < g.nFatent) (h1 : 1 ≤ scl)
    (hv : HasTable M g P base T v) (hclst : clst ≠ 0 → g.Cluster clst ∧ g.Eoc (T clst)) :
    Ensures M.Answers (createFrom D clst scl v) fun (n, v') =>
      Created M g P base T v clst n v' := by
  have hn := ht.nFatent_lt
  rw [createFrom]
  by_cases hfree : v.fs.freeClst = 0
  · rw [if_pos hfree]
    exact .some (.full hv rfl (Or.inl hfree))
  rw [if_neg hfree]
  by_cases hstretch : scl = clst
  · subst hstretch
    have hne : scl ≠ 0 := by bv_omega
    obtain ⟨hc, hend⟩ := hclst hne
    rw [if_pos rfl]
    dsimp only
    obtain ⟨ncl, hncl⟩ : ∃ x, (if g.nFatent ≤ scl + 1 then 2 else scl + 1) = x := ⟨_, rfl⟩
    rw [hv.nFatent, hncl]
    have hcn : g.Cluster ncl :=
      hncl ▸ (Seen.start hscl : Seen g T scl scl).cluster hn hscl h1 (by have := hc.1; bv_omega)
    refine (hv.get ht hcn).bind ?_
    rintro ⟨cs, v₁⟩ ⟨hv₁, hhints, rfl | ⟨rfl, hrel⟩⟩
    · dsimp only
      rw [hv₁.nFatent]
      by_cases hbad : T ncl = 1 ∨ T ncl = 0xFFFFFFFF
      · have hone := hbad.resolve_right (hv.ne_error ncl)
        rw [if_pos hbad, hone]
        exact .some (.broken hv₁ hhints (Or.inr ⟨ncl, hcn, hone⟩))
      rw [if_neg hbad]
      by_cases hused : T ncl ≠ 0
      · rw [if_pos hused]
        refine (searchAndClaim_spec ht ?_ ?_ hv₁ fun _ => ⟨hc, hend⟩).imp
          fun _ h => h.of_same hhints
        · split_ifs with hhint
          · exact hhint.2
          · exact hscl
        · split_ifs with hhint
          · bv_omega
          · exact h1
      · rw [if_neg hused]
        exact (claim_spec ht hv₁ hcn (not_not.mp hused) fun _ => ⟨hc, hend⟩).imp
          fun _ h => h.of_same hhints
    · exact .some (.failed hv₁ hrel fun _ _ _ => rfl)
  · rw [if_neg hstretch]
    exact searchAndClaim_spec ht hscl h1 hv hclst

/-- `create_chain` for a new chain, or for the cluster `clst`. -/
theorem createChain_spec (ht : g.Table M.limit) (hn3 : 2 < g.nFatent.toNat)
    (hv : HasTable M g P base T v) (hclst : clst ≠ 0 → g.Cluster clst) :
    Ensures M.Answers (createChain D clst v) fun (n, v') =>
      Created M g P base T v clst n v' := by
  rw [createChain]
  by_cases hzero : clst = 0
  · rw [if_pos hzero, hv.nFatent]
    refine createFrom_spec ht ?_ ?_ hv fun hne => absurd hzero hne
    · split_ifs with hhint
      · bv_omega
      · bv_omega
    · split_ifs with hhint
      · decide
      · bv_omega
  · rw [if_neg hzero]
    have hc := hclst hzero
    refine (hv.get ht hc).bind ?_
    rintro ⟨cs, v₁⟩ ⟨hv₁, hhints, rfl | ⟨rfl, hrel⟩⟩
    · dsimp only
      rw [hv₁.nFatent]
      split_ifs with hbad herr hgoes
      · exact .some (.broken hv₁ hhints (Or.inl ⟨hzero, hbad⟩))
      · exact absurd herr (hv.ne_error clst)
      · exact .some (.followed hzero ⟨by bv_omega, hgoes⟩ hv₁ hhints)
      · have hend : g.Eoc (T clst) := by
          unfold Geometry.Eoc
          bv_omega
        refine (createFrom_spec ht hc.2 ?_ hv₁ fun _ => ⟨hc, hend⟩).imp fun _ h => h.of_same hhints
        have := hc.1
        bv_omega
    · exact .some (.failed hv₁ hrel fun _ _ _ => rfl)

end Create

end Table

end ChronOS.Fs
