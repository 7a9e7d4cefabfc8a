/-
  Fs/FatWrite.lean --- `f_write` of `kernel/src/fs/fat/ff.c`.

  `f_write` goes through the file as `f_read` does.  At the end of the chain it takes new
  clusters; the buffer is written back at every boundary of a sector, whole sectors are written
  directly and replace what the buffer holds of them, and a sector behind the end of the file is
  not read before a part of it is overwritten.
-/
import ChronOS.Fs.FatRead

set_option autoImplicit false

namespace ChronOS.Fs

open ChronOS.Foundation

/-! ## The functions -/

/-- What the loop does after each turn. -/
def FileIo.advanceWrite {σ : Type} (t : FileIo σ) (n : BitVec 32) : FileIo σ :=
  let fptr := t.fp.fptr + n
  { t with
    count := t.count + n
    fp := { t.fp with fptr, objsize := if t.fp.objsize < fptr then fptr else t.fp.objsize } }

section Functions

variable {σ : Type} (D : Drive σ)

/-- The checks of a cluster number in `f_write`; `none` is a full disk. -/
def takeClust (clst : BitVec 32) (fp : Fil) : Option Fresult × Fil :=
  if clst = 0 then (none, fp)
  else if clst = 1 then (some .intErr, fp.abort .intErr)
  else if clst = 0xFFFFFFFF then (some .diskErr, fp.abort .diskErr)
  else
    let fp := { fp with clust := clst }
    (some .ok, if fp.sclust = 0 then { fp with sclust := clst } else fp)

/-- The current cluster of `f_write`. -/
def writeClust (csect : BitVec 32) (fp : Fil) (v : Vol σ) :
    Option (Option Fresult × Fil × Vol σ) :=
  if csect = 0 then
    if fp.fptr = 0 then
      if fp.sclust = 0 then do
        let (clst, v) ← createChain D 0 v
        let (res, fp) := takeClust clst fp
        some (res, fp, v)
      else
        let (res, fp) := takeClust fp.sclust fp
        some (res, fp, v)
    else do
      let (clst, v) ← createChain D fp.clust v
      let (res, fp) := takeClust clst fp
      some (res, fp, v)
  else some (some .ok, fp, v)

/-- Sector `i` of what is still to be written. -/
def FileIo.sector (t : FileIo σ) (i : Nat) (k : Fin 512) : Byte :=
  t.buff (t.count.toNat + 512 * i + k)

/-- Whole sectors are written from the caller's memory, and replace the buffer. -/
def writeDirect (sect : Lba) (cc : BitVec 32) (t : FileIo σ) : Option (Fresult × FileIo σ) := do
  let (res, drv) ← D.write t.sector sect cc t.vol.drv
  let vol : Vol σ := ⟨t.vol.fs, drv⟩
  if res = .ok then
    let fp := if t.fp.sect - sect < cc then
        { t.fp with buf := t.sector (t.fp.sect - sect).toNat }.clean
      else t.fp
    some (.ok, { t with fp, vol })
  else some (.diskErr, { t with fp := t.fp.abort .diskErr, vol })

/-- The sector is brought into the buffer, unless it is behind the end of the file. -/
def writeCache (sect : Lba) (fp : Fil) (v : Vol σ) : Option (Fresult × Fil × Vol σ) :=
  if fp.sect ≠ sect ∧ fp.fptr < fp.objsize then do
    let (res, fp, v) ← fillBuf D sect fp v
    if res ≠ .ok then some (res, fp, v) else some (.ok, { fp with sect }, v)
  else some (.ok, { fp with sect }, v)

/-- Bytes are copied into the buffer. -/
def copyIn (btw : BitVec 32) (t : FileIo σ) : BitVec 32 × FileIo σ :=
  let wcnt := restOfSector t.fp.fptr btw
  let off := (t.fp.fptr % 512).toNat
  (wcnt, { t with fp := { t.fp with
    buf := fun k => if off ≤ k ∧ k < off + wcnt.toNat then t.buff (t.count.toNat + (k - off))
      else t.fp.buf k
    flag := t.fp.flag ||| FA_DIRTY } })

/-- A turn of the loop of `f_write` at the boundary of a sector, from `clst2sect` on. -/
def writeSectors (csect btw : BitVec 32) (t : FileIo σ) :
    Option (Fresult × BitVec 32 × FileIo σ) :=
  let sect := clst2sect t.vol.fs.toGeometry t.fp.clust
  if sect = 0 then some (.intErr, 0, { t with fp := t.fp.abort .intErr })
  else
    let sect := sect + csect
    if 0 < btw / 512 then do
      let cc := directCount (t.vol.fs.csize.setWidth 32) csect btw
      let (res, t) ← writeDirect D sect cc t
      some (res, 512 * cc, t)
    else do
      let (res, fp, vol) ← writeCache D sect t.fp t.vol
      let t := { t with fp, vol }
      if res ≠ .ok then some (res, 0, t) else some (.ok, copyIn btw t)

/-- One turn of the loop of `f_write`; the number is `wcnt`, and `none` is a full disk. -/
def writeStep (btw : BitVec 32) (t : FileIo σ) :
    Option (Option Fresult × BitVec 32 × FileIo σ) :=
  if t.fp.fptr % 512 = 0 then do
    let csect := t.fp.fptr / 512 &&& (t.vol.fs.csize.setWidth 32 - 1)
    let (res, fp, vol) ← writeClust D csect t.fp t.vol
    let t := { t with fp, vol }
    if res ≠ some .ok then some (res, 0, t)
    else
      let (res, fp, vol) ← writeBack D t.fp t.vol
      let t := { t with fp, vol }
      if res ≠ .ok then some (some res, 0, t)
      else
        let (res, wcnt, t) ← writeSectors D csect btw t
        some (some res, wcnt, t)
  else some (some .ok, copyIn btw t)

/-- The loop of `f_write`. -/
def writeLoop : Nat → BitVec 32 → FileIo σ → Option (Fresult × FileIo σ)
  | 0, btw, t => if btw = 0 then some (.ok, t) else none
  | fuel + 1, btw, t =>
      if btw = 0 then some (.ok, t)
      else do
        let (res, wcnt, t) ← writeStep D btw t
        match res with
        | none => some (.ok, t)
        | some res =>
            if res ≠ .ok then some (res, t)
            else writeLoop fuel (btw - wcnt) (t.advanceWrite wcnt)

/-- `f_write`. -/
def fWrite (fp : Fil) (buff : Nat → Byte) (btw : BitVec 32) (v : Vol σ) :
    Option (Fresult × FileIo σ) :=
  let t : FileIo σ := ⟨0, buff, fp, v⟩
  if validate fp v ≠ .ok then some (validate fp v, t)
  else if fp.err ≠ .ok then some (fp.err, t)
  else if fp.flag &&& FA_WRITE = 0 then some (.denied, t)
  else do
    let btw := if fp.fptr + btw < fp.fptr then 0xFFFFFFFF - fp.fptr else btw
    let (res, t) ← writeLoop D btw.toNat btw t
    if res ≠ .ok then some (res, t)
    else some (.ok, { t with fp := { t.fp with flag := t.fp.flag ||| FA_MODIFIED } })

end Functions

/-! ## The volume and its files -/

section Volume

variable {σ ι : Type} {D : Drive σ} {M : Media D} {g : Geometry}
  {S : BitVec 32 → Prop} {base : Lba → Sector} {T T' : BitVec 32 → BitVec 32} {v v' : Vol σ}
  {files files' : Files ι} {i : ι} {l : List (BitVec 32)} {fp : Fil} {s : Nat}

/-- The volume has the files, and every cluster that is not `S` belongs to something else. -/
structure OnVolume (M : Media D) (g : Geometry) (S : BitVec 32 → Prop) (base : Lba → Sector)
    (T : BitVec 32 → BitVec 32) (files : Files ι) (v : Vol σ) : Prop where
  layout : g.Layout M.limit
  most : g.csize.toNat ≤ M.most
  table : HasTable M g (g.DataOf S) base T v
  owned : Owned T g.Cluster g.Eoc files
  foreign : ∀ d, ¬ S d → T d ≠ 0 ∧ Nobody files d

/-- The allocation of a volume. -/
abbrev Vol.allocation (v : Vol σ) (files : Files ι) (T : BitVec 32 → BitVec 32) : Allocation ι :=
  ⟨files, T, v.fs.toHints⟩

theorem OnVolume.accessible (hvol : OnVolume M g S base T files v) (hi : files i = some l) :
    Accessible M g S T l where
  layout := hvol.layout
  most := hvol.most
  linked := hvol.owned.linked i l hi
  mine := fun c hc => by
    by_contra hS
    exact (hvol.foreign c hS).2 i l hi hc

theorem Accessible.sclust_ne_zero (hl : Accessible M g S T l) (hp : Placed g l fp)
    (hne : l ≠ []) : fp.sclust ≠ 0 := by
  cases l with
  | nil => exact absurd rfl hne
  | cons c l =>
    have hc := (hl.cluster c List.mem_cons_self).1
    rw [hp.first]
    show c ≠ 0
    bv_omega

/-- The next cluster of a chain that goes on. -/
theorem createChain_followed (hvol : OnVolume M g S base T files v) {c d n : BitVec 32}
    (hc : g.Cluster c) (hd : g.Cluster d) (hlink : T c = d)
    (h : createChain D c v = some (n, v')) :
    OnVolume M g S base T files v' ∧ v'.fs.toHints = v.fs.toHints ∧
      (n = d ∨ n = 0xFFFFFFFF ∧ ¬ M.Reliable) := by
  have hn := hvol.layout.table.nFatent_lt
  have hc2 := hc.1
  obtain ⟨hlow, hhigh⟩ := hd
  rw [createChain, if_neg (by bv_omega)] at h
  obtain ⟨⟨cs, v₁⟩, hget, h⟩ := Option.bind_eq_some_iff.mp h
  obtain ⟨hv₁, hhints, rfl | ⟨rfl, hrel⟩⟩ := (hvol.table.get hvol.layout.table hc).post _ hget
  · dsimp only at h
    rw [hv₁.nFatent, hlink, if_neg (by bv_omega), if_neg (by bv_omega), if_pos hhigh] at h
    cases h
    exact ⟨{ hvol with table := hv₁ }, hhints, Or.inl rfl⟩
  · cases h
    exact ⟨{ hvol with table := hv₁ }, hhints, Or.inr ⟨rfl, hrel⟩⟩

variable [DecidableEq ι]

/-- Steps of the allocator that concern one file only. -/
def Allocates (M : Media D) (g : Geometry) (i : ι) (a a' : Allocation ι) : Prop :=
  Relation.ReflTransGen (TableStep g M.Reliable) a a' ∧ ∀ j, j ≠ i → a'.files j = a.files j

/-- Another table and other files, by steps of the allocator. -/
theorem OnVolume.run (hvol : OnVolume M g S base T files v)
    (hv' : HasTable M g (g.DataOf S) base T' v')
    (hrun : Relation.ReflTransGen (TableStep g M.Reliable) (v.allocation files T)
      (v'.allocation files' T')) : OnVolume M g S base T' files' v' where
  layout := hvol.layout
  most := hvol.most
  table := hv'
  owned := owned_run hrun hvol.owned
  foreign := fun d hd => by
    obtain ⟨hused, hnobody⟩ := hvol.foreign d hd
    obtain ⟨hsame, hnobody'⟩ := foreign_run hrun hused hnobody
    exact ⟨fun hzero => hused (hsame.symm.trans hzero), hnobody'⟩

/-- What `f_write` has after it has looked for the cluster of sector `s`. -/
inductive ClustDone (M : Media D) (g : Geometry) (S : BitVec 32 → Prop) (base : Lba → Sector)
    (T : BitVec 32 → BitVec 32) (files : Files ι) (i : ι) (l : List (BitVec 32)) (s : Nat)
    (fp : Fil) (v : Vol σ) : Option Fresult → Fil → Vol σ → Prop
  /-- the cluster, which may be new -/
  | ok {T' : BitVec 32 → BitVec 32} {files' : Files ι} {l' : List (BitVec 32)} {c : BitVec 32}
      {v' : Vol σ} (hvol : OnVolume M g S base T' files' v')
      (hrun : Allocates M g i (v.allocation files T) (v'.allocation files' T'))
      (hi : files' i = some l') (hl : l <+: l') (hc : l'[s / g.csize.toNat]? = some c) :
      ClustDone M g S base T files i l s fp v (some .ok)
        { fp with clust := c, sclust := l'.head?.getD 0 } v'
  /-- there is none -/
  | full {v' : Vol σ} (hvol : OnVolume M g S base T files v')
      (hhints : v'.fs.toHints = v.fs.toHints) (hfull : v.fs.freeClst = 0 ∨ Full g T) :
      ClustDone M g S base T files i l s fp v none fp v'
  /-- a disk call has failed, or an entry of the FAT is bad -/
  | failed {T' : BitVec 32 → BitVec 32} {files' : Files ι} {v' : Vol σ} {e : Fresult}
      (hvol : OnVolume M g S base T' files' v')
      (hrun : Allocates M g i (v.allocation files T) (v'.allocation files' T')) (he : e ≠ .ok)
      (hwhy : ¬ M.Reliable ∨ ∃ d, g.Cluster d ∧ T d = 1) :
      ClustDone M g S base T files i l s fp v (some e) (fp.abort e) v'

theorem takeClust_cluster (hg : g.Layout M.limit) {c : BitVec 32} (hc : g.Cluster c) :
    takeClust c fp = (some .ok,
      { fp with clust := c, sclust := if fp.sclust = 0 then c else fp.sclust }) := by
  have hn := hg.table.nFatent_lt
  obtain ⟨hlow, hhigh⟩ := hc
  rw [takeClust, if_neg (by bv_omega), if_neg (by bv_omega), if_neg (by bv_omega)]
  dsimp only
  split_ifs <;> rfl

theorem head?_append_getD {n : BitVec 32} (hl : ∀ c ∈ l, g.Cluster c) :
    (if l.head?.getD 0 = 0 then n else l.head?.getD 0) = (l ++ [n]).head?.getD 0 := by
  cases l with
  | nil => rfl
  | cons c l =>
    have hc := (hl c List.mem_cons_self).1
    exact if_neg (show c ≠ 0 by bv_omega)

theorem stretch_spec (hvol : OnVolume M g S base T files v) (hi : files i = some l)
    (hfirst : fp.sclust = l.head?.getD 0) (hs : s / g.csize.toNat = l.length) {n : BitVec 32}
    (h : createChain D (l.getLast?.getD 0) v = some (n, v')) :
    ClustDone M g S base T files i l s fp v (takeClust n fp).1 (takeClust n fp).2 v' := by
  have ht := hvol.layout.table
  have hn3 := hvol.layout.clusters
  obtain ⟨T', hv', hstep⟩ := createChain_step ht hn3 hvol.table hvol.owned hi h
  have hrun : Allocates M g i (v.allocation files T)
      (v'.allocation (Function.update files i (grown n l)) T') :=
    ⟨.single hstep, fun j hj => Function.update_of_ne hj ..⟩
  have hvol' := hvol.run hv' hrun.1
  rcases createChain_value ht hn3 hvol.table (hvol.owned.linked i l hi) h with
    ⟨hn, -⟩ | ⟨rfl, hfull, hv₀, hhints⟩ | ⟨rfl, hbad⟩ | ⟨rfl, hrel⟩
  · have hgrown : grown n l = some (l ++ [n]) := by
      have hlt := ht.nFatent_lt
      obtain ⟨hlow, hhigh⟩ := hn
      rw [grown, if_neg (by bv_omega), if_neg (by bv_omega)]
    rw [takeClust_cluster hvol.layout hn, hfirst,
      head?_append_getD (hvol.accessible hi).cluster]
    have hmine : Function.update files i (grown n l) i = some (l ++ [n]) := by
      rw [Function.update_self, hgrown]
    refine .ok hvol' hrun hmine (List.prefix_append l [n]) ?_
    rw [hs, List.getElem?_concat_length]
  · exact .full { hvol with table := hv₀ } hhints hfull
  · exact .failed hvol' hrun (by decide) (Or.inr hbad)
  · exact .failed hvol' hrun (by decide) (Or.inl hrel)

theorem Allocates.refl (hhints : v'.fs.toHints = v.fs.toHints) :
    Allocates M g i (v.allocation files T) (v'.allocation files T) := by
  rw [Vol.allocation, Vol.allocation, hhints]
  exact ⟨.refl, fun _ _ => rfl⟩

/-- A cluster that the file has already. -/
theorem ClustDone.there {r : Option Fresult} {fp' : Fil} (hvol : OnVolume M g S base T files v')
    (hi : files i = some l) (hfirst : fp.sclust = l.head?.getD 0)
    (hhints : v'.fs.toHints = v.fs.toHints) {c : BitVec 32}
    (hc : l[s / g.csize.toNat]? = some c) (hfp : fp' = { fp with clust := c })
    (hr : r = some .ok) : ClustDone M g S base T files i l s fp v r fp' v' := by
  subst hr hfp
  have hdone : ClustDone M g S base T files i l s fp v _ _ v' :=
    .ok hvol (.refl hhints) hi (List.prefix_refl l) hc
  rwa [← hfirst] at hdone

/-- At the boundary of a sector `f_write` has its cluster, or no cluster is left. -/
theorem writeClust_spec (hM : M.Answers) (hvol : OnVolume M g S base T files v)
    (hi : files i = some l) (hp : Placed g l fp) (hs : fp.fptr.toNat = 512 * s)
    {csect : BitVec 32} (hcsect : csect.toNat = s % g.csize.toNat) :
    ∃ r fp' v', writeClust D csect fp v = some (r, fp', v') ∧
      ClustDone M g S base T files i l s fp v r fp' v' := by
  have hl := hvol.accessible hi
  have hcreate := createChain_returns hM hl.layout.table hl.layout.clusters hvol.table
  have hcsize := hl.layout.csize_pos
  have hsize := hp.size
  have hptr : fp.fptr.toNat ≤ fp.objsize.toNat := hp.ptr
  have hk : s / g.csize.toNat ≤ l.length := by
    refine Nat.le_of_lt_succ (Nat.div_lt_of_lt_mul ?_)
    rw [Nat.mul_succ]
    omega
  unfold writeClust
  by_cases hboundary : csect = 0
  · rw [if_pos hboundary]
    have hmod : s % g.csize.toNat = 0 := by
      rw [← hcsect, hboundary]
      rfl
    by_cases hstart : fp.fptr = 0
    · have hzero : s = 0 := by
        rw [hstart] at hs
        simpa using hs
      subst hzero
      rw [if_pos hstart]
      cases l with
      | nil =>
        obtain ⟨n, v₁, hnew⟩ := hcreate 0
        rw [if_pos (show fp.sclust = 0 from hp.first), hnew]
        exact ⟨(takeClust n fp).1, (takeClust n fp).2, v₁, rfl,
          stretch_spec hvol hi hp.first (Nat.zero_div _) hnew⟩
      | cons c l =>
        obtain rfl : fp.sclust = c := hp.first
        have hc := hl.cluster _ List.mem_cons_self
        have hne := hl.sclust_ne_zero hp (List.cons_ne_nil _ l)
        rw [if_neg hne, takeClust_cluster hvol.layout hc, if_neg hne]
        refine ⟨_, _, _, rfl, .there hvol hi hp.first rfl ?_ rfl rfl⟩
        rw [Nat.zero_div]
        rfl
    · obtain ⟨hpos, hprev⟩ := hp.before hl hs hstart (Nat.dvd_of_mod_eq_zero hmod)
      obtain ⟨n, v₁, hnew⟩ := hcreate fp.clust
      rw [if_neg hstart, hnew]
      refine ⟨(takeClust n fp).1, (takeClust n fp).2, v₁, rfl, ?_⟩
      by_cases hin : s / g.csize.toNat < l.length
      · have hc := List.getElem?_eq_getElem hin
        have hcluster := hl.cluster _ (List.mem_of_getElem? hc)
        obtain ⟨hvol₁, hhints, hn⟩ := createChain_followed hvol
          (hl.cluster _ (List.mem_of_getElem? hprev)) hcluster
          (hl.linked.next_getElem? hprev (by rwa [Nat.sub_add_cancel hpos])) hnew
        rcases hn with rfl | ⟨rfl, hrel⟩
        · rw [takeClust_cluster hvol.layout hcluster]
          refine .there hvol₁ hi hp.first hhints hc ?_ rfl
          rw [if_neg (hl.sclust_ne_zero hp (List.ne_nil_of_length_pos (Nat.zero_lt_of_lt hin)))]
        · exact .failed hvol₁ (.refl hhints) (by decide) (Or.inl hrel)
      · have hlen := Nat.le_antisymm hk (Nat.le_of_not_lt hin)
        refine stretch_spec hvol hi hp.first hlen ?_
        have hlast : l.getLast? = some fp.clust := by
          rw [List.getLast?_eq_getElem?, ← hlen]
          exact hprev
        rwa [hlast]
  · rw [if_neg hboundary]
    have hmod : s % g.csize.toNat ≠ 0 := fun heq => hboundary (by bv_omega)
    exact ⟨_, _, _, rfl, .there hvol hi hp.first rfl (hp.inside hs hmod) rfl rfl⟩

end Volume

/-! ## The contents -/

/-- `n` bytes were written from byte `F` on, and of the first `N` no other has changed. -/
structure Wrote (cont cont' : Nat → Sector) (F n N : Nat) (src : Nat → Byte) : Prop where
  new : ∀ j < n, flatten cont' (F + j) = src j
  old : ∀ j < N, ¬ (F ≤ j ∧ j < F + n) → flatten cont' j = flatten cont j

theorem Wrote.trans {cont cont' cont'' : Nat → Sector} {F n m N : Nat} {src : Nat → Byte}
    (h : Wrote cont cont' F n N src)
    (h' : Wrote cont' cont'' (F + n) m (max N (F + n)) fun j => src (n + j)) :
    Wrote cont cont'' F (n + m) N src := by
  refine ⟨fun j hj => ?_, fun j hj hout => ?_⟩
  · by_cases hfirst : j < n
    · rw [h'.old _ (by omega) (by omega), h.new j hfirst]
    · have hbyte := h'.new (j - n) (by omega)
      rwa [show F + n + (j - n) = F + j by omega, show n + (j - n) = j by omega] at hbyte
  · rw [h'.old j (by omega) (by omega), h.old j hj (by omega)]

section Contents

variable {σ : Type} {D : Drive σ} {M : Media D} {g : Geometry} {S : BitVec 32 → Prop}
  {base : Lba → Sector} {T : BitVec 32 → BitVec 32} {v v' : Vol σ} {r : Fresult}
  {l l' : List (BitVec 32)} {cont : Nat → Sector} {fp fp' : Fil} {s : Nat} {t t' : FileIo σ}

theorem sectorAt_ne_zero (hl : Accessible M g S T l) (hs : s < g.csize.toNat * l.length) :
    sectorAt g l s ≠ 0 := by
  intro hzero
  have hlt : s / g.csize.toNat < l.length := Nat.div_lt_of_lt_mul hs
  have hval := Geometry.toNat_sector hl.layout M.limit_lt (hl.cluster _ (getD_mem hlt))
    (Nat.mod_lt s hl.layout.csize_pos)
  have hpos := hl.layout.database_pos
  rw [show g.sector _ _ = 0 from hzero] at hval
  have h0 : (0 : Lba).toNat = 0 := rfl
  omega

/-- New clusters add sectors with the contents that they have on the disk. -/
theorem Cached.grow (hl : Accessible M g S T l') (hl' : l <+: l')
    (hcache : Cached g l cont base fp) :
    ∃ cont', Cached g l' cont' base fp ∧ ∀ s < g.csize.toNat * l.length, cont' s = cont s := by
  obtain ⟨m, rfl⟩ := hl'
  have hle : g.csize.toNat * l.length ≤ g.csize.toNat * (l ++ m).length :=
    Nat.mul_le_mul_left _ (by rw [List.length_append]; omega)
  refine ⟨fun s => if s < g.csize.toNat * l.length then cont s else base (sectorAt g (l ++ m) s),
    ⟨fun s hs hd => ?_, fun s hs heq => ?_, ?_⟩, fun s hs => if_pos hs⟩
  · split_ifs with hold
    · rw [sectorAt_append hold] at hd ⊢
      exact hcache.disk s hold hd
    · rfl
  · split_ifs with hold
    · rw [sectorAt_append hold] at heq
      exact hcache.buf s hold heq
    · -- the buffered sector is none of the new ones
      rcases hcache.place with ⟨hzero, -⟩ | ⟨s', hs', hsect⟩
      · exact absurd (heq.symm.trans hzero) (sectorAt_ne_zero hl hs)
      · rw [← sectorAt_append hs' m] at hsect
        have := hl.inj (by omega) hs (hsect.symm.trans heq)
        omega
  · refine hcache.place.imp_right fun ⟨s', hs', hsect⟩ => ⟨s', by omega, ?_⟩
    rw [sectorAt_append hs', hsect]

/-- Whole sectors of one cluster. -/
theorem writeDirect_spec (hM : M.Answers) (hl : Accessible M g S T l)
    (hv : HasTable M g (g.DataOf S) base T t.vol) (hcache : Cached g l cont base t.fp)
    (hclean : ¬ t.fp.Dirty) (hs : s < g.csize.toNat * l.length) {cc : BitVec 32}
    (hpos : 0 < cc.toNat) (hcc : s % g.csize.toNat + cc.toNat ≤ g.csize.toNat) :
    ∃ r t' base', writeDirect D (sectorAt g l s) cc t = some (r, t') ∧
      HasTable M g (g.DataOf S) base' T t'.vol ∧ t'.vol.fs = t.vol.fs ∧
      OnlyIn g l base base' ∧ t'.count = t.count ∧ t'.buff = t.buff ∧
      (r = .ok ∧ (∃ buf flag, t'.fp = { t.fp with buf, flag } ∧
          (flag = t.fp.flag ∨ flag = t.fp.clean.flag)) ∧
          Cached g l (fun k => if s ≤ k ∧ k < s + cc.toNat then t.sector (k - s) else cont k)
            base' t'.fp ∨
        r = .diskErr ∧ t'.fp = t.fp.abort .diskErr ∧ ¬ M.Reliable) := by
  obtain ⟨hlimit, hmost, hrun⟩ := hl.run hs hcc
  obtain ⟨res, drv, base', hwrite, hv', hother, hdata, hrel⟩ := hv.writeData hM hl.layout.table
    hpos hmost hlimit fun i hi => (hrun i hi).2 ▸ hl.data (hrun i hi).1
  have honly : OnlyIn g l base base' := fun q hq =>
    hother q fun i hi => (hrun i hi).2 ▸ hq _ (hrun i hi).1
  rw [writeDirect, hwrite]
  simp only [Option.bind_eq_bind, Option.bind_some]
  by_cases hres : res = .ok
  · rw [if_pos hres]
    have hnew : ∀ k, s ≤ k ∧ k < s + cc.toNat → base' (sectorAt g l k) = t.sector (k - s) := by
      intro k hk
      have hsector := (hrun (k - s) (by omega)).2
      rw [Nat.add_sub_cancel' hk.1] at hsector
      rw [← hsector]
      exact hdata hres _ (by omega)
    have hold : ∀ k < g.csize.toNat * l.length, ¬ (s ≤ k ∧ k < s + cc.toNat) →
        base' (sectorAt g l k) = base (sectorAt g l k) := by
      intro k hk hout
      refine hother _ fun i hi heq => hout ?_
      obtain ⟨hsi, hsector⟩ := hrun i hi
      rw [hsector] at heq
      have := hl.inj hk hsi heq
      omega
    have hdisk : ∀ k < g.csize.toNat * l.length, base' (sectorAt g l k) =
        if s ≤ k ∧ k < s + cc.toNat then t.sector (k - s) else cont k := by
      intro k hk
      split_ifs with hin
      · exact hnew k hin
      · exact (hold k hk hin).trans (hcache.disk k hk fun hd => absurd hd hclean)
    refine ⟨_, _, base', rfl, hv', rfl, honly, rfl, rfl, Or.inl ⟨rfl, ?_, ?_⟩⟩
    · dsimp only
      split_ifs
      · exact ⟨_, _, rfl, Or.inr rfl⟩
      · exact ⟨_, _, rfl, Or.inl rfl⟩
    · by_cases hover : t.fp.sect - sectorAt g l s < cc
      · -- the buffered sector is one of those that were written
        rw [if_pos hover]
        obtain ⟨hsi, hsector⟩ := hrun _ hover
        have hsect : t.fp.sect = sectorAt g l (s + (t.fp.sect - sectorAt g l s).toNat) := by
          rw [← hsector, BitVec.ofNat_toNat, BitVec.setWidth_eq]
          bv_omega
        refine ⟨fun k hk _ => hdisk k hk, fun k hk heq => ?_, Or.inr ⟨_, hsi, hsect⟩⟩
        obtain rfl := hl.inj hsi hk (hsect.symm.trans heq)
        rw [if_pos ⟨by omega, Nat.add_lt_add_left hover s⟩, Nat.add_sub_cancel_left]
        rfl
      · rw [if_neg hover]
        refine ⟨fun k hk _ => hdisk k hk, fun k hk heq => ?_, hcache.place⟩
        rw [if_neg, hcache.buf k hk heq]
        rintro ⟨hlow, hhigh⟩
        have hsector := (hrun (k - s) (by omega)).2
        rw [Nat.add_sub_cancel' hlow, ← heq] at hsector
        apply hover
        rw [← hsector]
        have := cc.isLt
        bv_omega
  · rw [if_neg hres]
    exact ⟨_, _, base', rfl, hv', rfl, honly, rfl, rfl,
      Or.inr ⟨rfl, rfl, fun hM => hres (hrel hM)⟩⟩

/-- The sector is in the buffer, or the file ends before it. -/
theorem writeCache_spec (hM : M.Answers) (hl : Accessible M g S T l)
    (hv : HasTable M g (g.DataOf S) base T v) (hcache : Cached g l cont base fp)
    (hclean : ¬ fp.Dirty) (hs : s < g.csize.toNat * l.length) (hptr : fp.fptr.toNat = 512 * s) :
    ∃ r fp' v', writeCache D (sectorAt g l s) fp v = some (r, fp', v') ∧
      HasTable M g (g.DataOf S) base T v' ∧ v'.fs = v.fs ∧
      (r = .ok ∧ (∃ buf, fp' = { fp with buf, sect := sectorAt g l s } ∧
          (buf = cont s ∨ fp.objsize.toNat ≤ 512 * s)) ∨
        r = .diskErr ∧ (∃ buf, fp' = { fp with buf }.abort .diskErr) ∧ ¬ M.Reliable) := by
  by_cases hfill : fp.sect ≠ sectorAt g l s ∧ fp.fptr < fp.objsize
  · obtain ⟨r, fp₁, v₁, hread, hv₁, hfs, hcases⟩ := fillBuf_spec hM hl hv hs fp
    rw [writeCache, if_pos hfill, hread]
    simp only [Option.bind_eq_bind, Option.bind_some]
    rcases hcases with ⟨rfl, rfl⟩ | ⟨rfl, ⟨buf, rfl⟩, hrel⟩
    · rw [if_neg (not_not.mpr rfl)]
      exact ⟨_, _, _, rfl, hv₁, hfs,
        Or.inl ⟨rfl, _, rfl, Or.inl (hcache.disk s hs fun hd => absurd hd hclean)⟩⟩
    · exact ⟨_, _, _, rfl, hv₁, hfs, Or.inr ⟨rfl, ⟨buf, rfl⟩, hrel⟩⟩
  · rw [writeCache, if_neg hfill]
    refine ⟨_, _, _, rfl, hv, rfl, Or.inl ⟨rfl, fp.buf, rfl, ?_⟩⟩
    by_cases heq : fp.sect = sectorAt g l s
    · exact Or.inl (hcache.buf s hs heq)
    · have hend : ¬ fp.fptr < fp.objsize := fun hlt => hfill ⟨heq, hlt⟩
      rw [BitVec.lt_def] at hend
      omega

/-! ### The bytes -/

theorem Wrote.of_old {cont₁ cont' : Nat → Sector} {F n N : Nat} {src : Nat → Byte}
    (h : Wrote cont₁ cont' F n N src) (hold : ∀ j < N, cont₁ (j / 512) = cont (j / 512)) :
    Wrote cont cont' F n N src :=
  ⟨h.new, fun j hj hout => by rw [h.old j hj hout, flatten, hold j hj, flatten]⟩

/-- A part of one sector. -/
theorem Wrote.part {F n N : Nat} {src : Nat → Byte} {buf : Sector}
    (hin : F % 512 + n ≤ 512) (hnew : ∀ j < n, byteAt buf (F + j) = src j)
    (hold : ∀ j < N, j / 512 = F / 512 → ¬ (F ≤ j ∧ j < F + n) →
      byteAt buf j = byteAt (cont (F / 512)) j) :
    Wrote cont (Function.update cont (F / 512) buf) F n N src := by
  refine ⟨fun j hj => ?_, fun j hj hout => ?_⟩
  · rw [flatten, show (F + j) / 512 = F / 512 by omega, Function.update_self, hnew j hj]
  · rw [flatten, flatten]
    by_cases hsame : j / 512 = F / 512
    · rw [hsame, Function.update_self, hold j hj hsame hout]
    · rw [Function.update_of_ne hsame]

/-- Whole sectors. -/
theorem Wrote.whole {cc N : Nat} :
    Wrote cont (fun k => if s ≤ k ∧ k < s + cc then t.sector (k - s) else cont k) (512 * s)
      (512 * cc) N fun j => t.buff (t.count.toNat + j) := by
  refine ⟨fun j hj => ?_, fun j _ hout => ?_⟩
  · have hdiv : (512 * s + j) / 512 = s + j / 512 := by omega
    rw [flatten, hdiv, if_pos ⟨by omega, by omega⟩, Nat.add_sub_cancel_left]
    show t.buff (t.count.toNat + 512 * (j / 512) + (512 * s + j) % 512) = _
    congr 1
    omega
  · rw [flatten, if_neg (by omega), flatten]

/-! ### One turn of the loop, with the cluster -/

/-- What `f_write` never changes of a file object. -/
structure Fil.SameMode (fp fp' : Fil) : Prop where
  objFs : fp'.objFs = fp.objFs
  id : fp'.id = fp.id
  mode : fp'.flag &&& 0x03 = fp.flag &&& 0x03

theorem Fil.SameMode.trans {fp'' : Fil} (h : fp.SameMode fp') (h' : fp'.SameMode fp'') :
    fp.SameMode fp'' :=
  ⟨h'.objFs.trans h.objFs, h'.id.trans h.id, h'.mode.trans h.mode⟩

/-- `k` more bytes are written. -/
structure FileIo.Moved (t : FileIo σ) (k : Nat) (t' : FileIo σ) : Prop where
  buff : t'.buff = t.buff
  count : t'.count.toNat = t.count.toNat + k
  ptr : t'.fp.fptr.toNat = t.fp.fptr.toNat + k
  size : t'.fp.objsize.toNat = max t.fp.objsize.toNat (t.fp.fptr.toNat + k)
  err : t'.fp.err = t.fp.err
  mode : t.fp.SameMode t'.fp

theorem FileIo.Moved.trans {t'' : FileIo σ} {j k : Nat} (h : t.Moved j t') (h' : t'.Moved k t'') :
    t.Moved (j + k) t'' where
  buff := h'.buff.trans h.buff
  count := by rw [h'.count, h.count, Nat.add_assoc]
  ptr := by rw [h'.ptr, h.ptr, Nat.add_assoc]
  size := by rw [h'.size, h.size, h.ptr]; omega
  err := h'.err.trans h.err
  mode := h.mode.trans h'.mode

theorem FileIo.Moved.of_fp {k : Nat} {vol : Vol σ} (h : FileIo.Moved { t with fp, vol } k t')
    (hptr : fp.fptr = t.fp.fptr) (hsize : fp.objsize = t.fp.objsize) (herr : fp.err = t.fp.err)
    (hmode : t.fp.SameMode fp) : t.Moved k t' :=
  ⟨h.buff, h.count, hptr ▸ h.ptr, hptr ▸ hsize ▸ h.size, h.err.trans herr, hmode.trans h.mode⟩

theorem Fil.dirty_or (flag : Byte) : (flag ||| FA_DIRTY) &&& FA_DIRTY ≠ 0 := by
  intro hzero
  have hbit := congrArg (BitVec.getLsbD · 7) hzero
  simp [FA_DIRTY] at hbit

/-- The end of a turn. -/
theorem FileIo.Moved.advance {n : BitVec 32} (hbuff : t'.buff = t.buff)
    (hcount : t'.count = t.count) (hptr : t'.fp.fptr = t.fp.fptr)
    (hsize : t'.fp.objsize = t.fp.objsize) (hin : t.fp.fptr ≤ t.fp.objsize)
    (herr : t'.fp.err = t.fp.err) (hmode : t.fp.SameMode t'.fp)
    (hcnt : t.count.toNat + n.toNat < 2 ^ 32) (hroom : t.fp.fptr.toNat + n.toNat < 2 ^ 32) :
    t.Moved n.toNat (t'.advanceWrite n) := by
  have hsum : (t'.fp.fptr + n).toNat = t.fp.fptr.toNat + n.toNat := by
    rw [hptr, BitVec.toNat_add, Nat.mod_eq_of_lt hroom]
  refine ⟨hbuff, ?_, hsum, ?_, herr, ⟨hmode.objFs, hmode.id, hmode.mode⟩⟩
  · show (t'.count + n).toNat = _
    rw [hcount, BitVec.toNat_add, Nat.mod_eq_of_lt hcnt]
  · show (if t'.fp.objsize < t'.fp.fptr + n then t'.fp.fptr + n else t'.fp.objsize).toNat = _
    have hin' : t.fp.fptr.toNat ≤ t.fp.objsize.toNat := hin
    rw [hsize]
    split_ifs with hlt
    · rw [BitVec.lt_def] at hlt
      omega
    · rw [BitVec.lt_def] at hlt
      omega

theorem FileIo.Moved.placed {k : Nat} (h : t.Moved k t') (hfirst : t'.fp.sclust = l.head?.getD 0)
    (hsize : t.fp.objsize.toNat ≤ 512 * (g.csize.toNat * l.length))
    (hend : t.fp.fptr.toNat + k ≤ 512 * (g.csize.toNat * l.length))
    (hclust : l[(t.fp.fptr.toNat + k - 1) / 512 / g.csize.toNat]? = some t'.fp.clust)
    (hhere : (t.fp.fptr.toNat + k) % 512 ≠ 0 →
      t'.fp.sect = sectorAt g l ((t.fp.fptr.toNat + k) / 512)) : Placed g l t'.fp where
  first := hfirst
  size := by rw [h.size]; exact Nat.max_le.mpr ⟨hsize, hend⟩
  ptr := by rw [BitVec.le_def, h.size, h.ptr]; exact Nat.le_max_right _ _
  clust := fun _ => by rw [h.ptr]; exact hclust
  here := by rw [h.ptr]; exact hhere

/-- What a turn has done: `k` bytes are in the file, or a disk call has failed. -/
structure TurnDone (M : Media D) (g : Geometry) (S : BitVec 32 → Prop)
    (T : BitVec 32 → BitVec 32) (l : List (BitVec 32)) (cont : Nat → Sector)
    (base : Lba → Sector) (btw : BitVec 32) (t : FileIo σ) (r : Fresult) (n : BitVec 32)
    (t' : FileIo σ) (base' : Lba → Sector) (cont' : Nat → Sector) : Prop where
  table : HasTable M g (g.DataOf S) base' T t'.vol
  hints : t'.vol.fs.toHints = t.vol.fs.toHints
  only : OnlyIn g l base base'
  outcome : r = .ok ∧ 0 < n.toNat ∧ n.toNat ≤ btw.toNat ∧ t.Moved n.toNat (t'.advanceWrite n) ∧
      Placed g l (t'.advanceWrite n).fp ∧ Cached g l cont' base' (t'.advanceWrite n).fp ∧
      Wrote cont cont' t.fp.fptr.toNat n.toNat t.fp.objsize.toNat
        (fun j => t.buff (t.count.toNat + j)) ∨
    r = .diskErr ∧ t'.count = t.count ∧ t'.fp.err = .diskErr ∧ t.fp.SameMode t'.fp ∧ ¬ M.Reliable

/-- A turn that begins with another file object than the caller's. -/
theorem TurnDone.of_fp {base₁ base' : Lba → Sector} {cont₁ cont' : Nat → Sector}
    {btw n : BitVec 32} {vol : Vol σ}
    (h : TurnDone M g S T l cont₁ base₁ btw { t with fp, vol } r n t' base' cont')
    (hhints : vol.fs.toHints = t.vol.fs.toHints) (honly : OnlyIn g l base base₁)
    (hptr : fp.fptr = t.fp.fptr) (hsize : fp.objsize = t.fp.objsize) (herr : fp.err = t.fp.err)
    (hmode : t.fp.SameMode fp)
    (hold : ∀ j < t.fp.objsize.toNat, cont₁ (j / 512) = cont (j / 512)) :
    TurnDone M g S T l cont base btw t r n t' base' cont' where
  table := h.table
  hints := h.hints.trans hhints
  only := honly.trans h.only
  outcome := h.outcome.imp
    (fun ⟨hr, hpos, hle, hmoved, hplaced, hcached, hwrote⟩ =>
      ⟨hr, hpos, hle, hmoved.of_fp hptr hsize herr hmode, hplaced, hcached,
        Wrote.of_old (hptr ▸ hsize ▸ hwrote) hold⟩)
    fun ⟨hr, hcount, herr', hmode', hrel⟩ => ⟨hr, hcount, herr', hmode.trans hmode', hrel⟩

/-- Copying into the buffer when the sector is in it, or when the file ends before it. -/
theorem copyIn_spec {btw : BitVec 32} (hl : Accessible M g S T l)
    (hv : HasTable M g (g.DataOf S) base T t.vol) (hfirst : t.fp.sclust = l.head?.getD 0)
    (hsize : t.fp.objsize.toNat ≤ 512 * (g.csize.toNat * l.length))
    (hin : t.fp.fptr ≤ t.fp.objsize) (hpos : 0 < btw.toNat)
    (hroom : t.fp.fptr.toNat + btw.toNat < 2 ^ 32) (hcnt : t.count.toNat + btw.toNat < 2 ^ 32)
    (hs : t.fp.fptr.toNat / 512 < g.csize.toNat * l.length)
    (hsect : t.fp.sect = sectorAt g l (t.fp.fptr.toNat / 512))
    (hclust : l[t.fp.fptr.toNat / 512 / g.csize.toNat]? = some t.fp.clust)
    (hdisk : ∀ k < g.csize.toNat * l.length, k ≠ t.fp.fptr.toNat / 512 →
      base (sectorAt g l k) = cont k)
    (hbuf : t.fp.buf = cont (t.fp.fptr.toNat / 512) ∨
      t.fp.objsize.toNat ≤ 512 * (t.fp.fptr.toNat / 512)) :
    TurnDone M g S T l cont base btw t .ok (copyIn btw t).1 (copyIn btw t).2 base
      (Function.update cont (t.fp.fptr.toNat / 512) (copyIn btw t).2.fp.buf) := by
  have hn := toNat_restOfSector t.fp.fptr btw
  have hmod : (t.fp.fptr % 512).toNat = t.fp.fptr.toNat % 512 := BitVec.toNat_umod
  unfold copyIn
  dsimp only
  rw [hmod]
  generalize restOfSector t.fp.fptr btw = n at hn
  have hmode : (t.fp.flag ||| FA_DIRTY) &&& 0x03 = t.fp.flag &&& 0x03 := by
    rw [BitVec.and_or_distrib_right, show FA_DIRTY &&& 0x03 = 0#8 by decide, BitVec.or_zero]
  refine ⟨hv, rfl, .refl _ _ _, ?_⟩
  have hmoved : t.Moved n.toNat (FileIo.advanceWrite ⟨t.count, t.buff, { t.fp with
      buf := fun k => if t.fp.fptr.toNat % 512 ≤ k ∧ k < t.fp.fptr.toNat % 512 + n.toNat then
        t.buff (t.count.toNat + (k - t.fp.fptr.toNat % 512)) else t.fp.buf k
      flag := t.fp.flag ||| FA_DIRTY }, t.vol⟩ n) :=
    .advance rfl rfl rfl rfl hin rfl ⟨rfl, rfl, hmode⟩ (by omega) (by omega)
  refine Or.inl ⟨rfl, by omega, by omega, hmoved, hmoved.placed hfirst hsize (by omega) ?_ ?_, ?_,
    Wrote.part (by omega) (fun j hj => ?_) fun j hj hsame hout => ?_⟩
  · rw [show (t.fp.fptr.toNat + n.toNat - 1) / 512 = t.fp.fptr.toNat / 512 by omega]
    exact hclust
  · intro hne
    rw [show (t.fp.fptr.toNat + n.toNat) / 512 = t.fp.fptr.toNat / 512 by omega]
    exact hsect
  · refine ⟨fun k hk hd => ?_, fun k hk heq => ?_, Or.inr ⟨_, hs, hsect⟩⟩
    · have hne : k ≠ t.fp.fptr.toNat / 512 := by
        rintro rfl
        exact hd (Fil.dirty_or t.fp.flag) hsect.symm
      rw [Function.update_of_ne hne, hdisk k hk hne]
    · obtain rfl := hl.inj hs hk (hsect.symm.trans heq)
      rw [Function.update_self]
      rfl
  · show (if _ ≤ (t.fp.fptr.toNat + j) % 512 ∧ (t.fp.fptr.toNat + j) % 512 < _ then
      t.buff (t.count.toNat + ((t.fp.fptr.toNat + j) % 512 - t.fp.fptr.toNat % 512)) else _) = _
    rw [if_pos ⟨by omega, by omega⟩]
    congr 2
    omega
  · show (if _ ≤ j % 512 ∧ j % 512 < _ then _ else byteAt t.fp.buf j) = _
    rw [if_neg (by omega), hbuf.resolve_right (by omega)]

theorem AtSector.lt {csect btw : BitVec 32} (hl : Accessible M g S T l)
    (hat : AtSector g l s csect btw fp) : s < g.csize.toNat * l.length := by
  have hlt := (List.getElem?_eq_some_iff.mp hat.clust).1
  rw [Nat.mul_comm]
  exact (Nat.div_lt_iff_lt_mul hl.layout.csize_pos).mp hlt

theorem Fil.clean_mode (fp : Fil) : fp.clean.flag &&& 0x03 = fp.flag &&& 0x03 := by
  show fp.flag &&& ~~~FA_DIRTY &&& 0x03 = fp.flag &&& 0x03
  rw [BitVec.and_assoc]
  rfl

theorem writeDirect_done {btw csect : BitVec 32} (hM : M.Answers) (hl : Accessible M g S T l)
    (hv : HasTable M g (g.DataOf S) base T t.vol) (hcache : Cached g l cont base t.fp)
    (hclean : ¬ t.fp.Dirty) (hat : AtSector g l s csect btw t.fp)
    (hin : t.fp.fptr ≤ t.fp.objsize) (hroom : t.fp.fptr.toNat + btw.toNat < 2 ^ 32)
    (hcnt : t.count.toNat + btw.toNat < 2 ^ 32) (hwhole : 0 < btw.toNat / 512) :
    ∃ r t' base' cont', writeDirect D (sectorAt g l s)
        (directCount (g.csize.setWidth 32) csect btw) t = some (r, t') ∧
      TurnDone M g S T l cont base btw t r (512 * directCount (g.csize.setWidth 32) csect btw) t'
        base' cont' := by
  have hs := hat.lt hl
  have hmod := Nat.mod_lt s hl.layout.csize_pos
  have hcount := toNat_directCount (g := g) (n := btw) (hat.csect ▸ hmod)
  rw [hat.csect] at hcount
  generalize directCount (g.csize.setWidth 32) csect btw = cc at hcount
  have hmul : (512 * cc).toNat = 512 * cc.toNat := by
    rw [BitVec.toNat_mul]
    exact Nat.mod_eq_of_lt (by
      show 512 * cc.toNat < 2 ^ 32
      omega)
  obtain ⟨-, -, hrun⟩ := hl.run hs (show s % g.csize.toNat + cc.toNat ≤ g.csize.toNat by omega)
  obtain ⟨r, t', base', h, hv', hfs, honly, hsame, hbuff, hcases⟩ :=
    writeDirect_spec hM hl hv hcache hclean hs (show 0 < cc.toNat by omega) (by omega)
  have hhints := congrArg FatFs.toHints hfs
  rcases hcases with ⟨rfl, ⟨buf, flag, hfp, hflag⟩, hcache'⟩ | ⟨rfl, hfp, hrel⟩
  · have hmode : t.fp.SameMode t'.fp := by
      rw [hfp]
      refine ⟨rfl, rfl, ?_⟩
      rcases hflag with rfl | rfl
      · rfl
      · exact t.fp.clean_mode
    have hmoved : t.Moved (512 * cc).toNat (t'.advanceWrite (512 * cc)) :=
      .advance hbuff hsame (by rw [hfp]) (by rw [hfp]) hin (by rw [hfp]) hmode (by omega)
        (by omega)
    have hlast := (hrun (cc.toNat - 1) (by omega)).1
    refine ⟨_, t', base',
      fun k => if s ≤ k ∧ k < s + cc.toNat then t.sector (k - s) else cont k, h, hv', hhints,
      honly, Or.inl ⟨rfl, by omega, by omega, hmoved,
        hmoved.placed ((congrArg Fil.sclust hfp).trans hat.first) hat.size ?_ ?_ ?_,
        ⟨hcache'.disk, hcache'.buf, hcache'.place⟩, ?_⟩⟩
    · rw [hat.ptr, hmul]
      omega
    · rw [hat.ptr, hmul, show (512 * s + 512 * cc.toNat - 1) / 512 = s + (cc.toNat - 1) by omega,
        add_div_of_mod_add_lt (by omega)]
      exact hat.clust.trans (congrArg some (congrArg Fil.clust hfp).symm)
    · intro hne
      rw [hat.ptr, hmul] at hne
      omega
    · rw [hat.ptr, hmul]
      exact .whole
  · refine ⟨_, t', base', cont, h, hv', hhints, honly,
      Or.inr ⟨rfl, hsame, congrArg Fil.err hfp, ?_, hrel⟩⟩
    rw [hfp]
    exact ⟨rfl, rfl, rfl⟩

theorem writeSectors_eq {btw csect : BitVec 32} (hl : Accessible M g S T l)
    (hv : HasTable M g (g.DataOf S) base T t.vol) (hat : AtSector g l s csect btw t.fp) :
    writeSectors D csect btw t =
      if 0 < btw / 512 then
        (writeDirect D (sectorAt g l s) (directCount (g.csize.setWidth 32) csect btw) t).bind
          fun (res, t) => some (res, 512 * directCount (g.csize.setWidth 32) csect btw, t)
      else
        (writeCache D (sectorAt g l s) t.fp t.vol).bind fun (res, fp, vol) =>
          if res ≠ .ok then some (res, 0, { t with fp, vol })
          else some (.ok, copyIn btw { t with fp, vol }) := by
  have hcluster := hl.cluster _ (List.mem_of_getElem? hat.clust)
  unfold writeSectors
  dsimp only
  rw [hv.geometry, if_neg (Geometry.clst2sect_ne_zero hl.layout M.limit_lt hcluster),
    clst2sect_add hat.clust hat.csect]
  rfl

theorem writeSectors_spec {btw csect : BitVec 32} (hM : M.Answers) (hl : Accessible M g S T l)
    (hv : HasTable M g (g.DataOf S) base T t.vol) (hcache : Cached g l cont base t.fp)
    (hclean : ¬ t.fp.Dirty) (hat : AtSector g l s csect btw t.fp)
    (hin : t.fp.fptr ≤ t.fp.objsize) (hroom : t.fp.fptr.toNat + btw.toNat < 2 ^ 32)
    (hcnt : t.count.toNat + btw.toNat < 2 ^ 32) :
    ∃ r n t' base' cont', writeSectors D csect btw t = some (r, n, t') ∧
      TurnDone M g S T l cont base btw t r n t' base' cont' := by
  have hs := hat.lt hl
  have hdiv : t.fp.fptr.toNat / 512 = s := by
    have := hat.ptr
    omega
  rw [writeSectors_eq hl hv hat]
  split_ifs with hwhole
  · obtain ⟨r, t', base', cont', hdirect, hdone⟩ :=
      writeDirect_done hM hl hv hcache hclean hat hin hroom hcnt (div_512_pos hwhole)
    rw [hdirect]
    exact ⟨_, _, _, base', cont', rfl, hdone⟩
  · obtain ⟨r, fp₂, v₂, hcached, hv₂, hfs, hcases⟩ :=
      writeCache_spec hM hl hv hcache hclean hs hat.ptr
    have hhints := congrArg FatFs.toHints hfs
    rw [hcached]
    simp only [Option.bind_some]
    rcases hcases with ⟨rfl, buf, rfl, hbuf⟩ | ⟨rfl, ⟨buf, rfl⟩, hrel⟩
    · rw [if_neg (not_not.mpr rfl)]
      have hdisk : ∀ k < g.csize.toNat * l.length, k ≠ t.fp.fptr.toNat / 512 →
          base (sectorAt g l k) = cont k :=
        fun k hk _ => hcache.disk k hk fun hd => absurd hd hclean
      have hdone := copyIn_spec
        (t := ⟨t.count, t.buff, { t.fp with buf, sect := sectorAt g l s }, v₂⟩) hl hv₂ hat.first
        hat.size hin hat.pos hroom hcnt (hdiv ▸ hs) (congrArg (sectorAt g l) hdiv.symm)
        (hdiv.symm ▸ hat.clust) hdisk (hdiv.symm ▸ hbuf)
      exact ⟨.ok, (copyIn btw _).1, (copyIn btw _).2, base, _, by rw [Prod.mk.eta],
        hdone.of_fp hhints (.refl _ _ _) rfl rfl rfl ⟨rfl, rfl, rfl⟩ fun _ _ => rfl⟩
    · exact ⟨_, _, _, base, cont, rfl, hv₂, hhints, .refl _ _ _,
        Or.inr ⟨rfl, rfl, rfl, ⟨rfl, rfl, rfl⟩, hrel⟩⟩

end Contents

/-! ## The loop -/

/-- What is on a volume: the sectors, the table and the clusters of the files. -/
structure Stored (ι : Type) where
  base : Lba → Sector
  table : BitVec 32 → BitVec 32
  files : Files ι

section Loop

variable {σ ι : Type} [DecidableEq ι] {D : Drive σ} {M : Media D} {g : Geometry}
  {S : BitVec 32 → Prop} {i : ι} {a a' a'' : Stored ι} {v v' v'' : Vol σ}
  {l l' l'' : List (BitVec 32)} {cont cont' cont'' : Nat → Sector} {t t' t'' : FileIo σ}
  {s k : Nat} {btw n : BitVec 32}

/-- The volume has changed, for one file only. -/
structure ForFile (M : Media D) (g : Geometry) (S : BitVec 32 → Prop) (i : ι) (a : Stored ι)
    (v : Vol σ) (a' : Stored ι) (v' : Vol σ) : Prop where
  vol : OnVolume M g S a'.base a'.table a'.files v'
  run : Allocates M g i (v.allocation a.files a.table) (v'.allocation a'.files a'.table)
  foreign : ∀ q, ¬ g.DataOf S q → a'.base q = a.base q
  others : ∀ j lj, j ≠ i → a.files j = some lj → ∀ s < g.csize.toNat * lj.length,
    a'.base (sectorAt g lj s) = a.base (sectorAt g lj s)

theorem ForFile.trans (h : ForFile M g S i a v a' v') (h' : ForFile M g S i a' v' a'' v'') :
    ForFile M g S i a v a'' v'' where
  vol := h'.vol
  run := ⟨h.run.1.trans h'.run.1, fun j hj => (h'.run.2 j hj).trans (h.run.2 j hj)⟩
  foreign := fun q hq => (h'.foreign q hq).trans (h.foreign q hq)
  others := fun j lj hj hlj s hs =>
    (h'.others j lj hj ((h.run.2 j hj).trans hlj) s hs).trans (h.others j lj hj hlj s hs)

theorem ForFile.refl (hvol : OnVolume M g S a.base a.table a.files v) : ForFile M g S i a v a v :=
  ⟨hvol, .refl rfl, fun _ _ => rfl, fun _ _ _ _ _ _ => rfl⟩

/-- Other clusters of the file. -/
theorem ForFile.allocated {base : Lba → Sector} {T T' : BitVec 32 → BitVec 32}
    {files files' : Files ι} (hvol : OnVolume M g S base T' files' v')
    (hrun : Allocates M g i (v.allocation files T) (v'.allocation files' T')) :
    ForFile M g S i ⟨base, T, files⟩ v ⟨base, T', files'⟩ v' :=
  ⟨hvol, hrun, fun _ _ => rfl, fun _ _ _ _ _ _ => rfl⟩

/-- Other sectors of the file. -/
theorem ForFile.sectors {base base' : Lba → Sector} {T : BitVec 32 → BitVec 32} {files : Files ι}
    (hvol : OnVolume M g S base T files v) (hi : files i = some l)
    (hv' : HasTable M g (g.DataOf S) base' T v') (hhints : v'.fs.toHints = v.fs.toHints)
    (honly : OnlyIn g l base base') :
    ForFile M g S i ⟨base, T, files⟩ v ⟨base', T, files⟩ v' := by
  have hl := hvol.accessible hi
  refine ⟨{ hvol with table := hv' }, .refl hhints, fun q hq => honly q fun s hs heq => hq ?_,
    fun j lj hj hlj s hs => honly _ fun s' hs' => ?_⟩
  · exact heq ▸ hl.data hs
  · exact sectorAt_apart hvol.layout M.limit_lt (hvol.accessible hlj).cluster hl.cluster
      (hvol.owned.apart j i lj l hj hlj hi) hs hs'

/-- `k` bytes are written, and the file object is ready for more. -/
structure Written (M : Media D) (g : Geometry) (S : BitVec 32 → Prop) (i : ι) (a : Stored ι)
    (cont : Nat → Sector) (t : FileIo σ) (k : Nat) (a' : Stored ι) (l' : List (BitVec 32))
    (cont' : Nat → Sector) (t' : FileIo σ) : Prop where
  moved : t.Moved k t'
  change : ForFile M g S i a t.vol a' t'.vol
  mine : a'.files i = some l'
  placed : Placed g l' t'.fp
  cached : Cached g l' cont' a'.base t'.fp
  wrote : Wrote cont cont' t.fp.fptr.toNat k t.fp.objsize.toNat
    fun j => t.buff (t.count.toNat + j)

theorem Written.trans {j k : Nat} (h : Written M g S i a cont t j a' l' cont' t')
    (h' : Written M g S i a' cont' t' k a'' l'' cont'' t'') :
    Written M g S i a cont t (j + k) a'' l'' cont'' t'' where
  moved := h.moved.trans h'.moved
  change := h.change.trans h'.change
  mine := h'.mine
  placed := h'.placed
  cached := h'.cached
  wrote := by
    have hrest := h'.wrote
    rw [h.moved.ptr, h.moved.size, h.moved.buff, h.moved.count] at hrest
    refine h.wrote.trans ⟨fun m hm => ?_, hrest.old⟩
    rw [hrest.new m hm, Nat.add_assoc]

/-- Nothing is written. -/
theorem Written.nothing (hvol : OnVolume M g S a.base a.table a.files v')
    (hhints : v'.fs.toHints = t.vol.fs.toHints) (hi : a.files i = some l)
    (hp : Placed g l t.fp) (hcache : Cached g l cont a.base t.fp) :
    Written M g S i a cont t 0 a l cont { t with vol := v' } where
  moved := ⟨rfl, rfl, rfl, (Nat.max_eq_left hp.ptr).symm, rfl, ⟨rfl, rfl, rfl⟩⟩
  change := ⟨hvol, .refl hhints, fun _ _ => rfl, fun _ _ _ _ _ _ => rfl⟩
  mine := hi
  placed := hp
  cached := hcache
  wrote := ⟨fun j hj => absurd hj (Nat.not_lt_zero j), fun _ _ _ => rfl⟩

/-- The call has failed, and the file object says so. -/
def Broken (M : Media D) (g : Geometry) (S : BitVec 32 → Prop) (i : ι) (a : Stored ι)
    (t : FileIo σ) (e : Fresult) (a' : Stored ι) (t' : FileIo σ) : Prop :=
  ForFile M g S i a t.vol a' t'.vol ∧ e ≠ .ok ∧ t'.fp.err = e ∧ t'.count = t.count ∧
    t.fp.SameMode t'.fp ∧ (¬ M.Reliable ∨ ∃ d, g.Cluster d ∧ a.table d = 1)

/-- How a turn of the loop ends. -/
inductive StepEnd (M : Media D) (g : Geometry) (S : BitVec 32 → Prop) (i : ι) (a : Stored ι)
    (cont : Nat → Sector) (btw : BitVec 32) (t : FileIo σ) :
    Option Fresult → BitVec 32 → FileIo σ → Prop
  | ok {a' : Stored ι} {l' : List (BitVec 32)} {cont' : Nat → Sector} {n : BitVec 32}
      {t' : FileIo σ} (hw : Written M g S i a cont t n.toNat a' l' cont' (t'.advanceWrite n))
      (hpos : 0 < n.toNat) (hle : n.toNat ≤ btw.toNat) :
      StepEnd M g S i a cont btw t (some .ok) n t'
  /-- no cluster is left -/
  | full {v' : Vol σ} (hvol : OnVolume M g S a.base a.table a.files v')
      (hhints : v'.fs.toHints = t.vol.fs.toHints)
      (hfull : v'.fs.freeClst = 0 ∨ Full g a.table) :
      StepEnd M g S i a cont btw t none 0 { t with vol := v' }
  | failed {a' : Stored ι} {e : Fresult} {n : BitVec 32} {t' : FileIo σ}
      (hb : Broken M g S i a t e a' t') : StepEnd M g S i a cont btw t (some e) n t'

/-- A disk call has failed after the cluster was found. -/
theorem Broken.of_disk {base base' : Lba → Sector} {T : BitVec 32 → BitVec 32} {files : Files ι}
    (hchange : ForFile M g S i a t.vol ⟨base, T, files⟩ v)
    (hmine : files i = some l) (hv' : HasTable M g (g.DataOf S) base' T t'.vol)
    (hhints : t'.vol.fs.toHints = v.fs.toHints) (honly : OnlyIn g l base base')
    (hcount : t'.count = t.count) (herr : t'.fp.err = .diskErr) (hmode : t.fp.SameMode t'.fp)
    (hrel : ¬ M.Reliable) : Broken M g S i a t .diskErr ⟨base', T, files⟩ t' :=
  ⟨hchange.trans (.sectors hchange.vol hmine hv' hhints honly), by decide, herr, hcount, hmode,
    Or.inl hrel⟩

/-- A turn at the boundary of a sector, when the cluster is found. -/
theorem StepEnd.of_turn {base base' : Lba → Sector} {T : BitVec 32 → BitVec 32}
    {files : Files ι} {r : Fresult} (hchange : ForFile M g S i a t.vol ⟨base, T, files⟩ v)
    (hmine : files i = some l)
    (hturn : TurnDone M g S T l cont base btw { t with vol := v } r n t' base' cont') :
    StepEnd M g S i a cont btw t (some r) n t' := by
  rcases hturn.outcome with ⟨rfl, hpos, hle, hmoved, hplaced, hcached, hwrote⟩ |
    ⟨rfl, hcount, herr, hmode, hrel⟩
  · exact .ok ⟨hmoved.of_fp rfl rfl rfl ⟨rfl, rfl, rfl⟩,
      hchange.trans (.sectors hchange.vol hmine hturn.table hturn.hints hturn.only), hmine,
      hplaced, hcached, hwrote⟩ hpos hle
  · exact .failed (.of_disk hchange hmine hturn.table hturn.hints hturn.only hcount herr
      hmode hrel)

/-- The rest of a turn, after the cluster is found. -/
theorem writeBackSectors_spec {base : Lba → Sector} {T : BitVec 32 → BitVec 32} {files : Files ι}
    {csect c : BitVec 32} (hM : M.Answers)
    (hchange : ForFile M g S i a t.vol ⟨base, T, files⟩ v) (hmine : files i = some l')
    (hl : l <+: l') (hcache : Cached g l cont base t.fp) (hp : Placed g l t.fp)
    (hs : t.fp.fptr.toNat = 512 * s) (hcsect : csect.toNat = s % g.csize.toNat)
    (hc : l'[s / g.csize.toNat]? = some c) (hpos : 0 < btw.toNat)
    (hroom : t.fp.fptr.toNat + btw.toNat < 2 ^ 32)
    (hcnt : t.count.toNat + btw.toNat < 2 ^ 32) :
    ∃ r n t', ((writeBack D { t.fp with clust := c, sclust := l'.head?.getD 0 } v).bind
        fun (res, fp, vol) =>
          if res ≠ .ok then some (some res, 0, { t with fp, vol })
          else (writeSectors D csect btw { t with fp, vol }).bind
            fun (res, wcnt, t) => some (some res, wcnt, t)) = some (r, n, t') ∧
      StepEnd M g S i a cont btw t r n t' := by
  have hacc := hchange.vol.accessible hmine
  obtain ⟨cont₁, hcache₁, hold⟩ := hcache.grow hacc hl
  have hbytes : ∀ j < t.fp.objsize.toNat, cont₁ (j / 512) = cont (j / 512) := by
    intro j hj
    have hsize := hp.size
    exact hold _ (by omega)
  have hcap : t.fp.objsize.toNat ≤ 512 * (g.csize.toNat * l'.length) :=
    hp.size.trans (Nat.mul_le_mul_left _ (Nat.mul_le_mul_left _ hl.length_le))
  have hcache₂ : Cached g l' cont₁ base { t.fp with clust := c, sclust := l'.head?.getD 0 } :=
    ⟨hcache₁.disk, hcache₁.buf, hcache₁.place⟩
  obtain ⟨r₁, fp₁, v₁, base₁, hback, hv₁, hfs, honly, hcases⟩ :=
    writeBack_spec hM hacc hchange.vol.table hcache₂
  have hhints := congrArg FatFs.toHints hfs
  rw [hback]
  simp only [Option.bind_some]
  rcases hcases with ⟨rfl, hfp₁, hclean, hcache₃⟩ | ⟨rfl, rfl, hrel⟩
  · rw [if_neg (not_not.mpr rfl)]
    obtain ⟨flag, hflag, rfl⟩ : ∃ flag, flag &&& 0x03 = t.fp.flag &&& 0x03 ∧
        fp₁ = { t.fp with clust := c, sclust := l'.head?.getD 0, flag } := by
      rcases hfp₁ with rfl | rfl
      · exact ⟨_, rfl, rfl⟩
      · exact ⟨_, t.fp.clean_mode, rfl⟩
    have hat : AtSector g l' s csect btw
        { t.fp with clust := c, sclust := l'.head?.getD 0, flag } :=
      ⟨rfl, hcap, hs, hcsect, hc, hpos⟩
    obtain ⟨r₂, n₂, t₂, base₂, cont₂, hsectors, hturn⟩ := writeSectors_spec
      (t := ⟨t.count, t.buff, { t.fp with clust := c, sclust := l'.head?.getD 0, flag }, v₁⟩)
      hM hacc hv₁ hcache₃ hclean hat hp.ptr hroom hcnt
    rw [hsectors]
    exact ⟨_, _, _, rfl, .of_turn hchange hmine (TurnDone.of_fp (t := { t with vol := v }) hturn
      hhints honly rfl rfl rfl ⟨rfl, rfl, hflag⟩ hbytes)⟩
  · refine ⟨_, _, _, rfl, ?_⟩
    exact .failed (.of_disk hchange hmine hv₁ hhints honly rfl rfl ⟨rfl, rfl, rfl⟩ hrel)

theorem writeStep_spec (hM : M.Answers) (hvol : OnVolume M g S a.base a.table a.files t.vol)
    (hi : a.files i = some l) (hp : Placed g l t.fp) (hcache : Cached g l cont a.base t.fp)
    (hpos : 0 < btw.toNat) (hroom : t.fp.fptr.toNat + btw.toNat < 2 ^ 32)
    (hcnt : t.count.toNat + btw.toNat < 2 ^ 32) :
    ∃ r n t', writeStep D btw t = some (r, n, t') ∧ StepEnd M g S i a cont btw t r n t' := by
  have hl := hvol.accessible hi
  unfold writeStep
  split_ifs with hsector
  · obtain ⟨s, hs, hcsect, -⟩ := hp.sector hl hpos hsector
    dsimp only
    rw [show t.vol.fs.csize = g.csize from congrArg Geometry.csize hvol.table.geometry]
    obtain ⟨r₁, fp₁, v₁, hclust, hdone⟩ := writeClust_spec hM hvol hi hp hs hcsect
    rw [hclust]
    simp only [Option.bind_eq_bind, Option.bind_some]
    cases hdone with
    | ok hvol₁ hrun hmine hl' hc =>
      rw [if_neg (not_not.mpr rfl)]
      exact writeBackSectors_spec hM (.allocated hvol₁ hrun) hmine hl' hcache hp hs hcsect hc hpos
        hroom hcnt
    | full hvol₁ hhints hfull =>
      refine ⟨_, _, _, rfl, .full hvol₁ hhints (hfull.imp_left fun hzero => ?_)⟩
      exact (congrArg Hints.freeClst hhints).trans hzero
    | failed hvol₁ hrun he hwhy =>
      rw [if_pos fun heq => he (Option.some.inj heq)]
      exact ⟨_, _, _, rfl, .failed ⟨.allocated hvol₁ hrun, he, rfl, rfl, ⟨rfl, rfl, rfl⟩, hwhy⟩⟩
  · obtain ⟨hinside, hsect, hclust⟩ := hp.current hsector
    have hsize := hp.size
    have hptr : t.fp.fptr.toNat ≤ t.fp.objsize.toNat := hp.ptr
    have hs : t.fp.fptr.toNat / 512 < g.csize.toNat * l.length := by omega
    have hdisk : ∀ k < g.csize.toNat * l.length, k ≠ t.fp.fptr.toNat / 512 →
        a.base (sectorAt g l k) = cont k := fun k hk hne =>
      hcache.disk k hk fun _ heq => hne (hl.inj hk hs (heq.trans hsect))
    have hturn := copyIn_spec hl hvol.table hp.first hsize hp.ptr hpos hroom hcnt hs hsect hclust
      hdisk (Or.inl (hcache.buf _ hs hsect))
    exact ⟨some .ok, (copyIn btw t).1, (copyIn btw t).2, by rw [Prod.mk.eta],
      .of_turn (.refl hvol) hi hturn⟩

/-- How the loop ends: all is written, or no cluster is left, or the call has failed after it
has written a part. -/
inductive WriteEnd (M : Media D) (g : Geometry) (S : BitVec 32 → Prop) (i : ι) (a : Stored ι)
    (cont : Nat → Sector) (btw : Nat) (t : FileIo σ) : Fresult → FileIo σ → Prop
  | done {a' : Stored ι} {l' : List (BitVec 32)} {cont' : Nat → Sector} {t' : FileIo σ}
      (hw : Written M g S i a cont t btw a' l' cont' t') : WriteEnd M g S i a cont btw t .ok t'
  | full {a' : Stored ι} {l' : List (BitVec 32)} {cont' : Nat → Sector} {k : Nat} {t' : FileIo σ}
      (hw : Written M g S i a cont t k a' l' cont' t') (hk : k < btw)
      (hfull : t'.vol.fs.freeClst = 0 ∨ Full g a'.table) : WriteEnd M g S i a cont btw t .ok t'
  | failed {a₁ a' : Stored ι} {l₁ : List (BitVec 32)} {cont₁ : Nat → Sector} {k : Nat}
      {t₁ t' : FileIo σ} {e : Fresult} (hw : Written M g S i a cont t k a₁ l₁ cont₁ t₁)
      (hk : k < btw) (hb : Broken M g S i a₁ t₁ e a' t') : WriteEnd M g S i a cont btw t e t'

theorem WriteEnd.step {m : Nat} {r : Fresult} (h : Written M g S i a cont t k a' l' cont' t')
    (h' : WriteEnd M g S i a' cont' m t' r t'') : WriteEnd M g S i a cont (k + m) t r t'' := by
  cases h' with
  | done hw => exact .done (h.trans hw)
  | full hw hlt hfull => exact .full (h.trans hw) (Nat.add_lt_add_left hlt k) hfull
  | failed hw hlt hb => exact .failed (h.trans hw) (Nat.add_lt_add_left hlt k) hb

/-- After a turn there is less left to write, and the next can begin. -/
theorem Written.room (h : Written M g S i a cont t n.toNat a' l' cont' t')
    (hle : n.toNat ≤ btw.toNat) (hroom : t.fp.fptr.toNat + btw.toNat < 2 ^ 32)
    (hcnt : t.count.toNat + btw.toNat < 2 ^ 32) :
    n.toNat + (btw - n).toNat = btw.toNat ∧ t'.fp.fptr.toNat + (btw - n).toNat < 2 ^ 32 ∧
      t'.count.toNat + (btw - n).toNat < 2 ^ 32 := by
  have hsub : (btw - n).toNat = btw.toNat - n.toNat := by bv_omega
  rw [h.moved.ptr, h.moved.count, hsub]
  omega

theorem writeLoop_spec {fuel : Nat} (hM : M.Answers)
    (hvol : OnVolume M g S a.base a.table a.files t.vol) (hi : a.files i = some l)
    (hp : Placed g l t.fp) (hcache : Cached g l cont a.base t.fp)
    (hroom : t.fp.fptr.toNat + btw.toNat < 2 ^ 32) (hcnt : t.count.toNat + btw.toNat < 2 ^ 32)
    (hfuel : btw.toNat ≤ fuel) :
    ∃ r t', writeLoop D fuel btw t = some (r, t') ∧
      WriteEnd M g S i a cont btw.toNat t r t' := by
  induction fuel generalizing btw t a l cont with
  | zero =>
    obtain rfl : btw = 0 := by bv_omega
    exact ⟨.ok, t, rfl, .done (.nothing hvol rfl hi hp hcache)⟩
  | succ fuel ih =>
    rw [writeLoop]
    split_ifs with hzero
    · rw [hzero]
      exact ⟨.ok, t, rfl, .done (.nothing hvol rfl hi hp hcache)⟩
    · have hpos : 0 < btw.toNat := by bv_omega
      obtain ⟨r₁, n, t₁, hstep, hend⟩ := writeStep_spec hM hvol hi hp hcache hpos hroom hcnt
      rw [hstep]
      simp only [Option.bind_eq_bind, Option.bind_some]
      cases hend with
      | ok hw hn hle =>
        obtain ⟨hsum, hroom₁, hcnt₁⟩ := hw.room hle hroom hcnt
        obtain ⟨r, t', hloop, hrest⟩ :=
          ih hw.change.vol hw.mine hw.placed hw.cached hroom₁ hcnt₁ (by omega)
        dsimp only
        rw [if_neg (not_not.mpr rfl), ← hsum]
        exact ⟨r, t', hloop, .step hw hrest⟩
      | full hvol₁ hhints hfull =>
        exact ⟨_, _, rfl, .full (.nothing hvol₁ hhints hi hp hcache) hpos hfull⟩
      | failed hb =>
        dsimp only
        rw [if_pos hb.2.1]
        exact ⟨_, _, rfl, .failed (.nothing hvol rfl hi hp hcache) hpos hb⟩

/-! ## The function -/

/-- The number of bytes that `f_write` is to write: a file has less than 4 GiB. -/
def Fil.toWrite (fp : Fil) (btw : BitVec 32) : Nat :=
  min btw.toNat (0xFFFFFFFF - fp.fptr.toNat)

/-- `f_write` returns, and ends as its loop does. -/
theorem fWrite_spec {fp : Fil} (hM : M.Answers) (hvol : OnVolume M g S a.base a.table a.files v)
    (hi : a.files i = some l) (ho : OpenFile M g S a.table a.base l cont fp)
    (hmode : fp.flag &&& FA_WRITE ≠ 0) (buff : Nat → Byte) (btw : BitVec 32) :
    ∃ r t', WriteEnd M g S i a cont (fp.toWrite btw) ⟨0, buff, fp, v⟩ r t' ∧
      fWrite D fp buff btw v = some (r, if r = .ok then
        { t' with fp := { t'.fp with flag := t'.fp.flag ||| FA_MODIFIED } } else t') := by
  obtain ⟨n, hn, heq⟩ : ∃ n : BitVec 32, n.toNat = fp.toWrite btw ∧
      (if fp.fptr + btw < fp.fptr then 0xFFFFFFFF - fp.fptr else btw) = n := by
    refine ⟨_, ?_, rfl⟩
    unfold Fil.toWrite
    split_ifs <;> bv_omega
  have hroom : fp.fptr.toNat + n.toNat < 2 ^ 32 := by
    have hlt := fp.fptr.isLt
    rw [hn, Fil.toWrite]
    omega
  have hcnt : (0 : BitVec 32).toNat + n.toNat < 2 ^ 32 := by simpa using n.isLt
  obtain ⟨r, t', h, hend⟩ := writeLoop_spec (t := ⟨0, buff, fp, v⟩) hM hvol hi ho.placed ho.cached
    hroom hcnt (Nat.le_refl n.toNat)
  refine ⟨r, t', hn ▸ hend, ?_⟩
  unfold fWrite
  dsimp only
  rw [ho.validate hvol.table, if_neg (not_not.mpr rfl), ho.err, if_neg (not_not.mpr rfl),
    if_neg hmode, heq, h]
  simp only [Option.bind_eq_bind, Option.bind_some]
  by_cases hr : r = .ok
  · rw [if_neg (not_not.mpr hr), if_pos hr, hr]
  · rw [if_pos hr, if_neg hr]

end Loop

end ChronOS.Fs
