/-
  Fs/FatRead.lean --- `f_read` of `kernel/src/fs/fat/ff.c`.

  A file object has a buffer of one sector, which may hold data that is not yet on the disk.
  `f_read` goes through the file sector by sector: whole sectors are read directly into the
  caller's memory, as many at a time as the cluster has, and the buffered sector is then put
  over what was read; the rest goes through the buffer.  The chain is followed at the
  boundaries of clusters.
-/
import ChronOS.Fs.FatData

set_option autoImplicit false

namespace ChronOS.Fs

open ChronOS.Foundation

/-! ## The functions -/

/-- `FA_READ`. -/
def FA_READ : Byte := 0x01

/-- `FA_WRITE`. -/
def FA_WRITE : Byte := 0x02

/-- `FA_MODIFIED`. -/
def FA_MODIFIED : Byte := 0x40

/-- `FA_DIRTY`. -/
def FA_DIRTY : Byte := 0x80

/-- `FIL`; `objFs` says whether `obj.fs` points to the volume. -/
structure Fil where
  objFs : Bool
  id : BitVec 16
  sclust : BitVec 32
  objsize : BitVec 32
  flag : Byte
  err : Fresult
  fptr : BitVec 32
  clust : BitVec 32
  sect : Lba
  buf : Sector

namespace Fil

/-- The buffer has to be written back. -/
def Dirty (fp : Fil) : Prop := fp.flag &&& FA_DIRTY ≠ 0

instance (fp : Fil) : Decidable fp.Dirty := inferInstanceAs (Decidable (_ ≠ _))

/-- `fp->flag &= ~FA_DIRTY`. -/
def clean (fp : Fil) : Fil := { fp with flag := fp.flag &&& ~~~FA_DIRTY }

/-- `ABORT`. -/
def abort (fp : Fil) (res : Fresult) : Fil := { fp with err := res }

end Fil

/-- `memcpy` into a buffer of bytes. -/
def blit (buff : Nat → Byte) (off : Nat) (src : Nat → Byte) (n : Nat) (j : Nat) : Byte :=
  if off ≤ j ∧ j < off + n then src (j - off) else buff j

/-- Sectors as bytes. -/
def flatten (data : Nat → Sector) (j : Nat) : Byte := byteAt (data (j / 512)) j

/-- A file operation on the way: the count `*br` or `*bw`, the caller's memory, the file object
and the volume. -/
structure FileIo (σ : Type) where
  count : BitVec 32
  buff : Nat → Byte
  fp : Fil
  vol : Vol σ

/-- What the loops do after each turn. -/
def FileIo.advance {σ : Type} (t : FileIo σ) (n : BitVec 32) : FileIo σ :=
  { t with count := t.count + n, fp := { t.fp with fptr := t.fp.fptr + n } }

section Functions

variable {σ : Type} (D : Drive σ)

/-- `validate`; `disk_status` always returns 0. -/
def validate (fp : Fil) (v : Vol σ) : Fresult :=
  if fp.objFs ∧ v.fs.fsType ≠ .none ∧ fp.id = v.fs.id then .ok else .invalidObject

/-- The checks of a cluster number in `f_read`. -/
def follow (clst : BitVec 32) (fp : Fil) (v : Vol σ) : Option (Fresult × Fil × Vol σ) :=
  if clst < 2 then some (.intErr, fp.abort .intErr, v)
  else if clst = 0xFFFFFFFF then some (.diskErr, fp.abort .diskErr, v)
  else some (.ok, { fp with clust := clst }, v)

/-- The current cluster of `f_read`, which changes at the boundaries of clusters. -/
def readClust (csect : BitVec 32) (fp : Fil) (v : Vol σ) : Option (Fresult × Fil × Vol σ) :=
  if csect = 0 then
    if fp.fptr = 0 then follow fp.sclust fp v
    else do
      let (clst, v) ← getFat D fp.clust v
      follow clst fp v
  else some (.ok, fp, v)

/-- The buffer is written back if it is dirty. -/
def writeBack (fp : Fil) (v : Vol σ) : Option (Fresult × Fil × Vol σ) :=
  if fp.Dirty then do
    let (res, drv) ← D.write (fun _ => fp.buf) fp.sect 1 v.drv
    if res = .ok then some (.ok, fp.clean, ⟨v.fs, drv⟩)
    else some (.diskErr, fp.abort .diskErr, ⟨v.fs, drv⟩)
  else some (.ok, fp, v)

/-- The buffer is filled. -/
def fillBuf (sect : Lba) (fp : Fil) (v : Vol σ) : Option (Fresult × Fil × Vol σ) := do
  let (res, data, drv) ← D.read sect 1 (fun _ => fp.buf) v.drv
  let fp := { fp with buf := data 0 }
  if res = .ok then some (.ok, fp, ⟨v.fs, drv⟩)
  else some (.diskErr, fp.abort .diskErr, ⟨v.fs, drv⟩)

/-- The sector is brought into the buffer. -/
def readCache (sect : Lba) (fp : Fil) (v : Vol σ) : Option (Fresult × Fil × Vol σ) :=
  if fp.sect ≠ sect then do
    let (res, fp, v) ← writeBack D fp v
    if res ≠ .ok then some (res, fp, v)
    else
      let (res, fp, v) ← fillBuf D sect fp v
      if res ≠ .ok then some (res, fp, v) else some (.ok, { fp with sect }, v)
  else some (.ok, { fp with sect }, v)

/-- Whole sectors are read into the caller's memory, and the dirty buffer put over them. -/
def readDirect (sect : Lba) (cc : BitVec 32) (t : FileIo σ) : Option (Fresult × FileIo σ) := do
  let (res, data, drv) ← D.read sect cc (fun i k => t.buff (t.count.toNat + 512 * i + k)) t.vol.drv
  let vol : Vol σ := ⟨t.vol.fs, drv⟩
  if res = .ok then
    let data := if t.fp.Dirty ∧ t.fp.sect - sect < cc then
        Function.update data (t.fp.sect - sect).toNat t.fp.buf
      else data
    let buff := blit t.buff t.count.toNat (flatten data) (512 * cc.toNat)
    some (.ok, { t with buff, vol })
  else
    let buff := blit t.buff t.count.toNat (flatten data) (512 * cc.toNat)
    some (.diskErr, { t with buff, vol, fp := t.fp.abort .diskErr })

/-- The number of bytes that are left in the sector, at most `n`. -/
def restOfSector (fptr n : BitVec 32) : BitVec 32 :=
  let cnt := 512 - fptr % 512
  if n < cnt then n else cnt

/-- Bytes are copied from the buffer. -/
def copyOut (btr : BitVec 32) (t : FileIo σ) : BitVec 32 × FileIo σ :=
  let rcnt := restOfSector t.fp.fptr btr
  (rcnt, { t with
    buff := blit t.buff t.count.toNat
      (fun j => byteAt t.fp.buf ((t.fp.fptr % 512).toNat + j)) rcnt.toNat })

/-- The number of sectors of a direct transfer. -/
def directCount (csize csect n : BitVec 32) : BitVec 32 :=
  let cc := n / 512
  if csize < csect + cc then csize - csect else cc

/-- A turn of the loop of `f_read` at the boundary of a sector, from `clst2sect` on. -/
def readSectors (csect btr : BitVec 32) (t : FileIo σ) :
    Option (Fresult × BitVec 32 × FileIo σ) :=
  let sect := clst2sect t.vol.fs.toGeometry t.fp.clust
  if sect = 0 then some (.intErr, 0, { t with fp := t.fp.abort .intErr })
  else
    let sect := sect + csect
    if 0 < btr / 512 then do
      let cc := directCount (t.vol.fs.csize.setWidth 32) csect btr
      let (res, t) ← readDirect D sect cc t
      some (res, 512 * cc, t)
    else do
      let (res, fp, vol) ← readCache D sect t.fp t.vol
      let t := { t with fp, vol }
      if res ≠ .ok then some (res, 0, t) else some (.ok, copyOut btr t)

/-- One turn of the loop of `f_read`; the number is `rcnt`. -/
def readStep (btr : BitVec 32) (t : FileIo σ) : Option (Fresult × BitVec 32 × FileIo σ) :=
  if t.fp.fptr % 512 = 0 then do
    let csect := t.fp.fptr / 512 &&& (t.vol.fs.csize.setWidth 32 - 1)
    let (res, fp, vol) ← readClust D csect t.fp t.vol
    let t := { t with fp, vol }
    if res ≠ .ok then some (res, 0, t) else readSectors D csect btr t
  else some (.ok, copyOut btr t)

/-- The loop of `f_read`. -/
def readLoop : Nat → BitVec 32 → FileIo σ → Option (Fresult × FileIo σ)
  | 0, btr, t => if btr = 0 then some (.ok, t) else none
  | fuel + 1, btr, t =>
      if btr = 0 then some (.ok, t)
      else do
        let (res, rcnt, t) ← readStep D btr t
        if res ≠ .ok then some (res, t) else readLoop fuel (btr - rcnt) (t.advance rcnt)

/-- `f_read`; the loop moves at least one byte a turn. -/
def fRead (fp : Fil) (buff : Nat → Byte) (btr : BitVec 32) (v : Vol σ) :
    Option (Fresult × FileIo σ) :=
  let t : FileIo σ := ⟨0, buff, fp, v⟩
  if validate fp v ≠ .ok then some (validate fp v, t)
  else if fp.err ≠ .ok then some (fp.err, t)
  else if fp.flag &&& FA_READ = 0 then some (.denied, t)
  else
    let remain := fp.objsize - fp.fptr
    let btr := if remain < btr then remain else btr
    readLoop D btr.toNat btr t

end Functions

/-! ## An open file -/

/-- The file object is at some place of the file with the clusters `l`. -/
structure Placed (g : Geometry) (l : List (BitVec 32)) (fp : Fil) : Prop where
  first : fp.sclust = l.head?.getD 0
  size : fp.objsize.toNat ≤ 512 * (g.csize.toNat * l.length)
  ptr : fp.fptr ≤ fp.objsize
  clust : 0 < fp.fptr.toNat → l[(fp.fptr.toNat - 1) / 512 / g.csize.toNat]? = some fp.clust
  here : fp.fptr.toNat % 512 ≠ 0 → fp.sect = sectorAt g l (fp.fptr.toNat / 512)

/-- The sectors of the file are `cont`, on the disk `base` or in the buffer. -/
structure Cached (g : Geometry) (l : List (BitVec 32)) (cont : Nat → Sector)
    (base : Lba → Sector) (fp : Fil) : Prop where
  disk : ∀ s < g.csize.toNat * l.length, (fp.Dirty → sectorAt g l s ≠ fp.sect) →
    base (sectorAt g l s) = cont s
  buf : ∀ s < g.csize.toNat * l.length, fp.sect = sectorAt g l s → fp.buf = cont s
  place : fp.sect = 0 ∧ ¬ fp.Dirty ∨ ∃ s < g.csize.toNat * l.length, fp.sect = sectorAt g l s

theorem Cached.dirty {g : Geometry} {l : List (BitVec 32)} {cont : Nat → Sector}
    {base : Lba → Sector} {fp : Fil} (h : Cached g l cont base fp) (hdirty : fp.Dirty) :
    ∃ s < g.csize.toNat * l.length, fp.sect = sectorAt g l s :=
  h.place.resolve_left fun hclean => hclean.2 hdirty

/-- No sector differs but those of the clusters `l`. -/
def OnlyIn (g : Geometry) (l : List (BitVec 32)) (base base' : Lba → Sector) : Prop :=
  ∀ q, (∀ s < g.csize.toNat * l.length, q ≠ sectorAt g l s) → base' q = base q

theorem OnlyIn.refl (g : Geometry) (l : List (BitVec 32)) (base : Lba → Sector) :
    OnlyIn g l base base := fun _ _ => rfl

theorem OnlyIn.trans {g : Geometry} {l : List (BitVec 32)} {base base' base'' : Lba → Sector}
    (h : OnlyIn g l base base') (h' : OnlyIn g l base' base'') : OnlyIn g l base base'' :=
  fun q hq => (h' q hq).trans (h q hq)

theorem Fil.not_dirty_clean (fp : Fil) : ¬ fp.clean.Dirty := by
  show ¬ (fp.flag &&& ~~~FA_DIRTY &&& FA_DIRTY ≠ 0)
  rw [BitVec.and_assoc, show ~~~FA_DIRTY &&& FA_DIRTY = 0#8 by decide, BitVec.and_zero]
  exact not_not.mpr rfl

/-- Clearing that flag changes no other. -/
theorem Fil.clean_flag (fp : Fil) : fp.clean.flag &&& 0x7F = fp.flag &&& 0x7F := by
  show fp.flag &&& ~~~FA_DIRTY &&& 0x7F = fp.flag &&& 0x7F
  rw [BitVec.and_assoc]
  rfl

section Specs

variable {σ : Type} {D : Drive σ} {M : Media D} {g : Geometry} {S : BitVec 32 → Prop}
  {base : Lba → Sector} {T : BitVec 32 → BitVec 32} {v v' : Vol σ} {r : Fresult}
  {l : List (BitVec 32)} {cont : Nat → Sector} {fp fp' : Fil} {s : Nat}

/-- What the clusters of the file have to be for its sectors to be read and written. -/
structure Accessible (M : Media D) (g : Geometry) (S : BitVec 32 → Prop)
    (T : BitVec 32 → BitVec 32) (l : List (BitVec 32)) : Prop where
  layout : g.Layout M.limit
  most : g.csize.toNat ≤ M.most
  linked : Linked T g.Cluster g.Eoc l
  mine : ∀ c ∈ l, S c

namespace Accessible

theorem cluster (hl : Accessible M g S T l) : ∀ c ∈ l, g.Cluster c :=
  fun _ hc => hl.linked.live_of_mem hc

theorem nodup (hl : Accessible M g S T l) : l.Nodup :=
  hl.linked.nodup fun e (he : g.Eoc e) => he.not_cluster

theorem data (hl : Accessible M g S T l) (hs : s < g.csize.toNat * l.length) :
    g.DataOf S (sectorAt g l s) :=
  sectorAt_dataOf hl.layout (fun c hc => ⟨hl.cluster c hc, hl.mine c hc⟩) hs

theorem inj (hl : Accessible M g S T l) {s' : Nat} (hs : s < g.csize.toNat * l.length)
    (hs' : s' < g.csize.toNat * l.length) (heq : sectorAt g l s = sectorAt g l s') : s = s' :=
  sectorAt_inj hl.layout M.limit_lt hl.cluster hl.nodup hs hs' heq

/-- Sectors of one cluster, for a transfer. -/
theorem run (hl : Accessible M g S T l) {n : Nat} (hs : s < g.csize.toNat * l.length)
    (hn : s % g.csize.toNat + n ≤ g.csize.toNat) :
    (sectorAt g l s).toNat + n ≤ M.limit ∧ n ≤ M.most ∧
      ∀ i < n, s + i < g.csize.toNat * l.length ∧
        sectorAt g l s + BitVec.ofNat 32 i = sectorAt g l (s + i) := by
  have hlt : s / g.csize.toNat < l.length := Nat.div_lt_of_lt_mul hs
  have hc := hl.cluster _ (getD_mem hlt)
  have hend := hl.layout.cluster_end hc
  have hmod := Nat.mod_lt s hl.layout.csize_pos
  refine ⟨?_, by have := hl.most; omega, fun i hi => ⟨?_, sectorAt_add (by omega)⟩⟩
  · rw [sectorAt, Geometry.toNat_sector hl.layout M.limit_lt hc hmod]
    omega
  · have hdiv := Nat.div_add_mod s g.csize.toNat
    have hmul := Nat.mul_le_mul_left g.csize.toNat (show s / g.csize.toNat + 1 ≤ l.length from hlt)
    rw [Nat.mul_succ] at hmul
    omega

end Accessible

/-- Writing the buffer back leaves the contents of the file as they are. -/
theorem writeBack_spec (hM : M.Answers) (hl : Accessible M g S T l)
    (hv : HasTable M g (g.DataOf S) base T v) (hcache : Cached g l cont base fp) :
    ∃ r fp' v' base', writeBack D fp v = some (r, fp', v') ∧
      HasTable M g (g.DataOf S) base' T v' ∧ v'.fs = v.fs ∧ OnlyIn g l base base' ∧
      (r = .ok ∧ (fp' = fp ∨ fp' = fp.clean) ∧ ¬ fp'.Dirty ∧ Cached g l cont base' fp' ∨
        r = .diskErr ∧ fp' = fp.abort .diskErr ∧ ¬ M.Reliable) := by
  by_cases hdirty : fp.Dirty
  · obtain ⟨s, hs, hsect⟩ := hcache.dirty hdirty
    have hmod := Nat.mod_lt s hl.layout.csize_pos
    obtain ⟨hlimit, hmost, hrun⟩ := hl.run (n := 1) hs (by omega)
    obtain ⟨res, drv, base', hwrite, hv', hother, hdata, hrel⟩ := hv.writeData (n := 1) hM
      hl.layout.table (by decide) hmost hlimit fun i hi => (hrun i hi).2 ▸ hl.data (hrun i hi).1
    have hself : ∀ q, q ≠ sectorAt g l s → base' q = base q := by
      intro q hq
      refine hother q fun i hi => ?_
      obtain rfl : i = 0 := by
        have : i < 1 := hi
        omega
      rwa [BitVec.add_zero]
    have honly : OnlyIn g l base base' := fun q hq => hself q (hq s hs)
    rw [← hsect] at hwrite
    rw [writeBack, if_pos hdirty, hwrite]
    simp only [Option.bind_eq_bind, Option.bind_some]
    by_cases hres : res = .ok
    · rw [if_pos hres]
      refine ⟨_, _, _, base', rfl, hv', rfl, honly,
        Or.inl ⟨rfl, Or.inr rfl, fp.not_dirty_clean, ?_⟩⟩
      refine ⟨fun s' hs' _ => ?_, hcache.buf, Or.inr ⟨s, hs, hsect⟩⟩
      by_cases hsame : s' = s
      · have h0 := hdata hres 0 (by decide)
        rw [BitVec.add_zero] at h0
        rw [hsame, h0]
        exact hcache.buf s hs hsect
      · have hne : sectorAt g l s' ≠ sectorAt g l s := fun heq => hsame (hl.inj hs' hs heq)
        rw [hself _ hne]
        exact hcache.disk s' hs' fun _ => hsect ▸ hne
    · rw [if_neg hres]
      exact ⟨_, _, _, base', rfl, hv', rfl, honly, Or.inr ⟨rfl, rfl, fun hM => hres (hrel hM)⟩⟩
  · rw [writeBack, if_neg hdirty]
    exact ⟨_, _, _, base, rfl, hv, rfl, .refl _ _ _, Or.inl ⟨rfl, Or.inl rfl, hdirty, hcache⟩⟩

theorem fillBuf_spec (hM : M.Answers) (hl : Accessible M g S T l)
    (hv : HasTable M g (g.DataOf S) base T v) (hs : s < g.csize.toNat * l.length) (fp : Fil) :
    ∃ r fp' v', fillBuf D (sectorAt g l s) fp v = some (r, fp', v') ∧
      HasTable M g (g.DataOf S) base T v' ∧ v'.fs = v.fs ∧
      (r = .ok ∧ fp' = { fp with buf := base (sectorAt g l s) } ∨
        r = .diskErr ∧ (∃ buf, fp' = { fp with buf }.abort .diskErr) ∧ ¬ M.Reliable) := by
  have hmod := Nat.mod_lt s hl.layout.csize_pos
  obtain ⟨hlimit, hmost, hrun⟩ := hl.run (n := 1) hs (by omega)
  obtain ⟨res, data, drv, hread, hv', hdata, hrel⟩ := hv.readData (n := 1) hM hl.layout.table
    (by decide) hmost hlimit fun i hi => (hrun i hi).2 ▸ hl.data (hrun i hi).1
  rw [fillBuf, hread]
  simp only [Option.bind_eq_bind, Option.bind_some]
  by_cases hres : res = .ok
  · rw [if_pos hres]
    refine ⟨_, _, _, rfl, hv', rfl, Or.inl ⟨rfl, ?_⟩⟩
    rw [hdata hres 0 (by decide), BitVec.add_zero]
  · rw [if_neg hres]
    exact ⟨_, _, _, rfl, hv', rfl, Or.inr ⟨rfl, ⟨_, rfl⟩, fun hM => hres (hrel hM)⟩⟩

/-- The same file at the same place, with another buffer. -/
def Fil.Rebuffered (fp fp' : Fil) : Prop :=
  ∃ flag sect buf, flag &&& 0x7F = fp.flag &&& 0x7F ∧ fp' = { fp with flag, sect, buf }

/-- After an error the file object says so, and is otherwise at the same place. -/
def Fil.Failed (fp : Fil) (r : Fresult) (fp' : Fil) : Prop :=
  ∃ fp₁, fp.Rebuffered fp₁ ∧ fp' = fp₁.abort r

theorem readCache_spec (hM : M.Answers) (hl : Accessible M g S T l)
    (hv : HasTable M g (g.DataOf S) base T v) (hcache : Cached g l cont base fp)
    (hs : s < g.csize.toNat * l.length) :
    ∃ r fp' v' base', readCache D (sectorAt g l s) fp v = some (r, fp', v') ∧
      HasTable M g (g.DataOf S) base' T v' ∧ v'.fs = v.fs ∧ OnlyIn g l base base' ∧
      (r = .ok ∧ fp.Rebuffered fp' ∧ fp'.sect = sectorAt g l s ∧ Cached g l cont base' fp' ∨
        r = .diskErr ∧ fp.Failed .diskErr fp' ∧ ¬ M.Reliable) := by
  by_cases heq : fp.sect = sectorAt g l s
  · rw [readCache, if_neg (not_not.mpr heq)]
    refine ⟨_, _, _, base, rfl, hv, rfl, .refl _ _ _, Or.inl ⟨rfl, ⟨_, _, _, rfl, rfl⟩, rfl, ?_⟩⟩
    rwa [← heq]
  · obtain ⟨r₁, fp₁, v₁, base', hback, hv₁, hfs₁, honly, hcases⟩ := writeBack_spec hM hl hv hcache
    rw [readCache, if_pos heq, hback]
    simp only [Option.bind_eq_bind, Option.bind_some]
    rcases hcases with ⟨rfl, hfp₁, hclean, hcache₁⟩ | ⟨rfl, rfl, hrel⟩
    · rw [if_neg (not_not.mpr rfl)]
      have hsame : fp.Rebuffered fp₁ := by
        rcases hfp₁ with rfl | rfl
        · exact ⟨_, _, _, rfl, rfl⟩
        · exact ⟨_, _, _, fp.clean_flag, rfl⟩
      obtain ⟨flag, sect, buf, hflag, rfl⟩ := hsame
      obtain ⟨r₂, fp₂, v₂, hfill, hv₂, hfs₂, hcases⟩ := fillBuf_spec hM hl hv₁ hs _
      rw [hfill]
      simp only [Option.bind_some]
      rcases hcases with ⟨rfl, rfl⟩ | ⟨rfl, ⟨buf', rfl⟩, hrel⟩
      · rw [if_neg (not_not.mpr rfl)]
        refine ⟨_, _, _, base', rfl, hv₂, hfs₂.trans hfs₁, honly,
          Or.inl ⟨rfl, ⟨_, _, _, hflag, rfl⟩, rfl, ?_⟩⟩
        have hsect := hcache₁.disk s hs fun hd => absurd hd hclean
        refine ⟨fun s' hs' _ => hcache₁.disk s' hs' fun hd => absurd hd hclean,
          fun s' hs' heq => ?_, Or.inr ⟨s, hs, rfl⟩⟩
        rw [← hl.inj hs hs' heq]
        exact hsect
      · exact ⟨_, _, _, base', rfl, hv₂, hfs₂.trans hfs₁, honly,
          Or.inr ⟨rfl, ⟨_, ⟨_, _, _, hflag, rfl⟩, rfl⟩, hrel⟩⟩
    · exact ⟨_, _, _, base', rfl, hv₁, hfs₁, honly,
        Or.inr ⟨rfl, ⟨_, ⟨_, _, _, rfl, rfl⟩, rfl⟩, hrel⟩⟩

/-! ### The place in the chain -/

theorem pred_div_of_dvd {s n : Nat} (hs : 0 < s) (hdvd : n ∣ s) : (s - 1) / n + 1 = s / n := by
  cases s with
  | zero => exact absurd hs (Nat.lt_irrefl 0)
  | succ s => exact (Nat.succ_div_of_dvd hdvd).symm

theorem pred_div_of_not_dvd {s n : Nat} (hdvd : ¬ n ∣ s) : (s - 1) / n = s / n := by
  cases s with
  | zero => rfl
  | succ s => exact (Nat.succ_div_of_not_dvd hdvd).symm

theorem toNat_csect (hg : g.Layout M.limit) (x : BitVec 32) :
    (x &&& (g.csize.setWidth 32 - 1)).toNat = x.toNat % g.csize.toNat := by
  obtain ⟨k, hk⟩ := hg.power
  have hpos := hg.csize_pos
  have hlt := g.csize.isLt
  have hmask : (g.csize.setWidth 32 - 1).toNat = 2 ^ k - 1 := by
    rw [← hk]
    bv_omega
  rw [BitVec.toNat_and, hmask, Nat.and_two_pow_sub_one_eq_mod, hk]

theorem follow_cluster (hg : g.Layout M.limit) {c : BitVec 32} (hc : g.Cluster c) :
    follow c fp v = some (.ok, { fp with clust := c }, v) := by
  have hn := hg.table.nFatent_lt
  obtain ⟨hlow, hhigh⟩ := hc
  rw [follow, if_neg (by bv_omega), if_neg (by bv_omega)]

/-- At the boundary of a cluster the object is still at the one before. -/
theorem Placed.before (hl : Accessible M g S T l) (hp : Placed g l fp)
    (hs : fp.fptr.toNat = 512 * s) (hstart : fp.fptr ≠ 0) (hdvd : g.csize.toNat ∣ s) :
    0 < s / g.csize.toNat ∧ l[s / g.csize.toNat - 1]? = some fp.clust := by
  have hpos : 0 < s := by bv_omega
  have hprev := hp.clust (by omega)
  have hsucc := pred_div_of_dvd hpos hdvd
  rw [show (fp.fptr.toNat - 1) / 512 = s - 1 by omega] at hprev
  exact ⟨Nat.div_pos (Nat.le_of_dvd hpos hdvd) hl.layout.csize_pos,
    by rwa [← hsucc, Nat.add_sub_cancel]⟩

/-- Elsewhere it is at the right one. -/
theorem Placed.inside (hp : Placed g l fp) (hs : fp.fptr.toNat = 512 * s)
    (hmod : s % g.csize.toNat ≠ 0) : l[s / g.csize.toNat]? = some fp.clust := by
  have hpos : s ≠ 0 := fun heq => hmod (by rw [heq, Nat.zero_mod])
  have hprev := hp.clust (by omega)
  rwa [show (fp.fptr.toNat - 1) / 512 = s - 1 by omega,
    pred_div_of_not_dvd fun hdvd => hmod (Nat.mod_eq_zero_of_dvd hdvd)] at hprev

/-- Inside a sector both the cluster and the sector are the right ones. -/
theorem Placed.current (hp : Placed g l fp) (hsector : fp.fptr % 512 ≠ 0) :
    fp.fptr.toNat % 512 ≠ 0 ∧ fp.sect = sectorAt g l (fp.fptr.toNat / 512) ∧
      l[fp.fptr.toNat / 512 / g.csize.toNat]? = some fp.clust := by
  have hmod : (fp.fptr % 512).toNat = fp.fptr.toNat % 512 := BitVec.toNat_umod
  have hne : fp.fptr.toNat % 512 ≠ 0 := by
    rw [← hmod]
    bv_omega
  have hclust := hp.clust (by omega)
  rw [show (fp.fptr.toNat - 1) / 512 = fp.fptr.toNat / 512 by omega] at hclust
  exact ⟨hne, hp.here hne, hclust⟩

/-- At a sector of the file `f_read` has its cluster. -/
theorem readClust_spec (hM : M.Answers) (hl : Accessible M g S T l)
    (hv : HasTable M g (g.DataOf S) base T v) (hp : Placed g l fp)
    (hs : fp.fptr.toNat = 512 * s) (hlt : s < g.csize.toNat * l.length) {csect : BitVec 32}
    (hcsect : csect.toNat = s % g.csize.toNat) :
    ∃ r fp' v', readClust D csect fp v = some (r, fp', v') ∧
      HasTable M g (g.DataOf S) base T v' ∧ v'.fs.toHints = v.fs.toHints ∧
      (r = .ok ∧ (∃ c, l[s / g.csize.toNat]? = some c ∧ fp' = { fp with clust := c }) ∨
        r = .diskErr ∧ fp' = fp.abort .diskErr ∧ ¬ M.Reliable) := by
  have hk : s / g.csize.toNat < l.length := Nat.div_lt_of_lt_mul hlt
  obtain ⟨c, hc⟩ : ∃ c, l[s / g.csize.toNat]? = some c := ⟨_, List.getElem?_eq_getElem hk⟩
  have hcluster := hl.cluster c (List.mem_of_getElem? hc)
  unfold readClust
  by_cases hboundary : csect = 0
  · rw [if_pos hboundary]
    have hmod : s % g.csize.toNat = 0 := by
      rw [← hcsect, hboundary]
      rfl
    by_cases hstart : fp.fptr = 0
    · have hzero : s = 0 := by
        rw [hstart] at hs
        simpa using hs
      obtain rfl : fp.sclust = c := by
        rw [hzero, Nat.zero_div, ← List.head?_eq_getElem?] at hc
        rw [hp.first, hc, Option.getD_some]
      rw [if_pos hstart, follow_cluster hl.layout hcluster]
      exact ⟨_, _, _, rfl, hv, rfl, Or.inl ⟨rfl, _, hc, rfl⟩⟩
    · obtain ⟨hpos, hprev⟩ := hp.before hl hs hstart (Nat.dvd_of_mod_eq_zero hmod)
      have hprevious := hl.cluster _ (List.mem_of_getElem? hprev)
      have hnext := hl.linked.next_getElem? hprev (by rwa [Nat.sub_add_cancel hpos])
      rw [if_neg hstart]
      obtain ⟨⟨clst, v₁⟩, hget, hv₁, hhints, hval⟩ :=
        (hv.get hl.layout.table hprevious).result hM
      rw [hget]
      simp only [Option.bind_eq_bind, Option.bind_some]
      rcases hval with rfl | ⟨rfl, hrel⟩
      · rw [hnext, follow_cluster hl.layout hcluster]
        exact ⟨_, _, _, rfl, hv₁, hhints, Or.inl ⟨rfl, c, hc, rfl⟩⟩
      · rw [follow, if_neg (by decide), if_pos rfl]
        exact ⟨_, _, _, rfl, hv₁, hhints, Or.inr ⟨rfl, rfl, hrel⟩⟩
  · rw [if_neg hboundary]
    have hmod : s % g.csize.toNat ≠ 0 := fun heq => hboundary (by bv_omega)
    exact ⟨_, _, _, rfl, hv, rfl, Or.inl ⟨rfl, _, hp.inside hs hmod, rfl⟩⟩

/-! ### The caller's memory -/

theorem blit_of_lt {buff src : Nat → Byte} {off n j : Nat} (hj : j < n) :
    blit buff off src n (off + j) = src j := by
  rw [blit, if_pos ⟨by omega, by omega⟩, Nat.add_sub_cancel_left]

theorem blit_of_not {buff src : Nat → Byte} {off n j : Nat} (hj : ¬ (off ≤ j ∧ j < off + n)) :
    blit buff off src n j = buff j := if_neg hj

theorem flatten_add {data cont : Nat → Sector} {s n j : Nat}
    (hdata : ∀ i < n, data i = cont (s + i)) (hj : j < 512 * n) :
    flatten data j = flatten cont (512 * s + j) := by
  have hdiv : (512 * s + j) / 512 = s + j / 512 := by omega
  rw [flatten, flatten, hdiv, hdata (j / 512) (by omega)]
  exact byteAt_congr _ (by omega)

variable {t t' : FileIo σ}

/-- Whole sectors of one cluster, with what is in the buffer. -/
theorem readDirect_spec (hM : M.Answers) (hl : Accessible M g S T l)
    (hv : HasTable M g (g.DataOf S) base T t.vol) (hcache : Cached g l cont base t.fp)
    (hs : s < g.csize.toNat * l.length) {cc : BitVec 32} (hpos : 0 < cc.toNat)
    (hcc : s % g.csize.toNat + cc.toNat ≤ g.csize.toNat) :
    ∃ r t', readDirect D (sectorAt g l s) cc t = some (r, t') ∧
      HasTable M g (g.DataOf S) base T t'.vol ∧ t'.vol.fs = t.vol.fs ∧ t'.count = t.count ∧
      (∃ src, t'.buff = blit t.buff t.count.toNat src (512 * cc.toNat) ∧
        (r = .ok ∧ t'.fp = t.fp ∧ (∀ j < 512 * cc.toNat, src j = flatten cont (512 * s + j)) ∨
          r = .diskErr ∧ t'.fp = t.fp.abort .diskErr ∧ ¬ M.Reliable)) := by
  obtain ⟨hlimit, hmost, hrun⟩ := hl.run hs hcc
  obtain ⟨res, data, drv, hread, hv', hdata, hrel⟩ := hv.readData hM hl.layout.table hpos hmost
    hlimit fun i hi => (hrun i hi).2 ▸ hl.data (hrun i hi).1
  rw [readDirect, hread]
  simp only [Option.bind_eq_bind, Option.bind_some]
  by_cases hres : res = .ok
  · rw [if_pos hres]
    refine ⟨_, _, rfl, hv', rfl, rfl, _, rfl,
      Or.inl ⟨rfl, rfl, fun j hj => flatten_add (fun i hi => ?_) hj⟩⟩
    obtain ⟨hsi, hsect⟩ := hrun i hi
    have hdisk : data i = base (sectorAt g l (s + i)) := by rw [← hsect]; exact hdata hres i hi
    by_cases hover : t.fp.Dirty ∧ t.fp.sect - sectorAt g l s < cc
    · rw [if_pos hover]
      by_cases hi' : i = (t.fp.sect - sectorAt g l s).toNat
      · subst hi'
        rw [Function.update_self]
        refine hcache.buf _ hsi ?_
        rw [← hsect, BitVec.ofNat_toNat, BitVec.setWidth_eq]
        bv_omega
      · rw [Function.update_of_ne hi', hdisk]
        refine hcache.disk _ hsi fun _ heq => hi' ?_
        rw [← heq, ← hsect]
        have := cc.isLt
        bv_omega
    · rw [if_neg hover, hdisk]
      refine hcache.disk _ hsi fun hdirty heq => hover ⟨hdirty, ?_⟩
      rw [← heq, ← hsect]
      have := cc.isLt
      bv_omega
  · rw [if_neg hres]
    exact ⟨_, _, rfl, hv', rfl, rfl, _, rfl, Or.inr ⟨rfl, rfl, fun hM => hres (hrel hM)⟩⟩

/-! ### One turn of the loop -/

/-- What `f_read` never changes of a file object. -/
structure Fil.SameFile (fp fp' : Fil) : Prop where
  objFs : fp'.objFs = fp.objFs
  id : fp'.id = fp.id
  sclust : fp'.sclust = fp.sclust
  objsize : fp'.objsize = fp.objsize
  flag : fp'.flag &&& 0x7F = fp.flag &&& 0x7F

theorem Fil.SameFile.refl (fp : Fil) : fp.SameFile fp := ⟨rfl, rfl, rfl, rfl, rfl⟩

theorem Fil.SameFile.trans {fp'' : Fil} (h : fp.SameFile fp') (h' : fp'.SameFile fp'') :
    fp.SameFile fp'' :=
  ⟨h'.objFs.trans h.objFs, h'.id.trans h.id, h'.sclust.trans h.sclust,
    h'.objsize.trans h.objsize, h'.flag.trans h.flag⟩

theorem toNat_restOfSector (fptr n : BitVec 32) :
    (restOfSector fptr n).toNat = min n.toNat (512 - fptr.toNat % 512) := by
  have hmod : (fptr % 512).toNat = fptr.toNat % 512 := BitVec.toNat_umod
  have hlt := Nat.mod_lt fptr.toNat (show 0 < 512 by decide)
  unfold restOfSector
  generalize fptr % 512 = off at hmod
  dsimp only
  split_ifs <;> bv_omega

theorem div_512_pos {n : BitVec 32} (h : 0 < n / 512) : 0 < n.toNat / 512 := by
  rw [BitVec.lt_def, BitVec.toNat_udiv] at h
  exact h

theorem toNat_directCount {csect n : BitVec 32}
    (hcsect : csect.toNat < g.csize.toNat) :
    (directCount (g.csize.setWidth 32) csect n).toNat =
      min (n.toNat / 512) (g.csize.toNat - csect.toNat) := by
  have hdiv : (n / 512).toNat = n.toNat / 512 := BitVec.toNat_udiv
  have hlt := n.isLt
  have hcsize : (g.csize.setWidth 32).toNat = g.csize.toNat := by bv_omega
  have hcsize' := g.csize.isLt
  unfold directCount
  generalize n / 512 = cc at hdiv
  generalize g.csize.setWidth 32 = csize at hcsize
  dsimp only
  split_ifs <;> bv_omega

/-- What a turn of the loop has done: `k` bytes are in the caller's memory and are those of the
file, or a disk call has failed. -/
structure StepDone (M : Media D) (g : Geometry) (S : BitVec 32 → Prop)
    (T : BitVec 32 → BitVec 32) (l : List (BitVec 32)) (cont : Nat → Sector)
    (base : Lba → Sector) (btr : BitVec 32) (t : FileIo σ) (r : Fresult) (n : BitVec 32)
    (t' : FileIo σ) (base' : Lba → Sector) : Prop where
  table : HasTable M g (g.DataOf S) base' T t'.vol
  hints : t'.vol.fs.toHints = t.vol.fs.toHints
  only : OnlyIn g l base base'
  count : t'.count = t.count
  same : t.fp.SameFile t'.fp
  buff : ∃ src k, k ≤ btr.toNat ∧ t'.buff = blit t.buff t.count.toNat src k ∧
    (r = .ok → n.toNat = k ∧ ∀ j < k, src j = flatten cont (t.fp.fptr.toNat + j))
  outcome : r = .ok ∧ 0 < n.toNat ∧ t'.fp.err = t.fp.err ∧ t'.fp.fptr = t.fp.fptr ∧
      Placed g l (t'.advance n).fp ∧ Cached g l cont base' (t'.advance n).fp ∨
    r = .diskErr ∧ t'.fp.err = .diskErr ∧ ¬ M.Reliable

/-- Copying from the buffer when the sector is in it. -/
theorem copyOut_spec {btr : BitVec 32} (hv : HasTable M g (g.DataOf S) base T t.vol)
    (hcache : Cached g l cont base t.fp) (hfirst : t.fp.sclust = l.head?.getD 0)
    (hsize : t.fp.objsize.toNat ≤ 512 * (g.csize.toNat * l.length)) (hpos : 0 < btr.toNat)
    (hroom : t.fp.fptr.toNat + btr.toNat ≤ t.fp.objsize.toNat)
    (hsect : t.fp.sect = sectorAt g l (t.fp.fptr.toNat / 512))
    (hclust : l[t.fp.fptr.toNat / 512 / g.csize.toNat]? = some t.fp.clust) :
    StepDone M g S T l cont base btr t .ok (copyOut btr t).1 (copyOut btr t).2 base := by
  have hcnt := toNat_restOfSector t.fp.fptr btr
  have hlt := t.fp.fptr.isLt
  have hobj := t.fp.objsize.isLt
  have hbuf := hcache.buf _ (by omega) hsect
  have hmod : (t.fp.fptr % 512).toNat = t.fp.fptr.toNat % 512 := BitVec.toNat_umod
  unfold copyOut
  dsimp only
  generalize restOfSector t.fp.fptr btr = n at hcnt
  refine ⟨hv, rfl, .refl _ _ _, rfl, .refl _,
    ⟨fun j => byteAt t.fp.buf ((t.fp.fptr % 512).toNat + j), n.toNat, ?_, rfl,
      fun _ => ⟨rfl, fun j hj => ?_⟩⟩,
    Or.inl ⟨rfl, ?_, rfl, rfl, ?_, ⟨hcache.disk, hcache.buf, hcache.place⟩⟩⟩
  · rw [hcnt]
    omega
  · rw [hcnt] at hj
    have hdiv : (t.fp.fptr.toNat + j) / 512 = t.fp.fptr.toNat / 512 := by omega
    rw [hbuf, flatten, hdiv, hmod]
    exact byteAt_congr _ (by omega)
  · rw [hcnt]
    omega
  · have hsum : (t.fp.fptr + n).toNat = t.fp.fptr.toNat + n.toNat := by
      rw [BitVec.toNat_add]
      omega
    refine ⟨hfirst, hsize, ?_, fun _ => ?_, fun hne => ?_⟩
    · show t.fp.fptr + n ≤ t.fp.objsize
      rw [BitVec.le_def, hsum]
      omega
    · show l[((t.fp.fptr + n).toNat - 1) / 512 / g.csize.toNat]? = some t.fp.clust
      rw [hsum, show (t.fp.fptr.toNat + n.toNat - 1) / 512 = t.fp.fptr.toNat / 512 by omega]
      exact hclust
    · show t.fp.sect = sectorAt g l ((t.fp.fptr + n).toNat / 512)
      have hne' : (t.fp.fptr + n).toNat % 512 ≠ 0 := hne
      rw [hsum] at hne' ⊢
      rw [show (t.fp.fptr.toNat + n.toNat) / 512 = t.fp.fptr.toNat / 512 by omega]
      exact hsect

/-- A turn that begins with another file object or volume than the caller's. -/
theorem StepDone.of_fp {base₁ base' : Lba → Sector} {btr n : BitVec 32} {vol : Vol σ}
    (h : StepDone M g S T l cont base₁ btr { t with fp, vol } r n t' base')
    (hhints : vol.fs.toHints = t.vol.fs.toHints) (honly : OnlyIn g l base base₁)
    (hsame : t.fp.SameFile fp) (herr : fp.err = t.fp.err) (hptr : fp.fptr = t.fp.fptr) :
    StepDone M g S T l cont base btr t r n t' base' where
  table := h.table
  hints := h.hints.trans hhints
  only := honly.trans h.only
  count := h.count
  same := hsame.trans h.same
  buff := hptr ▸ h.buff
  outcome := h.outcome.imp_left fun ⟨hr, hpos, herr', hptr', hrest⟩ =>
    ⟨hr, hpos, herr'.trans herr, hptr'.trans hptr, hrest⟩

/-- A turn that ends with an error before the caller's memory is touched. -/
theorem StepDone.failed {base' : Lba → Sector} {btr n : BitVec 32} {vol : Vol σ}
    (htable : HasTable M g (g.DataOf S) base' T vol)
    (hhints : vol.fs.toHints = t.vol.fs.toHints) (honly : OnlyIn g l base base')
    (hsame : t.fp.SameFile fp) (herr : fp.err = .diskErr) (hrel : ¬ M.Reliable) :
    StepDone M g S T l cont base btr t .diskErr n { t with fp, vol } base' :=
  ⟨htable, hhints, honly, rfl, hsame, ⟨t.buff, 0, Nat.zero_le _,
    funext fun j => (blit_of_not (by omega)).symm, fun hr => nomatch hr⟩, Or.inr ⟨rfl, herr, hrel⟩⟩

theorem readDirect_done (hM : M.Answers) (hl : Accessible M g S T l)
    (hv : HasTable M g (g.DataOf S) base T t.vol) (hcache : Cached g l cont base t.fp)
    (hfirst : t.fp.sclust = l.head?.getD 0)
    (hsize : t.fp.objsize.toNat ≤ 512 * (g.csize.toNat * l.length))
    (hs : t.fp.fptr.toNat = 512 * s) {btr csect : BitVec 32}
    (hcsect : csect.toNat = s % g.csize.toNat) (hwhole : 0 < btr.toNat / 512)
    (hroom : t.fp.fptr.toNat + btr.toNat ≤ t.fp.objsize.toNat)
    (hclust : l[s / g.csize.toNat]? = some t.fp.clust) :
    ∃ r t', readDirect D (sectorAt g l s) (directCount (g.csize.setWidth 32) csect btr) t =
        some (r, t') ∧
      StepDone M g S T l cont base btr t r (512 * directCount (g.csize.setWidth 32) csect btr) t'
        base := by
  have hcsize := hl.layout.csize_pos
  have hmod := Nat.mod_lt s hcsize
  have hcount := toNat_directCount (g := g) (n := btr) (hcsect ▸ hmod)
  rw [hcsect] at hcount
  generalize directCount (g.csize.setWidth 32) csect btr = cc at hcount
  have hobj := t.fp.objsize.isLt
  have hmul : (512 * cc).toNat = 512 * cc.toNat := by
    rw [BitVec.toNat_mul]
    exact Nat.mod_eq_of_lt (by
      show 512 * cc.toNat < 2 ^ 32
      omega)
  obtain ⟨r, t', h, hv', hfs, hcnt, src, hbuff, hcases⟩ :=
    readDirect_spec hM hl hv hcache (show s < g.csize.toNat * l.length by omega)
      (show 0 < cc.toNat by omega) (by omega)
  have hsum : (t.fp.fptr + 512 * cc).toNat = t.fp.fptr.toNat + 512 * cc.toNat := by
    rw [BitVec.toNat_add, hmul]
    omega
  refine ⟨r, t', h, hv', congrArg FatFs.toHints hfs, .refl _ _ _, hcnt, ?_,
    ⟨src, _, ?_, hbuff, ?_⟩, ?_⟩
  · rcases hcases with ⟨-, hfp, -⟩ | ⟨-, hfp, -⟩
    · rw [hfp]
      exact .refl _
    · rw [hfp]
      exact ⟨rfl, rfl, rfl, rfl, rfl⟩
  · omega
  · rintro rfl
    rcases hcases with ⟨-, -, hsrc⟩ | ⟨hbad, -⟩
    · exact ⟨hmul, fun j hj => by rw [hs]; exact hsrc j hj⟩
    · cases hbad
  · refine hcases.imp (fun ⟨hr, hfp, _⟩ => ⟨hr, by omega, congrArg Fil.err hfp,
      congrArg Fil.fptr hfp, ?_, ?_⟩) fun ⟨hr, hfp, hrel⟩ => ⟨hr, congrArg Fil.err hfp, hrel⟩
    · rw [FileIo.advance, hfp]
      refine ⟨hfirst, hsize, ?_, fun _ => ?_, fun hne => absurd ?_ hne⟩
      · show t.fp.fptr + 512 * cc ≤ t.fp.objsize
        rw [BitVec.le_def, hsum]
        omega
      · show l[((t.fp.fptr + 512 * cc).toNat - 1) / 512 / g.csize.toNat]? = some t.fp.clust
        rw [hsum, show (t.fp.fptr.toNat + 512 * cc.toNat - 1) / 512 = s + (cc.toNat - 1) by omega,
          add_div_of_mod_add_lt (by omega)]
        exact hclust
      · show (t.fp.fptr + 512 * cc).toNat % 512 = 0
        omega
    · rw [FileIo.advance, hfp]
      exact ⟨hcache.disk, hcache.buf, hcache.place⟩

/-- At a known cluster, the sector is the one of the file. -/
theorem clst2sect_add {c csect : BitVec 32} (hc : l[s / g.csize.toNat]? = some c)
    (hcsect : csect.toNat = s % g.csize.toNat) : clst2sect g c + csect = sectorAt g l s := by
  rw [sectorAt, List.getD_eq_getElem?_getD, hc, Option.getD_some, Geometry.sector, ← hcsect,
    BitVec.ofNat_toNat, BitVec.setWidth_eq]

/-- The boundary of a sector in a cluster of the file. -/
structure AtSector (g : Geometry) (l : List (BitVec 32)) (s : Nat) (csect btr : BitVec 32)
    (fp : Fil) : Prop where
  first : fp.sclust = l.head?.getD 0
  size : fp.objsize.toNat ≤ 512 * (g.csize.toNat * l.length)
  ptr : fp.fptr.toNat = 512 * s
  csect : csect.toNat = s % g.csize.toNat
  clust : l[s / g.csize.toNat]? = some fp.clust
  pos : 0 < btr.toNat

theorem readSectors_eq {btr csect : BitVec 32} (hl : Accessible M g S T l)
    (hv : HasTable M g (g.DataOf S) base T t.vol) (hat : AtSector g l s csect btr t.fp) :
    readSectors D csect btr t =
      if 0 < btr / 512 then
        (readDirect D (sectorAt g l s) (directCount (g.csize.setWidth 32) csect btr) t).bind
          fun (res, t) => some (res, 512 * directCount (g.csize.setWidth 32) csect btr, t)
      else
        (readCache D (sectorAt g l s) t.fp t.vol).bind fun (res, fp, vol) =>
          if res ≠ .ok then some (res, 0, { t with fp, vol })
          else some (.ok, copyOut btr { t with fp, vol }) := by
  have hcluster := hl.cluster _ (List.mem_of_getElem? hat.clust)
  unfold readSectors
  dsimp only
  rw [hv.geometry, if_neg (Geometry.clst2sect_ne_zero hl.layout M.limit_lt hcluster),
    clst2sect_add hat.clust hat.csect]
  rfl

theorem readSectors_spec {btr csect : BitVec 32} (hM : M.Answers) (hl : Accessible M g S T l)
    (hv : HasTable M g (g.DataOf S) base T t.vol) (hcache : Cached g l cont base t.fp)
    (hat : AtSector g l s csect btr t.fp)
    (hroom : t.fp.fptr.toNat + btr.toNat ≤ t.fp.objsize.toNat) :
    ∃ r n t' base', readSectors D csect btr t = some (r, n, t') ∧
      StepDone M g S T l cont base btr t r n t' base' := by
  have hdiv : t.fp.fptr.toNat / 512 = s := by
    have := hat.ptr
    omega
  have hs : s < g.csize.toNat * l.length := by
    obtain ⟨-, hsize, hptr, -, -, hpos⟩ := hat
    omega
  rw [readSectors_eq hl hv hat]
  split_ifs with hwhole
  · obtain ⟨r, t', hdirect, hdone⟩ := readDirect_done hM hl hv hcache hat.first hat.size hat.ptr
      hat.csect (div_512_pos hwhole) hroom hat.clust
    rw [hdirect]
    exact ⟨_, _, _, base, rfl, hdone⟩
  · obtain ⟨r, fp₂, v₂, base', hcached, hv₂, hfs, honly, hcases⟩ :=
      readCache_spec hM hl hv hcache hs
    have hhints := congrArg FatFs.toHints hfs
    rw [hcached]
    simp only [Option.bind_some]
    rcases hcases with ⟨rfl, ⟨flag, sect, buf, hflag, rfl⟩, hsect₂, hcache₂⟩ |
      ⟨rfl, ⟨fp₃, ⟨flag, sect, buf, hflag, rfl⟩, rfl⟩, hrel⟩
    · rw [if_neg (not_not.mpr rfl)]
      refine ⟨.ok, (copyOut btr _).1, (copyOut btr _).2, base', by rw [Prod.mk.eta],
        StepDone.of_fp (copyOut_spec hv₂ hcache₂ hat.first hat.size hat.pos hroom ?_ ?_) hhints
          honly ⟨rfl, rfl, rfl, rfl, hflag⟩ rfl rfl⟩
      · rw [hdiv]
        exact hsect₂
      · rw [hdiv]
        exact hat.clust
    · exact ⟨_, _, _, base', rfl, .failed hv₂ hhints honly ⟨rfl, rfl, rfl, rfl, hflag⟩ rfl hrel⟩

/-- Where a turn begins when it begins with a sector. -/
theorem Placed.sector (hl : Accessible M g S T l) (hp : Placed g l fp) {btr : BitVec 32}
    (hpos : 0 < btr.toNat) (hsector : fp.fptr % 512 = 0) :
    ∃ s, fp.fptr.toNat = 512 * s ∧
      (fp.fptr / 512 &&& (g.csize.setWidth 32 - 1)).toNat = s % g.csize.toNat ∧
      ∀ c, l[s / g.csize.toNat]? = some c →
        AtSector g l s (fp.fptr / 512 &&& (g.csize.setWidth 32 - 1)) btr
          { fp with clust := c } := by
  have hmod : fp.fptr.toNat % 512 = 0 := by
    have heq : (fp.fptr % 512).toNat = fp.fptr.toNat % 512 := BitVec.toNat_umod
    rw [← heq, hsector]
    rfl
  obtain ⟨s, hs⟩ : ∃ s, fp.fptr.toNat = 512 * s := Nat.dvd_of_mod_eq_zero hmod
  have hcsect : (fp.fptr / 512 &&& (g.csize.setWidth 32 - 1)).toNat = s % g.csize.toNat := by
    rw [toNat_csect hl.layout, BitVec.toNat_udiv, hs]
    show 512 * s / 512 % _ = _
    rw [Nat.mul_div_cancel_left s (by decide)]
  exact ⟨s, hs, hcsect, fun c hc => ⟨hp.first, hp.size, hs, hcsect, hc, hpos⟩⟩

theorem readStep_spec {btr : BitVec 32} (hM : M.Answers) (hl : Accessible M g S T l)
    (hv : HasTable M g (g.DataOf S) base T t.vol) (hp : Placed g l t.fp)
    (hcache : Cached g l cont base t.fp) (hpos : 0 < btr.toNat)
    (hroom : t.fp.fptr.toNat + btr.toNat ≤ t.fp.objsize.toNat) :
    ∃ r n t' base', readStep D btr t = some (r, n, t') ∧
      StepDone M g S T l cont base btr t r n t' base' := by
  have hsize := hp.size
  unfold readStep
  split_ifs with hsector
  · obtain ⟨s, hs, hcsect, hat⟩ := hp.sector hl hpos hsector
    dsimp only
    rw [show t.vol.fs.csize = g.csize from congrArg Geometry.csize hv.geometry]
    obtain ⟨r₁, fp₁, v₁, hclust, hv₁, hhints, hcases⟩ :=
      readClust_spec hM hl hv hp hs (by omega) hcsect
    rw [hclust]
    simp only [Option.bind_eq_bind, Option.bind_some]
    rcases hcases with ⟨rfl, c, hc, rfl⟩ | ⟨rfl, rfl, hrel⟩
    · rw [if_neg (not_not.mpr rfl)]
      have hcache₁ : Cached g l cont base { t.fp with clust := c } :=
        ⟨hcache.disk, hcache.buf, hcache.place⟩
      obtain ⟨r, n, t', base', hsectors, hdone⟩ := readSectors_spec
        (t := ⟨t.count, t.buff, { t.fp with clust := c }, v₁⟩) hM hl hv₁ hcache₁ (hat c hc) hroom
      exact ⟨r, n, t', base', hsectors,
        hdone.of_fp hhints (.refl _ _ _) ⟨rfl, rfl, rfl, rfl, rfl⟩ rfl rfl⟩
    · exact ⟨_, _, _, base, rfl,
        .failed hv₁ hhints (.refl _ _ _) ⟨rfl, rfl, rfl, rfl, rfl⟩ rfl hrel⟩
  · obtain ⟨-, hsect, hclust⟩ := hp.current hsector
    exact ⟨.ok, (copyOut btr t).1, (copyOut btr t).2, base, by rw [Prod.mk.eta],
      copyOut_spec hv hcache hp.first hp.size hpos hroom hsect hclust⟩

/-- After a turn there is less left to read, and the next can begin. -/
theorem StepDone.next {btr n : BitVec 32} {base' : Lba → Sector}
    (h : StepDone M g S T l cont base btr t .ok n t' base')
    (hroom : t.fp.fptr.toNat + btr.toNat ≤ t.fp.objsize.toNat) :
    Placed g l (t'.advance n).fp ∧ Cached g l cont base' (t'.advance n).fp ∧
      (t'.advance n).fp.fptr.toNat + (btr - n).toNat ≤ (t'.advance n).fp.objsize.toNat ∧
      (btr - n).toNat + n.toNat = btr.toNat ∧ 0 < n.toNat := by
  obtain ⟨src, m, hm, -, hok⟩ := h.buff
  obtain ⟨rfl, -⟩ := hok rfl
  obtain ⟨-, hpos, -, hptr, hp, hcache⟩ := h.outcome.resolve_right fun hbad => nomatch hbad.1
  have hsub : (btr - n).toNat = btr.toNat - n.toNat := by bv_omega
  refine ⟨hp, hcache, ?_, by omega, hpos⟩
  show (t'.fp.fptr + n).toNat + _ ≤ t'.fp.objsize.toNat
  have hobj := t.fp.objsize.isLt
  rw [hptr, h.same.objsize, BitVec.toNat_add]
  omega

/-! ### The whole loop -/

/-- What the loop has done: the bytes that are counted are those of the file, no other byte of
the caller's memory has changed but those still to be read, and either all are read or a disk
call has failed. -/
structure ReadDone (M : Media D) (g : Geometry) (S : BitVec 32 → Prop)
    (T : BitVec 32 → BitVec 32) (l : List (BitVec 32)) (cont : Nat → Sector)
    (base : Lba → Sector) (btr : Nat) (t : FileIo σ) (r : Fresult) (t' : FileIo σ)
    (base' : Lba → Sector) (k : Nat) : Prop where
  table : HasTable M g (g.DataOf S) base' T t'.vol
  hints : t'.vol.fs.toHints = t.vol.fs.toHints
  only : OnlyIn g l base base'
  same : t.fp.SameFile t'.fp
  le : k ≤ btr
  count : t'.count.toNat = t.count.toNat + k
  bytes : ∀ j < k, t'.buff (t.count.toNat + j) = flatten cont (t.fp.fptr.toNat + j)
  outside : ∀ j, ¬ (t.count.toNat ≤ j ∧ j < t.count.toNat + btr) → t'.buff j = t.buff j
  outcome : r = .ok ∧ k = btr ∧ t'.fp.err = t.fp.err ∧
      t'.fp.fptr.toNat = t.fp.fptr.toNat + btr ∧ Placed g l t'.fp ∧ Cached g l cont base' t'.fp ∨
    r = .diskErr ∧ t'.fp.err = .diskErr ∧ ¬ M.Reliable

theorem ReadDone.nothing (hv : HasTable M g (g.DataOf S) base T t.vol) (hp : Placed g l t.fp)
    (hcache : Cached g l cont base t.fp) : ReadDone M g S T l cont base 0 t .ok t base 0 :=
  ⟨hv, rfl, .refl _ _ _, .refl _, Nat.le_refl 0, rfl, fun j hj => absurd hj (Nat.not_lt_zero j),
    fun _ _ => rfl, Or.inl ⟨rfl, rfl, rfl, rfl, hp, hcache⟩⟩

theorem ReadDone.stop {btr n : BitVec 32} {base' : Lba → Sector}
    (h : StepDone M g S T l cont base btr t r n t' base') (hr : r ≠ .ok) :
    ReadDone M g S T l cont base btr.toNat t r t' base' 0 := by
  obtain ⟨src, k, hk, hbuff, -⟩ := h.buff
  refine ⟨h.table, h.hints, h.only, h.same, Nat.zero_le _, by rw [h.count]; rfl,
    fun j hj => absurd hj (Nat.not_lt_zero j), fun j hj => ?_,
    Or.inr (h.outcome.resolve_left fun hok => hr hok.1)⟩
  rw [hbuff]
  exact blit_of_not (by omega)

theorem ReadDone.step {btr n : BitVec 32} {base₁ base' : Lba → Sector} {t₁ : FileIo σ} {k : Nat}
    (h : StepDone M g S T l cont base btr t .ok n t₁ base₁)
    (hcount : t.count.toNat + btr.toNat < 2 ^ 32)
    (hroom : t.fp.fptr.toNat + btr.toNat ≤ t.fp.objsize.toNat)
    (h' : ReadDone M g S T l cont base₁ (btr - n).toNat (t₁.advance n) r t' base' k) :
    ReadDone M g S T l cont base btr.toNat t r t' base' (n.toNat + k) := by
  obtain ⟨src, m, hm, hbuff, hok⟩ := h.buff
  obtain ⟨rfl, hsrc⟩ := hok rfl
  obtain ⟨-, hpos, herr, hptr, -, -⟩ := h.outcome.resolve_right fun hbad => nomatch hbad.1
  have hobj := t.fp.objsize.isLt
  have hcnt : (t₁.advance n).count.toNat = t.count.toNat + n.toNat := by
    show (t₁.count + n).toNat = _
    rw [h.count, BitVec.toNat_add]
    omega
  have hptr' : (t₁.advance n).fp.fptr.toNat = t.fp.fptr.toNat + n.toNat := by
    show (t₁.fp.fptr + n).toNat = _
    rw [hptr, BitVec.toNat_add]
    omega
  have hsub : (btr - n).toNat = btr.toNat - n.toNat := by bv_omega
  have hle := h'.le
  have hout := h'.outside
  rw [hcnt, hsub] at hout
  refine ⟨h'.table, h'.hints.trans h.hints, h.only.trans h'.only,
    h.same.trans ⟨h'.same.objFs, h'.same.id, h'.same.sclust, h'.same.objsize, h'.same.flag⟩,
    by omega, by rw [h'.count, hcnt]; omega, fun j hj => ?_, fun j hj => ?_, ?_⟩
  · by_cases hfirst : j < n.toNat
    · rw [hout _ (by omega)]
      show t₁.buff _ = _
      rw [hbuff, blit_of_lt hfirst, hsrc j hfirst]
    · have hbyte := h'.bytes (j - n.toNat) (by omega)
      rwa [hcnt, hptr', show t.count.toNat + n.toNat + (j - n.toNat) = t.count.toNat + j by omega,
        show t.fp.fptr.toNat + n.toNat + (j - n.toNat) = t.fp.fptr.toNat + j by omega] at hbyte
  · rw [hout _ (by omega)]
    show t₁.buff j = _
    rw [hbuff, blit_of_not (by omega)]
  · refine h'.outcome.imp_left fun ⟨hr, hk, herr', hend, hplaced⟩ =>
      ⟨hr, by omega, herr'.trans herr, ?_, hplaced⟩
    rw [hend, hptr']
    omega

theorem readLoop_spec {fuel : Nat} {btr : BitVec 32} (hM : M.Answers)
    (hl : Accessible M g S T l) (hv : HasTable M g (g.DataOf S) base T t.vol)
    (hp : Placed g l t.fp) (hcache : Cached g l cont base t.fp)
    (hroom : t.fp.fptr.toNat + btr.toNat ≤ t.fp.objsize.toNat)
    (hcount : t.count.toNat + btr.toNat < 2 ^ 32) (hfuel : btr.toNat ≤ fuel) :
    ∃ r t' base' k, readLoop D fuel btr t = some (r, t') ∧
      ReadDone M g S T l cont base btr.toNat t r t' base' k := by
  induction fuel generalizing btr t base with
  | zero =>
    obtain rfl : btr = 0 := by bv_omega
    exact ⟨.ok, t, base, 0, rfl, .nothing hv hp hcache⟩
  | succ fuel ih =>
    rw [readLoop]
    split_ifs with hzero
    · rw [hzero]
      exact ⟨.ok, t, base, 0, rfl, .nothing hv hp hcache⟩
    · obtain ⟨r₁, n, t₁, base₁, hstep, hdone⟩ :=
        readStep_spec hM hl hv hp hcache (by bv_omega) hroom
      rw [hstep]
      simp only [Option.bind_eq_bind, Option.bind_some]
      split_ifs with hr
      · exact ⟨_, _, base₁, 0, rfl, .stop hdone hr⟩
      · obtain rfl := not_not.mp hr
        obtain ⟨hp₁, hcache₁, hroom₁, hless⟩ := hdone.next hroom
        have hcount₁ : (t₁.advance n).count.toNat + (btr - n).toNat < 2 ^ 32 := by
          show (t₁.count + n).toNat + _ < _
          rw [hdone.count, BitVec.toNat_add]
          omega
        obtain ⟨r, t', base', k, hloop, hrest⟩ :=
          ih (t := t₁.advance n) hdone.table hp₁ hcache₁ hroom₁ hcount₁ (by omega)
        exact ⟨r, t', base', _, hloop, .step hdone hcount hroom hrest⟩

/-! ## The function -/

/-- The file object, its clusters and the volume belong together, and no error is pending. -/
structure OpenFile (M : Media D) (g : Geometry) (S : BitVec 32 → Prop) (T : BitVec 32 → BitVec 32)
    (base : Lba → Sector) (l : List (BitVec 32)) (cont : Nat → Sector) (fp : Fil) : Prop where
  access : Accessible M g S T l
  placed : Placed g l fp
  cached : Cached g l cont base fp
  objFs : fp.objFs
  id : fp.id = g.id
  err : fp.err = .ok

theorem OpenFile.validate (h : OpenFile M g S T base l cont fp)
    (hv : HasTable M g (g.DataOf S) base T v) : validate fp v = .ok := by
  have hknown := h.access.layout.table.known
  rw [← hv.geometry] at hknown
  exact if_pos ⟨h.objFs, hknown, h.id.trans (congrArg Geometry.id hv.geometry).symm⟩

theorem OpenFile.of_readDone {btr k : Nat} {base' : Lba → Sector}
    (h : OpenFile M g S T base l cont t.fp)
    (hdone : ReadDone M g S T l cont base btr t .ok t' base' k) :
    OpenFile M g S T base' l cont t'.fp := by
  obtain ⟨-, -, herr, -, hp, hcache⟩ := hdone.outcome.resolve_right fun hbad => nomatch hbad.1
  exact ⟨h.access, hp, hcache, hdone.same.objFs.trans h.objFs, hdone.same.id.trans h.id,
    herr.trans h.err⟩

/-- The number of bytes that `f_read` is to read. -/
def Fil.toRead (fp : Fil) (btr : BitVec 32) : Nat :=
  min btr.toNat (fp.objsize.toNat - fp.fptr.toNat)

theorem fRead_eq (ho : OpenFile M g S T base l cont fp)
    (hv : HasTable M g (g.DataOf S) base T v) (hmode : fp.flag &&& FA_READ ≠ 0)
    (buff : Nat → Byte) (btr : BitVec 32) :
    ∃ n : BitVec 32, n.toNat = fp.toRead btr ∧
      fRead D fp buff btr v = readLoop D n.toNat n ⟨0, buff, fp, v⟩ := by
  have hptr : fp.fptr.toNat ≤ fp.objsize.toNat := ho.placed.ptr
  unfold fRead
  dsimp only
  rw [ho.validate hv, if_neg (not_not.mpr rfl), ho.err, if_neg (not_not.mpr rfl), if_neg hmode]
  refine ⟨_, ?_, rfl⟩
  unfold Fil.toRead
  split_ifs <;> bv_omega

/-- `f_read` returns on a drive that answers, and does what its loop does. -/
theorem fRead_spec (hM : M.Answers) (ho : OpenFile M g S T base l cont fp)
    (hv : HasTable M g (g.DataOf S) base T v) (hmode : fp.flag &&& FA_READ ≠ 0)
    (buff : Nat → Byte) (btr : BitVec 32) :
    ∃ r t' base' k, fRead D fp buff btr v = some (r, t') ∧
      ReadDone M g S T l cont base (fp.toRead btr) ⟨0, buff, fp, v⟩ r t' base' k := by
  obtain ⟨n, hn, heq⟩ := fRead_eq ho hv hmode buff btr
  have hptr : fp.fptr.toNat ≤ fp.objsize.toNat := ho.placed.ptr
  have hroom : fp.fptr.toNat + n.toNat ≤ fp.objsize.toNat := by
    rw [hn, Fil.toRead]
    omega
  obtain ⟨r, t', base', k, h, hdone⟩ := readLoop_spec (t := ⟨0, buff, fp, v⟩) hM ho.access hv
    ho.placed ho.cached hroom (by have := n.isLt; simpa using this) (Nat.le_refl n.toNat)
  exact ⟨r, t', base', k, heq.trans h, hn ▸ hdone⟩

/-- `f_read` returns on a drive that answers.  It gives the bytes of the file from the file
pointer on, as many as asked for or as there are, whether they are on the disk or only in the
buffer of the file object, and whether they are read directly or through the buffer; only a
disk error stops it, and what it has counted by then is right.  It changes no other sector than
one of the file, whose contents stay the same, and no other byte of memory. -/
theorem f_read_gives_contents (hM : M.Answers) (ho : OpenFile M g S T base l cont fp)
    (hv : HasTable M g (g.DataOf S) base T v) (hmode : fp.flag &&& FA_READ ≠ 0)
    (buff : Nat → Byte) (btr : BitVec 32) :
    ∃ r t' base', fRead D fp buff btr v = some (r, t') ∧
      HasTable M g (g.DataOf S) base' T t'.vol ∧ OnlyIn g l base base' ∧
      (∀ j < t'.count.toNat, t'.buff j = flatten cont (fp.fptr.toNat + j)) ∧
      (∀ j, fp.toRead btr ≤ j → t'.buff j = buff j) ∧
      (r = .ok ∧ t'.count.toNat = fp.toRead btr ∧
          t'.fp.fptr.toNat = fp.fptr.toNat + fp.toRead btr ∧ t'.fp.objsize = fp.objsize ∧
          OpenFile M g S T base' l cont t'.fp ∨
        r = .diskErr ∧ t'.fp.err = .diskErr ∧ ¬ M.Reliable) := by
  obtain ⟨r, t', base', k, h, hdone⟩ := fRead_spec hM ho hv hmode buff btr
  have hcount : t'.count.toNat = k := hdone.count.trans (Nat.zero_add k)
  refine ⟨r, t', base', h, hdone.table, hdone.only, fun j hj => ?_, fun j hj => ?_, ?_⟩
  · have hbyte : t'.buff (0 + j) = _ := hdone.bytes j (hcount ▸ hj)
    rwa [Nat.zero_add] at hbyte
  · refine hdone.outside j ?_
    show ¬ (0 ≤ j ∧ j < 0 + fp.toRead btr)
    omega
  · rcases hdone.outcome with ⟨rfl, hk, -, hend, -⟩ | hbad
    · exact Or.inl ⟨rfl, by omega, hend, hdone.same.objsize, ho.of_readDone hdone⟩
    · exact Or.inr hbad

end Specs

/-- A file of 512 bytes in the cluster `c`, just opened for reading and writing. -/
def smallFile (c : BitVec 32) : Fil where
  objFs := true
  id := 1
  sclust := c
  objsize := 512
  flag := FA_READ ||| FA_WRITE
  err := .ok
  fptr := 0
  clust := 0
  sect := 0
  buf := fun _ => 0

/-- A disk whose data sectors count up. -/
def countingDisk (q : Lba) (i : Fin 512) : Byte := if 33 ≤ q then BitVec.ofNat 8 i else 0

theorem countingDisk_fat (q : Lba) (hq : q < 19) : countingDisk q = fun _ => 0 :=
  funext fun _ => if_neg (by bv_omega)

theorem smallFile_open {T : BitVec 32 → BitVec 32} {c : BitVec 32} (hc : c = 2 ∨ c = 3)
    (hl : Linked T diskette.Cluster diskette.Eoc [c]) :
    OpenFile ramMedia diskette (fun _ => True) T countingDisk [c] (fun _ => countingDisk 33)
      (smallFile c) where
  access := ⟨diskette_layout, by decide, hl, fun _ _ => trivial⟩
  placed := by
    refine ⟨?_, ?_, ?_, fun h => absurd h (Nat.lt_irrefl 0), fun h => absurd rfl h⟩
    · rcases hc with rfl | rfl <;> rfl
    · exact (by decide : 512 ≤ 512 * (diskette.csize.toNat * 1))
    · rcases hc with rfl | rfl <;> decide
  cached := by
    have hsect : ∀ s < diskette.csize.toNat * [c].length, sectorAt diskette [c] s = 31 + c := by
      intro s hs
      obtain rfl : s = 0 := Nat.lt_one_iff.mp hs
      rcases hc with rfl | rfl <;> rfl
    refine ⟨fun s hs _ => ?_, fun s hs heq => ?_, Or.inl ⟨rfl, ?_⟩⟩
    · rw [hsect s hs]
      rcases hc with rfl | rfl <;> rfl
    · rw [hsect s hs] at heq
      rcases hc with rfl | rfl <;> cases heq
    · exact (by decide : ¬ (FA_READ ||| FA_WRITE) &&& FA_DIRTY ≠ 0)
  objFs := rfl
  id := rfl
  err := rfl

/-- Three bytes of it. -/
theorem three_bytes_read : ∃ v t', fRead ramDrive (smallFile 2) (fun _ => 0xFF) 3 v =
      some (.ok, t') ∧ t'.count.toNat = 3 ∧ t'.buff 2 = 2 ∧ t'.buff 3 = 0xFF := by
  obtain ⟨T, v, hv, hl, -⟩ := disketteOf_files countingDisk countingDisk_fat
  obtain ⟨r, t', base', h, -, -, hbytes, hrest, ⟨rfl, hcount, -⟩ | ⟨-, -, hbad⟩⟩ :=
    f_read_gives_contents ramMedia_reliable.answers
      (smallFile_open (Or.inl rfl) (hl 2 (Or.inl rfl))) hv (by decide) (fun _ => 0xFF) 3
  · have h3 : t'.count.toNat = 3 := hcount
    exact ⟨v, t', h, h3, hbytes 2 (by omega), hrest 3 (by decide)⟩
  · exact absurd ramMedia_reliable hbad

end ChronOS.Fs
