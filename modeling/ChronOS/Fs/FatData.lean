/-
  Fs/FatData.lean --- the data area of a volume: `clst2sect` of `kernel/src/fs/fat/ff.c` and
  transfers that do not go through the window.

  The contents of files are read and written with `disk_read` and `disk_write` directly.  This
  is sound as long as the window is not over a sector of theirs, and the FAT is not touched.
-/
import ChronOS.Fs.FatFiles

set_option autoImplicit false

namespace ChronOS.Fs

open ChronOS.Foundation

/-! ## The sectors of a cluster -/

/-- `clst2sect`. -/
def clst2sect (g : Geometry) (clst : BitVec 32) : Lba :=
  let clst := clst - 2
  if g.nFatent - 2 ≤ clst then 0 else g.database + g.csize.setWidth 32 * clst

namespace Geometry

/-- Where the parts of a mounted volume are: the data area lies behind the FATs, and a cluster
is a power of two of sectors. -/
structure Layout (g : Geometry) (limit : Nat) : Prop where
  table : g.Table limit
  clusters : 2 < g.nFatent.toNat
  power : ∃ k, g.csize.toNat = 2 ^ k
  behind : g.fatbase.toNat + g.fsize.toNat ≤ g.database.toNat ∧
    (g.nFats = 2 → g.fatbase.toNat + 2 * g.fsize.toNat ≤ g.database.toNat)
  fits : g.database.toNat + g.csize.toNat * (g.nFatent.toNat - 2) ≤ limit

/-- Sector `i` of the cluster `c`. -/
def sector (g : Geometry) (c : BitVec 32) (i : Nat) : Lba := clst2sect g c + BitVec.ofNat 32 i

/-- The sectors of the clusters `S`. -/
def DataOf (g : Geometry) (S : BitVec 32 → Prop) (q : Lba) : Prop :=
  ∃ c i, g.Cluster c ∧ S c ∧ i < g.csize.toNat ∧ q = g.sector c i

variable {g : Geometry} {limit : Nat} {c c' : BitVec 32} {i i' : Nat}

theorem Layout.csize_pos (hg : g.Layout limit) : 0 < g.csize.toNat := by
  obtain ⟨k, hk⟩ := hg.power
  rw [hk]
  exact Nat.two_pow_pos k

theorem Layout.database_pos (hg : g.Layout limit) : 0 < g.database.toNat := by
  have hroom := hg.table.room
  have hclusters := hg.clusters
  have hbehind := hg.behind.1
  have hwidth : 0 < g.fsType.width := by
    cases htype : g.fsType with
    | none => exact absurd htype hg.table.known
    | _ => decide
  have hmul := Nat.mul_le_mul hwidth (Nat.le_of_lt hclusters)
  omega

/-- A cluster ends before the data area does. -/
theorem Layout.cluster_end (hg : g.Layout limit) (hc : g.Cluster c) :
    g.database.toNat + g.csize.toNat * (c.toNat - 2) + g.csize.toNat ≤ limit := by
  have hlt : c.toNat < g.nFatent.toNat := hc.2
  have hlow : 2 ≤ c.toNat := hc.1
  have hmul := Nat.mul_le_mul_left g.csize.toNat
    (show c.toNat - 2 + 1 ≤ g.nFatent.toNat - 2 by omega)
  have hfits := hg.fits
  rw [Nat.mul_succ] at hmul
  omega

theorem toNat_clst2sect (hg : g.Layout limit) (hlimit : limit < 2 ^ 32) (hc : g.Cluster c) :
    (clst2sect g c).toNat = g.database.toNat + g.csize.toNat * (c.toNat - 2) := by
  have hend := hg.cluster_end hc
  obtain ⟨hlow, hhigh⟩ := hc
  have hlow' : 2 ≤ c.toNat := hlow
  have hsub : (c - 2).toNat = c.toNat - 2 := by bv_omega
  rw [clst2sect, if_neg (by bv_omega), BitVec.toNat_add, BitVec.toNat_mul, BitVec.toNat_setWidth,
    hsub, Nat.mod_eq_of_lt (show g.csize.toNat < 2 ^ 32 by omega), Nat.mod_eq_of_lt
      (show g.csize.toNat * (c.toNat - 2) < 2 ^ 32 by omega), Nat.mod_eq_of_lt (by omega)]

theorem toNat_sector (hg : g.Layout limit) (hlimit : limit < 2 ^ 32) (hc : g.Cluster c)
    (hi : i < g.csize.toNat) :
    (g.sector c i).toNat = g.database.toNat + g.csize.toNat * (c.toNat - 2) + i := by
  have hend := hg.cluster_end hc
  rw [sector, BitVec.toNat_add, toNat_clst2sect hg hlimit hc, BitVec.toNat_ofNat]
  omega

theorem clst2sect_ne_zero (hg : g.Layout limit) (hlimit : limit < 2 ^ 32) (hc : g.Cluster c) :
    clst2sect g c ≠ 0 := by
  intro hzero
  have hpos := hg.database_pos
  have hval := toNat_clst2sect hg hlimit hc
  rw [hzero, BitVec.ofNat_eq_ofNat, BitVec.toNat_ofNat, Nat.zero_mod] at hval
  omega

theorem sector_inj (hg : g.Layout limit) (hlimit : limit < 2 ^ 32) (hc : g.Cluster c)
    (hc' : g.Cluster c') (hi : i < g.csize.toNat) (hi' : i' < g.csize.toNat)
    (heq : g.sector c i = g.sector c' i') : c = c' ∧ i = i' := by
  have hlow : 2 ≤ c.toNat := hc.1
  have hlow' : 2 ≤ c'.toNat := hc'.1
  have hval := congrArg BitVec.toNat heq
  rw [toNat_sector hg hlimit hc hi, toNat_sector hg hlimit hc' hi', Nat.add_assoc, Nat.add_assoc,
    Nat.add_left_cancel_iff] at hval
  have hdiv := congrArg (· / g.csize.toNat) hval
  have hmod := congrArg (· % g.csize.toNat) hval
  simp only [Nat.mul_add_div hg.csize_pos, Nat.mul_add_mod, Nat.div_eq_of_lt hi,
    Nat.div_eq_of_lt hi', Nat.mod_eq_of_lt hi, Nat.mod_eq_of_lt hi'] at hdiv hmod
  exact ⟨BitVec.eq_of_toNat_eq (by omega), hmod⟩

/-- They are neither in the FATs nor beyond the end. -/
theorem DataOf.main {S : BitVec 32 → Prop} {q : Lba} (hg : g.Layout limit)
    (hlimit : limit < 2 ^ 32) (hq : g.DataOf S q) : g.Main limit q ∧ ¬ g.InFat q := by
  obtain ⟨c, i, hc, -, hi, rfl⟩ := hq
  have hval := toNat_sector hg hlimit hc hi
  have hend := hg.cluster_end hc
  have hbehind := hg.behind
  refine ⟨⟨by omega, fun hmirror => ?_⟩, fun hfat => ?_⟩
  · obtain ⟨htwo, -, hlt⟩ := (inMirror_iff hg.table.fats hlimit).mp hmirror
    have := hbehind.2 htwo
    omega
  · have := ((inFat_iff hg.table.fats hlimit).mp hfat).2
    omega

end Geometry

/-! ## The sectors of a chain -/

/-- Sector `s` of a file with the clusters `l`. -/
def sectorAt (g : Geometry) (l : List (BitVec 32)) (s : Nat) : Lba :=
  g.sector (l.getD (s / g.csize.toNat) 0) (s % g.csize.toNat)

section Chain

variable {g : Geometry} {limit : Nat} {l l' : List (BitVec 32)} {s s' i : Nat}

theorem getD_mem (hlt : i < l.length) : l.getD i 0 ∈ l := by
  rw [List.getD_eq_getElem l 0 hlt]
  exact List.getElem_mem hlt

theorem sectorAt_inj (hg : g.Layout limit) (hlimit : limit < 2 ^ 32)
    (hl : ∀ c ∈ l, g.Cluster c) (hnodup : l.Nodup) (hs : s < g.csize.toNat * l.length)
    (hs' : s' < g.csize.toNat * l.length) (heq : sectorAt g l s = sectorAt g l s') : s = s' := by
  have hlt := Nat.div_lt_of_lt_mul hs
  have hlt' := Nat.div_lt_of_lt_mul hs'
  obtain ⟨hc, hi⟩ := Geometry.sector_inj hg hlimit (hl _ (getD_mem hlt)) (hl _ (getD_mem hlt'))
    (Nat.mod_lt s hg.csize_pos) (Nat.mod_lt s' hg.csize_pos) heq
  rw [List.getD_eq_getElem l 0 hlt, List.getD_eq_getElem l 0 hlt', hnodup.getElem_inj_iff] at hc
  rw [← Nat.div_add_mod s g.csize.toNat, ← Nat.div_add_mod s' g.csize.toNat, hc, hi]

/-- Chains without a common cluster have no common sector. -/
theorem sectorAt_apart (hg : g.Layout limit) (hlimit : limit < 2 ^ 32)
    (hl : ∀ c ∈ l, g.Cluster c) (hl' : ∀ c ∈ l', g.Cluster c) (hapart : l.Disjoint l')
    (hs : s < g.csize.toNat * l.length) (hs' : s' < g.csize.toNat * l'.length) :
    sectorAt g l s ≠ sectorAt g l' s' := by
  intro heq
  have hmem := getD_mem (Nat.div_lt_of_lt_mul hs)
  have hmem' := getD_mem (Nat.div_lt_of_lt_mul hs')
  obtain ⟨hc, -⟩ := Geometry.sector_inj hg hlimit (hl _ hmem) (hl' _ hmem')
    (Nat.mod_lt s hg.csize_pos) (Nat.mod_lt s' hg.csize_pos) heq
  exact hapart hmem (hc ▸ hmem')

/-- Sectors that are not behind the end of a cluster. -/
theorem add_div_of_mod_add_lt {n : Nat} (hi : s % n + i < n) : (s + i) / n = s / n := by
  have hlt : i < n := by omega
  rw [Nat.add_div (by omega), Nat.div_eq_of_lt hlt, Nat.mod_eq_of_lt hlt,
    if_neg (Nat.not_le_of_lt hi)]
  rfl

theorem sectorAt_add (hi : s % g.csize.toNat + i < g.csize.toNat) :
    sectorAt g l s + BitVec.ofNat 32 i = sectorAt g l (s + i) := by
  have hmod : (s + i) % g.csize.toNat = s % g.csize.toNat + i := by
    rw [Nat.add_mod, Nat.mod_eq_of_lt (show i < g.csize.toNat by omega), Nat.mod_eq_of_lt hi]
  rw [sectorAt, sectorAt, add_div_of_mod_add_lt hi, hmod, Geometry.sector, Geometry.sector,
    BitVec.ofNat_add, BitVec.add_assoc]

theorem sectorAt_dataOf {S : BitVec 32 → Prop} (hg : g.Layout limit)
    (hl : ∀ c ∈ l, g.Cluster c ∧ S c) (hs : s < g.csize.toNat * l.length) :
    g.DataOf S (sectorAt g l s) := by
  have hmem := getD_mem (Nat.div_lt_of_lt_mul hs)
  exact ⟨_, _, (hl _ hmem).1, (hl _ hmem).2, Nat.mod_lt s hg.csize_pos, rfl⟩

/-- A cluster behind the last one adds sectors behind the last one. -/
theorem sectorAt_append (hs : s < g.csize.toNat * l.length)
    (l' : List (BitVec 32)) : sectorAt g (l ++ l') s = sectorAt g l s := by
  rw [sectorAt, List.getD_append l l' 0 _ (Nat.div_lt_of_lt_mul hs), sectorAt]

end Chain

/-! ## Transfers without the window -/

section Transfers

variable {σ : Type} {D : Drive σ} {M : Media D} {g : Geometry} {P : Lba → Prop}
  {base : Lba → Sector} {T : BitVec 32 → BitVec 32} {v : Vol σ} {drv : σ} {res : Dresult}
  {q : Lba} {n : BitVec 32}

/-- A volume on which neither the window nor any sector has changed. -/
theorem Shows.sameDisk {img : Lba → Sector} (hfats : g.FatsBelow M.limit) (hv : Shows M g img v)
    (hsound : M.Sound drv)
    (hsame : ∀ p : Lba, p.toNat < M.limit → M.sectors drv p = M.sectors v.drv p) :
    Shows M g img ⟨v.fs, drv⟩ where
  geometry := hv.geometry
  sound := hsound
  elsewhere := fun p hp hne => (hsame p hp.1).trans (hv.elsewhere p hp hne)
  window := hv.window
  clean := fun hflag hmain => (hsame _ hmain.1).trans (hv.clean hflag hmain)
  dirty := hv.dirty
  mirrored := fun hrel htwo p hp hside =>
    (hsame _ (hp.mirror htwo hfats M.limit_lt).2).trans (hv.mirrored hrel htwo p hp hside)

/-- Sectors that were written behind the back of the window. -/
def written (q : Lba) (n : BitVec 32) (disk img : Lba → Sector) (p : Lba) : Sector :=
  if p - q < n then disk p else img p

theorem written_eq {disk img : Lba → Sector} {i : Nat} (hi : i < n.toNat) :
    written q n disk img (q + BitVec.ofNat 32 i) = disk (q + BitVec.ofNat 32 i) := by
  have hn := n.isLt
  refine if_pos ?_
  bv_omega

theorem written_of_ne {disk img : Lba → Sector} {p : Lba}
    (hp : ∀ i < n.toNat, p ≠ q + BitVec.ofNat 32 i) : written q n disk img p = img p := by
  refine if_neg fun hlt => hp (p - q).toNat hlt ?_
  rw [BitVec.ofNat_toNat, BitVec.setWidth_eq]
  bv_omega

theorem Geometry.entry_congr {limit : Nat} {img img' : Lba → Sector} (hfats : g.FatsBelow limit)
    (hlimit : limit < 2 ^ 32) (hsame : ∀ p, g.InFat p → img' p = img p) (c : BitVec 32) :
    g.entry img' c = g.entry img c := by
  have hbytes : g.fatBytes img' = g.fatBytes img := by
    funext k
    unfold Geometry.fatBytes
    split_ifs with hk
    · rw [hsame _ (Geometry.fatSector_inFat hfats hlimit hk)]
    · rfl
  rw [Geometry.entry, hbytes, Geometry.entry]

namespace HasTable

theorem sound (hv : HasTable M g P base T v) : M.Sound v.drv := by
  obtain ⟨_, hshows, -⟩ := hv
  exact hshows.sound

/-- `disk_read` from sectors that the window is not over. -/
theorem readData {buf : Nat → Sector} (hM : M.Answers) (ht : g.Table M.limit)
    (hv : HasTable M g P base T v) (hpos : 0 < n.toNat) (hmost : n.toNat ≤ M.most)
    (hlimit : q.toNat + n.toNat ≤ M.limit) (hP : ∀ i < n.toNat, P (q + BitVec.ofNat 32 i)) :
    ∃ res data drv, D.read q n buf v.drv = some (res, data, drv) ∧
      HasTable M g P base T ⟨v.fs, drv⟩ ∧
      (res = .ok → ∀ i < n.toNat, data i = base (q + BitVec.ofNat 32 i)) ∧
      (M.Reliable → res = .ok) := by
  obtain ⟨img, hs, hout, hT, haway⟩ := hv
  obtain ⟨res, data, drv, h⟩ := hM.read hs.sound hpos hmost hlimit
  obtain ⟨hsound, hsame, hdata⟩ := M.read_spec hs.sound hpos hmost hlimit h
  refine ⟨res, data, drv, h, ⟨img, hs.sameDisk ht.fats hsound hsame, hout, hT, haway⟩,
    fun hres i hi => ?_, fun hrel => hrel.read hs.sound hpos hmost hlimit h⟩
  obtain ⟨hmain, hfat, hne⟩ := haway _ (hP i hi)
  rw [hdata hres i hi, hs.elsewhere _ hmain hne, hout _ hfat]

theorem writeData {data : Nat → Sector} (hM : M.Answers) (ht : g.Table M.limit)
    (hv : HasTable M g P base T v) (hpos : 0 < n.toNat) (hmost : n.toNat ≤ M.most)
    (hlimit : q.toNat + n.toNat ≤ M.limit) (hP : ∀ i < n.toNat, P (q + BitVec.ofNat 32 i)) :
    ∃ res drv base', D.write data q n v.drv = some (res, drv) ∧
      HasTable M g P base' T ⟨v.fs, drv⟩ ∧
      (∀ p, (∀ i < n.toNat, p ≠ q + BitVec.ofNat 32 i) → base' p = base p) ∧
      (res = .ok → ∀ i < n.toNat, base' (q + BitVec.ofNat 32 i) = data i) ∧
      (M.Reliable → res = .ok) := by
  obtain ⟨img, hs, hout, hT, haway⟩ := hv
  obtain ⟨res, drv, h⟩ := hM.write hs.sound hpos hmost hlimit
  obtain ⟨hsound, hsame, hdata⟩ := M.write_spec hs.sound hpos hmost hlimit h
  have hother : ∀ p : Lba, p.toNat < M.limit → (∀ i < n.toNat, p ≠ q + BitVec.ofNat 32 i) →
      M.sectors drv p = M.sectors v.drv p := by
    intro p hp hne
    refine hsame p hp (Nat.le_of_not_lt fun hlt => hne _ hlt ?_)
    rw [BitVec.ofNat_toNat, BitVec.setWidth_eq]
    bv_omega
  have hwin : ∀ i < n.toNat, v.fs.winsect ≠ q + BitVec.ofNat 32 i := fun i hi heq =>
    (haway _ (hP i hi)).2.2 heq.symm
  have hfat : ∀ p, g.InFat p → ∀ i < n.toNat, p ≠ q + BitVec.ofNat 32 i := by
    rintro p hp i hi rfl
    exact (haway _ (hP i hi)).2.1 hp
  have hmirror : ∀ p, g.InMirror p → ∀ i < n.toNat, p ≠ q + BitVec.ofNat 32 i := by
    rintro p hp i hi rfl
    exact (haway _ (hP i hi)).1.2 hp
  refine ⟨res, drv, written q n (M.sectors drv) base, h,
    ⟨written q n (M.sectors drv) img, ?_, ?_, ?_, haway⟩, fun p hp => written_of_ne hp,
    fun hres i hi => (written_eq hi).trans (hdata hres i hi),
    fun hrel => hrel.write hs.sound hpos hmost hlimit h⟩
  · refine ⟨hs.geometry, hsound, fun p hp hne => ?_, fun hmain => ?_, fun hflag hmain => ?_,
      hs.dirty, fun hrel htwo p hp hside => ?_⟩
    · unfold written
      split_ifs with hin
      · rfl
      · refine (hother p hp.1 fun i hi heq => hin ?_).trans (hs.elsewhere p hp hne)
        rw [heq]
        have hn := n.isLt
        bv_omega
    · rw [written_of_ne hwin]
      exact hs.window hmain
    · rw [written_of_ne hwin]
      exact (hother _ hmain.1 hwin).trans (hs.clean hflag hmain)
    · obtain ⟨hin, hlt⟩ := hp.mirror htwo ht.fats M.limit_lt
      rw [written_of_ne (hfat p hp)]
      exact (hother _ hlt (hmirror _ hin)).trans (hs.mirrored hrel htwo p hp hside)
  · intro p hp
    unfold written
    rw [hout p hp]
  · intro c
    rw [← hT c]
    exact Geometry.entry_congr ht.fats M.limit_lt (fun p hp => written_of_ne (hfat p hp)) c

end HasTable

end Transfers

/-! ## A diskette with two files -/

theorem diskette_layout : diskette.Layout ramMedia.limit :=
  ⟨diskette_table, by decide, ⟨0, by decide⟩, by decide, by decide⟩

/-- All its clusters may be transferred without the window. -/
abbrev disketteData : Lba → Prop := diskette.DataOf fun _ => True

/-- A diskette with the sectors `disk` and no file. -/
theorem disketteOf_hasTable (disk : Lba → Sector) (hfat : ∀ q : Lba, q < 19 → disk q = fun _ => 0) :
    HasTable ramMedia diskette disketteData disk (diskette.entry fun _ _ => 0)
      { zeroDiskette with drv := disk } := by
  have hlow : ∀ q, diskette.InFat q → disk q = fun _ => 0 := by
    intro q hq
    have hlt : q - 1 < 9 := hq
    exact hfat q (by bv_omega)
  have hcopy : ∀ q, diskette.InFat q → disk (q + 9) = disk q := by
    intro q hq
    have hlt : q - 1 < 9 := hq
    rw [hlow q hq, hfat (q + 9) (by bv_omega)]
  have hshows : Shows ramMedia diskette disk { zeroDiskette with drv := disk } :=
    Shows.blank (M := ramMedia) (v := { zeroDiskette with drv := disk }) rfl trivial rfl rfl
      fun _ => hcopy
  refine ⟨disk, hshows, fun _ _ => rfl,
    Geometry.entry_congr diskette_fatsBelow ramMedia.limit_lt hlow, fun q hq => ?_⟩
  obtain ⟨hmain, hout⟩ := hq.main diskette_layout ramMedia.limit_lt
  refine ⟨hmain, hout, ?_⟩
  have hlt : q.toNat < 2 ^ 32 - 1 := hmain.1
  show q ≠ 0 - 1
  bv_omega

theorem disketteOf_files (disk : Lba → Sector) (hfat : ∀ q : Lba, q < 19 → disk q = fun _ => 0) :
    ∃ T v, HasTable ramMedia diskette disketteData disk T v ∧
      (∀ c, c = 2 ∨ c = 3 → Linked T diskette.Cluster diskette.Eoc [c]) ∧ (∀ d, T d ≠ 1) ∧
      v.fs.toHints = zeroDiskette.fs.toHints := by
  obtain ⟨v₁, hv₁, hhints₁⟩ :=
    diskette_entry (disketteOf_hasTable disk hfat) (c := 2) (by decide) 0xFFFFFFFF
  obtain ⟨v, hv, hhints⟩ := diskette_entry hv₁ (c := 3) (by decide) 0xFFFFFFFF
  refine ⟨_, v, hv, ?_, fun d => ?_, hhints.trans hhints₁⟩
  · rintro c (rfl | rfl) y hy
    · obtain rfl : 2 = y := Option.some.inj hy
      exact ⟨_, ⟨rfl, by decide, rfl⟩, le_held_eoc diskette_table⟩
    · obtain rfl : 3 = y := Option.some.inj hy
      exact ⟨_, ⟨rfl, by decide, rfl⟩, le_held_eoc diskette_table⟩
  · rw [Function.update_apply, Function.update_apply, entry_zero]
    split_ifs <;> decide

end ChronOS.Fs
