/-
  Fs/FatWindow.lean --- the disk access window of `kernel/src/fs/fat/ff.c`.

  FatFs reads and writes the FAT and the directories through one sector buffer, `win`.
  `sync_window` writes it back, and once more into the second FAT, without looking at the
  result, when the sector belongs to the first; `move_window` replaces it.  The disk behind it
  may fail at any call.

  The window is a write-back cache of one sector.  `Shows` says which array of sectors a
  volume stands for, and every operation here keeps it, whether its disk calls succeed or not.
-/
import ChronOS.Foundation.Calls
import ChronOS.Fs.Diskio

set_option autoImplicit false

namespace ChronOS.Fs

open ChronOS.Foundation

/-! ## The disk functions -/

/-- `LBA_t`, a `DWORD` in this configuration. -/
abbrev Lba : Type := BitVec 32

/-- The bytes of a sector: `SS(fs)` is 512. -/
abbrev Sector : Type := Fin 512 → Byte

/-- `disk_read` and `disk_write` as `ff.c` uses them.  The first returns what the buffer holds
afterwards, sector by sector; `none` is a call that does not return. -/
structure Drive (σ : Type) where
  read : Lba → BitVec 32 → (Nat → Sector) → σ → Option (Dresult × (Nat → Sector) × σ)
  write : (Nat → Sector) → Lba → BitVec 32 → σ → Option (Dresult × σ)

/-- What is on a drive: transfers of up to `most` sectors below `limit` that return `RES_OK`
move those sectors, and no transfer changes any sector that it does not write. -/
structure Media {σ : Type} (D : Drive σ) where
  limit : Nat
  limit_lt : limit < 2 ^ 32
  most : Nat
  most_pos : 0 < most
  sectors : σ → Lba → Sector
  Sound : σ → Prop
  read_spec : ∀ {q n buf s r data s'}, Sound s → 0 < n.toNat → n.toNat ≤ most →
    q.toNat + n.toNat ≤ limit → D.read q n buf s = some (r, data, s') →
    Sound s' ∧ (∀ p : Lba, p.toNat < limit → sectors s' p = sectors s p) ∧
      (r = .ok → ∀ i < n.toNat, data i = sectors s (q + BitVec.ofNat 32 i))
  write_spec : ∀ {data q n s r s'}, Sound s → 0 < n.toNat → n.toNat ≤ most →
    q.toNat + n.toNat ≤ limit → D.write data q n s = some (r, s') →
    Sound s' ∧ (∀ p : Lba, p.toNat < limit → n.toNat ≤ (p - q).toNat →
        sectors s' p = sectors s p) ∧
      (r = .ok → ∀ i < n.toNat, sectors s' (q + BitVec.ofNat 32 i) = data i)

/-- Every transfer returns. -/
structure Media.Answers {σ : Type} {D : Drive σ} (M : Media D) : Prop where
  read : ∀ {q n buf s}, M.Sound s → 0 < n.toNat → n.toNat ≤ M.most →
    q.toNat + n.toNat ≤ M.limit → ∃ r data s', D.read q n buf s = some (r, data, s')
  write : ∀ {data q n s}, M.Sound s → 0 < n.toNat → n.toNat ≤ M.most →
    q.toNat + n.toNat ≤ M.limit → ∃ r s', D.write data q n s = some (r, s')

/-- No transfer fails. -/
structure Media.Reliable {σ : Type} {D : Drive σ} (M : Media D) : Prop where
  answers : M.Answers
  read : ∀ {q n buf s r data s'}, M.Sound s → 0 < n.toNat → n.toNat ≤ M.most →
    q.toNat + n.toNat ≤ M.limit → D.read q n buf s = some (r, data, s') → r = .ok
  write : ∀ {data q n s r s'}, M.Sound s → 0 < n.toNat → n.toNat ≤ M.most →
    q.toNat + n.toNat ≤ M.limit → D.write data q n s = some (r, s') → r = .ok

section OneSector

variable {σ : Type} {D : Drive σ} (M : Media D) {q : Lba} {s : σ}

theorem Media.read_one (hs : M.Sound s) (hq : q.toNat < M.limit) (buf : Nat → Sector) :
    Ensures M.Answers (D.read q 1 buf s) fun (r, data, s') =>
      M.Sound s' ∧ (∀ p : Lba, p.toNat < M.limit → M.sectors s' p = M.sectors s p) ∧
        (r = .ok → data 0 = M.sectors s q) ∧ (M.Reliable → r = .ok) where
  post := by
    rintro ⟨r, data, s'⟩ h
    obtain ⟨hsound, hsame, hdata⟩ := M.read_spec (n := 1) hs (by decide) M.most_pos hq h
    refine ⟨hsound, hsame, fun hr => ?_,
      fun hrel => hrel.read (n := 1) hs (by decide) M.most_pos hq h⟩
    have h0 := hdata hr 0 (by decide)
    rwa [BitVec.add_zero] at h0
  returns := by
    intro hM
    obtain ⟨r, data, s', h⟩ := hM.read (n := 1) hs (by decide) M.most_pos hq
    exact ⟨_, h⟩

theorem Media.write_one (hs : M.Sound s) (hq : q.toNat < M.limit) (data : Nat → Sector) :
    Ensures M.Answers (D.write data q 1 s) fun (r, s') =>
      M.Sound s' ∧ (∀ p : Lba, p.toNat < M.limit → p ≠ q → M.sectors s' p = M.sectors s p) ∧
        (r = .ok → M.sectors s' q = data 0) ∧ (M.Reliable → r = .ok) where
  post := by
    rintro ⟨r, s'⟩ h
    obtain ⟨hsound, hsame, hdata⟩ := M.write_spec (n := 1) hs (by decide) M.most_pos hq h
    refine ⟨hsound, fun p hp hne => hsame p hp ?_, fun hr => ?_,
      fun hrel => hrel.write (n := 1) hs (by decide) M.most_pos hq h⟩
    · show 1 ≤ (p - q).toNat
      bv_omega
    · have h0 := hdata hr 0 (by decide)
      rwa [BitVec.add_zero] at h0
  returns := by
    intro hM
    obtain ⟨r, s', h⟩ := hM.write (n := 1) hs (by decide) M.most_pos hq
    exact ⟨_, h⟩

end OneSector

/-! ## The volume -/

/-- `fs_type`; `none` is a blank filesystem object. -/
inductive FsType
  | none
  | fat12
  | fat16
  | fat32
  deriving DecidableEq, Repr

/-- The fields of `FATFS` that mounting sets for good. -/
structure Geometry where
  fsType : FsType
  id : BitVec 16
  nFats : Byte
  nRootdir : BitVec 16
  csize : BitVec 16
  nFatent : BitVec 32
  fsize : BitVec 32
  volbase : Lba
  fatbase : Lba
  dirbase : Lba
  database : Lba
  deriving DecidableEq, Repr

/-- The allocation information of `FATFS`. -/
structure Hints where
  fsiFlag : Byte
  lastClst : BitVec 32
  freeClst : BitVec 32
  deriving DecidableEq, Repr

/-- `FATFS`. -/
structure FatFs extends Geometry, Hints where
  wflag : Byte
  winsect : Lba
  win : Sector

/-- A filesystem object and its drive. -/
structure Vol (σ : Type) where
  fs : FatFs
  drv : σ

/-- The values of `FRESULT` that the modelled functions return. -/
inductive Fresult
  | ok
  | diskErr
  | intErr
  | notReady
  | noFile
  | denied
  | invalidObject
  | writeProtected
  | noFilesystem
  deriving DecidableEq, Repr

section Functions

variable {σ : Type} (D : Drive σ)

/-- `sync_window`. -/
def syncWindow (v : Vol σ) : Option (Fresult × Vol σ) :=
  if v.fs.wflag ≠ 0 then do
    let (res, drv) ← D.write (fun _ => v.fs.win) v.fs.winsect 1 v.drv
    if res = .ok then
      let fs := { v.fs with wflag := 0 }
      if fs.winsect - fs.fatbase < fs.fsize then
        if fs.nFats = 2 then
          let (_, drv) ← D.write (fun _ => fs.win) (fs.winsect + fs.fsize) 1 drv
          some (.ok, ⟨fs, drv⟩)
        else some (.ok, ⟨fs, drv⟩)
      else some (.ok, ⟨fs, drv⟩)
    else some (.diskErr, ⟨v.fs, drv⟩)
  else some (.ok, v)

/-- `move_window`. -/
def moveWindow (sect : Lba) (v : Vol σ) : Option (Fresult × Vol σ) :=
  if sect ≠ v.fs.winsect then do
    let (res, v) ← syncWindow D v
    if res = .ok then
      let (res, data, drv) ← D.read sect 1 (fun _ => v.fs.win) v.drv
      if res = .ok then some (.ok, ⟨{ v.fs with win := data 0, winsect := sect }, drv⟩)
      else some (.diskErr, ⟨{ v.fs with win := data 0, winsect := 0 - 1 }, drv⟩)
    else some (res, v)
  else some (.ok, v)

end Functions

/-- A change of the window, which is then marked as dirty. -/
def Vol.setWin {σ : Type} (v : Vol σ) (win : Sector) : Vol σ :=
  { v with fs := { v.fs with win, wflag := 1 } }

/-! ## Where the sectors are -/

namespace Geometry

/-- A sector of the first FAT, by the test of `sync_window`. -/
def InFat (g : Geometry) (q : Lba) : Prop := q - g.fatbase < g.fsize

/-- A sector of the second FAT. -/
def InMirror (g : Geometry) (q : Lba) : Prop :=
  g.nFats = 2 ∧ q - (g.fatbase + g.fsize) < g.fsize

instance (g : Geometry) (q : Lba) : Decidable (g.InFat q) :=
  inferInstanceAs (Decidable (_ < _))

instance (g : Geometry) (q : Lba) : Decidable (g.InMirror q) :=
  inferInstanceAs (Decidable (_ ∧ _))

/-- Everything but the second FAT, which is only ever written as a copy. -/
def Main (g : Geometry) (limit : Nat) (q : Lba) : Prop := q.toNat < limit ∧ ¬ g.InMirror q

/-- The FATs lie below `limit`. -/
def FatsBelow (g : Geometry) (limit : Nat) : Prop :=
  g.fatbase.toNat + g.fsize.toNat ≤ limit ∧
    (g.nFats = 2 → g.fatbase.toNat + 2 * g.fsize.toNat ≤ limit)

variable {g : Geometry} {limit : Nat} {q : Lba}

theorem inFat_iff (hfats : g.FatsBelow limit) (hlimit : limit < 2 ^ 32) : g.InFat q ↔
    g.fatbase.toNat ≤ q.toNat ∧ q.toNat < g.fatbase.toNat + g.fsize.toNat := by
  have hle := hfats.1
  unfold InFat
  bv_omega

theorem inMirror_iff (hfats : g.FatsBelow limit) (hlimit : limit < 2 ^ 32) :
    g.InMirror q ↔ g.nFats = 2 ∧ g.fatbase.toNat + g.fsize.toNat ≤ q.toNat ∧
      q.toNat < g.fatbase.toNat + 2 * g.fsize.toNat := by
  refine and_congr_right fun htwo => ?_
  have hle := hfats.2 htwo
  bv_omega

theorem InFat.main (hq : g.InFat q) (hfats : g.FatsBelow limit) (hlimit : limit < 2 ^ 32) :
    g.Main limit q := by
  rw [inFat_iff hfats hlimit] at hq
  have hle := hfats.1
  refine ⟨by omega, fun hmirror => ?_⟩
  have hge := ((inMirror_iff hfats hlimit).mp hmirror).2.1
  omega

/-- The copy of a sector of the first FAT is a sector of the second. -/
theorem InFat.mirror (hq : g.InFat q) (htwo : g.nFats = 2) (hfats : g.FatsBelow limit)
    (hlimit : limit < 2 ^ 32) :
    g.InMirror (q + g.fsize) ∧ (q + g.fsize).toNat < limit := by
  have hle := hfats.2 htwo
  rw [inFat_iff hfats hlimit] at hq
  have hsum : (q + g.fsize).toNat = q.toNat + g.fsize.toNat := by
    rw [BitVec.toNat_add]
    omega
  rw [inMirror_iff hfats hlimit, hsum]
  exact ⟨⟨htwo, by omega, by omega⟩, by omega⟩

end Geometry

/-! ## The array of sectors behind the window -/

/-- The volume `v` stands for the array `img`: the window overlays its sector, a clean window
is on the disk, and as long as no write fails the second FAT follows the first. -/
structure Shows {σ : Type} {D : Drive σ} (M : Media D) (g : Geometry) (img : Lba → Sector)
    (v : Vol σ) : Prop where
  geometry : v.fs.toGeometry = g
  sound : M.Sound v.drv
  elsewhere : ∀ q, g.Main M.limit q → q ≠ v.fs.winsect → M.sectors v.drv q = img q
  window : g.Main M.limit v.fs.winsect → v.fs.win = img v.fs.winsect
  clean : v.fs.wflag = 0 → g.Main M.limit v.fs.winsect →
    M.sectors v.drv v.fs.winsect = img v.fs.winsect
  dirty : v.fs.wflag ≠ 0 → g.Main M.limit v.fs.winsect
  mirrored : M.Reliable → g.nFats = 2 → ∀ q, g.InFat q →
    (v.fs.wflag = 0 ∨ q ≠ v.fs.winsect) → M.sectors v.drv (q + g.fsize) = img q

section Specs

variable {σ : Type} {D : Drive σ} {M : Media D} {g : Geometry} {img : Lba → Sector}
  {v v' : Vol σ} {drv : σ} {r : Fresult}

/-- Before the flag is cleared, the sector and its copy have to be there. -/
theorem Shows.clear (hv : Shows M g img v)
    (hdisk : g.Main M.limit v.fs.winsect →
      M.sectors v.drv v.fs.winsect = img v.fs.winsect)
    (hcopy : M.Reliable → g.nFats = 2 → g.InFat v.fs.winsect →
      M.sectors v.drv (v.fs.winsect + g.fsize) = img v.fs.winsect) :
    Shows M g img ⟨{ v.fs with wflag := 0 }, v.drv⟩ where
  geometry := hv.geometry
  sound := hv.sound
  elsewhere := hv.elsewhere
  window := hv.window
  clean := fun _ => hdisk
  dirty := fun hflag => absurd rfl hflag
  mirrored := by
    intro hrel htwo q hq _
    by_cases hwin : q = v.fs.winsect
    · exact hwin ▸ hcopy hrel htwo (hwin ▸ hq)
    · exact hv.mirrored hrel htwo q hq (Or.inr hwin)

/-- The first write of `sync_window`, which may fail and leave anything in the sector. -/
theorem Shows.writeBack (hfats : g.FatsBelow M.limit) (hv : Shows M g img v)
    (hflag : v.fs.wflag ≠ 0) :
    Ensures M.Answers (D.write (fun _ => v.fs.win) v.fs.winsect 1 v.drv) fun (res, drv) =>
      Shows M g img ⟨v.fs, drv⟩ ∧ (res = .ok → M.sectors drv v.fs.winsect = img v.fs.winsect) ∧
        (M.Reliable → res = .ok) := by
  have hmain := hv.dirty hflag
  refine (M.write_one hv.sound hmain.1 _).imp ?_
  rintro ⟨res, drv⟩ ⟨hsound, hother, hself, hrel⟩
  refine ⟨⟨hv.geometry, hsound, ?_, hv.window, fun hclean => absurd hclean hflag, hv.dirty, ?_⟩,
    fun hres => (hself hres).trans (hv.window hmain), hrel⟩
  · intro q hq hne
    exact (hother q hq.1 hne).trans (hv.elsewhere q hq hne)
  · intro hrel htwo q hq hside
    obtain ⟨hmirror, hlt⟩ := hq.mirror htwo hfats M.limit_lt
    have hne : q + g.fsize ≠ v.fs.winsect := fun heq => hmain.2 (heq ▸ hmirror)
    exact (hother _ hlt hne).trans (hv.mirrored hrel htwo q hq hside)

/-- The second write, into the copy. -/
theorem Shows.writeCopy (hfats : g.FatsBelow M.limit) (hv : Shows M g img v)
    (hflag : v.fs.wflag ≠ 0) (htwo : g.nFats = 2) (hfat : g.InFat v.fs.winsect) :
    Ensures M.Answers (D.write (fun _ => v.fs.win) (v.fs.winsect + g.fsize) 1 v.drv)
      fun (_, drv) => Shows M g img ⟨v.fs, drv⟩ ∧
        M.sectors drv v.fs.winsect = M.sectors v.drv v.fs.winsect ∧
        (M.Reliable → M.sectors drv (v.fs.winsect + g.fsize) = img v.fs.winsect) := by
  have hmain := hv.dirty hflag
  obtain ⟨hmirror, hlt⟩ := hfat.mirror htwo hfats M.limit_lt
  refine (M.write_one hv.sound hlt _).imp ?_
  rintro ⟨res, drv⟩ ⟨hsound, hother, hself, hrel⟩
  have hapart : ∀ q, g.Main M.limit q → q ≠ v.fs.winsect + g.fsize :=
    fun q hq heq => hq.2 (heq ▸ hmirror)
  refine ⟨⟨hv.geometry, hsound, ?_, hv.window, fun hclean => absurd hclean hflag, hv.dirty, ?_⟩,
    hother _ hmain.1 (hapart _ hmain), fun h => (hself (hrel h)).trans (hv.window hmain)⟩
  · intro q hq hne
    exact (hother q hq.1 (hapart q hq)).trans (hv.elsewhere q hq hne)
  · intro hrel _ q hq hside
    have hne : q ≠ v.fs.winsect := hside.resolve_left hflag
    have hlt' := (hq.mirror htwo hfats M.limit_lt).2
    refine (hother _ hlt' fun heq => hne ?_).trans (hv.mirrored hrel htwo q hq hside)
    exact add_right_cancel heq

/-- `sync_window` leaves the array as it is, and the window clean unless the write fails. -/
theorem syncWindow_spec (hfats : g.FatsBelow M.limit) (hv : Shows M g img v) :
    Ensures M.Answers (syncWindow D v) fun (r, v') =>
      Shows M g img v' ∧ (r = .ok ∧ v'.fs = { v.fs with wflag := 0 } ∨
        r = .diskErr ∧ v'.fs = v.fs ∧ ¬ M.Reliable) := by
  obtain rfl := hv.geometry
  unfold syncWindow
  split_ifs with hflag
  · refine (hv.writeBack hfats hflag).bind ?_
    rintro ⟨res, drv⟩ ⟨hback, hdisk, hrel⟩
    dsimp only
    split_ifs with hres hfat htwo
    · -- the result of the copy is not looked at
      refine (hback.writeCopy hfats hflag htwo hfat).bind ?_
      rintro ⟨res', drv'⟩ ⟨hboth, hsame, hmirror⟩
      exact .some ⟨hboth.clear (fun _ => hsame.trans (hdisk hres)) (fun hrel _ _ => hmirror hrel),
        Or.inl ⟨rfl, rfl⟩⟩
    · exact .some ⟨hback.clear (fun _ => hdisk hres) fun _ heq => absurd heq htwo,
        Or.inl ⟨rfl, rfl⟩⟩
    · exact .some ⟨hback.clear (fun _ => hdisk hres) fun _ _ hin => absurd hin hfat,
        Or.inl ⟨rfl, rfl⟩⟩
    · exact .some ⟨hback, Or.inr ⟨rfl, rfl, fun hM => hres (hrel hM)⟩⟩
  · have hzero : v.fs.wflag = 0 := not_not.mp hflag
    refine .some ⟨hv, Or.inl ⟨rfl, ?_⟩⟩
    rw [← hzero]

/-- With the window clean, the disk is the array. -/
theorem Shows.disk (hv : Shows M g img v) (hclean : v.fs.wflag = 0) {q : Lba}
    (hq : g.Main M.limit q) : M.sectors v.drv q = img q := by
  by_cases hwin : q = v.fs.winsect
  · exact hwin ▸ hv.clean hclean (hwin ▸ hq)
  · exact hv.elsewhere q hq hwin

/-- A clean window may be replaced by a sector that was read, or be given up. -/
theorem Shows.load (hfats : g.FatsBelow M.limit) (hv : Shows M g img v)
    (hclean : v.fs.wflag = 0) {newSect : Lba} {win : Sector} (hsound : M.Sound drv)
    (hsame : ∀ p : Lba, p.toNat < M.limit → M.sectors drv p = M.sectors v.drv p)
    (hnew : win = M.sectors v.drv newSect ∨ newSect = 0 - 1) :
    Shows M g img ⟨{ v.fs with win := win, winsect := newSect }, drv⟩ := by
  refine ⟨hv.geometry, hsound, fun q hq _ => (hsame q hq.1).trans (hv.disk hclean hq), ?_,
    fun _ hmain => (hsame _ hmain.1).trans (hv.disk hclean hmain),
    fun hflag => absurd hclean hflag, ?_⟩
  · intro hmain
    rcases hnew with rfl | rfl
    · exact hv.disk hclean hmain
    · -- the number that marks a window as invalid is no sector
      have hlimit := M.limit_lt
      exact absurd hmain.1 (by simp; omega)
  · intro hrel htwo q hq _
    have hlt := (hq.mirror htwo hfats M.limit_lt).2
    exact (hsame _ hlt).trans (hv.mirrored hrel htwo q hq (Or.inl hclean))

/-- `move_window` leaves the array as it is; when it returns `FR_OK` the sector is in the
window. -/
theorem moveWindow_spec (hfats : g.FatsBelow M.limit) (hv : Shows M g img v) {sect : Lba}
    (hsect : g.Main M.limit sect) : Ensures M.Answers (moveWindow D sect v) fun (r, v') =>
      Shows M g img v' ∧ v'.fs.toHints = v.fs.toHints ∧
        (r = .ok ∧ v'.fs.winsect = sect ∧ v'.fs.win = img sect ∨
          r = .diskErr ∧ ¬ M.Reliable) := by
  unfold moveWindow
  split_ifs with hne
  · refine (syncWindow_spec hfats hv).bind ?_
    rintro ⟨r₁, v₁⟩ ⟨hv₁, ⟨rfl, hfs⟩ | ⟨rfl, hfs, hrel⟩⟩
    · have hclean : v₁.fs.wflag = 0 := by rw [hfs]
      have hhints : v₁.fs.toHints = v.fs.toHints := by rw [hfs]
      refine (M.read_one hv₁.sound hsect.1 _).bind ?_
      rintro ⟨res, data, drv⟩ ⟨hsound, hsame, hdata, hrel⟩
      dsimp only
      split_ifs with hres
      · have hload := hv₁.load hfats hclean hsound hsame (Or.inl (hdata hres))
        exact .some ⟨hload, hhints, Or.inl ⟨rfl, rfl, hload.window hsect⟩⟩
      · exact .some ⟨hv₁.load hfats hclean hsound hsame (Or.inr rfl), hhints,
          Or.inr ⟨rfl, fun hM => hres (hrel hM)⟩⟩
    · exact .some ⟨hv₁, by rw [hfs], Or.inr ⟨rfl, hrel⟩⟩
  · obtain rfl : sect = v.fs.winsect := not_not.mp hne
    exact .some ⟨hv, rfl, Or.inl ⟨rfl, rfl, hv.window hsect⟩⟩

theorem syncWindow_winsect (h : syncWindow D v = some (r, v')) : v'.fs.winsect = v.fs.winsect := by
  unfold syncWindow at h
  split_ifs at h
  · obtain ⟨⟨res, drv⟩, -, h⟩ := Option.bind_eq_some_iff.mp h
    dsimp only at h
    split_ifs at h
    · obtain ⟨⟨res', drv'⟩, -, h⟩ := Option.bind_eq_some_iff.mp h
      cases h
      rfl
    all_goals
      cases h
      rfl
  · cases h
    rfl

/-- Where the window is after `move_window`, whatever its result. -/
theorem moveWindow_winsect {sect : Lba} (h : moveWindow D sect v = some (r, v')) :
    v'.fs.winsect = v.fs.winsect ∨ v'.fs.winsect = sect ∨ v'.fs.winsect = 0 - 1 := by
  unfold moveWindow at h
  split_ifs at h
  · obtain ⟨⟨r₁, v₁⟩, hsync, h⟩ := Option.bind_eq_some_iff.mp h
    dsimp only at h
    split_ifs at h
    · obtain ⟨⟨res, data, drv⟩, -, h⟩ := Option.bind_eq_some_iff.mp h
      dsimp only at h
      split_ifs at h
      · cases h
        exact Or.inr (Or.inl rfl)
      · cases h
        exact Or.inr (Or.inr rfl)
    · cases h
      exact Or.inl (syncWindow_winsect hsync)
  · cases h
    exact Or.inl rfl

/-- Changing the window changes its sector of the array. -/
theorem Shows.setWin (hv : Shows M g img v) (hmain : g.Main M.limit v.fs.winsect)
    (win : Sector) : Shows M g (Function.update img v.fs.winsect win) (v.setWin win) where
  geometry := hv.geometry
  sound := hv.sound
  elsewhere := fun q hq hne => (hv.elsewhere q hq hne).trans (Function.update_of_ne hne ..).symm
  window := fun _ => (Function.update_self v.fs.winsect _ img).symm
  clean := fun hflag => absurd hflag (by decide : (1 : Byte) ≠ 0)
  dirty := fun _ => hmain
  mirrored := by
    intro hrel htwo q hq hside
    have hne : q ≠ v.fs.winsect := hside.resolve_left (by decide : (1 : Byte) ≠ 0)
    exact (hv.mirrored hrel htwo q hq (Or.inr hne)).trans (Function.update_of_ne hne ..).symm

end Specs

/-! ## Runs -/

/-- What the rest of `ff.c` does with the window. -/
inductive WindowOp
  | move (sect : Lba)
  | store (i : Fin 512) (b : Byte)
  | sync

namespace WindowOp

variable {σ : Type}

def run (D : Drive σ) (v : Vol σ) : WindowOp → Option (Fresult × Vol σ)
  | move sect => moveWindow D sect v
  | store i b => some (.ok, v.setWin (Function.update v.fs.win i b))
  | sync => syncWindow D v

/-- Moves go to sectors outside the second FAT, and stores into a window that is on one. -/
def Legal (g : Geometry) (limit : Nat) (v : Vol σ) : WindowOp → Prop
  | move sect => g.Main limit sect
  | store _ _ => g.Main limit v.fs.winsect
  | sync => True

/-- The array after the operation, where the window is on sector `winsect`. -/
def effect (winsect : Lba) (img : Lba → Sector) : WindowOp → Lba → Sector
  | store i b => Function.update img winsect (Function.update (img winsect) i b)
  | move _ => img
  | sync => img

end WindowOp

/-- Operations in any order, each of which may fail; beside the volume, the array that the
stores have made of the one at the start. -/
inductive WindowRun {σ : Type} (D : Drive σ) (g : Geometry) (limit : Nat) (v₀ : Vol σ)
    (img₀ : Lba → Sector) : Vol σ → (Lba → Sector) → Prop
  | start : WindowRun D g limit v₀ img₀ v₀ img₀
  | step {v v' : Vol σ} {img : Lba → Sector} {r : Fresult} (op : WindowOp)
      (hrun : WindowRun D g limit v₀ img₀ v img) (hlegal : op.Legal g limit v)
      (h : op.run D v = some (r, v')) :
      WindowRun D g limit v₀ img₀ v' (op.effect v.fs.winsect img)

section Runs

variable {σ : Type} {D : Drive σ} {M : Media D} {g : Geometry} {v₀ v v' : Vol σ}
  {img₀ img : Lba → Sector} {r : Fresult}

theorem Shows.op (hfats : g.FatsBelow M.limit) (hv : Shows M g img v) {op : WindowOp}
    (hlegal : op.Legal g M.limit v) (h : op.run D v = some (r, v')) :
    Shows M g (op.effect v.fs.winsect img) v' := by
  cases op with
  | move sect => exact ((moveWindow_spec hfats hv hlegal).post _ h).1
  | store i b =>
    cases h
    have hstore := hv.setWin hlegal (Function.update v.fs.win i b)
    rw [WindowOp.effect, ← hv.window hlegal]
    exact hstore
  | sync => exact ((syncWindow_spec hfats hv).post _ h).1

theorem WindowRun.shows (hfats : g.FatsBelow M.limit) (hv₀ : Shows M g img₀ v₀)
    (hrun : WindowRun D g M.limit v₀ img₀ v img) : Shows M g img v := by
  induction hrun with
  | start => exact hv₀
  | step _ _ hlegal h ih => exact ih.op hfats hlegal h

/-- A volume whose window is on no sector, as after a failed read or before the first. -/
theorem Shows.blank (hgeom : v.fs.toGeometry = g) (hsound : M.Sound v.drv)
    (hclean : v.fs.wflag = 0) (hwin : v.fs.winsect = 0 - 1)
    (hcopy : g.nFats = 2 → ∀ q, g.InFat q →
      M.sectors v.drv (q + g.fsize) = M.sectors v.drv q) :
    Shows M g (M.sectors v.drv) v where
  geometry := hgeom
  sound := hsound
  elsewhere := fun _ _ _ => rfl
  window := by
    intro hmain
    have hlimit := M.limit_lt
    exact absurd hmain.1 (by rw [hwin]; simp; omega)
  clean := fun _ _ => rfl
  dirty := fun hflag => absurd hclean hflag
  mirrored := fun _ htwo q hq _ => hcopy htwo q hq

/-- The window is a transparent write-back cache.  Whatever is moved, stored and flushed from
a mounted volume on, and whichever disk calls fail on the way: a move that succeeds puts
into the window the sector as the stores have made it; a flush that succeeds leaves the whole
array on the disk; and if no transfer fails, the second FAT is then a copy of the first. -/
theorem window_transparent (hfats : g.FatsBelow M.limit) (hgeom : v₀.fs.toGeometry = g)
    (hsound : M.Sound v₀.drv) (hclean : v₀.fs.wflag = 0) (hwin : v₀.fs.winsect = 0 - 1)
    (hcopy : g.nFats = 2 → ∀ q, g.InFat q →
      M.sectors v₀.drv (q + g.fsize) = M.sectors v₀.drv q)
    (hrun : WindowRun D g M.limit v₀ (M.sectors v₀.drv) v img) :
    (∀ sect v', g.Main M.limit sect → moveWindow D sect v = some (.ok, v') →
      v'.fs.winsect = sect ∧ v'.fs.win = img sect) ∧
    (∀ v', syncWindow D v = some (.ok, v') →
      ∀ q, g.Main M.limit q → M.sectors v'.drv q = img q) ∧
    (M.Reliable → ∃ v', syncWindow D v = some (.ok, v') ∧
      (g.nFats = 2 → ∀ q, g.InFat q → M.sectors v'.drv (q + g.fsize) = img q)) := by
  have hv := hrun.shows hfats (Shows.blank hgeom hsound hclean hwin hcopy)
  have hflush : ∀ v', syncWindow D v = some (.ok, v') → Shows M g img v' ∧ v'.fs.wflag = 0 := by
    intro v' h
    obtain ⟨hv', ⟨-, hfs⟩ | ⟨hbad, -, -⟩⟩ := (syncWindow_spec hfats hv).post _ h
    · exact ⟨hv', by rw [hfs]⟩
    · cases hbad
  refine ⟨?_, ?_, ?_⟩
  · intro sect v' hsect h
    obtain ⟨-, -, ⟨-, hresult⟩ | ⟨hbad, -⟩⟩ := (moveWindow_spec hfats hv hsect).post _ h
    · exact hresult
    · cases hbad
  · intro v' h q hq
    obtain ⟨hv', hzero⟩ := hflush v' h
    exact hv'.disk hzero hq
  · intro hrel
    obtain ⟨⟨r, v'⟩, h, -, ⟨rfl, -⟩ | ⟨-, -, hbad⟩⟩ :=
      (syncWindow_spec hfats hv).result hrel.answers
    · obtain ⟨hv', hzero⟩ := hflush v' h
      exact ⟨v', h, fun htwo q hq => hv'.mirrored hrel htwo q hq (Or.inl hzero)⟩
    · exact absurd hrel hbad

end Runs

/-! ## A volume on a disk of zeros -/

/-- A drive that is an array of sectors. -/
def ramDrive : Drive (Lba → Sector) where
  read q n buf s := some (.ok, fun i => if i < n.toNat then s (q + BitVec.ofNat 32 i) else buf i, s)
  write data q n s :=
    some (.ok, fun p => if (p - q).toNat < n.toNat then data (p - q).toNat else s p)

/-- All its sectors but the last, whose number stands for no sector. -/
def ramMedia : Media ramDrive where
  limit := 2 ^ 32 - 1
  limit_lt := by decide
  most := 2 ^ 32
  most_pos := by decide
  sectors := id
  Sound := fun _ => True
  read_spec := by
    intro q n buf s r data s' _ _ _ _ h
    obtain ⟨-, hrest⟩ := Prod.mk.inj (Option.some.inj h)
    cases hrest
    exact ⟨trivial, fun _ _ => rfl, fun _ i hi => if_pos hi⟩
  write_spec := by
    intro data q n s r s' _ _ _ _ h
    cases h
    refine ⟨trivial, fun p _ hp => if_neg (Nat.not_lt.mpr hp), fun _ i hi => ?_⟩
    have hoff : (q + BitVec.ofNat 32 i - q).toNat = i := by bv_omega
    simp only [id, hoff, if_pos hi]

theorem ramMedia_reliable : ramMedia.Reliable where
  answers := ⟨fun _ _ _ _ => ⟨_, _, _, rfl⟩, fun _ _ _ _ => ⟨_, _, rfl⟩⟩
  read := fun _ _ _ _ h => (Prod.mk.inj (Option.some.inj h)).1.symm
  write := fun _ _ _ _ h => (Prod.mk.inj (Option.some.inj h)).1.symm

/-- The layout of a 1440 KiB diskette. -/
def diskette : Geometry where
  fsType := .fat12
  id := 1
  nFats := 2
  nRootdir := 224
  csize := 1
  nFatent := 2849
  fsize := 9
  volbase := 0
  fatbase := 1
  dirbase := 19
  database := 33

/-- A diskette of zeros, mounted. -/
def zeroDiskette : Vol (Lba → Sector) where
  fs := { diskette with
    fsiFlag := 0x80, lastClst := -1, freeClst := -1, wflag := 0, winsect := 0 - 1
    win := fun _ => 0 }
  drv := fun _ _ => 0

theorem diskette_fatsBelow : diskette.FatsBelow ramMedia.limit := by
  constructor <;> decide

/-- A byte stored into the first sector of the first FAT is in the second after a flush. -/
theorem diskette_store_mirrored :
    ∃ v img, WindowRun ramDrive diskette ramMedia.limit zeroDiskette (fun _ _ => 0) v img ∧
      img 1 0 = 7 ∧ ∃ v', syncWindow ramDrive v = some (.ok, v') ∧ v'.drv 10 = img 1 := by
  have hsect : diskette.InFat 1 := by decide
  have hmain := hsect.main diskette_fatsBelow ramMedia.limit_lt
  have hblank := Shows.blank (M := ramMedia) (g := diskette) (v := zeroDiskette) rfl trivial rfl
    rfl fun _ _ _ => rfl
  obtain ⟨⟨r, v₁⟩, hmove, -, -, hcases⟩ :=
    (moveWindow_spec diskette_fatsBelow hblank hmain).result ramMedia_reliable.answers
  have hwin : v₁.fs.winsect = 1 := by
    rcases hcases with ⟨-, hwin, -⟩ | ⟨-, hbad⟩
    · exact hwin
    · exact absurd ramMedia_reliable hbad
  have hrun : WindowRun ramDrive diskette ramMedia.limit zeroDiskette (fun _ _ => 0)
      (v₁.setWin (Function.update v₁.fs.win 0 7)) _ :=
    .step (.store 0 7) (.step (.move 1) .start hmain hmove) (by
      show diskette.Main _ v₁.fs.winsect
      rwa [hwin]) rfl
  obtain ⟨v', hsync, hcopy⟩ := (window_transparent diskette_fatsBelow rfl trivial rfl rfl
    (fun _ _ _ => rfl) hrun).2.2 ramMedia_reliable
  refine ⟨_, _, hrun, ?_, v', hsync, hcopy rfl 1 hsect⟩
  simp [WindowOp.effect, hwin]

end ChronOS.Fs
