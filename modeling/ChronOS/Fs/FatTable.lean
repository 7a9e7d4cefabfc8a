/-
  Fs/FatTable.lean --- `get_fat` and `put_fat` of `kernel/src/fs/fat/ff.c`.

  Both work on the window, on a FAT12 volume on two positions of it.  What a volume shows
  has a table of entries in it, `get_fat` reads one of them and `put_fat` sets one, and a
  disk error in either never touches another entry.
-/
import ChronOS.Fs.FatEntries

set_option autoImplicit false

namespace ChronOS.Fs

open ChronOS.Foundation

/-! ## The functions -/

section Functions

variable {σ : Type} (D : Drive σ)

/-- `get_fat`. -/
def getFat (clst : BitVec 32) (v : Vol σ) : Option (BitVec 32 × Vol σ) :=
  if clst < 2 ∨ v.fs.nFatent ≤ clst then some (1, v)
  else match v.fs.fsType with
    | .fat12 => do
        let bc := clst + clst / 2
        let (res, v) ← moveWindow D (v.fs.fatbase + bc / 512) v
        if res ≠ .ok then some (0xFFFFFFFF, v)
        else
          let wc := (byteAt v.fs.win (bc % 512).toNat).setWidth 32
          let bc := bc + 1
          let (res, v) ← moveWindow D (v.fs.fatbase + bc / 512) v
          if res ≠ .ok then some (0xFFFFFFFF, v)
          else
            let wc := wc ||| (byteAt v.fs.win (bc % 512).toNat).setWidth 32 <<< 8
            some (if clst &&& 1 ≠ 0 then wc >>> 4 else wc &&& 0xFFF, v)
    | .fat16 => do
        let (res, v) ← moveWindow D (v.fs.fatbase + clst / 256) v
        if res ≠ .ok then some (0xFFFFFFFF, v)
        else some ((ldWord v.fs.win (clst * 2 % 512).toNat).setWidth 32, v)
    | .fat32 => do
        let (res, v) ← moveWindow D (v.fs.fatbase + clst / 128) v
        if res ≠ .ok then some (0xFFFFFFFF, v)
        else some (ldDword v.fs.win (clst * 4 % 512).toNat &&& 0x0FFFFFFF, v)
    | .none => some (1, v)

/-- `put_fat`. -/
def putFat (clst val : BitVec 32) (v : Vol σ) : Option (Fresult × Vol σ) :=
  if 2 ≤ clst ∧ clst < v.fs.nFatent then
    match v.fs.fsType with
    | .fat12 => do
        let bc := clst + clst / 2
        let (res, v) ← moveWindow D (v.fs.fatbase + bc / 512) v
        if res ≠ .ok then some (res, v)
        else
          let p := (bc % 512).toNat
          let v := v.setWin (setByte v.fs.win p (firstByte clst val (byteAt v.fs.win p)))
          let bc := bc + 1
          let (res, v) ← moveWindow D (v.fs.fatbase + bc / 512) v
          if res ≠ .ok then some (res, v)
          else
            let p := (bc % 512).toNat
            some (res, v.setWin (setByte v.fs.win p (secondByte clst val (byteAt v.fs.win p))))
    | .fat16 => do
        let (res, v) ← moveWindow D (v.fs.fatbase + clst / 256) v
        if res ≠ .ok then some (res, v)
        else
          some (res, v.setWin (stWord v.fs.win (clst * 2 % 512).toNat (val.setWidth 16)))
    | .fat32 => do
        let (res, v) ← moveWindow D (v.fs.fatbase + clst / 128) v
        if res ≠ .ok then some (res, v)
        else
          let p := (clst * 4 % 512).toNat
          let val := val &&& 0x0FFFFFFF ||| ldDword v.fs.win p &&& 0xF0000000
          some (res, v.setWin (stDword v.fs.win p val))
    | .none => some (.intErr, v)
  else some (.intErr, v)

end Functions

/-! ## The table -/

namespace Geometry

/-- The sector of byte `k` of the FAT. -/
def fatSector (g : Geometry) (k : Nat) : Lba := g.fatbase + BitVec.ofNat 32 (k / 512)

/-- The bytes of the FAT. -/
def fatBytes (g : Geometry) (img : Lba → Sector) (k : Nat) : Byte :=
  if k < 512 * g.fsize.toNat then byteAt (img (g.fatSector k)) k else 0

/-- The entry of a cluster. -/
def entry (g : Geometry) (img : Lba → Sector) (c : BitVec 32) : BitVec 32 :=
  (streamField (g.fatBytes img) (g.fsType.width * c.toNat) g.fsType.bits).setWidth 32

/-- The numbers of clusters. -/
def Cluster (g : Geometry) (c : BitVec 32) : Prop := 2 ≤ c ∧ c < g.nFatent

instance (g : Geometry) (c : BitVec 32) : Decidable (g.Cluster c) :=
  inferInstanceAs (Decidable (_ ∧ _))

/-- The FAT has room for its entries, and an entry for the numbers of clusters and the mark
for the end of a chain. -/
structure Table (g : Geometry) (limit : Nat) : Prop where
  fats : g.FatsBelow limit
  known : g.fsType ≠ .none
  room : g.fsType.width * g.nFatent.toNat ≤ 8 * (512 * g.fsize.toNat)
  entries : g.nFatent.toNat < 2 ^ g.fsType.bits

section Bytes

variable {g : Geometry} {limit : Nat} {img : Lba → Sector} {k : Nat}

theorem fatSector_congr {j : Nat} (h : j / 512 = k / 512) : g.fatSector j = g.fatSector k := by
  rw [fatSector, fatSector, h]

theorem toNat_fatSector (hfats : g.FatsBelow limit) (hlimit : limit < 2 ^ 32)
    (hk : k < 512 * g.fsize.toNat) : (g.fatSector k).toNat = g.fatbase.toNat + k / 512 := by
  have hle := hfats.1
  rw [fatSector, BitVec.toNat_add, BitVec.toNat_ofNat]
  omega

theorem fatSector_inFat (hfats : g.FatsBelow limit) (hlimit : limit < 2 ^ 32)
    (hk : k < 512 * g.fsize.toNat) : g.InFat (g.fatSector k) := by
  rw [inFat_iff hfats hlimit, toNat_fatSector hfats hlimit hk]
  omega

theorem fatBytes_setByte (hfats : g.FatsBelow limit) (hlimit : limit < 2 ^ 32)
    (hk : k < 512 * g.fsize.toNat) (b : Byte) :
    g.fatBytes (Function.update img (g.fatSector k) (setByte (img (g.fatSector k)) k b)) =
      Function.update (g.fatBytes img) k b := by
  funext j
  unfold fatBytes
  by_cases hj : j < 512 * g.fsize.toNat
  · rw [if_pos hj]
    by_cases hsect : g.fatSector j = g.fatSector k
    · have hdiv : j / 512 = k / 512 := by
        have hval := congrArg BitVec.toNat hsect
        rw [toNat_fatSector hfats hlimit hj, toNat_fatSector hfats hlimit hk] at hval
        omega
      rw [hsect, Function.update_self, byteAt, setByte]
      by_cases hjk : j = k
      · rw [hjk, Function.update_self, Function.update_self]
      · have hne : Fin.ofNat 512 j ≠ Fin.ofNat 512 k := by
          intro heq
          have hval := congrArg Fin.val heq
          simp only [Fin.val_ofNat] at hval
          omega
        rw [Function.update_of_ne hne, Function.update_of_ne hjk, if_pos hj, byteAt, hsect]
    · have hjk : j ≠ k := fun heq => hsect (heq ▸ rfl)
      rw [Function.update_of_ne hsect, Function.update_of_ne hjk, if_pos hj]
  · have hjk : j ≠ k := by omega
    rw [if_neg hj, Function.update_of_ne hjk, if_neg hj]

end Bytes

end Geometry

section Access

variable {σ : Type} {D : Drive σ} {M : Media D} {g : Geometry} {img : Lba → Sector}
  {v v' : Vol σ} {r : Fresult} {k : Nat}

/-- The allocation information is as it was, and the window is where it was, at a sector of
the FAT, or invalid. -/
def Kept (g : Geometry) (v v' : Vol σ) : Prop :=
  v'.fs.toHints = v.fs.toHints ∧
    (v'.fs.winsect = v.fs.winsect ∨ g.InFat v'.fs.winsect ∨ v'.fs.winsect = 0 - 1)

theorem Kept.trans {v'' : Vol σ} (h' : Kept g v' v'') (h : Kept g v v') : Kept g v v'' := by
  refine ⟨h'.1.trans h.1, ?_⟩
  rcases h'.2 with hsame | hmoved
  · rw [hsame]
    exact h.2
  · exact Or.inr hmoved

theorem moveWindow_fat (hfats : g.FatsBelow M.limit) (hv : Shows M g img v)
    (hk : k < 512 * g.fsize.toNat) :
    Ensures M.Answers (moveWindow D (g.fatSector k) v) fun (r, v') =>
      Shows M g img v' ∧ Kept g v v' ∧
        (r = .ok ∧ v'.fs.winsect = g.fatSector k ∧
            (∀ j, j / 512 = k / 512 → byteAt v'.fs.win j = g.fatBytes img j) ∨
          r = .diskErr ∧ ¬ M.Reliable) := by
  have hfat := Geometry.fatSector_inFat hfats M.limit_lt hk
  have hmove := moveWindow_spec hfats hv (hfat.main hfats M.limit_lt)
  refine ⟨fun ⟨r, v'⟩ h => ?_, hmove.returns⟩
  obtain ⟨hv', hhints, hcases⟩ := hmove.post _ h
  refine ⟨hv', ⟨hhints, (moveWindow_winsect h).imp_right (Or.imp_left fun hsect => ?_)⟩,
    hcases.imp_left fun ⟨hr, hsect, hwin⟩ => ⟨hr, hsect, fun j hj => ?_⟩⟩
  · rwa [hsect]
  · have hlt : j < 512 * g.fsize.toNat := by omega
    rw [hwin, Geometry.fatBytes, if_pos hlt, Geometry.fatSector, Geometry.fatSector, hj]

/-- A store into the FAT through the window. -/
theorem Shows.setFatByte (hfats : g.FatsBelow M.limit) (hv : Shows M g img v)
    (hk : k < 512 * g.fsize.toNat) (hwin : v.fs.winsect = g.fatSector k) (b : Byte) :
    ∃ img', Shows M g img' (v.setWin (setByte v.fs.win k b)) ∧
      (∀ q, ¬ g.InFat q → img' q = img q) ∧
      g.fatBytes img' = Function.update (g.fatBytes img) k b := by
  have hfat := Geometry.fatSector_inFat hfats M.limit_lt hk
  have hmain := hfat.main hfats M.limit_lt
  rw [← hwin] at hmain
  refine ⟨_, hv.setWin hmain _, fun q hq => ?_, ?_⟩
  · have hne : q ≠ v.fs.winsect := fun heq => hq (by rw [heq, hwin]; exact hfat)
    exact Function.update_of_ne hne ..
  · rw [hv.window hmain, hwin]
    exact Geometry.fatBytes_setByte hfats M.limit_lt hk b

/-! ### Reading -/

theorem fatbase_add_div (hv : Shows M g img v) {bc d : BitVec 32} (hk : k / 512 = (bc / d).toNat) :
    v.fs.fatbase + bc / d = g.fatSector k := by
  rw [show v.fs.fatbase = g.fatbase from congrArg Geometry.fatbase hv.geometry,
    Geometry.fatSector, hk, BitVec.ofNat_toNat, BitVec.setWidth_eq]

variable {c val : BitVec 32}

theorem not_outside (hv : Shows M g img v) (hc : g.Cluster c) :
    ¬ (c < 2 ∨ v.fs.nFatent ≤ c) := by
  rw [show v.fs.nFatent = g.nFatent from congrArg Geometry.nFatent hv.geometry]
  obtain ⟨hlow, hhigh⟩ := hc
  bv_omega

/-- What a read of the table gives: the entry, or the code for a disk error. -/
def Reads (M : Media D) (g : Geometry) (img : Lba → Sector) (v : Vol σ) (c val : BitVec 32)
    (v' : Vol σ) : Prop :=
  Shows M g img v' ∧ Kept g v v' ∧
    (val = g.entry img c ∨ val = 0xFFFFFFFF ∧ ¬ M.Reliable)

theorem toNat_bc (htype : g.fsType = .fat12) (ht : g.Table M.limit) (hc : g.Cluster c) :
    (c + c / 2).toNat = c.toNat + c.toNat / 2 ∧ (c + c / 2 + 1).toNat = (c + c / 2).toNat + 1 := by
  have hentries := ht.entries
  have hlt : c.toNat < g.nFatent.toNat := hc.2
  rw [htype, FsType.bits] at hentries
  have hbc : (c + c / 2).toNat = c.toNat + c.toNat / 2 := by
    rw [BitVec.toNat_add, BitVec.toNat_udiv]
    simp; omega
  exact ⟨hbc, by bv_omega⟩

theorem getFat_fat12 (htype : g.fsType = .fat12) (ht : g.Table M.limit) (hv : Shows M g img v)
    (hc : g.Cluster c) :
    Ensures M.Answers (getFat D c v) fun (val, v') => Reads M g img v c val v' := by
  have hroom := ht.room
  have hlt : c.toNat < g.nFatent.toNat := hc.2
  rw [htype, FsType.width] at hroom
  obtain ⟨hbc, hbc'⟩ := toNat_bc htype ht hc
  have hk : (c + c / 2).toNat + 1 < 512 * g.fsize.toNat := by omega
  rw [getFat, if_neg (not_outside hv hc),
    show v.fs.fsType = .fat12 from (congrArg Geometry.fsType hv.geometry).trans htype]
  dsimp only
  rw [fatbase_add_div hv (k := (c + c / 2).toNat) rfl]
  refine (moveWindow_fat ht.fats hv (by omega)).bind ?_
  rintro ⟨r₁, v₁⟩ ⟨hv₁, hkept₁, ⟨rfl, -, hwin₁⟩ | ⟨rfl, hrel⟩⟩
  · dsimp only
    rw [if_neg (not_not.mpr rfl), fatbase_add_div hv₁ (k := (c + c / 2).toNat + 1)
      (by rw [← hbc']; rfl)]
    refine (moveWindow_fat ht.fats hv₁ hk).bind ?_
    rintro ⟨r₂, v₂⟩ ⟨hv₂, hkept₂, ⟨rfl, -, hwin₂⟩ | ⟨rfl, hrel⟩⟩
    · refine .some ⟨hv₂, hkept₂.trans hkept₁, Or.inl ?_⟩
      have hfirst : byteAt v₁.fs.win ((c + c / 2) % 512).toNat =
          g.fatBytes img (c + c / 2).toNat :=
        (byteAt_congr _ (Nat.mod_mod _ 512)).trans (hwin₁ _ rfl)
      have hsecond : byteAt v₂.fs.win ((c + c / 2 + 1) % 512).toNat =
          g.fatBytes img ((c + c / 2).toNat + 1) :=
        (byteAt_congr _ (by rw [← hbc']; exact Nat.mod_mod _ 512)).trans (hwin₂ _ rfl)
      rw [hfirst, hsecond, Geometry.entry, htype]
      exact unpack12 (g.fatBytes img) c hbc
    · exact .some ⟨hv₂, hkept₂.trans hkept₁, Or.inr ⟨rfl, hrel⟩⟩
  · exact .some ⟨hv₁, hkept₁, Or.inr ⟨rfl, hrel⟩⟩

/-- One move of the window, and a value computed from the sector. -/
theorem reads_of_move (hfats : g.FatsBelow M.limit) (hv : Shows M g img v)
    (hk : k < 512 * g.fsize.toNat) (f : Sector → BitVec 32)
    (hf : ∀ b, (∀ j, j / 512 = k / 512 → byteAt b j = g.fatBytes img j) → f b = g.entry img c) :
    Ensures M.Answers (moveWindow D (g.fatSector k) v >>= fun (res, v) =>
        if res ≠ .ok then some (0xFFFFFFFF, v) else some (f v.fs.win, v))
      fun (val, v') => Reads M g img v c val v' := by
  refine (moveWindow_fat hfats hv hk).bind ?_
  rintro ⟨r₁, v₁⟩ ⟨hv₁, hkept, ⟨rfl, -, hwin⟩ | ⟨rfl, hrel⟩⟩
  · exact .some ⟨hv₁, hkept, Or.inl (hf _ hwin)⟩
  · exact .some ⟨hv₁, hkept, Or.inr ⟨rfl, hrel⟩⟩

theorem getFat_fat16 (htype : g.fsType = .fat16) (ht : g.Table M.limit) (hv : Shows M g img v)
    (hc : g.Cluster c) :
    Ensures M.Answers (getFat D c v) fun (val, v') => Reads M g img v c val v' := by
  have hroom := ht.room
  have hlt : c.toNat < g.nFatent.toNat := hc.2
  rw [htype, FsType.width] at hroom
  have hdiv : (c / 256).toNat = c.toNat / 256 := BitVec.toNat_udiv
  rw [getFat, if_neg (not_outside hv hc),
    show v.fs.fsType = .fat16 from (congrArg Geometry.fsType hv.geometry).trans htype]
  dsimp only
  rw [fatbase_add_div hv (k := 2 * c.toNat) (by omega)]
  refine reads_of_move (k := 2 * c.toNat) ht.fats hv (by omega)
    (fun b => (ldWord b (c * 2 % 512).toNat).setWidth 32) fun b hb => ?_
  rw [toNat_mul_two_mod, ldWord_eq (Nat.mod_mod _ _) fun i hi => hb _ (by omega),
    Geometry.entry, htype, FsType.width, show 8 * (2 * c.toNat) = 16 * c.toNat by omega]
  rfl

theorem getFat_fat32 (htype : g.fsType = .fat32) (ht : g.Table M.limit) (hv : Shows M g img v)
    (hc : g.Cluster c) :
    Ensures M.Answers (getFat D c v) fun (val, v') => Reads M g img v c val v' := by
  have hroom := ht.room
  have hlt : c.toNat < g.nFatent.toNat := hc.2
  rw [htype, FsType.width] at hroom
  have hdiv : (c / 128).toNat = c.toNat / 128 := BitVec.toNat_udiv
  rw [getFat, if_neg (not_outside hv hc),
    show v.fs.fsType = .fat32 from (congrArg Geometry.fsType hv.geometry).trans htype]
  dsimp only
  rw [fatbase_add_div hv (k := 4 * c.toNat) (by omega)]
  refine reads_of_move (k := 4 * c.toNat) ht.fats hv (by omega)
    (fun b => ldDword b (c * 4 % 512).toNat &&& 0x0FFFFFFF) fun b hb => ?_
  rw [toNat_mul_four_mod, ldDword_eq (Nat.mod_mod _ _) fun i hi => hb _ (by omega), mask28,
    Geometry.entry, htype, FsType.width, show 8 * (4 * c.toNat) = 32 * c.toNat by omega]
  rfl

theorem getFat_spec (ht : g.Table M.limit) (hv : Shows M g img v) (hc : g.Cluster c) :
    Ensures M.Answers (getFat D c v) fun (val, v') => Reads M g img v c val v' := by
  cases htype : g.fsType with
  | none => exact absurd htype ht.known
  | fat12 => exact getFat_fat12 htype ht hv hc
  | fat16 => exact getFat_fat16 htype ht hv hc
  | fat32 => exact getFat_fat32 htype ht hv hc

/-! ### Writing -/

/-- What a write to the table does: whether it fails or not it changes nothing but bits of the
entry, and when it succeeds they are those of the value. -/
def Writes (M : Media D) (g : Geometry) (img : Lba → Sector) (v : Vol σ) (c val : BitVec 32)
    (r : Fresult) (v' : Vol σ) : Prop :=
  ∃ img', Shows M g img' v' ∧ Kept g v v' ∧ (∀ q, ¬ g.InFat q → img' q = img q) ∧
    SameOutside (g.fsType.width * c.toNat) g.fsType.bits (g.fatBytes img) (g.fatBytes img') ∧
    (r = .ok ∧ streamField (g.fatBytes img') (g.fsType.width * c.toNat) g.fsType.bits =
        val.setWidth g.fsType.bits ∨
      r = .diskErr ∧ ¬ M.Reliable)

theorem writes_of_failure (hv : Shows M g img v') (hkept : Kept g v v')
    (hr : r = .diskErr ∧ ¬ M.Reliable) : Writes M g img v c val r v' :=
  ⟨img, hv, hkept, fun _ _ => rfl, .refl _ _ _, Or.inr hr⟩

theorem inside (hv : Shows M g img v) (hc : g.Cluster c) : 2 ≤ c ∧ c < v.fs.nFatent := by
  rw [show v.fs.nFatent = g.nFatent from congrArg Geometry.nFatent hv.geometry]
  exact hc

theorem putFat_fat16 (htype : g.fsType = .fat16) (ht : g.Table M.limit) (hv : Shows M g img v)
    (hc : g.Cluster c) :
    Ensures M.Answers (putFat D c val v) fun (r, v') => Writes M g img v c val r v' := by
  have hroom := ht.room
  have hlt : c.toNat < g.nFatent.toNat := hc.2
  rw [htype, FsType.width] at hroom
  have hdiv : (c / 256).toNat = c.toNat / 256 := BitVec.toNat_udiv
  rw [putFat, if_pos (inside hv hc),
    show v.fs.fsType = .fat16 from (congrArg Geometry.fsType hv.geometry).trans htype]
  dsimp only
  rw [fatbase_add_div hv (k := 2 * c.toNat) (by omega)]
  refine (moveWindow_fat (k := 2 * c.toNat) ht.fats hv (by omega)).bind ?_
  rintro ⟨r₁, v₁⟩ ⟨hv₁, hkept, ⟨rfl, hsect, -⟩ | ⟨rfl, hrel⟩⟩
  · dsimp only
    rw [if_neg (not_not.mpr rfl), toNat_mul_two_mod, stWord, setByte_congr _ _ (Nat.mod_mod _ _),
      setByte_congr _ _ (Nat.mod_add_mod _ _ _)]
    obtain ⟨img₁, hv₂, hout₁, hbytes₁⟩ := hv₁.setFatByte ht.fats (by omega) hsect
      ((val.setWidth 16).setWidth 8)
    obtain ⟨img₂, hv₃, hout₂, hbytes₂⟩ := hv₂.setFatByte ht.fats (k := 2 * c.toNat + 1)
      (by omega) (hsect.trans (Geometry.fatSector_congr (by omega)))
      ((val.setWidth 16 >>> 8).setWidth 8)
    obtain ⟨hsame, hfield⟩ := store16 (g.fatBytes img) c.toNat (val.setWidth 16)
    rw [← hbytes₁, ← hbytes₂] at hsame hfield
    refine .some
      ⟨img₂, hv₃, hkept, fun q hq => (hout₂ q hq).trans (hout₁ q hq), ?_, Or.inl ⟨rfl, ?_⟩⟩
    · rw [htype]
      exact hsame
    · rw [htype]
      exact hfield
  · exact .some (writes_of_failure hv₁ hkept ⟨rfl, hrel⟩)

theorem putFat_fat32 (htype : g.fsType = .fat32) (ht : g.Table M.limit) (hv : Shows M g img v)
    (hc : g.Cluster c) :
    Ensures M.Answers (putFat D c val v) fun (r, v') => Writes M g img v c val r v' := by
  have hroom := ht.room
  have hlt : c.toNat < g.nFatent.toNat := hc.2
  rw [htype, FsType.width] at hroom
  have hdiv : (c / 128).toNat = c.toNat / 128 := BitVec.toNat_udiv
  rw [putFat, if_pos (inside hv hc),
    show v.fs.fsType = .fat32 from (congrArg Geometry.fsType hv.geometry).trans htype]
  dsimp only
  rw [fatbase_add_div hv (k := 4 * c.toNat) (by omega)]
  refine (moveWindow_fat (k := 4 * c.toNat) ht.fats hv (by omega)).bind ?_
  rintro ⟨r₁, v₁⟩ ⟨hv₁, hkept, ⟨rfl, hsect, hwin⟩ | ⟨rfl, hrel⟩⟩
  · dsimp only
    rw [if_neg (not_not.mpr rfl), toNat_mul_four_mod,
      ldDword_eq (Nat.mod_mod _ _) fun i hi => hwin _ (by omega),
      show 8 * (4 * c.toNat) = 32 * c.toNat by omega, stDword,
      setByte_congr _ _ (Nat.mod_mod _ _), setByte_congr _ _ (Nat.mod_add_mod _ _ 1),
      setByte_congr _ _ (Nat.mod_add_mod _ _ 2), setByte_congr _ _ (Nat.mod_add_mod _ _ 3)]
    have hsector : ∀ i < 4, v₁.fs.winsect = g.fatSector (4 * c.toNat + i) :=
      fun i hi => hsect.trans (Geometry.fatSector_congr (by omega))
    obtain ⟨hsame, hfield⟩ := store32 (g.fatBytes img) c.toNat val
    obtain ⟨img₁, hv₂, hout₁, hbytes₁⟩ := hv₁.setFatByte ht.fats (by omega) hsect _
    rw [← hbytes₁] at hsame hfield
    obtain ⟨img₂, hv₃, hout₂, hbytes₂⟩ :=
      hv₂.setFatByte ht.fats (by omega) (hsector 1 (by decide)) _
    rw [← hbytes₂] at hsame hfield
    obtain ⟨img₃, hv₄, hout₃, hbytes₃⟩ :=
      hv₃.setFatByte ht.fats (by omega) (hsector 2 (by decide)) _
    rw [← hbytes₃] at hsame hfield
    obtain ⟨img₄, hv₅, hout₄, hbytes₄⟩ :=
      hv₄.setFatByte ht.fats (by omega) (hsector 3 (by decide)) _
    rw [← hbytes₄] at hsame hfield
    refine .some ⟨img₄, hv₅, hkept, fun q hq => ?_, ?_, Or.inl ⟨rfl, ?_⟩⟩
    · rw [hout₄ q hq, hout₃ q hq, hout₂ q hq, hout₁ q hq]
    · rw [htype]
      exact hsame
    · rw [htype]
      exact hfield
  · exact .some (writes_of_failure hv₁ hkept ⟨rfl, hrel⟩)

theorem putFat_fat12 (htype : g.fsType = .fat12) (ht : g.Table M.limit) (hv : Shows M g img v)
    (hc : g.Cluster c) :
    Ensures M.Answers (putFat D c val v) fun (r, v') => Writes M g img v c val r v' := by
  have hroom := ht.room
  have hlt : c.toNat < g.nFatent.toNat := hc.2
  rw [htype, FsType.width] at hroom
  obtain ⟨hbc, hbc'⟩ := toNat_bc htype ht hc
  have hk : (c + c / 2).toNat + 1 < 512 * g.fsize.toNat := by omega
  rw [putFat, if_pos (inside hv hc),
    show v.fs.fsType = .fat12 from (congrArg Geometry.fsType hv.geometry).trans htype]
  dsimp only
  rw [fatbase_add_div hv (k := (c + c / 2).toNat) rfl]
  refine (moveWindow_fat ht.fats hv (by omega)).bind ?_
  rintro ⟨r₁, v₁⟩ ⟨hv₁, hkept₁, ⟨rfl, hsect₁, hwin₁⟩ | ⟨rfl, hrel⟩⟩
  · have hmod : ((c + c / 2) % 512).toNat = (c + c / 2).toNat % 512 := BitVec.toNat_umod
    have hmod' : ((c + c / 2 + 1) % 512).toNat = ((c + c / 2).toNat + 1) % 512 := by
      rw [← hbc']
      exact BitVec.toNat_umod
    dsimp only
    rw [if_neg (not_not.mpr rfl), hmod, byteAt_congr _ (Nat.mod_mod _ _), hwin₁ _ rfl,
      setByte_congr _ _ (Nat.mod_mod _ _), hmod']
    obtain ⟨img₁, hv₂, hout₁, hbytes₁⟩ := hv₁.setFatByte ht.fats (by omega) hsect₁
      (firstByte c val (g.fatBytes img (c + c / 2).toNat))
    have hsame₁ := store12_first (g.fatBytes img) c val hbc
    rw [← hbytes₁] at hsame₁
    rw [fatbase_add_div hv₂ (k := (c + c / 2).toNat + 1) (by rw [← hbc']; rfl)]
    refine (moveWindow_fat ht.fats hv₂ hk).bind ?_
    rintro ⟨r₂, v₃⟩ ⟨hv₃, hkept₂, ⟨rfl, hsect₂, hwin₂⟩ | ⟨rfl, hrel⟩⟩
    · dsimp only
      rw [if_neg (not_not.mpr rfl), byteAt_congr _ (Nat.mod_mod _ _), hwin₂ _ rfl,
        setByte_congr _ _ (Nat.mod_mod _ _)]
      obtain ⟨img₂, hv₄, hout₂, hbytes₂⟩ := hv₃.setFatByte ht.fats hk hsect₂
        (secondByte c val (g.fatBytes img₁ ((c + c / 2).toNat + 1)))
      have hsame₂ := store12_second (g.fatBytes img₁) c val hbc
      have hfield := store12_field (g.fatBytes img) c val
        (g.fatBytes img₁ ((c + c / 2).toNat + 1)) hbc
      rw [← hbytes₂] at hsame₂
      rw [← hbytes₁, ← hbytes₂] at hfield
      refine .some ⟨img₂, hv₄, hkept₂.trans hkept₁,
        fun q hq => (hout₂ q hq).trans (hout₁ q hq), ?_, Or.inl ⟨rfl, ?_⟩⟩
      · rw [htype]
        exact hsame₁.trans hsame₂
      · rw [htype]
        exact hfield
    · -- the first byte may be in the window already
      refine .some ⟨img₁, hv₃, hkept₂.trans hkept₁, hout₁, ?_, Or.inr ⟨rfl, hrel⟩⟩
      rw [htype]
      exact hsame₁
  · exact .some (writes_of_failure hv₁ hkept₁ ⟨rfl, hrel⟩)

theorem putFat_spec (ht : g.Table M.limit) (hv : Shows M g img v) (hc : g.Cluster c) :
    Ensures M.Answers (putFat D c val v) fun (r, v') => Writes M g img v c val r v' := by
  cases htype : g.fsType with
  | none => exact absurd htype ht.known
  | fat12 => exact putFat_fat12 htype ht hv hc
  | fat16 => exact putFat_fat16 htype ht hv hc
  | fat32 => exact putFat_fat32 htype ht hv hc

/-- In terms of entries: no other one changes. -/
theorem putFat_entries (ht : g.Table M.limit) (hv : Shows M g img v) (hc : g.Cluster c)
    (val : BitVec 32) : Ensures M.Answers (putFat D c val v) fun (r, v') =>
      ∃ img', Shows M g img' v' ∧ Kept g v v' ∧
        (∀ q, ¬ g.InFat q → img' q = img q) ∧ (∀ d, d ≠ c → g.entry img' d = g.entry img d) ∧
        (r = .ok ∧ g.entry img' c = g.fsType.held val ∨ r = .diskErr ∧ ¬ M.Reliable) := by
  refine (putFat_spec ht hv hc).imp ?_
  rintro ⟨r, v'⟩ ⟨img', hv', hkept, hout, hsame, hcases⟩
  refine ⟨img', hv', hkept, hout, fun d hne => ?_, ?_⟩
  · have hbits := g.fsType.bits_le_width
    have hapart : g.fsType.width * d.toNat + g.fsType.bits ≤ g.fsType.width * c.toNat ∨
        g.fsType.width * c.toNat + g.fsType.bits ≤ g.fsType.width * d.toNat := by
      rcases Nat.lt_or_gt_of_ne (fun heq => hne (BitVec.eq_of_toNat_eq heq)) with hlt | hlt
      · have hmul := Nat.mul_le_mul_left g.fsType.width hlt
        rw [Nat.mul_succ] at hmul
        omega
      · have hmul := Nat.mul_le_mul_left g.fsType.width hlt
        rw [Nat.mul_succ] at hmul
        omega
    rw [Geometry.entry, hsame.streamField hapart, Geometry.entry]
  · refine hcases.imp_left fun ⟨hr, hfield⟩ => ⟨hr, ?_⟩
    rw [Geometry.entry, hfield, FsType.held]

end Access

/-! ## Runs -/

/-- Reads and writes of the table in any order, each of which may fail.  `known` holds the
entries as they were written; a write that fails leaves its entry unknown. -/
inductive TableRun {σ : Type} (D : Drive σ) (g : Geometry) (v₀ : Vol σ)
    (known₀ : BitVec 32 → Option (BitVec 32)) :
    Vol σ → (BitVec 32 → Option (BitVec 32)) → Prop
  | start : TableRun D g v₀ known₀ v₀ known₀
  | get {v v' : Vol σ} {known : BitVec 32 → Option (BitVec 32)} {c val : BitVec 32}
      (hrun : TableRun D g v₀ known₀ v known) (hc : g.Cluster c)
      (h : getFat D c v = some (val, v')) : TableRun D g v₀ known₀ v' known
  | put {v v' : Vol σ} {known : BitVec 32 → Option (BitVec 32)} {c val : BitVec 32}
      {r : Fresult} (hrun : TableRun D g v₀ known₀ v known) (hc : g.Cluster c)
      (h : putFat D c val v = some (r, v')) :
      TableRun D g v₀ known₀ v'
        (Function.update known c (if r = .ok then some (g.fsType.held val) else none))

section Runs

variable {σ : Type} {D : Drive σ} {M : Media D} {g : Geometry} {v₀ v : Vol σ}
  {img₀ : Lba → Sector} {known₀ known : BitVec 32 → Option (BitVec 32)}

theorem TableRun.shows (ht : g.Table M.limit) (hv₀ : Shows M g img₀ v₀)
    (hknown₀ : ∀ c x, known₀ c = some x → g.entry img₀ c = x)
    (hrun : TableRun D g v₀ known₀ v known) :
    ∃ img, Shows M g img v ∧ (∀ q, ¬ g.InFat q → img q = img₀ q) ∧
      ∀ c x, known c = some x → g.entry img c = x := by
  induction hrun with
  | start => exact ⟨img₀, hv₀, fun _ _ => rfl, hknown₀⟩
  | get _ hc h ih =>
    obtain ⟨img, hv, hout, hknown⟩ := ih
    exact ⟨img, ((getFat_spec ht hv hc).post _ h).1, hout, hknown⟩
  | @put v v' known c val r _ hc h ih =>
    obtain ⟨img, hv, hout, hknown⟩ := ih
    obtain ⟨img', hv', -, hout', hother, hcases⟩ := (putFat_entries ht hv hc val).post _ h
    refine ⟨img', hv', fun q hq => (hout' q hq).trans (hout q hq), fun d x hd => ?_⟩
    by_cases hdc : d = c
    · subst hdc
      rw [Function.update_self] at hd
      rcases hcases with ⟨rfl, hself⟩ | ⟨rfl, -⟩
      · exact hself.trans (Option.some.inj hd)
      · cases hd
    · rw [Function.update_of_ne hdc] at hd
      exact (hother d hdc).trans (hknown d x hd)

/-- The FAT is a table.  After any reads and writes of entries, whichever of them failed,
`get_fat` returns for each entry what was last written to it, as far as its 12, 16 or 28 bits
hold it, or what it was at the start, unless the last write to it or the read itself failed;
and no sector outside the FAT has changed. -/
theorem fat_is_table (ht : g.Table M.limit) (hv₀ : Shows M g img₀ v₀)
    (hrun : TableRun D g v₀ (fun c => some (g.entry img₀ c)) v known) :
    (∀ c x val v', g.Cluster c → known c = some x → getFat D c v = some (val, v') →
      val = x ∨ val = 0xFFFFFFFF ∧ ¬ M.Reliable) ∧
    ∀ q v', g.Main M.limit q → ¬ g.InFat q → moveWindow D q v = some (.ok, v') →
      v'.fs.win = img₀ q := by
  obtain ⟨img, hv, hout, hknown⟩ := hrun.shows ht hv₀ fun c x hx => Option.some.inj hx
  constructor
  · intro c x val v' hc hx h
    obtain ⟨-, -, hcases⟩ := (getFat_spec ht hv hc).post _ h
    rwa [hknown c x hx] at hcases
  · intro q v' hq hfat h
    obtain ⟨-, -, ⟨-, -, hwin⟩ | ⟨hbad, -⟩⟩ := (moveWindow_spec ht.fats hv hq).post _ h
    · exact hwin.trans (hout q hfat)
    · cases hbad

end Runs

theorem diskette_table : diskette.Table ramMedia.limit :=
  ⟨diskette_fatsBelow, by decide, by decide, by decide⟩

theorem zeroDiskette_shows : Shows ramMedia diskette (fun _ _ => 0) zeroDiskette :=
  Shows.blank (M := ramMedia) (v := zeroDiskette) rfl trivial rfl rfl fun _ _ _ => rfl

/-- On a drive without failures every write of an entry succeeds. -/
theorem diskette_put {img : Lba → Sector} {v : Vol (Lba → Sector)}
    (hv : Shows ramMedia diskette img v) {c : BitVec 32} (hc : diskette.Cluster c)
    (val : BitVec 32) :
    ∃ v' img', putFat ramDrive c val v = some (.ok, v') ∧ Shows ramMedia diskette img' v' := by
  obtain ⟨⟨r, v'⟩, h, img', hv', -, -, -, ⟨rfl, -⟩ | ⟨-, hbad⟩⟩ :=
    (putFat_entries diskette_table hv hc val).result ramMedia_reliable.answers
  · exact ⟨v', img', h, hv'⟩
  · exact absurd ramMedia_reliable hbad

/-- Entry 341 lies across the first two sectors and shares a byte with entry 340; writing that
one after it leaves it as it was. -/
theorem entry_across_sectors :
    ∃ v known v', TableRun ramDrive diskette zeroDiskette
        (fun c => some (diskette.entry (fun _ _ => 0) c)) v known ∧
      known 340 = some 0xFFF ∧ getFat ramDrive 341 v = some (0xABC, v') := by
  have hc₁ : diskette.Cluster 341 := by decide
  have hc₀ : diskette.Cluster 340 := by decide
  obtain ⟨v₁, img₁, hput₁, hv₁⟩ := diskette_put zeroDiskette_shows hc₁ 0xABC
  obtain ⟨v₂, img₂, hput₂, hv₂⟩ := diskette_put hv₁ hc₀ 0xFFFFFFFF
  have hrun : TableRun ramDrive diskette zeroDiskette
      (fun c => some (diskette.entry (fun _ _ => 0) c)) v₂ _ :=
    .put (.put .start hc₁ hput₁) hc₀ hput₂
  obtain ⟨⟨val, v'⟩, hget⟩ :=
    (getFat_spec diskette_table hv₂ hc₁).returns ramMedia_reliable.answers
  obtain rfl | ⟨-, hbad⟩ := (fat_is_table diskette_table zeroDiskette_shows hrun).1 341 0xABC val v'
    hc₁ (by rfl) hget
  · exact ⟨v₂, _, v', hrun, by rfl, hget⟩
  · exact absurd ramMedia_reliable hbad

end ChronOS.Fs
