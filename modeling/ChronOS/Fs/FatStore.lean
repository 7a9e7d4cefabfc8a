/-
  Fs/FatStore.lean --- several open files of `kernel/src/fs/fat/ff.c`, and what they are for.

  A document is a sequence of bytes with a place in it.  Whatever the order in which `f_read`
  and `f_write` are called on the files of a volume, each file is a document: a read gives the
  bytes from the place on, a write puts bytes there and makes the document longer, and no call
  on one file is seen in another.  That the sectors are reached through chains in a table, that
  one of them may be in the buffer only, and that some are transferred directly, is not seen.
-/
import ChronOS.Foundation.Simulation
import ChronOS.Fs.FatWrite

set_option autoImplicit false

namespace ChronOS.Fs

open ChronOS.Foundation

/-! ## Calls -/

/-- A call on an open file, with the caller's memory. -/
inductive FileCall
  | read (buff : Nat → Byte) (btr : BitVec 32)
  | write (buff : Nat → Byte) (btw : BitVec 32)

namespace FileCall

/-- The caller's memory. -/
def buff : FileCall → Nat → Byte
  | read buff _ => buff
  | write buff _ => buff

/-- The access mode that the call needs. -/
def access : FileCall → Byte
  | read _ _ => FA_READ
  | write _ _ => FA_WRITE

/-- The call. -/
def run {σ : Type} (D : Drive σ) (call : FileCall) (fp : Fil) (v : Vol σ) :
    Option (Fresult × FileIo σ) :=
  match call with
  | read buff btr => fRead D fp buff btr v
  | write buff btw => fWrite D fp buff btw v

end FileCall

/-- The open files of a volume. -/
structure OpenFiles (σ ι : Type) where
  fps : ι → Fil
  vol : Vol σ

/-- A call on one of them that has returned: the result, the number of bytes and the memory. -/
structure Returned (ι : Type) where
  file : ι
  call : FileCall
  result : Fresult
  count : Nat
  buff : Nat → Byte

/-- The call is made and returns. -/
def CallStep {σ ι : Type} [DecidableEq ι] (D : Drive σ) (s : OpenFiles σ ι) (c : Returned ι)
    (s' : OpenFiles σ ι) : Prop :=
  ∃ t, c.call.run D (s.fps c.file) s.vol = some (c.result, t) ∧ c.count = t.count.toNat ∧
    c.buff = t.buff ∧ s' = ⟨Function.update s.fps c.file t.fp, t.vol⟩

/-! ## Documents -/

/-- The bytes of a file, and the place of a reader or writer in it. -/
structure Doc where
  mode : Byte
  ptr : Nat
  size : Nat
  bytes : Nat → Byte

/-- The number of bytes that can be read. -/
def Doc.toRead (d : Doc) (btr : BitVec 32) : Nat := min btr.toNat (d.size - d.ptr)

/-- The number of bytes that can be written: a document has less than 4 GiB. -/
def Doc.toWrite (d : Doc) (btw : BitVec 32) : Nat := min btw.toNat (0xFFFFFFFF - d.ptr)

/-- `k` bytes are written. -/
def Doc.write (d : Doc) (buff : Nat → Byte) (k : Nat) : Doc where
  mode := d.mode
  ptr := d.ptr + k
  size := max d.size (d.ptr + k)
  bytes := blit d.bytes d.ptr buff k

/-- The answer to a call on a document, when `free` clusters are free after it.  A document is
lost when a disk call fails, and a file object with an error does no more. -/
inductive Answer (reliable : Prop) (free : Nat) :
    Option Doc → FileCall → Fresult → Nat → (Nat → Byte) → Option Doc → Prop
  | read {d : Doc} {buff buff' : Nat → Byte} {btr : BitVec 32} (hmode : d.mode &&& FA_READ ≠ 0)
      (hbytes : ∀ j < d.toRead btr, buff' j = d.bytes (d.ptr + j))
      (hrest : ∀ j, d.toRead btr ≤ j → buff' j = buff j) :
      Answer reliable free (some d) (.read buff btr) .ok (d.toRead btr) buff'
        (some { d with ptr := d.ptr + d.toRead btr })
  /-- all is written, or no cluster is left -/
  | write {d : Doc} {buff : Nat → Byte} {btw : BitVec 32} {k : Nat}
      (hmode : d.mode &&& FA_WRITE ≠ 0)
      (hk : k = d.toWrite btw ∨ k < d.toWrite btw ∧ (reliable → free = 0)) :
      Answer reliable free (some d) (.write buff btw) .ok k buff (some (d.write buff k))
  | denied {d : Doc} {call : FileCall} (hmode : d.mode &&& call.access = 0) :
      Answer reliable free (some d) call .denied 0 call.buff (some d)
  /-- what was counted before the error is right -/
  | failed {d : Doc} {call : FileCall} {r : Fresult} {k : Nat} {buff' : Nat → Byte}
      (hrel : ¬ reliable) (hr : r ≠ .ok)
      (hbytes : ∀ buff btr, call = .read buff btr → ∀ j < k, buff' j = d.bytes (d.ptr + j)) :
      Answer reliable free (some d) call r k buff' none
  | stuck {call : FileCall} {r : Fresult} (hr : r ≠ .ok) :
      Answer reliable free none call r 0 call.buff none

/-- The documents of a volume, and the number of free clusters. -/
structure Docs (ι : Type) where
  docs : ι → Option Doc
  free : Nat

/-- A call on one document changes no other. -/
def DocStep {ι : Type} [DecidableEq ι] (reliable : Prop) (x : Docs ι) (c : Returned ι)
    (x' : Docs ι) : Prop :=
  ∃ o, x'.docs = Function.update x.docs c.file o ∧
    Answer reliable x'.free (x.docs c.file) c.call c.result c.count c.buff o

/-! ## The files are documents -/

section Store

variable {σ ι : Type} {D : Drive σ} {M : Media D} {g : Geometry}
  {S : BitVec 32 → Prop} {files₀ : Files ι} {T₀ : BitVec 32 → BitVec 32} {i : ι}
  {a a' : Stored ι} {v v' : Vol σ} {s s' : OpenFiles σ ι} {x : Docs ι} {d : Doc} {fp : Fil}

/-- The file object shows the document. -/
structure ShowsDoc (M : Media D) (g : Geometry) (S : BitVec 32 → Prop) (a : Stored ι) (i : ι)
    (l : List (BitVec 32)) (cont : Nat → Sector) (fp : Fil) (d : Doc) : Prop where
  mine : a.files i = some l
  isOpen : OpenFile M g S a.table a.base l cont fp
  mode : d.mode = fp.flag &&& 0x03
  ptr : d.ptr = fp.fptr.toNat
  size : d.size = fp.objsize.toNat
  bytes : ∀ j < d.size, flatten cont j = d.bytes j

/-- The volume and the open files are the documents.  The clusters are accounted for as long as
no disk call has failed. -/
structure Represents (M : Media D) (g : Geometry) (S : BitVec 32 → Prop) (files₀ : Files ι)
    (T₀ : BitVec 32 → BitVec 32) (a : Stored ι) (s : OpenFiles σ ι) (x : Docs ι) : Prop where
  vol : OnVolume M g S a.base a.table a.files s.vol
  accounts : M.Reliable → Accounted g files₀ T₀ (s.vol.allocation a.files a.table)
  free : x.free = (g.free a.table).card
  doc : ∀ i d, x.docs i = some d → ∃ l cont, ShowsDoc M g S a i l cont (s.fps i) d
  stuck : ∀ i, x.docs i = none → (s.fps i).err ≠ .ok

theorem Full.free_eq_zero {T : BitVec 32 → BitVec 32} (h : Full g T) : (g.free T).card = 0 := by
  refine Finset.card_eq_zero.mpr (Finset.eq_empty_of_forall_notMem fun d hd => ?_)
  obtain ⟨hc, hzero⟩ := Geometry.mem_free.mp hd
  exact h d hc hzero

variable [DecidableEq ι]

/-- A change for one file is not seen in another. -/
theorem ShowsDoc.frame {j : ι} {l : List (BitVec 32)} {cont : Nat → Sector}
    (h : ShowsDoc M g S a j l cont fp d) (hchange : ForFile M g S i a v a' v') (hj : j ≠ i) :
    ShowsDoc M g S a' j l cont fp d := by
  have hmine := (hchange.run.2 j hj).trans h.mine
  have hsame := hchange.others j l hj h.mine
  refine ⟨hmine, ?_, h.mode, h.ptr, h.size, h.bytes⟩
  refine ⟨hchange.vol.accessible hmine, h.isOpen.placed, ?_, h.isOpen.objFs, h.isOpen.id,
    h.isOpen.err⟩
  refine ⟨fun k hk hd => ?_, h.isOpen.cached.buf, h.isOpen.cached.place⟩
  rw [hsame k hk]
  exact h.isOpen.cached.disk k hk hd

theorem ForFile.accounted (hchange : ForFile M g S i a v a' v')
    (hvol : OnVolume M g S a.base a.table a.files v) (hrel : M.Reliable)
    (h : Accounted g files₀ T₀ (v.allocation a.files a.table)) :
    Accounted g files₀ T₀ (v'.allocation a'.files a'.table) :=
  accounted_run hvol.layout.clusters hrel hchange.run.1 hvol.owned h

/-- After a change for one file, only its document can be another. -/
theorem Represents.update (h : Represents M g S files₀ T₀ a s x)
    (hchange : ForFile M g S i a s.vol a' v') {o : Option Doc} {free : Nat}
    (hfree : free = (g.free a'.table).card)
    (hdoc : ∀ d, o = some d → ∃ l cont, ShowsDoc M g S a' i l cont fp d)
    (hstuck : o = none → fp.err ≠ .ok) :
    Represents M g S files₀ T₀ a' ⟨Function.update s.fps i fp, v'⟩
      ⟨Function.update x.docs i o, free⟩ where
  vol := hchange.vol
  accounts := fun hrel => hchange.accounted h.vol hrel (h.accounts hrel)
  free := hfree
  doc := by
    intro j d hj
    dsimp only at hj ⊢
    by_cases hji : j = i
    · subst hji
      rw [Function.update_self] at hj ⊢
      exact hdoc d hj
    · rw [Function.update_of_ne hji] at hj ⊢
      obtain ⟨l, cont, hshows⟩ := h.doc j d hj
      exact ⟨l, cont, hshows.frame hchange hji⟩
  stuck := by
    intro j hj
    dsimp only at hj ⊢
    by_cases hji : j = i
    · subst hji
      rw [Function.update_self] at hj ⊢
      exact hstuck hj
    · rw [Function.update_of_ne hji] at hj ⊢
      exact h.stuck j hj

/-! ### One call -/

/-- A call that has returned, with what it has changed and its answer. -/
structure Answered (M : Media D) (g : Geometry) (S : BitVec 32 → Prop) (i : ι) (a : Stored ι)
    (v : Vol σ) (o : Option Doc) (call : FileCall) (r : Fresult) (t : FileIo σ) (a' : Stored ι)
    (o' : Option Doc) : Prop where
  change : ForFile M g S i a v a' t.vol
  answer : ∀ free, free = (g.free a'.table).card →
    Answer M.Reliable free o call r t.count.toNat t.buff o'
  doc : ∀ d, o' = some d → ∃ l cont, ShowsDoc M g S a' i l cont t.fp d
  stuck : o' = none → t.fp.err ≠ .ok

omit [DecidableEq ι] in
/-- A file object with an error is left as it is. -/
theorem FileCall.run_stuck (D : Drive σ) (call : FileCall) (v : Vol σ) (herr : fp.err ≠ .ok) :
    ∃ r, r ≠ .ok ∧ call.run D fp v = some (r, ⟨0, call.buff, fp, v⟩) := by
  by_cases hvalid : validate fp v = .ok
  · refine ⟨fp.err, herr, ?_⟩
    cases call with
    | read buff btr =>
      rw [run, fRead]
      dsimp only
      rw [if_neg (not_not.mpr hvalid), if_pos herr]
      rfl
    | write buff btw =>
      rw [run, fWrite]
      dsimp only
      rw [if_neg (not_not.mpr hvalid), if_pos herr]
      rfl
  · refine ⟨validate fp v, hvalid, ?_⟩
    cases call with
    | read buff btr => exact if_pos hvalid
    | write buff btw => exact if_pos hvalid

omit [DecidableEq ι] in
/-- So is one that was not opened for this. -/
theorem FileCall.run_denied (D : Drive σ) (call : FileCall) (hvalid : validate fp v = .ok)
    (herr : fp.err = .ok) (hmode : fp.flag &&& call.access = 0) :
    call.run D fp v = some (.denied, ⟨0, call.buff, fp, v⟩) := by
  cases call with
  | read buff btr =>
    rw [run, fRead]
    dsimp only
    rw [if_neg (not_not.mpr hvalid), if_neg (not_not.mpr herr),
      if_pos (show fp.flag &&& FA_READ = 0 from hmode)]
    rfl
  | write buff btw =>
    rw [run, fWrite]
    dsimp only
    rw [if_neg (not_not.mpr hvalid), if_neg (not_not.mpr herr),
      if_pos (show fp.flag &&& FA_WRITE = 0 from hmode)]
    rfl

/-- The access mode is the low part of the flag. -/
theorem FileCall.mode_and (call : FileCall) (flag : Byte) :
    flag &&& 0x03 &&& call.access = flag &&& call.access := by
  rw [BitVec.and_assoc]
  cases call with
  | read => exact congrArg (flag &&& ·) (show 0x03 &&& FA_READ = FA_READ by decide)
  | write => exact congrArg (flag &&& ·) (show 0x03 &&& FA_WRITE = FA_WRITE by decide)

section Calls

variable {l l' : List (BitVec 32)} {cont cont' : Nat → Sector} {buff : Nat → Byte}

/-- A read. -/
theorem ShowsDoc.read (hM : M.Answers) (h : ShowsDoc M g S a i l cont fp d)
    (hvol : OnVolume M g S a.base a.table a.files v) (hmode : d.mode &&& FA_READ ≠ 0)
    (buff : Nat → Byte) (btr : BitVec 32) :
    ∃ r t a' o, fRead D fp buff btr v = some (r, t) ∧
      Answered M g S i a v (some d) (.read buff btr) r t a' o := by
  have hmode' : fp.flag &&& FA_READ ≠ 0 := by
    rw [h.mode] at hmode
    exact fun hzero => hmode (((FileCall.read buff btr).mode_and fp.flag).trans hzero)
  have htoRead : fp.toRead btr = d.toRead btr := by rw [Fil.toRead, Doc.toRead, h.ptr, h.size]
  have hptr : fp.fptr.toNat ≤ fp.objsize.toNat := h.isOpen.placed.ptr
  obtain ⟨r, t, base', k, hrun, hdone⟩ := fRead_spec hM h.isOpen hvol.table hmode' buff btr
  have hcount : t.count.toNat = k := hdone.count.trans (Nat.zero_add k)
  have hchange : ForFile M g S i a v ⟨base', a.table, a.files⟩ t.vol :=
    .sectors hvol h.mine hdone.table hdone.hints hdone.only
  have hbytes : ∀ j < k, t.buff j = d.bytes (d.ptr + j) := by
    intro j hj
    have hle := hdone.le
    have hin : j < d.toRead btr := htoRead ▸ Nat.lt_of_lt_of_le hj hle
    have hbyte : t.buff (0 + j) = flatten cont (fp.fptr.toNat + j) := hdone.bytes j hj
    rw [Nat.zero_add, ← h.ptr] at hbyte
    rw [hbyte, h.bytes]
    rw [Doc.toRead] at hin
    omega
  rcases hdone.outcome with ⟨rfl, hk, herr, hend, hplaced, hcached⟩ | ⟨rfl, herr, hrel⟩
  · subst hk
    refine ⟨_, t, _, some { d with ptr := d.ptr + d.toRead btr }, hrun, hchange, fun free _ => ?_,
      ?_, fun hnone => absurd hnone (Option.some_ne_none _)⟩
    · rw [hcount, htoRead]
      rw [htoRead] at hbytes
      refine .read hmode hbytes fun j hj => hdone.outside j ?_
      show ¬ (0 ≤ j ∧ j < 0 + fp.toRead btr)
      omega
    · rintro d' hd'
      obtain rfl := Option.some.inj hd'
      refine ⟨l, cont, h.mine, h.isOpen.of_readDone hdone, ?_, ?_, ?_, h.bytes⟩
      · have hflag := congrArg (· &&& (0x03 : Byte)) hdone.same.flag
        dsimp only at hflag
        rw [BitVec.and_assoc, BitVec.and_assoc] at hflag
        exact h.mode.trans hflag.symm
      · show d.ptr + d.toRead btr = t.fp.fptr.toNat
        rw [hend, ← htoRead, h.ptr]
      · exact h.size.trans (congrArg BitVec.toNat hdone.same.objsize).symm
  · refine ⟨_, t, _, none, hrun, hchange, fun free _ => ?_,
      fun d' hd' => absurd hd'.symm (Option.some_ne_none d'), fun _ => ?_⟩
    · rw [hcount]
      exact .failed hrel (by decide) fun _ _ _ => hbytes
    · rw [herr]
      decide

theorem Fil.modified_and (flag mask : Byte) (hmask : FA_MODIFIED &&& mask = 0#8) :
    (flag ||| FA_MODIFIED) &&& mask = flag &&& mask := by
  rw [BitVec.and_or_distrib_right, hmask, BitVec.or_zero]

/-- What is written is in the document, at its place. -/
theorem Written.shows {k : Nat} {t : FileIo σ} (h : ShowsDoc M g S a i l cont fp d)
    (hw : Written M g S i a cont ⟨0, buff, fp, v⟩ k a' l' cont' t) :
    ShowsDoc M g S a' i l' cont' { t.fp with flag := t.fp.flag ||| FA_MODIFIED }
      (d.write buff k) := by
  have hdirty : Fil.Dirty { t.fp with flag := t.fp.flag ||| FA_MODIFIED } ↔ t.fp.Dirty := by
    unfold Fil.Dirty
    rw [Fil.modified_and t.fp.flag FA_DIRTY (by decide)]
  have hcached : Cached g l' cont' a'.base { t.fp with flag := t.fp.flag ||| FA_MODIFIED } :=
    ⟨fun s hs hd => hw.cached.disk s hs fun hd' => hd (hdirty.mpr hd'), hw.cached.buf,
      hw.cached.place.imp_left fun ⟨hzero, hclean⟩ => ⟨hzero, fun hd => hclean (hdirty.mp hd)⟩⟩
  have hplaced : Placed g l' { t.fp with flag := t.fp.flag ||| FA_MODIFIED } :=
    ⟨hw.placed.first, hw.placed.size, hw.placed.ptr, hw.placed.clust, hw.placed.here⟩
  have hsize : t.fp.objsize.toNat = max fp.objsize.toNat (fp.fptr.toNat + k) := hw.moved.size
  refine ⟨hw.mine, ⟨hw.change.vol.accessible hw.mine, hplaced, hcached,
    hw.moved.mode.objFs.trans h.isOpen.objFs, hw.moved.mode.id.trans h.isOpen.id,
    hw.moved.err.trans h.isOpen.err⟩, ?_, ?_, ?_, fun j hj => ?_⟩
  · show d.mode = (t.fp.flag ||| FA_MODIFIED) &&& 0x03
    rw [Fil.modified_and t.fp.flag 0x03 (by decide), hw.moved.mode.mode, h.mode]
  · show d.ptr + k = t.fp.fptr.toNat
    rw [hw.moved.ptr, h.ptr]
  · show max d.size (d.ptr + k) = t.fp.objsize.toNat
    rw [hsize, h.size, h.ptr]
  · show flatten cont' j = blit d.bytes d.ptr buff k j
    have hj' : j < max d.size (d.ptr + k) := hj
    have hptr : d.ptr ≤ d.size := by
      rw [h.ptr, h.size]
      exact h.isOpen.placed.ptr
    by_cases hin : d.ptr ≤ j ∧ j < d.ptr + k
    · have hnew : flatten cont' (fp.fptr.toNat + (j - d.ptr)) = buff (0 + (j - d.ptr)) :=
        hw.wrote.new (j - d.ptr) (by omega)
      rw [← h.ptr, Nat.add_sub_cancel' hin.1, Nat.zero_add] at hnew
      rw [hnew, blit, if_pos hin]
    · have hold : j < d.size := by omega
      rw [blit_of_not hin, ← h.bytes j hold]
      exact hw.wrote.old j (h.size ▸ hold) (h.ptr ▸ hin)

/-- A write.  On a reliable drive it does not fail, and a short one leaves no cluster free. -/
theorem ShowsDoc.written (hM : M.Answers) (h : ShowsDoc M g S a i l cont fp d)
    (hvol : OnVolume M g S a.base a.table a.files v)
    (haccounts : M.Reliable → Accounted g files₀ T₀ (v.allocation a.files a.table))
    (hmode : d.mode &&& FA_WRITE ≠ 0) (buff : Nat → Byte) (btw : BitVec 32) :
    ∃ r t a' o, fWrite D fp buff btw v = some (r, t) ∧
      Answered M g S i a v (some d) (.write buff btw) r t a' o := by
  have hmode' : fp.flag &&& FA_WRITE ≠ 0 := by
    rw [h.mode] at hmode
    exact fun hzero => hmode (((FileCall.write buff btw).mode_and fp.flag).trans hzero)
  have htoWrite : fp.toWrite btw = d.toWrite btw := by rw [Fil.toWrite, Doc.toWrite, h.ptr]
  obtain ⟨r, t, hend, hrun⟩ := fWrite_spec hM hvol h.mine h.isOpen hmode' buff btw
  rw [htoWrite] at hend
  have hcount : ∀ {k a₁ l₁ cont₁} {t₁ : FileIo σ},
      Written M g S i a cont ⟨0, buff, fp, v⟩ k a₁ l₁ cont₁ t₁ → t₁.count.toNat = k :=
    fun hw => hw.moved.count.trans (Nat.zero_add _)
  have hanswered : ∀ {k a₁ l₁ cont₁} {t₁ : FileIo σ},
      Written M g S i a cont ⟨0, buff, fp, v⟩ k a₁ l₁ cont₁ t₁ →
      (k = d.toWrite btw ∨ k < d.toWrite btw ∧ (M.Reliable → (g.free a₁.table).card = 0)) →
      Answered M g S i a v (some d) (.write buff btw) .ok
        { t₁ with fp := { t₁.fp with flag := t₁.fp.flag ||| FA_MODIFIED } } a₁
        (some (d.write buff k)) := by
    intro k a₁ l₁ cont₁ t₁ hw hk
    refine ⟨hw.change, fun free hfree => ?_, fun d' hd' => ?_,
      fun hnone => absurd hnone (Option.some_ne_none _)⟩
    · show Answer _ _ _ _ _ t₁.count.toNat t₁.buff _
      rw [hcount hw, show t₁.buff = buff from hw.moved.buff]
      exact .write hmode (hk.imp_right fun hshort => ⟨hshort.1, fun hrel => hfree ▸ hshort.2 hrel⟩)
    · obtain rfl := Option.some.inj hd'
      exact ⟨l₁, cont₁, hw.shows h⟩
  cases hend with
  | done hw =>
    rw [if_pos rfl] at hrun
    exact ⟨_, _, _, _, hrun, hanswered hw (Or.inl rfl)⟩
  | full hw hlt hfull =>
    rw [if_pos rfl] at hrun
    refine ⟨_, _, _, _, hrun, hanswered hw (Or.inr ⟨hlt, fun hrel => ?_⟩)⟩
    have ha := hw.change.accounted hvol hrel (haccounts hrel)
    exact (ha.full (hfull.imp_right Or.inl)).free_eq_zero
  | failed hw hlt hb =>
    obtain ⟨hchange, he, herr, -, -, hwhy⟩ := hb
    rw [if_neg he] at hrun
    have hrel : ¬ M.Reliable := by
      intro hrel
      rcases hwhy with hbad | ⟨c, hc, hone⟩
      · exact hbad hrel
      · exact (hw.change.accounted hvol hrel (haccounts hrel)).valid c hc hone
    refine ⟨_, _, _, none, hrun, hw.change.trans hchange, fun free _ => .failed hrel he ?_,
      fun d' hd' => absurd hd'.symm (Option.some_ne_none d'), fun _ => herr ▸ he⟩
    intro _ _ heq
    cases heq

/-- Every call on an open file returns, and its answer is the one of the document. -/
theorem Represents.call (hM : M.Answers) (h : Represents M g S files₀ T₀ a s x) (i : ι)
    (call : FileCall) :
    ∃ r t a' o, call.run D (s.fps i) s.vol = some (r, t) ∧
      Answered M g S i a s.vol (x.docs i) call r t a' o := by
  cases hdoc : x.docs i with
  | none =>
    obtain ⟨r, hr, hrun⟩ := FileCall.run_stuck D call s.vol (h.stuck i hdoc)
    exact ⟨r, _, a, none, hrun, .refl h.vol, fun free _ => .stuck hr,
      fun d hd => absurd hd.symm (Option.some_ne_none d), fun _ => h.stuck i hdoc⟩
  | some d =>
    obtain ⟨l, cont, hshows⟩ := h.doc i d hdoc
    by_cases hmode : d.mode &&& call.access = 0
    · have hmode' : (s.fps i).flag &&& call.access = 0 := by
        rwa [hshows.mode, call.mode_and] at hmode
      have hrun := FileCall.run_denied D call (hshows.isOpen.validate h.vol.table)
        hshows.isOpen.err hmode'
      refine ⟨_, _, a, some d, hrun, .refl h.vol, fun free _ => .denied hmode, fun d' hd' => ?_,
        fun hnone => absurd hnone (Option.some_ne_none d)⟩
      obtain rfl := Option.some.inj hd'
      exact ⟨l, cont, hshows⟩
    · cases call with
      | read buff btr => exact hshows.read hM h.vol hmode buff btr
      | write buff btw => exact hshows.written hM h.vol h.accounts hmode buff btw

end Calls

/-! ### Runs -/

/-- A call that was made is a step of the documents. -/
theorem Represents.callStep (hM : M.Answers) (h : Represents M g S files₀ T₀ a s x)
    {c : Returned ι} (hstep : CallStep D s c s') :
    ∃ x', DocStep M.Reliable x c x' ∧ ∃ a', Represents M g S files₀ T₀ a' s' x' := by
  obtain ⟨t, hrun, hcount, hbuff, rfl⟩ := hstep
  obtain ⟨r, t', a', o, hrun', hdone⟩ := h.call hM c.file c.call
  obtain ⟨rfl, rfl⟩ := Prod.mk.inj (Option.some.inj (hrun.symm.trans hrun'))
  obtain ⟨free, hfree⟩ : ∃ free, free = (g.free a'.table).card := ⟨_, rfl⟩
  refine ⟨⟨Function.update x.docs c.file o, free⟩, ⟨o, rfl, ?_⟩, a',
    h.update hdone.change hfree hdone.doc hdone.stuck⟩
  rw [hcount, hbuff]
  exact hdone.answer free hfree

/-- Calls of `f_read` and `f_write` on the files of a volume, in any order and with any memory
and lengths, are answered as reads and writes of separate documents, and all calls return.  A
file that is not called is not changed.  On a drive on which no disk call fails, no document is
lost, and less is written than was asked for only if no cluster is free or the document would
reach 4 GiB. -/
theorem files_are_documents (hM : M.Answers) (h : Represents M g S files₀ T₀ a s x)
    {calls : List (Returned ι)} (hrun : Runs (CallStep D) s calls s') :
    ∃ x', Runs (DocStep M.Reliable) x calls x' ∧
      (∃ a', Represents M g S files₀ T₀ a' s' x') ∧
      (∀ i, (∀ c ∈ calls, c.file ≠ i) → x'.docs i = x.docs i) ∧
      ∀ i call, ∃ c s'', c.file = i ∧ c.call = call ∧ CallStep D s' c s'' := by
  obtain ⟨x', hdocs, a', hrep⟩ := hrun.simulate
    (R := fun s x => ∃ a, Represents M g S files₀ T₀ a s x)
    (fun ⟨_, hrep⟩ hstep => hrep.callStep hM hstep) ⟨a, h⟩
  refine ⟨x', hdocs, ⟨a', hrep⟩, fun i hother => ?_, fun i call => ?_⟩
  · refine hdocs.unchanged (f := fun x : Docs ι => x.docs i) ?_ hother
    rintro x₁ c x₂ ⟨o, hsame, -⟩ hne
    show x₂.docs i = x₁.docs i
    rw [hsame, Function.update_of_ne (Ne.symm hne)]
  · obtain ⟨r, t, -, -, hcall, -⟩ := hrep.call hM i call
    exact ⟨⟨i, call, r, t.count.toNat, t.buff⟩, _, rfl, rfl, t, hcall, rfl, rfl, rfl⟩

end Store

/-- The document of a small file. -/
def smallDoc : Doc where
  mode := FA_READ ||| FA_WRITE
  ptr := 0
  size := 512
  bytes := fun j => BitVec.ofNat 8 (j % 512)

/-- The clusters of two small files. -/
def smallCluster (i : Bool) : BitVec 32 := if i then 3 else 2

/-- A diskette with the two files. -/
theorem smallFiles_represent : ∃ T v free, Represents ramMedia diskette (fun _ => True)
    (fun i => some [smallCluster i]) T ⟨countingDisk, T, fun i => some [smallCluster i]⟩
    ⟨fun i => smallFile (smallCluster i), v⟩ ⟨fun _ => some smallDoc, free⟩ := by
  obtain ⟨T, v, hv, hl, hone, hhints⟩ := disketteOf_files countingDisk countingDisk_fat
  obtain ⟨free, hfree⟩ : ∃ free, free = (diskette.free T).card := ⟨_, rfl⟩
  have hcluster : ∀ i, smallCluster i = 2 ∨ smallCluster i = 3 := by decide
  have howned : Owned T diskette.Cluster diskette.Eoc fun i => some [smallCluster i] := by
    constructor
    · rintro i l ⟨⟩
      exact hl _ (hcluster i)
    · rintro i j l l' hij ⟨⟩ ⟨⟩ d hd hd'
      have hinj : ∀ i j, smallCluster i = smallCluster j → i = j := by decide
      exact hij (hinj i j ((List.mem_singleton.mp hd).symm.trans (List.mem_singleton.mp hd')))
  have hcounts : v.fs.toHints.Counts diskette.nFatent (diskette.free T).card := by
    rw [hhints]
    exact Or.inr (by decide)
  refine ⟨T, v, free, ⟨diskette_layout, by decide, hv, howned, fun d hd => absurd trivial hd⟩,
    fun _ => ⟨fun _ => Option.some_ne_none _, fun d _ hused hnobody => ⟨hused, hnobody⟩,
      fun d _ => hone d, hcounts⟩, hfree, fun i d hd => ?_, fun i hd => nomatch hd⟩
  cases hd
  have hmode : smallDoc.mode = (FA_READ ||| FA_WRITE) &&& 0x03 := by decide
  exact ⟨_, fun _ => countingDisk 33, rfl, smallFile_open (hcluster i) (hl _ (hcluster i)), hmode,
    rfl, rfl, fun j _ => rfl⟩

/-- A byte is written to one of them and three bytes are read from the other. -/
theorem small_write_and_read : ∃ (s s' : OpenFiles (Lba → Sector) Bool) (c c' : Returned Bool),
    Runs (CallStep ramDrive) s [c, c'] s' ∧ (∀ i, s.fps i = smallFile (smallCluster i)) ∧
      c.file = false ∧ c.call = .write (fun _ => 0xAA) 1 ∧ c.result = .ok ∧
      c'.file = true ∧ c'.call = .read (fun _ => 0xFF) 3 ∧ c'.result = .ok ∧ c'.count = 3 ∧
      c'.buff 2 = 2 ∧ c'.buff 3 = 0xFF := by
  obtain ⟨T, v, free, hrep⟩ := smallFiles_represent
  have hM := ramMedia_reliable.answers
  obtain ⟨-, -, -, -, hnext⟩ := files_are_documents hM hrep (.nil _)
  obtain ⟨⟨f, call, r, k, b⟩, s₁, rfl, rfl, hstep⟩ := hnext false (.write (fun _ => 0xAA) 1)
  obtain ⟨-, -, -, -, hnext'⟩ := files_are_documents hM hrep (.cons hstep (.nil _))
  obtain ⟨⟨f', call', r', k', b'⟩, s₂, rfl, rfl, hstep'⟩ := hnext' true (.read (fun _ => 0xFF) 3)
  have hrun := Runs.cons hstep (.cons hstep' (.nil _))
  obtain ⟨x', hdocs, -⟩ := files_are_documents hM hrep hrun
  refine ⟨_, _, _, _, hrun, fun _ => rfl, rfl, rfl, ?_⟩
  cases hdocs with
  | cons hfirst hrest =>
    cases hrest with
    | cons hsecond hnil =>
      obtain ⟨o, hx, hanswer⟩ := hfirst
      obtain ⟨o', -, hanswer'⟩ := hsecond
      rw [hx, Function.update_of_ne (by decide : true ≠ false)] at hanswer'
      have hok : r = .ok := by
        cases hanswer with
        | write => rfl
        | denied hmode => cases hmode
        | failed hrel => exact absurd ramMedia_reliable hrel
      cases hanswer' with
      | read hmode hbytes hrest =>
        exact ⟨hok, rfl, rfl, rfl, rfl, hbytes 2 (by decide), hrest 3 (by decide)⟩
      | denied hmode => cases hmode
      | failed hrel => exact absurd ramMedia_reliable hrel

end ChronOS.Fs
