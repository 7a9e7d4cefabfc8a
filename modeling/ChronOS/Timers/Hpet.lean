/-
  Timers/Hpet.lean --- `kernel/src/timers/hpet/hpet.c`.

  Of `hpet_init` the calibration is modelled: it is what `hpet_usleep` reads.  The
  quotient of the constant 1e15 and the period is taken as exact division rounded
  down.

  `hpet_usleep` polls the main counter, so the counter enters as the sequence of
  values its reads return.  The device counts without bound and a read gives the
  count modulo 2^64; the wait may therefore start just before a wrap.
-/
import ChronOS.Foundation.Memory
import ChronOS.Foundation.Search

set_option autoImplicit false

namespace ChronOS.Timers

open ChronOS.Foundation

/-! ## Calibration -/

/-- `HPET_ONE_FS`. -/
def HPET_ONE_FS : Nat := 10 ^ 15

/-- `clk_period_fs`, the upper half of the capabilities register. -/
def clkPeriodFs (capabilities : Word) : BitVec 32 :=
  ((capabilities >>> 32) &&& 0xFFFFFFFF#64).setWidth 32

/-- `hpet_freq_hz`. -/
def hpetFreqHz (capabilities : Word) : Word :=
  BitVec.ofNat 64 (HPET_ONE_FS / (clkPeriodFs capabilities).toNat)

/-- `ticks_per_10us`, as `hpet_init` sets it. -/
def ticksPer10us (capabilities : Word) : Word := hpetFreqHz capabilities / 100000#64

/-! ## Waiting -/

/-- `ticks_to_wait`. -/
def ticksToWait (ticksPer10us us : Word) : Word :=
  (if us < 10#64 then 10#64 else us) / 10#64 * ticksPer10us

/-- `hpet_usleep`: the number of the read it returns after.  Read 0 is the one that sets
`now`; `none` when `fuel` reads do not end the loop. -/
def hpetUsleep (ticksPer10us us : Word) (counter : Nat → Word) (fuel : Nat) : Option Nat :=
  let now := counter 0
  searchFrom (fun k => !decide (counter k - now < ticksToWait ticksPer10us us)) (· + 1) fuel 1

/-- The reads of a counter that stands at `ticks k` at read `k`. -/
def readings (ticks : Nat → Nat) (k : Nat) : Word := BitVec.ofNat 64 (ticks k)

/-- However the counter advances, at least `us` microseconds of it have passed when
`hpet_usleep(us)` returns. -/
def SleepsLongEnough (capabilities us : Word) : Prop :=
  ∀ ticks : Nat → Nat, Monotone ticks → ∀ fuel k,
    hpetUsleep (ticksPer10us capabilities) us (readings ticks) fuel = some k →
      us.toNat * 10 ^ 9 ≤ (ticks k - ticks 0) * (clkPeriodFs capabilities).toNat

/-! ## The roundings -/

/-- The two divisions of `hpet_init` are one. -/
theorem toNat_ticksPer10us (capabilities : Word) :
    (ticksPer10us capabilities).toNat = 10 ^ 10 / (clkPeriodFs capabilities).toNat := by
  have hle : 10 ^ 15 / (clkPeriodFs capabilities).toNat ≤ 10 ^ 15 := Nat.div_le_self _ _
  have hfreq : (hpetFreqHz capabilities).toNat = 10 ^ 15 / (clkPeriodFs capabilities).toNat :=
    Nat.mod_eq_of_lt (by unfold HPET_ONE_FS; omega)
  have hconst : (100000#64).toNat = 10 ^ 5 := rfl
  have hquot : 10 ^ 15 / 10 ^ 5 = 10 ^ 10 := by norm_num
  rw [ticksPer10us, BitVec.toNat_udiv, hfreq, hconst, Nat.div_right_comm, hquot]

/-- `us / 10`, with short waits rounded up to one unit. -/
def units (us : Nat) : Nat := if us < 10 then 1 else us / 10

/-- The product does not overflow. -/
theorem toNat_ticksToWait (capabilities : Word) {us : Word} (hus : us.toNat < 2 ^ 32) :
    (ticksToWait (ticksPer10us capabilities) us).toNat =
      units us.toNat * (10 ^ 10 / (clkPeriodFs capabilities).toNat) := by
  have hunits : ((if us < 10#64 then 10#64 else us) / 10#64).toNat = units us.toNat := by
    have hten : (10#64).toNat = 10 := rfl
    have hshort : us < 10#64 ↔ us.toNat < 10 := BitVec.lt_def
    by_cases hlt : us.toNat < 10
    · rw [if_pos (hshort.mpr hlt), units, if_pos hlt]
      rfl
    · rw [if_neg (mt hshort.mp hlt), units, if_neg hlt, BitVec.toNat_udiv, hten]
  have hsmall : units us.toNat ≤ 2 ^ 29 := by
    unfold units
    split <;> omega
  have hticks : 10 ^ 10 / (clkPeriodFs capabilities).toNat ≤ 10 ^ 10 := Nat.div_le_self _ _
  have hprod := Nat.mul_le_mul hsmall hticks
  rw [ticksToWait, BitVec.toNat_mul, hunits, toNat_ticksPer10us,
    Nat.mod_eq_of_lt (by omega)]

/-- The loop ends with a read that is at least `ticks_to_wait` away from the first one, and the
counter has advanced by no less than that. -/
theorem hpetUsleep_elapsed {ticksPer10us us : Word} {ticks : Nat → Nat} (hmono : Monotone ticks)
    {fuel k : Nat} (hreturns : hpetUsleep ticksPer10us us (readings ticks) fuel = some k) :
    (ticksToWait ticksPer10us us).toNat ≤ ticks k - ticks 0 := by
  have hstop := searchFrom_stop hreturns
  have hfar : ticksToWait ticksPer10us us ≤ readings ticks k - readings ticks 0 := by
    simpa using hstop
  rw [BitVec.le_def, BitVec.toNat_sub] at hfar
  simp only [readings, BitVec.toNat_ofNat] at hfar
  have hle := hmono (Nat.zero_le k)
  omega

/-- A counter that has just reached `ticks_to_wait` at the second read. -/
theorem hpetUsleep_stepped (ticksPer10us us : Word) :
    hpetUsleep ticksPer10us us
      (readings fun k => if k = 0 then 0 else (ticksToWait ticksPer10us us).toNat) 1 = some 1 := by
  simp [hpetUsleep, readings, searchFrom]

/-- A shortest wait is long enough for less than ten microseconds: a period is at most a
hundredth of it. -/
theorem short_wait_enough {us p : Nat} (hp : 1 ≤ p) (hp' : p ≤ 10 ^ 8) (hus : us < 10) :
    us * 10 ^ 9 ≤ units us * (10 ^ 10 / p) * p := by
  have hrem := Nat.mod_lt (10 ^ 10) hp
  have hdiv := Nat.div_add_mod' (10 ^ 10) p
  rw [units, if_pos hus, Nat.one_mul]
  omega

/-- From ten microseconds on both divisions have to be exact. -/
theorem long_wait_enough_iff {us p : Nat} (hus : 10 ≤ us) :
    us * 10 ^ 9 ≤ units us * (10 ^ 10 / p) * p ↔ 10 ∣ us ∧ p ∣ 10 ^ 10 := by
  rw [units, if_neg (by omega), Nat.mul_assoc]
  have hfloor : 10 ^ 10 / p * p ≤ 10 ^ 10 := Nat.div_mul_le_self _ _
  constructor
  · intro h
    have hunits : us * 10 ^ 9 ≤ us / 10 * 10 ^ 10 := h.trans (Nat.mul_le_mul_left _ hfloor)
    refine ⟨by omega, ?_⟩
    have hscale : us / 10 * 10 ^ 10 = us * 10 ^ 9 := by omega
    have hge : 10 ^ 10 ≤ 10 ^ 10 / p * p :=
      Nat.le_of_mul_le_mul_left (hscale.le.trans h) (by omega)
    exact Dvd.intro_left (10 ^ 10 / p) (Nat.le_antisymm hfloor hge)
  · rintro ⟨hten, hdvd⟩
    rw [Nat.div_mul_cancel hdvd]
    omega

/-- `hpet_usleep` never sleeps short exactly for waits below ten microseconds and for whole
multiples of ten with a period that divides ten microseconds. -/
theorem hpetUsleep_longEnough_iff (capabilities us : Word)
    (hperiod : 1 ≤ (clkPeriodFs capabilities).toNat)
    (hperiod' : (clkPeriodFs capabilities).toNat ≤ 10 ^ 8) (hus : us.toNat < 2 ^ 32) :
    SleepsLongEnough capabilities us ↔
      us.toNat < 10 ∨ 10 ∣ us.toNat ∧ (clkPeriodFs capabilities).toNat ∣ 10 ^ 10 := by
  have hwait : SleepsLongEnough capabilities us ↔ us.toNat * 10 ^ 9 ≤
      units us.toNat * (10 ^ 10 / (clkPeriodFs capabilities).toNat) *
        (clkPeriodFs capabilities).toNat := by
    rw [← toNat_ticksToWait capabilities hus]
    constructor
    · intro h
      refine h _ ?_ _ _ (hpetUsleep_stepped (ticksPer10us capabilities) us)
      intro i j hij
      dsimp only
      split <;> split <;> omega
    · intro h ticks hmono fuel k hreturns
      exact h.trans (Nat.mul_le_mul_right _ (hpetUsleep_elapsed hmono hreturns))
  rw [hwait]
  by_cases hshort : us.toNat < 10
  · exact iff_of_true (short_wait_enough hperiod hperiod' hshort) (Or.inl hshort)
  · rw [long_wait_enough_iff (by omega)]
    simp [hshort]

/-- At a period of 10 ns a wait of 100 microseconds is exact. -/
theorem hpetUsleep_hundred :
    SleepsLongEnough 0x0098968000000000#64 100#64 :=
  (hpetUsleep_longEnough_iff 0x0098968000000000#64 100#64 (by decide) (by decide) (by decide)).mpr
    (Or.inr (by decide))

/-- At the same period a wait of 19 microseconds may end after 1000 ticks, which are 10
microseconds; and at a period of 69841279 fs one of 100 microseconds may end after 1430
ticks, 99.87 microseconds. -/
theorem hpetUsleep_short :
    hpetUsleep (ticksPer10us 0x0098968000000000#64) 19#64
        (readings fun k => if k = 0 then 0 else 1000) 1 = some 1 ∧
      1000 * (clkPeriodFs 0x0098968000000000#64).toNat < 19 * 10 ^ 9 ∧
      hpetUsleep (ticksPer10us 0x0429B17F00000000#64) 100#64
        (readings fun k => if k = 0 then 0 else 1430) 1 = some 1 ∧
      1430 * (clkPeriodFs 0x0429B17F00000000#64).toNat < 100 * 10 ^ 9 := by
  decide

end ChronOS.Timers
