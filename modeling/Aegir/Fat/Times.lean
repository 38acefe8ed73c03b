/-
  The times of a FAT volume's slots (aegir-fs-fat, `fat.cc`).
-/
import Aegir.Lib.Calendar
import Aegir.Fat.Serve

namespace Aegir.Fat

open Aegir.Lib

/-! ## The source -/

def daysFromCivil (y : ℤ) (m d : ℕ) : ℤ :=
  let y := if m ≤ 2 then y - 1 else y
  let era : ℤ := Int.tdiv (if 0 ≤ y then y else y - 399) 400
  let yoe : ℕ := ((y - era * 400) % 2 ^ 32).toNat
  let doy : ℕ := ((153 * (if 2 < m then m - 3 else m + 9) + 2) / 5 + d + (2 ^ 32 - 1)) % 2 ^ 32
  let doe : ℕ := (yoe * 365 + yoe / 4 - yoe / 100 + doy) % 2 ^ 32
  era * 146097 + doe - 719468

def dosToUnix (date time : ℕ) : ℕ :=
  if date = 0 then 0
  else
    let year : ℕ := 1980 + date / 2 ^ 9 % 2 ^ 7
    let month : ℕ := date / 2 ^ 5 % 2 ^ 4
    let day : ℕ := date % 2 ^ 5
    let hour : ℕ := time / 2 ^ 11 % 2 ^ 5
    let minute : ℕ := time / 2 ^ 5 % 2 ^ 6
    let second : ℕ := time % 2 ^ 5 * 2
    ((daysFromCivil year month day * 86400 + hour * 3600 + minute * 60 + second) % 2 ^ 64).toNat

/-! ## Days -/

/-- The days before a month, in a year that begins with March. -/
def monthStart (month : ℕ) : ℕ := (153 * (if 2 < month then month - 3 else month + 9) + 2) / 5

def yearStart (year : ℕ) : ℕ := 365 * year + year / 4 - year / 100 + year / 400

def marchYear (d : Date) : ℕ := if d.month ≤ 2 then d.year - 1 else d.year

def marchDays (d : Date) : ℕ := yearStart (marchYear d) + (monthStart d.month + d.day - 1)

theorem monthStart_next {year month : ℕ} (h₁ : 1 ≤ month) (h₂ : month < 12) (h₃ : month ≠ 2) :
    monthStart (month + 1) = monthStart month + monthDays year month := by
  interval_cases month
  all_goals first | rfl | exact absurd rfl h₃

theorem yearStart_next (year : ℕ) : yearStart (year + 1) = yearStart year + monthStart 2 + monthDays (year + 1) 2 := by
  have hfeb : monthStart 2 = 337 := rfl
  have hdays : monthDays (year + 1) 2 = if Leap (year + 1) then 29 else 28 := rfl
  have hstep : ∀ k, 0 < k → (year + 1) / k = year / k + if (year + 1) % k = 0 then 1 else 0 := by
    intro k _
    rw [Nat.succ_div]
    simp only [Nat.dvd_iff_mod_eq_zero]
  have hcentury : (year + 1) % 100 = 0 → (year + 1) % 4 = 0 := by omega
  have hcycle : (year + 1) % 400 = 0 → (year + 1) % 100 = 0 := by omega
  have hless : year / 100 ≤ year / 4 := by omega
  rw [hfeb, hdays]
  unfold yearStart
  rw [hstep 4 (by decide), hstep 100 (by decide), hstep 400 (by decide)]
  unfold Leap
  by_cases h₄ : (year + 1) % 4 = 0
  · by_cases h₁₀₀ : (year + 1) % 100 = 0
    · by_cases h₄₀₀ : (year + 1) % 400 = 0
      · simp only [h₄, h₁₀₀, h₄₀₀, if_true, ne_eq, not_true, or_true, and_self]
        omega
      · simp only [h₄, h₁₀₀, h₄₀₀, if_true, if_false, ne_eq, not_true, or_self, and_false]
        omega
    · have h₄₀₀ : (year + 1) % 400 ≠ 0 := fun h => h₁₀₀ (hcycle h)
      simp only [h₄, h₁₀₀, h₄₀₀, if_true, if_false, ne_eq, not_false_iff, true_or, and_self]
      omega
  · have h₁₀₀ : (year + 1) % 100 ≠ 0 := fun h => h₄ (hcentury h)
    have h₄₀₀ : (year + 1) % 400 ≠ 0 := fun h => h₁₀₀ (hcycle h)
    simp only [h₄, h₁₀₀, h₄₀₀, if_false, false_and]
    omega

theorem marchDays_next (d : Date) (hy : 1 ≤ d.year) : marchDays d.next = marchDays d + 1 := by
  obtain ⟨y, m, day, h₁, h₂, h₃, h₄⟩ := d
  unfold Date.next
  dsimp only at hy ⊢
  split
  · -- the same month
    unfold marchDays marchYear
    dsimp only
    omega
  · next hend =>
    -- the last day of a month
    obtain rfl : day = monthDays y m := by omega
    split
    · next hm =>
      by_cases hfeb : m = 2
      · -- March begins the next year
        subst hfeb
        obtain ⟨y, rfl⟩ : ∃ k, y = k + 1 := ⟨y - 1, by omega⟩
        have hyear := yearStart_next y
        have hmarch : monthStart (2 + 1) = 0 := rfl
        have hback : y + 1 - 1 = y := rfl
        unfold marchDays marchYear
        dsimp only
        rw [if_neg (by decide), if_pos (by decide), hyear, hback, hmarch]
        omega
      · have hmonth := @monthStart_next y m h₁ hm hfeb
        have hsame : marchYear ⟨y, m + 1, 1, Nat.le_add_left 1 _, hm, Nat.le_refl 1, monthDays_pos _ _⟩ =
            marchYear ⟨y, m, monthDays y m, h₁, h₂, h₃, h₄⟩ := by
          unfold marchYear
          dsimp only
          by_cases hjan : m = 1
          · rw [if_pos (by omega), if_pos (by omega)]
          · rw [if_neg (by omega), if_neg (by omega)]
        unfold marchDays
        rw [hsame]
        dsimp only
        omega
    · obtain rfl : m = 12 := by omega
      have hjan : monthStart 1 = monthStart 12 + 31 := rfl
      have hdec : monthDays y 12 = 31 := rfl
      unfold marchDays marchYear
      dsimp only
      rw [if_pos (by decide), if_neg (by decide), Nat.add_sub_cancel, hjan, hdec]
      omega

/-- The first of January 1970. -/
def epoch : Date := .newYear 1970

theorem marchDays_after (n : ℕ) : marchDays (epoch.after n) = 719468 + n := by
  induction n with
  | zero => rfl
  | succ n ih =>
    have hyear := Date.year_le_after epoch n
    have hpos : 1 ≤ (epoch.after n).year := Nat.le_trans (by decide) hyear
    rw [Date.after, marchDays_next _ hpos, ih, Nat.add_assoc]

/-! ## The closed forms -/

theorem marchDay_lt (d : Date) : monthStart d.month + d.day - 1 < 365 ∨
    monthStart d.month + d.day - 1 = 365 ∧ d.month = 2 ∧ Leap d.year := by
  obtain ⟨y, m, day, h₁, h₂, h₃, h₄⟩ := d
  dsimp only
  by_cases hfeb : m = 2
  · subst hfeb
    have hstart : monthStart 2 = 337 := rfl
    have hdays : monthDays y 2 = if Leap y then 29 else 28 := rfl
    rw [hdays] at h₄
    by_cases hleap : Leap y
    · rw [if_pos hleap] at h₄
      simp only [hleap, and_true]
      omega
    · rw [if_neg hleap] at h₄
      omega
  · left
    have hlate : monthStart m + monthDays y m ≤ 337 := by
      interval_cases m
      all_goals first | exact absurd rfl hfeb | exact Nat.le_of_ble_eq_true rfl
    omega

def cycleYear (doe : ℕ) : ℕ := (doe - doe / 1460 + doe / 36524 - doe / 146096) / 365

theorem cycleYear_mono {a b : ℕ} (h : a ≤ b) (hb : b < 146097) : cycleYear a ≤ cycleYear b := by
  refine Nat.div_le_div_right ?_
  omega

set_option maxRecDepth 20000 in
theorem cycleYear_ends : ∀ year < 400, cycleYear (yearStart year) = year ∧
    cycleYear (yearStart year + if Leap (year + 1) then 365 else 364) = year := by
  decide

theorem cycleYear_eq {year day : ℕ} (hy : year < 400) (hday : day < 365 ∨ day = 365 ∧ Leap (year + 1)) :
    cycleYear (yearStart year + day) = year := by
  obtain ⟨hfirst, hlast⟩ := cycleYear_ends year hy
  have hle : day ≤ if Leap (year + 1) then 365 else 364 := by
    split
    · omega
    · next hleap =>
      have hshort := hday.resolve_right fun h => hleap h.2
      omega
  have hbound : yearStart year + (if Leap (year + 1) then 365 else 364) < 146097 := by
    have hmost : (if Leap (year + 1) then 365 else 364) ≤ 365 := by
      split
      · decide
      · decide
    by_cases hend : year = 399
    · subst hend
      decide
    · unfold yearStart
      omega
  refine Nat.le_antisymm ?_ ?_
  · have hhigh := cycleYear_mono (Nat.add_le_add_left hle (yearStart year)) hbound
    rwa [hlast] at hhigh
  · have hlow := cycleYear_mono (Nat.le_add_right (yearStart year) day) (by omega)
    rwa [hfirst] at hlow

theorem yearStart_cycle (era year : ℕ) (hy : year < 400) : yearStart (400 * era + year) = era * 146097 + yearStart year := by
  have hfour : (400 * era + year) / 4 = 100 * era + year / 4 := by omega
  have hcentury : (400 * era + year) / 100 = 4 * era + year / 100 := by omega
  have hcycle : (400 * era + year) / 400 = era + year / 400 := by omega
  unfold yearStart
  rw [hfour, hcentury, hcycle]
  omega

theorem leap_cycle (era year : ℕ) : Leap (400 * era + year) ↔ Leap year := by
  have hfour : (400 * era + year) % 4 = year % 4 := by omega
  have hcentury : (400 * era + year) % 100 = year % 100 := by omega
  have hcycle : (400 * era + year) % 400 = year % 400 := by omega
  unfold Leap
  rw [hfour, hcentury, hcycle]

theorem yearStart_lt {year : ℕ} (hy : year < 400) : yearStart year + 365 < 146097 ∨ year = 399 := by
  unfold yearStart
  omega

theorem march_cycle (d : Date) (hy : 1 ≤ d.year) : ∃ era year day, year < 400 ∧
    marchYear d = 400 * era + year ∧ day = monthStart d.month + d.day - 1 ∧
    (day < 365 ∨ day = 365 ∧ Leap (year + 1)) ∧ marchDays d = era * 146097 + (yearStart year + day) ∧
    yearStart year + day < 146097 := by
  refine ⟨marchYear d / 400, marchYear d % 400, monthStart d.month + d.day - 1, Nat.mod_lt _ (by decide),
    (Nat.div_add_mod _ _).symm, rfl, ?_, ?_, ?_⟩
  · refine (marchDay_lt d).imp_right fun ⟨hday, hfeb, hleap⟩ => ⟨hday, ?_⟩
    have hnext : d.year = 400 * (marchYear d / 400) + (marchYear d % 400 + 1) := by
      have hmarch : marchYear d = d.year - 1 := if_pos (by omega)
      omega
    rw [hnext] at hleap
    exact (leap_cycle _ _).1 hleap
  · have hcycle := yearStart_cycle (marchYear d / 400) (marchYear d % 400) (Nat.mod_lt _ (by decide))
    rw [Nat.div_add_mod] at hcycle
    rw [marchDays, hcycle, Nat.add_assoc]
  · have hlt := Nat.mod_lt (marchYear d) (show 0 < 400 by decide)
    have hlast : yearStart 399 = 145731 := by decide
    have hday := marchDay_lt d
    rcases yearStart_lt hlt with hin | hend
    · omega
    · rw [hend]
      omega

theorem daysFromCivil_eq (d : Date) (hy : 1 ≤ d.year) : daysFromCivil d.year d.month d.day = (marchDays d : ℤ) - 719468 := by
  obtain ⟨era, year, day, hyear, hmarch, hday, -, hdays, hlt⟩ := march_cycle d hy
  have hpos := d.day_pos
  have hcast : (if d.month ≤ 2 then (d.year : ℤ) - 1 else d.year) = ((400 * era + year : ℕ) : ℤ) := by
    rw [← hmarch]
    unfold marchYear
    split
    · omega
    · rfl
  unfold daysFromCivil
  dsimp only
  rw [hcast, if_pos (Int.natCast_nonneg _), Int.tdiv_eq_ediv_of_nonneg (Int.natCast_nonneg _)]
  have hera : (((400 * era + year : ℕ) : ℤ) / 400) = era := by omega
  have hyoe : ((((400 * era + year : ℕ) : ℤ) - era * 400) % 2 ^ 32).toNat = year := by omega
  have hdoy : ((153 * (if 2 < d.month then d.month - 3 else d.month + 9) + 2) / 5 + d.day + (2 ^ 32 - 1)) % 2 ^ 32 = day := by
    rw [hday]
    have hsmall := marchDay_lt d
    unfold monthStart at hsmall ⊢
    omega
  have hstart : year * 365 + year / 4 - year / 100 + day = yearStart year + day := by
    unfold yearStart
    omega
  rw [hera, hyoe, hdoy, hstart, Nat.mod_eq_of_lt (by omega), hdays]
  omega

theorem month_eq (d : Date) :
    (5 * (monthStart d.month + d.day - 1) + 2) / 153 = if 2 < d.month then d.month - 3 else d.month + 9 := by
  obtain ⟨y, m, day, h₁, h₂, h₃, h₄⟩ := d
  dsimp only
  have hmost : day ≤ if m = 2 then 29 else if m = 4 ∨ m = 6 ∨ m = 9 ∨ m = 11 then 30 else 31 := by
    refine Nat.le_trans h₄ ?_
    unfold monthDays
    by_cases hfeb : m = 2
    · rw [if_pos hfeb, if_pos hfeb]
      split
      · decide
      · decide
    · rw [if_neg hfeb, if_neg hfeb]
  unfold monthStart
  interval_cases m
  all_goals simp at hmost ⊢
  all_goals omega

theorem civilFromDays_eq (d : Date) (hy : 1 ≤ d.year) {n : ℕ} (hn : marchDays d = 719468 + n) :
    civilFromDays n = (d.year, d.month, d.day) := by
  obtain ⟨era, year, day, hyear, hmarch, hday, hlong, hdays, hlt⟩ := march_cycle d hy
  have hpos := d.day_pos
  have hmonth := month_eq d
  rw [← hday] at hmonth
  have hz : n + 719468 = era * 146097 + (yearStart year + day) := by omega
  have hera : (era * 146097 + (yearStart year + day)) / 146097 = era := by omega
  have hdoe : era * 146097 + (yearStart year + day) - era * 146097 = yearStart year + day := by omega
  have hyoe : (yearStart year + day - (yearStart year + day) / 1460 + (yearStart year + day) / 36524 -
      (yearStart year + day) / 146096) / 365 = year := cycleYear_eq hyear hlong
  have hdoy : yearStart year + day - (365 * year + year / 4 - year / 100) = day := by
    unfold yearStart
    omega
  unfold civilFromDays
  dsimp only
  rw [hz, hera, hdoe, hyoe, hdoy, hmonth]
  have hm₁ := d.month_pos
  have hm₂ := d.month_le
  have hback : (if (if 2 < d.month then d.month - 3 else d.month + 9) < 10
      then (if 2 < d.month then d.month - 3 else d.month + 9) + 3
      else (if 2 < d.month then d.month - 3 else d.month + 9) - 9) = d.month := by
    split_ifs
    all_goals omega
  rw [hback]
  refine Prod.ext_iff.2 ⟨?_, Prod.ext_iff.2 ⟨rfl, ?_⟩⟩
  · dsimp only
    unfold marchYear at hmarch
    split at hmarch
    · rw [if_pos ‹_›]
      omega
    · rw [if_neg ‹_›]
      omega
  · dsimp only
    rw [hday]
    unfold monthStart
    omega

theorem civilFromDays_after (n : ℕ) :
    civilFromDays n = ((epoch.after n).year, (epoch.after n).month, (epoch.after n).day) :=
  civilFromDays_eq _ (Nat.le_trans (by decide) (Date.year_le_after epoch n)) (marchDays_after n)

theorem daysFromCivil_after (n : ℕ) :
    daysFromCivil (epoch.after n).year (epoch.after n).month (epoch.after n).day = n := by
  rw [daysFromCivil_eq _ (Nat.le_trans (by decide) (Date.year_le_after epoch n)), marchDays_after]
  omega

theorem civilFromDays_daysFromCivil (d : Date) (hy : 1970 ≤ d.year) :
    0 ≤ daysFromCivil d.year d.month d.day ∧
      civilFromDays (daysFromCivil d.year d.month d.day).toNat = (d.year, d.month, d.day) := by
  have hpos := d.day_pos
  have hle : 719468 ≤ marchDays d := by
    unfold marchDays marchYear
    have hepoch : yearStart 1969 = 719162 := by decide
    have hmono : ∀ year, 1969 ≤ year → 719162 + 365 * (year - 1969) ≤ yearStart year := by
      intro year hyear
      unfold yearStart
      omega
    by_cases hjan : d.month ≤ 2
    · have hstart : 306 ≤ monthStart d.month := by
        unfold monthStart
        rw [if_neg (by omega)]
        have := d.month_pos
        omega
      rw [if_pos hjan]
      have := hmono (d.year - 1) (by omega)
      omega
    · rw [if_neg hjan]
      have := hmono d.year (by omega)
      omega
  rw [daysFromCivil_eq d (by omega)]
  exact ⟨by omega, civilFromDays_eq d (by omega) (by omega)⟩

/-! ## Times -/

def dateOf (t : ℕ) : Date := epoch.after (t / 86400)

def kDosEnd : ℕ := 4354819200

theorem year_mono {n k : ℕ} (h : n ≤ k) : (epoch.after n).year ≤ (epoch.after k).year := by
  obtain ⟨j, rfl⟩ := Nat.exists_eq_add_of_le h
  rw [Date.after_add]
  exact Date.year_le_after _ j

theorem year_after (n : ℕ) : (epoch.after n).year = (civilFromDays n).1 := by rw [civilFromDays_after]

theorem year_le_2107 (t : ℕ) : (dateOf t).year ≤ 2107 ↔ t < kDosEnd := by
  have hlast : (epoch.after 50402).year = 2107 := by rw [year_after]; decide
  have hnext : (epoch.after 50403).year = 2108 := by rw [year_after]; decide
  unfold dateOf kDosEnd
  constructor
  · intro hyear
    by_contra hge
    have := year_mono (show 50403 ≤ t / 86400 by omega)
    omega
  · intro hlt
    have := year_mono (show t / 86400 ≤ 50402 by omega)
    omega

def dateWord (d : Date) : ℕ := (d.year - 1980) * 512 + d.month * 32 + d.day

def timeWord (rem : ℕ) : ℕ := rem / 3600 * 2048 + rem % 3600 / 60 * 32 + rem % 60 / 2

theorem fields_or {a b c i j : ℕ} (hb : b < 2 ^ (i - j)) (hc : c < 2 ^ j) (hij : j ≤ i) :
    a * 2 ^ i ||| b * 2 ^ j ||| c = a * 2 ^ i + b * 2 ^ j + c := by
  have hpow : 2 ^ i = 2 ^ j * 2 ^ (i - j) := by rw [← Nat.pow_add, Nat.add_sub_cancel' hij]
  have hlow : b * 2 ^ j + c < 2 ^ i := by
    rw [hpow, Nat.mul_comm b]
    have hmul := Nat.mul_le_mul_left (2 ^ j) (show b + 1 ≤ 2 ^ (i - j) from hb)
    rw [Nat.mul_succ] at hmul
    omega
  rw [Nat.or_assoc, Nat.mul_comm b, ← Nat.two_pow_add_eq_or_of_lt hc, Nat.mul_comm a,
    ← Nat.two_pow_add_eq_or_of_lt (by rwa [Nat.mul_comm]), Nat.add_assoc]

theorem month_lt (d : Date) : d.month < 16 := Nat.lt_of_le_of_lt d.month_le (by decide)

theorem day_lt (d : Date) : d.day < 32 :=
  Nat.lt_of_le_of_lt (Nat.le_trans d.day_le (monthDays_le _ _)) (by decide)

theorem unixToDos_eq {t : ℕ} (h : 1980 ≤ (dateOf t).year) :
    unixToDos t = (dateWord (dateOf t) % 2 ^ 16, timeWord (t % 86400)) := by
  have hzero : t ≠ 0 := by
    rintro rfl
    exact absurd h (by decide)
  have hrem := Nat.mod_lt t (show 0 < 86400 by decide)
  unfold unixToDos
  rw [if_neg hzero, civilFromDays_after]
  dsimp only
  rw [← dateOf, if_neg (by omega), fields_or (by have := month_lt (dateOf t); omega) (by have := day_lt (dateOf t); omega)
    (by decide), fields_or (by omega) (by omega) (by decide)]
  refine Prod.ext_iff.2 ⟨rfl, Nat.mod_eq_of_lt ?_⟩
  omega

theorem unixToDos_early {t : ℕ} (h : (dateOf t).year < 1980) : unixToDos t = (0, 0) := by
  unfold unixToDos
  split
  · rfl
  · rw [civilFromDays_after]
    dsimp only
    rw [← dateOf, if_pos h]

theorem dosToUnix_unixToDos {t : ℕ} (h : 1980 ≤ (dateOf t).year) (h' : (dateOf t).year ≤ 2107) :
    dosToUnix (unixToDos t).1 (unixToDos t).2 = t / 2 * 2 := by
  have hm := month_lt (dateOf t)
  have hd := day_lt (dateOf t)
  have hmonth := (dateOf t).month_pos
  have hdays : daysFromCivil (dateOf t).year (dateOf t).month (dateOf t).day = (t / 86400 : ℕ) :=
    daysFromCivil_after _
  have hend := (year_le_2107 t).1 h'
  have hrem := Nat.mod_lt t (show 0 < 86400 by decide)
  have hdiv := Nat.div_add_mod t 86400
  have hword : dateWord (dateOf t) % 2 ^ 16 = dateWord (dateOf t) := by
    unfold dateWord
    omega
  rw [unixToDos_eq h, hword]
  unfold dosToUnix
  have hne : dateWord (dateOf t) ≠ 0 := by
    unfold dateWord
    omega
  have hyear : 1980 + dateWord (dateOf t) / 2 ^ 9 % 2 ^ 7 = (dateOf t).year := by
    unfold dateWord
    omega
  have hmo : dateWord (dateOf t) / 2 ^ 5 % 2 ^ 4 = (dateOf t).month := by
    unfold dateWord
    omega
  have hda : dateWord (dateOf t) % 2 ^ 5 = (dateOf t).day := by
    unfold dateWord
    omega
  dsimp only
  rw [if_neg hne, hyear, hmo, hda, hdays]
  generalize t / 86400 = days at hdiv ⊢
  have htime : timeWord (t % 86400) / 2 ^ 11 % 2 ^ 5 * 3600 + timeWord (t % 86400) / 2 ^ 5 % 2 ^ 6 * 60 +
      timeWord (t % 86400) % 2 ^ 5 * 2 = t % 86400 / 2 * 2 := by
    unfold timeWord
    omega
  unfold kDosEnd at hend
  omega

def packed (words : ℕ × ℕ) : ℕ := words.1 * 2 ^ 16 + words.2

theorem dateWord_next (d : Date) (hy : 1980 ≤ d.year) : dateWord d < dateWord d.next := by
  have hm := d.month_le
  have hd := day_lt d
  unfold Date.next dateWord
  split_ifs
  all_goals dsimp only
  all_goals omega

theorem dateWord_mono {n k : ℕ} (hy : 1980 ≤ (epoch.after n).year) (h : n < k) :
    dateWord (epoch.after n) < dateWord (epoch.after k) := by
  induction k with
  | zero => omega
  | succ k ih =>
    have hyear := year_mono (Nat.le_of_lt_succ h)
    have hstep := dateWord_next (epoch.after k) (by omega)
    rcases Nat.eq_or_lt_of_le (Nat.le_of_lt_succ h) with rfl | hlt
    · exact hstep
    · exact Nat.lt_trans (ih hlt) hstep

theorem timeWord_mono {a b : ℕ} (h : a ≤ b) : timeWord a ≤ timeWord b := by
  unfold timeWord
  omega

theorem packed_mono {t t' : ℕ} (h : t ≤ t') (hend : t' < kDosEnd) : packed (unixToDos t) ≤ packed (unixToDos t') := by
  by_cases hy : 1980 ≤ (dateOf t).year
  · have hyear := year_mono (Nat.div_le_div_right h : t / 86400 ≤ t' / 86400)
    have hlt : (dateOf t').year ≤ 2107 := (year_le_2107 t').2 hend
    have hlt₀ : (dateOf t).year ≤ 2107 := Nat.le_trans hyear hlt
    have hword : ∀ d : Date, d.year ≤ 2107 → dateWord d % 2 ^ 16 = dateWord d := by
      intro d hd
      have := month_lt d
      have := day_lt d
      unfold dateWord
      omega
    rw [unixToDos_eq hy, unixToDos_eq (Nat.le_trans hy hyear), hword _ hlt, hword _ hlt₀]
    have hrem := Nat.mod_lt t (show 0 < 86400 by decide)
    unfold packed
    dsimp only
    rcases Nat.eq_or_lt_of_le (Nat.div_le_div_right h : t / 86400 ≤ t' / 86400) with heq | hday
    · have htime : timeWord (t % 86400) ≤ timeWord (t' % 86400) := timeWord_mono (by omega)
      have hsame : dateOf t = dateOf t' := by rw [dateOf, dateOf, heq]
      rw [hsame]
      omega
    · have hless : dateWord (dateOf t) < dateWord (dateOf t') := dateWord_mono hy hday
      have hsmall : timeWord (t % 86400) < 2 ^ 16 := by
        unfold timeWord
        omega
      omega
  · rw [unixToDos_early (by omega)]
    exact Nat.zero_le _

/-- A time of the years that a slot can keep is kept, down to an even second; no other one is. -/
def Kept (t : ℕ) : Prop :=
  if 1980 ≤ (dateOf t).year ∧ (dateOf t).year ≤ 2107 then dosToUnix (unixToDos t).1 (unixToDos t).2 = t / 2 * 2
  else unixToDos t = (0, 0)

theorem kept_iff (t : ℕ) : Kept t ↔ t < kDosEnd := by
  unfold Kept
  rw [← year_le_2107]
  constructor
  · intro hkept
    by_contra hlate
    rw [if_neg (by omega), unixToDos_eq (by omega)] at hkept
    -- a month's and a day's bits are not all zero
    have hword : dateWord (dateOf t) % 2 ^ 16 = 0 := congrArg Prod.fst hkept
    have := month_lt (dateOf t)
    have := day_lt (dateOf t)
    have := (dateOf t).month_pos
    unfold dateWord at hword
    omega
  · intro hend
    split
    · next hyear => exact dosToUnix_unixToDos hyear.1 hyear.2
    · exact unixToDos_early (by omega)

/-- The calendar, a slot's times and their order. -/
theorem dos_times (t : ℕ) :
    (Kept t ↔ t < kDosEnd) ∧
    (∀ t', t < t' → t' < kDosEnd → packed (unixToDos t) ≤ packed (unixToDos t') ∧
      (1980 ≤ (dateOf t).year → dosToUnix (unixToDos t).1 (unixToDos t).2 ≤ dosToUnix (unixToDos t').1 (unixToDos t').2)) ∧
    (∀ n, civilFromDays n = ((epoch.after n).year, (epoch.after n).month, (epoch.after n).day) ∧
      daysFromCivil (civilFromDays n).1 (civilFromDays n).2.1 (civilFromDays n).2.2 = n) ∧
    ∀ d : Date, 1970 ≤ d.year → 0 ≤ daysFromCivil d.year d.month d.day ∧
      civilFromDays (daysFromCivil d.year d.month d.day).toNat = (d.year, d.month, d.day) := by
  refine ⟨kept_iff t, fun t' hlt hend => ⟨packed_mono (Nat.le_of_lt hlt) hend, fun hy => ?_⟩,
    fun n => ⟨civilFromDays_after n, ?_⟩, civilFromDays_daysFromCivil⟩
  · have hyear : (dateOf t).year ≤ (dateOf t').year := year_mono (Nat.div_le_div_right (Nat.le_of_lt hlt))
    have hmost : (dateOf t').year ≤ 2107 := (year_le_2107 t').2 hend
    rw [dosToUnix_unixToDos hy (Nat.le_trans hyear hmost), dosToUnix_unixToDos (Nat.le_trans hy hyear) hmost]
    omega
  · rw [civilFromDays_after]
    exact daysFromCivil_after n

/-- The first second of 2108 is packed as the first of 1980. -/
theorem late_time : ¬ Kept kDosEnd ∧ unixToDos kDosEnd = unixToDos 315532800 ∧ unixToDos kDosEnd ≠ (0, 0) := by
  have hlate : ¬ Kept kDosEnd := by
    rw [kept_iff]
    exact Nat.lt_irrefl kDosEnd
  exact ⟨hlate, by decide, by decide⟩

end Aegir.Fat
