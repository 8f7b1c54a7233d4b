import Mathlib

/-!
# The size of a UBIFS image

ubifs.mk tells mkfs.ubifs how many logical erase blocks the file system may use. Every
number is the output of a run of bc on the numbers before it, so each division is truncated
on its own. `lebcnt_eq` has the count in closed form : with `g` good erase blocks and `h`
bytes of headers in each, the bytes of headers that do not fill an erase block are taken for
data, and when they amount to a logical erase block the count is one too high.
-/

namespace Makeroot

/-! ## ubifs.mk -/

/-- Division in bc, with a scale of zero. A zero divisor is an error, and nothing is
printed. -/
def bcDiv (a b : ℤ) : Option ℤ := if b = 0 then none else some (a.tdiv b)

/-- The variables that image/Makefile takes from the configuration : `mtd-pagesize`,
`mtd-subpagesize`, which may be empty, and `mtd-pebsize` in KiB. -/
structure Mtd where
  pagesize : ℕ
  subpagesize : Option ℕ
  pebsize : ℕ

section Variables

variable (m : Mtd) (size : ℕ)

/-- `pebsize`. -/
def pebsize : ℤ := m.pebsize * 1024

/-- `lebsize`. -/
def lebsize : ℤ :=
  if m.subpagesize.isSome then pebsize m - m.pagesize else pebsize m - m.pagesize - m.pagesize

/-- `fssize`, for a partition of `size` MiB. -/
def fssize : ℤ := size * 1024 * 1024

/-- `pebcnt`. -/
def pebcnt : Option ℤ := bcDiv (fssize size) (pebsize m)

/-- `maxbadpeb`. -/
def maxbadpeb : Option ℤ := do
  let share ← bcDiv (← pebcnt m size) 100
  pure (share + 4)

/-- `mingoodped`. -/
def mingoodped : Option ℤ := do
  pure ((← pebcnt m size) - (← maxbadpeb m size))

/-- `overhead`. -/
def overhead : Option ℤ := do
  pure ((← maxbadpeb m size) * pebsize m + (← mingoodped m size) * (pebsize m - lebsize m))

/-- `emptypebcnt`. -/
def emptypebcnt : Option ℤ := do
  bcDiv (← overhead m size) (pebsize m)

/-- `availablepebcnt`. -/
def availablepebcnt : Option ℤ := do
  pure ((← pebcnt m size) - (← emptypebcnt m size))

/-- `lebcnt`. -/
def lebcnt : Option ℤ := do
  bcDiv ((← availablepebcnt m size) * pebsize m) (lebsize m)

end Variables

/-! ## The flash -/

/-- The bytes of an erase block. -/
def Mtd.block (m : Mtd) : ℕ := m.pebsize * 1024

/-- The bytes of headers in each erase block : with sub-pages the two headers share a page. -/
def Mtd.header (m : Mtd) : ℕ := if m.subpagesize.isSome then m.pagesize else 2 * m.pagesize

/-- The whole erase blocks of a partition. -/
def Mtd.blocks (m : Mtd) (size : ℕ) : ℕ := size * 1024 * 1024 / m.block

/-- Those that are left when one in a hundred and four more are set aside for bad ones. -/
def Mtd.good (m : Mtd) (size : ℕ) : ℕ := m.blocks size - (m.blocks size / 100 + 4)

/-- The image is told to use at most the good erase blocks of the partition. -/
def FitsFlash (m : Mtd) (size : ℕ) : Prop :=
  ∀ n b g, pebcnt m size = some n → maxbadpeb m size = some b → mingoodped m size = some g →
    0 < g → ∃ c, lebcnt m size = some c ∧ 0 < c ∧ c ≤ g ∧
      c * lebsize m ≤ n * pebsize m - b * pebsize m

/-- The headers of the good erase blocks leave room, in the last erase block that they are
counted for, for less than a logical erase block. Where the headers are larger than an erase
block there is no logical erase block, and the count is the quotient of two negative numbers. -/
def HeadersFit (m : Mtd) (size : ℕ) : Prop :=
  0 < m.good size →
    (m.header < m.block ∧ m.good size * m.header % m.block + m.header < m.block) ∨
    (m.block < m.header ∧
      m.good size * m.header % m.block ≤ (m.good size - 1) * (m.header - m.block))

instance (m : Mtd) (size : ℕ) : Decidable (HeadersFit m size) :=
  inferInstanceAs (Decidable (_ → _))

/-! ## The count -/

section Count

variable {m : Mtd} {size : ℕ}

theorem pebsize_eq : pebsize m = m.block := by
  simp [pebsize, Mtd.block]

theorem lebsize_eq : lebsize m = (m.block : ℤ) - m.header := by
  unfold lebsize Mtd.header
  rw [pebsize_eq]
  split_ifs
  · rfl
  · push_cast
    ring

theorem bcDiv_natCast (a : ℕ) {b : ℕ} (hb : b ≠ 0) : bcDiv a b = some ((a / b : ℕ) : ℤ) := by
  have hb' : (b : ℤ) ≠ 0 := by exact_mod_cast hb
  rw [bcDiv, if_neg hb', Int.tdiv_eq_ediv_of_nonneg (Int.natCast_nonneg a)]
  simp

theorem tdiv_pos_iff {a d : ℤ} (hd : 0 < d) : 0 < a.tdiv d ↔ d ≤ a := by
  by_cases ha : 0 ≤ a
  · rw [Int.tdiv_eq_ediv_of_nonneg ha, ← Int.add_one_le_iff, zero_add,
      Int.le_ediv_iff_mul_le hd, one_mul]
  · have hneg : a.tdiv d ≤ 0 := by
      have := Int.tdiv_nonneg (a := -a) (b := d) (by omega) hd.le
      rw [Int.neg_tdiv] at this
      omega
    constructor <;> intro h <;> omega

/-- Without erase blocks of a size nothing is computed. -/
theorem pebcnt_eq : pebcnt m size = if m.block = 0 then none else some (m.blocks size : ℤ) := by
  have hfs : fssize size = ((size * 1024 * 1024 : ℕ) : ℤ) := by simp [fssize]
  rw [pebcnt, pebsize_eq, hfs]
  split_ifs with h
  · simp [bcDiv, h]
  · exact bcDiv_natCast _ h

variable (hblock : m.block ≠ 0)

include hblock

theorem maxbadpeb_eq : maxbadpeb m size = some ((m.blocks size / 100 + 4 : ℕ) : ℤ) := by
  have h := bcDiv_natCast (m.blocks size) (b := 100) (by decide)
  rw [maxbadpeb, pebcnt_eq, if_neg hblock, Option.bind_eq_bind, Option.bind_some,
    show (100 : ℤ) = ((100 : ℕ) : ℤ) from rfl, h]
  rfl

theorem mingoodped_eq :
    mingoodped m size = some ((m.blocks size : ℤ) - (m.blocks size / 100 + 4 : ℕ)) := by
  rw [mingoodped, pebcnt_eq, if_neg hblock, maxbadpeb_eq hblock]
  rfl

/-- The headers fill so many erase blocks, and the bytes that are left over count as data. -/
theorem availablepebcnt_mul (hgood : 0 < m.good size) : ∃ a, availablepebcnt m size = some a ∧
    a * m.block = m.good size * (m.block - m.header) + (m.good size * m.header % m.block : ℕ) := by
  have hg : ((m.blocks size : ℤ) - (m.blocks size / 100 + 4 : ℕ)) = m.good size := by
    unfold Mtd.good at hgood ⊢
    omega
  have hover : overhead m size = some (((m.blocks size / 100 + 4) * m.block +
      m.good size * m.header : ℕ) : ℤ) := by
    rw [overhead, maxbadpeb_eq hblock, mingoodped_eq hblock, pebsize_eq, lebsize_eq, hg]
    simp
  have hempty : emptypebcnt m size =
      some ((m.blocks size / 100 + 4 + m.good size * m.header / m.block : ℕ) : ℤ) := by
    rw [emptypebcnt, hover, pebsize_eq]
    refine (bcDiv_natCast _ hblock).trans ?_
    rw [Nat.add_comm, Nat.add_mul_div_right _ _ (Nat.pos_of_ne_zero hblock), Nat.add_comm]
  refine ⟨(m.good size : ℤ) - (m.good size * m.header / m.block : ℕ), ?_, ?_⟩
  · rw [availablepebcnt, pebcnt_eq, if_neg hblock, hempty, ← hg]
    simp only [Option.pure_def, Option.bind_eq_bind, Option.bind_some, Option.some.injEq]
    push_cast
    ring
  · have hdiv := Nat.div_add_mod (m.good size * m.header) m.block
    have hdiv' : (m.block : ℤ) * (m.good size * m.header / m.block : ℕ) +
        (m.good size * m.header % m.block : ℕ) = m.good size * m.header := by
      exact_mod_cast hdiv
    linarith

theorem lebcnt_eq (hgood : 0 < m.good size) : lebcnt m size =
    bcDiv (m.good size * ((m.block : ℤ) - m.header) + (m.good size * m.header % m.block : ℕ))
      ((m.block : ℤ) - m.header) := by
  obtain ⟨a, ha, hmul⟩ := availablepebcnt_mul hblock hgood
  rw [lebcnt, ha, pebsize_eq, lebsize_eq, ← hmul]
  rfl

/-- The count of the good erase blocks, and one more for each logical erase block that the
bytes of headers amount to that are not counted. -/
theorem lebcnt_of_lt (hgood : 0 < m.good size) (hlt : m.header < m.block) :
    lebcnt m size = some
      ((m.good size + m.good size * m.header % m.block / (m.block - m.header) : ℕ) : ℤ) := by
  have hleb : m.block - m.header ≠ 0 := by omega
  have hsub : ((m.block : ℤ) - m.header) = ((m.block - m.header : ℕ) : ℤ) := by omega
  have h := bcDiv_natCast
    (m.good size * (m.block - m.header) + m.good size * m.header % m.block) hleb
  rw [Nat.add_comm, Nat.add_mul_div_right _ _ (Nat.pos_of_ne_zero hleb),
    Nat.add_comm (_ / _)] at h
  rw [lebcnt_eq hblock hgood, hsub, ← h]
  push_cast
  rw [add_comm]

/-- With headers larger than an erase block a negative number is divided by a negative one. -/
theorem lebcnt_of_gt (hgood : 0 < m.good size) (hlt : m.block < m.header) :
    lebcnt m size = some ((m.good size * ((m.header : ℤ) - m.block) -
      (m.good size * m.header % m.block : ℕ)).tdiv (m.header - m.block)) := by
  have hne : ((m.block : ℤ) - m.header) ≠ 0 := by omega
  have hneg : ((m.block : ℤ) - m.header) = -((m.header : ℤ) - m.block) := by ring
  rw [lebcnt_eq hblock hgood, bcDiv, if_neg hne, hneg, Int.tdiv_neg, ← Int.neg_tdiv]
  congr 2
  ring

/-- When the count is right. The bytes of the logical erase blocks are those of the erase
blocks less the headers, whatever the count. -/
theorem count_iff (hgood : 0 < m.good size) :
    (∃ c, lebcnt m size = some c ∧ 0 < c ∧ c ≤ m.good size ∧
      c * lebsize m ≤ m.good size * m.block) ↔
    (m.header < m.block ∧ m.good size * m.header % m.block + m.header < m.block) ∨
    (m.block < m.header ∧
      m.good size * m.header % m.block ≤ (m.good size - 1) * (m.header - m.block)) := by
  rw [lebsize_eq]
  rcases Nat.lt_trichotomy m.header m.block with hlt | heq | hgt
  · -- the last erase block that the headers are counted for
    have hleb : 0 < m.block - m.header := by omega
    rw [lebcnt_of_lt hblock hgood hlt]
    constructor
    · rintro ⟨c, hc, -, hle, -⟩
      rw [Option.some.injEq] at hc
      have hzero : m.good size * m.header % m.block / (m.block - m.header) = 0 := by
        generalize m.good size * m.header % m.block / (m.block - m.header) = e at hc
        omega
      rw [Nat.div_eq_zero_iff] at hzero
      exact .inl ⟨hlt, by omega⟩
    · rintro (⟨-, h⟩ | ⟨h, -⟩)
      · have hzero : m.good size * m.header % m.block / (m.block - m.header) = 0 :=
          Nat.div_eq_of_lt (by omega)
        refine ⟨m.good size, by rw [hzero, Nat.add_zero], by omega, le_rfl, ?_⟩
        exact Int.mul_le_mul_of_nonneg_left (by omega) (by omega)
      · omega
  · -- no logical erase block at all
    have hnone : lebcnt m size = none := by rw [lebcnt_eq hblock hgood, bcDiv, if_pos (by omega)]
    simp [hnone, heq]
  · obtain ⟨d, hd⟩ : ∃ d : ℕ, m.header = m.block + d := ⟨m.header - m.block, by omega⟩
    obtain ⟨g, hg⟩ : ∃ g : ℕ, m.good size = g + 1 := ⟨m.good size - 1, by omega⟩
    set r := m.good size * m.header % m.block with hr
    have hd₀ : 0 < (d : ℤ) := by omega
    have hsub : ((m.header : ℤ) - m.block) = d := by omega
    rw [lebcnt_of_gt hblock hgood hgt, ← hr, hsub]
    have hpos : 0 < ((m.good size : ℤ) * d - r).tdiv d ↔ r ≤ g * d := by
      rw [tdiv_pos_iff hd₀, hg]
      zify
      constructor <;> intro h <;> linarith
    constructor
    · rintro ⟨c, hc, hc₀, -, -⟩
      rw [Option.some.injEq] at hc
      refine .inr ⟨hgt, ?_⟩
      rw [hg, Nat.add_sub_cancel, hd, Nat.add_sub_cancel_left]
      exact hpos.mp (by rwa [hc])
    · rintro (⟨h, -⟩ | ⟨-, h⟩)
      · omega
      · rw [hg, Nat.add_sub_cancel, hd, Nat.add_sub_cancel_left] at h
        have hc₀ := hpos.mpr h
        refine ⟨_, rfl, hc₀, ?_, ?_⟩
        · rw [Int.tdiv_eq_ediv_of_nonneg (hd₀.le.trans ((tdiv_pos_iff hd₀).mp hc₀))]
          exact Int.ediv_le_of_le_mul hd₀ (by omega)
        · have hneg : ((m.good size : ℤ) * d - r).tdiv d * ((m.block : ℤ) - m.header) ≤ 0 :=
            Int.mul_nonpos_of_nonneg_of_nonpos hc₀.le (by omega)
          exact hneg.trans (by positivity)

end Count

/-- The image fits the flash just in case the bytes of headers that are not counted do not
amount to a logical erase block. -/
theorem fitsFlash_iff (m : Mtd) (size : ℕ) : FitsFlash m size ↔ HeadersFit m size := by
  by_cases hblock : m.block = 0
  · have hgood : m.good size = 0 := by simp [Mtd.good, Mtd.blocks, hblock]
    refine ⟨fun _ h => by omega, fun _ n b g hn => ?_⟩
    rw [pebcnt_eq, if_pos hblock] at hn
    cases hn
  · have hmin := @mingoodped_eq m size hblock
    by_cases hgood : 0 < m.good size
    · have hg : ((m.blocks size : ℤ) - (m.blocks size / 100 + 4 : ℕ)) = m.good size := by
        unfold Mtd.good at hgood ⊢
        omega
      have hlast := count_iff hblock hgood
      constructor
      · intro h _
        refine hlast.mp ?_
        obtain ⟨c, hc, hpos, hle, hmul⟩ := h _ _ _ (by rw [pebcnt_eq, if_neg hblock])
          (maxbadpeb_eq hblock) hmin (by omega)
        refine ⟨c, hc, hpos, by omega, ?_⟩
        rwa [← sub_mul, hg, pebsize_eq] at hmul
      · intro h n b g hn hb hg' _
        obtain ⟨c, hc, hpos, hle, hmul⟩ := hlast.mpr (h hgood)
        rw [pebcnt_eq, if_neg hblock, Option.some.injEq] at hn
        rw [maxbadpeb_eq hblock, Option.some.injEq] at hb
        rw [hmin, Option.some.injEq] at hg'
        refine ⟨c, hc, hpos, by omega, ?_⟩
        rwa [← hn, ← hb, ← sub_mul, hg, pebsize_eq]
    · refine ⟨fun _ h => absurd h hgood, fun _ n b g _ _ hg hpos => ?_⟩
      rw [hmin, Option.some.injEq] at hg
      unfold Mtd.good at hgood
      omega

/-- Of the 520 erase blocks of 65 MiB nine are set aside, and 512 are to be used. -/
theorem not_fitsFlash : ¬FitsFlash ⟨2048, some 512, 128⟩ 65 := fun h => by
  obtain ⟨c, hc, -, hle, -⟩ := h 520 9 511 (by decide) (by decide) (by decide) (by decide)
  rw [show lebcnt ⟨2048, some 512, 128⟩ 65 = some 512 by decide, Option.some.injEq] at hc
  omega

end Makeroot
