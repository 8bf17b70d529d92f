import TileLayout.Swizzle
import TileLayout.Flatten
/-!
# Bank groups of the swizzled operand tiles

Shared memory serves an access of `128` bits from one of eight groups of banks: the element at
flattened offset `o` (`GetFlattenedIndice`) lies in the vector `o / vs` of `vs = 128 /
element_size` elements, and in the group `(o / vs) % 8`.  The bank swizzles of
`makeGemmABLayout` put the eight rows of a row group, read at one column, in eight different
groups (`makeGemmABLayout_bankGroups_distinct`), and `makeGemmABLayout` returns one exactly when
the rows come in whole groups of `8`: the full-bank swizzle XORs the vector's place with the row,
the half-bank one XORs it with the pair of rows and the row's parity picks the half.
-/

namespace TileLayout

/-- The group of a flattened offset in a swizzled tile with `8` rows in a row group and vectors
in groups of `g`: the higher outputs are multiples of `8` vectors, so only the place in the tile
counts. -/
theorem rowMajorOffset_bankGroup {vs g K M X i j : Int} (hvs : 0 < vs) :
    rowMajorOffset [K, M, vs * (g * 8)] [j / vs / g, i / 8, j % vs + vs * (X + g * (i % 8))] / vs % 8 =
      (X + g * (i % 8)) % 8 := by
  have h : rowMajorOffset [K, M, vs * (g * 8)] [j / vs / g, i / 8, j % vs + vs * (X + g * (i % 8))] =
      j % vs + vs * (X + g * (i % 8) + 8 * (g * (i / 8) + g * M * (j / vs / g))) := by
    simp only [rowMajorOffset_cons, rowMajorOffset_nil, List.prod_cons, List.prod_nil]
    ring
  rw [h, Int.add_mul_ediv_left _ _ hvs.ne', Int.ediv_eq_zero_of_lt (Int.emod_nonneg _ hvs.ne')
    (Int.emod_lt_of_pos _ hvs), zero_add, Int.add_mul_emod_self_left]

section Swizzle

variable {l : Layout} {vs g K M : Int} (X : Int → Int → Int)

/-- A swizzled tile layout with output shape `[K, M, vs * (g * 8)]` flattens to an offset whose
group at row `i` and column `j` is that of the place `X c (i % 8) + g * (i % 8)` in the tile. -/
theorem bankGroup_of_swizzle (hvs : 0 < vs) (hS : l.outputShape = .ok [K, M, vs * (g * 8)])
    (happ : ∀ i j, l.apply [i, j] =
      [j / vs / g, i / 8, j % vs + vs * (X (j / vs % g) (i % 8) + g * (i % 8))]) :
    ∃ e, l.getFlattenedIndice = .ok e ∧
      ∀ i j, e.valueAt [i, j] / vs % 8 = (X (j / vs % g) (i % 8) + g * (i % 8)) % 8 := by
  obtain ⟨e, he, hval⟩ := valueAt_getFlattenedIndice hS
  exact ⟨e, he, fun i j => by rw [hval, happ, rowMajorOffset_bankGroup hvs]⟩

/-- When any two rows `s ≠ s'` of a row group have their places `X c s + g * s` in different
groups, the eight rows `8 r + s` read at one column lie in eight different groups. -/
theorem bankGroups_distinct_of_swizzle (hvs : 0 < vs) (hg : 0 < g)
    (hS : l.outputShape = .ok [K, M, vs * (g * 8)])
    (happ : ∀ i j, l.apply [i, j] =
      [j / vs / g, i / 8, j % vs + vs * (X (j / vs % g) (i % 8) + g * (i % 8))])
    (hne : ∀ c s s', 0 ≤ c ∧ c < g → 0 ≤ s ∧ s < 8 → 0 ≤ s' ∧ s' < 8 → s ≠ s' →
      (X c s + g * s) % 8 ≠ (X c s' + g * s') % 8) :
    ∃ e, l.getFlattenedIndice = .ok e ∧ ∀ j r s s', 0 ≤ s → s < 8 → 0 ≤ s' → s' < 8 → s ≠ s' →
      e.valueAt [8 * r + s, j] / vs % 8 ≠ e.valueAt [8 * r + s', j] / vs % 8 := by
  obtain ⟨e, he, hgrp⟩ := bankGroup_of_swizzle X hvs hS happ
  refine ⟨e, he, fun j r s s' hs0 hs8 hs0' hs8' hss => ?_⟩
  rw [hgrp, hgrp, show (8 * r + s) % 8 = s by omega, show (8 * r + s') % 8 = s' by omega]
  exact hne _ s s' (emod_mem _ hg) ⟨hs0, hs8⟩ ⟨hs0', hs8'⟩ hss

end Swizzle

/-- Full bank: the place `c ∈ [0, 8)` XORed with the row `s` picks the group. -/
theorem fullBank_groups_ne {c s s' : Int} (hc : 0 ≤ c ∧ c < 8) (hs : 0 ≤ s ∧ s < 8)
    (hs' : 0 ≤ s' ∧ s' < 8) (hne : s ≠ s') :
    ((c.toNat ^^^ s.toNat : Nat) + 8 * s) % 8 ≠ ((c.toNat ^^^ s'.toNat : Nat) + 8 * s') % 8 := by
  have hx := xor_lt_two_pow (show c < 2 ^ 3 by omega) (show s < 2 ^ 3 by omega)
  have hx' := xor_lt_two_pow (show c < 2 ^ 3 by omega) (show s' < 2 ^ 3 by omega)
  rw [Int.add_mul_emod_self_left, Int.add_mul_emod_self_left,
    Int.emod_eq_of_lt (Int.natCast_nonneg _) (lt_of_lt_of_eq hx (by decide)),
    Int.emod_eq_of_lt (Int.natCast_nonneg _) (lt_of_lt_of_eq hx' (by decide))]
  intro h
  have := Nat.xor_right_injective (Nat.cast_injective h)
  omega

/-- Half bank: the place `c ∈ [0, 4)` XORed with the pair `s / 2` picks the group within a half,
and the parity of `s` the half. -/
theorem halfBank_groups_ne {c s s' : Int} (hc : 0 ≤ c ∧ c < 4) (hs : 0 ≤ s ∧ s < 8)
    (hs' : 0 ≤ s' ∧ s' < 8) (hne : s ≠ s') :
    ((c.toNat ^^^ (s / 2).toNat : Nat) + 4 * s) % 8 ≠
      ((c.toNat ^^^ (s' / 2).toNat : Nat) + 4 * s') % 8 := by
  have hx := xor_lt_two_pow (show c < 2 ^ 2 by omega) (show s / 2 < 2 ^ 2 by omega)
  have hx' := xor_lt_two_pow (show c < 2 ^ 2 by omega) (show s' / 2 < 2 ^ 2 by omega)
  intro h
  have hxx : ((c.toNat ^^^ (s / 2).toNat : Nat) : Int) = ((c.toNat ^^^ (s' / 2).toNat : Nat) : Int) := by
    omega
  have := Nat.xor_right_injective (Nat.cast_injective hxx)
  omega

section Factories

variable {stride continuous elementSize : Int} {l : Layout}

/-- The full-bank layout puts the eight rows of a row group, read at one column, in eight
different groups. -/
theorem makeGemmABLayoutFullBank_bankGroups_distinct (hvs : 0 < (128 : Int).tdiv elementSize)
    (hs : 0 < stride) (hc : 0 < continuous)
    (h : makeGemmABLayoutFullBank stride continuous elementSize = .ok l) :
    ∃ e, l.getFlattenedIndice = .ok e ∧ ∀ j r s s', 0 ≤ s → s < 8 → 0 ≤ s' → s' < 8 → s ≠ s' →
      e.valueAt [8 * r + s, j] / (128 : Int).tdiv elementSize % 8 ≠
        e.valueAt [8 * r + s', j] / (128 : Int).tdiv elementSize % 8 :=
  bankGroups_distinct_of_swizzle (fun c s => ((c.toNat ^^^ s.toNat : Nat) : Int)) hvs (by decide)
    ((makeGemmABLayoutFullBank_valid hvs hs hc h).2.trans (by rw [show (128 : Int).tdiv elementSize * 64 =
      (128 : Int).tdiv elementSize * (8 * 8) from rfl])) (makeGemmABLayoutFullBank_eq_ok hvs h).2.2.2
    fun _ _ _ hc hs hs' hne => fullBank_groups_ne hc hs hs' hne

/-- The half-bank layout puts the eight rows of a row group, read at one column, in eight
different groups. -/
theorem makeGemmABLayoutHalfBank_bankGroups_distinct (hvs : 0 < (128 : Int).tdiv elementSize)
    (hs : 0 < stride) (hc : 0 < continuous)
    (h : makeGemmABLayoutHalfBank stride continuous elementSize = .ok l) :
    ∃ e, l.getFlattenedIndice = .ok e ∧ ∀ j r s s', 0 ≤ s → s < 8 → 0 ≤ s' → s' < 8 → s ≠ s' →
      e.valueAt [8 * r + s, j] / (128 : Int).tdiv elementSize % 8 ≠
        e.valueAt [8 * r + s', j] / (128 : Int).tdiv elementSize % 8 :=
  bankGroups_distinct_of_swizzle (fun c s => ((c.toNat ^^^ (s / 2).toNat : Nat) : Int)) hvs
    (by decide) ((makeGemmABLayoutHalfBank_valid hvs hs hc h).2.trans (by
      rw [show (128 : Int).tdiv elementSize * 32 = (128 : Int).tdiv elementSize * (4 * 8) from rfl]))
    (makeGemmABLayoutHalfBank_eq_ok hvs h).2.2.2
    fun _ _ _ hc hs hs' hne => halfBank_groups_ne hc hs hs' hne

end Factories

/-- When `makeGemmABLayout` picks a bank swizzle, it returns exactly when the rows come in whole
groups of `8`, and in the layout it returns the eight rows `8 r, …, 8 r + 7` of a row group, read
at one column `j`, have their flattened offsets in eight different groups of banks. -/
theorem makeGemmABLayout_bankGroups_distinct {stride continuous elementSize kfactor : Int}
    (hs : 0 < stride) (hc : 0 < continuous)
    (hes : elementSize = 8 ∨ elementSize = 16 ∨ elementSize = 32)
    (hk : ¬ (kfactor = 1 ∧ elementSize = 8)) (hbank : continuous % (128 / elementSize * 4) = 0) :
    ((∃ l, makeGemmABLayout stride continuous elementSize kfactor = .ok l) ↔ stride % 8 = 0) ∧
    ∀ l, makeGemmABLayout stride continuous elementSize kfactor = .ok l →
      ∃ e, l.getFlattenedIndice = .ok e ∧ ∀ j r s s', 0 ≤ j → j < continuous → 0 ≤ r →
        8 * r + 7 < stride → 0 ≤ s → s < 8 → 0 ≤ s' → s' < 8 → s ≠ s' →
          e.valueAt [8 * r + s, j] / (128 / elementSize) % 8 ≠
            e.valueAt [8 * r + s', j] / (128 / elementSize) % 8 := by
  have hvs : 0 < (128 : Int).tdiv elementSize := by rcases hes with rfl | rfl | rfl <;> decide
  have hdiv : (128 : Int) / elementSize = (128 : Int).tdiv elementSize :=
    (Int.tdiv_eq_ediv (by decide) (by omega)).symm
  have h8 : stride.tmod 8 = stride % 8 := Int.tmod_eq_emod hs.le (by decide)
  have hmod : ∀ m : Int, 0 < m → continuous.tmod ((128 : Int).tdiv elementSize * m) =
      continuous % ((128 : Int).tdiv elementSize * m) := fun m hm =>
    Int.tmod_eq_emod hc.le (Int.mul_nonneg hvs.le hm.le)
  rw [makeGemmABLayout_eq_bank hc hes hk hbank, hdiv]
  rw [hdiv] at hbank
  split_ifs with hfull
  · refine ⟨by rw [makeGemmABLayoutFullBank_ok_iff, h8, hmod 8 (by decide), hfull, and_iff_left rfl], ?_⟩
    intro l h
    obtain ⟨e, he, hd⟩ := makeGemmABLayoutFullBank_bankGroups_distinct hvs hs hc h
    exact ⟨e, he, fun j r s s' _ _ _ _ => hd j r s s'⟩
  · refine ⟨by rw [makeGemmABLayoutHalfBank_ok_iff, h8, hmod 4 (by decide), hbank, and_iff_left rfl], ?_⟩
    intro l h
    obtain ⟨e, he, hd⟩ := makeGemmABLayoutHalfBank_bankGroups_distinct hvs hs hc h
    exact ⟨e, he, fun j r s s' _ _ _ _ => hd j r s s'⟩

/-- Half-precision `A` tiles: `16 × 64` takes the full-bank swizzle and `8 × 32` the half-bank one;
both return, and in both the eight rows of a row group lie in eight groups. -/
theorem makeGemmABLayout_bankGroups_distinct_fp16 :
    (∃ l, makeGemmABLayout 16 64 16 2 = .ok l ∧ ∃ e, l.getFlattenedIndice = .ok e ∧
      ∀ j r s s', 0 ≤ j → j < 64 → 0 ≤ r → 8 * r + 7 < 16 → 0 ≤ s → s < 8 → 0 ≤ s' → s' < 8 →
        s ≠ s' → e.valueAt [8 * r + s, j] / (128 / 16) % 8 ≠ e.valueAt [8 * r + s', j] / (128 / 16) % 8) ∧
    (∃ l, makeGemmABLayout 8 32 16 2 = .ok l ∧ ∃ e, l.getFlattenedIndice = .ok e ∧
      ∀ j r s s', 0 ≤ j → j < 32 → 0 ≤ r → 8 * r + 7 < 8 → 0 ≤ s → s < 8 → 0 ≤ s' → s' < 8 →
        s ≠ s' → e.valueAt [8 * r + s, j] / (128 / 16) % 8 ≠ e.valueAt [8 * r + s', j] / (128 / 16) % 8) := by
  have hfull := @makeGemmABLayout_bankGroups_distinct 16 64 16 2 (by decide) (by decide) (by decide)
    (by decide) (by decide)
  have hhalf := @makeGemmABLayout_bankGroups_distinct 8 32 16 2 (by decide) (by decide) (by decide)
    (by decide) (by decide)
  obtain ⟨l, hl⟩ := hfull.1.2 (by decide)
  obtain ⟨l', hl'⟩ := hhalf.1.2 (by decide)
  exact ⟨⟨l, hl, hfull.2 l hl⟩, ⟨l', hl', hhalf.2 l' hl'⟩⟩

end TileLayout
