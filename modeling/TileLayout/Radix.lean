import TileLayout.Box
/-!
# Mixed radix

`FragmentNode::Repeat` numbers the repeated tiles with a mixed-radix index built by a stride
loop (`index += stride * digit; stride *= radix`), and `LoopPartitioner::Partition` flattens a
loop nest with a Horner loop (`flat = flat * extent + var`).  Both denote the same number, the
mixed-radix value of a digit list, and every bijectivity argument about them reduces to the two
facts here: the value of in-range digits lies in `[0, Π radix)`, and it determines the digits.
-/

namespace TileLayout

/-- `Σ_j q_j * Π_{j' < j} f_{j'}` for digit/radix pairs `(q_j, f_j)`, the first varying fastest. -/
def mixedRadix : List (Int × Int) → Int
  | [] => 0
  | (q, f) :: rest => q + f * mixedRadix rest

/-- Every digit lies in `[0, radix)`. -/
def DigitsIn (l : List (Int × Int)) : Prop := ∀ p ∈ l, 0 ≤ p.1 ∧ p.1 < p.2

@[simp] theorem digitsIn_nil : DigitsIn [] := by simp [DigitsIn]

@[simp] theorem digitsIn_cons {q f : Int} {l : List (Int × Int)} :
    DigitsIn ((q, f) :: l) ↔ (0 ≤ q ∧ q < f) ∧ DigitsIn l := by
  simp [DigitsIn]

/-- One digit in `[0, f)` over a number in `[0, c)`: the value `q + f * a` lies in `[0, f * c)`. -/
theorem add_mul_bounds {q f a c : Int} (hq : 0 ≤ q ∧ q < f) (ha : 0 ≤ a ∧ a < c) :
    0 ≤ q + f * a ∧ q + f * a < f * c := by
  have hstep : f * a + f ≤ f * c := by
    have := Int.mul_le_mul_of_nonneg_left (show a + 1 ≤ c by omega) (show 0 ≤ f by omega)
    rwa [Int.mul_add, Int.mul_one] at this
  exact ⟨Int.add_nonneg hq.1 (Int.mul_nonneg (by omega) ha.1), by omega⟩

/-- A digit in `[0, f)` and the number above it are determined by `q + f * a`. -/
theorem eq_of_add_mul_eq {q q' f a a' : Int} (hq : 0 ≤ q ∧ q < f) (hq' : 0 ≤ q' ∧ q' < f)
    (h : q + f * a = q' + f * a') : q = q' ∧ a = a' := by
  have hqq : q = q' := by
    have := congrArg (· % f) h
    simpa [Int.emod_eq_of_lt hq.1 hq.2, Int.emod_eq_of_lt hq'.1 hq'.2] using this
  subst hqq
  exact ⟨rfl, Int.eq_of_mul_eq_mul_left (by omega) (add_left_cancel h)⟩

theorem emod_mem (a : Int) {d : Int} (hd : 0 < d) : 0 ≤ a % d ∧ a % d < d :=
  ⟨Int.emod_nonneg a hd.ne', Int.emod_lt_of_pos a hd⟩

theorem eq_of_ediv_emod_eq {j j' d : Int} (hq : j / d = j' / d) (hr : j % d = j' % d) : j = j' := by
  rw [← Int.ediv_add_emod j d, ← Int.ediv_add_emod j' d, hq, hr]

theorem mixedRadix_bounds {l : List (Int × Int)} (h : DigitsIn l) :
    0 ≤ mixedRadix l ∧ mixedRadix l < (l.map Prod.snd).prod := by
  induction l with
  | nil => exact ⟨Int.le_refl 0, Int.one_pos⟩
  | cons p l ih =>
      obtain ⟨q, f⟩ := p
      obtain ⟨hq, hl⟩ := digitsIn_cons.1 h
      simp only [mixedRadix, List.map_cons, List.prod_cons]
      exact add_mul_bounds hq (ih hl)

/-- In-range digits over the same radices are determined by their mixed-radix value. -/
theorem mixedRadix_inj {l l' : List (Int × Int)} (h : DigitsIn l) (h' : DigitsIn l')
    (hf : l.map Prod.snd = l'.map Prod.snd) (heq : mixedRadix l = mixedRadix l') : l = l' := by
  induction l generalizing l' with
  | nil => cases l' <;> simp_all
  | cons p l ih =>
      cases l' with
      | nil => simp at hf
      | cons p' l' =>
          obtain ⟨q, f⟩ := p
          obtain ⟨q', f'⟩ := p'
          simp only [List.map_cons, List.cons.injEq] at hf
          obtain ⟨rfl, hf⟩ := hf
          obtain ⟨hq, hl⟩ := digitsIn_cons.1 h
          obtain ⟨hq', hl'⟩ := digitsIn_cons.1 h'
          obtain ⟨rfl, hrest⟩ := eq_of_add_mul_eq hq hq' heq
          rw [ih hl hl' hf hrest]

/-- Reading the digits of a box point in a given order of its coordinates. -/
def digitsAt (order : List Nat) (q f : List Int) : List (Int × Int) :=
  order.map fun i => (q.getD i 0, f.getD i 0)

theorem digitsIn_digitsAt {order : List Nat} {q f : List Int} (hq : InBox (shapeBox f) q)
    (horder : ∀ i ∈ order, i < f.length) : DigitsIn (digitsAt order q f) := by
  rw [inBox_shapeBox_iff] at hq
  intro p hp
  obtain ⟨i, hi, rfl⟩ := List.mem_map.1 hp
  have hif := horder i hi
  have hiq : i < q.length := hq.1 ▸ hif
  simpa [List.getD_eq_getElem?_getD, List.getElem?_eq_getElem hif,
    List.getElem?_eq_getElem hiq] using hq.2 i hiq hif

/-- Over an order that visits every coordinate, the mixed-radix value of a box point
determines the point. -/
theorem eq_of_mixedRadix_digitsAt_eq {order : List Nat} {q q' f : List Int}
    (hq : InBox (shapeBox f) q) (hq' : InBox (shapeBox f) q')
    (horder : ∀ i, i ∈ order ↔ i < f.length)
    (heq : mixedRadix (digitsAt order q f) = mixedRadix (digitsAt order q' f)) : q = q' := by
  have hlen := (inBox_shapeBox_iff.1 hq).1
  have hlen' := (inBox_shapeBox_iff.1 hq').1
  have hd := mixedRadix_inj (digitsIn_digitsAt hq fun i hi => (horder i).1 hi)
    (digitsIn_digitsAt hq' fun i hi => (horder i).1 hi) (by simp [digitsAt]) heq
  refine List.ext_getElem (hlen.trans hlen'.symm) fun i h₁ h₂ => ?_
  have hi : i ∈ order := (horder i).2 (hlen ▸ h₁)
  have := congrArg (fun l : List (Int × Int) => (l.map Prod.fst)) hd
  simp only [digitsAt, List.map_map] at this
  have hpt := List.map_inj_left.1 this i hi
  simpa [List.getD_eq_getElem?_getD, List.getElem?_eq_getElem h₁,
    List.getElem?_eq_getElem h₂] using hpt

end TileLayout
