import TileLayout.Valid
import Mathlib.Algebra.Order.BigOperators.GroupWithZero.List
import Mathlib.Algebra.Order.Ring.Int
import Mathlib.Tactic.LinearCombination
/-!
# Repeat and Replicate preserve validity

Every GEMM register fragment is grown from the `8x8` base by `Repeat` and `Replicate`.  Each
growth step keeps the fragment a bijection onto its slot box, and changes the extents as
follows.
* `Repeat` on the thread multiplies `ThreadExtent()` by the tile count.
* `Repeat` on the index multiplies the single register extent by the tile count.
* `Replicate` multiplies both the replica extent and the thread extent.

The three proofs follow one pattern.  The new map sends a point to the old map at a point of
the old box, plus an offset that is the old extent times a tile number.  `add_mul_bounds`
bounds that sum, and `eq_of_add_mul_eq` splits it back into the old slot and the tile.
-/

namespace TileLayout

namespace Fragment

variable {F : Fragment} {L : List Int} {T : Int}

theorem length_of_inBox_repeatRanges {c x : List Int} (hc : c.length = F.inputDim)
    (hx : InBox (repeatRanges F.forwardVar c) x) : x.length = F.inputDim := by
  simpa [hc, inputDim] using hx.length_eq

/-- A point of a repeated box: its remainder point lies in the original box, and its tile
digits lie in `Prod [0, repeats)`. -/
theorem inBox_split (hF : F.Valid) (hT : F.threadExtent = .ok T) {c x : List Int}
    (hc : c.length = F.inputDim) (hx : InBox (repeatRanges F.forwardVar c) x) :
    InBox F.forwardVar (modPoint x F.inputShape) ∧ InBox (shapeBox c) (divPoint x F.inputShape) :=
  inBox_repeatRanges hF.min_forwardVar (extent_pos_forwardVar hT) hc hx

theorem min_repeat_boundVars (hF : F.Valid) (c : List Int) :
    ∀ r ∈ repeatRanges F.forwardVar c ++ [F.threadReplicate], r.min = 0 := by
  simpa [or_imp, forall_and] using ⟨min_repeatRanges hF.min_forwardVar, hF.min_threadReplicate⟩

theorem extent_repeat_boundVars_nonneg (hF : F.Valid) (hT : F.threadExtent = .ok T) {c : List Int}
    (hcpos : ∀ ci ∈ c, 0 < ci) :
    ∀ r ∈ repeatRanges F.forwardVar c ++ [F.threadReplicate], 0 ≤ r.extent := by
  have h := extent_repeatRanges_pos hF.min_forwardVar (extent_pos_forwardVar hT) hcpos
  simp only [List.mem_append, List.mem_singleton]
  rintro r (hr | rfl)
  · exact (h r hr).le
  · exact (replicateExtent_pos hT).le

/-- The volume of a repeated box: the original volume times the tile count. -/
theorem prod_repeat_boundVars (hF : F.Valid) {c : List Int} (hc : c.length = F.inputDim) :
    ((repeatRanges F.forwardVar c ++ [F.threadReplicate]).map Range.extent).prod =
      (F.boundVars.map Range.extent).prod * c.prod := by
  simp only [List.map_append, List.prod_append, prod_repeatRanges hF.min_forwardVar hc, boundVars]
  ring

section Repeat

variable {c : List Int} (ldf : Bool)

/-- `Repeat(c, true, ldf)` of a valid fragment is valid, with the same `OutputShape()` and
`ThreadExtent()` multiplied by `Π c`. -/
theorem valid_repeatOnThread (hF : F.Valid) (hL : F.outputShape = .ok L)
    (hT : F.threadExtent = .ok T) (hc : c.length = F.inputDim) (hcpos : ∀ ci ∈ c, 0 < ci) :
    (F.repeatOnThread c ldf T).Valid ∧ (F.repeatOnThread c ldf T).outputShape = .ok L ∧
      (F.repeatOnThread c ldf T).threadExtent = .ok (T * c.prod) := by
  have hdim : (F.repeatOnThread c ldf T).inputDim = F.inputDim := by
    simp [repeatOnThread, inputDim, hc]
  refine valid_of_bijOn (min_repeat_boundVars hF c) ?free (Valid.outputShape_pos hL)
    (Int.mul_pos (Valid.threadExtent_pos hT) (List.prod_pos hcpos)) (bijOn_of_injOn ?maps ?inj ?card)
  case free =>
    intro x hx r r'
    rw [hdim] at hx
    rw [indexAt_repeatOnThread _ _ _ _ _ hx, indexAt_repeatOnThread _ _ _ _ _ hx]
    exact hF.2 _ (by simp [hx]) r r'
  case maps =>
    intro p hp
    obtain ⟨x, r, rfl, hx, hr⟩ := inBox_append_singleton.1 hp
    have hxl := length_of_inBox_repeatRanges hc hx
    obtain ⟨hx', hq⟩ := inBox_split hF hT hc hx
    obtain ⟨hi, ht⟩ := hF.slot_mem hL hT hx' hr
    show InBox _ _
    rw [fullLayout_apply, indexAt_repeatOnThread _ _ _ _ _ hxl,
      threadAt_repeatOnThread _ _ _ _ _ hxl, inBox_shapeBox_append_singleton
        (by simp [indexAt, length_outputShape hL, outputDim])]
    exact ⟨hi, add_mul_bounds ht (tileIndex_bounds ldf hc hq)⟩
  case inj =>
    intro p hp p' hp' h
    obtain ⟨x, r, rfl, hx, hr⟩ := inBox_append_singleton.1 hp
    obtain ⟨y, s, rfl, hy, hs⟩ := inBox_append_singleton.1 hp'
    have hxl := length_of_inBox_repeatRanges hc hx
    have hyl := length_of_inBox_repeatRanges hc hy
    obtain ⟨hx', hqx⟩ := inBox_split hF hT hc hx
    obtain ⟨hy', hqy⟩ := inBox_split hF hT hc hy
    rw [fullLayout_apply, fullLayout_apply, indexAt_repeatOnThread _ _ _ _ _ hxl,
      indexAt_repeatOnThread _ _ _ _ _ hyl, threadAt_repeatOnThread _ _ _ _ _ hxl,
      threadAt_repeatOnThread _ _ _ _ _ hyl] at h
    obtain ⟨hi, ht⟩ := List.append_inj' h rfl
    obtain ⟨ht, htile⟩ := eq_of_add_mul_eq (hF.slot_mem hL hT hx' hr).2
      (hF.slot_mem hL hT hy' hs).2 (List.singleton_inj.1 ht)
    obtain ⟨hm, rfl⟩ := hF.eq_of_slot_eq hL hT hx' hr hy' hs hi ht
    rw [eq_of_modPoint_divPoint (by simp [hxl]) (by simp [hyl]) hm
      (divPoint_eq_of_tileIndex_eq hc hqx hqy htile)]
  case card =>
    refine boxCard_shapeBox_le ?_ (extent_repeat_boundVars_nonneg hF hT hcpos) ?_
    · simpa [or_imp, forall_and] using ⟨fun s hs => (Valid.outputShape_pos hL s hs).le,
        (Int.mul_pos (Valid.threadExtent_pos hT) (List.prod_pos hcpos)).le⟩
    · show _ = ((repeatRanges F.forwardVar c ++ [F.threadReplicate]).map Range.extent).prod
      rw [prod_repeat_boundVars hF hc, hF.volume_eq hL hT, List.prod_append, List.prod_singleton]
      ring

theorem forwardIndex_eq_singleton {l : Int} (hL : F.outputShape = .ok [l]) :
    ∃ e, F.forwardIndex = [e] :=
  List.length_eq_one.1 (by simpa [outputDim] using (length_outputShape hL).symm)

/-- `Repeat(c, false, ldf)` of a valid fragment with one index of extent `l` is valid, with index
extent `l * Π c` and the same `ThreadExtent()`. -/
theorem valid_repeatOnIndex (hF : F.Valid) {l : Int} (hL : F.outputShape = .ok [l])
    (hT : F.threadExtent = .ok T) (hc : c.length = F.inputDim) (hcpos : ∀ ci ∈ c, 0 < ci) :
    (F.repeatOnIndex c ldf l).Valid ∧ (F.repeatOnIndex c ldf l).outputShape = .ok [l * c.prod] ∧
      (F.repeatOnIndex c ldf l).threadExtent = .ok T := by
  obtain ⟨e, he⟩ := forwardIndex_eq_singleton hL
  have hidxF : ∀ y r, F.indexAt y r = [e.valueAt (y ++ [r])] := fun y r => by simp [indexAt, he]
  have hidx : ∀ x r, x.length = F.inputDim → (F.repeatOnIndex c ldf l).indexAt x r =
      [e.valueAt (modPoint x F.inputShape ++ [r]) + l * F.tileIndex c ldf x] := by
    intro x r hx
    rw [indexAt_repeatOnIndex _ _ _ _ _ hx, he]
    rfl
  have hbound : ∀ y r, InBox F.forwardVar y → F.threadReplicate.Contains r →
      0 ≤ e.valueAt (y ++ [r]) ∧ e.valueAt (y ++ [r]) < l := fun y r hy hr => by
    simpa [hidxF] using (hF.slot_mem hL hT hy hr).1
  have hdim : (F.repeatOnIndex c ldf l).inputDim = F.inputDim := by
    simp [repeatOnIndex, inputDim, hc]
  have hlpos : 0 < l := Valid.outputShape_pos hL l (List.mem_singleton_self _)
  refine valid_of_bijOn (min_repeat_boundVars hF c) ?free
    (by simpa using Int.mul_pos hlpos (List.prod_pos hcpos)) (Valid.threadExtent_pos hT)
    (bijOn_of_injOn ?maps ?inj ?card)
  case free =>
    intro x hx r r'
    rw [hdim] at hx
    have h := hF.2 _ (by simp [hx] : (modPoint x F.inputShape).length = F.inputDim) r r'
    rw [hidxF, hidxF, List.singleton_inj] at h
    rw [hidx x r hx, hidx x r' hx, h]
  case maps =>
    intro p hp
    obtain ⟨x, r, rfl, hx, hr⟩ := inBox_append_singleton.1 hp
    have hxl := length_of_inBox_repeatRanges hc hx
    obtain ⟨hx', hq⟩ := inBox_split hF hT hc hx
    show InBox _ _
    rw [fullLayout_apply, hidx x r hxl, threadAt_repeatOnIndex _ _ _ _ _ hxl,
      inBox_shapeBox_append_singleton (by simp), inBox_shapeBox_singleton]
    exact ⟨add_mul_bounds (hbound _ _ hx' hr) (tileIndex_bounds ldf hc hq),
      (hF.slot_mem hL hT hx' hr).2⟩
  case inj =>
    intro p hp p' hp' h
    obtain ⟨x, r, rfl, hx, hr⟩ := inBox_append_singleton.1 hp
    obtain ⟨y, s, rfl, hy, hs⟩ := inBox_append_singleton.1 hp'
    have hxl := length_of_inBox_repeatRanges hc hx
    have hyl := length_of_inBox_repeatRanges hc hy
    obtain ⟨hx', hqx⟩ := inBox_split hF hT hc hx
    obtain ⟨hy', hqy⟩ := inBox_split hF hT hc hy
    rw [fullLayout_apply, fullLayout_apply, hidx x r hxl, hidx y s hyl,
      threadAt_repeatOnIndex _ _ _ _ _ hxl, threadAt_repeatOnIndex _ _ _ _ _ hyl] at h
    obtain ⟨hi, ht⟩ := List.append_inj' h rfl
    obtain ⟨hi, htile⟩ := eq_of_add_mul_eq (hbound _ _ hx' hr) (hbound _ _ hy' hs)
      (List.singleton_inj.1 hi)
    obtain ⟨hm, rfl⟩ := hF.eq_of_slot_eq hL hT hx' hr hy' hs (by rw [hidxF, hidxF, hi])
      (List.singleton_inj.1 ht)
    rw [eq_of_modPoint_divPoint (by simp [hxl]) (by simp [hyl]) hm
      (divPoint_eq_of_tileIndex_eq hc hqx hqy htile)]
  case card =>
    refine boxCard_shapeBox_le ?_ (extent_repeat_boundVars_nonneg hF hT hcpos) ?_
    · simpa using ⟨(Int.mul_pos hlpos (List.prod_pos hcpos)).le, (Valid.threadExtent_pos hT).le⟩
    · show _ = ((repeatRanges F.forwardVar c ++ [F.threadReplicate]).map Range.extent).prod
      rw [prod_repeat_boundVars hF hc, hF.volume_eq hL hT]
      simp only [List.singleton_append, List.prod_cons, List.prod_singleton]
      ring

end Repeat

/-- A replica of the grown domain `[0, R * n)`: its remainder is a replica of the original
domain and its quotient a block number in `[0, n)`. -/
theorem replica_split (hF : F.Valid) (hT : F.threadExtent = .ok T) {n r : Int}
    (hr : (Range.ofExtent (F.replicateExtent * n)).Contains r) :
    F.threadReplicate.Contains (Int.fmod r F.replicateExtent) ∧
      0 ≤ Int.fdiv r F.replicateExtent ∧ Int.fdiv r F.replicateExtent < n := by
  have hR := replicateExtent_pos hT
  rw [contains_ofExtent] at hr
  refine ⟨?_, ?_⟩
  · simp only [Range.Contains, hF.min_threadReplicate, zero_add]
    exact ⟨Int.fmod_nonneg' _ hR, Int.fmod_lt_of_pos _ hR⟩
  · rw [Int.fdiv_eq_ediv _ hR.le]
    exact ⟨Int.ediv_nonneg hr.1 hR.le, Int.ediv_lt_of_lt_mul hR (by rw [mul_comm]; exact hr.2)⟩

/-- `Replicate(n)` of a valid fragment is valid, with the same `Forward`, the same
`OutputShape()`, and `ThreadExtent()` multiplied by `n`. -/
theorem valid_replicateWith (hF : F.Valid) (hL : F.outputShape = .ok L)
    (hT : F.threadExtent = .ok T) {n : Int} (hn : 1 ≤ n) :
    (F.replicateWith n T).Valid ∧ (F.replicateWith n T).outputShape = .ok L ∧
      (F.replicateWith n T).threadExtent = .ok (T * n) := by
  have hR := replicateExtent_pos hT
  refine valid_of_bijOn ?min hF.2 (Valid.outputShape_pos hL)
    (Int.mul_pos (Valid.threadExtent_pos hT) (by omega)) (bijOn_of_injOn ?maps ?inj ?card)
  case min =>
    simpa [replicateWith, boundVars, or_imp, forall_and, Range.ofExtent] using hF.min_forwardVar
  case maps =>
    intro p hp
    obtain ⟨x, r, rfl, hx, hr⟩ := inBox_append_singleton.1 hp
    have hxl : x.length = F.inputDim := hx.length_eq
    obtain ⟨hr', hq⟩ := replica_split hF hT hr
    obtain ⟨hi, ht⟩ := hF.slot_mem hL hT hx hr'
    show InBox _ _
    rw [fullLayout_apply, indexAt_replicateWith, threadAt_replicateWith _ _ _ _ hxl,
      inBox_shapeBox_append_singleton (by simp [indexAt, length_outputShape hL, outputDim]),
      hF.2 x hxl r]
    exact ⟨hi, add_mul_bounds ht hq⟩
  case inj =>
    intro p hp p' hp' h
    obtain ⟨x, r, rfl, hx, hr⟩ := inBox_append_singleton.1 hp
    obtain ⟨y, s, rfl, hy, hs⟩ := inBox_append_singleton.1 hp'
    have hxl : x.length = F.inputDim := hx.length_eq
    have hyl : y.length = F.inputDim := hy.length_eq
    obtain ⟨hr', hqr⟩ := replica_split hF hT hr
    obtain ⟨hs', hqs⟩ := replica_split hF hT hs
    rw [fullLayout_apply, fullLayout_apply, indexAt_replicateWith, indexAt_replicateWith,
      threadAt_replicateWith _ _ _ _ hxl, threadAt_replicateWith _ _ _ _ hyl,
      hF.2 x hxl r (Int.fmod r F.replicateExtent), hF.2 y hyl s (Int.fmod s F.replicateExtent)] at h
    obtain ⟨hi, ht⟩ := List.append_inj' h rfl
    obtain ⟨ht, hd⟩ := eq_of_add_mul_eq (hF.slot_mem hL hT hx hr').2 (hF.slot_mem hL hT hy hs').2
      (List.singleton_inj.1 ht)
    obtain ⟨rfl, hm⟩ := hF.eq_of_slot_eq hL hT hx hr' hy hs' hi ht
    rw [← Int.fmod_add_fdiv r F.replicateExtent, ← Int.fmod_add_fdiv s F.replicateExtent, hm, hd]
  case card =>
    refine boxCard_shapeBox_le ?_ ?_ ?_
    · simpa [or_imp, forall_and] using ⟨fun s hs => (Valid.outputShape_pos hL s hs).le,
        (Int.mul_pos (Valid.threadExtent_pos hT) (by omega : (0 : Int) < n)).le⟩
    · simpa [replicateWith, boundVars, or_imp, forall_and, Range.ofExtent] using
        ⟨fun v hv => (extent_pos_forwardVar hT v hv).le, (Int.mul_pos hR (by omega)).le⟩
    · have hvol := hF.volume_eq hL hT
      simp only [boundVars, List.map_append, List.prod_append, List.map_singleton,
        List.prod_singleton] at hvol
      simp only [replicateWith, boundVars, List.map_append, List.prod_append, List.map_singleton,
        List.prod_singleton, Range.ofExtent, replicateExtent]
      linear_combination (-n) * hvol

/-! ## The growth operations of the source

`ValidAt` is tracked through each operation; the source's `Repeat` and `Replicate` return the
fragments above. -/

section Steps

variable {S : List Int} {R : Int}

theorem ValidAt.inputDim_eq (h : F.ValidAt S L T R) : F.inputDim = S.length := by
  rw [← length_inputShape, h.inputShape_eq]

theorem ValidAt.of_eq {S' L' : List Int} {T' R' : Int} (h : F.ValidAt S L T R) (hS : S = S')
    (hL : L = L') (hT : T = T') (hR : R = R') : F.ValidAt S' L' T' R' := by
  subst hS hL hT hR
  exact h

theorem ValidAt.repeatOnThread (h : F.ValidAt S L T R) (c : List Int) (ldf : Bool)
    (hc : c.length = S.length) (hcpos : ∀ ci ∈ c, 0 < ci) :
    (F.repeatOnThread c ldf T).ValidAt (List.zipWith (fun e ci => e * ci) S c) L (T * c.prod) R := by
  obtain ⟨hv, hL, hT⟩ := valid_repeatOnThread ldf h.valid h.outputShape_eq h.threadExtent_eq
    (hc.trans h.inputDim_eq.symm) hcpos
  exact ⟨hv, h.inputShape_eq ▸ map_extent_repeatRanges h.valid.min_forwardVar _, hL, hT, h.replicateExtent_eq⟩

theorem ValidAt.repeatOnIndex {l : Int} (h : F.ValidAt S [l] T R) (c : List Int) (ldf : Bool)
    (hc : c.length = S.length) (hcpos : ∀ ci ∈ c, 0 < ci) :
    (F.repeatOnIndex c ldf l).ValidAt (List.zipWith (fun e ci => e * ci) S c) [l * c.prod] T R := by
  obtain ⟨hv, hL, hT⟩ := valid_repeatOnIndex ldf h.valid h.outputShape_eq h.threadExtent_eq
    (hc.trans h.inputDim_eq.symm) hcpos
  exact ⟨hv, h.inputShape_eq ▸ map_extent_repeatRanges h.valid.min_forwardVar _, hL, hT, h.replicateExtent_eq⟩

theorem ValidAt.replicateWith (h : F.ValidAt S L T R) {n : Int} (hn : 1 ≤ n) :
    (F.replicateWith n T).ValidAt S L (T * n) (R * n) := by
  obtain ⟨hv, hL, hT⟩ := valid_replicateWith h.valid h.outputShape_eq h.threadExtent_eq hn
  exact ⟨hv, h.inputShape_eq, hL, hT, by rw [← h.replicateExtent_eq]; rfl⟩

theorem ValidAt.repeat_true (h : F.ValidAt S L T R) (c : List Int) (ldf : Bool)
    (hc : c.length = S.length) : F.repeat c true ldf = .ok (F.repeatOnThread c ldf T) :=
  repeat_true_eq ldf (hc.trans h.inputDim_eq.symm) h.threadExtent_eq h.valid.min_threadReplicate

theorem ValidAt.repeat_false {l : Int} (h : F.ValidAt S [l] T R) (c : List Int) (ldf : Bool)
    (hc : c.length = S.length) : F.repeat c false ldf = .ok (F.repeatOnIndex c ldf l) :=
  repeat_false_eq ldf (hc.trans h.inputDim_eq.symm) h.outputShape_eq h.valid.min_threadReplicate

theorem ValidAt.replicate (h : F.ValidAt S L T R) {n : Int} (hn : 1 ≤ n) :
    F.replicate n = .ok (F.replicateWith n T) :=
  replicate_eq hn h.threadExtent_eq

end Steps

/-- `Repeat` on the thread, `Repeat` on the index and `Replicate` of a valid fragment succeed and
return valid fragments.  The repeated fragments have the input shape `e * c`; repeating on the
thread multiplies `ThreadExtent()` by `Π c`, repeating on the only index multiplies its extent by
`Π c`, and `Replicate(n)` keeps `Forward` and multiplies the replica and thread extents by `n`. -/
theorem repeat_replicate_valid (hF : F.Valid) (hL : F.outputShape = .ok L)
    (hT : F.threadExtent = .ok T) :
    (∀ (c : List Int) (ldf : Bool), c.length = F.inputDim → (∀ ci ∈ c, 0 < ci) →
      (∃ G, F.repeat c true ldf = .ok G ∧
        G.ValidAt (List.zipWith (fun e ci => e * ci) F.inputShape c) L (T * c.prod)
          F.replicateExtent) ∧
      (F.outputDim = 1 → ∃ G, F.repeat c false ldf = .ok G ∧
        G.ValidAt (List.zipWith (fun e ci => e * ci) F.inputShape c) [L.headD 0 * c.prod] T
          F.replicateExtent)) ∧
    ∀ n, 1 ≤ n → ∃ G, F.replicate n = .ok G ∧
      G.ValidAt F.inputShape L (T * n) (F.replicateExtent * n) ∧
      G.forwardVar = F.forwardVar ∧ G.forwardIndex = F.forwardIndex := by
  have h : F.ValidAt F.inputShape L T F.replicateExtent := ⟨hF, rfl, hL, hT, rfl⟩
  refine ⟨fun c ldf hc hcpos => ?_, fun n hn => ⟨_, h.replicate hn, h.replicateWith hn, rfl, rfl⟩⟩
  rw [← length_inputShape] at hc
  refine ⟨⟨_, h.repeat_true c ldf hc, h.repeatOnThread c ldf hc hcpos⟩, fun hdim => ?_⟩
  obtain ⟨l, rfl⟩ := List.length_eq_one.1 ((length_outputShape hL).trans hdim)
  exact ⟨_, h.repeat_false c ldf hc, h.repeatOnIndex c ldf hc hcpos⟩

/-- Two elements, one per thread: repeating it three times on the thread gives a valid
fragment over six threads. -/
theorem repeat_replicate_valid_pair :
    let F : Fragment := ⟨[Range.ofExtent 2], [.int 0], .var 0, Range.ofExtent 1⟩
    F.Valid ∧ F.outputShape = .ok [1] ∧ F.threadExtent = .ok 2 ∧
      ∃ G, F.repeat [3] true false = .ok G ∧ G.Valid ∧ G.threadExtent = .ok 6 := by
  intro F
  have hF : F.Valid := valid_of_checkValid (by decide)
  have hL : F.outputShape = .ok [1] := rfl
  have hT : F.threadExtent = .ok 2 := rfl
  obtain ⟨G, hG, hv⟩ := ((repeat_replicate_valid hF hL hT).1 [3] false rfl (by simp)).1
  exact ⟨hF, hL, hT, G, hG, hv.valid, hv.threadExtent_eq⟩

end Fragment

end TileLayout
