import TileLayout.Gemm
import TileLayout.Partitioner
/-!
# Partitioning over the GEMM fragments

A parallel loop over a register tile is partitioned with the tile's own fragment:
`PartitionLoop(op, thread, analyzer, loop_layout)` with the layout `makeGemmFragmentC` or
`makeGemmFragmentA` returns.  Composing the factories' extents (`TileLayout.Gemm`) with the
partitioned nest (`TileLayout.Partitioner`): every one of the `32 * (block_m / warp_m) *
(block_n / warp_n)` threads runs its body at as many points as the fragment has registers, and the
threads together run each store of the nest once for the accumulator, and once per warp column for
operand `A`.  `PartitionLoop` reads the fragment's box and not the extents of the nest's loops, so
for operand `B`, whose box drops the columns from `(block_n / warp_n) * warp_n` on, those columns
are run by no thread.
-/

namespace TileLayout

/-- On any one thread, a valid fragment places as many points as it has register slots. -/
theorem length_threadPoints {E : IterMapEngine} {F : Fragment} {L : List Int} {T t : Int}
    {M : Layout} (hF : F.fullLayout.Valid) (hL : F.outputShape = .ok L)
    (hT : F.threadExtent = .ok T) (hM : F.inverse E = .ok M) (ht : 0 ≤ t ∧ t < T) :
    (F.threadPoints t).length = boxCard (shapeBox L) := by
  rw [← (perm_threadPoints hF hL hT hM ht).length_eq, List.length_map, length_boxPoints]

/-! ## When the table engine partitions -/

/-- The enumeration engine accepts every valid layout: no two points of its box share an
image. -/
theorem Layout.inverse_tableEngine_ok {l : Layout} (hl : l.Valid) :
    ∃ M, l.inverse tableEngine = .ok M := by
  obtain ⟨-, S, hS, hbij⟩ := hl
  have hnd : ((forwardTable l.forwardIndex l.forwardVar).map Prod.snd).Nodup := by
    rw [forwardTable, List.map_map]
    exact (nodup_boxPoints _).map_on fun x hx y hy h =>
      hbij.injOn (mem_boxPoints.1 hx) (mem_boxPoints.1 hy) h
  exact ⟨_, by simp only [Layout.inverse, tableEngine, if_pos hnd, hS, Except.ok_bind]; rfl⟩

/-- Once the inverse is found, `PartitionLoop` of a nest over the fragment's inputs returns:
the loops strip, and the outermost new loop is the `For` the result is cast to. -/
theorem partitionLoop_ok {E : IterMapEngine} {F : Fragment} {heads : List (Nat × Int × ForKind)}
    {body : Stmt} {thread : Nat} {L : List Int} {M : Layout} (hlen : heads.length = F.inputDim)
    (hL : F.outputShape = .ok L) (hL0 : L ≠ []) (hM : F.inverse E = .ok M) :
    ∃ s, partitionLoop E (Stmt.loopNest heads body) thread F = .ok s := by
  rw [partitionLoop_eq_bind hM hL, stripLoops_loopNest heads _ _ body
    (by simp [length_forwardIndex_of_inverse hM, hlen]), Except.ok_bind]
  obtain ⟨l₀, L', rfl⟩ := List.exists_cons_of_ne_nil hL0
  rw [freshVars, ← Fragment.length_outputShape hL, List.length_cons, List.range_succ_eq_map]
  exact ⟨_, rfl⟩

/-- With the table engine, `PartitionLoop` of a nest over a valid fragment's inputs returns. -/
theorem partitionLoop_tableEngine_ok {G : Fragment} {S L : List Int} {T R : Int}
    {heads : List (Nat × Int × ForKind)} {body : Stmt} {thread : Nat} (hv : G.ValidAt S L T R)
    (hlen : heads.length = S.length) (hL0 : L ≠ []) :
    ∃ s, partitionLoop tableEngine (Stmt.loopNest heads body) thread G = .ok s := by
  obtain ⟨M, hM⟩ := Layout.inverse_tableEngine_ok hv.valid.1
  exact partitionLoop_ok (by rw [hlen, ← hv.inputShape_eq, Fragment.length_inputShape])
    hv.outputShape_eq hL0 hM

section Partition

variable {E : IterMapEngine} {G : Fragment} {heads : List (Nat × Int × ForKind)} {body s : Stmt}
  {thread : Nat} {S : List Int} {a T R : Int}

/-- A nest of as many loops as a valid fragment with one output dimension of extent `a` has
inputs, partitioned by it: each thread runs its body at its `a` points, and all threads together
run the body at every point of the fragment's box `R` times, whatever the extents of the nest's
loops. -/
theorem partitionLoop_of_validAt (heap : Heap) (ρ : Nat → Int) (hv : G.ValidAt S [a] T R)
    (hlen : heads.length = S.length) (hvars : ∀ v ∈ body.loopVars, v ∉ heads.map (·.1))
    (hthread : body.varBound ≤ thread)
    (hs : partitionLoop E (Stmt.loopNest heads body) thread G = .ok s) :
    (∀ t, 0 ≤ t → t < T → (G.threadPoints t).length = a.toNat ∧
      (s.exec heap (Function.update ρ thread t)).Perm
        ((G.threadPoints t).flatMap fun z => body.exec heap (bindVars ρ (heads.map (·.1)) z))) ∧
    ((List.range T.toNat).flatMap fun t => s.exec heap (Function.update ρ thread t)).Perm
      ((boxPoints (shapeBox S)).flatMap fun x =>
        (List.range R.toNat).flatMap fun _ => body.exec heap (bindVars ρ (heads.map (·.1)) x)) := by
  have hlen' : heads.length = G.inputDim := by
    rw [hlen, ← hv.inputShape_eq, Fragment.length_inputShape]
  obtain ⟨M, hM⟩ := exists_inverse_of_partitionLoop hs
  refine ⟨fun t h0 ht => ⟨?_, perm_exec_partitionLoop heap ρ hlen' hv.valid.1 hv.outputShape_eq
    hv.threadExtent_eq hvars hthread hs ⟨h0, ht⟩⟩, ?_⟩
  · rw [length_threadPoints hv.valid.1 hv.outputShape_eq hv.threadExtent_eq hM ⟨h0, ht⟩]
    simp [shapeBox, boxCard, Range.ofExtent]
  · have h := perm_flatMap_exec_partitionLoop heap ρ hlen' hv.valid hv.threadExtent_eq hvars
      hthread hs
    rwa [hv.inputShape_eq, hv.replicateExtent_eq] at h

end Partition

/-- The accumulator fragment for either element size: on the `[block_m, block_n]` tile, with
`4 * (warp_m / 16) * (warp_n / 8)` registers (the `fp64` tile has `2 * (warp_m / 8)`, the same
number) on `32 * (block_m / warp_m) * (block_n / warp_n)` threads and one replica. -/
theorem validAt_makeGemmFragmentC {ldf : Bool} {bm bn wm wn es : Int} {G : Fragment}
    (hpos : 0 < bm ∧ 0 < bn ∧ 0 < wm ∧ 0 < wn) (hbm : bm % wm = 0) (hbn : bn % wn = 0)
    (hwm : wm % 16 = 0) (hwn : wn % 16 = 0) (hG : makeGemmFragmentC ldf bm bn wm wn es = .ok G) :
    G.ValidAt [bm, bn] [4 * (wm / 16) * (wn / 8)] (32 * (bm / wm) * (bn / wn)) 1 := by
  by_cases h64 : es = 64
  · obtain ⟨G', hG', hv⟩ := makeGemmFragmentC_F64_spec hpos hbm hbn hwm hwn
    rw [makeGemmFragmentC, if_pos h64, hG'] at hG
    cases hG
    rwa [show 2 * (wm / 8) = 4 * (wm / 16) by omega] at hv
  · obtain ⟨G', hG', hv, -⟩ := makeGemmFragmentC_spec ldf hpos hbm hbn hwm hwn h64
    cases hG.symm.trans hG'
    exact hv

/-- A nest over the `[block_m, block_n]` accumulator tile partitioned by the fragment of
`makeGemmFragmentC`, whose body rebinds no loop variable and does not read the thread variable:
each of the `32 * (block_m / warp_m) * (block_n / warp_n)` threads runs its body at
`4 * (warp_m / 16) * (warp_n / 8)` points, those the fragment places on it, and the threads
together run every store of the nest exactly once. -/
theorem makeGemmFragmentC_partitionLoop_perm (E : IterMapEngine) (heap : Heap) (ρ : Nat → Int)
    (ldf : Bool) {bm bn wm wn es : Int} (G : Fragment) (heads : List (Nat × Int × ForKind))
    (body s : Stmt) (thread : Nat)
    (hpos : 0 < bm ∧ 0 < bn ∧ 0 < wm ∧ 0 < wn) (hbm : bm % wm = 0) (hbn : bn % wn = 0)
    (hwm : wm % 16 = 0) (hwn : wn % 16 = 0) (hG : makeGemmFragmentC ldf bm bn wm wn es = .ok G)
    (hshape : heads.map (·.2.1) = [bm, bn]) (hvars : ∀ v ∈ body.loopVars, v ∉ heads.map (·.1))
    (hthread : body.varBound ≤ thread)
    (hs : partitionLoop E (Stmt.loopNest heads body) thread G = .ok s) :
    (∀ t, 0 ≤ t → t < 32 * (bm / wm) * (bn / wn) →
      (G.threadPoints t).length = (4 * (wm / 16) * (wn / 8)).toNat ∧
      (s.exec heap (Function.update ρ thread t)).Perm
        ((G.threadPoints t).flatMap fun z => body.exec heap (bindVars ρ (heads.map (·.1)) z))) ∧
    ((List.range (32 * (bm / wm) * (bn / wn)).toNat).flatMap fun t =>
        s.exec heap (Function.update ρ thread t)).Perm ((Stmt.loopNest heads body).exec heap ρ) := by
  obtain ⟨hthreads, hall⟩ := partitionLoop_of_validAt heap ρ
    (validAt_makeGemmFragmentC hpos hbm hbn hwm hwn hG) (by simpa using congrArg List.length hshape)
    hvars hthread hs
  refine ⟨hthreads, hall.trans (List.Perm.of_eq ?_)⟩
  simp [Stmt.exec_loopNest, hshape, List.range_succ]

/-- One `16 x 16` warp tile in `float16`: the 32 lanes each store 8 elements of a `16 x 16`
parallel nest, and every element is stored once. -/
theorem makeGemmFragmentC_partitionLoop_perm_warp :
    ∃ G s, makeGemmFragmentC true 16 16 16 16 16 = .ok G ∧
      partitionLoop tableEngine (Stmt.loopNest [(0, 16, .parallel), (1, 16, .parallel)]
        (.bufferStore 0 (.var 0) [.var 0, .var 1])) 2 G = .ok s ∧
      ((List.range (32 * (16 / 16) * (16 / 16) : Int).toNat).flatMap fun t =>
        s.exec Heap.zero (Function.update (fun _ => 0) 2 t)).Perm
        ((Stmt.loopNest [(0, 16, .parallel), (1, 16, .parallel)]
          (.bufferStore 0 (.var 0) [.var 0, .var 1])).exec Heap.zero (fun _ => 0)) := by
  have hpos : (0 : Int) < 16 ∧ (0 : Int) < 16 ∧ (0 : Int) < 16 ∧ (0 : Int) < 16 := by norm_num
  obtain ⟨G, hG, hv, -⟩ := makeGemmFragmentC_spec true hpos (by norm_num) (by norm_num)
    (by norm_num) (by norm_num) (show (16 : Int) ≠ 64 by norm_num)
  obtain ⟨s, hs⟩ := @partitionLoop_tableEngine_ok G _ _ _ _ [(0, 16, .parallel), (1, 16, .parallel)]
    (.bufferStore 0 (.var 0) [.var 0, .var 1]) 2 hv rfl (List.cons_ne_nil _ _)
  exact ⟨G, s, hG, hs, (makeGemmFragmentC_partitionLoop_perm tableEngine Heap.zero
    (fun _ => 0) true G [(0, 16, .parallel), (1, 16, .parallel)]
    (.bufferStore 0 (.var 0) [.var 0, .var 1]) s 2 hpos (by norm_num) (by norm_num) (by norm_num)
    (by norm_num) hG rfl
    (by simp [Stmt.loopVars]) (by decide) hs).2⟩

/-- Operand `A` of `makeGemmFragmentA` partitioning a nest over the `[block_m, block_k]` tile:
each of the `32 * (block_m / warp_m) * (block_n / warp_n)` threads runs its body at
`8 * (warp_m / 16) * (block_k / 16)` points, and the threads together run every store of the nest
`block_n / warp_n` times, once for each warp column that reads the tile. -/
theorem makeGemmFragmentA_partitionLoop_replicas (E : IterMapEngine) (heap : Heap)
    (ρ : Nat → Int) (ldf : Bool) {bm bn bk wm wn : Int} (G : Fragment)
    (heads : List (Nat × Int × ForKind)) (body s : Stmt) (thread : Nat)
    (hpos : 0 < bm ∧ 0 < bn ∧ 0 < bk ∧ 0 < wm ∧ 0 < wn) (hbm : bm % wm = 0) (hbn : bn % wn = 0)
    (hwm : wm % 16 = 0) (hbk : bk % 16 = 0) (hG : makeGemmFragmentA ldf bm bn bk wm wn = .ok G)
    (hshape : heads.map (·.2.1) = [bm, bk]) (hvars : ∀ v ∈ body.loopVars, v ∉ heads.map (·.1))
    (hthread : body.varBound ≤ thread)
    (hs : partitionLoop E (Stmt.loopNest heads body) thread G = .ok s) :
    (∀ t, 0 ≤ t → t < 32 * (bm / wm) * (bn / wn) →
      (G.threadPoints t).length = (8 * (wm / 16) * (bk / 16)).toNat ∧
      (s.exec heap (Function.update ρ thread t)).Perm
        ((G.threadPoints t).flatMap fun z => body.exec heap (bindVars ρ (heads.map (·.1)) z))) ∧
    ((List.range (32 * (bm / wm) * (bn / wn)).toNat).flatMap fun t =>
        s.exec heap (Function.update ρ thread t)).Perm
      ((boxPoints (shapeBox [bm, bk])).flatMap fun x => (List.range (bn / wn).toNat).flatMap
        fun _ => body.exec heap (bindVars ρ (heads.map (·.1)) x)) := by
  obtain ⟨G', hG', hv, -⟩ := makeGemmFragmentA_spec ldf hpos hbm hbn hwm hbk
  cases hG.symm.trans hG'
  exact partitionLoop_of_validAt heap ρ hv (by simpa using congrArg List.length hshape) hvars
    hthread hs

/-- A `16 x 32` block of two `16 x 16` warps with `block_k = 16`: the 64 threads each load 16
elements of the `16 x 16` operand tile, and every element is loaded twice. -/
theorem makeGemmFragmentA_partitionLoop_replicas_twoWarps :
    ∃ G s, makeGemmFragmentA true 16 32 16 16 16 = .ok G ∧
      partitionLoop tableEngine (Stmt.loopNest [(0, 16, .parallel), (1, 16, .parallel)]
        (.bufferStore 0 (.var 0) [.var 0, .var 1])) 2 G = .ok s ∧
      ((List.range (32 * (16 / 16) * (32 / 16) : Int).toNat).flatMap fun t =>
        s.exec Heap.zero (Function.update (fun _ => 0) 2 t)).Perm
        ((boxPoints (shapeBox [16, 16])).flatMap fun x => (List.range (32 / 16 : Int).toNat).flatMap
          fun _ => Stmt.exec Heap.zero (bindVars (fun _ => 0) [0, 1] x)
            (.bufferStore 0 (.var 0) [.var 0, .var 1])) := by
  have hpos : (0 : Int) < 16 ∧ (0 : Int) < 32 ∧ (0 : Int) < 16 ∧ (0 : Int) < 16 ∧
      (0 : Int) < 16 := by norm_num
  obtain ⟨G, hG, hv, -⟩ := makeGemmFragmentA_spec true hpos (by norm_num) (by norm_num)
    (by norm_num) (by norm_num)
  obtain ⟨s, hs⟩ := @partitionLoop_tableEngine_ok G _ _ _ _ [(0, 16, .parallel), (1, 16, .parallel)]
    (.bufferStore 0 (.var 0) [.var 0, .var 1]) 2 hv rfl (List.cons_ne_nil _ _)
  exact ⟨G, s, hG, hs, (makeGemmFragmentA_partitionLoop_replicas tableEngine Heap.zero
    (fun _ => 0) true G [(0, 16, .parallel), (1, 16, .parallel)]
    (.bufferStore 0 (.var 0) [.var 0, .var 1]) s 2 hpos (by norm_num) (by norm_num) (by norm_num)
    (by norm_num) hG rfl
    (by simp [Stmt.loopVars]) (by decide) hs).2⟩

/-- Operand `B` of `makeGemmFragmentB` partitioning a nest of two loops, over the
`[block_k, block_n]` tile say: whatever the extents of the nest's loops, the threads together run
the body exactly at the points of `[0, block_k) × [0, (block_n / warp_n) * warp_n)`,
`block_m / warp_m` times each.  When `warp_n` does not divide `block_n`, the tile's columns from
`(block_n / warp_n) * warp_n` on are run by no thread. -/
theorem makeGemmFragmentB_partitionLoop_drops (E : IterMapEngine) (heap : Heap) (ρ : Nat → Int)
    (ldf : Bool) {bm bn bk wm wn : Int} (G : Fragment) (heads : List (Nat × Int × ForKind))
    (body s : Stmt) (thread : Nat) (hpos : 0 < bk ∧ 0 < wm ∧ 0 < wn) (hwbm : wm ≤ bm)
    (hwbn : wn ≤ bn) (hwn : wn % 8 = 0) (hbk : bk % 16 = 0)
    (hG : makeGemmFragmentB ldf bm bn bk wm wn = .ok G) (hlen : heads.length = 2)
    (hvars : ∀ v ∈ body.loopVars, v ∉ heads.map (·.1)) (hthread : body.varBound ≤ thread)
    (hs : partitionLoop E (Stmt.loopNest heads body) thread G = .ok s) :
    ((List.range (32 * (bm / wm) * (bn / wn)).toNat).flatMap fun t =>
        s.exec heap (Function.update ρ thread t)).Perm
      ((boxPoints (shapeBox [bk, bn / wn * wn])).flatMap fun x =>
        (List.range (bm / wm).toNat).flatMap fun _ =>
          body.exec heap (bindVars ρ (heads.map (·.1)) x)) := by
  obtain ⟨G', hG', hv, -⟩ := makeGemmFragmentB_spec ldf hpos hwbm hwbn hwn hbk
  cases hG.symm.trans hG'
  exact (partitionLoop_of_validAt heap ρ hv hlen hvars hthread hs).2

/-- A `16 × 24` operand tile with `warp_n = 16`: the threads load the tile's first 16 columns
only. -/
theorem makeGemmFragmentB_partitionLoop_drops_columns :
    ∃ G s, makeGemmFragmentB true 16 24 16 16 16 = .ok G ∧
      partitionLoop tableEngine (Stmt.loopNest [(0, 16, .parallel), (1, 24, .parallel)]
        (.bufferStore 0 (.var 0) [.var 0, .var 1])) 2 G = .ok s ∧
      ((List.range (32 * (16 / 16) * (24 / 16) : Int).toNat).flatMap fun t =>
        s.exec Heap.zero (Function.update (fun _ => 0) 2 t)).Perm
        ((boxPoints (shapeBox [16, 24 / 16 * 16])).flatMap fun x =>
          (List.range (16 / 16 : Int).toNat).flatMap fun _ => Stmt.exec Heap.zero
            (bindVars (fun _ => 0) [0, 1] x) (.bufferStore 0 (.var 0) [.var 0, .var 1])) := by
  have hpos : (0 : Int) < 16 ∧ (0 : Int) < 16 ∧ (0 : Int) < 16 := by norm_num
  obtain ⟨G, hG, hv, -⟩ := @makeGemmFragmentB_spec true 16 24 16 16 16 hpos (by norm_num)
    (by norm_num) (by norm_num) (by norm_num)
  obtain ⟨s, hs⟩ := @partitionLoop_tableEngine_ok G _ _ _ _ [(0, 16, .parallel), (1, 24, .parallel)]
    (.bufferStore 0 (.var 0) [.var 0, .var 1]) 2 hv rfl (List.cons_ne_nil _ _)
  exact ⟨G, s, hG, hs, makeGemmFragmentB_partitionLoop_drops tableEngine Heap.zero
    (fun _ => 0) true G [(0, 16, .parallel), (1, 24, .parallel)]
    (.bufferStore 0 (.var 0) [.var 0, .var 1]) s 2 hpos (by norm_num) (by norm_num) (by norm_num)
    (by norm_num) hG rfl (by simp [Stmt.loopVars]) (by decide) hs⟩

end TileLayout
