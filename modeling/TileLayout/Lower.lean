import TileLayout.Fill
import TileLayout.Partitioner
/-!
# Partitioning the lowered tile operators

`Fill::Canonialize` and `Copy::Canonialize` lower a tile operator to a nest of parallel loops,
one per dimension of the tile; a nest of parallel loops is what
`PartitionLoop(op, thread, analyzer, num_thread)` partitions over the threads.  When the tile's
extents are constants the two meet: the lowered nest is a parallel nest over the extents
(`exists_loopNest_of_extents`), and the partition of `TileLayout.Partitioner` applies to it.  Thread
`t` then performs the operator's stores at the offsets whose row-major number is `t` modulo
`num_thread`, and the threads together perform each of them once.
-/

namespace TileLayout

/-- Parallel loops over constant extents, as both `Canonialize`s build them, are a parallel nest
over the extents. -/
theorem exists_loopNest_of_extents : ∀ (l : List (Nat × PrimExpr)) (S : List Int),
    l.map (·.2) = S.map .int → ∃ heads : List (Nat × Int × ForKind),
      (∀ body, l.foldr (fun (v, e) body => .forLoop v (.int 0) e .parallel body) body =
        Stmt.loopNest heads body) ∧ heads.map (·.1) = l.map (·.1) ∧ heads.map (·.2.1) = S ∧
      ∀ h ∈ heads, h.2.2 = .parallel
  | [], [], _ => ⟨[], fun _ => rfl, rfl, rfl, by simp⟩
  | (v, e) :: l, k :: S, h => by
      simp only [List.map_cons, List.cons.injEq] at h
      obtain ⟨heads, hnest, h1, h2, hpar⟩ := exists_loopNest_of_extents l S h.2
      refine ⟨(v, k, .parallel) :: heads, fun body => ?_, by simp [h1], by simp [h2],
        List.forall_mem_cons.2 ⟨rfl, hpar⟩⟩
      rw [List.foldr_cons, hnest, h.1]
      rfl
  | [], _ :: _, h | _ :: _, [], h => absurd h (by simp)

/-! ## Fill -/

namespace Fill

/-- `T.fill(dst, value)` on a buffer of constant positive shape `S`, lowered by `Canonialize` and
partitioned by `PartitionLoop(op, thread, analyzer, num_thread)` with `num_thread` dividing the
buffer's size: thread `t` stores the value, cast to the buffer's type when the types differ, at
the indices whose row-major offset is `t` modulo `num_thread`, and the threads together store it
at every index of the buffer exactly once. -/
theorem make_canonialize_partitionLoop (E : IterMapEngine) (heap : Heap) (ρ : Nat → Int)
    (dst : Buffer) (dstScope : String) (value : PrimExpr) (valueDtype : DataType) (S : List Int)
    (thread : Nat) (n : Int) (s₀ s : Stmt) (hshape : dst.shape = S.map .int)
    (hS : ∀ k ∈ S, 0 < k) (hn : 0 < n) (hdiv : n ∣ S.prod)
    (hthread : (make dst dstScope value valueDtype).varBase + S.length ≤ thread)
    (h₀ : (make dst dstScope value valueDtype).canonialize = .ok s₀)
    (hs : partitionLoopNumThread E s₀ thread n = .ok s) :
    (∀ t, 0 ≤ t → t < n → (s.exec heap (Function.update ρ thread t)).Perm
      (((boxPoints (shapeBox S)).filter fun x => rowMajorOffset S x % n == t).map fun x =>
        ⟨dst.data, x, heap.castTo valueDtype dst.dtype (value.eval ρ heap)⟩)) ∧
    ((List.range n.toNat).flatMap fun t => s.exec heap (Function.update ρ thread t)).Perm
      ((boxPoints (shapeBox S)).map fun x =>
        ⟨dst.data, x, heap.castTo valueDtype dst.dtype (value.eval ρ heap)⟩) := by
  set f := make dst dstScope value valueDtype
  have hlen : f.dst.shape.length = S.length := by simp [f, make, hshape]
  obtain ⟨heads, hnest, hfst, hsnd, hpar⟩ :=
    exists_loopNest_of_extents f.loopVars S (f.loopVars_snd.trans hshape)
  rw [eq_of_canonialize_eq_ok _ h₀, hnest] at hs
  obtain ⟨hthreads, hall⟩ := perm_exec_partitionLoopNumThread heap ρ hpar
    (List.forall_mem_map.1 (hsnd ▸ hS)) (by rfl) hn (hsnd ▸ hdiv) (by simp [Stmt.loopVars])
    (f.varBound_store.trans (hlen ▸ hthread)) hs
  have hstore : ∀ x ∈ boxPoints (shapeBox S),
      (Stmt.bufferStore f.dst.data f.value (f.loopVars.map fun p => .var p.1)).exec heap
        (bindVars ρ (heads.map (·.1)) x) =
          [⟨dst.data, x, heap.castTo valueDtype dst.dtype (value.eval ρ heap)⟩] := fun x hx => by
    rw [hfst, f.exec_store_bindVars heap ρ
      (by simpa [hlen] using (inBox_shapeBox_iff.1 (mem_boxPoints.1 hx)).1), value_make]
    rfl
  rw [hsnd] at hthreads
  refine ⟨fun t h0 ht => (hthreads t h0 ht).trans (List.Perm.of_eq ?_), hall.trans
    (List.Perm.of_eq ?_)⟩
  · exact (List.flatMap_congr fun x hx => hstore x (List.mem_of_mem_filter hx)).trans
      (List.map_eq_flatMap _ _).symm
  · rw [Stmt.exec_loopNest, hsnd]
    exact (List.flatMap_congr hstore).trans (List.map_eq_flatMap _ _).symm

/-- A `2 × 2` `int8` fragment filled with the `int32` value `300` on two threads, on a target
whose casts wrap around: every element gets `44`. -/
theorem make_canonialize_partitionLoop_quad :
    ∃ s₀ s, (make ⟨0, ⟨0, 8, 1⟩, [.int 2, .int 2]⟩ "local.fragment" (.int 300) ⟨0, 32, 1⟩).canonialize =
        .ok s₀ ∧ partitionLoopNumThread tableEngine s₀ 2 2 = .ok s ∧
      ((List.range (2 : Int).toNat).flatMap fun t =>
        s.exec ⟨fun _ _ => 0, fun d v => v.bmod (2 ^ d.bits)⟩ (Function.update (fun _ => 0) 2 t)).Perm
        ((boxPoints (shapeBox [2, 2])).map fun x => ⟨0, x, 44⟩) := by
  have h₀ : (make ⟨0, ⟨0, 8, 1⟩, [.int 2, .int 2]⟩ "local.fragment" (.int 300) ⟨0, 32, 1⟩).canonialize =
      .ok (Stmt.loopNest [(0, 2, .parallel), (1, 2, .parallel)]
        (.bufferStore 0 (.cast ⟨0, 8, 1⟩ (.int 300)) [.var 0, .var 1])) := rfl
  obtain ⟨s, hs⟩ : ∃ s, partitionLoopNumThread tableEngine (Stmt.loopNest [(0, 2, .parallel),
      (1, 2, .parallel)] (.bufferStore 0 (.cast ⟨0, 8, 1⟩ (.int 300)) [.var 0, .var 1])) 2 2 =
      .ok s := ⟨_, rfl⟩
  exact ⟨_, s, h₀, hs, (make_canonialize_partitionLoop tableEngine
    ⟨fun _ _ => 0, fun d v => v.bmod (2 ^ d.bits)⟩ (fun _ => 0) ⟨0, ⟨0, 8, 1⟩, [.int 2, .int 2]⟩
    "local.fragment" (.int 300) ⟨0, 32, 1⟩ [2, 2] 2 2 _ s rfl
    (by decide) (by decide) (by decide) (by decide) h₀ hs).2⟩

end Fill

/-! ## Copy -/

namespace Copy

variable (c : Copy) (canProve : PrimExpr → Bool) (heap : Heap) (ρ : Nat → Int)

/-- `T.copy` over a src region whose extents other than `1` are positive constants `S`, lowered by
`Canonialize` (with an analyzer that proves only true bounds) and partitioned by
`PartitionLoop(op, thread, analyzer, num_thread)` on a thread variable the lowered nest does not
use, with `num_thread` dividing the region's size: thread `t` makes the store attempts of the
offsets whose row-major number is `t` modulo `num_thread`, and the threads together make the
attempt of every offset of the region exactly once. -/
theorem canonialize_partitionLoop (E : IterMapEngine) (S : List Int) (thread : Nat) (n : Int)
    (s₀ s : Stmt) (hsrc : c.srcRange.length = c.src.shape.length)
    (hdst : c.dstRange.length = c.dst.shape.length)
    (hcount : (nonUnit c.dstRange).length = (nonUnit c.srcRange).length)
    (hext : (nonUnit c.srcRange).map (·.extent) = S.map .int) (hS : ∀ k ∈ S, 0 < k) (hn : 0 < n)
    (hdiv : n ∣ S.prod)
    (hsound : ∀ o ∈ boxPoints (shapeBox S), BoundsSound canProve heap (c.offsetEnv ρ o))
    (h₀ : c.canonialize canProve = .ok s₀) (hthread : s₀.varBound ≤ thread)
    (hs : partitionLoopNumThread E s₀ thread n = .ok s) :
    (∀ t, 0 ≤ t → t < n → (s.exec heap (Function.update ρ thread t)).Perm
      (((boxPoints (shapeBox S)).filter fun o => rowMajorOffset S o % n == t).flatMap
        (c.storeAt ρ heap))) ∧
    ((List.range n.toNat).flatMap fun t => s.exec heap (Function.update ρ thread t)).Perm
      ((boxPoints (shapeBox S)).flatMap (c.storeAt ρ heap)) := by
  obtain ⟨Ls, Ld, cs, cd, hLs, hLd, hcs, hcd, hc⟩ := c.canonialize_eq_ok canProve hsrc hdst hcount
  cases h₀.symm.trans hc
  obtain ⟨heads, hnest, hfst, hsnd, hpar⟩ :=
    exists_loopNest_of_extents c.makeIterVars S (c.makeIterVars_snd.trans hext)
  rw [hnest] at hs hthread
  have hextS : c.extents ρ heap = S := by
    simpa [extents, Function.comp_def, PrimExpr.eval] using congrArg (List.map (·.eval ρ heap)) hext
  obtain ⟨hthreads, hall⟩ := perm_exec_partitionLoopNumThread heap ρ hpar
    (List.forall_mem_map.1 (hsnd ▸ hS)) (by cases conjunction cd <;> rfl) hn (hsnd ▸ hdiv)
    (by cases conjunction cd <;> simp [guardStore, Stmt.loopVars])
    ((Stmt.varBound_le_loopNest _ _).trans hthread) hs
  have hbody := fun o (ho : o ∈ boxPoints (shapeBox S)) =>
    c.exec_guardStore_offsetEnv canProve heap ρ hsrc hdst hLs hLd hcs hcd (hextS ▸ ho) (hsound o ho)
  rw [hsnd, hfst] at hthreads
  refine ⟨fun t h0 ht => (hthreads t h0 ht).trans (List.Perm.of_eq
    (List.flatMap_congr fun o ho => hbody o (List.mem_of_mem_filter ho))), hall.trans
    (List.Perm.of_eq ?_)⟩
  rw [Stmt.exec_loopNest, hsnd, hfst]
  exact List.flatMap_congr hbody

/-- A `2 × 2` tile of `int32` copied to a `2 × 2` buffer of `int8` on two threads, with an
analyzer that proves nothing, on a target whose casts wrap around. -/
theorem canonialize_partitionLoop_tile :
    let c := Copy.make ⟨0, ⟨0, 32, 1⟩, [.int 2, .int 2]⟩ ⟨1, ⟨0, 8, 1⟩, [.int 2, .int 2]⟩
      [⟨.int 0, .int 2⟩, ⟨.int 0, .int 2⟩] [⟨.int 0, .int 2⟩, ⟨.int 0, .int 2⟩]
    ∃ s₀ s, c.canonialize (fun _ => false) = .ok s₀ ∧ partitionLoopNumThread tableEngine s₀ 2 2 =
        .ok s ∧
      ((List.range (2 : Int).toNat).flatMap fun t =>
        s.exec ⟨fun _ idx => 100 * idx.sum, fun d v => v.bmod (2 ^ d.bits)⟩
          (Function.update (fun _ => 0) 2 t)).Perm
        ((boxPoints (shapeBox [2, 2])).flatMap
          (c.storeAt (fun _ => 0) ⟨fun _ idx => 100 * idx.sum, fun d v => v.bmod (2 ^ d.bits)⟩)) := by
  intro c
  obtain ⟨s₀, h₀, hthread, s, hs⟩ : ∃ s₀, c.canonialize (fun _ => false) = .ok s₀ ∧
      s₀.varBound ≤ 2 ∧ ∃ s, partitionLoopNumThread tableEngine s₀ 2 2 = .ok s :=
    ⟨_, rfl, by decide, _, rfl⟩
  exact ⟨s₀, s, h₀, hs, (c.canonialize_partitionLoop (fun _ => false)
    ⟨fun _ idx => 100 * idx.sum, fun d v => v.bmod (2 ^ d.bits)⟩
    (fun _ => 0) tableEngine [2, 2] 2 2 s₀ s rfl rfl rfl rfl (by decide) (by decide) (by decide)
    (fun _ _ _ _ _ => ⟨fun h => absurd h Bool.false_ne_true, fun h => absurd h Bool.false_ne_true⟩)
    h₀ hthread hs).2⟩

end Copy

end TileLayout
