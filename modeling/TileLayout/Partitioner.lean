import TileLayout.LoopPartition
import TileLayout.Flatten
/-!
# The default partition

`PartitionLoop(op, thread, analyzer, num_thread)` partitions with the fragment that
`LoopPartitioner::Partition` builds: the collected parallel loops are flattened row-major, and
iteration `k` goes to register `k / num_thread` of thread `k % num_thread`.  For a nest of
parallel loops over a body with no parallel loop of its own, and a thread count that divides the
loop size, that fragment is valid with `num_thread` threads, thread `t` runs the iterations whose
flattened number is `t` modulo `num_thread`, and the threads together run every store of the nest
once (`partitionLoopNumThread_perm`).  `partitionLoopNumThread_overruns` and
`partition_collects_nested` show what goes wrong outside these conditions.
`partitionLoop_ok_iff` says when `PartitionLoop(op, thread, analyzer, loop_layout)` returns at
all, for any statement and fragment.
-/

namespace TileLayout

/-! ## The flattened iteration number -/

theorem flattenLoops_eq (S : List Int) :
    flattenLoops S = S.enum.foldl (fun acc p => .add (.mul acc (.int p.2)) (.var p.1)) (.int 0) :=
  rfl

/-- The Horner loop of `flattenLoops`, from any accumulator. -/
theorem valueAt_foldl_flatten (z : List Int) : ∀ (l : List (Nat × Int)) (acc : PrimExpr),
    (l.foldl (fun acc p => .add (.mul acc (.int p.2)) (.var p.1)) acc).valueAt z =
      acc.valueAt z * (l.map (·.2)).prod +
        rowMajorOffset (l.map (·.2)) (l.map fun p => z.getD p.1 0)
  | [], acc => by simp
  | (i, e) :: l, acc => by
      rw [List.foldl_cons, valueAt_foldl_flatten z l]
      simp only [valueAt_add, valueAt_mul, valueAt_int, valueAt_var, List.map_cons, List.prod_cons,
        rowMajorOffset_cons]
      ring

/-- The flattened number of the loops is the row-major offset of the point in the box of the
extents; later inputs (the replica) are not read. -/
theorem valueAt_flattenLoops {S x : List Int} (hx : x.length = S.length) (r : List Int) :
    (flattenLoops S).valueAt (x ++ r) = rowMajorOffset S x := by
  have hmap : S.enum.map (fun p => (x ++ r).getD p.1 0) = x := by
    rw [show (fun p : Nat × Int => (x ++ r).getD p.1 0) = (fun k => (x ++ r).getD k 0) ∘ Prod.fst
      from rfl, ← List.map_map, List.enum_map_fst, ← hx]
    refine List.ext_getElem (by simp) fun k h₁ h₂ => ?_
    simp [List.getElem?_append_left (by simpa using h₁ : k < x.length), List.getElem?_eq_getElem h₂]
  rw [flattenLoops_eq, valueAt_foldl_flatten, List.enum_map_snd, hmap]
  simp

/-! ## The fragment of a parallel nest -/

/-- The visitor collects exactly the loops of a parallel nest whose body has no parallel loop. -/
theorem collectParallel_loopNest {body : Stmt} (hinner : body.collectParallel = []) :
    ∀ heads : List (Nat × Int × ForKind), (∀ h ∈ heads, h.2.2 = .parallel) →
      (Stmt.loopNest heads body).collectParallel = heads.map fun h => (h.1, .int 0, .int h.2.1)
  | [], _ => hinner
  | (v, e, kind) :: heads, h => by
      have hk : kind = .parallel := (List.forall_mem_cons.1 h).1
      simp [Stmt.loopNest, Stmt.collectParallel, hk,
        collectParallel_loopNest hinner heads (List.forall_mem_cons.1 h).2]

theorem mapM_loopDomain : ∀ heads : List (Nat × Int × ForKind),
    (heads.map fun h => (h.1, PrimExpr.int 0, PrimExpr.int h.2.1)).mapM loopDomain =
      .ok (shapeBox (heads.map (·.2.1)))
  | [] => rfl
  | h :: heads => by
      rw [List.map_cons, List.mapM_cons, mapM_loopDomain heads]
      rfl

/-- The fragment `Partition` builds for a parallel nest: the box of the extents, register
`FloorDiv(flattened, num_thread)`, thread `FloorMod(flattened, num_thread)`, no replica. -/
theorem partition_loopNest {heads : List (Nat × Int × ForKind)} {body : Stmt}
    (hpar : ∀ h ∈ heads, h.2.2 = .parallel) (hinner : body.collectParallel = []) (n : Int) :
    LoopPartitioner.partition (Stmt.loopNest heads body) n = .ok ⟨shapeBox (heads.map (·.2.1)),
      [.floorDiv (flattenLoops (heads.map (·.2.1))) (.int n)],
      .floorMod (flattenLoops (heads.map (·.2.1))) (.int n), Range.ofExtent 1⟩ := by
  simp only [LoopPartitioner.partition, collectParallel_loopNest hinner heads hpar, mapM_loopDomain,
    Except.ok_bind, map_extent_shapeBox]
  split <;> rfl

/-- A last domain varies fastest: each point of the box is followed by its values in turn. -/
theorem boxPoints_append_singleton (r : Range) : ∀ A : List Range,
    boxPoints (A ++ [r]) = (boxPoints A).flatMap fun x => r.values.map (x ++ [·])
  | [] => by simp [boxPoints, List.map_eq_flatMap]
  | a :: A => by
      simp [boxPoints, boxPoints_append_singleton r A, List.flatMap_map, List.map_flatMap,
        List.flatMap_assoc, Function.comp_def]

theorem boxPoints_append_ofExtent_one (A : List Range) :
    boxPoints (A ++ [Range.ofExtent 1]) = (boxPoints A).map (· ++ [0]) := by
  rw [boxPoints_append_singleton, List.map_eq_flatMap]
  rfl

section Fragment

variable {S : List Int} {n : Int} {F : Fragment}

theorem fullLayout_apply_partition (hn : 0 < n) {x : List Int} (hx : x.length = S.length)
    (r : Int) :
    (Fragment.fullLayout ⟨shapeBox S, [.floorDiv (flattenLoops S) (.int n)],
      .floorMod (flattenLoops S) (.int n), Range.ofExtent 1⟩).apply (x ++ [r]) =
        [rowMajorOffset S x / n, rowMajorOffset S x % n] := by
  simp [Fragment.fullLayout_apply, Fragment.indexAt, Fragment.threadAt, valueAt_flattenLoops hx,
    Int.fdiv_eq_ediv _ hn.le, Int.fmod_eq_emod _ hn.le]

/-- With `num_thread` dividing `Π S`, the partition fragment is valid: the offsets `[0, Π S)` are
split into `Π S / num_thread` registers on `num_thread` threads. -/
theorem valid_partitionFragment (hS : ∀ s ∈ S, 0 < s) (hn : 0 < n) (hdiv : n ∣ S.prod)
    (hF : F = ⟨shapeBox S, [.floorDiv (flattenLoops S) (.int n)],
      .floorMod (flattenLoops S) (.int n), Range.ofExtent 1⟩) :
    F.Valid ∧ F.outputShape = .ok [S.prod / n] ∧ F.threadExtent = .ok n := by
  subst hF
  have hlen : ∀ {x : List Int}, InBox (shapeBox S) x → x.length = S.length := fun hx => by
    simpa [shapeBox] using hx.length_eq
  have hP : S.prod / n * n = S.prod := Int.ediv_mul_cancel hdiv
  have hQ : 0 < S.prod / n := Int.ediv_pos_of_pos_of_dvd (List.prod_pos hS) hn.le hdiv
  refine Fragment.valid_of_bijOn (fun r hr => ?_) (fun x hx r r' => ?_) (by simpa using hQ) hn
    (bijOn_of_injOn ?_ ?_ ?_)
  · simp only [Fragment.boundVars, shapeBox, List.mem_append, List.mem_map, List.mem_singleton]
      at hr
    rcases hr with ⟨a, -, rfl⟩ | rfl <;> rfl
  · simp [Fragment.indexAt, valueAt_flattenLoops (by simpa [Fragment.inputDim, shapeBox] using hx)]
  · rintro z hz
    obtain ⟨x, v, rfl, hx, -⟩ := inBox_append_singleton.1 hz
    have hk := rowMajorOffset_mem hx
    rw [fullLayout_apply_partition hn (hlen hx)]
    simp only [boxSet, Set.mem_setOf_eq, shapeBox, List.singleton_append, List.map_cons,
      List.map_nil, inBox_cons_cons, contains_ofExtent, inBox_nil_left, and_true]
    exact ⟨⟨Int.ediv_nonneg hk.1 hn.le, Int.ediv_lt_of_lt_mul hn (hP.symm ▸ hk.2)⟩, emod_mem _ hn⟩
  · rintro z₁ hz₁ z₂ hz₂ h
    obtain ⟨x₁, v₁, rfl, hx₁, hv₁⟩ := inBox_append_singleton.1 hz₁
    obtain ⟨x₂, v₂, rfl, hx₂, hv₂⟩ := inBox_append_singleton.1 hz₂
    rw [fullLayout_apply_partition hn (hlen hx₁), fullLayout_apply_partition hn (hlen hx₂)] at h
    simp only [List.cons.injEq, and_true] at h
    rw [rowMajorOffset_injOn hx₁ hx₂ (eq_of_ediv_emod_eq h.1 h.2)]
    simp only [Range.ofExtent, Range.Contains] at hv₁ hv₂
    congr 2
    omega
  · refine Int.ofNat_le.1 ?_
    rw [boxCard_eq_prod (by simp [shapeBox, Range.ofExtent, hn.le, hQ.le]),
      boxCard_eq_prod (by simpa [Fragment.boundVars, shapeBox, Range.ofExtent, or_imp, forall_and]
        using fun s hs => (hS s hs).le)]
    simp [Fragment.boundVars, hP, shapeBox, Range.ofExtent, Function.comp_def]

/-- Thread `t` of the partition fragment holds the points whose row-major offset is `t` modulo
`num_thread`, in the order of the box. -/
theorem threadPoints_partition (hn : 0 < n)
    (hF : F = ⟨shapeBox S, [.floorDiv (flattenLoops S) (.int n)],
      .floorMod (flattenLoops S) (.int n), Range.ofExtent 1⟩) (t : Int) :
    F.threadPoints t =
      ((boxPoints (shapeBox S)).filter fun x => rowMajorOffset S x % n == t).map (· ++ [0]) := by
  subst hF
  rw [Fragment.threadPoints, Fragment.boundVars, boxPoints_append_ofExtent_one, List.filter_map]
  congr 1
  refine List.filter_congr fun x hx => ?_
  have hx' : x.length = S.length := by simpa [shapeBox] using (mem_boxPoints.1 hx).length_eq
  simp [valueAt_flattenLoops hx', Int.fmod_eq_emod _ hn.le]

end Fragment

/-! ## The partitioned nest -/

/-- Run on thread `t`, a partitioned nest runs its body at the points the fragment places on `t`,
and a body that does not read the thread variable runs as in the original nest. -/
theorem perm_exec_partitionLoop {E : IterMapEngine} {F : Fragment}
    {heads : List (Nat × Int × ForKind)} {body s : Stmt} {thread : Nat} {L : List Int} {T : Int}
    (heap : Heap) (ρ : Nat → Int) (hlen : heads.length = F.inputDim) (hF : F.fullLayout.Valid)
    (hL : F.outputShape = .ok L) (hT : F.threadExtent = .ok T)
    (hvars : ∀ v ∈ body.loopVars, v ∉ heads.map (·.1)) (hthread : body.varBound ≤ thread)
    (hs : partitionLoop E (Stmt.loopNest heads body) thread F = .ok s) {t : Int}
    (ht : 0 ≤ t ∧ t < T) :
    (s.exec heap (Function.update ρ thread t)).Perm
      ((F.threadPoints t).flatMap fun z => body.exec heap (bindVars ρ (heads.map (·.1)) z)) := by
  obtain ⟨M, hM⟩ := exists_inverse_of_partitionLoop hs
  have hbind : ∀ v ∈ body.loopVars, v ≠ thread ∧ v ∉ heads.map (·.1) := fun v hv =>
    ⟨((Stmt.loopVars_lt_varBound body v hv).trans_le hthread).ne, hvars v hv⟩
  have hperm := (perm_threadPoints hF hL hT hM ht).flatMap_right fun z =>
    body.exec heap (bindVars ρ (heads.map (·.1)) z)
  rw [List.flatMap_map] at hperm
  rw [exec_partitionLoop heap ρ rfl hlen hL hbind hM hs t]
  refine (List.Perm.of_eq (List.flatMap_congr fun y _ => ?_)).trans hperm
  exact Stmt.exec_congr heap body fun w hw =>
    bindVars_congr _ _ (Function.update_noteq (by omega) _ _)

theorem bindVars_append_of_length {ρ : Nat → Int} {vs : List Nat} {x : List Int}
    (hx : x.length = vs.length) (r : List Int) : bindVars ρ vs (x ++ r) = bindVars ρ vs x := by
  rw [← bindVars_take _ _ (x ++ r) _ le_rfl, List.take_left' hx]

/-- Over all `ThreadExtent()` threads, a nest partitioned by a valid fragment runs its body at every
point of the fragment's box `ReplicateExtent()` times: each point is placed once per replica, and
the body does not see the replica.  The extents of the nest's own loops are not read. -/
theorem perm_flatMap_exec_partitionLoop {E : IterMapEngine} {F : Fragment}
    {heads : List (Nat × Int × ForKind)} {body s : Stmt} {thread : Nat} {T : Int}
    (heap : Heap) (ρ : Nat → Int) (hlen : heads.length = F.inputDim) (hF : F.Valid)
    (hT : F.threadExtent = .ok T) (hvars : ∀ v ∈ body.loopVars, v ∉ heads.map (·.1))
    (hthread : body.varBound ≤ thread)
    (hs : partitionLoop E (Stmt.loopNest heads body) thread F = .ok s) :
    ((List.range T.toNat).flatMap fun t => s.exec heap (Function.update ρ thread t)).Perm
      ((boxPoints (shapeBox F.inputShape)).flatMap fun x =>
        (List.range F.replicateExtent.toNat).flatMap fun _ =>
          body.exec heap (bindVars ρ (heads.map (·.1)) x)) := by
  obtain ⟨L, hL⟩ := exists_outputShape_of_valid hF.1
  have hfv : F.forwardVar = shapeBox F.inputShape := by
    rw [Fragment.inputShape, shapeBox_map_extent hF.min_forwardVar]
  open List in calc
    ((List.range T.toNat).flatMap fun t => s.exec heap (Function.update ρ thread t))
    _ ~ (List.range T.toNat).flatMap fun t => (F.threadPoints t).flatMap fun z =>
        body.exec heap (bindVars ρ (heads.map (·.1)) z) :=
      List.Perm.flatMap_left _ fun t ht => perm_exec_partitionLoop heap ρ hlen hF.1 hL hT hvars
        hthread hs ⟨by omega, by simp at ht; omega⟩
    _ = ((List.range T.toNat).flatMap fun t => F.threadPoints t).flatMap fun z =>
        body.exec heap (bindVars ρ (heads.map (·.1)) z) := (List.flatMap_assoc _ _ _).symm
    _ ~ (boxPoints F.boundVars).flatMap fun z =>
        body.exec heap (bindVars ρ (heads.map (·.1)) z) :=
      (perm_flatMap_threadPoints hT).flatMap_right _
    _ = _ := by
      rw [Fragment.boundVars, hfv, boxPoints_append_singleton, List.flatMap_assoc]
      refine List.flatMap_congr fun x hx => ?_
      have hx' : x.length = (heads.map (·.1)).length := by
        simpa [shapeBox, hlen] using (mem_boxPoints.1 hx).length_eq
      rw [List.flatMap_map, Range.values, List.flatMap_map, Fragment.replicateExtent]
      exact List.flatMap_congr fun _ _ => by rw [bindVars_append_of_length hx']

/-! ## When `PartitionLoop` returns -/

/-- The number of `For` loops at the root of a statement, each the body of the one before. -/
def Stmt.loopDepth : Stmt → Nat
  | .forLoop _ _ _ _ body => body.loopDepth + 1
  | _ => 0

/-- `stmt.as<For>()` is defined: the statement is a `For`. -/
def Stmt.isFor : Stmt → Bool
  | .forLoop .. => true
  | _ => false

theorem stripLoops_ok_iff : ∀ (es : List PrimExpr) (vmap : Nat → Option PrimExpr) (op : Stmt),
    (∃ r, stripLoops es vmap op = .ok r) ↔ es.length ≤ op.loopDepth
  | [], _, _ => by simp [stripLoops, pure, Except.pure]
  | _ :: es, _, .forLoop _ _ _ _ b => by
      simp [stripLoops, Stmt.loopDepth, stripLoops_ok_iff es]
  | _ :: _, _, .seq .. | _ :: _, _, .bufferStore .. | _ :: _, _, .ifThenElse .. =>
      ⟨fun ⟨_, h⟩ => (by cases h), fun h => absurd h (by simp [Stmt.loopDepth])⟩

theorem Stmt.asFor_ok_iff (s : Stmt) : (∃ s', s.asFor = .ok s') ↔ s.isFor = true := by
  cases s <;> simp [Stmt.asFor, Stmt.isFor, pure, Except.pure]

@[simp] theorem Stmt.isFor_loopPragmaUnroll (s : Stmt) : s.loopPragmaUnroll.isFor = s.isFor := by
  cases s with
  | forLoop =>
      simp only [Stmt.loopPragmaUnroll]
      split_ifs <;> rfl
  | _ => rfl

@[simp] theorem Stmt.isFor_subst (σ : Nat → Option PrimExpr) (s : Stmt) :
    (s.subst σ).isFor = s.isFor := by
  cases s <;> rfl

theorem Stmt.isFor_loopNest (heads : List (Nat × Int × ForKind)) (body : Stmt) :
    (Stmt.loopNest heads body).isFor = (!heads.isEmpty || body.isFor) := by
  rcases heads with _ | ⟨⟨v, e, k⟩, heads⟩ <;> rfl

section Strip

variable {E : IterMapEngine} {F : Fragment} {M : Layout} {L : List Int}

/-- `PartitionLoop` once the inverse is found: the stripping loop over `InputDim()` indices, then the
new loops over `OutputShape()`. -/
theorem partitionLoop_eq_strip (op : Stmt) (thread : Nat) (hM : F.inverse E = .ok M)
    (hL : F.outputShape = .ok L) :
    ∃ es : List PrimExpr, es.length = F.inputDim ∧ partitionLoop E op thread F =
      stripLoops es (fun _ => none) op >>= fun (vmap, body) =>
        (Stmt.loopNest (((freshVars op thread F.outputDim).zip L).map fun (v, e) => (v, e, .serial))
          (body.subst vmap)).loopPragmaUnroll.asFor :=
  ⟨_, by simp [length_forwardIndex_of_inverse hM], partitionLoop_eq_bind hM hL⟩

end Strip

/-- `PartitionLoop(op, thread, analyzer, loop_layout)` returns exactly when the analysis inverts
the fragment, `op` has at least `InputDim()` loops at its root to strip, and the result is a `For`:
the fragment has an output dimension, or the statement under the stripped loops is a loop. -/
theorem partitionLoop_ok_iff (E : IterMapEngine) (op : Stmt) (thread : Nat) (F : Fragment) :
    (∃ s, partitionLoop E op thread F = .ok s) ↔ (∃ M, F.inverse E = .ok M) ∧
      F.inputDim ≤ op.loopDepth ∧ (F.outputDim ≠ 0 ∨ (op.dropLoops F.inputDim).isFor = true) := by
  by_cases hinv : ∃ M, F.inverse E = .ok M
  · obtain ⟨M, hM⟩ := hinv
    obtain ⟨-, S, -, hS, -⟩ := Layout.inverse_eq_ok.1 hM
    obtain ⟨L, -, hL, -, -⟩ := Fragment.fullLayout_outputShape_eq_ok.1 hS
    obtain ⟨es, hes, heq⟩ := partitionLoop_eq_strip op thread hM hL
    have hz : ((freshVars op thread F.outputDim).zip L).length = F.outputDim := by
      simp [freshVars, Fragment.length_outputShape hL]
    rw [heq]
    cases hst : stripLoops es (fun _ => none) op with
    | error e =>
        have hlt : ¬F.inputDim ≤ op.loopDepth := by
          rw [← hes, ← stripLoops_ok_iff es (fun _ => none) op, hst]
          exact fun ⟨_, h⟩ => by cases h
        exact ⟨fun ⟨_, h⟩ => (by cases h), fun h => absurd h.2.1 hlt⟩
    | ok r =>
        obtain ⟨vmap, body⟩ := r
        have hle : F.inputDim ≤ op.loopDepth := hes ▸ (stripLoops_ok_iff es _ op).1 ⟨_, hst⟩
        rw [Except.ok_bind, Stmt.asFor_ok_iff, Stmt.isFor_loopPragmaUnroll, Stmt.isFor_loopNest,
          Stmt.isFor_subst, stripLoops_eq_ok es _ op hst, hes]
        have hne : (((freshVars op thread F.outputDim).zip L).map
            fun (v, e) => (v, e, ForKind.serial)).isEmpty = (F.outputDim == 0) :=
          Bool.eq_iff_iff.2 (by simp [List.isEmpty_iff, ← List.length_eq_zero, hz])
        have hinv : ∃ M, F.inverse E = .ok M := ⟨M, hM⟩
        simp [hne, hle, hinv]
  · exact ⟨fun ⟨_, hs⟩ => absurd (exists_inverse_of_partitionLoop hs) hinv, fun h => absurd h.1 hinv⟩

section NumThread

variable {E : IterMapEngine} {heads : List (Nat × Int × ForKind)} {body s : Stmt} {thread : Nat}
  {n : Int}

/-- What the threads of `PartitionLoop(op, thread, analyzer, num_thread)` run on a parallel nest:
thread `t` the iterations whose flattened number is `t` modulo `num_thread`, and all of them
together the stores of the nest, each once. -/
theorem perm_exec_partitionLoopNumThread (heap : Heap) (ρ : Nat → Int)
    (hpar : ∀ h ∈ heads, h.2.2 = .parallel) (hpos : ∀ h ∈ heads, 0 < h.2.1)
    (hinner : body.collectParallel = []) (hn : 0 < n) (hdiv : n ∣ (heads.map (·.2.1)).prod)
    (hvars : ∀ v ∈ body.loopVars, v ∉ heads.map (·.1)) (hthread : body.varBound ≤ thread)
    (hs : partitionLoopNumThread E (Stmt.loopNest heads body) thread n = .ok s) :
    (∀ t, 0 ≤ t → t < n → (s.exec heap (Function.update ρ thread t)).Perm
      (((boxPoints (shapeBox (heads.map (·.2.1)))).filter fun x =>
          rowMajorOffset (heads.map (·.2.1)) x % n == t).flatMap fun x =>
        body.exec heap (bindVars ρ (heads.map (·.1)) x))) ∧
    ((List.range n.toNat).flatMap fun t => s.exec heap (Function.update ρ thread t)).Perm
      ((Stmt.loopNest heads body).exec heap ρ) := by
  have hpart := partition_loopNest hpar hinner n
  generalize hF₀ : (⟨shapeBox (heads.map (·.2.1)), _, _, _⟩ : Fragment) = F at hpart
  obtain ⟨hF, hL, hT⟩ := valid_partitionFragment (List.forall_mem_map.2 hpos) hn hdiv hF₀.symm
  rw [partitionLoopNumThread, hpart, Except.ok_bind] at hs
  have hshape : heads.map (·.2.1) = F.inputShape := by
    simp [← hF₀, Fragment.inputShape, map_extent_shapeBox]
  refine ⟨fun t h0 ht => ?_, ?_⟩
  · have := perm_exec_partitionLoop heap ρ (by simpa using congrArg List.length hshape) hF.1 hL hT
      hvars hthread hs ⟨h0, ht⟩
    rw [threadPoints_partition hn hF₀.symm, List.flatMap_map] at this
    refine this.trans (List.Perm.of_eq (List.flatMap_congr fun x hx => ?_))
    have hx' : x.length = (heads.map (·.1)).length := by
      simpa [shapeBox] using (mem_boxPoints.1 (List.mem_of_mem_filter hx)).length_eq
    rw [bindVars_append_of_length hx']
  · refine (perm_flatMap_exec_partitionLoop heap ρ (by simpa using congrArg List.length hshape) hF
      hT hvars hthread hs).trans (List.Perm.of_eq ?_)
    rw [← hshape, Stmt.exec_loopNest, ← hF₀]
    simp [Fragment.replicateExtent, Range.ofExtent, List.range_succ]

end NumThread

/-- `PartitionLoop(op, thread, analyzer, num_thread)` on a nest of parallel loops with positive
extents, whose body has no parallel loop, rebinds no loop variable and does not read the thread
variable, with `num_thread` dividing the loop size: `Partition` builds a valid fragment over
`num_thread` threads, thread `t` runs the iterations whose flattened number is `t` modulo
`num_thread`, and the threads together run the stores of the nest, each once. -/
theorem partitionLoopNumThread_perm (E : IterMapEngine) (heap : Heap) (ρ : Nat → Int)
    (heads : List (Nat × Int × ForKind)) (body s : Stmt) (thread : Nat) (n : Int)
    (hpar : ∀ h ∈ heads, h.2.2 = .parallel) (hpos : ∀ h ∈ heads, 0 < h.2.1)
    (hinner : body.collectParallel = []) (hn : 0 < n) (hdiv : n ∣ (heads.map (·.2.1)).prod)
    (hvars : ∀ v ∈ body.loopVars, v ∉ heads.map (·.1)) (hthread : body.varBound ≤ thread)
    (hs : partitionLoopNumThread E (Stmt.loopNest heads body) thread n = .ok s) :
    (∃ F, LoopPartitioner.partition (Stmt.loopNest heads body) n = .ok F ∧ F.Valid ∧
      F.threadExtent = .ok n) ∧
    (∀ t, 0 ≤ t → t < n → (s.exec heap (Function.update ρ thread t)).Perm
      (((boxPoints (shapeBox (heads.map (·.2.1)))).filter fun x =>
          rowMajorOffset (heads.map (·.2.1)) x % n == t).flatMap fun x =>
        body.exec heap (bindVars ρ (heads.map (·.1)) x))) ∧
    ((List.range n.toNat).flatMap fun t => s.exec heap (Function.update ρ thread t)).Perm
      ((Stmt.loopNest heads body).exec heap ρ) := by
  obtain ⟨hF, -, hT⟩ := valid_partitionFragment (List.forall_mem_map.2 hpos) hn hdiv rfl
  exact ⟨⟨_, partition_loopNest hpar hinner n, hF, hT⟩,
    perm_exec_partitionLoopNumThread heap ρ hpar hpos hinner hn hdiv hvars hthread hs⟩

/-- A `2 × 2` parallel nest on two threads. -/
theorem partitionLoopNumThread_perm_grid :
    ∃ s, partitionLoopNumThread tableEngine (Stmt.loopNest [(0, 2, .parallel), (1, 2, .parallel)]
        (.bufferStore 0 (.var 0) [.var 0, .var 1])) 2 2 = .ok s ∧
      ((List.range (2 : Int).toNat).flatMap fun t =>
        s.exec Heap.zero (Function.update (fun _ => 0) 2 t)).Perm
        ((Stmt.loopNest [(0, 2, .parallel), (1, 2, .parallel)]
          (.bufferStore 0 (.var 0) [.var 0, .var 1])).exec Heap.zero (fun _ => 0)) := by
  obtain ⟨s, hs⟩ : ∃ s, partitionLoopNumThread tableEngine (Stmt.loopNest [(0, 2, .parallel),
      (1, 2, .parallel)] (.bufferStore 0 (.var 0) [.var 0, .var 1])) 2 2 = .ok s := ⟨_, rfl⟩
  exact ⟨s, hs, (partitionLoopNumThread_perm tableEngine Heap.zero (fun _ => 0)
    [(0, 2, .parallel), (1, 2, .parallel)] (.bufferStore 0 (.var 0) [.var 0, .var 1]) s 2 2
    (by simp) (by simp) rfl (by decide) (by decide) (by simp [Stmt.loopVars]) (by decide) hs).2.2⟩

end TileLayout
