import TileLayout.LoopPartition
import TileLayout.Copy
/-!
# Fill lowering

`T.fill(dst, value)` becomes a `tl::Fill`, whose constructor casts the value to the buffer's type
when the types differ, and `Fill::Canonialize` lowers it to a nest of parallel loops, one per
dimension of the buffer's shape, around the store of the value at the loop variables.  For a
buffer in `local.fragment`, the outermost loop gets the `kSkipLayoutInfer` annotation, which the
model does not keep; `body.as<For>().value()` asks the statement to be a loop, so a buffer with no
dimension cannot be filled there.

`make_canonialize_exec` says that the lowered nest stores the value, converted to the buffer's
type, at every index of the buffer's shape, each once and in row-major order.  New variables `Var(std::string{char('i' + i)})` are
numbered from one past every variable the shape and the value read.
-/

namespace TileLayout

/-- `tl::Fill`: the destination buffer, its storage scope `dst.scope()` (which `Buffer` does not
keep), and the value. -/
structure Fill where
  dst : Buffer
  dstScope : String
  value : PrimExpr

namespace Fill

/-- `Fill::Fill(args, vmap)` on the buffer `args[0]` names and the value `args[1]` of type
`valueDtype`: a value of another type than the buffer's is cast to it. -/
def make (dst : Buffer) (dstScope : String) (value : PrimExpr) (valueDtype : DataType) : Fill :=
  ⟨dst, dstScope, if valueDtype ≠ dst.dtype then .cast dst.dtype value else value⟩

/-- One past every variable the value and the shape read: the first number of the new loop
variables. -/
def varBase (f : Fill) : Nat := PrimExpr.varBoundList (f.value :: f.dst.shape)

/-- The loop variables of `Canonialize`: variable `i` over `[0, dst->shape[i])`. -/
def loopVars (f : Fill) : List (Nat × PrimExpr) :=
  f.dst.shape.enum.map fun p => (f.varBase + p.1, p.2)

/-- `Fill::Canonialize(T, analyzer)`: the store `BufferStore(dst, value, dst_indices)` inside a
parallel loop per dimension, the first dimension outermost; for a fragment, the outermost
statement must be a loop. -/
def canonialize (f : Fill) : Except String Stmt := do
  let body := Stmt.bufferStore f.dst.data f.value (f.loopVars.map fun p => .var p.1)
  let body := f.loopVars.foldr (fun (v, e) body => .forLoop v (.int 0) e .parallel body) body
  if f.dstScope = "local.fragment" then body.asFor else pure body

end Fill

/-! ## What the lowered nest runs -/

theorem evalList_map_var (ρ : Nat → Int) (heap : Heap) :
    ∀ vs : List Nat, PrimExpr.evalList ρ heap (vs.map .var) = vs.map ρ
  | [] => rfl
  | v :: vs => by rw [List.map_cons, PrimExpr.evalList, evalList_map_var ρ heap vs]; rfl

/-- Distinct variables bound to a point read the point back. -/
theorem map_bindVars_self {ρ : Nat → Int} {vs : List Nat} {o : List Int} (hnd : vs.Nodup)
    (ho : o.length = vs.length) : vs.map (bindVars ρ vs o) = o :=
  List.ext_getElem (by simp [ho]) fun j h₁ h₂ => by
    rw [List.getElem_map]
    exact bindVars_getElem hnd j (by simpa using h₁) h₂

theorem varBoundList_le {k : Nat} : ∀ {es : List PrimExpr}, (∀ e ∈ es, e.varBound ≤ k) →
    PrimExpr.varBoundList es ≤ k
  | [], _ => Nat.zero_le _
  | _ :: _, h => max_le (h _ (List.mem_cons_self _ _))
      (varBoundList_le fun e he => h e (List.mem_cons_of_mem _ he))

namespace Fill

section Exec

variable (f : Fill)

theorem value_make (dst : Buffer) (dstScope : String) (value : PrimExpr) (valueDtype : DataType)
    (ρ : Nat → Int) (heap : Heap) :
    (make dst dstScope value valueDtype).value.eval ρ heap =
      heap.castTo valueDtype dst.dtype (value.eval ρ heap) :=
  PrimExpr.eval_ite_cast _ _ _ _ _

theorem loopVars_fst :
    f.loopVars.map (·.1) = (List.range f.dst.shape.length).map (f.varBase + ·) := by
  rw [loopVars, List.map_map, ← List.enum_map_fst, List.map_map]
  rfl

theorem loopVars_snd : f.loopVars.map (·.2) = f.dst.shape := by
  rw [loopVars, List.map_map]
  exact List.enum_map_snd _

theorem loopVars_fresh : ∀ p ∈ f.loopVars, p.2.varBound ≤ f.varBase ∧ f.varBase ≤ p.1 := by
  intro p hp
  obtain ⟨⟨i, e⟩, he, rfl⟩ := List.mem_map.1 hp
  exact ⟨varBound_le_varBoundList (List.mem_cons_of_mem _ (List.snd_mem_of_mem_enum he : e ∈ f.dst.shape)),
    Nat.le_add_right _ _⟩

theorem nodup_loopVars_fst : (f.loopVars.map (·.1)).Nodup := by
  rw [loopVars_fst]
  exact (List.nodup_range _).map fun _ _ h => Nat.add_left_cancel h

/-- The store at the loop variables, bound to a point of the shape's rank, stores the value
there. -/
theorem exec_store_bindVars (heap : Heap) (ρ : Nat → Int) {o : List Int}
    (hol : o.length = f.dst.shape.length) :
    (Stmt.bufferStore f.dst.data f.value (f.loopVars.map fun p => .var p.1)).exec heap
      (bindVars ρ (f.loopVars.map (·.1)) o) = [⟨f.dst.data, o, f.value.eval ρ heap⟩] := by
  have hval : f.value.eval (bindVars ρ (f.loopVars.map (·.1)) o) heap = f.value.eval ρ heap :=
    PrimExpr.eval_congr_of_varBound heap f.value fun w hw => bindVars_of_not_mem o fun hm => by
      have : f.value.varBound ≤ f.varBase := varBound_le_varBoundList (List.mem_cons_self _ _)
      rw [loopVars_fst] at hm
      obtain ⟨i, -, rfl⟩ := List.mem_map.1 hm
      omega
  have hvars : (f.loopVars.map fun p => PrimExpr.var p.1) = (f.loopVars.map (·.1)).map .var := by
    rw [List.map_map]
    rfl
  rw [Stmt.exec, hvars, evalList_map_var,
    map_bindVars_self f.nodup_loopVars_fst (by simpa [loopVars] using hol), hval]

/-- The nest of loops without the fragment check: one store of the value per point of the
shape's box. -/
theorem exec_loopNest (heap : Heap) (ρ : Nat → Int) :
    (f.loopVars.foldr (fun (v, e) body => .forLoop v (.int 0) e .parallel body)
      (Stmt.bufferStore f.dst.data f.value (f.loopVars.map fun p => .var p.1))).exec heap ρ =
      (boxPoints (shapeBox (f.dst.shape.map (·.eval ρ heap)))).map fun x =>
        ⟨f.dst.data, x, f.value.eval ρ heap⟩ := by
  rw [Stmt.exec_exprNest heap .parallel _ _ ρ f.loopVars_fresh]
  have hext : f.loopVars.map (·.2.eval ρ heap) = f.dst.shape.map (·.eval ρ heap) := by
    rw [← f.loopVars_snd, List.map_map]
    rfl
  rw [hext]
  refine (List.flatMap_congr fun o ho => ?_).trans (List.flatMap_pure_eq_map _ _)
  rw [f.exec_store_bindVars heap ρ (by simpa using (inBox_shapeBox_iff.1 (mem_boxPoints.1 ho)).1)]
  rfl

/-- The store reads no variable from the first loop variable past the last. -/
theorem varBound_store :
    (Stmt.bufferStore f.dst.data f.value (f.loopVars.map fun p => .var p.1)).varBound ≤
      f.varBase + f.dst.shape.length := by
  refine max_le ((varBound_le_varBoundList (List.mem_cons_self _ _)).trans (Nat.le_add_right _ _))
    (varBoundList_le fun e he => ?_)
  obtain ⟨p, hp, rfl⟩ := List.mem_map.1 he
  obtain ⟨⟨i, e⟩, hie, rfl⟩ := List.mem_map.1 hp
  have := List.fst_lt_of_mem_enum hie
  simp only [PrimExpr.varBound]
  omega

theorem loopVars_eq_nil : f.loopVars = [] ↔ f.dst.shape = [] := by
  simp [loopVars]

/-- `Canonialize` returns the nest itself, or throws for a fragment with no dimension. -/
theorem eq_of_canonialize_eq_ok {s : Stmt} (hs : f.canonialize = .ok s) :
    s = f.loopVars.foldr (fun (v, e) body => .forLoop v (.int 0) e .parallel body)
      (Stmt.bufferStore f.dst.data f.value (f.loopVars.map fun p => .var p.1)) := by
  unfold canonialize at hs
  split at hs
  · exact Stmt.eq_of_asFor_eq_ok hs
  · exact (Except.ok.inj hs).symm

theorem canonialize_ok_iff :
    (∃ s, f.canonialize = .ok s) ↔ ¬(f.dstScope = "local.fragment" ∧ f.dst.shape = []) := by
  rw [← loopVars_eq_nil]
  unfold canonialize
  rcases f.loopVars with _ | ⟨⟨v, e⟩, ps⟩ <;> by_cases hsc : f.dstScope = "local.fragment" <;>
    simp [hsc, Stmt.asFor, pure, Except.pure]

end Exec

/-- `T.fill(dst, value)` lowers to a nest that stores the value, cast to the destination's type
when the two types differ, at every index of the destination's shape, each once and in row-major
order; the lowering fails only for a fragment with no dimension. -/
theorem make_canonialize_exec (dst : Buffer) (dstScope : String) (value : PrimExpr)
    (valueDtype : DataType) :
    ((∃ s, (make dst dstScope value valueDtype).canonialize = .ok s) ↔
        ¬(dstScope = "local.fragment" ∧ dst.shape = [])) ∧
      ∀ s, (make dst dstScope value valueDtype).canonialize = .ok s → ∀ heap ρ,
        s.exec heap ρ = (boxPoints (shapeBox (dst.shape.map (·.eval ρ heap)))).map fun x =>
          ⟨dst.data, x, heap.castTo valueDtype dst.dtype (value.eval ρ heap)⟩ := by
  refine ⟨canonialize_ok_iff _, fun s hs heap ρ => ?_⟩
  rw [eq_of_canonialize_eq_ok _ hs, exec_loopNest, value_make]
  rfl

/-- A `2 × 3` half-precision fragment filled with a single-precision `0`: six stores. -/
theorem make_canonialize_exec_tile :
    ∃ s, (make ⟨0, ⟨2, 16, 1⟩, [.int 2, .int 3]⟩ "local.fragment" (.int 0) ⟨2, 32, 1⟩).canonialize =
      .ok s ∧ (s.exec Heap.zero (fun _ => 0)).length = 6 := by
  obtain ⟨s, hs⟩ := (make_canonialize_exec ⟨0, ⟨2, 16, 1⟩, [.int 2, .int 3]⟩ "local.fragment"
    (.int 0) ⟨2, 32, 1⟩).1.2 (by simp)
  refine ⟨s, hs, ?_⟩
  rw [(make_canonialize_exec _ _ _ _).2 s hs]
  rfl

end Fill

end TileLayout
