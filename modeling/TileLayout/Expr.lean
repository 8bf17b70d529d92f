import Mathlib.Logic.Function.Basic
import Mathlib.Data.List.Basic
/-!
# TIR expressions

The layout code builds and rewrites `PrimExpr` trees: index maps, thread maps, loop bounds and
buffer accesses.  This module gives the fragment of TIR those trees use a deep embedding, with
the integer semantics the generated kernels run (`FloorDiv`/`FloorMod` round toward negative
infinity), and the variable substitution `Substitute` that `Forward`, `Repeat` and
`PartitionLoop` are built from.  Variables are identified by a number, as TIR identifies them
by object identity.
-/

namespace TileLayout

/-- A TIR data type: compared by the code modelled here, and the target of a `Cast`. -/
structure DataType where
  code : Nat
  bits : Nat
  lanes : Nat
  deriving DecidableEq

/-- The expression nodes the layout and loop code create. Comparisons and `And` produce `0`/`1`;
`bufferLoad` reads the buffer whose data variable is `buffer`. -/
inductive PrimExpr where
  | var (v : Nat)
  | int (value : Int)
  | add (a b : PrimExpr)
  | sub (a b : PrimExpr)
  | mul (a b : PrimExpr)
  | floorDiv (a b : PrimExpr)
  | floorMod (a b : PrimExpr)
  | lt (a b : PrimExpr)
  | ge (a b : PrimExpr)
  | eq (a b : PrimExpr)
  | and (a b : PrimExpr)
  | ifThenElse (cond thenCase elseCase : PrimExpr)
  | cast (dtype : DataType) (value : PrimExpr)
  | bufferLoad (buffer : Nat) (indices : List PrimExpr)

instance : Inhabited PrimExpr := ⟨.int 0⟩

/-- What an evaluation reads besides the variables: the value stored at each index tuple of each
buffer, and the target's conversion of a value to a data type, which `Cast` applies (a
wrap-around for narrow integer types, a rounding for floating ones; every result here holds for
any conversion). -/
structure Heap where
  load : Nat → List Int → Int
  convert : DataType → Int → Int

/-- All buffers zero, and every conversion the identity: what an index map is evaluated against,
as it reads no buffer and a `Cast` between index types keeps an index's value. -/
def Heap.zero : Heap := ⟨fun _ _ => 0, fun _ v => v⟩

mutual
/-- Values are unbounded integers; a `Cast` converts its operand with `heap.convert`. -/
def PrimExpr.eval (ρ : Nat → Int) (heap : Heap) : PrimExpr → Int
  | .var v => ρ v
  | .int n => n
  | .add a b => a.eval ρ heap + b.eval ρ heap
  | .sub a b => a.eval ρ heap - b.eval ρ heap
  | .mul a b => a.eval ρ heap * b.eval ρ heap
  | .floorDiv a b => Int.fdiv (a.eval ρ heap) (b.eval ρ heap)
  | .floorMod a b => Int.fmod (a.eval ρ heap) (b.eval ρ heap)
  | .lt a b => if a.eval ρ heap < b.eval ρ heap then 1 else 0
  | .ge a b => if b.eval ρ heap ≤ a.eval ρ heap then 1 else 0
  | .eq a b => if a.eval ρ heap = b.eval ρ heap then 1 else 0
  | .and a b => if a.eval ρ heap ≠ 0 ∧ b.eval ρ heap ≠ 0 then 1 else 0
  | .ifThenElse c t e => if c.eval ρ heap ≠ 0 then t.eval ρ heap else e.eval ρ heap
  | .cast d v => heap.convert d (v.eval ρ heap)
  | .bufferLoad b idx => heap.load b (PrimExpr.evalList ρ heap idx)

def PrimExpr.evalList (ρ : Nat → Int) (heap : Heap) : List PrimExpr → List Int
  | [] => []
  | e :: es => e.eval ρ heap :: PrimExpr.evalList ρ heap es
end

/-- A value of type `src` as the lowerings hand it to a `dst` location: converted by
`Cast(dst, v)` when the two types differ, kept otherwise. -/
def Heap.castTo (heap : Heap) (src dst : DataType) (v : Int) : Int :=
  if src ≠ dst then heap.convert dst v else v

/-- The idiom `if (src != dst) value = Cast(dst, value)` evaluates to `castTo`. -/
@[simp] theorem PrimExpr.eval_ite_cast (src dst : DataType) (e : PrimExpr) (ρ : Nat → Int)
    (heap : Heap) :
    (if src ≠ dst then PrimExpr.cast dst e else e).eval ρ heap =
      heap.castTo src dst (e.eval ρ heap) := by
  unfold Heap.castTo
  split_ifs <;> rfl

mutual
/-- `Substitute(e, vmap)`: every occurrence of a mapped variable is replaced, binders are not
looked at (TIR variables are bound once). -/
def PrimExpr.subst (σ : Nat → Option PrimExpr) : PrimExpr → PrimExpr
  | .var v => (σ v).getD (.var v)
  | .int n => .int n
  | .add a b => .add (a.subst σ) (b.subst σ)
  | .sub a b => .sub (a.subst σ) (b.subst σ)
  | .mul a b => .mul (a.subst σ) (b.subst σ)
  | .floorDiv a b => .floorDiv (a.subst σ) (b.subst σ)
  | .floorMod a b => .floorMod (a.subst σ) (b.subst σ)
  | .lt a b => .lt (a.subst σ) (b.subst σ)
  | .ge a b => .ge (a.subst σ) (b.subst σ)
  | .eq a b => .eq (a.subst σ) (b.subst σ)
  | .and a b => .and (a.subst σ) (b.subst σ)
  | .ifThenElse c t e => .ifThenElse (c.subst σ) (t.subst σ) (e.subst σ)
  | .cast d v => .cast d (v.subst σ)
  | .bufferLoad b idx => .bufferLoad b (PrimExpr.substList σ idx)

def PrimExpr.substList (σ : Nat → Option PrimExpr) : List PrimExpr → List PrimExpr
  | [] => []
  | e :: es => e.subst σ :: PrimExpr.substList σ es
end

/-- The environment a substitution produces: mapped variables take the value of their image. -/
def substEnv (σ : Nat → Option PrimExpr) (ρ : Nat → Int) (heap : Heap) (v : Nat) : Int :=
  match σ v with
  | some e => e.eval ρ heap
  | none => ρ v

mutual
theorem PrimExpr.eval_subst (σ : Nat → Option PrimExpr) (ρ : Nat → Int) (heap : Heap) :
    (e : PrimExpr) → (e.subst σ).eval ρ heap = e.eval (substEnv σ ρ heap) heap
  | .var v => by cases h : σ v <;> simp [PrimExpr.subst, PrimExpr.eval, substEnv, h]
  | .int _ => rfl
  | .add a b | .sub a b | .mul a b | .floorDiv a b | .floorMod a b | .lt a b | .ge a b
  | .eq a b | .and a b => by
      simp only [PrimExpr.subst, PrimExpr.eval, PrimExpr.eval_subst σ ρ heap a,
        PrimExpr.eval_subst σ ρ heap b]
  | .ifThenElse c t e => by
      simp only [PrimExpr.subst, PrimExpr.eval, PrimExpr.eval_subst σ ρ heap c,
        PrimExpr.eval_subst σ ρ heap t, PrimExpr.eval_subst σ ρ heap e]
  | .cast _ v => by simp only [PrimExpr.subst, PrimExpr.eval, PrimExpr.eval_subst σ ρ heap v]
  | .bufferLoad _ idx => by
      simp only [PrimExpr.subst, PrimExpr.eval, PrimExpr.evalList_subst σ ρ heap idx]

theorem PrimExpr.evalList_subst (σ : Nat → Option PrimExpr) (ρ : Nat → Int) (heap : Heap) :
    (es : List PrimExpr) →
      PrimExpr.evalList ρ heap (PrimExpr.substList σ es) =
        PrimExpr.evalList (substEnv σ ρ heap) heap es
  | [] => rfl
  | e :: es => by
      simp only [PrimExpr.substList, PrimExpr.evalList, PrimExpr.eval_subst σ ρ heap e,
        PrimExpr.evalList_subst σ ρ heap es]
end

mutual
/-- `e` does not read variable `n`. -/
def PrimExpr.freeOf (n : Nat) : PrimExpr → Bool
  | .var v => v != n
  | .int _ => true
  | .add a b | .sub a b | .mul a b | .floorDiv a b | .floorMod a b | .lt a b | .ge a b
  | .eq a b | .and a b => a.freeOf n && b.freeOf n
  | .ifThenElse c t e => c.freeOf n && t.freeOf n && e.freeOf n
  | .cast _ v => v.freeOf n
  | .bufferLoad _ idx => PrimExpr.freeOfList n idx

def PrimExpr.freeOfList (n : Nat) : List PrimExpr → Bool
  | [] => true
  | e :: es => e.freeOf n && PrimExpr.freeOfList n es
end

mutual
/-- An expression that does not read `n` has one value in environments that differ only at `n`. -/
theorem PrimExpr.eval_congr_of_freeOf {n : Nat} {ρ ρ' : Nat → Int} (hρ : ∀ v, v ≠ n → ρ v = ρ' v)
    (heap : Heap) : (e : PrimExpr) → e.freeOf n = true → e.eval ρ heap = e.eval ρ' heap
  | .var v, h => hρ v (by simpa [PrimExpr.freeOf] using h)
  | .int _, _ => rfl
  | .add a b, h | .sub a b, h | .mul a b, h | .floorDiv a b, h | .floorMod a b, h | .lt a b, h
  | .ge a b, h | .eq a b, h | .and a b, h => by
      simp only [PrimExpr.freeOf, Bool.and_eq_true] at h
      simp only [PrimExpr.eval, PrimExpr.eval_congr_of_freeOf hρ heap a h.1,
        PrimExpr.eval_congr_of_freeOf hρ heap b h.2]
  | .ifThenElse c t e, h => by
      simp only [PrimExpr.freeOf, Bool.and_eq_true] at h
      simp only [PrimExpr.eval, PrimExpr.eval_congr_of_freeOf hρ heap c h.1.1,
        PrimExpr.eval_congr_of_freeOf hρ heap t h.1.2, PrimExpr.eval_congr_of_freeOf hρ heap e h.2]
  | .cast d v, h => congrArg (heap.convert d) (PrimExpr.eval_congr_of_freeOf hρ heap v h)
  | .bufferLoad _ idx, h => by
      simp only [PrimExpr.eval, PrimExpr.evalList_congr_of_freeOf hρ heap idx h]

theorem PrimExpr.evalList_congr_of_freeOf {n : Nat} {ρ ρ' : Nat → Int}
    (hρ : ∀ v, v ≠ n → ρ v = ρ' v) (heap : Heap) :
    (es : List PrimExpr) → PrimExpr.freeOfList n es = true →
      PrimExpr.evalList ρ heap es = PrimExpr.evalList ρ' heap es
  | [], _ => rfl
  | e :: es, h => by
      simp only [PrimExpr.freeOfList, Bool.and_eq_true] at h
      simp only [PrimExpr.evalList, PrimExpr.eval_congr_of_freeOf hρ heap e h.1,
        PrimExpr.evalList_congr_of_freeOf hρ heap es h.2]
end

mutual
/-- One more than the largest variable `e` reads, `0` when it reads none. -/
def PrimExpr.varBound : PrimExpr → Nat
  | .var v => v + 1
  | .int _ => 0
  | .add a b | .sub a b | .mul a b | .floorDiv a b | .floorMod a b | .lt a b | .ge a b
  | .eq a b | .and a b => max a.varBound b.varBound
  | .ifThenElse c t e => max c.varBound (max t.varBound e.varBound)
  | .cast _ v => v.varBound
  | .bufferLoad _ idx => PrimExpr.varBoundList idx

def PrimExpr.varBoundList : List PrimExpr → Nat
  | [] => 0
  | e :: es => max e.varBound (PrimExpr.varBoundList es)
end

mutual
/-- An expression has one value in environments that agree on the variables it may read. -/
theorem PrimExpr.eval_congr_of_varBound {ρ ρ' : Nat → Int} (heap : Heap) :
    (e : PrimExpr) → (∀ v, v < e.varBound → ρ v = ρ' v) → e.eval ρ heap = e.eval ρ' heap
  | .var v, h => h v (Nat.lt_succ_self v)
  | .int _, _ => rfl
  | .add a b, h | .sub a b, h | .mul a b, h | .floorDiv a b, h | .floorMod a b, h | .lt a b, h
  | .ge a b, h | .eq a b, h | .and a b, h => by
      simp only [PrimExpr.eval,
        PrimExpr.eval_congr_of_varBound heap a fun v hv => h v (Nat.lt_of_lt_of_le hv (Nat.le_max_left _ _)),
        PrimExpr.eval_congr_of_varBound heap b fun v hv => h v (Nat.lt_of_lt_of_le hv (Nat.le_max_right _ _))]
  | .ifThenElse c t e, h => by
      have ht : ∀ v, v < t.varBound → ρ v = ρ' v := fun v hv =>
        h v (Nat.lt_of_lt_of_le hv ((Nat.le_max_left _ _).trans (Nat.le_max_right _ _)))
      have he : ∀ v, v < e.varBound → ρ v = ρ' v := fun v hv =>
        h v (Nat.lt_of_lt_of_le hv ((Nat.le_max_right _ _).trans (Nat.le_max_right _ _)))
      simp only [PrimExpr.eval,
        PrimExpr.eval_congr_of_varBound heap c fun v hv => h v (Nat.lt_of_lt_of_le hv (Nat.le_max_left _ _)),
        PrimExpr.eval_congr_of_varBound heap t ht, PrimExpr.eval_congr_of_varBound heap e he]
  | .cast d v, h => congrArg (heap.convert d) (PrimExpr.eval_congr_of_varBound heap v h)
  | .bufferLoad _ idx, h => by
      simp only [PrimExpr.eval, PrimExpr.evalList_congr_of_varBound heap idx h]

theorem PrimExpr.evalList_congr_of_varBound {ρ ρ' : Nat → Int} (heap : Heap) :
    (es : List PrimExpr) → (∀ v, v < PrimExpr.varBoundList es → ρ v = ρ' v) →
      PrimExpr.evalList ρ heap es = PrimExpr.evalList ρ' heap es
  | [], _ => rfl
  | e :: es, h => by
      simp only [PrimExpr.evalList,
        PrimExpr.eval_congr_of_varBound heap e fun v hv => h v (Nat.lt_of_lt_of_le hv (Nat.le_max_left _ _)),
        PrimExpr.evalList_congr_of_varBound heap es fun v hv => h v (Nat.lt_of_lt_of_le hv (Nat.le_max_right _ _))]
end

end TileLayout
