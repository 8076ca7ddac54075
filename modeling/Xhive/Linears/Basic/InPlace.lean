import Xhive.Linears.Basic.Compute

/-!
# Operations in place

The elements of an operation are staged in a workspace that meets neither the
operands nor the result, and stored after the last of them.  A result may then
share bytes with its operands in any way: it holds the operation on the operands
as they were before the call.
-/

namespace Xhive.Linears

open Xhive.Support

/-! ## The overlap test -/

theorem overlap_eq_true_iff {a asize b bsize : ℕ} :
    overlap a asize b bsize = true ↔ ∃ x, InRange a asize x ∧ InRange b bsize x := by
  constructor
  · intro h
    rw [overlap] at h
    split at h
    · exact absurd h Bool.false_ne_true
    · split at h
      · exact ⟨b, ⟨by omega, by have := of_decide_eq_true h; omega⟩, le_rfl, by omega⟩
      · exact ⟨a, ⟨le_rfl, by omega⟩, by omega, by have := of_decide_eq_true h; omega⟩
  · rintro ⟨x, ⟨hlow, hhigh⟩, hlow', hhigh'⟩
    rw [overlap, if_neg (by omega)]
    split
    · exact decide_eq_true (by omega)
    · exact decide_eq_true (by omega)

theorem overlap_eq_false_iff {a asize b bsize : ℕ} :
    overlap a asize b bsize = false ↔ Apart a asize b bsize := by
  rw [← Bool.not_eq_true, overlap_eq_true_iff]
  exact ⟨fun h x ha hb => h ⟨x, ha, hb⟩, fun h ⟨x, ha, hb⟩ => h x ha hb⟩

/-! ## The elements that an element reads -/

section Reads

variable {V : Type}

/-- Two pairs of operands with the same shapes that agree on what the element
`(row, col)` of an operation reads. -/
structure SameReads (operation : MatrixOp) (outcols row col : ℕ) (a a' : View V)
    (b b' : Option (View V)) : Prop where
  acols : a'.cols = a.cols
  bcols : b'.map View.cols = b.map View.cols
  product : operation = .mul ∨ operation = .matvec →
    (∀ k < a.cols, a'.data (row * a.cols + k) = a.data (row * a.cols + k)) ∧
      ∀ y ∈ b, ∀ y' ∈ b', ∀ k < a.cols,
        y'.data (k * y.cols + col) = y.data (k * y.cols + col)
  transpose : operation = .transpose → a'.data (col * a.cols + row) = a.data (col * a.cols + row)
  elementwise : ¬(operation = .mul ∨ operation = .matvec) → operation ≠ .transpose →
    a'.data (row * outcols + col) = a.data (row * outcols + col) ∧
      ∀ y ∈ b, ∀ y' ∈ b', y'.data (row * outcols + col) = y.data (row * outcols + col)

variable {operation : MatrixOp} {outcols row col : ℕ}

theorem dotRaw_congr {Q : Type} [QFormat Q] (wide : Bool) {a a' b b' : ℕ → Q}
    {astride bstride count : ℕ} (ha : ∀ k < count, a' (k * astride) = a (k * astride))
    (hb : ∀ k < count, b' (k * bstride) = b (k * bstride)) :
    dotRaw wide a' astride b' bstride count = dotRaw wide a astride b bstride count := by
  have hnarrow : dotNarrow a' astride b' bstride count = dotNarrow a astride b bstride count :=
    foldRange_congr fun k _ _ hk => by rw [ha k hk, hb k hk]
  have hlimbs : dotLimbs a' astride b' bstride count = dotLimbs a astride b bstride count :=
    foldRange_congr fun k _ _ hk => by rw [ha k hk, hb k hk]
  rw [dotRaw, dotRaw, dotFallback, dotFallback, hnarrow, hlimbs]

theorem SameReads.qElement {Q : Type} [QFormat Q] {a a' : View Q} {b b' : Option (View Q)}
    (h : SameReads operation outcols row col a a' b b') (wide : Bool) (alpha beta : Int64) :
    qElement wide operation a' b' outcols alpha beta row col =
      qElement wide operation a b outcols alpha beta row col := by
  have hproduct : operation = .mul ∨ operation = .matvec →
      productSum wide a' b' row col = productSum wide a b row col := by
    intro hop
    obtain ⟨ha, hb⟩ := h.product hop
    have hcols := h.bcols
    cases b with
    | none =>
        rw [Option.map_none, Option.map_eq_none_iff] at hcols
        rw [hcols]
        rfl
    | some y =>
        rw [Option.map_some, Option.map_eq_some_iff] at hcols
        obtain ⟨y', rfl, hcols⟩ := hcols
        simp only [productSum, h.acols, hcols]
        refine if_congr Iff.rfl (dotRaw_congr wide (fun k hk => ?_) fun k hk => ?_) rfl
        · rw [Nat.mul_one]
          exact ha k hk
        · rw [Nat.add_comm]
          exact hb y rfl y' rfl k hk
  have hsecond : ¬(operation = .mul ∨ operation = .matvec) → operation ≠ .transpose →
      secondCode b' (row * outcols + col) = secondCode b (row * outcols + col) := by
    intro hop hop'
    have hcols := h.bcols
    have hb := (h.elementwise hop hop').2
    cases b with
    | none =>
        rw [Option.map_none, Option.map_eq_none_iff] at hcols
        rw [hcols]
    | some y =>
        rw [Option.map_some, Option.map_eq_some_iff] at hcols
        obtain ⟨y', rfl, hcols⟩ := hcols
        rw [secondCode, secondCode, hb y rfl y' rfl]
  have helement : evaluateElement wide operation a' b' outcols alpha beta row col
      (QFormat.narrow 0) = evaluateElement wide operation a b outcols alpha beta row col
        (QFormat.narrow 0) := by
    rw [evaluateElement, evaluateElement]
    by_cases htranspose : operation = .transpose
    · rw [if_pos htranspose, if_pos htranspose, h.acols, h.transpose htranspose]
    · rw [if_neg htranspose, if_neg htranspose, elementSum, elementSum]
      by_cases hop : operation = .mul ∨ operation = .matvec
      · rw [if_pos hop, if_pos hop, hproduct hop]
      · rw [if_neg hop, if_neg hop, hsecond hop htranspose, (h.elementwise hop htranspose).1]
  rw [Xhive.Linears.qElement, Xhive.Linears.qElement, helement]

/-- The second operands agree where an elementwise operation reads them, also if
there is none. -/
theorem SameReads.second {a a' : View V} {b b' : Option (View V)}
    (h : SameReads operation outcols row col a a' b b')
    (hop : ¬(operation = .mul ∨ operation = .matvec)) (hop' : operation ≠ .transpose)
    (absent : V) :
    (b'.elim absent fun y => y.data (row * outcols + col)) =
      b.elim absent fun y => y.data (row * outcols + col) := by
  have hcols := h.bcols
  have hb := (h.elementwise hop hop').2
  cases b with
  | none =>
      rw [Option.map_none, Option.map_eq_none_iff] at hcols
      rw [hcols]
  | some y =>
      rw [Option.map_some, Option.map_eq_some_iff] at hcols
      obtain ⟨y', rfl, hcols⟩ := hcols
      exact hb y rfl y' rfl

/-- The second factors agree along the inner dimension, also if there is none. -/
theorem SameReads.factor {a a' : View V} {b b' : Option (View V)}
    (h : SameReads operation outcols row col a a' b b')
    (hop : operation = .mul ∨ operation = .matvec) (absent : V) {k : ℕ} (hk : k < a.cols) :
    (b'.elim absent fun y => y.data (k * y.cols + col)) =
      b.elim absent fun y => y.data (k * y.cols + col) := by
  have hcols := h.bcols
  have hb := (h.product hop).2
  cases b with
  | none =>
      rw [Option.map_none, Option.map_eq_none_iff] at hcols
      rw [hcols]
  | some y =>
      rw [Option.map_some, Option.map_eq_some_iff] at hcols
      obtain ⟨y', rfl, hcols⟩ := hcols
      simp only [Option.elim_some, hcols]
      exact hb y rfl y' rfl k hk

theorem SameReads.floatElement {a a' : View V} {b b' : Option (View V)}
    (h : SameReads operation outcols row col a a' b b') (ops : FloatOps V) (alpha beta : V) :
    floatElement ops operation a' b' outcols alpha beta row col =
      floatElement ops operation a b outcols alpha beta row col := by
  rw [Xhive.Linears.floatElement, Xhive.Linears.floatElement]
  by_cases hop : operation = .mul ∨ operation = .matvec
  · rw [if_pos hop, if_pos hop, h.acols]
    congr 1
    refine forRange_congr fun k result _ hk => ?_
    rw [(h.product hop).1 k hk, h.factor hop ops.zero hk]
  · by_cases htranspose : operation = .transpose
    · rw [if_neg hop, if_neg hop, if_pos htranspose, if_pos htranspose, h.acols,
        h.transpose htranspose]
    · rw [if_neg hop, if_neg hop, if_neg htranspose, if_neg htranspose,
        (h.elementwise hop htranspose).1, h.second hop htranspose]

theorem SameReads.fixedElement {a a' : View Int64} {b b' : Option (View Int64)}
    (h : SameReads operation outcols row col a a' b b')
    (hoffered : operation ∈ [MatrixOp.add, .sub, .mul, .transpose, .axpby])
    (alpha beta : Int64) :
    fixedElement operation a' b' outcols alpha beta row col =
      fixedElement operation a b outcols alpha beta row col := by
  have hsecond : ∀ (x : Option (View Int64)) (i : ℕ),
      (x.getD ⟨0, 0, fun _ => 0⟩).data i = x.elim 0 fun y => y.data i := by
    intro x i
    cases x <;> rfl
  have hfactor : ∀ (x : Option (View Int64)) (k : ℕ),
      (x.getD ⟨0, 0, fun _ => 0⟩).data (k * (x.getD ⟨0, 0, fun _ => 0⟩).cols + col) =
        x.elim 0 fun y => y.data (k * y.cols + col) := by
    intro x k
    cases x <;> rfl
  simp only [List.mem_cons, List.not_mem_nil, or_false] at hoffered
  rcases hoffered with rfl | rfl | rfl | rfl | rfl
  · obtain ⟨ha, -⟩ := h.elementwise (by decide) (by decide)
    have hb := h.second (by decide) (by decide) 0
    simp only [Xhive.Linears.fixedElement, workElement, gridOf, reduceCtorEq, or_self, if_false,
      hsecond, ha, hb]
  · obtain ⟨ha, -⟩ := h.elementwise (by decide) (by decide)
    have hb := h.second (by decide) (by decide) 0
    simp only [Xhive.Linears.fixedElement, workElement, gridOf, reduceCtorEq, or_self, if_false,
      hsecond, ha, hb]
  · simp only [Xhive.Linears.fixedElement, workElement, gridOf, true_or, if_true, hfactor,
      h.acols]
    congr 1
    refine forRange_congr fun k sum _ hk => ?_
    rw [(h.product (Or.inl rfl)).1 k hk, h.factor (Or.inl rfl) 0 hk]
  · simp only [Xhive.Linears.fixedElement, workElement, gridOf, or_true, if_true, h.acols,
      h.transpose rfl]
  · obtain ⟨ha, -⟩ := h.elementwise (by decide) (by decide)
    have hb := h.second (by decide) (by decide) 0
    simp only [Xhive.Linears.fixedElement, workElement, gridOf, reduceCtorEq, or_self, if_false,
      hsecond, ha, hb]

end Reads

/-- Every kernel computes an element from what `SameReads` lists. -/
theorem SameReads.element {P : Platform} (entry : MatrixEntry) {outcols row col : ℕ}
    {a a' : View (P.Element entry.kind)} {b b' : Option (View (P.Element entry.kind))}
    (h : SameReads entry.operation outcols row col a a' b b')
    (alpha beta : P.Scalar entry.kind) :
    P.element entry.kind entry.operation a' b' outcols alpha beta row col =
      P.element entry.kind entry.operation a b outcols alpha beta row col := by
  obtain ⟨operation, kind, hoffered⟩ := entry
  cases kind with
  | f32 => exact h.floatElement P.single alpha beta
  | f64 => exact h.floatElement P.double alpha beta
  | q15 => exact SameReads.qElement (Q := Int16) h P.wide alpha beta
  | q31 => exact SameReads.qElement (Q := Int32) h P.wide alpha beta
  | work => exact h.fixedElement (hoffered rfl) alpha beta

/-! ## Failures have a status -/

theorem qElement_error {Q : Type} [QFormat Q] {wide : Bool} {operation : MatrixOp} {a : View Q}
    {b : Option (View Q)} {outcols : ℕ} {alpha beta : Int64} {row col : ℕ} {status : Status}
    (h : qElement wide operation a b outcols alpha beta row col = .error status) :
    status ≠ .ok := by
  rw [qElement] at h
  split at h
  · exact absurd h (by simp)
  · exact Except.error.inj h ▸ ‹_›

theorem FloatOps.ensures_finite {F : Type} (ops : FloatOps F) (x : F) :
    Ensures (ops.finite x) (fun _ => True) (· = .errorRange) := by
  rw [FloatOps.finite]
  split
  · trivial
  · rfl

theorem ensures_floatElement {F : Type} (ops : FloatOps F) (operation : MatrixOp) (a : View F)
    (b : Option (View F)) (outcols : ℕ) (alpha beta : F) (row col : ℕ) :
    Ensures (floatElement ops operation a b outcols alpha beta row col) (fun _ => True)
      (· = .errorRange) := by
  rw [floatElement]
  split
  · refine Ensures.seq (Ensures.forRange (fun _ _ => True) (Nat.zero_le _) trivial ?_)
      fun result _ => ops.ensures_finite result
    exact fun k result _ _ _ => ops.ensures_finite _
  · split
    · exact ops.ensures_finite _
    · exact ops.ensures_finite _

theorem ensures_fixedElement {operation : MatrixOp}
    (hoffered : operation ∈ [MatrixOp.add, .sub, .mul, .transpose, .axpby]) (a : View Int64)
    (b : Option (View Int64)) (outcols : ℕ) (alpha beta : Int64) (row col : ℕ) :
    Ensures (fixedElement operation a b outcols alpha beta row col) (fun _ => True)
      (· = .errorRange) := by
  have hstore : ∀ sum : Accum, Ensures (checked (linearsAccumToFixed sum (some 0)))
      (fun _ => True) (· = .errorRange) := by
    intro sum
    rw [show checked (linearsAccumToFixed sum (some 0)) = fixedAdapter.accumToFixed sum from rfl,
      fixed_accumToFixed]
    exact (ensures_fixedResult _).imp fun _ _ => trivial
  simp only [List.mem_cons, List.not_mem_nil, or_false] at hoffered
  rcases hoffered with rfl | rfl | rfl | rfl | rfl
  · change Ensures (fixedAdapter.add _ _) _ _
    rw [fixed_add]
    exact (ensures_fixedResult _).imp fun _ _ => trivial
  · change Ensures (fixedAdapter.sub _ _) _ _
    rw [fixed_sub]
    exact (ensures_fixedResult _).imp fun _ _ => trivial
  · refine Ensures.seq (Ensures.forRange (fun _ _ => True) (Nat.zero_le _) trivial ?_)
      fun sum _ => hstore sum
    exact fun k sum _ _ _ => (fixed_mac sum _ _).imp fun _ _ => trivial
  · trivial
  · exact (fixed_mac _ _ _).seq fun sum _ => hstore sum

theorem qReduction_error {Q : Type} [QFormat Q] {wide : Bool} {operation : ReductionOp}
    {a : View Q} {b : Option (View Q)} {count : ℕ} {status : Status}
    (h : qReduction wide operation a b count = .error status) : status ≠ .ok := by
  rw [qReduction] at h
  split at h
  · exact absurd h (by simp)
  · exact Except.error.inj h ▸ ‹_›

theorem ensures_floatReduction {F : Type} (ops : FloatOps F) (operation : ReductionOp)
    (a : View F) (b : Option (View F)) (count : ℕ) :
    Ensures (floatReduction ops operation a b count) (fun _ => True) (· = .errorRange) := by
  rw [floatReduction]
  refine Ensures.seq (Ensures.forRange (fun _ _ => True) (Nat.zero_le _) trivial ?_)
    fun s _ => ops.ensures_finite _
  intro i s _ _ _
  by_cases hzero : operation = .norm ∧
      ops.isZero (ops.abs (a.data (if operation = .trace then i * a.cols + i else i)))
  · simp only [if_pos hzero]
    trivial
  · simp only [if_neg hzero]
    exact (ops.ensures_finite _).seq fun _ _ => trivial

theorem Platform.reduction_error {P : Platform} {kind : NumericKind} {hkind : kind ≠ .work}
    {operation : ReductionOp} {a : View (P.Element kind)} {b : Option (View (P.Element kind))}
    {count : ℕ} {status : Status}
    (h : P.reduction kind hkind operation a b count = .error status) : status ≠ .ok := by
  have hrange : status = .errorRange → status ≠ .ok := fun heq => by rw [heq]; decide
  cases kind with
  | f32 => exact hrange ((ensures_floatReduction P.single _ _ _ _).of_eq_error h)
  | f64 => exact hrange ((ensures_floatReduction P.double _ _ _ _).of_eq_error h)
  | q15 => exact qReduction_error (Q := Int16) h
  | q31 => exact qReduction_error (Q := Int32) h
  | work => exact absurd rfl hkind

theorem Platform.element_error {P : Platform} (entry : MatrixEntry) {outcols row col : ℕ}
    {a : View (P.Element entry.kind)} {b : Option (View (P.Element entry.kind))}
    {alpha beta : P.Scalar entry.kind} {status : Status}
    (h : P.element entry.kind entry.operation a b outcols alpha beta row col = .error status) :
    status ≠ .ok := by
  have hrange : status = .errorRange → status ≠ .ok := fun heq => by rw [heq]; decide
  obtain ⟨operation, kind, hoffered⟩ := entry
  cases kind with
  | f32 => exact hrange ((ensures_floatElement P.single _ _ _ _ _ _ _ _).of_eq_error h)
  | f64 => exact hrange ((ensures_floatElement P.double _ _ _ _ _ _ _ _).of_eq_error h)
  | q15 => exact qElement_error (Q := Int16) h
  | q31 => exact qElement_error (Q := Int32) h
  | work => exact hrange ((ensures_fixedElement (hoffered rfl) _ _ _ _ _ _ _).of_eq_error h)

/-! ## What the checks establish -/

/-- The operands of an admitted call: their element counts fit, no descriptor
meets an element buffer, and the workspace meets neither. -/
structure Admitted (P : Platform) (operation : MatrixOp) (kind : NumericKind)
    (call : Operands) (workspace bytes : ℕ) : Prop where
  second : binary operation → call.b ≠ none
  shapes : shapesMatch operation call.a call.b call.out
  counts : ∀ x ∈ call.matrices, x.count ≤ sizeMax P.wide
  buffers : ∀ x ∈ call.matrices, ∀ y ∈ call.matrices,
    Apart x.address P.matrixSize y.data (y.bytes kind)
  workspace_bytes : call.out.count ≠ 0 → unitSize * call.out.count ≤ bytes
  workspace_apart : call.out.count ≠ 0 → ∀ x ∈ call.matrices,
    Apart workspace bytes x.address P.matrixSize ∧ Apart workspace bytes x.data (x.bytes kind)

theorem Platform.ensures_matrixStorage (P : Platform) (kind : NumericKind)
    (matrix : Option Descriptor) :
    Ensures (P.matrixStorage kind matrix) (fun a => matrix = some a ∧ a.count ≤ sizeMax P.wide)
      (· ≠ .ok) := by
  cases matrix with
  | none => exact Status.noConfusion
  | some a =>
      rw [Platform.matrixStorage]
      split_ifs with h1 h2 h3 h4 h5
      · exact Status.noConfusion
      · exact Status.noConfusion
      · exact Status.noConfusion
      · exact Status.noConfusion
      · exact Status.noConfusion
      · exact ⟨rfl, (not_lt.mp h3).trans (Nat.div_le_self _ _)⟩

theorem Platform.ensures_optionalStorage (P : Platform) (kind : NumericKind)
    (matrix : Option Descriptor) :
    Ensures (P.optionalStorage kind matrix)
      (fun b => matrix = b ∧ ∀ x ∈ b, x.count ≤ sizeMax P.wide) (· ≠ .ok) := by
  cases matrix with
  | none => exact ⟨rfl, nofun⟩
  | some a =>
      have hstorage := P.ensures_matrixStorage kind (some a)
      rw [Platform.optionalStorage]
      cases h : P.matrixStorage kind (some a) with
      | error status => exact hstorage.of_eq_error h
      | ok x =>
          obtain ⟨heq, hcount⟩ := hstorage.of_eq_ok h
          refine ⟨heq, fun y hy => ?_⟩
          rw [← Option.some.inj hy]
          exact hcount

theorem Platform.ensures_inputValues (P : Platform) (kind : NumericKind) (m : ByteMemory)
    (a : Descriptor) :
    Ensures (P.inputValues kind m a) (fun _ => True) (· ≠ .ok) := by
  refine (Ensures.forAll (P := fun _ => True) fun i _ => ?_).imp fun _ _ => trivial
  split
  · trivial
  · exact Status.noConfusion

theorem Platform.ensures_matrixAliases (P : Platform) (kind : NumericKind)
    (matrices : List Descriptor) :
    Ensures (P.matrixAliases kind matrices)
      (fun _ => ∀ x ∈ matrices, ∀ y ∈ matrices,
        Apart x.address P.matrixSize y.data (y.bytes kind)) (· ≠ .ok) := by
  rw [Platform.matrixAliases]
  split
  · exact Status.noConfusion
  · rename_i hnone
    intro x hx y hy
    rw [← overlap_eq_false_iff, ← Bool.not_eq_true]
    intro hoverlap
    refine hnone (List.any_eq_true.mpr ⟨x, hx, List.any_eq_true.mpr ⟨y, hy, ?_⟩⟩)
    rw [hoverlap, Bool.true_or]

theorem Platform.ensures_scratchStorage (P : Platform) (kind : NumericKind)
    (workspace bytes count : ℕ) (matrices : List Descriptor) :
    Ensures (P.scratchStorage kind workspace bytes count matrices)
      (fun _ => count ≠ 0 → unitSize * count ≤ bytes ∧ ∀ x ∈ matrices,
        Apart workspace bytes x.address P.matrixSize ∧ Apart workspace bytes x.data (x.bytes kind))
      (· ≠ .ok) := by
  rw [Platform.scratchStorage]
  split_ifs with h1 h2 h3 h4 h5
  · exact Status.noConfusion
  · intro hcount
    exact absurd h2 (Nat.mul_ne_zero (by decide) hcount)
  · exact Status.noConfusion
  · exact Status.noConfusion
  · exact Status.noConfusion
  · intro _
    refine ⟨not_lt.mp fun hlt => h3 (Or.inr (Or.inl hlt)), fun x hx => ?_⟩
    have hapart : (overlap workspace bytes x.address P.matrixSize ||
        overlap workspace bytes x.data (x.bytes kind)) = false := by
      rw [← Bool.not_eq_true]
      exact fun hoverlap => h5 (List.any_eq_true.mpr ⟨x, hx, hoverlap⟩)
    rw [Bool.or_eq_false_iff] at hapart
    exact ⟨overlap_eq_false_iff.mp hapart.1, overlap_eq_false_iff.mp hapart.2⟩

theorem Platform.ensures_screen (P : Platform) (operation : MatrixOp) (kind : NumericKind)
    (a b out : Option Descriptor) (workspace bytes : ℕ) (m : ByteMemory) :
    Ensures (P.screen operation kind a b out workspace bytes m)
      (fun call => a = some call.a ∧ b = call.b ∧ out = some call.out ∧
        Admitted P operation kind call workspace bytes) (· ≠ .ok) := by
  refine (P.ensures_matrixStorage kind a).seq fun x hx => ?_
  refine (P.ensures_optionalStorage kind b).seq fun y hy => ?_
  refine (P.ensures_matrixStorage kind out).seq fun z hz => ?_
  split_ifs with hsecond hshapes
  · exact Status.noConfusion
  swap
  · exact Status.noConfusion
  refine (P.ensures_matrixAliases kind _).seq fun _ hbuffers => ?_
  refine (P.ensures_scratchStorage kind workspace bytes _ _).seq fun _ hworkspace => ?_
  refine (P.ensures_inputValues kind m x).seq fun _ _ => ?_
  have hadmitted : Admitted P operation kind ⟨x, y, z⟩ workspace bytes := by
    refine ⟨fun hop hnone => hsecond ⟨hop, hnone⟩, hshapes, fun d hd => ?_, hbuffers,
      fun hcount => (hworkspace hcount).1, fun hcount => (hworkspace hcount).2⟩
    simp only [Operands.matrices, List.cons_append, List.mem_cons, List.mem_append,
      Option.mem_toList, List.not_mem_nil, or_false] at hd
    rcases hd with rfl | hd | rfl
    · exact hx.2
    · exact hy.2 d hd
    · exact hz.2
  cases y with
  | none => exact ⟨hx.1, hy.1, hz.1, hadmitted⟩
  | some y =>
      exact (P.ensures_inputValues kind m y).seq fun _ _ => ⟨hx.1, hy.1, hz.1, hadmitted⟩

/-! ## Staging -/

section Staging

variable {P : Platform} {call : Operands} {workspace bytes : ℕ}

/-- Two memories that agree on an element buffer hold the same elements. -/
theorem Platform.view_congr {kind : NumericKind} {t m : ByteMemory} {x : Descriptor}
    (h : AgreeOn t m x.data (x.bytes kind)) {i : ℕ} (hi : i < x.count) :
    (P.view kind t x).data i = (P.view kind m x).data i :=
  Codec.load_element_congr (P.codec kind) le_rfl hi h

/-- Memories that agree on the operands give the same elements. -/
theorem Admitted.sameReads {operation : MatrixOp} {kind : NumericKind}
    (h : Admitted P operation kind call workspace bytes) {t m : ByteMemory}
    (hagree : ∀ x ∈ call.matrices, AgreeOn t m x.data (x.bytes kind)) {row col : ℕ}
    (hrow : row < call.out.rows) (hcol : col < call.out.cols) :
    SameReads operation call.out.cols row col (P.view kind m call.a) (P.view kind t call.a)
      (call.b.map (P.view kind m)) (call.b.map (P.view kind t)) := by
  obtain ⟨a, b, out⟩ := call
  dsimp only at hrow hcol ⊢
  have ha : ∀ i < a.count, (P.view kind t a).data i = (P.view kind m a).data i :=
    fun i hi => Platform.view_congr (hagree a (by simp [Operands.matrices])) hi
  have hb : ∀ y ∈ b, ∀ i < y.count, (P.view kind t y).data i = (P.view kind m y).data i :=
    fun y hy i hi => Platform.view_congr
      (hagree y (by simp [Operands.matrices, Option.mem_def.mp hy])) hi
  have hshapes := h.shapes
  have hsecond := h.second
  dsimp only at hshapes hsecond
  have hmembers : ∀ y ∈ b.map (P.view kind m), ∀ y' ∈ b.map (P.view kind t), ∃ d ∈ b,
      y = P.view kind m d ∧ y' = P.view kind t d := by
    intro y hy y' hy'
    cases b with
    | none => exact absurd hy (by simp)
    | some d =>
        rw [Option.map_some, Option.mem_some_iff] at hy hy'
        exact ⟨d, rfl, hy.symm, hy'.symm⟩
  refine ⟨rfl, by cases b <;> rfl, fun hop => ?_, fun hop => ?_, fun hop hop' => ?_⟩
  · have hmatch : b.all (fun b => a.cols = b.rows ∧ out.rows = a.rows ∧ out.cols = b.cols ∧
        (operation = .matvec → b.cols = 1)) := by
      rcases hop with rfl | rfl <;> exact hshapes
    have hne : b ≠ none := hsecond (by rcases hop with rfl | rfl <;> rfl)
    obtain ⟨y, rfl⟩ := Option.ne_none_iff_exists'.mp hne
    obtain ⟨hinner, hrows, hcols, -⟩ := of_decide_eq_true hmatch
    refine ⟨fun k hk => ha _ (rowMajor_lt (hrow.trans_eq hrows) hk), fun z hz z' hz' k hk => ?_⟩
    obtain ⟨d, hd, rfl, rfl⟩ := hmembers z hz z' hz'
    obtain rfl := Option.mem_some_iff.mp hd
    exact hb y rfl _ (rowMajor_lt (hk.trans_eq hinner) (hcol.trans_eq hcols))
  · subst hop
    obtain ⟨hrows, hcols⟩ := of_decide_eq_true hshapes
    exact ha _ (rowMajor_lt (hcol.trans_eq hcols) (hrow.trans_eq hrows))
  · have hmatch : out.rows = a.rows ∧ out.cols = a.cols ∧
        b.all fun b => b.rows = a.rows ∧ b.cols = a.cols := by
      cases operation with
      | mul => exact absurd (Or.inl rfl) hop
      | matvec => exact absurd (Or.inr rfl) hop
      | transpose => exact absurd rfl hop'
      | _ => exact of_decide_eq_true hshapes
    obtain ⟨hrows, hcols, hall⟩ := hmatch
    have hcell : row * out.cols + col < out.rows * out.cols := rowMajor_lt hrow hcol
    refine ⟨ha _ (by rwa [Descriptor.count, ← hrows, ← hcols]), fun z hz z' hz' => ?_⟩
    obtain ⟨d, hd, rfl, rfl⟩ := hmembers z hz z' hz'
    obtain rfl := Option.mem_def.mp hd
    obtain ⟨hdrows, hdcols⟩ := of_decide_eq_true hall
    exact hb d rfl _ (by rwa [Descriptor.count, hdrows, hdcols, ← hrows, ← hcols])

variable (P) in
/-- The elements before `(row, col)` are staged, computed from the operands as they
are in `m`, and nothing outside the workspace changed. -/
def StagedFrom (entry : MatrixEntry) (call : Operands) (alpha beta : P.Scalar entry.kind)
    (workspace bytes : ℕ) (m : ByteMemory) (row col : ℕ) (t : ByteMemory) : Prop :=
  ChangedOnly m t workspace bytes ∧
    ∀ r c, c < call.out.cols → (r < row ∨ r = row ∧ c < col) →
      P.element entry.kind entry.operation (P.view entry.kind m call.a)
        (call.b.map (P.view entry.kind m)) call.out.cols alpha beta r c =
          .ok ((P.codec entry.kind).load t
            (workspace + unitSize * (r * call.out.cols + c)))

variable {entry : MatrixEntry} {alpha beta : P.Scalar entry.kind}

/-- A unit of the workspace lies in its capacity. -/
theorem Admitted.unit_inRange {operation : MatrixOp} {kind : NumericKind}
    (h : Admitted P operation kind call workspace bytes) {i x : ℕ} (hi : i < call.out.count)
    (hx : InRange (workspace + unitSize * i) (elementSize kind) x) : InRange workspace bytes x := by
  obtain ⟨hlow, hhigh⟩ := inRange_of_element (elementSize_le kind) hi hx
  exact ⟨hlow, hhigh.trans_le (Nat.add_le_add_left
    (h.workspace_bytes (Nat.ne_zero_of_lt hi)) _)⟩

/-- Storing the element of `(row, col)` computed from `t`, which agrees with `m` on
the operands. -/
theorem StagedFrom.store (h : Admitted P entry.operation entry.kind call workspace bytes)
    {m t : ByteMemory} {row col : ℕ}
    (ht : StagedFrom P entry call alpha beta workspace bytes m row col t)
    (hrow : row < call.out.rows) (hcol : col < call.out.cols) {value : P.Element entry.kind}
    (hvalue : P.element entry.kind entry.operation (P.view entry.kind m call.a)
      (call.b.map (P.view entry.kind m)) call.out.cols alpha beta row col = .ok value) :
    StagedFrom P entry call alpha beta workspace bytes m row (col + 1)
      ((P.codec entry.kind).store t
        (workspace + unitSize * (row * call.out.cols + col)) value) := by
  have hcell : row * call.out.cols + col < call.out.count := rowMajor_lt hrow hcol
  refine ⟨ht.1.trans fun x hx => ?_, fun r c hc hbefore => ?_⟩
  · exact (P.codec entry.kind).changedOnly_store t _ value x
      fun hin => hx (h.unit_inRange hcell hin)
  · by_cases hsame : r = row ∧ c = col
    · rw [hsame.1, hsame.2, Codec.load_store]
      exact hvalue
    · have hne : r * call.out.cols + c ≠ row * call.out.cols + col := by
        intro heq
        have hdiv := congrArg (· / call.out.cols) heq
        have hmod := congrArg (· % call.out.cols) heq
        simp only [rowMajor_div r hc, rowMajor_div row hcol] at hdiv
        simp only [rowMajor_mod r hc, rowMajor_mod row hcol] at hmod
        exact hsame ⟨hdiv, hmod⟩
      rw [Codec.load_store_of_apart _ _ (element_apart (elementSize_le entry.kind) hne)]
      exact ht.2 r c hc (by omega)

/-- A kernel either stages every element of the operation on the operands as they
were, or stops at one that fails; it changes the workspace only. -/
theorem Platform.evaluateStaged_spec
    (h : Admitted P entry.operation entry.kind call workspace bytes)
    (hcount : call.out.count ≠ 0) (alpha beta : P.Scalar entry.kind) (m : ByteMemory) :
    let result := P.evaluateStaged entry.operation entry.kind call alpha beta workspace m
    (result.1 = .ok ∧
        StagedFrom P entry call alpha beta workspace bytes m call.out.rows 0 result.2) ∨
      (result.1 ≠ .ok ∧ ChangedOnly m result.2 workspace bytes ∧
        ∃ row < call.out.rows, ∃ col < call.out.cols,
          P.element entry.kind entry.operation (P.view entry.kind m call.a)
            (call.b.map (P.view entry.kind m)) call.out.cols alpha beta row col =
              .error result.1) := by
  refine stageRows_induction (StagedFrom P entry call alpha beta workspace bytes m)
    (fun result => ChangedOnly m result.2 workspace bytes ∧
      ∃ row < call.out.rows, ∃ col < call.out.cols,
        P.element entry.kind entry.operation (P.view entry.kind m call.a)
          (call.b.map (P.view entry.kind m)) call.out.cols alpha beta row col =
            .error result.1) ?_ ?_ ?_
  · exact ⟨ChangedOnly.refl m _ _, fun r c _ hbefore => by omega⟩
  · exact fun row t _ ht => ⟨ht.1, fun r c hc hbefore => ht.2 r c hc (by omega)⟩
  · intro row col t hrow hcol ht
    have hagree : ∀ x ∈ call.matrices, AgreeOn t m x.data (x.bytes entry.kind) :=
      fun x hx => ht.1.agreeOn (h.workspace_apart hcount x hx).2.symm
    have hsame := (h.sameReads hagree hrow hcol).element entry alpha beta
    cases hvalue : P.element entry.kind entry.operation (P.view entry.kind t call.a)
        (call.b.map (P.view entry.kind t)) call.out.cols alpha beta row col with
    | ok value =>
        exact Or.inl ⟨rfl, ht.store h hrow hcol (hsame.symm.trans hvalue)⟩
    | error status =>
        exact Or.inr ⟨Platform.element_error entry hvalue, ht.1, row, hrow, col, hcol,
          hsame.symm.trans hvalue⟩

/-- The commit moves every unit to its element and changes the result only. -/
theorem Platform.commitResult_spec {operation : MatrixOp} {kind : NumericKind}
    (h : Admitted P operation kind call workspace bytes) (hcount : call.out.count ≠ 0)
    (t : ByteMemory) :
    ChangedOnly t (P.commitResult kind call.out workspace t) call.out.data
        (call.out.bytes kind) ∧
      ∀ i < call.out.count,
        (P.view kind (P.commitResult kind call.out workspace t) call.out).data i =
          (P.codec kind).load t (workspace + unitSize * i) := by
  have hapart := (h.workspace_apart hcount call.out (by simp [Operands.matrices])).2
  refine foldRange_induction (fun k u => ChangedOnly t u call.out.data (call.out.bytes kind) ∧
    ∀ i < k, (P.view kind u call.out).data i =
      (P.codec kind).load t (workspace + unitSize * i)) (Nat.zero_le _) ?_ ?_
  · exact ⟨ChangedOnly.refl t _ _, fun i hi => absurd hi (Nat.not_lt_zero i)⟩
  · rintro k u - hk ⟨hframe, hdone⟩
    -- the workspace is as it was, so this iteration stores the staged element
    have hunit : (P.codec kind).load u (workspace + unitSize * k) =
        (P.codec kind).load t (workspace + unitSize * k) :=
      (P.codec kind).load_congr fun x hx => hframe x (hapart x (h.unit_inRange hk hx))
    refine ⟨hframe.trans (ChangedOnly.of_element le_rfl hk
      ((P.codec kind).changedOnly_store u _ _)), fun i hi => ?_⟩
    rcases Nat.lt_succ_iff_lt_or_eq.mp hi with hlt | rfl
    · exact (Codec.load_store_of_apart _ _ (element_apart le_rfl hlt.ne)).trans (hdone i hlt)
    · exact (Codec.load_store _ _ _ _).trans hunit

end Staging

/-- The stores of `fill_matrix`. -/
theorem Platform.fillStores_spec (P : Platform) (kind : NumericKind) (z : Descriptor)
    (identity : Bool) (m : ByteMemory) :
    ChangedOnly m (P.fillStores kind z identity m) z.data (z.bytes kind) ∧
      ∀ i < z.count, (P.view kind (P.fillStores kind z identity m) z).data i =
        if identity ∧ i / z.cols = i % z.cols then P.identityEntry kind
        else P.zeroEntry kind := by
  refine foldRange_induction (fun k u => ChangedOnly m u z.data (z.bytes kind) ∧
    ∀ i < k, (P.view kind u z).data i =
      if identity ∧ i / z.cols = i % z.cols then P.identityEntry kind
      else P.zeroEntry kind) (Nat.zero_le _) ?_ ?_
  · exact ⟨ChangedOnly.refl m _ _, fun i hi => absurd hi (Nat.not_lt_zero i)⟩
  · rintro k u - hk ⟨hframe, hdone⟩
    refine ⟨hframe.trans (ChangedOnly.of_element le_rfl hk
      ((P.codec kind).changedOnly_store u _ _)), fun i hi => ?_⟩
    rcases Nat.lt_succ_iff_lt_or_eq.mp hi with hlt | rfl
    · exact (Codec.load_store_of_apart _ _ (element_apart le_rfl hlt.ne)).trans (hdone i hlt)
    · exact Codec.load_store _ _ _ _

/-! ## Whole calls -/

section Calls

/-- A call of `matrix_compute` with any placement of its operands, its result and
its workspace.  If it returns OK, the result holds the operation on the operands
as they were before the call, and only the result and the workspace changed.  If
it fails, either nothing changed, or an element of the operation fails with the
returned status and only the workspace changed, which meets no operand and no
result.  The descriptors keep their bytes. -/
theorem matrixCompute_in_place (P : Platform) (entry : MatrixEntry)
    (a b out : Option Descriptor) (alpha beta : P.Scalar entry.kind) (workspace bytes : ℕ)
    (m : ByteMemory) :
    let result := P.matrixCompute entry.operation entry.kind a b out alpha beta workspace bytes m
    (result.1 = .ok → ∃ x z, a = some x ∧ out = some z ∧
      (∀ row < z.rows, ∀ col < z.cols,
        P.element entry.kind entry.operation (P.view entry.kind m x)
          (b.map (P.view entry.kind m)) z.cols alpha beta row col =
            .ok ((P.view entry.kind result.2 z).data (row * z.cols + col))) ∧
      ∀ p, ¬InRange workspace bytes p → ¬InRange z.data (z.bytes entry.kind) p →
        result.2 p = m p) ∧
    (result.1 ≠ .ok →
      (result.2 = m ∨ ∃ x z, a = some x ∧ out = some z ∧ ChangedOnly m result.2 workspace bytes ∧
        ∃ row < z.rows, ∃ col < z.cols,
          P.element entry.kind entry.operation (P.view entry.kind m x)
            (b.map (P.view entry.kind m)) z.cols alpha beta row col = .error result.1) ∧
      ∀ x, a = some x ∨ b = some x ∨ out = some x →
        AgreeOn result.2 m x.data (x.bytes entry.kind)) ∧
    ∀ x, a = some x ∨ b = some x ∨ out = some x → AgreeOn result.2 m x.address P.matrixSize := by
  intro result
  have hchecks := P.ensures_screen entry.operation entry.kind a b out workspace bytes m
  have hresult : result =
      P.matrixCompute entry.operation entry.kind a b out alpha beta workspace bytes m := rfl
  clear_value result
  rw [Platform.matrixCompute] at hresult
  cases hscreen : P.screen entry.operation entry.kind a b out workspace bytes m with
  | error status =>
      simp only [hscreen] at hresult
      rw [hresult]
      exact ⟨fun hok => absurd hok (hchecks.of_eq_error hscreen),
        fun _ => ⟨Or.inl rfl, fun _ _ _ _ => rfl⟩, fun _ _ _ _ => rfl⟩
  | ok call =>
      obtain ⟨rfl, rfl, rfl, hcall⟩ := hchecks.of_eq_ok hscreen
      have hmember : ∀ x, some call.a = some x ∨ call.b = some x ∨ some call.out = some x →
          x ∈ call.matrices := by
        rintro x (hx | hx | hx)
        · simp [Operands.matrices, Option.some.inj hx]
        · simp [Operands.matrices, hx]
        · simp [Operands.matrices, Option.some.inj hx]
      simp only [hscreen] at hresult
      by_cases hcount : call.out.count = 0
      · rw [if_pos hcount] at hresult
        rw [hresult]
        refine ⟨fun _ => ⟨call.a, call.out, rfl, rfl, fun row hrow col hcol => ?_,
          fun _ _ _ => rfl⟩, fun hne => absurd rfl hne, fun _ _ _ _ => rfl⟩
        have hcell : row * call.out.cols + col < call.out.count := rowMajor_lt hrow hcol
        omega
      · rw [if_neg hcount] at hresult
        have hout := hmember call.out (Or.inr (Or.inr rfl))
        rcases P.evaluateStaged_spec hcall hcount alpha beta m with
          ⟨hok, hframe, hstaged⟩ | ⟨hne, hframe, hfail⟩
        · rw [if_pos hok] at hresult
          obtain ⟨hcommit, hstored⟩ := P.commitResult_spec hcall hcount
            (P.evaluateStaged entry.operation entry.kind call alpha beta workspace m).2
          rw [hresult]
          refine ⟨fun _ => ⟨call.a, call.out, rfl, rfl, fun row hrow col hcol => ?_,
            fun p hp hp' => (hcommit p hp').trans (hframe p hp)⟩, fun hne => absurd rfl hne,
            fun x hx p hp => ?_⟩
          · rw [hstored _ (rowMajor_lt hrow hcol)]
            exact hstaged row col hcol (Or.inl hrow)
          · have hapart := hcall.workspace_apart hcount x (hmember x hx)
            exact (hcommit p (hcall.buffers x (hmember x hx) call.out hout p hp)).trans
              (hframe p (hapart.1.symm p hp))
        · rw [if_neg hne] at hresult
          rw [hresult]
          refine ⟨fun hok => absurd hok hne,
            fun _ => ⟨Or.inr ⟨call.a, call.out, rfl, rfl, hframe, hfail⟩, fun x hx => ?_⟩,
            fun x hx => ?_⟩
          · exact hframe.agreeOn (hcall.workspace_apart hcount x (hmember x hx)).2.symm
          · exact hframe.agreeOn (hcall.workspace_apart hcount x (hmember x hx)).1.symm

theorem Platform.copyMatrix_spec (P : Platform) (kind : NumericKind) (m : ByteMemory)
    (a out : Option Descriptor) :
    let result := P.copyMatrix kind a out m
    (result.1 ≠ .ok → result.2 = m) ∧
    (result.1 = .ok → ∃ x z, a = some x ∧ out = some z ∧ x.rows = z.rows ∧ x.cols = z.cols ∧
      ChangedOnly m result.2 z.data (z.bytes kind) ∧
      ∀ i < z.count, (P.view kind result.2 z).data i = (P.view kind m x).data i) := by
  intro result
  have hchecks : Ensures (P.copyChecks kind a out m)
      (fun x => a = some x.1 ∧ out = some x.2 ∧ x.1.rows = x.2.rows ∧ x.1.cols = x.2.cols)
      (· ≠ .ok) := by
    refine (P.ensures_matrixStorage kind a).seq fun x hx => ?_
    refine (P.ensures_matrixStorage kind out).seq fun z hz => ?_
    split_ifs with hshape
    · exact Status.noConfusion
    refine (P.ensures_matrixAliases kind _).seq fun _ _ => ?_
    refine (P.ensures_inputValues kind m x).seq fun _ _ => ?_
    obtain ⟨hrows, hcols⟩ := not_or.mp hshape
    exact ⟨hx.1, hz.1, not_not.mp hrows, not_not.mp hcols⟩
  have hresult : result = P.copyMatrix kind a out m := rfl
  clear_value result
  rw [Platform.copyMatrix] at hresult
  cases hrun : P.copyChecks kind a out m with
  | error status =>
      simp only [hrun] at hresult
      rw [hresult]
      exact ⟨fun _ => rfl, fun hok => absurd hok (hchecks.of_eq_error hrun)⟩
  | ok x =>
      obtain ⟨rfl, rfl, hrows, hcols⟩ := hchecks.of_eq_ok hrun
      have hcount : x.2.count = x.1.count := by
        rw [Descriptor.count, Descriptor.count, hrows, hcols]
      simp only [hrun] at hresult
      rw [hresult]
      refine ⟨fun hne => absurd rfl hne,
        fun _ => ⟨x.1, x.2, rfl, rfl, hrows, hcols, ?_, fun i hi => ?_⟩⟩
      · split_ifs
        · rw [Descriptor.bytes, Descriptor.bytes, hcount]
          exact changedOnly_memmove _ _ _ m
        · exact ChangedOnly.refl m _ _
      · rw [if_pos (by omega)]
        exact Codec.load_memmove (P.codec kind) m x.1.data le_rfl (hi.trans_eq hcount)

theorem Platform.fillMatrix_spec (P : Platform) (kind : NumericKind) (m : ByteMemory)
    (out : Option Descriptor) (identity : Bool) :
    let result := P.fillMatrix kind out identity m
    (result.1 ≠ .ok → result.2 = m) ∧
    (result.1 = .ok → ∃ z, out = some z ∧ (identity → z.rows = z.cols) ∧
      ChangedOnly m result.2 z.data (z.bytes kind) ∧
      ∀ row < z.rows, ∀ col < z.cols, (P.view kind result.2 z).data (row * z.cols + col) =
        if identity ∧ row = col then P.identityEntry kind else P.zeroEntry kind) := by
  intro result
  have hchecks : Ensures (P.fillChecks kind out identity)
      (fun z => out = some z ∧ (identity → z.rows = z.cols)) (· ≠ .ok) := by
    refine (P.ensures_matrixStorage kind out).seq fun z hz => ?_
    split_ifs with hshape
    · exact Status.noConfusion
    refine (P.ensures_matrixAliases kind _).seq fun _ _ => ?_
    exact ⟨hz.1, fun hidentity => not_not.mp fun hne => hshape ⟨hidentity, hne⟩⟩
  have hresult : result = P.fillMatrix kind out identity m := rfl
  clear_value result
  rw [Platform.fillMatrix] at hresult
  cases hrun : P.fillChecks kind out identity with
  | error status =>
      simp only [hrun] at hresult
      rw [hresult]
      exact ⟨fun _ => rfl, fun hok => absurd hok (hchecks.of_eq_error hrun)⟩
  | ok z =>
      obtain ⟨rfl, hshape⟩ := hchecks.of_eq_ok hrun
      simp only [hrun] at hresult
      rw [hresult]
      refine ⟨fun hne => absurd rfl hne, fun _ => ⟨z, rfl, hshape, ?_⟩⟩
      obtain ⟨hframe, hfilled⟩ := P.fillStores_spec kind z identity m
      refine ⟨hframe, fun row hrow col hcol => ?_⟩
      rw [hfilled _ (rowMajor_lt hrow hcol), rowMajor_div row hcol, rowMajor_mod row hcol]

theorem Platform.reductionCall_spec (P : Platform) (operation : ReductionOp)
    (kind : NumericKind) (hkind : kind ≠ .work) (a b : Option Descriptor) (out : ℕ)
    (m : ByteMemory) :
    let result := P.reductionCall operation kind hkind a b out m
    (result.1 ≠ .ok → result.2 = m) ∧
    (result.1 = .ok → ∃ x, a = some x ∧ ChangedOnly m result.2 out (elementSize kind) ∧
      P.reduction kind hkind operation (P.view kind m x) (b.map (P.view kind m))
        (if operation = .trace then x.rows else x.count) =
          .ok ((P.codec kind).load result.2 out)) := by
  intro result
  have hchecks : Ensures (P.screenReduction operation kind a b out m)
      (fun x => a = some x.1 ∧ b = x.2) (· ≠ .ok) := by
    refine (P.ensures_matrixStorage kind a).seq fun x hx => ?_
    refine (P.ensures_optionalStorage kind b).seq fun y hy => ?_
    split_ifs
    · exact Status.noConfusion
    · exact Status.noConfusion
    · exact Status.noConfusion
    · exact Status.noConfusion
    refine (P.ensures_matrixAliases kind _).seq fun _ _ => ?_
    refine (P.ensures_inputValues kind m x).seq fun _ _ => ?_
    cases y with
    | none => exact ⟨hx.1, hy.1⟩
    | some y => exact (P.ensures_inputValues kind m y).seq fun _ _ => ⟨hx.1, hy.1⟩
  have hresult : result = P.reductionCall operation kind hkind a b out m := rfl
  clear_value result
  rw [Platform.reductionCall] at hresult
  cases hrun : P.screenReduction operation kind a b out m with
  | error status =>
      simp only [hrun] at hresult
      rw [hresult]
      exact ⟨fun _ => rfl, fun hok => absurd hok (hchecks.of_eq_error hrun)⟩
  | ok x =>
      obtain ⟨rfl, rfl⟩ := hchecks.of_eq_ok hrun
      simp only [hrun] at hresult
      cases hvalue : P.reduction kind hkind operation (P.view kind m x.1)
          (x.2.map (P.view kind m)) (if operation = .trace then x.1.rows else x.1.count) with
      | error status =>
          simp only [hvalue] at hresult
          rw [hresult]
          exact ⟨fun _ => rfl, fun hok => absurd hok (P.reduction_error hvalue)⟩
      | ok value =>
          simp only [hvalue] at hresult
          rw [hresult]
          refine ⟨fun hne => absurd rfl hne, fun _ => ⟨x.1, rfl, ?_, ?_⟩⟩
          · exact (P.codec kind).changedOnly_store m out value
          · rw [Codec.load_store]
            exact hvalue

/-- A failed call of `copy_matrix`, `fill_matrix` or `reduction` changes nothing.  A
successful one changes the bytes of its result only, which receive the elements of
the operand, the constant or the value of the reduction as they were before the
call; the two matrices of a copy may overlap, and a scalar may lie in an operand. -/
theorem direct_calls_in_place (P : Platform) (kind : NumericKind) (m : ByteMemory) :
    (∀ a out : Option Descriptor,
      let result := P.copyMatrix kind a out m
      (result.1 ≠ .ok → result.2 = m) ∧
      (result.1 = .ok → ∃ x z, a = some x ∧ out = some z ∧ x.rows = z.rows ∧ x.cols = z.cols ∧
        ChangedOnly m result.2 z.data (z.bytes kind) ∧
        ∀ i < z.count, (P.view kind result.2 z).data i = (P.view kind m x).data i)) ∧
    (∀ (out : Option Descriptor) (identity : Bool),
      let result := P.fillMatrix kind out identity m
      (result.1 ≠ .ok → result.2 = m) ∧
      (result.1 = .ok → ∃ z, out = some z ∧ (identity → z.rows = z.cols) ∧
        ChangedOnly m result.2 z.data (z.bytes kind) ∧
        ∀ row < z.rows, ∀ col < z.cols, (P.view kind result.2 z).data (row * z.cols + col) =
          if identity ∧ row = col then P.identityEntry kind else P.zeroEntry kind)) ∧
    ∀ (operation : ReductionOp) (hkind : kind ≠ .work) (a b : Option Descriptor) (out : ℕ),
      let result := P.reductionCall operation kind hkind a b out m
      (result.1 ≠ .ok → result.2 = m) ∧
      (result.1 = .ok → ∃ x, a = some x ∧ ChangedOnly m result.2 out (elementSize kind) ∧
        P.reduction kind hkind operation (P.view kind m x) (b.map (P.view kind m))
          (if operation = .trace then x.rows else x.count) =
            .ok ((P.codec kind).load result.2 out)) := by
  refine ⟨P.copyMatrix_spec kind m, P.fillMatrix_spec kind m, ?_⟩
  exact fun operation hkind a b out => P.reductionCall_spec operation kind hkind a b out m

end Calls

end Xhive.Linears
