import ExprCompiler.Proofs.NonInterference
import ExprCompiler.Proofs.Pipeline

/-! A value reaches a variable by the variable's number and by nothing else. The name of
a variable is only shown, the place of a parameter only says which argument is its own,
and a parameter that no node uses is not seen. So expressions that differ in names have
the same values under bindings that agree on their variables, whether they are evaluated
or compiled, and however the arguments are passed. -/
namespace ExprCompiler

def Node.anonymous : Node → Node
  | .var v => .var (.anonymous v.id)
  | n => n

def Expr.anonymous : Expr → Expr :=
  Expr.fold
    { var := fun v => .var (.anonymous v.id)
      const := .const
      neg := .neg
      binary := .binary
      call := .call }

section ToOption

theorem toOption_bind (r : Except ε α) (f : α → Except ε β) :
    (r >>= f).toOption = r.toOption.bind fun a => (f a).toOption := by
  cases r <;> rfl

theorem toOption_eq_some_iff {r : Except ε α} {a : α} : r.toOption = some a ↔ r = .ok a := by
  cases r <;> simp [Except.toOption]

theorem toOption_firstError_congr {f f' : α → Except ε β} {as : List α}
    (same : ∀ a ∈ as, (f a).toOption = (f' a).toOption) :
    (firstError (as.map f)).toOption = (firstError (as.map f')).toOption := by
  induction as with
  | nil => rfl
  | cons a as ih =>
    simp only [List.map_cons, firstError, toOption_bind, same a (by simp),
      ih fun a' ha => same a' (by simp [ha])]

theorem Bindings.toOption_value (b : Bindings) (v : Variable) :
    (b.value v).toOption = b.value? v.id := by
  unfold value
  cases b.value? v.id <;> rfl

end ToOption

namespace Expr

theorem anonymous_call (name : String) (args : List Expr) :
    (call name args).anonymous = .call name (args.map anonymous) := by
  rw [anonymous, fold_call]

variable {t : SymbolTable} {b b' : Bindings}

theorem toOption_evaluate_anonymous (e : Expr)
    (values : ∀ v, .var v ∈ e.sites → b'.value? v.id = b.value? v.id) :
    (e.anonymous.evaluate t b').toOption = (e.evaluate t b).toOption := by
  induction e with
  | var v =>
    show (b'.value (.anonymous v.id)).toOption = (b.value v).toOption
    rw [Bindings.toOption_value, Bindings.toOption_value]
    exact values v (by simp [sites, fold])
  | const c => rfl
  | neg a ih =>
    show ((neg a.anonymous).evaluate t b').toOption = _
    rw [evaluate_neg, evaluate_neg, toOption_bind, toOption_bind, ih values]
  | binary op left right ihLeft ihRight =>
    rw [sites_binary] at values
    show ((binary op left.anonymous right.anonymous).evaluate t b').toOption = _
    simp only [evaluate_binary, toOption_bind,
      ihLeft fun v hv => values v (List.mem_append_left _ hv),
      ihRight fun v hv => values v (List.mem_append_right _ hv)]
  | call name args ih =>
    rw [sites_call] at values
    have below : (firstError ((args.map anonymous).map (·.evaluate t b'))).toOption =
        (firstError (args.map (·.evaluate t b))).toOption := by
      rw [List.map_map]
      apply toOption_firstError_congr
      intro a ha
      exact ih a ha fun v hv =>
        values v (List.mem_cons_of_mem _ (List.mem_flatMap.mpr ⟨a, ha, hv⟩))
    simp only [anonymous_call, evaluate_call, List.length_map, toOption_bind, below]

theorem toOption_evaluate_congr {e e' : Expr} (renamed : e'.anonymous = e.anonymous)
    (values : ∀ v, .var v ∈ e.sites → b'.value? v.id = b.value? v.id) :
    (e'.evaluate t b').toOption = (e.evaluate t b).toOption := by
  rw [← e'.toOption_evaluate_anonymous fun _ _ => rfl, renamed,
    e.toOption_evaluate_anonymous values]

theorem constant?_anonymous (e : Expr) : e.anonymous.constant? = e.constant? := by
  cases e <;> rfl

theorem foldNeg_anonymous (e : Expr) : e.anonymous.foldNeg = e.foldNeg.anonymous := by
  cases e <;> rfl

theorem foldBinary_anonymous (op : BinaryOp) (left right : Expr) :
    foldBinary op left.anonymous right.anonymous = (foldBinary op left right).anonymous := by
  rw [foldBinary, foldBinary, constant?_anonymous, constant?_anonymous]
  cases op.reduce left.constant? right.constant? <;> rfl

theorem foldConstants_anonymous (e : Expr) :
    e.anonymous.foldConstants = e.foldConstants.anonymous := by
  induction e with
  | var v => rfl
  | const c => rfl
  | neg a ih =>
    show (neg a.anonymous).foldConstants = _
    rw [foldConstants_neg, ih, foldNeg_anonymous, foldConstants_neg]
  | binary op left right ihLeft ihRight =>
    show (binary op left.anonymous right.anonymous).foldConstants = _
    rw [foldConstants_binary, ihLeft, ihRight, foldBinary_anonymous, foldConstants_binary]
  | call name args ih =>
    have below : (args.map anonymous).map foldConstants =
        (args.map foldConstants).map anonymous := by
      simpa using ih
    rw [anonymous_call, foldConstants_call, below, foldConstants_call, anonymous_call]

end Expr

namespace Node

theorem operands_anonymous (n : Node) : n.anonymous.operands = n.operands := by
  cases n <;> rfl

theorem anonymous_toExpr (n : Node) (f : Nat → Expr) :
    (n.toExpr f).anonymous = n.anonymous.toExpr fun j => (f j).anonymous := by
  cases n with
  | call name args => simp [toExpr, anonymous, Expr.anonymous_call]
  | var _ | const _ | neg _ | binary _ _ _ => rfl

end Node

namespace Graph

variable {g h : Graph} {root top : Nat}

theorem expr_lowered (g : Graph) (root : Nat) (folded : Bool) :
    (g.lowered root folded).1.expr (g.lowered root folded).2 =
      if folded then (g.expr root).foldConstants else g.expr root := by
  cases folded with
  | false => rfl
  | true => exact g.expr_foldConstants root

theorem anonymous_lowered (renamed : (h.expr top).anonymous = (g.expr root).anonymous)
    (folded : Bool) :
    ((h.lowered top folded).1.expr (h.lowered top folded).2).anonymous =
      ((g.lowered root folded).1.expr (g.lowered root folded).2).anonymous := by
  rw [expr_lowered, expr_lowered]
  cases folded with
  | false => exact renamed
  | true =>
    show (h.expr top).foldConstants.anonymous = (g.expr root).foldConstants.anonymous
    rw [← Expr.foldConstants_anonymous, renamed, Expr.foldConstants_anonymous]

theorem anonymous_expr_congr
    (same : ∀ i, g.Reaches root i → (h.node i).anonymous = (g.node i).anonymous) :
    (h.expr root).anonymous = (g.expr root).anonymous := by
  induction root using g.node_induction with
  | step i ih =>
    rw [h.expr_eq_toExpr, g.expr_eq_toExpr, Node.anonymous_toExpr, Node.anonymous_toExpr,
      same i (.refl g i)]
    apply Node.toExpr_congr
    intro j hj
    rw [Node.operands_anonymous] at hj
    exact ih j hj fun k below => same k (below.head hj)

end Graph

/-- A callable of an expression, as it is now: an engine with the symbols `t` compiled it
and has kept its code since then, and it may have been called. -/
def Callable.CompiledFrom (c : Callable) (e : Engine) (t : SymbolTable) (g : Graph) (root : Nat)
    (folded : Bool) (params : List Variable) (strategy : Strategy) : Prop :=
  ∃ (e₀ e₁ : Engine) (self id : Nat) (notes : List Note) (c₀ : Callable), e₀.symbols = t ∧
    e₀.compileExpr self g root folded id params strategy = (e₁, ⟨notes, .ok c₀⟩) ∧
    c₀.Used c ∧ Engine.Keeps id e₁ e

theorem Callable.CompiledFrom.invoke {c : Callable} {e : Engine} {t : SymbolTable} {g : Graph}
    {root : Nat} {folded : Bool} {params : List Variable} {strategy : Strategy}
    {args : List Double} (compiled : c.CompiledFrom e t g root folded params strategy)
    (counted : args.length = params.length) :
    ∃ x, (c.invoke (some e) args).result = .ok x ∧
      ((g.lowered root folded).1.expr (g.lowered root folded).2).evaluate t
        (.ofArgs params (c.received args)) = .ok x := by
  obtain ⟨e₀, e₁, self, id, notes, c₀, rfl, compiled, called, kept⟩ := compiled
  obtain ⟨u, v, x, lowered, verified, linked, rfl⟩ := Engine.compileExpr_cases compiled
  obtain rfl := CompilationUnit.unit_of_verify verified
  obtain rfl := Graph.id_of_lower lowered
  obtain ⟨-, -, arity⟩ := Graph.sound_of_lower lowered
  obtain ⟨functions, -, -, made⟩ := Engine.compile_cases linked
  have alike : x.Alike c.entry := called.alike
  have unit : c.entry.unit = v.unit.id := by rw [alike.unit, made]
  have passed : args.length = c.arity := by rw [Callable.arity, alike.eq, made, counted, arity]
  obtain ⟨y, returned, evaluated⟩ := invoke_received lowered linked alike (unit ▸ kept) passed
  have value := congrArg Prod.snd evaluated
  have received : (c.received args).length = params.length := by rw [length_received, counted]
  rw [Graph.evaluate_snd, if_neg (not_not.mpr received)] at value
  exact ⟨y, returned, value⟩

/-- Let two expressions differ in the names of variables only, and let two lists of
parameters with their arguments give every variable of the expressions the same value.
Then they evaluate to the same value or both fail; and a callable of the one and a callable
of the other return, whatever the strategies, and return the same value as long as the
offsets of the parameters in a buffer can be written in 32 bits. -/
theorem Graph.binding_by_identity {g h : Graph} {root top : Nat}
    (renamed : (h.expr top).anonymous = (g.expr root).anonymous)
    {params params' : List Variable} {args args' : List Double}
    (counted : args.length = params.length) (counted' : args'.length = params'.length)
    (values : ∀ i v, g.Reaches root i → g.node i = .var v →
      (Bindings.ofArgs params' args').value? v.id = (Bindings.ofArgs params args).value? v.id) :
    (∀ t, (h.evaluate top t params' args').2.toOption =
      (g.evaluate root t params args).2.toOption) ∧
    ∀ folded t strategy strategy' c c' e e',
      Callable.CompiledFrom c e t g root folded params strategy →
      Callable.CompiledFrom c' e' t h top folded params' strategy' →
      ∃ x x', (c.invoke (some e) args).result = .ok x ∧
        (c'.invoke (some e') args').result = .ok x' ∧
        (params.length ≤ Machine.slotLimit → params'.length ≤ Machine.slotLimit → x' = x) := by
  have same (v : Variable) (used : .var v ∈ (g.expr root).sites) :
      (Bindings.ofArgs params' args').value? v.id = (Bindings.ofArgs params args).value? v.id := by
    obtain ⟨i, below, kind⟩ := (g.mem_sites_var_iff root v).mp used
    exact values i v below kind
  constructor
  · intro t
    rw [evaluate_snd, evaluate_snd, if_neg (not_not.mpr counted), if_neg (not_not.mpr counted')]
    exact Expr.toOption_evaluate_congr renamed same
  · intro folded t strategy strategy' c c' e e' compiled compiled'
    obtain ⟨x, returned, value⟩ := compiled.invoke counted
    obtain ⟨x', returned', value'⟩ := compiled'.invoke counted'
    refine ⟨x, x', returned, returned', fun few few' => ?_⟩
    rw [Callable.received_eq (counted ▸ few)] at value
    rw [Callable.received_eq (counted' ▸ few')] at value'
    -- Folding may rewrite both trees, but to trees that again differ in names only.
    have equal := Expr.toOption_evaluate_congr (t := t) (anonymous_lowered renamed folded)
      (by rwa [sites_lowered])
    rw [value, value'] at equal
    exact Option.some.inj equal

def lessFirst (first second : String) : Graph :=
  ⟨#[.var ⟨0, first⟩, .var ⟨1, second⟩, .call "max" [0, 1], .binary .sub 2 0], by
    intro i h
    have bound : i < 4 := h
    interval_cases i <;> simp [Node.operands]⟩

/-- The variables have names of their own and are passed in their order, or they share the
name of a third parameter, which is not used, and go through the buffer in another order. -/
theorem lessFirst_binding_by_identity :
    ∃ e e' notes notes' c c' x,
      (Engine.new .standard .default).compileExpr 0 (lessFirst "x" "y") 3 true 0
        [⟨0, "x"⟩, ⟨1, "y"⟩] .positional = (e, ⟨notes, .ok c⟩) ∧
      (Engine.new .standard .default).compileExpr 1 (lessFirst "z" "z") 3 true 1
        [⟨1, "z"⟩, ⟨2, "z"⟩, ⟨0, "z"⟩] .buffer = (e', ⟨notes', .ok c'⟩) ∧
      (c.invoke (some e) [3, 5]).result = .ok x ∧ (c'.invoke (some e') [5, 7, 3]).result = .ok x ∧
      ((lessFirst "z" "z").evaluate 3 (.builtinsOnly .standard) [⟨1, "z"⟩, ⟨2, "z"⟩, ⟨0, "z"⟩]
        [5, 7, 3]).2 = .ok 2 := by
  have renamed : ((lessFirst "z" "z").expr 3).anonymous =
      ((lessFirst "x" "y").expr 3).anonymous := by
    apply Graph.anonymous_expr_congr
    intro i below
    have bound := below.le
    interval_cases i <;> rfl
  have values (i : Nat) (v : Variable) (below : (lessFirst "x" "y").Reaches 3 i)
      (kind : (lessFirst "x" "y").node i = .var v) :
      (Bindings.ofArgs [⟨1, "z"⟩, ⟨2, "z"⟩, ⟨0, "z"⟩] [5, 7, 3]).value? v.id =
        (Bindings.ofArgs [⟨0, "x"⟩, ⟨1, "y"⟩] [3, 5]).value? v.id := by
    have bound := below.le
    interval_cases i <;> cases kind <;> rfl
  obtain ⟨c, made⟩ := exists_of_isOk (r := ((Engine.new .standard .default).compileExpr 0
    (lessFirst "x" "y") 3 true 0 [⟨0, "x"⟩, ⟨1, "y"⟩] .positional).2.result) (by decide +kernel)
  obtain ⟨c', made'⟩ := exists_of_isOk (r := ((Engine.new .standard .default).compileExpr 1
    (lessFirst "z" "z") 3 true 1 [⟨1, "z"⟩, ⟨2, "z"⟩, ⟨0, "z"⟩] .buffer).2.result)
    (by decide +kernel)
  have compiled := Traced.eq_of_result made
  have compiled' := Traced.eq_of_result made'
  have value : ((lessFirst "x" "y").evaluate 3 (.builtinsOnly .standard) [⟨0, "x"⟩, ⟨1, "y"⟩]
      [3, 5]).2 = .ok 2 := by decide +kernel
  obtain ⟨evaluated, invoked⟩ := Graph.binding_by_identity renamed rfl rfl values
  obtain ⟨x, x', returned, returned', same⟩ := invoked true _ _ _ c c' _ _
    ⟨_, _, _, _, _, _, rfl, compiled, .refl, .refl⟩
    ⟨_, _, _, _, _, _, rfl, compiled', .refl, .refl⟩
  refine ⟨_, _, _, _, c, c', x, compiled, compiled', returned,
    same (by decide) (by decide) ▸ returned', ?_⟩
  rw [← toOption_eq_some_iff, evaluated, value]
  rfl

end ExprCompiler
