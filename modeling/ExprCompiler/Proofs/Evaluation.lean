import ExprCompiler.Graph.Evaluation
import ExprCompiler.Proofs.Walk

/-! Evaluating a graph gives the value of its tree, or the first error in the
tree. What a node asks of its operands is said once, by `Node.precheck` and
`Node.value`; the tree and the walk both compute by it. A value that the walk
finds ready is the value of that node's tree. -/
namespace ExprCompiler

def Node.precheck (t : SymbolTable) : Node → Except Error Unit
  | .call name args => (t.resolveCall name args.length).map fun _ => ()
  | _ => .ok ()

def Node.value (t : SymbolTable) (b : Bindings) (n : Node) (xs : List Double) :
    Except Error Double :=
  match n with
  | .var v => b.value v
  | .const c => .ok c
  | .neg _ => .ok (-(xs.headD 0))
  | .binary op _ _ => .ok (op.apply (xs.headD 0) (xs.tail.headD 0))
  | .call name args => (t.resolveCall name args.length).map fun f => f.native.apply xs

namespace Expr

variable {t : SymbolTable} {b : Bindings}

theorem evaluate_neg (e : Expr) :
    (neg e).evaluate t b = (do
      let x ← e.evaluate t b
      return -x) := rfl

theorem evaluate_binary (op : BinaryOp) (left right : Expr) :
    (binary op left right).evaluate t b = (do
      let x ← left.evaluate t b
      let y ← right.evaluate t b
      return op.apply x y) := rfl

theorem evaluate_call (name : String) (args : List Expr) :
    (call name args).evaluate t b = (do
      let f ← t.resolveCall name args.length
      let xs ← firstError (args.map (·.evaluate t b))
      return f.native.apply xs) := by
  simp only [evaluate, fold_call, List.length_map]

end Expr

theorem Graph.evaluate_expr (g : Graph) (t : SymbolTable) (b : Bindings) (i : Nat) :
    (g.expr i).evaluate t b = (do
      (g.node i).precheck t
      let xs ← firstError ((g.node i).operands.map fun j => (g.expr j).evaluate t b)
      (g.node i).value t b xs) := by
  rw [g.expr_eq i]
  cases g.node i with
  | var v => rfl
  | const c => rfl
  | neg a =>
    rw [Expr.evaluate_neg]
    cases h : (g.expr a).evaluate t b <;>
      simp [Node.precheck, Node.value, Node.operands, h, firstError, bind, Except.bind, pure,
        Except.pure]
  | binary op a c =>
    rw [Expr.evaluate_binary]
    cases ha : (g.expr a).evaluate t b <;> cases hc : (g.expr c).evaluate t b <;>
      simp [Node.precheck, Node.value, Node.operands, ha, hc, firstError, bind, Except.bind, pure,
        Except.pure]
  | call name args =>
    rw [Expr.evaluate_call, List.length_map, List.map_map]
    cases h : t.resolveCall name args.length with
    | error e => simp [Node.precheck, h, bind, Except.bind, Except.map]
    | ok f =>
      simp only [Node.precheck, Node.value, Node.operands, h, bind, Except.bind, Except.map]
      rfl

namespace Evaluation

variable {g : Graph} {t : SymbolTable} {b : Bindings}

theorem step_enter (s : Evaluation) (i : Nat) :
    step g t b s (.enter i) = ((g.node i).precheck t).map fun _ => s := by
  cases kind : g.node i with
  | call name args =>
    simp only [step, kind, Node.precheck]
    cases t.resolveCall name args.length <;> rfl
  | _ => simp [step, kind, Node.precheck, Except.map]

theorem step_leave (s : Evaluation) (i : Nat) :
    (step g t b s (.leave i)).map (·.value) =
      ((g.node i).value t b ((g.node i).operands.map s.value)).map (s.value.set i) := by
  cases kind : g.node i with
  | var v => cases h : b.value v <;> simp [step, kind, Node.value, h, Except.map, record]
  | const c => simp [step, kind, Node.value, Except.map, record]
  | neg a => simp [step, kind, Node.value, Node.operands, Except.map, record]
  | binary op a c => simp [step, kind, Node.value, Node.operands, Except.map, record]
  | call name args =>
    cases h : t.resolveCall name args.length <;>
      simp [step, kind, Node.value, Node.operands, h, Except.map, record]

/-- The nodes that were left have the values of their trees. -/
def Agrees (g : Graph) (t : SymbolTable) (b : Bindings) (past : List Visit) (s : Evaluation) :
    Prop :=
  ∀ j, .leave j ∈ past → (g.expr j).evaluate t b = .ok (s.value j)

theorem Agrees.mono {past past' : List Visit} {s : Evaluation} (h : Agrees g t b past s)
    (same : ∀ j, .leave j ∈ past' → .leave j ∈ past) : Agrees g t b past' s :=
  fun j hj => h j (same j hj)

theorem Agrees.firstError_eq {past : List Visit} {s : Evaluation} (h : Agrees g t b past s)
    {js : List Nat} (left : ∀ j ∈ js, .leave j ∈ past) :
    firstError (js.map fun j => (g.expr j).evaluate t b) = .ok (js.map s.value) := by
  induction js with
  | nil => rfl
  | cons j js ih =>
    rw [List.map_cons, h j (left j (by simp)), firstError, ih fun k hk => left k (by simp [hk])]
    rfl

theorem runs_leave {past : List Visit} {s : Evaluation} (i : Nat) (agrees : Agrees g t b past s)
    (operands : ∀ j ∈ (g.node i).operands, .leave j ∈ past)
    (admitted : (g.node i).precheck t = .ok ()) :
    Runs (step g t b) s [.leave i] (fun _ s' => Agrees g t b (past ++ [.leave i]) s')
      ((g.node i).value t b ((g.node i).operands.map s.value)) := by
  have meaning : (g.expr i).evaluate t b =
      (g.node i).value t b ((g.node i).operands.map s.value) := by
    rw [g.evaluate_expr, admitted, agrees.firstError_eq operands]
    rfl
  have stepped := step_leave (g := g) (t := t) (b := b) s i
  rw [← meaning] at stepped ⊢
  apply Runs.single
  · intro x value
    rw [value] at stepped
    cases taken : step g t b s (.leave i) with
    | error e => simp [taken, Except.map] at stepped
    | ok s' =>
      have values : s'.value = s.value.set i x := by simpa [taken, Except.map] using stepped
      refine ⟨s', rfl, fun j hj => ?_⟩
      by_cases same : j = i
      · rw [same, value, values, Assignment.set_self]
      · rw [values, Assignment.set_of_ne _ _ same]
        exact agrees j (by simpa [same] using hj)
  · intro e failed
    rw [failed] at stepped
    cases taken : step g t b s (.leave i) with
    | error e' => simpa [taken, Except.map] using stepped
    | ok s' => simp [taken, Except.map] at stepped

theorem runs_walks {past new : List Visit} {is : List Nat} (h : g.Walks past is new)
    (s : Evaluation) (agrees : Agrees g t b past s) :
    Runs (step g t b) s new (fun _ s' => Agrees g t b (past ++ new) s')
      (firstError (is.map fun i => (g.expr i).evaluate t b)) := by
  induction h generalizing s with
  | nil => exact .nil (by simpa using agrees)
  | @again past i is rest done _ ih =>
    have met : Runs (step g t b) s [.again i] (fun _ s' => s' = s) ((g.expr i).evaluate t b) := by
      rw [agrees i done]
      exact ⟨s, rfl, rfl⟩
    refine met.append fun x s' _ same => ?_
    have later := ih s (agrees.mono (by simp))
    rw [same]
    exact (later.mono (by simp)).map (x :: ·)
  | @enter past i is below rest fresh operands others ihBelow ih =>
    have entered : Runs (step g t b) s [.enter i] (fun _ s' => s' = s) ((g.node i).precheck t) := by
      apply Runs.single
      · intro _ admitted
        exact ⟨s, by rw [step_enter, admitted]; rfl, rfl⟩
      · intro e refused
        rw [step_enter, refused]
        rfl
    show Runs (step g t b) s _ _ (do
      let x ← (g.expr i).evaluate t b
      let xs ← firstError (is.map fun i => (g.expr i).evaluate t b)
      return x :: xs)
    -- The four parts of the run: entering, the operands, leaving, the other nodes.
    rw [g.evaluate_expr, bind_assoc]
    refine entered.append fun _ s' admitted same => ?_
    rw [same, bind_assoc]
    refine (ihBelow s (agrees.mono (by simp))).append fun xs s₁ values agrees₁ => ?_
    have left := runs_leave i agrees₁ operands.leave_mem admitted
    rw [agrees₁.firstError_eq operands.leave_mem] at values
    rw [Except.ok.inj values] at left
    refine left.append fun x s₂ _ agrees₂ => ?_
    have later := ih s₂ (agrees₂.mono (by simp))
    exact (later.mono (by simp)).map (x :: ·)

end Evaluation

/-- A graph evaluates to what its tree means. -/
theorem Graph.evaluate_snd (g : Graph) (root : Nat) (t : SymbolTable) (params : List Variable)
    (args : List Double) :
    (g.evaluate root t params args).2 =
      if args.length ≠ params.length then .error (.arityMismatch params.length args.length)
      else (g.expr root).evaluate t (Bindings.ofArgs params args) := by
  unfold Graph.evaluate
  split
  · rfl
  · have run := Evaluation.runs_walks (t := t) (b := Bindings.ofArgs params args)
      (g.walks_visits root) .start (fun j hj => by simp at hj)
    cases meaning : (g.expr root).evaluate t (Bindings.ofArgs params args) with
    | ok x =>
      rw [List.map_cons, meaning] at run
      obtain ⟨s, ran, agrees⟩ := run
      have value := agrees root (by simpa using g.leave_root_mem root)
      rw [ran, ← meaning, value]
    | error e =>
      rw [List.map_cons, meaning] at run
      obtain ⟨s, ran⟩ := run
      rw [ran]

end ExprCompiler
