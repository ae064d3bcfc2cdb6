import ExprCompiler.Graph.Basic

/-! The walk over a graph that every pass follows: depth first, operands left to
right, each node once. A walk is the list of its visits. A node is entered
before its operands and left after them; a node met again after it was left is
only noted. What a pass computes is a fold over this list. -/
namespace ExprCompiler

inductive Visit where
  | enter (node : Nat)
  | leave (node : Nat)
  | again (node : Nat)
deriving DecidableEq

namespace Visit

def entered? : Visit → Option Nat
  | .enter i => some i
  | _ => none

def left? : Visit → Option Nat
  | .leave i => some i
  | _ => none

def again? : Visit → Option Nat
  | .again i => some i
  | _ => none

end Visit

namespace Graph

def walk (g : Graph) (i : Nat) (past : Array Visit) : Array Visit :=
  if .leave i ∈ past then past.push (.again i)
  else
    ((g.node i).operands.attach.foldl (fun p j => g.walk j.1 p) (past.push (.enter i))).push
      (.leave i)
termination_by i
decreasing_by exact Graph.lt_of_mem _ j.2

theorem walk_eq (g : Graph) (i : Nat) (past : Array Visit) :
    g.walk i past =
      if .leave i ∈ past then past.push (.again i)
      else
        ((g.node i).operands.foldl (fun p j => g.walk j p) (past.push (.enter i))).push
          (.leave i) := by
  rw [walk]; simp

def visits (g : Graph) (root : Nat) : List Visit := (g.walk root #[]).toList

def preorder (g : Graph) (root : Nat) : List Nat := (g.visits root).filterMap Visit.entered?

/-- The distinct nodes below a root in the order in which the walk completes
them: operands before users. -/
def postorder (g : Graph) (root : Nat) : List Nat := (g.visits root).filterMap Visit.left?

end Graph

/-- A fold that stops at the first error and then gives the state before it. -/
def foldUntil (step : σ → ι → Except ε σ) (s : σ) : List ι → σ × Option ε
  | [] => (s, none)
  | x :: xs =>
    match step s x with
    | .ok s' => foldUntil step s' xs
    | .error e => (s, some e)

theorem foldUntil_append (step : σ → ι → Except ε σ) (s : σ) (xs ys : List ι) :
    foldUntil step s (xs ++ ys) =
      match foldUntil step s xs with
      | (s', none) => foldUntil step s' ys
      | (s', some e) => (s', some e) := by
  induction xs generalizing s with
  | nil => rfl
  | cons x xs ih =>
    simp only [List.cons_append, foldUntil]
    cases step s x with
    | ok s' => exact ih s'
    | error e => rfl

theorem foldUntil_cons_ok {step : σ → ι → Except ε σ} {s s' : σ} {x : ι} (h : step s x = .ok s')
    (xs : List ι) : foldUntil step s (x :: xs) = foldUntil step s' xs := by
  simp [foldUntil, h]

theorem foldUntil_cons_error {step : σ → ι → Except ε σ} {s : σ} {x : ι} {e : ε}
    (h : step s x = .error e) (xs : List ι) : foldUntil step s (x :: xs) = (s, some e) := by
  simp [foldUntil, h]

theorem foldUntil_append_none {step : σ → ι → Except ε σ} {s s' : σ} {xs : List ι}
    (h : foldUntil step s xs = (s', none)) (ys : List ι) :
    foldUntil step s (xs ++ ys) = foldUntil step s' ys := by
  rw [foldUntil_append, h]

theorem foldUntil_append_some {step : σ → ι → Except ε σ} {s s' : σ} {xs : List ι} {e : ε}
    (h : foldUntil step s xs = (s', some e)) (ys : List ι) :
    foldUntil step s (xs ++ ys) = (s', some e) := by
  rw [foldUntil_append, h]

abbrev Assignment (α : Type) := Nat → α

def Assignment.set (f : Assignment α) (i : Nat) (a : α) : Assignment α :=
  fun j => if j = i then a else f j

@[simp] theorem Assignment.set_self (f : Assignment α) (i : Nat) (a : α) : f.set i a i = a := by
  simp [set]

theorem Assignment.set_of_ne (f : Assignment α) {i j : Nat} (a : α) (h : j ≠ i) :
    f.set i a j = f j := by
  simp [set, h]

end ExprCompiler
