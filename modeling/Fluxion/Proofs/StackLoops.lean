import Fluxion.Formula.Printer
import Fluxion.Polish.Printer
import Fluxion.Tree.Evaluation

/-!
# Loops over a stack

Trees are evaluated and written by loops over a stack, but what the loops compute is told by recursion
on the tree: its value from the leaves up, and the tokens or characters of its parts one after the
other. A loop that finds a tree on its stack goes on with the rest of the stack as if what the
recursion gives had been put behind the results so far. This holds for every stack and all results, so
by induction on the tree the results of the operands are there when their operation takes them.

* `Tree.evaluateFrom_eq` and `Tree.evaluate_eq` are about evaluation.
* `Tree.polishTokens` and `Tree.unwritable?` say what is written in Polish notation, `Tree.polishFrom_eq`
  and `Tree.polish_eq` that the loop writes it.
* `Tree.formulaChars` says what is written as a formula, `Tree.renderFrom_eq` and `Tree.formula_eq` that
  the loop writes it.
-/

namespace Fluxion

namespace Tree

variable {κ : Type}

/-! ## Evaluation -/

section

variable (K : Kernel κ) (ρ : Valuation κ)

/-- **The loop goes on with the value of a tree**, or stops with the fault of the tree. -/
theorem evaluateFrom_eq (t : Tree κ) (stack : List (Tree κ × Bool)) (results : List κ) :
    evaluateFrom K ρ ((t, false) :: stack) results =
      match t.value K ρ with
      | .ok v => evaluateFrom K ρ stack (v :: results)
      | .error f => .error f := by
  induction t generalizing stack results with
  | absent => rw [evaluateFrom, value]
  | literal v => rw [evaluateFrom, value]
  | var n =>
    rw [evaluateFrom, value]
    cases ρ n <;> rfl
  | binary op l r ihl ihr =>
    rw [evaluateFrom, ihl, value]
    cases l.value K ρ with
    | error f => rfl
    | ok a =>
      dsimp only
      rw [ihr]
      cases r.value K ρ with
      | error f => rfl
      | ok b =>
        dsimp only
        rw [evaluateFrom.eq_def]
        cases hop : op.resolveArity 2 <;> simp only [hop]
  | unary op x ih =>
    rw [evaluateFrom, ih, value]
    cases x.value K ρ with
    | error f => rfl
    | ok a =>
      dsimp only
      rw [evaluateFrom.eq_def]
      cases hop : op.resolveArity 1 <;> simp only [hop]

end

/-- **Evaluation gives the value of a tree**, or its fault. -/
theorem evaluate_eq [Scalar κ] (ρ : Valuation κ) (t : Tree κ) :
    t.evaluate ρ = if t.isAbsent then .error .nothingToEvaluate else t.value .guarded ρ := by
  rw [evaluate, evaluateFrom_eq]
  cases t.value .guarded ρ <;> simp only [evaluateFrom]

theorem evaluate_eq_value [Scalar κ] (ρ : Valuation κ) {t : Tree κ} (h : t.isAbsent = false) :
    t.evaluate ρ = t.value .guarded ρ := by
  rw [evaluate_eq, h, if_neg Bool.false_ne_true]

/-! ## Polish notation -/

/-- The first operator without a symbol, in the order in which the nodes are written. -/
def unwritable? : Tree κ → Option Operator
  | binary op l r =>
    if op.resolve.isNone then some op
    else
      match l.unwritable? with
      | some o => some o
      | none => r.unwritable?
  | unary op x => if op.resolve.isNone then some op else x.unwritable?
  | _ => none

variable [Literal κ]

open Polish

/-- The tokens of a tree. -/
def polishTokens : Tree κ → List (List Char)
  | absent => [nilToken]
  | literal v => [openToken, (Literal.toNumeral v).plainChars, nilToken, nilToken, closeToken]
  | var n => [openToken, n.shown.toList, nilToken, nilToken, closeToken]
  | binary op l r => openToken :: operatorToken op :: (l.polishTokens ++ r.polishTokens ++ [closeToken])
  | unary op x => openToken :: operatorToken op :: (x.polishTokens ++ [nilToken, closeToken])

/-- **The loop goes on behind the tokens of a tree**; an operator without a symbol stops it. -/
theorem polishFrom_eq (t : Tree κ) (pending : List (Item κ)) (tokens : List (List Char)) :
    polishFrom (.tree t :: pending) tokens =
      match t.unwritable? with
      | some op => .error (.unwritable op)
      | none => polishFrom pending (t.polishTokens.reverse ++ tokens) := by
  have hempty : ∀ (pending : List (Item κ)) (tokens : List (List Char)),
      polishFrom (.tree absent :: pending) tokens = polishFrom pending (nilToken :: tokens) := by
    intro pending tokens
    rw [polishFrom]
    rfl
  induction t generalizing pending tokens with
  | absent => exact hempty pending tokens
  | literal v => simp [polishFrom, polishValue, polishSlots, isAbsent, unwritable?, polishTokens]
  | var n => simp [polishFrom, polishValue, polishSlots, isAbsent, unwritable?, polishTokens]
  | binary op l r ihl ihr =>
    rw [polishFrom, unwritable?, polishTokens]
    cases hop : op.resolve with
    | none => simp [polishValue, isAbsent, hop]
    | some o =>
      simp only [polishValue, polishSlots, isAbsent, hop, ihl]
      cases l.unwritable? with
      | some o => rfl
      | none =>
        simp only [ihr]
        cases r.unwritable? with
        | some o => rfl
        | none => simp [polishFrom]
  | unary op x ih =>
    rw [polishFrom, unwritable?, polishTokens]
    cases hop : op.resolve with
    | none => simp [polishValue, isAbsent, hop]
    | some o =>
      simp only [polishValue, polishSlots, isAbsent, hop, ih, hempty]
      cases x.unwritable? with
      | some o => rfl
      | none => simp [polishFrom]

/-- **The text of a tree in Polish notation.** -/
theorem polish_eq (t : Tree κ) :
    t.polish =
      match t.unwritable? with
      | some op => .error (.unwritable op)
      | none => .ok (String.ofList (spaced t.polishTokens)) := by
  rw [polish, polishFrom_eq]
  cases t.unwritable? with
  | some op => rfl
  | none =>
    simp only [polishFrom, List.append_nil, List.reverse_reverse]
    rfl

/-! ## Formulas -/

/-- The characters of the formula of a tree. -/
def formulaChars : Tree κ → List Char
  | absent => ['n', 'i', 'l']
  | literal v => (Literal.toNumeral v).formulaChars
  | var n => n.shown.toList
  | binary op l r =>
    if op.isFunction then
      op.formulaSymbol ++ '(' :: l.formulaChars ++ ',' :: ' ' :: r.formulaChars ++ [')']
    else '(' :: l.formulaChars ++ ' ' :: op.formulaSymbol ++ ' ' :: r.formulaChars ++ [')']
  | unary op x => op.formulaSymbol ++ '(' :: x.formulaChars ++ [')']

/-- An infix operation is written between its operands, in brackets. -/
theorem formulaChars_between {op : Operator} (h : op.isFunction = false) (l r : Tree κ) :
    (binary op l r).formulaChars =
      '(' :: l.formulaChars ++ ' ' :: op.formulaSymbol ++ ' ' :: r.formulaChars ++ [')'] := by
  rw [formulaChars, h, if_neg Bool.false_ne_true]

/-- A function is written before its operands, in brackets. -/
theorem formulaChars_function {op : Operator} (h : op.isFunction = true) (l r : Tree κ) :
    (binary op l r).formulaChars =
      op.formulaSymbol ++ '(' :: l.formulaChars ++ ',' :: ' ' :: r.formulaChars ++ [')'] := by
  rw [formulaChars, if_pos h]

/-- **The loop goes on behind the formula of a tree.** -/
theorem renderFrom_eq (t : Tree κ) (stack : List (Tree κ × Bool)) (texts : List String) :
    renderFrom ((t, false) :: stack) texts = renderFrom stack (String.ofList t.formulaChars :: texts) := by
  induction t generalizing stack texts with
  | absent => simp [renderFrom, slots, render, formulaChars]
  | literal v => simp [renderFrom, slots, render, formulaChars]
  | var n => simp [renderFrom, slots, render, formulaChars]
  | binary op l r ihl ihr =>
    rw [renderFrom]
    simp only [slots, List.map_cons, List.map_nil, List.cons_append, List.nil_append, ihl, ihr]
    have hrender : (binary op l r).render [String.ofList l.formulaChars, String.ofList r.formulaChars] =
        String.ofList (binary op l r).formulaChars := by
      cases hop : op.isFunction with
      | true => simp [render, hop, formulaChars_function hop, ← String.toList_inj]
      | false => simp [render, hop, formulaChars_between hop, ← String.toList_inj]
    rw [← hrender]
    simp [renderFrom, slots]
  | unary op x ih =>
    rw [renderFrom]
    simp only [slots, List.map_cons, List.map_nil, List.cons_append, List.nil_append, ih]
    have hrender : (unary op x).render [String.ofList x.formulaChars] =
        String.ofList (unary op x).formulaChars := by
      simp [render, formulaChars, ← String.toList_inj]
    rw [← hrender]
    simp [renderFrom, slots]

/-- **The formula of a tree.** -/
theorem formula_eq (t : Tree κ) :
    t.formula = if t.isAbsent then "" else String.ofList t.formulaChars := by
  rw [formula, renderFrom_eq, renderFrom]
  rfl

end Tree

end Fluxion
