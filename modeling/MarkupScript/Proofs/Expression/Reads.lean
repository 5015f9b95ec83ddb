import MarkupScript.Expression.Eval

/-!
# The variables that an expression reads

An expression looks variables up by name, at the start of a path or alone. The right side of `or`
and `and` looks up nothing if the left side decides. With other values for variables that are not
looked up, an expression gives the same.

* `View.reads`: the names that are looked up while an expression is evaluated.
* `View.eval_eq_of_reads`: other variables do not matter.
* `View.expression_eq_of_reads`, `path_eq_of_reads`: the same for the text of an expression.
-/

namespace MarkupScript

/-- The variable that a path starts from. -/
def PathStart.reads : PathStart → List String
  | .context => []
  | .fromVariable name => [name]

namespace View

/-- The left side of an operator makes the right side idle. -/
def decides (v : View) (o : Operator) (left : Expr) : Bool :=
  match o, v.eval left with
  | .or, .ok x => truth x
  | .and, .ok x => !truth x
  | _, _ => false

mutual

/-- The names that are looked up while an expression is evaluated. -/
def reads (v : View) : Expr → List String
  | .number _ | .text _ => []
  | .var name => [name]
  | .path p => p.start.reads
  | .neg e => v.reads e
  | .binary o left right => v.reads left ++ if v.decides o left then [] else v.reads right
  | .call _ args => v.readsAll args

def readsAll (v : View) : List Expr → List String
  | [] => []
  | e :: rest => v.reads e ++ v.readsAll rest

end

/-- The names that are looked up while the text of an expression is evaluated. -/
def readsText (v : View) (text : String) : List String :=
  match Expr.parse text with
  | .ok e => v.reads e
  | .error _ => []

/-- The view with other variables. -/
def rebound (v : View) (c : Bindings) : View := { v with bindings := c }

variable {v : View} {c : Bindings}

theorem follow_rebound (steps : List Step) (ids : List AnnotationId) :
    (v.rebound c).follow steps ids = v.follow steps ids := by
  induction steps generalizing ids with
  | nil => rfl
  | cons step rest ih =>
    cases step with
    | attributes test => rfl
    | nodes axis test predicates =>
      rw [follow, follow, ih]
      rfl

theorem select_eq_of_reads {p : Path}
    (h : ∀ name ∈ p.start.reads, c.get? name = v.bindings.get? name) :
    (v.rebound c).select p = v.select p := by
  have hstart : (v.rebound c).startOf p.start = v.startOf p.start := by
    cases hp : p.start with
    | context => rfl
    | fromVariable name =>
      have hname : c.get? name = v.bindings.get? name := h name (by simp [hp, PathStart.reads])
      simp only [startOf, rebound, hname]
  have hfollow : (v.rebound c).follow p.steps = v.follow p.steps := funext (follow_rebound p.steps)
  rw [select, select, hstart, hfollow]

mutual

/-- Variables that an expression does not look up do not matter to it. -/
theorem eval_eq_of_reads : ∀ e : Expr,
    (∀ name ∈ v.reads e, c.get? name = v.bindings.get? name) → (v.rebound c).eval e = v.eval e
  | .number x, _ => by rw [eval, eval]
  | .text s, _ => by rw [eval, eval]
  | .var name, h => by
    have hname : (v.rebound c).bindings.get? name = v.bindings.get? name :=
      h name (by simp [reads])
    rw [eval, eval, hname]
  | .path p, h => by
    rw [eval, eval]
    exact select_eq_of_reads fun name hname => h name (by rwa [reads])
  | .neg e, h => by
    have he := eval_eq_of_reads e fun name hname => h name (by rwa [reads])
    rw [eval, eval, he]
    rfl
  | .binary o left right, h => by
    have hleft := eval_eq_of_reads left fun name hname =>
      h name (by rw [reads]; exact List.mem_append_left _ hname)
    -- What the right side looks up counts only if the left side does not decide.
    have hright : v.decides o left = false → (v.rebound c).eval right = v.eval right := by
      intro hdecides
      refine eval_eq_of_reads right fun name hname => h name ?_
      rw [reads, hdecides]
      exact List.mem_append_right _ hname
    cases hx : v.eval left with
    | error e => cases o <;> simp only [eval, hleft, hx, bind, Except.bind]
    | ok x =>
      cases o with
      | or =>
        cases htruth : truth x with
        | true => simp only [eval, hleft, hx, htruth, bind, Except.bind, if_true]
        | false =>
          have hr := hright (by simp only [decides, hx, htruth])
          simp only [eval, hleft, hr]
      | and =>
        cases htruth : truth x with
        | true =>
          have hr := hright (by simp only [decides, hx, htruth, Bool.not_true])
          simp only [eval, hleft, hr]
        | false => simp only [eval, hleft, hx, htruth, bind, Except.bind, Bool.not_false, if_true]
      | _ =>
        have hr := hright rfl
        simp only [eval, hleft, hr]
        rfl
  | .call name args, h => by
    have hargs := evalAll_eq_of_reads args fun name hname => h name (by rwa [reads])
    rw [eval, eval, hargs]
    rfl

theorem evalAll_eq_of_reads : ∀ es : List Expr,
    (∀ name ∈ v.readsAll es, c.get? name = v.bindings.get? name) →
      (v.rebound c).evalAll es = v.evalAll es
  | [], _ => by rw [evalAll, evalAll]
  | e :: rest, h => by
    have he := eval_eq_of_reads e fun name hname =>
      h name (by rw [readsAll]; exact List.mem_append_left _ hname)
    have hrest := evalAll_eq_of_reads rest fun name hname =>
      h name (by rw [readsAll]; exact List.mem_append_right _ hname)
    rw [evalAll, evalAll, he, hrest]

end

theorem operand_eq_of_reads {text : String}
    (h : ∀ name ∈ v.readsText text, c.get? name = v.bindings.get? name) :
    (v.rebound c).operand text = v.operand text := by
  unfold operand
  unfold readsText at h
  cases hparse : Expr.parse text with
  | ok e =>
    rw [hparse] at h
    exact eval_eq_of_reads e h
  | error fault => rfl

theorem expression_eq_of_reads {text : String}
    (h : ∀ name ∈ v.readsText text, c.get? name = v.bindings.get? name) :
    (v.rebound c).expression text = v.expression text := by
  rw [expression, expression, operand_eq_of_reads h]

theorem path_eq_of_reads {text : String}
    (h : ∀ name ∈ v.readsText text, c.get? name = v.bindings.get? name) :
    (v.rebound c).path text = v.path text := by
  rw [path, path, operand_eq_of_reads h]

end View

end MarkupScript
