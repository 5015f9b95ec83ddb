import MarkupScript.Expression.Eval

/-!
# Views that agree

What an expression gives depends on a few readings only: the value of a variable, and of an
annotation in the scope its type, attributes, text, children, parent and descendants. Two views
in which these are the same evaluate every expression alike, whatever else may differ in the
documents and in how the variables are layered.

* `View.Agrees`: all readings are the same.
* `Agrees.eval_eq`: so are the operands of all expressions.
* `Agrees.expression_eq`, `path_eq`, `condition_eq`, `coercedCondition_eq`: so are the values,
  the selections and the conditions.
-/

namespace MarkupScript

/-- An attribute is one of the attributes. -/
theorem Document.attribute?_eq (d : Document) (scope id : AnnotationId) (name : String) :
    d.attribute? scope id name = Keyed.get? (d.attributes scope id) name := by
  unfold attribute? attributes
  cases d.entry? scope id with
  | none => rfl
  | some e => rfl

namespace View

/-- Two views give the same readings. -/
structure Agrees (v w : View) : Prop where
  scope : v.scope = w.scope
  lookup : ∀ name, v.bindings.get? name = w.bindings.get? name
  kind : ∀ id, v.document.kind? v.scope id = w.document.kind? w.scope id
  attributes : ∀ id, v.document.attributes v.scope id = w.document.attributes w.scope id
  content : ∀ id, v.document.valueOf v.scope id = w.document.valueOf w.scope id
  children : ∀ id, v.document.children v.scope id = w.document.children w.scope id
  parent : ∀ id, v.document.parent? v.scope id = w.document.parent? w.scope id
  descendants : ∀ id, v.document.descendants v.scope id = w.document.descendants w.scope id

/-- Views of one document through one scope agree if their variables do. -/
theorem agrees_of_bindings {b c : Bindings} (h : ∀ name, b.get? name = c.get? name)
    (d : Document) (scope : AnnotationId) :
    Agrees { document := d, scope, bindings := b } { document := d, scope, bindings := c } where
  scope := rfl
  lookup := h
  kind _ := rfl
  attributes _ := rfl
  content _ := rfl
  children _ := rfl
  parent _ := rfl
  descendants _ := rfl

namespace Agrees

variable {v w : View}

/-! ## Paths -/

theorem along_eq (h : Agrees v w) : v.along = w.along := by
  funext axis id
  cases axis with
  | child => exact h.children id
  | descendant => exact h.descendants id
  | parent => exact congrArg Option.toList (h.parent id)
  | self => rfl

theorem accepts_eq (h : Agrees v w) : v.accepts = w.accepts := by
  funext test id
  rw [accepts, accepts, h.kind]

theorem keep_eq (h : Agrees v w) : v.keep = w.keep := by
  have hattribute : ∀ id name,
      v.document.attribute? v.scope id name = w.document.attribute? w.scope id name := by
    intro id name
    rw [Document.attribute?_eq, Document.attribute?_eq, h.attributes]
  funext ids predicate
  cases predicate with
  | position n => rfl
  | has name => simp only [keep, hattribute]
  | compare name value negated => simp only [keep, hattribute]

theorem stepFrom_eq (h : Agrees v w) : v.stepFrom = w.stepFrom := by
  funext axis test predicates id
  rw [stepFrom, stepFrom, h.keep_eq, h.along_eq, h.accepts_eq]

theorem valuesFrom_eq (h : Agrees v w) : v.valuesFrom = w.valuesFrom := by
  funext test id
  rw [valuesFrom, valuesFrom, h.attributes]

theorem follow_eq (h : Agrees v w) (steps : List Step) (ids : List AnnotationId) :
    v.follow steps ids = w.follow steps ids := by
  induction steps generalizing ids with
  | nil => rfl
  | cons step rest ih =>
    cases step with
    | attributes test => rw [follow, follow, h.valuesFrom_eq]
    | nodes axis test predicates => rw [follow, follow, ih, h.stepFrom_eq]

theorem select_eq (h : Agrees v w) (p : Path) : v.select p = w.select p := by
  have hstart : v.startOf p.start = w.startOf p.start := by
    cases p.start with
    | context => rw [startOf, startOf, h.scope]
    | fromVariable name => rw [startOf, startOf, h.lookup]
  have hfollow : v.follow p.steps = w.follow p.steps := funext (h.follow_eq p.steps)
  rw [select, select, hstart, hfollow]

/-! ## Operands and functions -/

theorem string_eq (h : Agrees v w) : v.string = w.string := by
  have hcontent : v.document.valueOf v.scope = w.document.valueOf w.scope := funext h.content
  funext operand
  cases operand with
  | nodes ids => rw [string, string, hcontent]
  | strings values => rfl
  | value x => rfl

theorem number_eq (h : Agrees v w) : v.number = w.number := by
  funext operand
  cases operand with
  | nodes ids => rw [number, number, h.string_eq] <;> simp
  | strings values => rw [number, number, h.string_eq] <;> simp
  | value x => rfl

theorem items_eq (h : Agrees v w) : v.items = w.items := by
  have hcontent : v.document.valueOf v.scope = w.document.valueOf w.scope := funext h.content
  funext operand
  cases operand with
  | nodes ids => rw [items, items, hcontent]
  | strings values => rfl
  | value x => rfl

theorem binary_eq (h : Agrees v w) : v.binary = w.binary := by
  have hcompare : v.compare = w.compare := by
    funext o left right
    rw [compare, compare, h.items_eq]
  funext o left right
  unfold binary
  rw [h.number_eq, hcompare]

theorem call_eq (h : Agrees v w) (name : String) (args : List Operand) :
    v.call name args = w.call name args := by
  have hcontent : v.document.valueOf v.scope = w.document.valueOf w.scope := funext h.content
  have hkind : v.document.kind? v.scope = w.document.kind? w.scope := funext h.kind
  unfold call
  rw [h.string_eq, h.number_eq, hcontent, hkind, h.scope]

/-! ## Expressions -/

mutual

/-- Every expression has the same operand in views that agree. -/
theorem eval_eq (h : Agrees v w) : ∀ e : Expr, v.eval e = w.eval e
  | .number x => by rw [eval, eval]
  | .text s => by rw [eval, eval]
  | .var name => by rw [eval, eval, h.lookup]
  | .path p => by rw [eval, eval, h.select_eq]
  | .neg e => by rw [eval, eval, h.eval_eq e, h.number_eq]
  | .binary o left right => by
    have hleft := h.eval_eq left
    have hright := h.eval_eq right
    cases o <;> simp only [eval, hleft, hright, h.binary_eq]
  | .call name args => by
    have hcall : v.call name = w.call name := funext (h.call_eq name)
    rw [eval, eval, h.evalAll_eq args, hcall]

theorem evalAll_eq (h : Agrees v w) : ∀ es : List Expr, v.evalAll es = w.evalAll es
  | [] => by rw [evalAll, evalAll]
  | e :: rest => by rw [evalAll, evalAll, h.eval_eq e, h.evalAll_eq rest]

end

theorem operand_eq (h : Agrees v w) (text : String) : v.operand text = w.operand text := by
  unfold operand
  cases Expr.parse text with
  | ok e => exact h.eval_eq e
  | error fault => rfl

theorem expression_eq (h : Agrees v w) (text : String) : v.expression text = w.expression text := by
  rw [expression, expression, h.operand_eq]

theorem path_eq (h : Agrees v w) (text : String) : v.path text = w.path text := by
  rw [path, path, h.operand_eq]

theorem condition_eq (h : Agrees v w) (text : String) : v.condition text = w.condition text := by
  rw [condition, condition, h.operand_eq]

theorem coercedCondition_eq (h : Agrees v w) (text : String) :
    v.coercedCondition text = w.coercedCondition text := by
  rw [coercedCondition, coercedCondition, h.expression_eq]

end Agrees

end View

end MarkupScript
