import MarkupScript.Proofs.Expression.Ordering
import MarkupScript.Proofs.Expression.Lexing
import MarkupScript.Proofs.Line.Quoting
import Mathlib.Data.List.Infix

/-!
# Predicates on attributes

A predicate asks for an attribute, or compares it with a value in quotes. The text of a path is cut
at the brackets of its predicates, and there quotes are seen: whatever stands in them, the predicate
goes on. Inside a predicate the sign of the comparison is looked for first, and there they are not
seen: a value with `!=` in it is cut in two.

* `Text.splitOnce?_first`, `splitOnce?_eq_none`: where a text is split.
* `ExprToken.Closed`: text that can stand in the brackets of a predicate.
* `Predicate.parse_has`, `parse_differs`, `parse_compare`: the predicates that are read as they are
  meant, and `parse_misread` the one that is not.
* `Expr.parse_below`: the path to all that is below the scope and passes a predicate.
* `Document.belowWith`: the annotations below the scope that have an attribute.
* `View.attribute_selected`: what the three predicates on an attribute select.
-/

namespace MarkupScript

/-! ## Splitting and trimming -/

namespace Text

variable {sep cs before after : List Char}

/-- A text is split at the first place where `sep` stands, that is, where it does not stand earlier,
not even with its own beginning. -/
theorem splitOnce?_first (sep : List Char) (hsep : sep ≠ [])
    (hfirst : ¬ sep <:+: before ++ sep.dropLast) :
    splitOnce? sep (before ++ (sep ++ after)) = some (before, after) := by
  induction before with
  | nil =>
    cases sep with
    | nil => exact absurd rfl hsep
    | cons s rest =>
      have hprefix : (s :: rest).isPrefixOf (s :: (rest ++ after)) = true :=
        List.isPrefixOf_iff_prefix.mpr (List.prefix_append (s :: rest) after)
      simp [splitOnce?, hprefix]
  | cons c before ih =>
    -- An occurrence at the front would end before the last character of the next one.
    have hnot : ¬ sep.isPrefixOf (c :: (before ++ (sep ++ after))) = true := by
      intro hprefix
      have hfront : c :: before ++ sep.dropLast <+: c :: (before ++ (sep ++ after)) := by
        rw [← List.cons_append, List.prefix_append_right_inj]
        exact (List.dropLast_prefix sep).trans (List.prefix_append sep after)
      have hlength : sep.length ≤ (c :: before ++ sep.dropLast).length := by
        simp only [List.length_append, List.length_cons, List.length_dropLast]
        omega
      exact hfirst (List.prefix_of_prefix_length_le (List.isPrefixOf_iff_prefix.mp hprefix) hfront
        hlength).isInfix
    have hrest : ¬ sep <:+: before ++ sep.dropLast := by
      intro hin
      exact hfirst (List.infix_cons_iff.mpr (.inr hin))
    rw [List.cons_append, splitOnce?, if_neg hnot, ih hrest]
    rfl

theorem splitOnce?_eq_none (hsep : sep ≠ []) (h : ¬ sep <:+: cs) : splitOnce? sep cs = none := by
  induction cs with
  | nil => simp [splitOnce?, hsep]
  | cons c cs ih =>
    rw [List.infix_cons_iff, not_or] at h
    have hnot : ¬ sep.isPrefixOf (c :: cs) = true := by
      rw [List.isPrefixOf_iff_prefix]
      exact h.1
    rw [splitOnce?, if_neg hnot, ih h.2]
    rfl

theorem not_infix_append {s : Char} {front : List Char} (hfront : s ∉ front)
    (h : ¬ s :: sep <:+: cs) : ¬ s :: sep <:+: front ++ cs := by
  induction front with
  | nil => exact h
  | cons c front ih =>
    rw [List.mem_cons, not_or] at hfront
    obtain ⟨hc, hfront⟩ := hfront
    rw [List.cons_append, List.infix_cons_iff, not_or]
    refine ⟨?_, ih hfront⟩
    intro hprefix
    exact hc (List.cons_prefix_cons.mp hprefix).1

theorem not_infix_concat (sep : List Char) {s c : Char} (hc : c ≠ s) (h : ¬ sep ++ [s] <:+: cs) :
    ¬ sep ++ [s] <:+: cs ++ [c] := by
  rw [List.infix_concat_iff, not_or]
  refine ⟨?_, h⟩
  intro hsuffix
  rcases List.suffix_concat_iff.mp hsuffix with hnil | ⟨t, ht, -⟩
  · simp at hnil
  · exact hc (List.append_inj_right' ht rfl |> List.singleton_inj.mp).symm

/-- At the end nothing is trimmed after a character that is no blank. -/
theorem trimChars_concat {c : Char} (hc : isBlank c = false) :
    trimChars (cs ++ [c]) = trimStart cs ++ [c] := by
  have hstart : trimStart (cs ++ [c]) = trimStart cs ++ [c] := by
    induction cs with
    | nil => simp [trimStart, hc]
    | cons d cs ih =>
      rw [List.cons_append, trimStart, trimStart, List.dropWhile_cons, List.dropWhile_cons]
      split
      · exact ih
      · rfl
  rw [trimChars, hstart]
  simp [trimStart, hc]

/-- Quotes at both ends are removed. -/
theorem unquoteChars_quoted (cs : List Char) : unquoteChars ('\'' :: (cs ++ ['\''])) = cs := by
  simp [unquoteChars, enclosed?, beforeLast?]

/-- A quote that stands only at the end is not removed. -/
theorem unquoteChars_concat (h : '\'' ∉ cs) : unquoteChars (cs ++ ['\'']) = cs ++ ['\''] := by
  cases cs with
  | nil => rfl
  | cons c cs =>
    have hc : c ≠ '\'' := (List.ne_of_not_mem_cons h).symm
    have hlast : beforeLast? '"' (cs ++ ['\'']) = none := by simp [beforeLast?]
    simp [unquoteChars, enclosed?, hc, hlast]

end Text

/-! ## Closing a predicate -/

namespace ExprToken

/-- The text stands in the brackets of a predicate, and the next bracket closes them. -/
def Closed (inside : List Char) : Prop :=
  ∀ rest, closePredicate 1 none (inside ++ ']' :: rest) = some (inside ++ [']'], rest)

/-- The characters that mean nothing to the brackets of a predicate. -/
def isSealed (c : Char) : Bool :=
  c ≠ '\'' && c ≠ '"' && c ≠ '[' && c ≠ ']'

theorem closePredicate_append {front cs : List Char} {depth : Nat}
    (hfront : ∀ c ∈ front, isSealed c = true) :
    closePredicate depth none (front ++ cs) =
      (closePredicate depth none cs).map fun p => (front ++ p.1, p.2) := by
  induction front with
  | nil => simp
  | cons c front ih =>
    obtain ⟨hc, hfront⟩ := List.forall_mem_cons.mp hfront
    simp only [isSealed, Bool.and_eq_true, decide_eq_true_eq] at hc
    obtain ⟨⟨⟨hsingle, hdouble⟩, hopen⟩, hclose⟩ := hc
    simp [closePredicate, hsingle, hdouble, hopen, hclose, ih hfront, Function.comp_def]

/-- An open quote goes on up to the next one, whatever stands between. -/
theorem closePredicate_quoted {quote : Char} {value cs : List Char} {depth : Nat}
    (hvalue : quote ∉ value) :
    closePredicate depth (some quote) (value ++ quote :: cs) =
      (closePredicate depth none cs).map fun p => (value ++ quote :: p.1, p.2) := by
  induction value with
  | nil => simp [closePredicate]
  | cons c value ih =>
    rw [List.mem_cons, not_or] at hvalue
    obtain ⟨hc, hvalue⟩ := hvalue
    simp [closePredicate, Ne.symm hc, ih hvalue, Function.comp_def]

theorem closed_of_sealed {front : List Char} (hfront : ∀ c ∈ front, isSealed c = true) :
    Closed front := by
  intro rest
  rw [closePredicate_append hfront]
  rfl

/-- A value in quotes may hold anything but the quote. -/
theorem closed_quoted {front value : List Char} (hfront : ∀ c ∈ front, isSealed c = true)
    (hvalue : '\'' ∉ value) : Closed (front ++ '\'' :: (value ++ ['\''])) := by
  intro rest
  have hopen : closePredicate 1 none ('\'' :: (value ++ '\'' :: ']' :: rest)) =
      (closePredicate 1 (some '\'') (value ++ '\'' :: ']' :: rest)).map
        fun p => ('\'' :: p.1, p.2) := rfl
  have hend : closePredicate 1 none (']' :: rest) = some ([']'], rest) := rfl
  have hshape : front ++ '\'' :: (value ++ ['\'']) ++ ']' :: rest =
      front ++ '\'' :: (value ++ '\'' :: ']' :: rest) := by simp
  rw [hshape, closePredicate_append hfront, hopen, closePredicate_quoted hvalue, hend]
  simp

/-- A star with a predicate is taken as a whole, by every reader that goes on at a star. -/
theorem takeBracketed_closed {continues : Char → Bool} {inside : List Char}
    (hstar : continues '*' = true) (hinside : Closed inside) :
    takeBracketed continues ('*' :: '[' :: (inside ++ [']'])) =
      some ('*' :: '[' :: (inside ++ [']']), []) := by
  have hnil : takeBracketed continues [] = some ([], []) := by rw [takeBracketed]
  have hbracket : takeBracketed continues ('[' :: (inside ++ [']'])) =
      some ('[' :: (inside ++ [']']), []) := by
    rw [takeBracketed, if_pos rfl]
    split
    · next hnone =>
      rw [hinside []] at hnone
      cases hnone
    · next taken after hsome =>
      rw [hinside []] at hsome
      cases hsome
      simp [hnil]
  rw [takeBracketed, if_neg (by decide), if_pos hstar, hbracket]
  rfl

end ExprToken

open ExprToken

/-! ## Reading a predicate -/

theorem isSealed_of_isNameStart {c : Char} (h : isNameStart c = true) : isSealed c = true := by
  have hne : ∀ d, isNameStart d = false → c ≠ d := fun d hd => ne_of_isNameStart h hd
  simp [isSealed, hne '\'' (by decide), hne '"' (by decide), hne '[' (by decide),
    hne ']' (by decide)]

namespace Predicate

section

variable {name : List Char} (hname : ∀ c ∈ name, isNameStart c = true)
include hname

theorem not_mem_name {d : Char} (hd : isNameStart d = false) : d ∉ name := by
  intro hmem
  exact ne_of_isNameStart (hname d hmem) hd rfl

theorem not_infix_name {s : Char} (hs : isNameStart s = false) (sep : List Char) :
    ¬ s :: sep <:+: name := by
  intro hin
  exact not_mem_name hname hs (hin.subset List.mem_cons_self)

theorem sealed_test (sign : List Char) (hsign : ∀ c ∈ sign, isSealed c = true) :
    ∀ c ∈ '@' :: (name ++ sign), isSealed c = true := by
  intro c hc
  rcases List.mem_cons.mp hc with rfl | hc
  · decide
  · rcases List.mem_append.mp hc with hc | hc
    · exact isSealed_of_isNameStart (hname c hc)
    · exact hsign c hc

theorem trimChars_name : Text.trimChars name = name :=
  Text.trimChars_of_ends
    (fun c hc => not_isBlank_of_isNameStart (hname c (List.mem_of_mem_head? hc)))
    (fun c hc => not_isBlank_of_isNameStart (hname c (List.mem_of_mem_getLast? hc)))

/-- There is no `!=` in the name of an attribute, nor in front of the value it is compared with. -/
theorem not_infix_test {value : List Char} (hvalue : ¬ ['!', '='] <:+: value) :
    ¬ ['!', '='] <:+: name ++ '=' :: '\'' :: value := by
  have hfront : '!' ∉ name ++ ['=', '\''] := by
    rw [List.mem_append, not_or]
    exact ⟨not_mem_name hname (by decide), by decide⟩
  have hshape : name ++ '=' :: '\'' :: value = (name ++ ['=', '\'']) ++ value := by simp
  rw [hshape]
  exact Text.not_infix_append hfront hvalue

end

theorem position?_attribute (test : List Char) : Text.position? ('@' :: test) = none := by
  have hdigit : Decimal.isDigit '@' = false := by decide
  simp [Text.position?, hdigit]

theorem trimChars_quoted (value : List Char) :
    Text.trimChars ('\'' :: (value ++ ['\''])) = '\'' :: (value ++ ['\'']) :=
  Text.trimChars_between value (by decide) (by decide)

variable {name value : List Char}

theorem parse_has (hname : ∀ c ∈ name, isNameStart c = true) :
    parse ('@' :: name) = .ok (.has (String.ofList name)) := by
  have htrim : Text.trimChars ('@' :: name) = '@' :: name := by
    refine Text.trimChars_of_ends (by simp; decide) ?_
    intro c hc
    rcases List.mem_cons.mp (List.mem_of_mem_getLast? hc) with rfl | hc
    · decide
    · exact not_isBlank_of_isNameStart (hname c hc)
  have hdiffers : Text.splitOnce? ['!', '='] name = none :=
    Text.splitOnce?_eq_none (by decide) (not_infix_name hname (by decide) ['='])
  have hequals : Text.splitOnce? ['='] name = none :=
    Text.splitOnce?_eq_none (by decide) (not_infix_name hname (by decide) [])
  simp [parse, htrim, position?_attribute, hdiffers, hequals, trimChars_name hname]

/-- A comparison for equality, with a value that has no `!=` in it. -/
theorem parse_compare (hname : ∀ c ∈ name, isNameStart c = true)
    (hvalue : ¬ ['!', '='] <:+: value) :
    parse ('@' :: (name ++ '=' :: '\'' :: (value ++ ['\'']))) =
      .ok (.compare (String.ofList name) (String.ofList value) false) := by
  have htrim : Text.trimChars ('@' :: ((name ++ '=' :: '\'' :: value) ++ ['\''])) =
      '@' :: ((name ++ '=' :: '\'' :: value) ++ ['\'']) :=
    Text.trimChars_between _ (by decide) (by decide)
  have hdiffers : Text.splitOnce? ['!', '='] (name ++ '=' :: '\'' :: (value ++ ['\''])) = none :=
    Text.splitOnce?_eq_none (by decide)
      (not_infix_test hname (Text.not_infix_concat ['!'] (by decide) hvalue))
  have hequals : Text.splitOnce? ['='] (name ++ '=' :: '\'' :: (value ++ ['\''])) =
      some (name, '\'' :: (value ++ ['\''])) := by
    refine Text.splitOnce?_first ['='] (by decide) ?_
    rw [List.dropLast_singleton, List.append_nil]
    exact not_infix_name hname (by decide) []
  simp only [List.append_assoc, List.cons_append] at htrim
  simp [parse, htrim, position?_attribute, hdiffers, hequals, trimChars_name hname,
    trimChars_quoted, Text.unquoteChars_quoted]

/-- A comparison is cut at the first `!=`, be it the sign of the comparison or a part of the value
it is compared with. -/
theorem parse_cut {front : List Char} (after : List Char) (hfront : ¬ ['!', '='] <:+: front) :
    parse ('@' :: (front ++ '!' :: '=' :: (after ++ ['\'']))) =
      .ok (.compare (String.ofList (Text.trimChars front))
        (String.ofList (Text.unquoteChars (Text.trimChars (after ++ ['\''])))) true) := by
  have htrim : Text.trimChars ('@' :: ((front ++ '!' :: '=' :: after) ++ ['\''])) =
      '@' :: ((front ++ '!' :: '=' :: after) ++ ['\'']) :=
    Text.trimChars_between _ (by decide) (by decide)
  have hdiffers : Text.splitOnce? ['!', '='] (front ++ '!' :: '=' :: (after ++ ['\''])) =
      some (front, after ++ ['\'']) :=
    Text.splitOnce?_first ['!', '='] (by decide)
      (Text.not_infix_concat ['!'] (by decide) hfront)
  simp only [List.append_assoc, List.cons_append] at htrim
  simp [parse, htrim, position?_attribute, hdiffers]

/-- A comparison for difference, with any value. -/
theorem parse_differs (hname : ∀ c ∈ name, isNameStart c = true) :
    parse ('@' :: (name ++ '!' :: '=' :: '\'' :: (value ++ ['\'']))) =
      .ok (.compare (String.ofList name) (String.ofList value) true) := by
  have hcut := parse_cut ('\'' :: value) (not_infix_name hname (by decide) ['='])
  rwa [List.cons_append, trimChars_name hname, trimChars_quoted,
    Text.unquoteChars_quoted] at hcut

/-- A comparison for equality, with a value that has `!=` in it: what stands up to there is taken
for the name, and the rest for the value. -/
theorem parse_misread {before after : List Char} (hname : ∀ c ∈ name, isNameStart c = true)
    (hbefore : ¬ ['!', '='] <:+: before) (hafter : '\'' ∉ after) :
    parse ('@' :: (name ++ '=' :: '\'' :: (before ++ '!' :: '=' :: after ++ ['\'']))) =
      .ok (.compare (String.ofList (Text.trimChars (name ++ '=' :: '\'' :: before)))
        (String.ofList (Text.trimStart after ++ ['\''])) true) := by
  -- The quote that closes the value has lost the one that opens it, so it stays.
  have hquote : '\'' ∉ Text.trimStart after := by
    intro hmem
    exact hafter ((List.dropWhile_sublist _).mem hmem)
  have hcut := parse_cut after (not_infix_test hname hbefore)
  rw [Text.trimChars_concat (by decide), Text.unquoteChars_concat hquote] at hcut
  simpa using hcut

end Predicate

/-! ## Reading the path to all below -/

/-- The path to all that is below the scope and passes the predicate. -/
def Path.below (predicate : Predicate) : Path :=
  ⟨.context, [.nodes .descendant .any [predicate]]⟩

/-- Its text, given what stands in the brackets. -/
def Path.belowText (inside : List Char) : List Char :=
  '/' :: '/' :: '*' :: '[' :: (inside ++ [']'])

section

variable {inside : List Char} {predicate : Predicate} (hinside : Closed inside)
  (hparse : Predicate.parse inside = .ok predicate)

include hinside in
theorem ExprToken.lex_below :
    lex (String.ofList (Path.belowText inside)) =
      .ok [.path (String.ofList (Path.belowText inside))] := by
  have hbracketed : takeBracketed isPathChar (Path.belowText inside) =
      some (Path.belowText inside, []) := by
    rw [Path.belowText, takeBracketed, if_neg (by decide), if_pos (by decide), takeBracketed,
      if_neg (by decide), if_pos (by decide), takeBracketed_closed (by decide) hinside]
    rfl
  have hlexes : ∀ input, Lexes input true (Path.belowText inside)
      [.path (String.ofList (Path.belowText inside))] := by
    intro input fuel hfuel
    have htake : take input true '/' ('/' :: '*' :: '[' :: (inside ++ [']'])) =
        .ok ⟨.path (String.ofList (Path.belowText inside)), false, []⟩ := by
      rw [take, if_pos rfl, takeOperand_path (.inl rfl), ← Path.belowText, takePath, hbracketed]
    exact Lexes.token (by decide) htake (Nat.zero_le _) .nil fuel hfuel
  rw [lex, String.toList_ofList]
  exact hlexes _ _ (Nat.le_refl _)

include hinside hparse

theorem Step.parse_below :
    Step.parse .descendant ('*' :: '[' :: (inside ++ [']'])) =
      .ok (.nodes .descendant .any [predicate]) := by
  -- The text of the step stands in messages only.
  have hpredicates : ∀ step, parsePredicates step ('[' :: (inside ++ [']'])) = .ok [predicate] := by
    intro step
    have hnil : parsePredicates step [] = .ok [] := by rw [parsePredicates]
    rw [parsePredicates]
    split
    · next hnone =>
      rw [hinside []] at hnone
      cases hnone
    · next taken after hsome =>
      rw [hinside []] at hsome
      cases hsome
      rw [List.dropLast_concat, hparse, hnil]
      rfl
  simp [Step.parse, hpredicates, NameTest.ofText, bind, Except.bind]

theorem Path.parse_below :
    Path.parse (String.ofList (belowText inside)) = .ok (below predicate) := by
  have htake : takeStep ('*' :: '[' :: (inside ++ [']'])) =
      some ('*' :: '[' :: (inside ++ [']']), []) := takeBracketed_closed (by decide) hinside
  simp [Path.parse, belowText, takeStart, parseSteps, takeSeparator, htake,
    Step.parse_below hinside hparse, below, bind, Except.bind, pure, Except.pure]

theorem Expr.parse_below :
    Expr.parse (String.ofList (Path.belowText inside)) = .ok (.path (.below predicate)) :=
  Expr.parse_eq_path_iff.mpr ⟨_, 0, lex_below hinside, Path.parse_below hinside hparse⟩

end

/-! ## What is below a scope -/

namespace Document

variable {d : Document} {scope : AnnotationId}

/-- The annotations below the scope that have the attribute, with a value that passes the test, in
document order. -/
def belowWith (d : Document) (scope : AnnotationId) (name : String) (test : String → Bool) :
    List AnnotationId :=
  d.order.filter fun id =>
    (id ≠ scope && d.contains scope id) && (d.attribute? scope id name).any test

/-- A part of a list without repetition consists of those that are in it. -/
theorem filter_mem_of_sublist {l part : List AnnotationId} (hl : l.Nodup)
    (hsub : part.Sublist l) : l.filter (· ∈ part) = part := by
  have hpart : (part.filter (· ∈ part)).Sublist (l.filter (· ∈ part)) := hsub.filter _
  have hself : part.filter (· ∈ part) = part := List.filter_eq_self.mpr (by simp)
  have hlength : (l.filter (· ∈ part)).length ≤ part.length := by
    refine ((hl.filter _).subperm ?_).length_le
    intro x hx
    simpa using (List.mem_filter.mp hx).2
  rw [hself] at hpart
  exact (hpart.eq_of_length_le hlength).symm

/-- Nothing is below an annotation that is not there. -/
theorem eq_of_contains_absent (hd : d.table.Linked d.root)
    (hscope : Keyed.has d.table scope = false) {id : AnnotationId}
    (hin : d.contains scope id = true) : id = scope := by
  rcases Relation.ReflTransGen.cases_tail ((contains_iff hd).mp hin) with rfl | ⟨x, -, hparent⟩
  · rfl
  · rw [hd.has_parent hparent] at hscope
    cases hscope

/-- The descendants of a scope are the annotations in it, without itself, in document order. -/
theorem descendants_scope (hd : d.table.Linked d.root) (scope : AnnotationId) :
    d.descendants scope scope = d.order.filter fun id => id ≠ scope && d.contains scope id := by
  have hself : d.contains scope scope = true := (contains_iff hd).mpr .refl
  rw [descendants, if_pos hself]
  cases hscope : Keyed.has d.table scope with
  | false =>
    -- A scope that was deleted has nothing below it.
    have hget : Keyed.get? d.table scope = none := Keyed.has_eq_false_iff.mp hscope
    have hnone : d.table.descendants scope = [] := by
      rw [Table.descendants]
      cases d.table.length <;> simp [Table.descendTo, hget]
    rw [hnone, eq_comm, List.filter_eq_nil_iff]
    intro id _ hid
    simp only [ne_eq, Bool.and_eq_true, decide_eq_true_eq] at hid
    exact hid.1 (eq_of_contains_absent hd hscope hid.2)
  | true =>
    -- Its descendants are a part of the document order, and they are those in scope.
    have hordered := hd.ordered_descendants hscope
    have hmem : ∀ id, d.contains scope id = true ↔ id ∈ scope :: d.table.descendants scope := by
      intro id
      rw [contains_iff hd, hordered.mem_iff hd]
      simp
    have hsub : (scope :: d.table.descendants scope).Sublist d.order := by
      obtain ⟨l, hl, hle⟩ := (ordered_toNode hd).part ((mem_order_iff hd).mpr hscope)
      rwa [hordered.unique hl]
    have horder : d.order.Nodup := nodup_preorder hd
    have hnodup := horder.sublist hsub
    calc d.table.descendants scope
        = (scope :: d.table.descendants scope).filter (· ≠ scope) := by
          rw [List.filter_cons_of_neg (by simp), eq_comm, List.filter_eq_self]
          intro id hid
          simpa using ne_of_mem_of_not_mem hid (List.nodup_cons.mp hnodup).1
      _ = (d.order.filter (· ∈ scope :: d.table.descendants scope)).filter (· ≠ scope) := by
          rw [filter_mem_of_sublist horder hsub]
      _ = d.order.filter fun id => id ≠ scope && d.contains scope id := by
          rw [List.filter_filter]
          refine List.filter_congr ?_
          intro id _
          rw [Bool.eq_iff_iff]
          simp only [Bool.and_eq_true, decide_eq_true_eq, hmem]

/-- Those of the descendants that are kept for an attribute. -/
theorem filter_descendants_scope (hd : d.table.Linked d.root) {name : String}
    {test : String → Bool} {kept : AnnotationId → Bool}
    (hkept : ∀ id, kept id = (d.attribute? scope id name).any test) :
    (d.descendants scope scope).filter kept = d.belowWith scope name test := by
  rw [descendants_scope hd, List.filter_filter, belowWith]
  refine List.filter_congr ?_
  intro id _
  rw [hkept, Bool.and_comm]

theorem belowWith_eq_filter {name : String} {test : String → Bool} {kept : AnnotationId → Bool}
    (hkept : ∀ id actual, d.attribute? scope id name = some actual → kept id = test actual) :
    d.belowWith scope name test = (d.belowWith scope name fun _ => true).filter kept := by
  rw [belowWith, belowWith, List.filter_filter]
  refine List.filter_congr ?_
  intro id _
  cases hattribute : d.attribute? scope id name with
  | none => simp
  | some actual => simp [hkept id actual hattribute, Bool.and_comm]

/-- Of those that have an attribute, each has the value or another one. -/
theorem belowWith_perm (d : Document) (scope : AnnotationId) (name value : String) :
    (d.belowWith scope name (· = value) ++ d.belowWith scope name (· ≠ value)).Perm
      (d.belowWith scope name fun _ => true) := by
  let equal (id : AnnotationId) : Bool := d.attribute? scope id name = some value
  have hequal : ∀ id actual, d.attribute? scope id name = some actual →
      equal id = (actual = value : Bool) := by
    intro id actual hactual
    simp [equal, hactual]
  have hdiffers : ∀ id actual, d.attribute? scope id name = some actual →
      (!equal id) = (actual ≠ value : Bool) := by
    intro id actual hactual
    simp [equal, hactual]
  rw [belowWith_eq_filter hequal, belowWith_eq_filter hdiffers]
  exact List.filter_append_perm equal _

end Document

namespace View

variable {v : View}

/-- All that is below the scope has a type. -/
theorem along_descendant_accepted (hd : v.document.table.Linked v.document.root) :
    (v.along .descendant v.scope).filter (v.accepts .any) =
      v.document.descendants v.scope v.scope := by
  rw [along, List.filter_eq_self]
  intro id hid
  rw [Document.descendants_scope hd, List.mem_filter] at hid
  obtain ⟨hmem, hin⟩ := hid
  have hshows : v.document.Shows v.scope id :=
    ⟨(Document.mem_order_iff hd).mp hmem, (Bool.and_eq_true _ _ ▸ hin).2⟩
  obtain ⟨e, he⟩ := Document.shows_iff.mp hshows
  rw [accepts, Document.kind?, he]
  rfl

theorem keep_has (hd : v.document.table.Linked v.document.root) (name : String) :
    v.keep (v.document.descendants v.scope v.scope) (.has name) =
      v.document.belowWith v.scope name fun _ => true :=
  Document.filter_descendants_scope hd fun _ => Option.any_true.symm

theorem keep_compare (hd : v.document.table.Linked v.document.root) (name value : String)
    (negated : Bool) :
    v.keep (v.document.descendants v.scope v.scope) (.compare name value negated) =
      v.document.belowWith v.scope name fun actual => (actual = value : Bool) != negated := by
  refine Document.filter_descendants_scope hd ?_
  intro id
  cases v.document.attribute? v.scope id name with
  | none => rfl
  | some actual =>
    show ((actual == value) != negated) = ((actual = value : Bool) != negated)
    rw [beq_eq_decide]

/-- The path to all below selects what the predicate keeps of it. -/
theorem path_below (hd : v.document.table.Linked v.document.root) {text : String}
    {inside : List Char} (htext : text.toList = Path.belowText inside) {predicate : Predicate}
    (hinside : Closed inside) (hparse : Predicate.parse inside = .ok predicate) :
    v.path text = .ok (v.keep (v.document.descendants v.scope v.scope) predicate) := by
  have hread : Expr.parse text = .ok (.path (.below predicate)) := by
    rw [← String.ofList_toList (s := text), htext]
    exact Expr.parse_below hinside hparse
  rw [path_eq_ok_iff_select hread, ← along_descendant_accepted hd]
  show Except.ok (Operand.nodes ([v.scope].flatMap _)) = _
  rw [List.flatMap_singleton]
  rfl

/-- What is selected by an attribute, by its difference from a value and by its equality with one.
The value may hold anything but the quote; the brackets are closed behind it, and difference is
what is asked for. So is equality, as long as the value has no `!=` in it. If it has, the text up to
the first `!=` is taken for the name of an attribute, and those are selected where this attribute
differs from the rest, the last quote included. -/
theorem attribute_selected (hd : v.document.Reachable) {name value : String}
    (hname : ∀ c ∈ name.toList, Text.isAlphabetic c = true) (hvalue : '\'' ∉ value.toList) :
    v.path ("//*[@" ++ name ++ "]") = .ok (v.document.belowWith v.scope name fun _ => true) ∧
      v.path ("//*[@" ++ name ++ "!='" ++ value ++ "']") =
        .ok (v.document.belowWith v.scope name (· ≠ value)) ∧
      (¬ "!=".toList <:+: value.toList →
        v.path ("//*[@" ++ name ++ "='" ++ value ++ "']") =
          .ok (v.document.belowWith v.scope name (· = value))) ∧
      (∀ before after, value = before ++ "!=" ++ after → ¬ "!=".toList <:+: before.toList →
        v.path ("//*[@" ++ name ++ "='" ++ value ++ "']") =
          .ok (v.document.belowWith v.scope
            (String.ofList (Text.trimChars (name ++ "='" ++ before).toList))
            (· ≠ String.ofList (Text.trimStart after.toList) ++ "'"))) ∧
      (v.document.belowWith v.scope name (· = value) ++
        v.document.belowWith v.scope name (· ≠ value)).Perm
          (v.document.belowWith v.scope name fun _ => true) := by
  have hlinked := hd.linked
  have hstart : ∀ c ∈ name.toList, isNameStart c = true := by
    intro c hc
    simp [isNameStart, hname c hc]
  -- The brackets are closed where they should be, also if the value has `!=` in it.
  have hclosed := closed_quoted (Predicate.sealed_test hstart ['='] (by simp [isSealed])) hvalue
  simp only [List.cons_append, List.append_assoc, List.nil_append] at hclosed
  refine ⟨?_, ?_, ?_, ?_, Document.belowWith_perm _ _ _ _⟩
  · have hclosed : Closed ('@' :: name.toList) := by
      have hsealed := Predicate.sealed_test hstart [] (by simp)
      rw [List.append_nil] at hsealed
      exact closed_of_sealed hsealed
    rw [path_below hlinked (by simp [Path.belowText]) hclosed (Predicate.parse_has hstart),
      keep_has hlinked, String.ofList_toList]
  · have hclosed :=
      closed_quoted (Predicate.sealed_test hstart ['!', '='] (by simp [isSealed])) hvalue
    simp only [List.cons_append, List.append_assoc, List.nil_append] at hclosed
    rw [path_below hlinked (by simp [Path.belowText]) hclosed (Predicate.parse_differs hstart),
      keep_compare hlinked, String.ofList_toList]
    simp
  · intro hwhole
    rw [path_below hlinked (by simp [Path.belowText]) hclosed
      (Predicate.parse_compare hstart hwhole), keep_compare hlinked, String.ofList_toList]
    simp
  · rintro before after rfl hbefore
    have hafter : '\'' ∉ after.toList := by
      intro hmem
      exact hvalue (by simp [hmem])
    have hparse := Predicate.parse_misread hstart hbefore hafter
    have hvaluetext : (before ++ "!=" ++ after).toList =
        before.toList ++ '!' :: '=' :: after.toList := by simp
    rw [hvaluetext] at hclosed
    rw [path_below hlinked (by simp [Path.belowText]) hclosed hparse, keep_compare hlinked]
    simp

open Document in
/-- Three notes, one with `!=` in its attribute, one with other signs there and one without it. -/
def noteNode : Node :=
  { id := smallId 1, kind := "doc"
    children :=
      [{ id := smallId 2, kind := "p", attributes := [("n", "a!=b")] },
        { id := smallId 3, kind := "p", attributes := [("n", "[/]=! \"")] },
        { id := smallId 4, kind := "p" }] }

open Document in
/-- The document of `noteNode`, as a whole. -/
def notes : View where
  document :=
    { root := smallId 1, ids := smallIds
      table :=
        [(smallId 1, { kind := "doc", parent := none, children := [2, 3, 4].map smallId }),
          (smallId 2,
            { kind := "p", attributes := [("n", "a!=b")], parent := some (smallId 1)
              children := [] }),
          (smallId 3,
            { kind := "p", attributes := [("n", "[/]=! \"")], parent := some (smallId 1)
              children := [] }),
          (smallId 4, { kind := "p", parent := some (smallId 1), children := [] })] }
  scope := smallId 1
  bindings := {}

open Document in
theorem attribute_selected_notes :
    notes.document.Reachable ∧ '\'' ∉ "[/]=! \"".toList ∧
      notes.path "//*[@n]" = .ok [smallId 2, smallId 3] ∧
      notes.path "//*[@n!='[/]=! \"']" = .ok [smallId 2] ∧
      notes.path "//*[@n='[/]=! \"']" = .ok [smallId 3] := by
  have hreachable : notes.document.Reachable :=
    ⟨noteNode, smallIds, notes.document, [], rfl, trivial, rfl⟩
  have hname : ∀ c ∈ "n".toList, Text.isAlphabetic c = true := by
    intro c hc
    obtain rfl : c = 'n' := by simpa using hc
    decide
  have hvalue : '\'' ∉ "[/]=! \"".toList := by decide
  obtain ⟨hhas, hdiffers, hequals, -, -⟩ := attribute_selected hreachable hname hvalue
  refine ⟨hreachable, hvalue, ?_, ?_, ?_⟩
  · exact hhas.trans (congrArg Except.ok (by decide))
  · exact hdiffers.trans (congrArg Except.ok (by decide))
  · exact (hequals (by decide)).trans (congrArg Except.ok (by decide))

open Document in
/-- A note is not found by its own attribute. -/
theorem attribute_misread :
    (notes.path "//*[@n='a!=b']").toOption = some [] ∧
      notes.document.belowWith notes.scope "n" (· = "a!=b") = [smallId 2] := by
  decide +kernel

end View

end MarkupScript
