import MarkupScript.Proofs.Document.Ids
import MarkupScript.Proofs.Document.Lookup
import MarkupScript.Proofs.Json.Nesting

/-!
# Nodes as JSON

* `Node.Proper`: no annotation of a node has two attributes of one name.
* `ofJson?_toJson`: what is written of a node is read back, if there is room for its objects and
  arrays, and nothing is read otherwise.
* `parse?_print`: the same for the text of a node and the limit on its nesting.
* `proper_of_ofJson?`: nodes that are read are proper.
-/

namespace MarkupScript

namespace Keyed

variable {κ α : Type} [DecidableEq κ]

theorem put_of_not_mem {entries : Keyed κ α} {key : κ} (h : key ∉ keys entries) (value : α) :
    put entries key value = entries ++ [(key, value)] := by
  induction entries with
  | nil => rfl
  | cons entry rest ih =>
    rcases entry with ⟨k, v⟩
    have hne : ¬ k = key := fun heq => h (heq ▸ List.mem_cons_self)
    rw [put, if_neg hne, ih (fun hmem => h (List.mem_cons_of_mem _ hmem)), List.cons_append]

/-- Entries whose keys are distinct are kept as they are. -/
theorem ofList_of_nodup {entries : List (κ × α)} (h : (keys entries).Nodup) :
    ofList entries = entries := by
  have hfold : ∀ (rest done : List (κ × α)), (keys (done ++ rest)).Nodup →
      rest.foldl (fun acc entry => put acc entry.1 entry.2) done = done ++ rest := by
    intro rest
    induction rest with
    | nil => simp
    | cons entry rest ih =>
      intro done hdone
      have hnew : entry.1 ∉ keys done := by
        rw [keys, List.map_append] at hdone
        intro hmem
        exact (List.nodup_append.mp hdone).2.2 _ hmem _ List.mem_cons_self rfl
      have hmove : done ++ entry :: rest = (done ++ [entry]) ++ rest := by simp
      rw [List.foldl_cons, put_of_not_mem hnew, ih _ (hmove ▸ hdone), hmove]
  exact hfold entries [] h

theorem nodup_keys_ofList (entries : List (κ × α)) : (keys (ofList entries)).Nodup := by
  have hfold : ∀ (rest : List (κ × α)) (done : Keyed κ α), (keys done).Nodup →
      (keys (rest.foldl (fun acc entry => put acc entry.1 entry.2) done)).Nodup := by
    intro rest
    induction rest with
    | nil => exact fun done hdone => hdone
    | cons entry rest ih => exact fun done hdone => ih _ (nodup_keys_put hdone _ _)
  exact hfold entries [] .nil

end Keyed

namespace Node

mutual

/-- No annotation of the node has two attributes of one name. -/
def Proper : Node → Prop
  | ⟨_, _, attributes, _, children⟩ => (Keyed.keys attributes).Nodup ∧ ProperAll children

def ProperAll : List Node → Prop
  | [] => True
  | node :: rest => Proper node ∧ ProperAll rest

end

/-! ## Writing -/

/-- The fields of a node as a record, those that are left out as `none`. -/
theorem record?_toJson (id : AnnotationId) (kind : String) (attributes : Keyed String String)
    (value : Option String) (children : List Node) :
    Json.record? fieldNames (toJson ⟨id, kind, attributes, value, children⟩) =
      some [some (.string id.text), some (.string kind),
        if attributes.isEmpty then none
        else some (.object (attributes.map fun entry => (entry.1, .string entry.2))),
        value.map .string,
        if children.isEmpty then none else some (.array (toJsonAll children))] := by
  rw [toJson]
  cases attributes <;> cases value <;> cases children <;> rfl

theorem textualFields_map (attributes : Keyed String String) :
    Json.TextualFields (attributes.map fun entry => (entry.1, .string entry.2)) := by
  induction attributes with
  | nil => simp [Json.TextualFields]
  | cons entry rest ih =>
    rw [List.map_cons, Json.TextualFields, Json.Textual]
    exact ⟨trivial, ih⟩

theorem depthFields_map (attributes : Keyed String String) :
    Json.depthFields (attributes.map fun entry => (entry.1, .string entry.2)) = 0 := by
  induction attributes with
  | nil => rw [List.map_nil, Json.depthFields]
  | cons entry rest ih => rw [List.map_cons, Json.depthFields, Json.depth, ih, Nat.max_self]

mutual

theorem textual_toJson : ∀ node : Node, node.toJson.Textual
  | ⟨id, kind, attributes, value, children⟩ => by
    have hattributes := textualFields_map attributes
    have hchildren := textualAll_toJsonAll children
    rw [toJson, Json.Textual]
    cases attributes <;> cases value <;> cases children <;>
      simp_all [Json.Textual, Json.TextualFields]

theorem textualAll_toJsonAll : ∀ nodes : List Node, Json.TextualAll (toJsonAll nodes)
  | [] => by simp [toJsonAll, Json.TextualAll]
  | node :: rest => by
    rw [toJsonAll, Json.TextualAll]
    exact ⟨textual_toJson node, textualAll_toJsonAll rest⟩

end

/-- A node is an object. Attributes are one more in it, and children an array of nodes. -/
theorem depth_toJson (id : AnnotationId) (kind : String) (attributes : Keyed String String)
    (value : Option String) (children : List Node) :
    (toJson ⟨id, kind, attributes, value, children⟩).depth =
      max (if attributes.isEmpty then 0 else 1)
        (if children.isEmpty then 0 else Json.depthAll (toJsonAll children) + 1) + 1 := by
  have hattributes := depthFields_map attributes
  rw [toJson]
  cases attributes <;> cases value <;> cases children <;>
    simp_all [Json.depth, Json.depthFields]

/-! ## Reading -/

theorem readAttributes?_written {attributes : Keyed String String}
    (h : (Keyed.keys attributes).Nodup) :
    readAttributes? (if attributes.isEmpty then none
      else some (.object (attributes.map fun entry => (entry.1, .string entry.2)))) =
      some attributes := by
  have hmap : ∀ entries : Keyed String String,
      (entries.map fun entry => (entry.1, Json.string entry.2)).mapM
        (fun (field : String × Json) => field.2.string?.map fun text => (field.1, text)) =
      some entries := by
    intro entries
    induction entries with
    | nil => rfl
    | cons entry rest ih =>
      rw [List.map_cons, List.mapM_cons, ih]
      rfl
  cases attributes with
  | nil => rfl
  | cons entry rest =>
    rw [if_neg (by simp), readAttributes?, hmap, Option.map_some, Keyed.ofList_of_nodup h]

theorem readValue?_written (value : Option String) :
    readValue? (value.map .string) = some value := by
  cases value <;> rfl

section Record

variable {room : Nat} {json : Json} {id : AnnotationId} {kind : String}
  {attributes? value? children? : Option Json} {attributes : Keyed String String}
  {value : Option String}
  (hrecord : Json.record? fieldNames json =
    some [some (.string id.text), some (.string kind), attributes?, value?, children?])

include hrecord

/-- Nothing fits in an object that is the last there is room for. -/
theorem ofJson?_full (h : attributes?.isSome = true ∨ children?.isSome = true) (ids : IdSupply) :
    ofJson? 1 json ids = none := by
  rw [ofJson?, hrecord]
  simp only [bind, StateT.bind, readId, AnnotationId.parse?_text, Option.map_some]
  cases attributes? with
  | some object => rfl
  | none =>
    cases children? with
    | some array => rfl
    | none => simp at h

/-- A node without children. -/
theorem ofJson?_leaf (hchildren : children? = none) (hroom : room = 0 → attributes? = none)
    (hattributes : readAttributes? attributes? = some attributes)
    (hvalue : readValue? value? = some value) (ids : IdSupply) :
    ofJson? (room + 1) json ids = some (⟨id, kind, attributes, value, []⟩, ids) := by
  subst hchildren
  rw [ofJson?, hrecord]
  simp only [bind, StateT.bind, readId, AnnotationId.parse?_text, Option.map_some, hattributes,
    hvalue]
  cases room with
  | zero =>
    rw [hroom rfl]
    rfl
  | succ room => rfl

/-- A node with children. -/
theorem ofJson?_inner {items : List Json} (hchildren : children? = some (.array items))
    (hattributes : readAttributes? attributes? = some attributes)
    (hvalue : readValue? value? = some value) (ids : IdSupply) :
    ofJson? (room + 2) json ids =
      (items.mapM (ofJson? room) ids).map fun p => (⟨id, kind, attributes, value, p.1⟩, p.2) := by
  rw [ofJson?, hrecord]
  simp only [bind, StateT.bind, readId, AnnotationId.parse?_text, Option.map_some, hattributes,
    hvalue, hchildren]
  show (items.mapM (ofJson? room) ids).bind _ = _
  cases items.mapM (ofJson? room) ids <;> rfl

end Record

mutual

/-- What is written of a node is read back, if there is room for it. -/
theorem ofJson?_toJson : ∀ {node : Node} (_ : node.Proper) (room : Nat) (ids : IdSupply),
    ofJson? room node.toJson ids = if node.toJson.depth ≤ room then some (node, ids) else none
  | ⟨id, kind, attributes, value, children⟩, h, 0, ids => by
    rw [depth_toJson, if_neg (by omega)]
    rfl
  | ⟨id, kind, attributes, value, children⟩, h, room + 1, ids => by
    have hrecord := record?_toJson id kind attributes value children
    rw [Proper] at h
    have hattributes := readAttributes?_written h.1
    have hvalue := readValue?_written value
    rw [depth_toJson]
    cases children with
    | nil =>
      -- Attributes are an object of their own, so they are all that may not fit.
      by_cases hfull : room = 0 ∧ attributes.isEmpty = false
      · rcases hfull with ⟨rfl, hne⟩
        rw [ofJson?_full hrecord (by simp [hne]), if_neg (by simp [hne])]
      · have hroom : room = 0 → attributes.isEmpty = true := by
          intro hzero
          simpa [hzero] using hfull
        rw [ofJson?_leaf hrecord rfl (fun hzero => by rw [if_pos (hroom hzero)]) hattributes hvalue,
          if_pos]
        by_cases hempty : attributes.isEmpty = true
        · simp [hempty]
        · have hsome : room ≠ 0 := fun hzero => hempty (hroom hzero)
          simp [hempty]
          omega
    | cons child rest =>
      cases room with
      | zero =>
        rw [ofJson?_full hrecord (by simp), if_neg (by simp)]
      | succ room =>
        -- Where the array of children fits, the attributes do.
        have hdepth : max (if attributes.isEmpty then 0 else 1)
            (Json.depthAll (toJsonAll (child :: rest)) + 1) + 1 ≤ room + 1 + 1 ↔
              Json.depthAll (toJsonAll (child :: rest)) ≤ room := by
          split <;> omega
        rw [ofJson?_inner hrecord rfl hattributes hvalue, mapM_toJsonAll h.2]
        show Option.map _ _ =
          if max _ (Json.depthAll (toJsonAll (child :: rest)) + 1) + 1 ≤ _ then _ else _
        simp only [hdepth]
        split <;> rfl

theorem mapM_toJsonAll : ∀ {nodes : List Node} (_ : ProperAll nodes) (room : Nat) (ids : IdSupply),
    (toJsonAll nodes).mapM (ofJson? room) ids =
      if Json.depthAll (toJsonAll nodes) ≤ room then some (nodes, ids) else none
  | [], _, room, ids => by
    rw [toJsonAll, Json.depthAll, if_pos (Nat.zero_le room)]
    rfl
  | node :: rest, h, room, ids => by
    rw [ProperAll] at h
    rw [toJsonAll, Json.depthAll, List.mapM_cons]
    simp only [bind, StateT.bind, ofJson?_toJson h.1]
    by_cases hnode : node.toJson.depth ≤ room
    · rw [if_pos hnode]
      simp only [Option.bind_some, mapM_toJsonAll h.2]
      by_cases hrest : Json.depthAll (toJsonAll rest) ≤ room
      · rw [if_pos hrest, if_pos (Nat.max_le.mpr ⟨hnode, hrest⟩)]
        rfl
      · rw [if_neg hrest, if_neg (fun hmax => hrest (Nat.max_le.mp hmax).2)]
        rfl
    · rw [if_neg hnode, if_neg (fun hmax => hnode (Nat.max_le.mp hmax).1)]
      rfl

end

/-! ## Nodes that are read -/

/-- A step of a reader and what comes after it. -/
theorem bind_eq_some {α β : Type} {x : StateT IdSupply Option α}
    {f : α → StateT IdSupply Option β} {ids : IdSupply} {result : β × IdSupply}
    (h : (x >>= f) ids = some result) :
    ∃ a ids', x ids = some (a, ids') ∧ f a ids' = some result := by
  rcases Option.bind_eq_some_iff.mp h with ⟨⟨a, ids'⟩, hx, hf⟩
  exact ⟨a, ids', hx, hf⟩

theorem of_liftM {α : Type} {x : Option α} {a : α} {ids ids' : IdSupply}
    (h : (liftM x : StateT IdSupply Option α) ids = some (a, ids')) : x = some a := by
  cases x with
  | none => cases h
  | some b =>
    cases h
    rfl

theorem nodup_of_readAttributes? {json : Option Json} {attributes : Keyed String String}
    (h : readAttributes? json = some attributes) : (Keyed.keys attributes).Nodup := by
  unfold readAttributes? at h
  split at h
  · cases h
    exact .nil
  · rcases Option.map_eq_some_iff.mp h with ⟨entries, -, rfl⟩
    exact Keyed.nodup_keys_ofList entries
  · cases h

/-- What is read of a record: attributes, and children in the room that is left. -/
theorem ofJson?_eq_some {room : Nat} {json : Json} {ids ids' : IdSupply} {node : Node}
    (h : ofJson? (room + 1) json ids = some (node, ids')) :
    (Keyed.keys node.attributes).Nodup ∧ (node.children = [] ∨
      ∃ (items : List Json) (below : Nat) (start : IdSupply),
        items.mapM (ofJson? below) start = some (node.children, ids') ∧
        below < room) := by
  rw [ofJson?] at h
  rcases hrecord : Json.record? fieldNames json with
    _ | _ | ⟨id, _ | ⟨kind, _ | ⟨attributes?, _ | ⟨value?, _ | ⟨children?, _ | _⟩⟩⟩⟩⟩ <;>
    rw [hrecord] at h
  case some.cons.cons.cons.cons.cons.nil =>
    rcases bind_eq_some h with ⟨id, ids₁, -, h⟩
    rcases bind_eq_some h with ⟨kind, ids₂, -, h⟩
    dsimp only at h
    by_cases hfull : (room = 0 && (attributes?.isSome || children?.isSome)) = true
    · rw [if_pos hfull] at h
      cases h
    rw [if_neg hfull] at h
    rcases bind_eq_some h with ⟨attributes, ids₃, hlift, h⟩
    have hattributes := of_liftM hlift
    rcases bind_eq_some h with ⟨value, ids₄, -, h⟩
    rcases children? with _ | children
    · cases h
      exact ⟨nodup_of_readAttributes? hattributes, Or.inl rfl⟩
    rcases children with _ | _ | _ | _ | items | _ | _
    case array =>
      rcases room with _ | room
      · cases h
      rcases bind_eq_some h with ⟨children, ids₅, hitems, h⟩
      cases h
      exact ⟨nodup_of_readAttributes? hattributes,
        Or.inr ⟨items, room, ids₄, hitems, Nat.lt_succ_self room⟩⟩
    all_goals cases h
  all_goals cases h

theorem properAll_of_mapM {items : List Json} {f : Json → StateT IdSupply Option Node}
    (hf : ∀ {item ids node ids'}, f item ids = some (node, ids') → node.Proper)
    {ids ids' : IdSupply} {nodes : List Node} (h : items.mapM f ids = some (nodes, ids')) :
    ProperAll nodes := by
  induction items generalizing ids nodes with
  | nil =>
    have hnil : [] = nodes := (Prod.mk.inj (Option.some.inj h)).1
    rw [← hnil, ProperAll]
    trivial
  | cons item rest ih =>
    rw [List.mapM_cons] at h
    rcases bind_eq_some h with ⟨node, ids₁, hnode, h⟩
    rcases bind_eq_some h with ⟨others, ids₂, hothers, h⟩
    cases h
    rw [ProperAll]
    exact ⟨hf hnode, ih hothers⟩

/-- A node that is read is proper: of a repeated attribute only one is kept. -/
theorem proper_of_ofJson? {room : Nat} {json : Json} {ids ids' : IdSupply} {node : Node}
    (h : ofJson? room json ids = some (node, ids')) : node.Proper := by
  induction room using Nat.strongRecOn generalizing json ids ids' node with
  | ind room ih =>
    cases room with
    | zero => cases h
    | succ room =>
      rcases ofJson?_eq_some h with ⟨hattributes, hchildren⟩
      rcases node with ⟨id, kind, attributes, value, children⟩
      rw [Proper]
      refine ⟨hattributes, ?_⟩
      rcases hchildren with hnil | ⟨items, below, start, hitems, hbelow⟩
      · have hnil : children = [] := hnil
        rw [hnil, ProperAll]
        trivial
      · exact properAll_of_mapM (ih below (by omega)) hitems

/-! ## The text of a node -/

/-- The text of a node is read back within the limit on its nesting, and not beyond it. -/
theorem parse?_print {node : Node} (h : node.Proper) (ids : IdSupply) :
    parse? node.print ids =
      if Json.nesting node.print ≤ maxDepth then some (node, ids) else none := by
  rw [print, Json.nesting_pretty (textual_toJson node), ← ofJson?_toJson h, parse?,
    Json.parse?_pretty (textual_toJson node)]
  rfl

theorem proper_of_parse? {text : String} {ids ids' : IdSupply} {node : Node}
    (h : parse? text ids = some (node, ids')) : node.Proper := by
  rw [parse?] at h
  rcases bind_eq_some h with ⟨json, ids₁, -, h⟩
  exact proper_of_ofJson? h

end Node

end MarkupScript
