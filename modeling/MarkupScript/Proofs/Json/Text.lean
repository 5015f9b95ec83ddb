import MarkupScript.Json.Reader
import MarkupScript.Json.Writer

/-!
# JSON text reads back

A value is written over several lines and can be read from that text, whatever characters its
strings have.

* `Json.Textual`: the value has no numbers and nothing that is no text.
* `stringUnits?_flatMap`: between quotes every text is read as it was.
* `parse?_pretty`: a textual value is read back from what is written.
-/

namespace MarkupScript.Json

/-! ## Strings -/

theorem stringUnits?_close (rest : List Char) : stringUnits? ('"' :: rest) = some ([], rest) := by
  rw [stringUnits?]

/-- A unit in front of what is read of a string. -/
def consUnit (n : Nat) (read : Option (List Nat × List Char)) : Option (List Nat × List Char) :=
  read.map fun p => (n :: p.1, p.2)

theorem stringUnits?_escape {c char : Char} (h : escape? c = some char) (rest : List Char) :
    stringUnits? ('\\' :: c :: rest) = consUnit char.toNat (stringUnits? rest) := by
  have hu : c ≠ 'u' := by
    rintro rfl
    cases h
  rw [stringUnits?]
  · rw [h]
    cases stringUnits? rest <;> rfl
  · intro a b d e rest' hc
    exact absurd hc hu

theorem stringUnits?_unicode {a b c d : Char} {unit : Nat} (h : hexUnit? a b c d = some unit)
    (rest : List Char) :
    stringUnits? ('\\' :: 'u' :: a :: b :: c :: d :: rest) = consUnit unit (stringUnits? rest) := by
  rw [stringUnits?, h]
  cases stringUnits? rest <;> rfl

theorem stringUnits?_plain {c : Char} (hquote : c ≠ '"') (hslash : c ≠ '\\')
    (hcontrol : 0x20 ≤ c.toNat) (rest : List Char) :
    stringUnits? (c :: rest) = consUnit c.toNat (stringUnits? rest) := by
  rw [stringUnits?]
  · have hnot : ¬ (c.toNat < 0x20 || c = '\\') = true := by
      simp [hslash, hcontrol]
    rw [if_neg hnot]
    cases stringUnits? rest <;> rfl
  · exact fun h => absurd h hquote
  · exact fun _ _ _ _ _ h => absurd h hslash
  · exact fun _ _ h => absurd h hslash

/-- Control characters are written as units of four digits. -/
theorem hexUnit?_control {n : Nat} (h : n < 0x20) :
    hexUnit? '0' '0' (Nat.digitChar (n / 16)) (Nat.digitChar (n % 16)) = some n := by
  have hall : ∀ m : Fin 32,
      hexUnit? '0' '0' (Nat.digitChar (m.val / 16)) (Nat.digitChar (m.val % 16)) = some m.val := by
    decide
  exact hall ⟨n, h⟩

/-- A written character is read as itself. -/
theorem stringUnits?_escapeChar (c : Char) (rest : List Char) :
    stringUnits? (escapeChar c ++ rest) = consUnit c.toNat (stringUnits? rest) := by
  unfold escapeChar
  split
  · exact stringUnits?_escape rfl rest
  · exact stringUnits?_escape rfl rest
  · exact stringUnits?_escape rfl rest
  · exact stringUnits?_escape rfl rest
  · exact stringUnits?_escape rfl rest
  · exact stringUnits?_escape rfl rest
  · exact stringUnits?_escape rfl rest
  · next hquote hslash _ _ _ _ _ =>
    by_cases hcontrol : c.toNat < 0x20
    · rw [if_pos hcontrol]
      exact stringUnits?_unicode (hexUnit?_control hcontrol) rest
    · rw [if_neg hcontrol]
      exact stringUnits?_plain hquote hslash (Nat.le_of_not_lt hcontrol) rest

theorem stringUnits?_flatMap (cs rest : List Char) :
    stringUnits? (cs.flatMap escapeChar ++ '"' :: rest) = some (cs.map Char.toNat, rest) := by
  induction cs with
  | nil => exact stringUnits?_close rest
  | cons c cs ih =>
    rw [List.flatMap_cons, List.append_assoc, stringUnits?_escapeChar, ih]
    rfl

/-- The code points of a text are no halves of surrogate pairs. -/
theorem joinHalves?_map (cs : List Char) : joinHalves? (cs.map Char.toNat) = some cs := by
  induction cs with
  | nil => rw [List.map_nil, joinHalves?]
  | cons c cs ih =>
    have hvalid : c.toNat < 0xD800 ∨ 0xDFFF < c.toNat ∧ c.toNat < 0x110000 := c.valid
    have hlow : isLowHalf c.toNat = false := by
      simp [isLowHalf]
      omega
    have hhigh : isHighHalf c.toNat = false := by
      simp [isHighHalf]
      omega
    rw [List.map_cons]
    unfold joinHalves?
    rw [hlow, hhigh, ih]
    simp [Char.ofNat_toNat]

/-! ## Layout -/

theorem toList_newline (level : Nat) :
    (newline level).toList = '\n' :: List.replicate (2 * level) ' ' := by
  rw [newline, String.toList_ofList]

theorem toList_quote (s : String) :
    (quote s).toList = '"' :: (s.toList.flatMap escapeChar ++ ['"']) := by
  rw [quote, String.toList_ofList]
  rfl

theorem skipBlanks_cons {c : Char} (h : isBlank c = false) (rest : List Char) :
    skipBlanks (c :: rest) = c :: rest := by
  rw [skipBlanks, List.dropWhile_cons, h, if_neg Bool.false_ne_true]

theorem skipBlanks_newline (level : Nat) (rest : List Char) :
    skipBlanks ((newline level).toList ++ rest) = skipBlanks rest := by
  have hblanks : ∀ c ∈ (newline level).toList, isBlank c = true := by
    rw [toList_newline]
    intro c hc
    rcases List.mem_cons.mp hc with rfl | hc
    · decide
    · rw [(List.mem_replicate.mp hc).2]
      decide
  exact List.dropWhile_append_of_pos hblanks

/-! ## Values -/

mutual

/-- The value has no numbers, and nothing that is no text. -/
def Textual : Json → Prop
  | null | bool _ | string _ => True
  | number _ | unreadable => False
  | array items => TextualAll items
  | object fields => TextualFields fields

def TextualAll : List Json → Prop
  | [] => True
  | item :: items => Textual item ∧ TextualAll items

def TextualFields : List (String × Json) → Prop
  | [] => True
  | (_, value) :: fields => Textual value ∧ TextualFields fields

end

mutual

/-- A bound for the depth of the recursion that reads the value. -/
def weight : Json → Nat
  | null | bool _ | string _ | number _ | unreadable => 1
  | array items => 1 + weightAll items
  | object fields => 1 + weightFields fields

def weightAll : List Json → Nat
  | [] => 0
  | item :: items => 1 + weight item + weightAll items

def weightFields : List (String × Json) → Nat
  | [] => 0
  | (_, value) :: fields => 1 + weight value + weightFields fields

end

/-- What is written starts with no blank and with no closing bracket. -/
theorem prettyAt_head {j : Json} (h : j.Textual) (level : Nat) :
    ∃ c cs, (prettyAt level j).toList = c :: cs ∧ isBlank c = false ∧ c ≠ ']' ∧ c ≠ '}' := by
  cases j with
  | null => exact ⟨'n', ['u', 'l', 'l'], by simp [prettyAt], by decide⟩
  | bool b =>
    cases b with
    | false => exact ⟨'f', ['a', 'l', 's', 'e'], by simp [prettyAt], by decide⟩
    | true => exact ⟨'t', ['r', 'u', 'e'], by simp [prettyAt], by decide⟩
  | number literal => exact absurd h (by simp [Textual])
  | string s => exact ⟨'"', _, by rw [prettyAt, toList_quote], by decide⟩
  | array items =>
    cases items with
    | nil => exact ⟨'[', [']'], by simp [prettyAt], by decide⟩
    | cons item items => exact ⟨'[', _, by simp [prettyAt]; rfl, by decide⟩
  | object fields =>
    cases fields with
    | nil => exact ⟨'{', ['}'], by simp [prettyAt], by decide⟩
    | cons field fields => exact ⟨'{', _, by simp [prettyAt]; rfl, by decide⟩
  | unreadable => exact absurd h (by simp [Textual])

theorem skipBlanks_prettyAt {j : Json} (h : j.Textual) (level : Nat) (rest : List Char) :
    skipBlanks ((prettyAt level j).toList ++ rest) = (prettyAt level j).toList ++ rest := by
  rcases prettyAt_head h level with ⟨c, cs, hcs, hblank, -⟩
  rw [hcs, List.cons_append, skipBlanks_cons hblank]

theorem value?_string {fuel : Nat} {cs rest : List Char} {s : String}
    (hcs : skipBlanks cs = (quote s).toList ++ rest) :
    value? (fuel + 1) cs = some (string s, rest) := by
  rw [toList_quote, List.cons_append, List.append_assoc, List.singleton_append] at hcs
  rw [value?, hcs]
  simp only [stringUnits?_flatMap, joinHalves?_map, Option.bind_eq_bind, Option.bind_some,
    String.ofList_toList]

/-! ## Steps of reading -/

theorem value?_array {fuel : Nat} {cs tail : List Char} (hcs : skipBlanks cs = '[' :: tail)
    (hopen : ∀ after, skipBlanks tail ≠ ']' :: after) :
    value? (fuel + 1) cs = (items? fuel tail).map fun p => (array p.1, p.2) := by
  rw [value?]
  simp only [hcs]

theorem value?_object {fuel : Nat} {cs tail : List Char} (hcs : skipBlanks cs = '{' :: tail)
    (hopen : ∀ after, skipBlanks tail ≠ '}' :: after) :
    value? (fuel + 1) cs = (fields? fuel tail).map fun p => (ofFields p.1, p.2) := by
  rw [value?]
  simp only [hcs]

theorem items?_last {fuel : Nat} {cs after rest : List Char} {item : Json}
    (hitem : value? fuel cs = some (item, after)) (hafter : skipBlanks after = ']' :: rest) :
    items? (fuel + 1) cs = some ([item], rest) := by
  rw [items?, hitem]
  simp [hafter]

theorem items?_more {fuel : Nat} {cs after more : List Char} {item : Json}
    (hitem : value? fuel cs = some (item, after)) (hafter : skipBlanks after = ',' :: more) :
    items? (fuel + 1) cs = (items? fuel more).map fun p => (item :: p.1, p.2) := by
  rw [items?, hitem]
  simp [hafter]
  cases items? fuel more <;> rfl

section Fields

variable {fuel : Nat} {cs tail after : List Char} {key : String} {value : Json}
  (hcs : skipBlanks cs = (quote key).toList ++ ':' :: tail)
  (hvalue : value? fuel tail = some (value, after))

include hcs hvalue

theorem fields?_last {rest : List Char} (hafter : skipBlanks after = '}' :: rest) :
    fields? (fuel + 1) cs = some ([(some key, value)], rest) := by
  have hcolon : skipBlanks (':' :: tail) = ':' :: tail := skipBlanks_cons (by decide) tail
  rw [toList_quote, List.cons_append, List.append_assoc, List.singleton_append] at hcs
  rw [fields?, hcs]
  simp [stringUnits?_flatMap, joinHalves?_map, hcolon, hvalue, hafter]

theorem fields?_more {more : List Char} (hafter : skipBlanks after = ',' :: more) :
    fields? (fuel + 1) cs = (fields? fuel more).map fun p => ((some key, value) :: p.1, p.2) := by
  have hcolon : skipBlanks (':' :: tail) = ':' :: tail := skipBlanks_cons (by decide) tail
  rw [toList_quote, List.cons_append, List.append_assoc, List.singleton_append] at hcs
  rw [fields?, hcs]
  simp [stringUnits?_flatMap, joinHalves?_map, hcolon, hvalue, hafter]
  cases fields? fuel more <;> rfl

end Fields

/-- Fields whose keys are texts are an object. -/
theorem ofFields_map (fields : List (String × Json)) :
    ofFields (fields.map fun field => (some field.1, field.2)) = object fields := by
  have hkeys : (fields.map fun field => (some field.1, field.2)).mapM
      (fun field => field.1.map fun key => (key, field.2)) = some fields := by
    induction fields with
    | nil => rfl
    | cons field fields ih =>
      rw [List.map_cons, List.mapM_cons, ih]
      rfl
  rw [ofFields, hkeys]

/-! ## Reading what is written -/

/-- What follows a value of an array: the other values and the end. -/
def itemsTail (level outer : Nat) (items : List Json) (rest : List Char) : List Char :=
  (prettyItems level items).toList ++ ((newline outer).toList ++ ']' :: rest)

/-- The values of an array, each on a line. -/
def itemsText (level outer : Nat) (item : Json) (items : List Json) (rest : List Char) :
    List Char :=
  (newline level).toList ++ ((prettyAt level item).toList ++ itemsTail level outer items rest)

/-- What follows a field of an object: the other fields and the end. -/
def fieldsTail (level outer : Nat) (fields : List (String × Json)) (rest : List Char) :
    List Char :=
  (prettyFields level fields).toList ++ ((newline outer).toList ++ '}' :: rest)

/-- The fields of an object, each on a line. -/
def fieldsText (level outer : Nat) (key : String) (value : Json)
    (fields : List (String × Json)) (rest : List Char) : List Char :=
  (newline level).toList ++ ((quote key).toList ++ ':' :: ' ' ::
    ((prettyAt level value).toList ++ fieldsTail level outer fields rest))

theorem toList_prettyAt_array (level : Nat) (item : Json) (items : List Json)
    (rest : List Char) :
    (prettyAt level (array (item :: items))).toList ++ rest =
      '[' :: itemsText (level + 1) level item items rest := by
  simp [prettyAt, itemsText, itemsTail]

theorem toList_prettyAt_object (level : Nat) (key : String) (value : Json)
    (fields : List (String × Json)) (rest : List Char) :
    (prettyAt level (object ((key, value) :: fields))).toList ++ rest =
      '{' :: fieldsText (level + 1) level key value fields rest := by
  simp [prettyAt, fieldsText, fieldsTail]

theorem skipBlanks_itemsTail_nil (level outer : Nat) (rest : List Char) :
    skipBlanks (itemsTail level outer [] rest) = ']' :: rest := by
  rw [itemsTail, prettyItems]
  exact skipBlanks_newline outer _

theorem skipBlanks_itemsTail_cons (level outer : Nat) (item : Json) (items : List Json)
    (rest : List Char) :
    skipBlanks (itemsTail level outer (item :: items) rest) =
      ',' :: itemsText level outer item items rest := by
  have htail : itemsTail level outer (item :: items) rest =
      ',' :: itemsText level outer item items rest := by
    simp [itemsTail, itemsText, prettyItems]
  rw [htail]
  exact skipBlanks_cons (by decide) _

theorem skipBlanks_fieldsTail_nil (level outer : Nat) (rest : List Char) :
    skipBlanks (fieldsTail level outer [] rest) = '}' :: rest := by
  rw [fieldsTail, prettyFields]
  exact skipBlanks_newline outer _

theorem skipBlanks_fieldsTail_cons (level outer : Nat) (key : String) (value : Json)
    (fields : List (String × Json)) (rest : List Char) :
    skipBlanks (fieldsTail level outer ((key, value) :: fields) rest) =
      ',' :: fieldsText level outer key value fields rest := by
  have htail : fieldsTail level outer ((key, value) :: fields) rest =
      ',' :: fieldsText level outer key value fields rest := by
    simp [fieldsTail, fieldsText, prettyFields]
  rw [htail]
  exact skipBlanks_cons (by decide) _

theorem skipBlanks_itemsText {item : Json} (h : item.Textual) (level outer : Nat)
    (items : List Json) (rest : List Char) :
    skipBlanks (itemsText level outer item items rest) =
      (prettyAt level item).toList ++ itemsTail level outer items rest := by
  rw [itemsText, skipBlanks_newline, skipBlanks_prettyAt h]

theorem skipBlanks_fieldsText (level outer : Nat) (key : String) (value : Json)
    (fields : List (String × Json)) (rest : List Char) :
    skipBlanks (fieldsText level outer key value fields rest) =
      (quote key).toList ++ ':' :: ' ' ::
        ((prettyAt level value).toList ++ fieldsTail level outer fields rest) := by
  rw [fieldsText, skipBlanks_newline, toList_quote, List.cons_append]
  exact skipBlanks_cons (by decide) _

-- The recursion is on the bound of the reader: a value hands its bound less one to its values or
-- fields, and those to each of them and to the rest.
mutual

/-- A value is read from its text, with anything after it. -/
theorem value?_prettyAt : ∀ (fuel : Nat) {j : Json} {level : Nat} {cs rest : List Char},
    j.Textual → j.weight ≤ fuel → skipBlanks cs = (prettyAt level j).toList ++ rest →
    value? fuel cs = some (j, rest)
  | 0, j, _, _, _, _, hfuel, _ => by
    cases j <;> simp [weight] at hfuel
  | fuel + 1, .null, level, cs, rest, _, _, hcs => by
    rw [prettyAt] at hcs
    rw [value?, hcs]
    rfl
  | fuel + 1, .bool b, level, cs, rest, _, _, hcs => by
    rw [prettyAt] at hcs
    rw [value?, hcs]
    cases b <;> rfl
  | fuel + 1, .string s, level, cs, rest, _, _, hcs => by
    rw [prettyAt] at hcs
    exact value?_string hcs
  | _ + 1, .number _, _, _, _, h, _, _ => by simp [Textual] at h
  | _ + 1, .unreadable, _, _, _, h, _, _ => by simp [Textual] at h
  | fuel + 1, .array [], level, cs, rest, _, _, hcs => by
    rw [prettyAt] at hcs
    rw [value?, hcs]
    rfl
  | fuel + 1, .object [], level, cs, rest, _, _, hcs => by
    rw [prettyAt] at hcs
    rw [value?, hcs]
    rfl
  | fuel + 1, .array (item :: items), level, cs, rest, h, hfuel, hcs => by
    rw [Textual] at h
    rw [weight] at hfuel
    rw [toList_prettyAt_array] at hcs
    -- The reader must not take the array for one without values.
    have hopen : ∀ after,
        skipBlanks (itemsText (level + 1) level item items rest) ≠ ']' :: after := by
      intro after hafter
      rw [TextualAll] at h
      rcases prettyAt_head h.1 (level + 1) with ⟨c, text, htext, -, hc, -⟩
      rw [skipBlanks_itemsText h.1, htext] at hafter
      exact hc (List.cons.inj hafter).1
    rw [value?_array hcs hopen, items?_itemsText fuel h (by omega)]
    rfl
  | fuel + 1, .object ((key, value) :: fields), level, cs, rest, h, hfuel, hcs => by
    rw [Textual] at h
    rw [weight] at hfuel
    rw [toList_prettyAt_object] at hcs
    have hopen : ∀ after,
        skipBlanks (fieldsText (level + 1) level key value fields rest) ≠ '}' :: after := by
      intro after hafter
      rw [skipBlanks_fieldsText, toList_quote] at hafter
      exact absurd (List.cons.inj hafter).1 (by decide)
    rw [value?_object hcs hopen, fields?_fieldsText fuel h (by omega)]
    simp only [Option.map_some, ofFields_map]

/-- The values of an array are read up to its end. -/
theorem items?_itemsText : ∀ (fuel : Nat) {item : Json} {items : List Json} {level outer : Nat}
    {rest : List Char}, TextualAll (item :: items) → weightAll (item :: items) ≤ fuel →
    items? fuel (itemsText level outer item items rest) = some (item :: items, rest)
  | 0, item, items, _, _, _, _, hfuel => by simp [weightAll] at hfuel
  | fuel + 1, item, items, level, outer, rest, h, hfuel => by
    rw [TextualAll] at h
    rw [weightAll] at hfuel
    have hblank := skipBlanks_itemsText h.1 level outer items rest
    have hitem := value?_prettyAt fuel h.1 (by omega) hblank
    cases items with
    | nil => exact items?_last hitem (skipBlanks_itemsTail_nil level outer rest)
    | cons next others =>
      rw [items?_more hitem (skipBlanks_itemsTail_cons level outer next others rest),
        items?_itemsText fuel h.2 (by omega)]
      rfl

/-- The fields of an object are read up to its end. -/
theorem fields?_fieldsText : ∀ (fuel : Nat) {key : String} {value : Json}
    {fields : List (String × Json)} {level outer : Nat} {rest : List Char},
    TextualFields ((key, value) :: fields) → weightFields ((key, value) :: fields) ≤ fuel →
    fields? fuel (fieldsText level outer key value fields rest) =
      some (((key, value) :: fields).map fun field => (some field.1, field.2), rest)
  | 0, _, _, _, _, _, _, _, hfuel => by simp [weightFields] at hfuel
  | fuel + 1, key, value, fields, level, outer, rest, h, hfuel => by
    rw [TextualFields] at h
    rw [weightFields] at hfuel
    have hkey := skipBlanks_fieldsText level outer key value fields rest
    have hblank : skipBlanks (' ' :: ((prettyAt level value).toList ++
        fieldsTail level outer fields rest)) =
          (prettyAt level value).toList ++ fieldsTail level outer fields rest :=
      skipBlanks_prettyAt h.1 level (fieldsTail level outer fields rest)
    have hvalue := value?_prettyAt fuel h.1 (by omega) hblank
    cases fields with
    | nil => exact fields?_last hkey hvalue (skipBlanks_fieldsTail_nil level outer rest)
    | cons next others =>
      rcases next with ⟨nextKey, next⟩
      have hmore := skipBlanks_fieldsTail_cons level outer nextKey next others rest
      rw [fields?_more hkey hvalue hmore, fields?_fieldsText fuel h.2 (by omega)]
      rfl

end

mutual

/-- The text of a value is long enough to bound the recursion that reads it. -/
theorem weight_le_length : ∀ (j : Json) (level : Nat), j.Textual →
    j.weight ≤ (prettyAt level j).toList.length
  | .null, _, _ => by simp [weight, prettyAt]
  | .bool b, _, _ => by cases b <;> simp [weight, prettyAt]
  | .string s, _, _ => by simp [weight, prettyAt, toList_quote]
  | .number _, _, h => by simp [Textual] at h
  | .unreadable, _, h => by simp [Textual] at h
  | .array [], _, _ => by simp [weight, weightAll, prettyAt]
  | .object [], _, _ => by simp [weight, weightFields, prettyAt]
  | .array (item :: items), level, h => by
    rw [Textual, TextualAll] at h
    have hitem := weight_le_length item (level + 1) h.1
    have hitems := weightAll_le_length items (level + 1) h.2
    simp only [weight, weightAll, prettyAt, String.toList_append, List.length_append,
      toList_newline, List.length_cons]
    omega
  | .object ((_, value) :: fields), level, h => by
    rw [Textual, TextualFields] at h
    have hvalue := weight_le_length value (level + 1) h.1
    have hfields := weightFields_le_length fields (level + 1) h.2
    simp only [weight, weightFields, prettyAt, String.toList_append, List.length_append,
      toList_newline, List.length_cons]
    omega

theorem weightAll_le_length : ∀ (items : List Json) (level : Nat), TextualAll items →
    weightAll items ≤ (prettyItems level items).toList.length
  | [], _, _ => by simp [weightAll]
  | item :: items, level, h => by
    rw [TextualAll] at h
    have hitem := weight_le_length item level h.1
    have hitems := weightAll_le_length items level h.2
    simp only [weightAll, prettyItems, String.toList_append, List.length_append, toList_newline,
      List.length_cons]
    omega

theorem weightFields_le_length : ∀ (fields : List (String × Json)) (level : Nat),
    TextualFields fields → weightFields fields ≤ (prettyFields level fields).toList.length
  | [], _, _ => by simp [weightFields]
  | (_, value) :: fields, level, h => by
    rw [TextualFields] at h
    have hvalue := weight_le_length value level h.1
    have hfields := weightFields_le_length fields level h.2
    simp only [weightFields, prettyFields, String.toList_append, List.length_append,
      toList_newline, List.length_cons]
    omega

end

/-- A textual value is read back from what is written. -/
theorem parse?_pretty {j : Json} (h : j.Textual) : parse? j.pretty = some j := by
  have hfuel := weight_le_length j 0 h
  have hcs := skipBlanks_prettyAt h 0 []
  have hread : value? (2 * (prettyAt 0 j).toList.length + 2) ((prettyAt 0 j).toList ++ []) =
      some (j, []) :=
    value?_prettyAt _ h (by omega) hcs
  rw [List.append_nil] at hread
  rw [parse?, pretty, hread]
  rfl

end MarkupScript.Json
