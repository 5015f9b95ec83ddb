/-!
# Lists of keyed entries

Attributes, variables and the entries of a document are kept as lists of pairs in
the order in which their keys first came. Writing a key again keeps its place.

* `get?_put`, `get?_erase`: what writing and removing do to look-up.
* `keys_put`: a new key goes to the end, a present key moves nothing.
-/

namespace MarkupScript

/-- A list of entries with keys. -/
abbrev Keyed (κ : Type) (α : Type) := List (κ × α)

namespace Keyed

variable {κ α : Type} [DecidableEq κ]

/-- The entry of a key. -/
def get? : Keyed κ α → κ → Option α
  | [], _ => none
  | (k, v) :: rest, key => if k = key then some v else get? rest key

/-- Whether a key has an entry. -/
def has (entries : Keyed κ α) (key : κ) : Bool :=
  (get? entries key).isSome

/-- Writes the entry of a key: in its place if there is one, else at the end. -/
def put : Keyed κ α → κ → α → Keyed κ α
  | [], key, value => [(key, value)]
  | (k, v) :: rest, key, value =>
    if k = key then (key, value) :: rest else (k, v) :: put rest key value

/-- Removes the entry of a key. The others keep their order. -/
def erase (entries : Keyed κ α) (key : κ) : Keyed κ α :=
  entries.filter fun entry => entry.1 ≠ key

/-- The keys in order. -/
def keys (entries : Keyed κ α) : List κ :=
  entries.map Prod.fst

/-- Writes a list of entries one after another, so that of equal keys the last
value stands at the first place. -/
def ofList (entries : List (κ × α)) : Keyed κ α :=
  entries.foldl (fun acc entry => put acc entry.1 entry.2) []

@[simp] theorem get?_nil (key : κ) : get? ([] : Keyed κ α) key = none := rfl

theorem get?_cons (k : κ) (v : α) (rest : Keyed κ α) (key : κ) :
    get? ((k, v) :: rest) key = if k = key then some v else get? rest key := rfl

@[simp] theorem get?_put (entries : Keyed κ α) (key other : κ) (value : α) :
    get? (put entries key value) other =
      if key = other then some value else get? entries other := by
  induction entries with
  | nil => rfl
  | cons entry rest ih =>
    obtain ⟨k, v⟩ := entry
    by_cases hk : k = key
    · subst hk
      by_cases ho : k = other <;> simp [put, get?_cons, ho]
    · by_cases ho : k = other
      · subst ho
        simp [put, get?_cons, hk, Ne.symm hk]
      · simp [put, get?_cons, hk, ho, ih]

@[simp] theorem get?_erase (entries : Keyed κ α) (key other : κ) :
    get? (erase entries key) other = if key = other then none else get? entries other := by
  induction entries with
  | nil => simp [erase]
  | cons entry rest ih =>
    obtain ⟨k, v⟩ := entry
    have ih' : get? (rest.filter fun entry => entry.1 ≠ key) other =
        if key = other then none else get? rest other := ih
    by_cases hk : k = key
    · subst hk
      by_cases ho : k = other <;> simp_all [erase, get?_cons]
    · by_cases ho : k = other
      · subst ho
        simp [erase, get?_cons, hk, Ne.symm hk]
      · simp_all [erase, get?_cons]

/-- A new key goes to the end; a present key moves nothing. -/
theorem keys_put (entries : Keyed κ α) (key : κ) (value : α) :
    keys (put entries key value) =
      if key ∈ keys entries then keys entries else keys entries ++ [key] := by
  induction entries with
  | nil => simp [put, keys]
  | cons entry rest ih =>
    obtain ⟨k, v⟩ := entry
    by_cases hk : k = key
    · simp [put, keys, hk]
    · have hk' : ¬ key = k := fun h => hk h.symm
      have ih' : (put rest key value).map Prod.fst =
          if key ∈ rest.map Prod.fst then rest.map Prod.fst else rest.map Prod.fst ++ [key] := ih
      by_cases hm : key ∈ rest.map Prod.fst
      · simp only [if_pos hm] at ih'
        simp [put, keys, hk, ih', hk', hm]
      · simp only [if_neg hm] at ih'
        simp [put, keys, hk, ih', hk', hm]

end Keyed

end MarkupScript
