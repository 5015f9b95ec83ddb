import MarkupScript.Files.Shelf
import MarkupScript.Files.Tree
import MarkupScript.Proofs.Script.Units

/-!
# What writing a file does to a tree

A path means the same place before and after a file is written: new files only make more places
folders. So the text can be read back under the path under which it was written, and all other
files stay what they are.

* `FileTree.write_eq_ok`: what is left of a tree when a file has been written.
* `FileTree.read_insert`: the text is read back.
* `FileTree.Keeps`: something that looks at files and changes none, as `keeps_ofSettings` says of
  searching the folders of scripts.
-/

namespace MarkupScript

namespace FileTree

variable {t : FileTree} {place : List String} {text : String}

/-! ## One file -/

theorem write_eq_ok {t' : FileTree} {path : String} (h : t.write path text = .ok t') :
    ∃ place, t.target path = .ok place ∧ t' = t.insert place text := by
  rcases bind_eq_ok h with ⟨place, htarget, h⟩
  cases h
  exact ⟨place, htarget, rfl⟩

/-- Other files stay what they are. -/
theorem file?_insert_of_ne {other : List String} (h : other ≠ place) :
    (t.insert place text).file? other = t.file? other := by
  unfold insert
  split
  · rfl
  · unfold file?
    rw [Keyed.get?_put, if_neg (Ne.symm h)]

/-- A file has the text that was written, unless it stays empty whatever is written. -/
theorem file?_insert (h : place ∉ t.sinks) : (t.insert place text).file? place = some text := by
  have hsink : ¬ t.sinks.contains place = true := by simpa using h
  unfold insert
  rw [if_neg hsink, file?, if_neg hsink, Keyed.get?_put, if_pos rfl]

@[simp] theorem working_insert : (t.insert place text).working = t.working := by
  unfold insert
  split <;> rfl

@[simp] theorem folders_insert : (t.insert place text).folders = t.folders := by
  unfold insert
  split <;> rfl

@[simp] theorem sinks_insert : (t.insert place text).sinks = t.sinks := by
  unfold insert
  split <;> rfl

theorem places_subset_insert : t.places ⊆ (t.insert place text).places := by
  have hkeys : Keyed.keys t.files ⊆ Keyed.keys (t.insert place text).files := by
    unfold insert
    split
    · exact fun _ h => h
    · intro other hother
      rw [Keyed.keys_put]
      split
      · exact hother
      · exact List.mem_append_left _ hother
  intro other hother
  rw [places, List.mem_append, List.mem_append] at hother
  rw [places, List.mem_append, List.mem_append, sinks_insert, namedFolders, working_insert,
    folders_insert]
  rcases hother with (hfile | hsink) | hfolder
  · exact .inl (.inl (hkeys hfile))
  · exact .inl (.inr hsink)
  · exact .inr hfolder

/-! ## Paths -/

/-- A folder stays a folder. -/
theorem isFolder_insert {folder : List String} (h : t.isFolder folder = true) :
    (t.insert place text).isFolder folder = true := by
  unfold isFolder at h ⊢
  rw [Bool.or_eq_true, Bool.or_eq_true] at h ⊢
  rcases h with (hempty | hnamed) | habove
  · exact .inl (.inl hempty)
  · refine .inl (.inr ?_)
    rw [namedFolders, working_insert, folders_insert]
    exact hnamed
  · refine .inr ?_
    rcases List.any_eq_true.mp habove with ⟨other, hother, hprefix⟩
    exact List.any_eq_true.mpr ⟨other, places_subset_insert hother, hprefix⟩

theorem enter_insert {folder : List String} (h : t.enter folder = .ok ()) :
    (t.insert place text).enter folder = .ok () := by
  have hfolder : t.isFolder folder = true := by
    unfold enter at h
    split at h
    · assumption
    · split at h <;> cases h
  rw [enter, if_pos (isFolder_insert hfolder)]

theorem walk_cons_eq_ok {part : String} {rest start last : List String}
    (h : t.walk start (part :: rest) = .ok last) :
    ∃ next, t.enter start = .ok () ∧ step start part = .ok next ∧ t.walk next rest = .ok last := by
  rw [walk] at h
  rcases bind_eq_ok h with ⟨_, henter, h⟩
  rcases bind_eq_ok h with ⟨next, hstep, h⟩
  exact ⟨next, henter, hstep, h⟩

theorem walk_cons {part : String} {rest start next : List String} (henter : t.enter start = .ok ())
    (hstep : step start part = .ok next) : t.walk start (part :: rest) = t.walk next rest := by
  rw [walk, henter, hstep]
  rfl

/-- A path leads where it has led. -/
theorem walk_insert {parts start last : List String} (h : t.walk start parts = .ok last) :
    (t.insert place text).walk start parts = .ok last := by
  induction parts generalizing start with
  | nil =>
    rw [walk] at h
    cases h
    rw [walk]
  | cons part rest ih =>
    rcases walk_cons_eq_ok h with ⟨next, henter, hstep, hrest⟩
    rw [walk_cons (enter_insert henter) hstep]
    exact ih hrest

theorem walk_append {front back start mid : List String} (h : t.walk start front = .ok mid) :
    t.walk start (front ++ back) = t.walk mid back := by
  induction front generalizing start with
  | nil =>
    rw [walk] at h
    cases h
    rfl
  | cons part rest ih =>
    rcases walk_cons_eq_ok h with ⟨next, henter, hstep, hrest⟩
    rw [List.cons_append, walk_cons henter hstep]
    exact ih hrest

/-- Where a file can be written, the path leads to its place, which is no folder. -/
theorem target_eq_ok {path : String} (h : t.target path = .ok place) :
    ∃ parts, route path = .ok parts ∧ t.walk (t.start path) parts = .ok place ∧
      FilePath.endsInSlash path = false := by
  rcases bind_eq_ok h with ⟨parts, hroute, h⟩
  rcases bind_eq_ok h with ⟨folder, hfolder, h⟩
  rcases bind_eq_ok h with ⟨_, _, h⟩
  split at h
  · cases h
  · next hslash =>
    rcases bind_eq_ok h with ⟨last, hlast, h⟩
    split at h
    · cases h
    · cases h
      refine ⟨parts, hroute, ?_, by simpa using hslash⟩
      -- The folder of the path and then its last name are the whole path.
      have hparts : parts.dropLast ++ parts.drop (parts.length - 1) = parts := by
        rw [List.dropLast_eq_take, List.take_append_drop]
      rw [← hparts, walk_append hfolder]
      exact hlast

/-- What was written is read back. -/
theorem read_insert {path : String} (h : t.target path = .ok place) (hsink : place ∉ t.sinks) :
    (t.insert place text).read path = .ok text := by
  rcases target_eq_ok h with ⟨parts, hroute, hwalk, hslash⟩
  have hstart : (t.insert place text).start path = t.start path := by
    unfold start
    rw [working_insert]
  have hlocate : (t.insert place text).locate path = .ok place := by
    rw [locate, hroute, hstart]
    exact walk_insert hwalk
  have hfile : (t.insert place text).file? place = some text := file?_insert hsink
  unfold read
  rw [hlocate]
  simp only [bind, Except.bind, hfile, hslash]
  rfl

/-! ## Looking at files -/

/-- Something is done with a tree and changes nothing. -/
def Keeps {α : Type} (x : StateM FileTree α) : Prop := ∀ t, (x t).2 = t

/-- A sequence of two, where the first is known. -/
theorem run_bind {α β : Type} {x : StateM FileTree α} {f : α → StateM FileTree β}
    {t t' : FileTree} {a : α} (h : x t = (a, t')) : (x >>= f) t = f a t' := by
  show StateT.bind x f t = f a t'
  rw [StateT.bind, h]
  rfl

theorem keeps_pure {α : Type} (a : α) : Keeps (pure a) := fun _ => rfl

theorem keeps_bind {α β : Type} {x : StateM FileTree α} {f : α → StateM FileTree β}
    (hx : Keeps x) (hf : ∀ a, Keeps (f a)) : Keeps (x >>= f) := by
  intro t
  have hfirst : x t = ((x t).1, t) := Prod.ext rfl (hx t)
  rw [run_bind hfirst]
  exact hf _ t

theorem keeps_mapM {α β : Type} {f : α → StateM FileTree β} (h : ∀ a, Keeps (f a))
    (items : List α) : Keeps (items.mapM f) := by
  induction items with
  | nil => exact keeps_pure _
  | cons a rest ih =>
    rw [List.mapM_cons]
    refine keeps_bind (h a) fun b => ?_
    exact keeps_bind ih fun bs => keeps_pure _

theorem keeps_read (path : String) : Keeps (system.read path) := fun _ => rfl

theorem keeps_names (path : String) : Keeps (system.names path) := fun _ => rfl

theorem keeps_load (home : Option String) : Keeps (Settings.load system home) := by
  cases home with
  | none => exact keeps_pure _
  | some folder =>
    refine keeps_bind (keeps_read _) fun text => ?_
    cases text with
    | ok text => exact keeps_pure _
    | error e => exact keeps_pure _

theorem keeps_ofNames (extension folder : String) (names : List String) :
    Keeps (Shelf.ofNames system extension folder names) := by
  induction names with
  | nil => exact keeps_pure _
  | cons name rest ih =>
    refine keeps_bind (keeps_read _) fun text => ?_
    refine keeps_bind ih fun others => ?_
    cases text with
    | ok text => exact keeps_pure _
    | error e => exact keeps_pure _

/-- Searching the folders of scripts changes no file. -/
theorem keeps_ofSettings (s : Settings) : Keeps (Library.ofSettings system s) := by
  refine keeps_mapM (fun folder => ?_) s.scriptDirs
  exact keeps_bind (keeps_names folder) fun entries => keeps_ofNames s.extension folder _

end FileTree

end MarkupScript
