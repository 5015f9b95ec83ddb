import MarkupScript.CommandLine.Session
import MarkupScript.Proofs.Files.Tree
import MarkupScript.Proofs.Run.Confinement

/-!
# How a task that runs a script ends

The stages of such a task come one after another: the script is read and compiled, the document
is read, the script runs, its trace is printed, and the document is saved. Files are written in
the last stage only, so a task that fails has changed none.

* `RunTask.Ends`: the ways in which a task ends, with what is printed and the files then.
* `RunTask.ends_perform`: every task ends in one of them.
* `session_run`: what the caller of a command line sees of it.
-/

namespace MarkupScript.CommandLine

/-- The scripts that a task finds in a tree of files. -/
def libraryIn (t : FileTree) (env : Environment) (dirs : List String) : Library :=
  (libraryOf FileTree.system env dirs t).1

theorem libraryOf_system (t : FileTree) (env : Environment) (dirs : List String) :
    libraryOf FileTree.system env dirs t = (libraryIn t env dirs, t) := by
  have hkeeps : FileTree.Keeps (libraryOf FileTree.system env dirs) :=
    FileTree.keeps_bind (FileTree.keeps_load env.home) fun _ => FileTree.keeps_ofSettings _
  exact Prod.ext rfl (hkeeps t)

/-! ## Stages -/

section

variable {t : FileTree} {env : Environment} {ids : IdSupply}

theorem loadProgram_of_error {catalogue : Catalogue} {script : String} {dirs : List String}
    {e : FileError} (h : t.read script = .error e) :
    loadProgram FileTree.system env catalogue script dirs t = (.error (.file e), t) := by
  unfold loadProgram
  rw [FileTree.run_bind (libraryOf_system t env dirs)]
  have hread : FileTree.system.read script t = (.error e, t) := Prod.ext h rfl
  rw [FileTree.run_bind hread]
  rfl

theorem loadProgram_of_ok {catalogue : Catalogue} {script source : String} {dirs : List String}
    (h : t.read script = .ok source) :
    loadProgram FileTree.system env catalogue script dirs t =
      ((Program.compile catalogue (libraryIn t env dirs) source).mapError .compile, t) := by
  unfold loadProgram
  rw [FileTree.run_bind (libraryOf_system t env dirs)]
  have hread : FileTree.system.read script t = (.ok source, t) := Prod.ext h rfl
  rw [FileTree.run_bind hread]
  rfl

theorem loadDocument_of_error {path : String} {e : FileError} (h : t.read path = .error e) :
    loadDocument FileTree.system ids path t = (.error (.document (.file e.message)), t) := by
  unfold loadDocument
  have hread : FileTree.system.read path t = (.error e, t) := Prod.ext h rfl
  rw [FileTree.run_bind hread]
  rfl

theorem loadDocument_of_ok {path text : String} (h : t.read path = .ok text) :
    loadDocument FileTree.system ids path t =
      ((Document.parse text ids).mapError .document, t) := by
  unfold loadDocument
  have hread : FileTree.system.read path t = (.ok text, t) := Prod.ext h rfl
  rw [FileTree.run_bind hread]
  rfl

theorem write_of_error {path text : String} {e : FileError} (h : t.write path text = .error e) :
    FileTree.system.write path text t = (.error e, t) := by
  show FileTree.change (·.write path text) t = _
  simp only [FileTree.change, h]

theorem write_of_ok {path text : String} {t' : FileTree} (h : t.write path text = .ok t') :
    FileTree.system.write path text t = (.ok (), t') := by
  show FileTree.change (·.write path text) t = _
  simp only [FileTree.change, h]

end

/-! ## Ends of a task -/

namespace RunTask

section

variable (task : RunTask) (t : FileTree) (env : Environment) (ids : IdSupply)

/-- The script is there, and this comes of its text. -/
def CompilesTo (result : Except CompileError Program) : Prop :=
  ∃ source, t.read task.script = .ok source ∧
    Program.compile Program.plainCatalogue (libraryIn t env task.scriptDirs) source = result

/-- The document is there. -/
def Loads (d : Document) : Prop :=
  ∃ text, t.read task.document = .ok text ∧ Document.parse text ids = .ok d

/-- The script runs on the document, and leaves this. -/
def Runs (o : Outcome) : Prop :=
  ∃ p d, task.CompilesTo t env (.ok p) ∧ task.Loads t ids d ∧
    o = p.run Program.plainCatalogue d d.root task.bindings

/-- The files after the document has been saved, if that is asked for. -/
def save (d : Document) : Except FileError FileTree :=
  match task.output with
  | none => .ok t
  | some path => t.write path d.print

/-- The ways in which a task ends: what it reports, and the files then. -/
inductive Ends : Report → FileTree → Prop
  | unread {e : FileError} (hread : t.read task.script = .error e) :
      Ends { error := some (.file e) } t
  | uncompiled {e : CompileError} (hcompile : task.CompilesTo t env (.error e)) :
      Ends { error := some (.compile e) } t
  | unloaded {p : Program} {e : DocumentError} (hcompile : task.CompilesTo t env (.ok p))
      (hload : ∀ d, ¬ task.Loads t ids d) : Ends { error := some (.document e) } t
  | stopped {o : Outcome} {stop : Stop} (hrun : task.Runs t env ids o)
      (hstop : o.stop = some stop) :
      Ends { printed := linesText o.trace, error := some (.execution stop) } t
  | unsaved {o : Outcome} {e : FileError} (hrun : task.Runs t env ids o) (hstop : o.stop = none)
      (hsave : task.save t o.document = .error e) :
      Ends { printed := linesText o.trace, error := some (.document (.file e.message)) } t
  | done {o : Outcome} {t' : FileTree} (hrun : task.Runs t env ids o) (hstop : o.stop = none)
      (hsave : task.save t o.document = .ok t') :
      Ends { printed := linesText o.trace ++ task.finalText o.document } t'

end

variable {task : RunTask} {t t' : FileTree} {env : Environment} {ids : IdSupply} {r : Report}

theorem saveDocument_of_error {d : Document} {e : FileError} (h : task.save t d = .error e) :
    saveDocument FileTree.system d task.output t =
      (.error (.document (.file e.message)), t) := by
  unfold save at h
  unfold saveDocument
  cases houtput : task.output with
  | none =>
    rw [houtput] at h
    cases h
  | some path =>
    rw [houtput] at h
    show (FileTree.system.write path d.print >>= _) t = _
    rw [FileTree.run_bind (write_of_error h)]
    rfl

theorem saveDocument_of_ok {d : Document} (h : task.save t d = .ok t') :
    saveDocument FileTree.system d task.output t = (.ok (), t') := by
  unfold save at h
  unfold saveDocument
  cases houtput : task.output with
  | none =>
    rw [houtput] at h
    cases h
    rfl
  | some path =>
    rw [houtput] at h
    show (FileTree.system.write path d.print >>= _) t = _
    rw [FileTree.run_bind (write_of_ok h)]
    rfl

/-- Every task ends in one of these ways. -/
theorem ends_perform (task : RunTask) (t : FileTree) (env : Environment) (ids : IdSupply) :
    ∃ r t', task.perform FileTree.system env ids Program.plainCatalogue .text t = (r, t') ∧
      task.Ends t env ids r t' := by
  -- Along the stages: a stage that fails is an end, and reading has left the files as they were.
  unfold perform
  cases hread : t.read task.script with
  | error e =>
    rw [FileTree.run_bind (loadProgram_of_error hread)]
    exact ⟨_, _, rfl, .unread hread⟩
  | ok source =>
    rw [FileTree.run_bind (loadProgram_of_ok hread)]
    cases hcompile : Program.compile Program.plainCatalogue (libraryIn t env task.scriptDirs)
        source with
    | error e => exact ⟨_, _, rfl, .uncompiled ⟨source, hread, hcompile⟩⟩
    | ok p =>
      have hprogram : task.CompilesTo t env (.ok p) := ⟨source, hread, hcompile⟩
      simp only [Except.mapError]
      cases htext : t.read task.document with
      | error e =>
        rw [FileTree.run_bind (loadDocument_of_error htext)]
        refine ⟨_, _, rfl, .unloaded hprogram ?_⟩
        rintro d ⟨text, htext', -⟩
        rw [htext] at htext'
        cases htext'
      | ok text =>
        rw [FileTree.run_bind (loadDocument_of_ok htext)]
        cases hparse : Document.parse text ids with
        | error e =>
          refine ⟨_, _, rfl, .unloaded hprogram ?_⟩
          rintro d ⟨text', htext', hd⟩
          rw [htext] at htext'
          cases htext'
          rw [hparse] at hd
          cases hd
        | ok d =>
          have hrun : task.Runs t env ids (p.run Program.plainCatalogue d d.root task.bindings) :=
            ⟨p, d, hprogram, ⟨text, htext, hparse⟩, rfl⟩
          simp only [Except.mapError]
          -- What the run has done to the document is of no matter to how the task ends.
          generalize p.run Program.plainCatalogue d d.root task.bindings = o at hrun
          cases hstop : o.stop with
          | some stop => exact ⟨_, _, rfl, .stopped hrun hstop⟩
          | none =>
            cases hsave : task.save t o.document with
            | error e =>
              simp only [FileTree.run_bind (saveDocument_of_error hsave)]
              exact ⟨_, _, rfl, .unsaved hrun hstop hsave⟩
            | ok t' =>
              simp only [FileTree.run_bind (saveDocument_of_ok hsave)]
              exact ⟨_, _, rfl, .done hrun hstop hsave⟩

/-- A saved document is read back, unless its file keeps nothing, and other files are kept. -/
theorem files_of_save {d : Document} {path : String} (h : task.save t d = .ok t')
    (houtput : task.output = some path) :
    ∃ place, t.target path = .ok place ∧ t'.folders = t.folders ∧
      (∀ other, other ≠ place → t'.file? other = t.file? other) ∧
      (place ∉ t.sinks → t'.read path = .ok d.print) := by
  unfold save at h
  rw [houtput] at h
  rcases FileTree.write_eq_ok h with ⟨place, htarget, rfl⟩
  refine ⟨place, htarget, FileTree.folders_insert, ?_, FileTree.read_insert htarget⟩
  intro other hother
  exact FileTree.file?_insert_of_ne hother

/-! ## What shuts other ends out -/

theorem CompilesTo.read_ne_error {result : Except CompileError Program}
    (h : task.CompilesTo t env result) {e : FileError} : t.read task.script ≠ .error e := by
  rcases h with ⟨source, hread, -⟩
  rw [hread]
  exact nofun

theorem CompilesTo.unique {result result' : Except CompileError Program}
    (h : task.CompilesTo t env result) (h' : task.CompilesTo t env result') : result = result' := by
  rcases h with ⟨source, hread, hresult⟩
  rcases h' with ⟨source', hread', hresult'⟩
  rw [hread] at hread'
  cases hread'
  rw [← hresult, ← hresult']

theorem Loads.unique {d d' : Document} (h : task.Loads t ids d) (h' : task.Loads t ids d') :
    d = d' := by
  rcases h with ⟨text, hread, hok⟩
  rcases h' with ⟨text', hread', hok'⟩
  rw [hread] at hread'
  cases hread'
  rw [hok] at hok'
  exact Except.ok.inj hok'

theorem Runs.compilesTo {o : Outcome} (h : task.Runs t env ids o) :
    ∃ p, task.CompilesTo t env (.ok p) := by
  rcases h with ⟨p, d, hcompile, -, -⟩
  exact ⟨p, hcompile⟩

theorem Runs.loads {o : Outcome} (h : task.Runs t env ids o) : ∃ d, task.Loads t ids d := by
  rcases h with ⟨p, d, -, hload, -⟩
  exact ⟨d, hload⟩

theorem Runs.unique {o o' : Outcome} (h : task.Runs t env ids o) (h' : task.Runs t env ids o') :
    o = o' := by
  rcases h with ⟨p, d, hcompile, hload, rfl⟩
  rcases h' with ⟨p', d', hcompile', hload', rfl⟩
  rw [Except.ok.inj (hcompile.unique hcompile'), hload.unique hload']

/-! ## Exit codes -/

namespace Ends

theorem exit_eq_file_iff (h : task.Ends t env ids r t') :
    r.output.exit = 4 ↔ ∃ e, t.read task.script = .error e := by
  constructor
  · intro hexit
    cases h with
    | unread hread => exact ⟨_, hread⟩
    | _ => cases hexit
  · rintro ⟨e, hread⟩
    cases h with
    | unread => rfl
    | uncompiled hcompile | unloaded hcompile => exact absurd hread hcompile.read_ne_error
    | stopped hrun | unsaved hrun | done hrun =>
      rcases hrun.compilesTo with ⟨p, hcompile⟩
      exact absurd hread hcompile.read_ne_error

theorem exit_eq_compile_iff (h : task.Ends t env ids r t') :
    r.output.exit = 2 ↔ ∃ e, task.CompilesTo t env (.error e) := by
  constructor
  · intro hexit
    cases h with
    | uncompiled hcompile => exact ⟨_, hcompile⟩
    | _ => cases hexit
  · rintro ⟨e, hcompile⟩
    cases h with
    | unread hread => exact absurd hread hcompile.read_ne_error
    | uncompiled => rfl
    | unloaded hcompile' => cases hcompile.unique hcompile'
    | stopped hrun | unsaved hrun | done hrun =>
      rcases hrun.compilesTo with ⟨p, hcompile'⟩
      cases hcompile.unique hcompile'

theorem exit_eq_execution_iff (h : task.Ends t env ids r t') :
    r.output.exit = 3 ↔ ∃ o, task.Runs t env ids o ∧
      ((∃ failure, o.stop = some (.failed failure)) ∨ o.stop = some .tooDeep) := by
  constructor
  · intro hexit
    cases h with
    | @stopped o stop hrun hstop =>
      refine ⟨o, hrun, ?_⟩
      cases stop with
      | failed failure => exact .inl ⟨failure, hstop⟩
      | tooDeep => exact .inr hstop
    | _ => cases hexit
  · rintro ⟨o, hrun, hstop⟩
    rcases hrun.compilesTo with ⟨p, hcompile⟩
    rcases hrun.loads with ⟨d, hload⟩
    cases h with
    | unread hread => exact absurd hread hcompile.read_ne_error
    | uncompiled hcompile' => cases hcompile.unique hcompile'
    | unloaded _ hnone => exact absurd hload (hnone d)
    | stopped => rfl
    | unsaved hrun' hstop' | done hrun' hstop' =>
      rw [hrun.unique hrun', hstop'] at hstop
      rcases hstop with ⟨failure, hstop⟩ | hstop
      · cases hstop
      · cases hstop

/-- A document that cannot be loaded and one that cannot be saved have the same code. -/
theorem exit_eq_document_iff (h : task.Ends t env ids r t') :
    r.output.exit = 5 ↔
      (∃ p, task.CompilesTo t env (.ok p)) ∧
        ((∀ d, ¬ task.Loads t ids d) ∨
          ∃ o e, task.Runs t env ids o ∧ o.stop = none ∧ task.save t o.document = .error e) := by
  constructor
  · intro hexit
    cases h with
    | unloaded hcompile hnone => exact ⟨⟨_, hcompile⟩, .inl hnone⟩
    | unsaved hrun hstop hsave => exact ⟨hrun.compilesTo, .inr ⟨_, _, hrun, hstop, hsave⟩⟩
    | _ => cases hexit
  · rintro ⟨⟨p, hcompile⟩, hfails⟩
    cases h with
    | unread hread => exact absurd hread hcompile.read_ne_error
    | uncompiled hcompile' => cases hcompile.unique hcompile'
    | unloaded | unsaved => rfl
    | stopped hrun hstop =>
      rcases hfails with hnone | ⟨o, e, hrun', hstop', -⟩
      · rcases hrun.loads with ⟨d, hload⟩
        exact absurd hload (hnone d)
      · rw [hrun.unique hrun', hstop'] at hstop
        cases hstop
    | done hrun hstop hsave =>
      rcases hfails with hnone | ⟨o, e, hrun', -, hsave'⟩
      · rcases hrun.loads with ⟨d, hload⟩
        exact absurd hload (hnone d)
      · rw [hrun.unique hrun', hsave'] at hsave
        cases hsave

theorem exit_mem (h : task.Ends t env ids r t') : r.output.exit ∈ [0, 2, 3, 4, 5] := by
  cases h with
  | _ => exact List.mem_of_elem_eq_true rfl

/-! ## Texts and files -/

/-- A task that fails leaves all files as they were, and prints the trace if there is one. -/
theorem of_exit_ne_zero (h : task.Ends t env ids r t') (hexit : r.output.exit ≠ 0) :
    t' = t ∧ (∀ o, task.Runs t env ids o → r.output.stdout = linesText o.trace) ∧
      ((∀ o, ¬ task.Runs t env ids o) → r.output.stdout = "") := by
  cases h with
  | unread hread =>
    refine ⟨rfl, fun o hrun => ?_, fun _ => rfl⟩
    rcases hrun.compilesTo with ⟨p, hcompile⟩
    exact absurd hread hcompile.read_ne_error
  | uncompiled hcompile =>
    refine ⟨rfl, fun o hrun => ?_, fun _ => rfl⟩
    rcases hrun.compilesTo with ⟨p, hcompile'⟩
    cases hcompile.unique hcompile'
  | unloaded _ hnone =>
    refine ⟨rfl, fun o hrun => ?_, fun _ => rfl⟩
    rcases hrun.loads with ⟨d, hload⟩
    exact absurd hload (hnone d)
  | stopped hrun | unsaved hrun =>
    refine ⟨rfl, fun o hrun' => ?_, fun hnone => absurd hrun (hnone _)⟩
    rw [hrun'.unique hrun]
    rfl
  | done => exact absurd rfl hexit

theorem of_exit_eq_zero (h : task.Ends t env ids r t') (hexit : r.output.exit = 0) :
    ∃ o, task.Runs t env ids o ∧ o.stop = none ∧ task.save t o.document = .ok t' ∧
      r.output.stdout = linesText o.trace ++ task.finalText o.document := by
  cases h with
  | done hrun hstop hsave => exact ⟨_, hrun, hstop, hsave, rfl⟩
  | _ => cases hexit

end Ends

end RunTask

/-- A command line that runs a script, with no log file and texts as they are. The exit code tells
which stage has failed. If one has, then no file has changed, and what is printed is the trace up
to the failure, or nothing if the script did not run. Otherwise the whole trace is printed, and
then the document if that is asked for; only the file that it is saved to may have changed, and
the document's text is read from there, unless this is a file that keeps nothing.

A run that does not come to its end has one of two reasons: a statement has failed, or scripts
invoke each other more deeply than `Program.maxDepth`. The second is a bound of the run itself, and
no statement is to blame for it. Both have the same code. -/
theorem session_run {env : Environment} {args : List String} {request : Request} {task : RunTask}
    (hparse : Request.parse env args = .ok request) (htask : request.task = .run task)
    (hlog : request.logFile = none) (hformat : request.format = .text) (ids : IdSupply)
    (t : FileTree) :
    ∃ out t', session FileTree.system env ids args t = (out, t') ∧
      out.exit ∈ [0, 2, 3, 4, 5] ∧
      (out.exit = 4 ↔ ∃ e, t.read task.script = .error e) ∧
      (out.exit = 2 ↔ ∃ e, task.CompilesTo t env (.error e)) ∧
      (out.exit = 5 ↔
        (∃ p, task.CompilesTo t env (.ok p)) ∧
          ((∀ d, ¬ task.Loads t ids d) ∨
            ∃ o e, task.Runs t env ids o ∧ o.stop = none ∧ task.save t o.document = .error e)) ∧
      (out.exit = 3 ↔ ∃ o, task.Runs t env ids o ∧
        ((∃ failure, o.stop = some (.failed failure)) ∨ o.stop = some .tooDeep)) ∧
      (out.exit ≠ 0 →
        t' = t ∧ (∀ o, task.Runs t env ids o → out.stdout = linesText o.trace) ∧
          ((∀ o, ¬ task.Runs t env ids o) → out.stdout = "")) ∧
      (out.exit = 0 →
        ∃ o, task.Runs t env ids o ∧ o.stop = none ∧
          out.stdout = linesText o.trace ++ task.finalText o.document ∧
          (task.output = none → t' = t) ∧
          ∀ path, task.output = some path →
            ∃ place, t.target path = .ok place ∧ t'.folders = t.folders ∧
              (∀ other, other ≠ place → t'.file? other = t.file? other) ∧
              (place ∉ t.sinks → t'.read path = .ok o.document.print)) := by
  rcases task.ends_perform t env ids with ⟨r, t', hperform, hends⟩
  have hsession : session FileTree.system env ids args t = (r.output, t') := by
    have hopen : request.openLog FileTree.system t = (.ok (), t) := by
      unfold Request.openLog
      rw [hlog]
      rfl
    -- The standard functions have names of their own, so their catalogue is there.
    have hrequest : request.perform FileTree.system env ids t = (r, t') := by
      unfold Request.perform
      rw [Program.plainCatalogue_eq, htask, hformat]
      exact hperform
    unfold session
    simp only [hparse, FileTree.run_bind hopen, FileTree.run_bind hrequest]
    rfl
  refine ⟨r.output, t', hsession, hends.exit_mem, hends.exit_eq_file_iff, hends.exit_eq_compile_iff,
    hends.exit_eq_document_iff, hends.exit_eq_execution_iff, hends.of_exit_ne_zero, ?_⟩
  intro hexit
  rcases hends.of_exit_eq_zero hexit with ⟨o, hrun, hstop, hsave, hstdout⟩
  refine ⟨o, hrun, hstop, hstdout, ?_, fun path => RunTask.files_of_save hsave⟩
  intro hnone
  unfold RunTask.save at hsave
  rw [hnone] at hsave
  exact (Except.ok.inj hsave).symm

/-- A script that renames the root and then asks for a variable that is not there, and a
document. -/
def renamingFiles : FileTree :=
  { files := [(["s"], "rename . e\nprint $y"), (["d"], "\x7b\"type\":\"d\"\x7d")] }

/-- The document is to be saved where it was read. -/
def renamingTask : RunTask := { script := "s", document := "d", output := some "d" }

/-- The script stops after it has renamed the root, and the document is not saved. -/
theorem session_renaming :
    Request.parse {} ["run", "s", "-d", "d", "-o", "d"] = .ok { task := .run renamingTask } ∧
    ∃ out, session FileTree.system {} Document.smallIds ["run", "s", "-d", "d", "-o", "d"]
        renamingFiles = (out, renamingFiles) ∧
      out.exit = 3 ∧ out.stdout = "renamed 1 annotation(s) to 'e'\n" := by
  have hparse : Request.parse {} ["run", "s", "-d", "d", "-o", "d"] =
      .ok { task := .run renamingTask } := by decide +kernel
  refine ⟨hparse, ?_⟩
  rcases session_run hparse rfl rfl rfl Document.smallIds renamingFiles with
    ⟨out, t', hsession, -, -, -, -, hstops, hfails, -⟩
  have hscript : renamingFiles.read "s" = .ok "rename . e\nprint $y" := by decide +kernel
  have hdocument : renamingFiles.read "d" = .ok "\x7b\"type\":\"d\"\x7d" := by decide +kernel
  have hresult :
      ((Program.compile Program.plainCatalogue [] "rename . e\nprint $y").toOption.bind fun p =>
        (Document.parse "\x7b\"type\":\"d\"\x7d" Document.smallIds).toOption.map fun d =>
          ((p.run Program.plainCatalogue d d.root .empty).stop.isSome,
            linesText (p.run Program.plainCatalogue d d.root .empty).trace)) =
        some (true, "renamed 1 annotation(s) to 'e'\n") := by decide +kernel
  cases hp : Program.compile Program.plainCatalogue [] "rename . e\nprint $y" with
  | error e =>
    rw [hp] at hresult
    cases hresult
  | ok p =>
    cases hd : Document.parse "\x7b\"type\":\"d\"\x7d" Document.smallIds with
    | error e =>
      rw [hp, hd] at hresult
      cases hresult
    | ok d =>
      rw [hp, hd] at hresult
      rcases Prod.mk.inj (Option.some.inj hresult) with ⟨hstop, htrace⟩
      rcases Option.isSome_iff_exists.mp hstop with ⟨stop, hstop⟩
      have hrun : renamingTask.Runs renamingFiles {} Document.smallIds
          (p.run Program.plainCatalogue d d.root .empty) :=
        ⟨p, d, ⟨_, hscript, hp⟩, ⟨_, hdocument, hd⟩, rfl⟩
      have hexit : out.exit = 3 := by
        refine hstops.mpr ⟨_, hrun, ?_⟩
        cases stop with
        | failed failure => exact .inl ⟨failure, hstop⟩
        | tooDeep => exact .inr hstop
      rcases hfails (by simp [hexit]) with ⟨rfl, hprinted, -⟩
      exact ⟨out, hsession, hexit, (hprinted _ hrun).trans htrace⟩

end MarkupScript.CommandLine
