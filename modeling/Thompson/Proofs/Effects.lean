import Thompson.Command.Run
import Thompson.Proofs.Provided
import Thompson.Proofs.Updates

/-!
# What a run leaves behind

The steps of a run are laid out beforehand as a plan. A step that
completes prints its whole text and writes its files whole
(`Step.take_cases`), and a step that fails prints nothing and leaves at
most the graph that a renderer was started with (`Step.Fails`). By
induction on the plan, output and files of a run are those of a first
part of it, and what is left of the plan after a failure is not touched.
-/

namespace Thompson

/-- A renderer that, if it succeeds, has written a picture to the file
that is its fourth argument, and nothing else. -/
def Renderer.Paints (renderer : Renderer) (picture : List String → String) : Prop :=
  ∀ arguments files after, renderer arguments files = .ok after →
    ∃ path, arguments[3]? = some path ∧ files.create path (picture arguments) = .ok after

namespace Renderer

variable {picture : List String → String}

theorem paints_absent : absent.Paints picture := nofun

theorem paints_failing (complaint : List UInt8) : (failing complaint).Paints picture := nofun

theorem paints_echoing : echoing.Paints fun arguments => " ".intercalate arguments ++ "\n" := by
  intro arguments files after h
  unfold echoing at h
  split at h
  · cases h
  · next path hpath =>
      split at h
      · next hcreate => exact ⟨path, hpath, Except.ok.inj h ▸ hcreate⟩
      · cases h

end Renderer

namespace Command

variable {d : Document} {renderer : Renderer} {picture : List String → String}
  {before files : Directory} {writes : List (String × String)}

/-! ## Plans -/

/-- What a run does with its automaton. -/
inductive Step where
  | verdicts (subjects : List String)
  | print
  | write (path : String)
  | draw (name : String)
  | save (path : String)
  deriving DecidableEq

/-- The steps of a run, in their order. -/
def Options.plan (o : Options) : List Step :=
  [.verdicts o.subjects] ++ (if o.printsDot then [.print] else []) ++
    (o.output.map .write).toList ++ (o.drawing.map .draw).toList ++ (o.save.map .save).toList

namespace Step

/-- What a step prints. -/
def output (d : Document) : Step → String
  | verdicts subjects => String.join (subjects.map (verdict d.automaton))
  | print => d.automaton.dot
  | write _ | draw _ | save _ => ""

/-- The graph file of a drawing. -/
def graphFile (d : Document) (name : String) : String × String :=
  (name ++ ".dot", Graphviz.graph d.automaton)

/-- What a renderer is started with. -/
abbrev rendering (name : String) : List String := ["-Tjpg", name ++ ".dot", "-o", name ++ ".jpg"]

/-- The files that a step writes, with their texts, one after the
other. -/
def written (d : Document) (picture : List String → String) : Step → List (String × String)
  | verdicts _ | print => []
  | write path => [(path, d.automaton.dot)]
  | draw name => [graphFile d name, (name ++ ".jpg", picture (rendering name))]
  | save path => [(path, d.text)]

/-- How a step fails in a directory, and the files it has written before
that. -/
inductive Fails (d : Document) (renderer : Renderer) (files : Directory) :
    Step → Failure → List (String × String) → Prop
  | write {path cause} (h : files.create path d.automaton.dot = .error cause) :
      Fails d renderer files (.write path) (.file cause) []
  | graph {name cause}
      (h : files.create (name ++ ".dot") (Graphviz.graph d.automaton) = .error cause) :
      Fails d renderer files (.draw name) (.drawing (.file cause)) []
  | notStarted {name cause left}
      (h : files.create (name ++ ".dot") (Graphviz.graph d.automaton) = .ok left)
      (hrenderer : renderer (rendering name) left = .error (.notStarted cause)) :
      Fails d renderer files (.draw name) (.drawing (.file cause)) [graphFile d name]
  | failed {name complaint left}
      (h : files.create (name ++ ".dot") (Graphviz.graph d.automaton) = .ok left)
      (hrenderer : renderer (rendering name) left = .error (.failed complaint)) :
      Fails d renderer files (.draw name) (.drawing (.renderer (Utf8.decodeLossy complaint)))
        [graphFile d name]
  | save {path cause} (h : files.create path d.text = .error cause) :
      Fails d renderer files (.save path) (.file cause) []

/-! ## One step -/

def take (d : Document) (renderer : Renderer) : Step → Progress → Progress
  | verdicts subjects => printVerdicts d.automaton subjects
  | print => printDot d.automaton true
  | write path => writeDot d.automaton (some path)
  | draw name => Command.draw d.automaton renderer (some name)
  | save path => Command.save d (some path)

/-- A step completes or fails. -/
theorem take_cases (hpaints : renderer.Paints picture) (h : before.Updated writes files)
    (stdout : String) (step : Step) :
    (∃ after, before.Updated (writes ++ step.written d picture) after ∧
      step.take d renderer ⟨stdout, files, none⟩ = ⟨stdout ++ step.output d, after, none⟩) ∨
    ∃ cause complete after, step.Fails d renderer files cause complete ∧
      before.Updated (writes ++ complete) after ∧
      step.take d renderer ⟨stdout, files, none⟩ = ⟨stdout, after, some cause⟩ := by
  cases step with
  | verdicts subjects =>
      left
      exact ⟨files, by simpa [written] using h, rfl⟩
  | print =>
      left
      exact ⟨files, by simpa [written] using h, rfl⟩
  | write path =>
      cases hcreate : files.create path d.automaton.dot with
      | ok after =>
          left
          exact ⟨after, h.create hcreate, by simp [take, writeDot, hcreate, output]⟩
      | error cause =>
          right
          exact ⟨_, _, files, .write hcreate, by simpa using h, by simp [take, writeDot, hcreate]⟩
  | draw name =>
      cases hgraph : files.create (name ++ ".dot") (Graphviz.graph d.automaton) with
      | error cause =>
          right
          exact ⟨_, _, files, .graph hgraph, by simpa using h,
            by simp [take, Command.draw, Automaton.draw, hgraph]⟩
      | ok left =>
          have hleft := h.create hgraph
          cases hrenderer : renderer (rendering name) left with
          | ok after =>
              obtain ⟨path, hpath, hcreate⟩ := hpaints _ _ _ hrenderer
              obtain rfl : name ++ ".jpg" = path := Option.some.inj hpath
              have hafter := hleft.create hcreate
              rw [List.append_assoc] at hafter
              exact .inl ⟨after, hafter,
                by simp [take, Command.draw, Automaton.draw, hgraph, hrenderer, output]⟩
          | error error =>
              right
              cases error with
              | notStarted cause =>
                  exact ⟨_, _, left, .notStarted hgraph hrenderer, hleft,
                    by simp [take, Command.draw, Automaton.draw, hgraph, hrenderer]⟩
              | failed complaint =>
                  exact ⟨_, _, left, .failed hgraph hrenderer, hleft,
                    by simp [take, Command.draw, Automaton.draw, hgraph, hrenderer]⟩
  | save path =>
      cases hcreate : files.create path d.text with
      | ok after =>
          left
          exact ⟨after, h.create hcreate,
            by simp [take, Command.save, Document.save_eq, hcreate, Except.map, output]⟩
      | error cause =>
          right
          exact ⟨_, _, files, .save hcreate, by simpa using h,
            by simp [take, Command.save, Document.save_eq, hcreate, Except.map]⟩

end Step

/-! ## All steps -/

/-- How a run ends that has written some files and reached a directory,
with these steps left: it is done, or the first of them fails. -/
inductive Ends (d : Document) (renderer : Renderer) (before : Directory)
    (writes : List (String × String)) (reached : Directory) :
    List Step → Option Failure → Directory → Prop
  | done : Ends d renderer before writes reached [] none reached
  | failed {step rest cause complete after} (h : Step.Fails d renderer reached step cause complete)
      (hafter : before.Updated (writes ++ complete) after) :
      Ends d renderer before writes reached (step :: rest) (some cause) after

def takeAll (d : Document) (renderer : Renderer) (plan : List Step) (p : Progress) : Progress :=
  plan.foldl (fun p step => p.andThen (step.take d renderer)) p

theorem takeAll_of_failure {cause : Failure} (stdout : String) (plan : List Step) :
    takeAll d renderer plan ⟨stdout, files, some cause⟩ = ⟨stdout, files, some cause⟩ := by
  induction plan with
  | nil => rfl
  | cons step rest ih => exact ih

theorem takeAll_cases (hpaints : renderer.Paints picture) (h : before.Updated writes files)
    (stdout : String) (plan : List Step) :
    ∃ taken left reached, plan = taken ++ left ∧
      before.Updated (writes ++ taken.flatMap (Step.written d picture)) reached ∧
      (takeAll d renderer plan ⟨stdout, files, none⟩).stdout =
        stdout ++ String.join (taken.map (Step.output d)) ∧
      Ends d renderer before (writes ++ taken.flatMap (Step.written d picture)) reached left
        (takeAll d renderer plan ⟨stdout, files, none⟩).failure
        (takeAll d renderer plan ⟨stdout, files, none⟩).files := by
  induction plan generalizing writes files stdout with
  | nil => exact ⟨[], [], files, rfl, by simpa using h, by simp [takeAll], .done⟩
  | cons step rest ih =>
      have htake : takeAll d renderer (step :: rest) ⟨stdout, files, none⟩ =
        takeAll d renderer rest (step.take d renderer ⟨stdout, files, none⟩) := rfl
      rcases Step.take_cases hpaints h stdout step with
        ⟨after, hafter, hstep⟩ | ⟨cause, complete, after, hfails, hafter, hstep⟩
      · obtain ⟨taken, left, reached, rfl, hreached, hstdout, hends⟩ :=
          ih hafter (stdout ++ step.output d)
        rw [htake, hstep]
        rw [List.append_assoc, ← List.flatMap_cons] at hreached hends
        refine ⟨step :: taken, left, reached, rfl, hreached, ?_, hends⟩
        rw [hstdout, List.map_cons, String.join_cons, String.append_assoc]
      · rw [htake, hstep, takeAll_of_failure]
        exact ⟨[], step :: rest, files, rfl, by simpa using h, by simp,
          .failed hfails (by simpa using hafter)⟩

@[simp] theorem Progress.andThen_id (p : Progress) : (p.andThen fun p => p) = p := by
  unfold andThen
  split <;> rfl

/-- The plan of a run has a step for each thing that was asked for, and
what was not asked for changes nothing. -/
theorem steps_eq (o : Options) (renderer : Renderer) (d : Document) (files : Directory) :
    steps o renderer d files = takeAll d renderer o.plan ⟨"", files, none⟩ := by
  have hprint (p : Progress) : p.andThen (printDot d.automaton o.printsDot) =
      takeAll d renderer (if o.printsDot then [.print] else []) p := by
    cases o.printsDot with
    | true => rfl
    | false => exact p.andThen_id
  have hwrite (p : Progress) : p.andThen (writeDot d.automaton o.output) =
      takeAll d renderer (o.output.map .write).toList p := by
    cases o.output with
    | none => exact p.andThen_id
    | some path => rfl
  have hdraw (p : Progress) : p.andThen (draw d.automaton renderer o.drawing) =
      takeAll d renderer (o.drawing.map .draw).toList p := by
    cases o.drawing with
    | none => exact p.andThen_id
    | some name => rfl
  have hsave (p : Progress) : p.andThen (save d o.save) =
      takeAll d renderer (o.save.map .save).toList p := by
    cases o.save with
    | none => exact p.andThen_id
    | some path => rfl
  rw [steps, hprint, hwrite, hdraw, hsave, Options.plan]
  simp only [takeAll, List.foldl_append]
  rfl

/-! ## Whole runs -/

/-- A run that gets no automaton says why and does nothing else. Any
other run completes the first steps of its plan. If there is no other
step, it is done, and else it ends as the next step fails. -/
theorem run_takes_steps {arguments : List String} {o : Options}
    (h : Request.ofArguments arguments = .run o) (hpaints : renderer.Paints picture)
    (files : Directory) :
    (∀ cause, obtain o.source files = .error cause →
      run arguments renderer files = ⟨1, "", files, some cause⟩) ∧
    ∀ d, obtain o.source files = .ok d →
      ∃ taken left reached failure after, o.plan = taken ++ left ∧
        files.Updated (taken.flatMap (Step.written d picture)) reached ∧
        Ends d renderer files (taken.flatMap (Step.written d picture)) reached left failure after ∧
        run arguments renderer files =
          ⟨if failure.isSome then 1 else 0, String.join (taken.map (Step.output d)), after,
            failure⟩ := by
  rw [run_of_request h, perform]
  constructor
  · intro cause hobtain
    rw [hobtain]
  · intro d hobtain
    obtain ⟨taken, left, reached, hplan, hreached, hstdout, hends⟩ :=
      takeAll_cases (d := d) hpaints files.updated_nil "" o.plan
    rw [String.empty_append] at hstdout
    refine ⟨taken, left, reached, _, _, hplan, hreached, hends, ?_⟩
    simp only [hobtain, steps_eq, hstdout]

/-- The file for the DOT text is also the graph of the drawing. There is
no folder for the document, so one of the steps fails. -/
theorem run_takes_steps_no_folder :
    let arguments := ["-p", "a*", "-s", "a", "-o", "g.dot", "-n", "g", "-j", "no/x"]
    let o : Options := ⟨.pattern "a*", ["a"], false, some "g.dot", some "g", some "no/x"⟩
    let d := Document.ofAutomaton (.ofPattern (.star (.symbol 'a')) "a*")
    let files : Directory := ⟨[], []⟩
    Request.ofArguments arguments = .run o ∧ obtain o.source files = .ok d ∧
      ∃ taken step rest reached cause complete, o.plan = taken ++ step :: rest ∧
        step.Fails d .echoing reached cause complete ∧
        (run arguments .echoing files).exit = 1 ∧
        (run arguments .echoing files).failure = some cause := by
  intro arguments o d files
  have hrequest : Request.ofArguments arguments = .run o := by decide +kernel
  have hobtain : obtain o.source files = .ok d := by
    rw [obtain, Document.compile_star]
    rfl
  refine ⟨hrequest, hobtain, ?_⟩
  obtain ⟨taken, left, reached, failure, after, hplan, hreached, hends, hrun⟩ :=
    (run_takes_steps hrequest Renderer.paints_echoing files).2 d hobtain
  cases hends with
  | done =>
      have hsave : Step.save "no/x" ∈ taken := by
        rw [← List.append_nil taken, ← hplan]
        decide
      obtain ⟨_, hcreate⟩ := hreached.writable ("no/x", d.text)
        (List.mem_flatMap.mpr ⟨_, hsave, List.mem_singleton_self _⟩)
      obtain ⟨place, hresolve, -⟩ := Directory.create_eq_ok hcreate
      have hmissing : files.resolve "no/x" = .error .notFound := by
        rw [Directory.resolve, Directory.steps_eq]
        decide +kernel
      rw [hmissing] at hresolve
      cases hresolve
  | failed hfails hafter => exact ⟨_, _, _, _, _, _, hplan, hfails, by rw [hrun]; rfl, by rw [hrun]⟩

end Command

end Thompson
