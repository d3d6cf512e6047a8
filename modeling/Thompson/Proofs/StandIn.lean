import Thompson.Command.Run
import Thompson.Proofs.StateCount

/-!
# A saved automaton in place of its pattern

The document of a compiled pattern is loaded as it was saved, so a run
gets the same document from the file as from the pattern
(`obtain_file_eq`). Whatever else is asked for only depends on that
document and on the directory, and the two runs cannot be told apart
(`run_loading_eq`).
-/

namespace Thompson

namespace Document

variable {d : Document} {letters : List Char} {files : Directory} {file : String}

/-- A file that holds a document, its alphabet in any order, is loaded as
that document. -/
theorem load_of_read (h : d.automaton.WellFormed) (hcount : d.Counted)
    (hletters : letters.Perm d.automaton.alphabet.toList)
    (hread : files.read file = .ok (.file (d.textListing letters))) :
    load files file = (.ok d, []) := by
  simp only [load, hread, loadEntry]
  exact loadText_of_wellFormed h (ofText_textListing h hcount hletters) file

end Document

namespace Command

variable {pattern file : String} {a : Automaton} {log : List Event} {files left : Directory}

/-- The pattern and a file with its automaton are sources of the same
document. -/
theorem obtain_file_eq (hcompile : Automaton.compile pattern = .ok (a, log))
    (hlength : pattern.length < 2 ^ 63) {letters : List Char}
    (hletters : letters.Perm a.alphabet.toList)
    (hread : files.read file = .ok (.file ((Document.ofAutomaton a).textListing letters))) :
    obtain (.file file) files = obtain (.pattern pattern) files := by
  have hload : Document.load files file = (.ok (.ofAutomaton a), []) :=
    Document.load_of_read (Document.Provided.compiled hcompile).wellFormed
      (Document.counted_of_compile hcompile hlength) hletters hread
  simp only [obtain, hload, hcompile]

/-- What a run does depends on its source only through the document that
it gets. -/
theorem perform_source {o : Options} {source source' : Source}
    (h : obtain source files = obtain source' files) (renderer : Renderer) :
    perform { o with source } renderer files =
      perform { o with source := source' } renderer files := by
  unfold perform
  rw [h]
  rfl

/-- A run that only saves a compiled pattern leaves the document in its
file. -/
theorem run_saving {saving : List String}
    (hsaving : Request.ofArguments saving =
      .run ⟨.pattern pattern, [], false, none, none, some file⟩)
    (hcompile : Automaton.compile pattern = .ok (a, log))
    (hcreate : files.create file (Document.ofAutomaton a).text = .ok left) (renderer : Renderer) :
    run saving renderer files = ⟨0, "", left, none⟩ := by
  have hobtain : obtain (.pattern pattern) files = .ok (.ofAutomaton a) := by
    simp only [obtain, hcompile]
  have hsave : (Document.ofAutomaton a).save files file = .ok (left, [.saved a.regex file]) := by
    rw [Document.save_eq, hcreate]
    rfl
  have hprogress : steps ⟨.pattern pattern, [], false, none, none, some file⟩ renderer
      (.ofAutomaton a) files = ⟨"", left, none⟩ := by
    simp [steps, printVerdicts, printDot, Options.printsDot, writeDot, draw, save,
      Progress.andThen, hsave]
  rw [run_of_request hsaving]
  simp only [perform, hobtain, hprogress]
  rfl

/-- A pattern that compiles can be saved to each file that can be
written, and the run that saves it writes its document to that file and
does nothing else. In the directory that this leaves, and also if the
alphabet is listed in another order, a run with the file in place of the
pattern ends the same in every respect, whatever else is asked for. The
bound on the pattern is the one on every text in memory. -/
theorem run_loading_eq {o : Options} {saving loading compiling : List String} {text : String}
    (hcompile : Automaton.compile pattern = .ok (a, log))
    (hlength : pattern.length < 2 ^ 63) (hwritten : ∃ written, files.create file text = .ok written)
    (hsaving : Request.ofArguments saving =
      .run ⟨.pattern pattern, [], false, none, none, some file⟩)
    (hloading : Request.ofArguments loading = .run { o with source := .file file })
    (hcompiling : Request.ofArguments compiling = .run { o with source := .pattern pattern }) :
    (∃ left, files.create file (Document.ofAutomaton a).text = .ok left ∧
      (∀ renderer, run saving renderer files = ⟨0, "", left, none⟩) ∧
      ∀ renderer', run loading renderer' left = run compiling renderer' left) ∧
    ∀ letters : List Char, letters.Perm a.alphabet.toList →
      ∃ left, files.create file ((Document.ofAutomaton a).textListing letters) = .ok left ∧
        ∀ renderer', run loading renderer' left = run compiling renderer' left := by
  have hsame : ∀ letters : List Char, letters.Perm a.alphabet.toList →
      ∃ left, files.create file ((Document.ofAutomaton a).textListing letters) = .ok left ∧
        ∀ renderer', run loading renderer' left = run compiling renderer' left := by
    intro letters hletters
    obtain ⟨left, hcreate⟩ :=
      Directory.exists_create_mono (fun _ hplace => hplace) (fun _ hfolder => hfolder) hwritten
        ((Document.ofAutomaton a).textListing letters)
    refine ⟨left, hcreate, fun renderer' => ?_⟩
    have hsource : obtain (.file file) left = obtain (.pattern pattern) left :=
      obtain_file_eq hcompile hlength hletters (Directory.read_create hcreate)
    rw [run_of_request hloading, run_of_request hcompiling]
    exact perform_source hsource renderer'
  refine ⟨?_, hsame⟩
  obtain ⟨left, hcreate, hruns⟩ := hsame a.alphabet.toList (List.Perm.refl _)
  exact ⟨left, hcreate, run_saving hsaving hcompile hcreate, hruns⟩

theorem run_loading_eq_star :
    let loading := ["-l", "s.json", "-s", "aa", "-d", "-o", "o.dot", "-n", "g", "-j", "t.json"]
    let compiling := ["-p", "a*", "-s", "aa", "-d", "-o", "o.dot", "-n", "g", "-j", "t.json"]
    let saved := Document.ofAutomaton (Automaton.ofPattern (.star (.symbol 'a')) "a*")
    ∃ left, (Directory.mk [] []).create "s.json" saved.text = .ok left ∧
      run ["-p", "a*", "-j", "s.json"] .echoing ⟨[], []⟩ = ⟨0, "", left, none⟩ ∧
      run loading .echoing left = run compiling .echoing left := by
  intro loading compiling saved
  let o : Options := ⟨.pattern "a*", ["aa"], true, some "o.dot", some "g", some "t.json"⟩
  have hplace : (Directory.mk [] []).resolve "s.json" = .ok ["s.json"] := by
    rw [Directory.resolve, Directory.steps_eq]
    decide +kernel
  have hwritten : ∃ written, (Directory.mk [] []).create "s.json" "" = .ok written :=
    ⟨_, Directory.create_of_resolve hplace (by decide +kernel) (by decide) (by decide) ""⟩
  have hsaving : Request.ofArguments ["-p", "a*", "-j", "s.json"] =
      .run ⟨.pattern "a*", [], false, none, none, some "s.json"⟩ := by decide +kernel
  have hloading : Request.ofArguments loading = .run { o with source := .file "s.json" } := by
    decide +kernel
  have hcompiling : Request.ofArguments compiling = .run { o with source := .pattern "a*" } := by
    decide +kernel
  obtain ⟨left, hcreate, hsaved, hruns⟩ := (run_loading_eq Document.compile_star (by decide)
    hwritten hsaving hloading hcompiling).1
  exact ⟨left, hcreate, hsaved .echoing, hruns .echoing⟩

end Command

end Thompson
