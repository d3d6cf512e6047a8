import Thompson.Command.Run
import Thompson.Proofs.Provided
import Thompson.Proofs.Quoting

/-!
# Verdicts on standard output

A verdict is a line of its own: the subject in quotes, which has no line
break and ends where the closing quote is, and the answer. Lines in a
row therefore tell which subjects were asked about and what the answers
were, whatever the subjects are (`report_append_inj`). Steps after the
verdicts print the DOT text or nothing, so this is all that a run prints
(`stdout_steps`).
-/

namespace Thompson

namespace Command

/-! ## Reports -/

/-- A subject with the answer to whether it is a word of the automaton. -/
abbrev Answer := String × Bool

def Answer.word (accepted : Bool) : String := if accepted then "accepted" else "rejected"

def Answer.line (answer : Answer) : String :=
  Quoted.text answer.1 ++ ": " ++ Answer.word answer.2

/-- The lines of some answers, each of them ended by a line break. -/
def report (answers : List Answer) : String :=
  String.join (answers.map fun answer => answer.line ++ "\n")

def Options.answers (o : Options) (a : Automaton) : List Answer :=
  o.subjects.map fun subject => (subject, a.accepts subject)

@[simp] theorem report_nil : report [] = "" := rfl

theorem toList_report_cons (answer : Answer) (answers : List Answer) :
    (report (answer :: answers)).toList =
      answer.line.toList ++ '\n' :: (report answers).toList := by
  simp [report]

theorem newline_not_mem_line (answer : Answer) : '\n' ∉ answer.line.toList := by
  obtain ⟨subject, accepted⟩ := answer
  have hsubject := Quoted.newline_not_mem_text subject
  cases accepted <;> simp [Answer.line, Answer.word, hsubject]

theorem splitOn_report (answers : List Answer) (rest : List Char) :
    ((report answers).toList ++ rest).splitOn '\n' =
      answers.map (fun answer => answer.line.toList) ++ rest.splitOn '\n' := by
  induction answers with
  | nil => rfl
  | cons answer answers ih =>
      rw [toList_report_cons, List.append_assoc, List.cons_append,
        List.splitOn_append_cons_self_of_not_mem (newline_not_mem_line answer), ih]
      rfl

/-! ## What a report says -/

/-- A line in front of a text is no other line. -/
theorem line_append_inj {answer answer' : Answer} {rest rest' : List Char}
    (h : answer.line.toList ++ '\n' :: rest = answer'.line.toList ++ '\n' :: rest') :
    answer = answer' ∧ rest = rest' := by
  obtain ⟨subject, accepted⟩ := answer
  obtain ⟨subject', accepted'⟩ := answer'
  simp only [Answer.line, String.toList_append, List.append_assoc] at h
  obtain ⟨rfl, hword⟩ := Quoted.text_append_inj h
  cases accepted <;> cases accepted' <;> simp_all [Answer.word]

/-- A line starts with a quote, so what starts otherwise is not one. -/
theorem report_append_inj {answers answers' : List Answer} {rest rest' : List Char}
    (hrest : rest.head? ≠ some '"') (hrest' : rest'.head? ≠ some '"')
    (h : (report answers).toList ++ rest = (report answers').toList ++ rest') :
    answers = answers' ∧ rest = rest' := by
  have head?_report (answer : Answer) (answers : List Answer) (rest : List Char) :
      ((report (answer :: answers)).toList ++ rest).head? = some '"' := by
    rw [toList_report_cons, Answer.line]
    simp [Quoted.toList_text]
  induction answers generalizing answers' with
  | nil =>
      cases answers' with
      | nil => exact ⟨rfl, h⟩
      | cons answer' answers' =>
          refine absurd ?_ hrest
          rw [← head?_report answer' answers' rest', ← h]
          rfl
  | cons answer answers ih =>
      cases answers' with
      | nil =>
          refine absurd ?_ hrest'
          rw [← head?_report answer answers rest, h]
          rfl
      | cons answer' answers' =>
          simp only [toList_report_cons, List.append_assoc, List.cons_append] at h
          obtain ⟨rfl, htail⟩ := line_append_inj h
          obtain ⟨rfl, rfl⟩ := ih htail
          exact ⟨rfl, rfl⟩

theorem report_injective : Function.Injective report := by
  intro answers answers' h
  have hnil : [].head? ≠ some '"' := by decide
  exact (report_append_inj hnil hnil (congrArg (·.toList ++ []) h)).1

/-! ## What a run prints -/

theorem stdout_andThen {step : Progress → Progress} (hstep : ∀ p, (step p).stdout = p.stdout)
    (p : Progress) : (p.andThen step).stdout = p.stdout := by
  unfold Progress.andThen
  split
  · exact hstep p
  · rfl

theorem stdout_writeDot (a : Automaton) (output : Option String) (p : Progress) :
    (writeDot a output p).stdout = p.stdout := by
  unfold writeDot
  split
  · rfl
  · split <;> rfl

theorem stdout_draw (a : Automaton) (renderer : Renderer) (drawing : Option String)
    (p : Progress) : (draw a renderer drawing p).stdout = p.stdout := by
  unfold draw
  split
  · rfl
  · dsimp only
    split <;> rfl

theorem stdout_save (d : Document) (path : Option String) (p : Progress) :
    (save d path p).stdout = p.stdout := by
  unfold save
  split
  · rfl
  · split <;> rfl

theorem join_verdicts (a : Automaton) (o : Options) :
    String.join (o.subjects.map (verdict a)) = report (o.answers a) := by
  rw [report, Options.answers, List.map_map]
  rfl

/-- Files are written and drawings are made without a word. -/
theorem stdout_steps (o : Options) (renderer : Renderer) (d : Document) (files : Directory) :
    (steps o renderer d files).stdout =
      report (o.answers d.automaton) ++ if o.printsDot then d.automaton.dot else "" := by
  rw [steps, stdout_andThen (stdout_save d o.save),
    stdout_andThen (stdout_draw d.automaton renderer o.drawing),
    stdout_andThen (stdout_writeDot d.automaton o.output), ← join_verdicts]
  simp only [Progress.andThen, printVerdicts, printDot]
  split <;> simp

theorem printsDot_iff (o : Options) :
    o.printsDot = true ↔ o.dot = true ∨
      o.subjects = [] ∧ o.output = none ∧ o.drawing = none ∧ o.save = none := by
  simp [Options.printsDot, and_assoc]

/-- A run that gets its automaton prints one line for each subject, and
then the DOT text if it is to be printed. No subject is more than one
line, and no two lists of answers are reported alike. -/
theorem run_reports_verdicts {arguments : List String} {o : Options} {files : Directory}
    {d : Document} (h : Request.ofArguments arguments = .run o)
    (hobtain : obtain o.source files = .ok d) (renderer : Renderer) :
    (∃ rest, (run arguments renderer files).stdout = report (o.answers d.automaton) ++ rest ∧
      (run arguments renderer files).stdout.toList.splitOn '\n' =
        (o.answers d.automaton).map (fun answer => answer.line.toList) ++
          rest.toList.splitOn '\n' ∧
      ((o.dot = true ∨
          o.subjects = [] ∧ o.output = none ∧ o.drawing = none ∧ o.save = none) →
        rest = d.automaton.dot) ∧
      (¬ (o.dot = true ∨
          o.subjects = [] ∧ o.output = none ∧ o.drawing = none ∧ o.save = none) →
        rest = "")) ∧
      (∀ subject, '\n' ∉ (Quoted.text subject).toList) ∧ Function.Injective report := by
  have hstdout : (run arguments renderer files).stdout =
      report (o.answers d.automaton) ++ if o.printsDot then d.automaton.dot else "" := by
    rw [run_of_request h]
    simp only [perform, hobtain, stdout_steps]
  refine ⟨⟨_, hstdout, ?_, ?_, ?_⟩, Quoted.newline_not_mem_text, report_injective⟩
  · rw [hstdout, String.toList_append, splitOn_report]
  · intro hprints
    rw [if_pos ((printsDot_iff o).mpr hprints)]
  · intro hprints
    rw [if_neg (mt (printsDot_iff o).mp hprints)]

/-- The first subject imitates the end of its line and another line. -/
theorem run_reports_verdicts_imitation :
    let forged := "a\": accepted\n\"b"
    let arguments := ["-p", "a*", "-s", forged, "-s", "a", "-s", "a"]
    let o : Options := ⟨.pattern "a*", [forged, "a", "a"], false, none, none, none⟩
    let a := Automaton.ofPattern (.star (.symbol 'a')) "a*"
    let files : Directory := ⟨[], []⟩
    Request.ofArguments arguments = .run o ∧ obtain o.source files = .ok (.ofAutomaton a) ∧
      (run arguments .absent files).stdout.toList.splitOn '\n' =
        (o.answers a).map (fun answer => answer.line.toList) ++ [[]] := by
  intro forged arguments o a files
  have hrequest : Request.ofArguments arguments = .run o := by decide +kernel
  have hobtain : obtain o.source files = .ok (.ofAutomaton a) := by
    rw [obtain, Document.compile_star]
    rfl
  obtain ⟨⟨rest, -, hlines, -, hrest⟩, -, -⟩ := run_reports_verdicts hrequest hobtain .absent
  rw [hrest (by simp [o])] at hlines
  exact ⟨hrequest, hobtain, hlines⟩

end Command

end Thompson
