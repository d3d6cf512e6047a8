import Thompson.Alphabet
import Thompson.Automaton.Basic
import Thompson.Automaton.Checked
import Thompson.Automaton.Path
import Thompson.Automaton.Simulation
import Thompson.Automaton.WellFormed
import Thompson.Automaton.Worklist
import Thompson.Command.Options
import Thompson.Command.Run
import Thompson.Construction
import Thompson.Construction.Walk
import Thompson.Document.Basic
import Thompson.Document.Reader
import Thompson.Document.Writer
import Thompson.Drawing.Checked
import Thompson.Drawing.Dot
import Thompson.Drawing.Reader
import Thompson.Drawing.Render
import Thompson.Drawing.Sentence
import Thompson.Drawing.Viewer
import Thompson.Event
import Thompson.Files
import Thompson.Fragment
import Thompson.Json.Basic
import Thompson.Json.Printer
import Thompson.Json.Reader
import Thompson.Json.Scanner
import Thompson.Label
import Thompson.Main
import Thompson.Pattern.Basic
import Thompson.Pattern.Parser
import Thompson.Pattern.Positions
import Thompson.Pattern.Printer
import Thompson.Pattern.Writing
import Thompson.Proofs.Basic
import Thompson.Proofs.Bounds
import Thompson.Proofs.Closure
import Thompson.Proofs.Construction
import Thompson.Proofs.DocumentRoundTrip
import Thompson.Proofs.DotSentences
import Thompson.Proofs.DraftText
import Thompson.Proofs.Drafts
import Thompson.Proofs.Drawings
import Thompson.Proofs.DrawnText
import Thompson.Proofs.Edges
import Thompson.Proofs.Effects
import Thompson.Proofs.Files
import Thompson.Proofs.Fragment
import Thompson.Proofs.FragmentStates
import Thompson.Proofs.Grammar
import Thompson.Proofs.JsonRoundTrip
import Thompson.Proofs.Loading
import Thompson.Proofs.Marking
import Thompson.Proofs.NodeMarks
import Thompson.Proofs.NormalForm
import Thompson.Proofs.PatternText
import Thompson.Proofs.Positions
import Thompson.Proofs.Provided
import Thompson.Proofs.Quoting
import Thompson.Proofs.Reachability
import Thompson.Proofs.Recognition
import Thompson.Proofs.RecordFields
import Thompson.Proofs.Refusal
import Thompson.Proofs.Regrouping
import Thompson.Proofs.Relocation
import Thompson.Proofs.Shape
import Thompson.Proofs.Simulation
import Thompson.Proofs.Spelling
import Thompson.Proofs.StandIn
import Thompson.Proofs.StateCount
import Thompson.Proofs.TransitionCount
import Thompson.Proofs.Trim
import Thompson.Proofs.UniqueReading
import Thompson.Proofs.Updates
import Thompson.Proofs.Verdicts
import Thompson.Proofs.Walk
import Thompson.Proofs.Worklist
import Thompson.Proofs.Writing
import Thompson.State
import Thompson.StateSet
import Thompson.Text.Buffer
import Thompson.Text.Hidden
import Thompson.Text.Quoted
import Thompson.Token
