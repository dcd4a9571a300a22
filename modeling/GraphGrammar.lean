import GraphGrammar.Application.Addition
import GraphGrammar.Application.Basic
import GraphGrammar.Application.Check
import GraphGrammar.Application.Deletion
import GraphGrammar.Application.Derivation
import GraphGrammar.Application.Reattachment
import GraphGrammar.Application.Update
import GraphGrammar.Confluence
import GraphGrammar.Correspondence
import GraphGrammar.Design.Candidate
import GraphGrammar.Design.Chooser
import GraphGrammar.Design.Run
import GraphGrammar.Diagnostic
import GraphGrammar.Drawing
import GraphGrammar.Equivalence
import GraphGrammar.Graph.Basic
import GraphGrammar.Graph.Description
import GraphGrammar.Graph.Edit
import GraphGrammar.Graph.Element
import GraphGrammar.Graph.Failure
import GraphGrammar.Graph.InPlace
import GraphGrammar.Graph.Registry
import GraphGrammar.Graph.Upkeep
import GraphGrammar.LabelSet
import GraphGrammar.NameMap
import GraphGrammar.Proofs.Addition
import GraphGrammar.Proofs.Adjacency
import GraphGrammar.Proofs.Application
import GraphGrammar.Proofs.Assembly
import GraphGrammar.Proofs.Assignment
import GraphGrammar.Proofs.BuiltRule
import GraphGrammar.Proofs.Cancellation
import GraphGrammar.Proofs.Clique
import GraphGrammar.Proofs.Comatch
import GraphGrammar.Proofs.Compaction
import GraphGrammar.Proofs.Composition
import GraphGrammar.Proofs.Confluence
import GraphGrammar.Proofs.ConfluentSet
import GraphGrammar.Proofs.Connecting
import GraphGrammar.Proofs.Context
import GraphGrammar.Proofs.Copy
import GraphGrammar.Proofs.CopyMapping
import GraphGrammar.Proofs.Cycle
import GraphGrammar.Proofs.DanglingEnds
import GraphGrammar.Proofs.Degree
import GraphGrammar.Proofs.Deletion
import GraphGrammar.Proofs.Described
import GraphGrammar.Proofs.Description
import GraphGrammar.Proofs.DoublyFreed
import GraphGrammar.Proofs.EditHistory
import GraphGrammar.Proofs.EditStep
import GraphGrammar.Proofs.Editing
import GraphGrammar.Proofs.Embedding
import GraphGrammar.Proofs.Equivalence
import GraphGrammar.Proofs.ExactMatch
import GraphGrammar.Proofs.ExactRule
import GraphGrammar.Proofs.Exchange
import GraphGrammar.Proofs.Extension
import GraphGrammar.Proofs.Fate
import GraphGrammar.Proofs.FirstPlace
import GraphGrammar.Proofs.Fitting
import GraphGrammar.Proofs.FreeEnds
import GraphGrammar.Proofs.FreeName
import GraphGrammar.Proofs.GlobalLabels
import GraphGrammar.Proofs.Identity
import GraphGrammar.Proofs.InPlace
import GraphGrammar.Proofs.Isomorphism
import GraphGrammar.Proofs.KeptNames
import GraphGrammar.Proofs.LabelHistory
import GraphGrammar.Proofs.LimitedRecognition
import GraphGrammar.Proofs.LimitedSearch
import GraphGrammar.Proofs.Locality
import GraphGrammar.Proofs.Match
import GraphGrammar.Proofs.MaximalSets
import GraphGrammar.Proofs.Naming
import GraphGrammar.Proofs.Offer
import GraphGrammar.Proofs.Orientation
import GraphGrammar.Proofs.Outcome
import GraphGrammar.Proofs.Pattern
import GraphGrammar.Proofs.Persistence
import GraphGrammar.Proofs.Reattachment
import GraphGrammar.Proofs.Recognition
import GraphGrammar.Proofs.Reconnection
import GraphGrammar.Proofs.Redraft
import GraphGrammar.Proofs.Reference
import GraphGrammar.Proofs.Refusal
import GraphGrammar.Proofs.Registry
import GraphGrammar.Proofs.RelocatedApplication
import GraphGrammar.Proofs.RelocatedFit
import GraphGrammar.Proofs.RelocatedRecognition
import GraphGrammar.Proofs.RelocatedRun
import GraphGrammar.Proofs.Relocation
import GraphGrammar.Proofs.Repair
import GraphGrammar.Proofs.Replay
import GraphGrammar.Proofs.Rewriting
import GraphGrammar.Proofs.RuleByRule
import GraphGrammar.Proofs.RuleLimit
import GraphGrammar.Proofs.RuleSet
import GraphGrammar.Proofs.Run
import GraphGrammar.Proofs.SavedCandidate
import GraphGrammar.Proofs.Search
import GraphGrammar.Proofs.SharedContext
import GraphGrammar.Proofs.Staleness
import GraphGrammar.Proofs.Storage
import GraphGrammar.Proofs.Surroundings
import GraphGrammar.Proofs.Tables
import GraphGrammar.Proofs.Unplaced
import GraphGrammar.Proofs.UnplacedApplication
import GraphGrammar.Proofs.UnplacedRecognition
import GraphGrammar.Proofs.UnplacedRun
import GraphGrammar.Proofs.Update
import GraphGrammar.Proofs.WellFormed
import GraphGrammar.Recognition.Adjacency
import GraphGrammar.Recognition.Basic
import GraphGrammar.Recognition.Fit
import GraphGrammar.Recognition.Limits
import GraphGrammar.Recognition.Search
import GraphGrammar.Report
import GraphGrammar.Rule.Basic
import GraphGrammar.Rule.Condition
import GraphGrammar.Rule.Context
import GraphGrammar.Rule.Draft
import GraphGrammar.Rule.Embedding
import GraphGrammar.Rule.Failure
import GraphGrammar.RuleOption
import GraphGrammar.RuleSet
import GraphGrammar.Serial.Design
import GraphGrammar.Serial.Document
import GraphGrammar.Serial.Graph
import GraphGrammar.Serial.Rule
import GraphGrammar.Sorting
import GraphGrammar.Text.Escaped
import GraphGrammar.Text.Printable
import GraphGrammar.Transform
