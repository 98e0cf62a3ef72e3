import Subsumption.Formula.Evaluation
import Subsumption.Formula.Interchange
import Subsumption.Formula.NormalForm
import Subsumption.Formula.OpenBranches
import Subsumption.Formula.Text
import Subsumption.Taxonomy.Diagram
import Subsumption.Taxonomy.Inference
import Subsumption.Taxonomy.Lemmas
import Subsumption.Taxonomy.Record
import Subsumption.Random.FormulaSource
import Subsumption.Proofs.Branch.Containment
import Subsumption.Proofs.Branch.Merge
import Subsumption.Proofs.Branch.Product
import Subsumption.Proofs.Formula.TableauExactness
import Subsumption.Proofs.Formula.DnfPacking
import Subsumption.Proofs.Formula.CanonicalDnf
import Subsumption.Proofs.Formula.Unwrapping
import Subsumption.Proofs.Formula.LosslessPacking
import Subsumption.Proofs.Formula.DnfValue
import Subsumption.Proofs.Formula.OpenTerms
import Subsumption.Proofs.Formula.StrongKleene
import Subsumption.Proofs.Formula.Satisfiability
import Subsumption.Proofs.Formula.Rewriting
import Subsumption.Proofs.Formula.NegationNormalForm
import Subsumption.Proofs.Formula.Polarity
import Subsumption.Proofs.Formula.Flattening
import Subsumption.Proofs.Formula.OperandOrder
import Subsumption.Proofs.Formula.Choices
import Subsumption.Proofs.SelfDelimiting
import Subsumption.Proofs.Formula.Readability
import Subsumption.Proofs.Json.Quoting
import Subsumption.Proofs.Json.Spelling
import Subsumption.Proofs.Json.RoundTrip
import Subsumption.Proofs.Formula.JsonForm
import Subsumption.Proofs.Taxonomy.Change
import Subsumption.Proofs.Taxonomy.Consistency
import Subsumption.Proofs.Taxonomy.Closure
import Subsumption.Proofs.Taxonomy.Hierarchy
import Subsumption.Proofs.Taxonomy.EdgeLists
import Subsumption.Proofs.Taxonomy.RecordFaults
import Subsumption.Proofs.Taxonomy.Refinement
import Subsumption.Proofs.Taxonomy.Acyclicity
import Subsumption.Proofs.Taxonomy.RecordReading
import Subsumption.Proofs.Taxonomy.Persistence
import Subsumption.Proofs.Taxonomy.Forcing
import Subsumption.Proofs.Taxonomy.InferenceSoundness
import Subsumption.Proofs.Taxonomy.InferenceCompleteness
import Subsumption.Proofs.Taxonomy.Entailment
import Subsumption.Proofs.Taxonomy.InferenceResult
import Subsumption.Proofs.Taxonomy.SearchRuns
import Subsumption.Proofs.Diagram.Cycles
import Subsumption.Proofs.Diagram.DotText
import Subsumption.Proofs.Taxonomy.Views
import Subsumption.Proofs.Taxonomy.EdgeOrder
import Subsumption.Proofs.Taxonomy.DotExport
import Subsumption.Proofs.Taxonomy.AdditionOrder
import Subsumption.Proofs.Taxonomy.NewEdge
import Subsumption.Proofs.Random.Period
import Subsumption.Proofs.Random.Streams
import Subsumption.Proofs.Random.FormulaBounds
