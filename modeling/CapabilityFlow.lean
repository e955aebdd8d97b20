import CapabilityFlow.Main
import CapabilityFlow.Value.JsonReader
import CapabilityFlow.Proofs.Except
import CapabilityFlow.Proofs.Table
import CapabilityFlow.Proofs.Value.Pointer
import CapabilityFlow.Proofs.Schema.Grammar
import CapabilityFlow.Proofs.Schema.TypeText
import CapabilityFlow.Proofs.Schema.Unfolding
import CapabilityFlow.Proofs.Schema.Resolution
import CapabilityFlow.Proofs.Reference.Grammar
import CapabilityFlow.Proofs.Reference.Reading
import CapabilityFlow.Proofs.Coercion
import CapabilityFlow.Proofs.Workflow.Loading
import CapabilityFlow.Proofs.Check.Exclusion
import CapabilityFlow.Proofs.Check.Contracts
import CapabilityFlow.Proofs.Check.Mismatch
import CapabilityFlow.Proofs.Patch.Application
import CapabilityFlow.Proofs.Patch.Repair
import CapabilityFlow.Proofs.Patch.RoundTrip
import CapabilityFlow.Proofs.Patch.Order
import CapabilityFlow.Proofs.Workflow.Structure
import CapabilityFlow.Proofs.Patch.Wiring
import CapabilityFlow.Proofs.Patch.Visibility
import CapabilityFlow.Proofs.Schema.Satisfaction
import CapabilityFlow.Proofs.Schema.Walking
import CapabilityFlow.Proofs.Check.Paths
import CapabilityFlow.Proofs.Schema.Acceptance
import CapabilityFlow.Proofs.Reference.Rendering
import CapabilityFlow.Proofs.Patch.Labels
import CapabilityFlow.Proofs.Check.Predecessors
import CapabilityFlow.Proofs.Check.Pairs
import CapabilityFlow.Proofs.Check.Appending
import CapabilityFlow.Proofs.Schema.Comparing
import CapabilityFlow.Proofs.Schema.Remembering
import CapabilityFlow.Proofs.Ontology.Requirements
import CapabilityFlow.Proofs.Ontology.Validation
import CapabilityFlow.Proofs.Text.UnifiedDiff
import CapabilityFlow.Proofs.Check.Parallel
import CapabilityFlow.Proofs.Workflow.RoundTrip
import CapabilityFlow.Proofs.Schema.Canonical
import CapabilityFlow.Proofs.Check.Verdicts
import CapabilityFlow.Proofs.Check.Strictness
import CapabilityFlow.Proofs.Patch.Suggestions
import CapabilityFlow.Proofs.Text.CommonLines
import CapabilityFlow.Proofs.Check.Ascription
import CapabilityFlow.Proofs.Schema.Members
import CapabilityFlow.Proofs.Schema.Requiring
import CapabilityFlow.Proofs.Schema.Agreement
import CapabilityFlow.Proofs.Check.Widening
import CapabilityFlow.Proofs.Schema.Composition
import CapabilityFlow.Proofs.Schema.Loosening
import CapabilityFlow.Proofs.Registration
import CapabilityFlow.Proofs.Reference.Bindings
import CapabilityFlow.Proofs.Patch.Failure
import CapabilityFlow.Proofs.Reference.Partition
import CapabilityFlow.Proofs.Schema.Arms
import CapabilityFlow.Proofs.Schema.Stacks
import CapabilityFlow.Proofs.Check.Grounding
import CapabilityFlow.Proofs.Check.Arrangement
import CapabilityFlow.Proofs.Check.Ties
import CapabilityFlow.Proofs.Check.Redeclaration
import CapabilityFlow.Proofs.Text.Ranges
import CapabilityFlow.Proofs.Reference.Columns
