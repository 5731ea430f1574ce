import ObjectIr.Code.Body
import ObjectIr.Code.Draft
import ObjectIr.Code.Flags
import ObjectIr.Code.Instr
import ObjectIr.Code.Listing
import ObjectIr.Code.Operand
import ObjectIr.Code.StaticScope
import ObjectIr.Code.Temp
import ObjectIr.Code.Variable
import ObjectIr.CommandLine
import ObjectIr.Decimal.Notation
import ObjectIr.Decimal.Shortest
import ObjectIr.Demo.Programs
import ObjectIr.Demo.Tour
import ObjectIr.Double
import ObjectIr.Heap.Basic
import ObjectIr.Heap.Definition
import ObjectIr.Heap.Lemmas
import ObjectIr.Heap.Lookup
import ObjectIr.Machine.Activation
import ObjectIr.Machine.Context
import ObjectIr.Machine.Dispatch
import ObjectIr.Machine.Execution
import ObjectIr.Machine.Reading
import ObjectIr.Machine.Run
import ObjectIr.Machine.Temps
import ObjectIr.Main
import ObjectIr.Object.Core
import ObjectIr.Object.Failure
import ObjectIr.Object.Module
import ObjectIr.Object.Scope
import ObjectIr.Object.Value
import ObjectIr.Pass.CopyPropagation
import ObjectIr.Pass.Nested
import ObjectIr.Pass.Renaming
import ObjectIr.Pass.Substitution
import ObjectIr.Text.Invisible
import ObjectIr.Text.Layout
import ObjectIr.Text.Quoted
import ObjectIr.Proofs.Content.Heap
import ObjectIr.Proofs.Content.Dispatch
import ObjectIr.Proofs.Dispatching
import ObjectIr.Proofs.Effects
import ObjectIr.Proofs.Raising
import ObjectIr.Proofs.Invariants
import ObjectIr.Proofs.Primitives
import ObjectIr.Proofs.Simulation
import ObjectIr.Proofs.Substitution
import ObjectIr.Proofs.CopyPropagation.Tracking
import ObjectIr.Proofs.CopyPropagation.Instructions
import ObjectIr.Proofs.Drafts
import ObjectIr.Proofs.Acceptance
import ObjectIr.Proofs.CopyPropagation.Known
import ObjectIr.Proofs.CopyPropagation.Meaning
import ObjectIr.Proofs.CopyPropagation.Fixpoint
import ObjectIr.Proofs.CopyPropagation.Truthful
import ObjectIr.Proofs.Vetting.Reach
import ObjectIr.Proofs.Vetting.Steps
import ObjectIr.Proofs.Balance
import ObjectIr.Proofs.Sessions.History
import ObjectIr.Proofs.Sessions.Truth
import ObjectIr.Proofs.Sessions.Moves
import ObjectIr.Proofs.NonlocalReturn
import ObjectIr.Proofs.LexicalAddressing
import ObjectIr.Proofs.Correspondence.Code
import ObjectIr.Proofs.Correspondence.Execution
import ObjectIr.Proofs.Correspondence.Equal
import ObjectIr.Proofs.Validation
import ObjectIr.Proofs.Inlining.Numbering
import ObjectIr.Proofs.Inlining.Copying
import ObjectIr.Proofs.Inlining.Inset
import ObjectIr.Proofs.Inlining.Splice
import ObjectIr.Proofs.Inlining.Handover
import ObjectIr.Proofs.Surroundings.Sessions
import ObjectIr.Proofs.Surroundings.Accord
import ObjectIr.Proofs.ModuleBodies
import ObjectIr.Proofs.Reflagging.Calls
import ObjectIr.Proofs.Reflagging.Dialogues
import ObjectIr.Proofs.Reflagging.Scopes
import ObjectIr.Proofs.DepthLimit
import ObjectIr.Proofs.Definitions
import ObjectIr.Proofs.ScopeModules
import ObjectIr.Proofs.Termination
import ObjectIr.Proofs.Owners
import ObjectIr.Proofs.DefinitionSteps
import ObjectIr.Proofs.Chronicle
import ObjectIr.Proofs.Population.Chronicles
import ObjectIr.Proofs.ClassHierarchy
import ObjectIr.Proofs.SingletonClasses
import ObjectIr.Proofs.ShownCode
import ObjectIr.Proofs.MethodLookup
import ObjectIr.Proofs.ConstantSearch
import ObjectIr.Proofs.Visibility
import ObjectIr.Proofs.Sharing.Optimized
import ObjectIr.Proofs.NameResolution
import ObjectIr.Proofs.UsedTemporaries
import ObjectIr.Proofs.Population.Allotted
import ObjectIr.Proofs.Independence
import ObjectIr.Proofs.Tours.Limits
import ObjectIr.Proofs.Tours.Workers
import ObjectIr.Proofs.Tours.Endings
import ObjectIr.Proofs.CommandLine
import ObjectIr.Proofs.ScopeForests
