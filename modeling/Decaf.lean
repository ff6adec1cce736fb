import Decaf.Language.Equality
import Decaf.Language.Outline
import Decaf.IR.Text
import Decaf.IR.History
import Decaf.Compile.Program
import Decaf.Execution.Moment
import Decaf.Proofs.Generation.Outcome
import Decaf.Proofs.Generation.Body
import Decaf.Proofs.Generation.Edit
import Decaf.Proofs.Generation.Commands
import Decaf.Proofs.Generation.Growth
import Decaf.Proofs.Generation.Site
import Decaf.Proofs.Typing.Rules
import Decaf.Proofs.Generation.Operands
import Decaf.Proofs.Generation.Expressions
import Decaf.Proofs.Generation.Branches
import Decaf.Proofs.Generation.Statements
import Decaf.Proofs.Generation.ControlFlow
import Decaf.Proofs.Generation.Checking
import Decaf.Proofs.Generation.Separation
import Decaf.Proofs.Generation.Methods
import Decaf.Proofs.Generation.Declarations
import Decaf.Proofs.Generation.Programs
import Decaf.Proofs.Generation.Grounding
import Decaf.Proofs.Generation.Soundness
import Decaf.Proofs.Execution.Regions
import Decaf.Proofs.Execution.Frames
import Decaf.Proofs.Execution.Instructions
import Decaf.Proofs.Execution.Control
import Decaf.Proofs.Execution.Safety
import Decaf.Proofs.Execution.Runs
import Decaf.Proofs.Execution.Compiled
import Decaf.Proofs.Execution.WellTyped
import Decaf.Proofs.Building.Effects
import Decaf.Proofs.Building.Ownership
import Decaf.Proofs.Building.Records
import Decaf.Proofs.Building.Verified
import Decaf.Proofs.Building.Locality
import Decaf.Proofs.Building.Drops
import Decaf.Proofs.Building.Arenas
import Decaf.Proofs.Building.Coherence
import Decaf.Proofs.Execution.Actions
import Decaf.Proofs.Execution.Confinement
import Decaf.Proofs.Execution.Preservation
import Decaf.Proofs.Generation.Incremental
import Decaf.Proofs.Generation.Shape
import Decaf.Proofs.Generation.Settling
import Decaf.Proofs.Generation.ExpressionShapes
import Decaf.Proofs.Generation.StatementShapes
import Decaf.Proofs.Generation.DeclarationShapes
import Decaf.Proofs.Generation.ControlShapes
import Decaf.Proofs.Generation.ProgramShapes
import Decaf.Proofs.Meaning.Evaluation
import Decaf.Proofs.Execution.Exchanges
import Decaf.Proofs.Generation.Policies
import Decaf.Proofs.Generation.DeadCode
import Decaf.Proofs.Building.Closing
import Decaf.Proofs.Generation.Acceptance
import Decaf.Proofs.Execution.Advances
import Decaf.Proofs.Execution.Replies
import Decaf.Proofs.Execution.Strings
import Decaf.Proofs.Execution.Texts
import Decaf.Proofs.Meaning.Activation
import Decaf.Proofs.Meaning.Assignments
import Decaf.Proofs.Meaning.Calls
import Decaf.Proofs.Meaning.Runs
import Decaf.Proofs.Meaning.Sessions
import Decaf.Proofs.Execution.Nesting
import Decaf.Proofs.Execution.Halting
import Decaf.Proofs.Execution.Allotment
import Decaf.Proofs.Execution.Residue
import Decaf.Proofs.Execution.Budgets
import Decaf.Proofs.Execution.LargerLimits
import Decaf.Proofs.Generation.Reserving
import Decaf.Proofs.Generation.Reservations
import Decaf.Proofs.Execution.Faults
import Decaf.Proofs.Execution.Prologues
import Decaf.Proofs.Execution.Occupancy
import Decaf.Proofs.Language.Relators
import Decaf.Proofs.Language.Likeness
import Decaf.Proofs.Generation.Relating
import Decaf.Proofs.Generation.Parallels
import Decaf.Proofs.Generation.Spelling
import Decaf.Proofs.Generation.Conservation
import Decaf.Proofs.Generation.Literals
import Decaf.Proofs.Generation.StringTables
import Decaf.Proofs.Generation.Transcripts
import Decaf.Proofs.Execution.Hearing
import Decaf.Proofs.Generation.Displacement
import Decaf.Proofs.Generation.DisplacedChecks
import Decaf.Proofs.Building.Naming
import Decaf.Proofs.Generation.Interiors
import Decaf.Proofs.Generation.Mentions
import Decaf.Proofs.Generation.DisplacedTexts
import Decaf.Proofs.Generation.MethodStarts
import Decaf.Proofs.Generation.Stages
import Decaf.Proofs.Generation.MethodOrder
import Decaf.Proofs.Generation.MethodTexts
import Decaf.Proofs.Generation.Reordering
import Decaf.Proofs.Building.LocalNames
import Decaf.Proofs.Execution.Edges
import Decaf.Proofs.Generation.Warnings
import Decaf.Proofs.Language.Outlines
import Decaf.Proofs.Language.Unambiguous
import Decaf.Proofs.Language.Numerals
import Decaf.Proofs.Execution.Division
import Decaf.Proofs.Building.Symbols
import Decaf.Proofs.Generation.SourceNames
import Decaf.Proofs.Generation.ScopeHistories
import Decaf.Proofs.Generation.Restoration
import Decaf.Proofs.Language.Quotations
import Decaf.Proofs.Building.NameHistories
import Decaf.Proofs.Building.Initializers
