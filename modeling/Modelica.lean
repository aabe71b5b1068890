import Modelica.Builder
import Modelica.Construct
import Modelica.Diagnostic
import Modelica.Diagnostic.Code
import Modelica.Diagnostic.Context
import Modelica.Field
import Modelica.Fragment
import Modelica.Grammar.Block
import Modelica.Grammar.Class
import Modelica.Grammar.Element
import Modelica.Grammar.Equation
import Modelica.Grammar.Expression
import Modelica.Grammar.Modification
import Modelica.Grammar.Name
import Modelica.Grammar.Rules
import Modelica.Kind
import Modelica.Kind.Spelling
import Modelica.Kind.Supertype
import Modelica.Located
import Modelica.Lookahead
import Modelica.Lookup
import Modelica.Number.Binary64
import Modelica.Number.Literal
import Modelica.Operator
import Modelica.Outline
import Modelica.Parse
import Modelica.Position
import Modelica.Production
import Modelica.Proofs.Acceptance
import Modelica.Proofs.Advance
import Modelica.Proofs.Agreement
import Modelica.Proofs.Attachment
import Modelica.Proofs.Balance
import Modelica.Proofs.Bearing
import Modelica.Proofs.BlockEnds
import Modelica.Proofs.Blocks
import Modelica.Proofs.BodyParts
import Modelica.Proofs.Brackets
import Modelica.Proofs.Builder
import Modelica.Proofs.Building
import Modelica.Proofs.Builds
import Modelica.Proofs.Checks
import Modelica.Proofs.ClassParts
import Modelica.Proofs.Classes
import Modelica.Proofs.Classes.Bodies
import Modelica.Proofs.Columns
import Modelica.Proofs.Comparisons
import Modelica.Proofs.Conformity
import Modelica.Proofs.Contents
import Modelica.Proofs.Contracts
import Modelica.Proofs.Contracts.Blocks
import Modelica.Proofs.Contracts.Classes
import Modelica.Proofs.Contracts.Elements
import Modelica.Proofs.Contracts.Expressions
import Modelica.Proofs.Delimiters
import Modelica.Proofs.Demands
import Modelica.Proofs.Derived
import Modelica.Proofs.Elements
import Modelica.Proofs.Enclosures
import Modelica.Proofs.Endings
import Modelica.Proofs.Ends
import Modelica.Proofs.Equations
import Modelica.Proofs.Exactness
import Modelica.Proofs.ExpressionParts
import Modelica.Proofs.Expressions
import Modelica.Proofs.Expressions.Primary
import Modelica.Proofs.Fates
import Modelica.Proofs.Fields
import Modelica.Proofs.Findings
import Modelica.Proofs.Follows
import Modelica.Proofs.Form
import Modelica.Proofs.Groups
import Modelica.Proofs.InPlace
import Modelica.Proofs.Joints
import Modelica.Proofs.Ladder
import Modelica.Proofs.Layers
import Modelica.Proofs.Lexemes
import Modelica.Proofs.Lines
import Modelica.Proofs.Literals
import Modelica.Proofs.Lossless
import Modelica.Proofs.MaximalMunch
import Modelica.Proofs.MissingEnds
import Modelica.Proofs.Modifications
import Modelica.Proofs.Moments
import Modelica.Proofs.Nesting
import Modelica.Proofs.Offsets
import Modelica.Proofs.Onward
import Modelica.Proofs.Operators
import Modelica.Proofs.Orderly
import Modelica.Proofs.Orphans
import Modelica.Proofs.Overflow
import Modelica.Proofs.Owners
import Modelica.Proofs.Paired
import Modelica.Proofs.Parts
import Modelica.Proofs.Perches
import Modelica.Proofs.Places
import Modelica.Proofs.Progress
import Modelica.Proofs.Raising
import Modelica.Proofs.Ranges
import Modelica.Proofs.Reads
import Modelica.Proofs.Reads.Choices
import Modelica.Proofs.Reads.Dispatch
import Modelica.Proofs.Reads.Does
import Modelica.Proofs.Reads.Repetitions
import Modelica.Proofs.Recovered
import Modelica.Proofs.Refusals
import Modelica.Proofs.Remains
import Modelica.Proofs.Resolution
import Modelica.Proofs.Resolver
import Modelica.Proofs.Roots
import Modelica.Proofs.RuleRoutines
import Modelica.Proofs.RuleRoutines.Blocks
import Modelica.Proofs.RuleRoutines.Expressions
import Modelica.Proofs.Run
import Modelica.Proofs.Scanners
import Modelica.Proofs.Seats
import Modelica.Proofs.Setting
import Modelica.Proofs.Shape
import Modelica.Proofs.Shaped
import Modelica.Proofs.Sheltered
import Modelica.Proofs.Singles
import Modelica.Proofs.Slots
import Modelica.Proofs.Snug
import Modelica.Proofs.Starts
import Modelica.Proofs.Termination
import Modelica.Proofs.Tokens
import Modelica.Proofs.Trivia
import Modelica.Proofs.Truthful
import Modelica.Proofs.TwinRules
import Modelica.Proofs.Twins
import Modelica.Proofs.ValidPrefix
import Modelica.Proofs.Views
import Modelica.Proofs.Walks
import Modelica.Proofs.Weaving
import Modelica.Proofs.WholeText
import Modelica.Proofs.YieldRules
import Modelica.Proofs.YieldRules.Blocks
import Modelica.Proofs.YieldRules.Classes
import Modelica.Proofs.YieldRules.Elements
import Modelica.Proofs.YieldRules.Expressions
import Modelica.Proofs.Yields
import Modelica.Routine
import Modelica.Routine.Block
import Modelica.Routine.Class
import Modelica.Routine.Element
import Modelica.Routine.Equation
import Modelica.Routine.Expression
import Modelica.Routine.Modification
import Modelica.Routine.Rules
import Modelica.Schema.Assign
import Modelica.Schema.Slot
import Modelica.Schema.Standard
import Modelica.Text.Quoted
import Modelica.Text.Visible
import Modelica.Token
import Modelica.Token.Pattern
import Modelica.Token.Scan
import Modelica.Tree
import Modelica.Tree.Weave
import Modelica.View.Basic
import Modelica.View.Class
import Modelica.View.Element
import Modelica.View.Equation
import Modelica.View.Expression
import Modelica.View.Kinds
import Modelica.View.Literal
import Modelica.View.Modification
import Modelica.View.Name
import Modelica.View.Statement
