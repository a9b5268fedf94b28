import Backend386.Location
import Backend386.Width
import Backend386.Types.Ref
import Backend386.I386.Register
import Backend386.Fault
import Backend386.Checked
import Backend386.Text.Invisible
import Backend386.Text.Escapes
import Backend386.I386.Operand
import Backend386.Deferred
import Backend386.Diagnostics
import Backend386.Types.Profile
import Backend386.Types.Layout
import Backend386.Types.Definition
import Backend386.Types.Info
import Backend386.Types.Table
import Backend386.Types.Query
import Backend386.Types.Check
import Backend386.Types.Cache
import Backend386.Source.Operator
import Backend386.Source.Expr
import Backend386.Source.Stmt
import Backend386.Source.Entity
import Backend386.Source.Scope
import Backend386.Source.Unit
import Backend386.Strings
import Backend386.Ir.Op
import Backend386.Ir.Expr
import Backend386.Ir.Fold
import Backend386.Ir.Function
import Backend386.Ir.Module
import Backend386.I386.Instruction
import Backend386.I386.Listing
import Backend386.Text.Json
import Backend386.Text.Json.Token
import Backend386.Text.Json.Reader
import Backend386.Text.Json.Printer
import Backend386.Text.Json.Record
import Backend386.Source.Relevant
import Backend386.Source.Reader
import Backend386.I386.Dump
import Backend386.Source.Writer
import Backend386.Types.Dump
import Backend386.Ir.Dump
import Backend386.I386.Frame
import Backend386.I386.Placement
import Backend386.I386.Code
import Backend386.I386.Generate
import Backend386.Lowering.State
import Backend386.Lowering.Expr
import Backend386.Lowering.Stmt
import Backend386.Lowering.Module
import Backend386.Text.Yaml
import Backend386.Pipeline
import Backend386.CommandLine
import Backend386.Run
import Backend386.Main
import Backend386.Proofs.Ir.Eval
import Backend386.Proofs.I386.ExprTotal
import Backend386.Proofs.I386.FunctionCode
import Backend386.Proofs.Lowering.Function
import Backend386.Proofs.Types.Containment
import Backend386.Proofs.Types.Check
import Backend386.Proofs.Faults
import Backend386.Proofs.Types.Layout
import Backend386.Proofs.Types.TypeLayout
import Backend386.Proofs.Types.Parts
import Backend386.Proofs.I386.Frame
import Backend386.Proofs.Lowering.LabelFlow
import Backend386.Proofs.Lowering.PairedLabels
import Backend386.Proofs.Source.Occurs
import Backend386.Proofs.Source.Entities
import Backend386.Proofs.Lowering.Steps
import Backend386.Proofs.Lowering.Carried
import Backend386.Proofs.Lowering.Walks
import Backend386.Proofs.Lowering.Stepwise
import Backend386.Proofs.Lowering.Runs
import Backend386.Proofs.Lowering.UnitRuns
import Backend386.Proofs.Stages
import Backend386.Proofs.VoidParts
import Backend386.Proofs.Types.Growth
import Backend386.Proofs.I386.Avoids
import Backend386.Proofs.I386.Placed
import Backend386.Proofs.I386.Symbols
import Backend386.Proofs.Lowering.Units
import Backend386.Proofs.PlacedOnce
import Backend386.Proofs.StaticValues
import Backend386.Proofs.Lowering.Accesses
import Backend386.Proofs.Lowering.Bodies
import Backend386.Proofs.AccessWidths
import Backend386.Proofs.I386.Arguments
import Backend386.Proofs.Source.Calls
import Backend386.Proofs.Lowering.FlatCode
import Backend386.Proofs.Lowering.Trails
import Backend386.Proofs.Lowering.TrailValues
import Backend386.Proofs.Lowering.TrailBodies
import Backend386.Proofs.Lowering.Rounds
import Backend386.Proofs.FlatCalls
import Backend386.Proofs.Temporaries
import Backend386.Proofs.Types.References
import Backend386.Proofs.Types.Canonical
import Backend386.Proofs.Types.TableSteps
import Backend386.Proofs.Types.Cache
import Backend386.Proofs.Types.Definitions
import Backend386.Proofs.Types.LayoutOrder
import Backend386.Proofs.I386.Jumps
import Backend386.Proofs.I386.SymbolNames
import Backend386.Proofs.SymbolsApart
import Backend386.Proofs.Places.Bare
import Backend386.Proofs.Places.Types
import Backend386.Proofs.Places.Lowering
import Backend386.Proofs.Places.Units
import Backend386.Proofs.Places.Comments
import Backend386.Proofs.Places.Code
import Backend386.Proofs.Verbosity
import Backend386.Proofs.Ir.Literals
import Backend386.Proofs.Ir.Fold
import Backend386.Proofs.Ir.Spelling
import Backend386.Proofs.Strings.Table
import Backend386.Proofs.Strings.Units
import Backend386.Proofs.Strings.References
import Backend386.Proofs.Strings.Sections
import Backend386.Proofs.LiteralsOnce
import Backend386.Proofs.Json.Scanning
import Backend386.Proofs.Json.Records
import Backend386.Proofs.Source.ReadTypes
import Backend386.Proofs.Source.ReadExprs
import Backend386.Proofs.Source.ReadStmts
import Backend386.Proofs.Source.ReadUnits
import Backend386.Proofs.Source.InputUnits
import Backend386.Proofs.Lowering.Depths
import Backend386.Proofs.FormatRoundtrip
import Backend386.Proofs.I386.Immediates
import Backend386.Proofs.Lowering.Pointers
import Backend386.Proofs.Types.Lookups
import Backend386.Proofs.Lowering.Nodes
import Backend386.Proofs.PointerIndices
import Backend386.Proofs.PointerArithmetic
import Backend386.Proofs.ObjectPaths
import Backend386.Proofs.I386.StackRuns
import Backend386.Proofs.I386.DirectAddresses
import Backend386.Proofs.Types.Circles
import Backend386.Proofs.RecursionReports
import Backend386.Proofs.Ir.Bytes
import Backend386.Proofs.Lowering.Stores
import Backend386.Proofs.ObjectCopies
import Backend386.Proofs.CharInitializers
import Backend386.Proofs.LeastLayouts
import Backend386.Proofs.Types.TypedefChains
import Backend386.Proofs.ArrayParameters
import Backend386.Proofs.Lowering.SourceEntities
import Backend386.Proofs.Source.JumpSites
import Backend386.Proofs.Lowering.JumpReports
import Backend386.Proofs.ControlErrors
import Backend386.Proofs.Source.Names
import Backend386.Proofs.UnusedVariables
import Backend386.Proofs.AssembledStrings
import Backend386.Proofs.DroppedJumps
import Backend386.Proofs.Types.Names
import Backend386.Proofs.I386.WellFormed
import Backend386.Proofs.FollowedTypedefs
