import ModuleLowering.Text.Bytes
import ModuleLowering.Text.Span
import ModuleLowering.Text.Position
import ModuleLowering.Text.Numeric
import ModuleLowering.Text.CharClass
import ModuleLowering.Token.Basic
import ModuleLowering.Lexeme.Gap
import ModuleLowering.Lexeme.Literal
import ModuleLowering.Lexeme.Name
import ModuleLowering.Lexeme.Punctuator
import ModuleLowering.Role.Binding
import ModuleLowering.Statement.Declarator
import ModuleLowering.Statement.Fault
import ModuleLowering.Statement.Import
import ModuleLowering.Statement.ExportSyntax
import ModuleLowering.SourceModule.Basic
import ModuleLowering.Lowering.Basic
import ModuleLowering.Json.Schema
import ModuleLowering.Command.LogFormat
import ModuleLowering.Command.Run
import ModuleLowering.Main
import ModuleLowering.Proofs.SourceModule.Found
import ModuleLowering.Proofs.Lowering.Edits
import ModuleLowering.Proofs.Lowering.Allocation
import ModuleLowering.Proofs.Lowering.Requires
import ModuleLowering.Proofs.Scan.Braces
import ModuleLowering.Proofs.Role.Groups
import ModuleLowering.Proofs.Lowering.Guard
import ModuleLowering.Proofs.Lowering.Hygiene
import ModuleLowering.Proofs.Lowering.OneLine
import ModuleLowering.Proofs.Text.Lines
import ModuleLowering.Proofs.Lowering.LineNumbers
import ModuleLowering.Proofs.Role.Safety
import ModuleLowering.Proofs.Lowering.Bodies
import ModuleLowering.Proofs.Lowering.Neighbours
import ModuleLowering.Proofs.Lowering.Phases
import ModuleLowering.Proofs.Lowering.Located
import ModuleLowering.Proofs.Lowering.Targets
import ModuleLowering.Proofs.Lowering.Appended
import ModuleLowering.Proofs.Command.Accounts
import ModuleLowering.Proofs.Statement.Grammar
import ModuleLowering.Proofs.Statement.StringLiteral
import ModuleLowering.Proofs.Scan.ClassBodies
import ModuleLowering.Proofs.Role.Declared
import ModuleLowering.Proofs.Statement.PatternNames
import ModuleLowering.Proofs.Text.Arrangement
import ModuleLowering.Proofs.SourceModule.Table
import ModuleLowering.Proofs.Lowering.Exported
import ModuleLowering.Proofs.Text.Locations
import ModuleLowering.Proofs.Role.Separators
import ModuleLowering.Proofs.Scan.LineBreaks
import ModuleLowering.Proofs.Scan.Fillers
import ModuleLowering.Proofs.Role.Confinement
import ModuleLowering.Proofs.Scan.Markup
import ModuleLowering.Proofs.Lowering.LineTexts
import ModuleLowering.Proofs.Widths
