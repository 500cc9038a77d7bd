import ModuleLowering.Lexeme.Failure
import ModuleLowering.Text.Position

namespace ModuleLowering

open Text

inductive ImportFault
  | expectedAs
  | expectedNamespaceName
  | expectedClause
  | expectedFrom
  | expectedSpecifier
  | expectedName
  | expectedSeparator
  | needsLocalName (name : String)
  | importedTwice (name : String)
  deriving DecidableEq

def ImportFault.detail : ImportFault → String
  | expectedAs => "expected 'as' after '*'"
  | expectedNamespaceName => "expected a namespace binding"
  | expectedClause => "expected '*' or '\x7b'"
  | expectedFrom => "expected 'from'"
  | expectedSpecifier => "expected a module specifier string"
  | expectedName => "expected an import name"
  | expectedSeparator => "expected ',' or '\x7d'"
  | needsLocalName name => "'" ++ name ++ "' needs a local binding name"
  | importedTwice name => "'" ++ name ++ "' is imported more than once"

inductive ExportFault
  | endOfInput
  | expectedDeclaration
  | expectedVariables
  | expectedExpression
  | expectedParameters
  | expectedFunctionBody
  | unclosedFunctionBody
  | functionNeedsName
  | expectedClassBody
  | unclosedClassBody
  | classNeedsName
  | expectedName
  | expectedNameAfterAs
  | expectedSeparator
  | expectedSpecifier
  | notLocal (name : String)
  | noBinding (quoted : String)
  deriving DecidableEq

def ExportFault.detail : ExportFault → String
  | endOfInput => "unexpected end of input after 'export'"
  | expectedDeclaration => "expected a declaration, 'default', '\x7b' or '*' after 'export'"
  | expectedVariables => "expected a variable declaration"
  | expectedExpression => "expected an expression after 'export default'"
  | expectedParameters => "expected '(' in function declaration"
  | expectedFunctionBody => "expected a function body"
  | unclosedFunctionBody => "unclosed function body"
  | functionNeedsName => "exported function needs a name"
  | expectedClassBody => "expected a class body"
  | unclosedClassBody => "unclosed class body"
  | classNeedsName => "exported class needs a name"
  | expectedName => "expected an export name"
  | expectedNameAfterAs => "expected a name after 'as'"
  | expectedSeparator => "expected ',' or '\x7d'"
  | expectedSpecifier => "expected a module specifier string"
  | notLocal name => "'" ++ name ++ "' is not a local binding; did you mean to add 'from'?"
  | noBinding quoted => "no binding for re-exported " ++ quoted

inductive Unsupported
  | exportAll
  | exportAllAs
  | stringNamedTag
  deriving DecidableEq

def Unsupported.detail : Unsupported → String
  | exportAll => "`export * from` re-exports"
  | exportAllAs => "`export * as ns from` re-exports"
  | stringNamedTag => "JSX tag naming a string-named import"

inductive Problem
  | lexical (fault : LexicalFault)
  | malformedImport (fault : ImportFault)
  | malformedExport (fault : ExportFault)
  | unsupported (what : Unsupported)
  deriving DecidableEq

inductive Problem.Class
  | lexical | malformedImport | malformedExport | unsupported
  deriving DecidableEq

def Problem.Class.message : Problem.Class → String → String
  | lexical, detail => detail
  | malformedImport, detail => "malformed import: " ++ detail
  | malformedExport, detail => "malformed export: " ++ detail
  | unsupported, detail => "unsupported: " ++ detail

def Problem.toClass : Problem → Problem.Class
  | lexical _ => .lexical
  | malformedImport _ => .malformedImport
  | malformedExport _ => .malformedExport
  | unsupported _ => .unsupported

def Problem.detail : Problem → String
  | lexical fault => fault.message
  | malformedImport fault => fault.detail
  | malformedExport fault => fault.detail
  | unsupported what => what.detail

def Problem.message (p : Problem) : String := p.toClass.message p.detail

structure Diagnostic where
  problem : Problem
  offset : Nat
  deriving DecidableEq

namespace Diagnostic

def ofScan (e : ScanError) : Diagnostic := ⟨.lexical e.fault, e.offset⟩

def render (d : Diagnostic) : String := atOffset d.problem.message d.offset

end Diagnostic

structure LocatedDiagnostic extends Diagnostic where
  location : Location
  deriving DecidableEq

def Diagnostic.locate (source : List Char) (d : Diagnostic) : LocatedDiagnostic :=
  ⟨d, Text.location source d.offset⟩

def LocatedDiagnostic.render (d : LocatedDiagnostic) : String :=
  d.location.render ++ ": " ++ d.problem.message

def refuseImport {α : Type} (fault : ImportFault) (offset : Nat) : Except Diagnostic α :=
  .error ⟨.malformedImport fault, offset⟩

def refuseExport {α : Type} (fault : ExportFault) (offset : Nat) : Except Diagnostic α :=
  .error ⟨.malformedExport fault, offset⟩

end ModuleLowering
