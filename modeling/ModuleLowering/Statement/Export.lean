import ModuleLowering.Statement.Name
import ModuleLowering.Statement.Declarator

namespace ModuleLowering

open Text

structure ExportSpecifier where
  source : ModuleName
  exported : ModuleName
  deriving DecidableEq

inductive DeclarationForm
  | function
  | classBody
  deriving DecidableEq

inductive ExportStatement
  | defaultExpression (keywords : Span)
  | defaultNamed (keywords : Span) (name : String) (bodyEnd : Nat)
  | defaultAnonymous (keywords : Span) (bodyEnd : Nat)
  | variableList (keyword : Span) (declarators : List Declarator) (stop : Nat)
  | declaration (form : DeclarationForm) (keyword : Span) (name : String) (bodyEnd : Nat)
  | names (span : Span) (specifiers : List ExportSpecifier)
  | namesFrom (span : Span) (specifiers : List ExportSpecifier) (specifier : Specifier)
  deriving DecidableEq

inductive ExportKind
  | defaultExpression
  | defaultNamed
  | variableName
  | declaration (form : DeclarationForm)
  | ownName (name : String)
  | nameFrom (specifier name : String)
  deriving DecidableEq

structure ExportEntry where
  name : String
  kind : ExportKind
  deriving DecidableEq

namespace ExportStatement

def declaredNames : ExportStatement → List String
  | defaultNamed _ name _ => [name]
  | variableList _ declarators _ => declarators.flatMap (·.names)
  | declaration _ _ name _ => [name]
  | _ => []

def consumedSpan : ExportStatement → Option Span
  | names span _ => some span
  | namesFrom span _ _ => some span
  | _ => none

def entries : ExportStatement → List ExportEntry
  | defaultExpression _ => [⟨"default", .defaultExpression⟩]
  | defaultAnonymous _ _ => [⟨"default", .defaultExpression⟩]
  | defaultNamed _ _ _ => [⟨"default", .defaultNamed⟩]
  | variableList _ declarators _ => (declarators.flatMap (·.names)).map (⟨·, .variableName⟩)
  | declaration form _ name _ => [⟨name, .declaration form⟩]
  | names _ specifiers => specifiers.map fun s => ⟨s.exported.value, .ownName s.source.value⟩
  | namesFrom _ specifiers specifier =>
    specifiers.map fun s => ⟨s.exported.value, .nameFrom specifier.value s.source.value⟩

end ExportStatement

end ModuleLowering
