import ModuleLowering.Token.Keyword

namespace ModuleLowering

inductive Kind
  | identifier | privateIdentifier
  | string | number | regex
  | template | templateHead | templateMiddle | templateTail
  | jsxText
  | openBrace | closeBrace | openParen | closeParen | openBracket | closeBracket
  | dot | ellipsis | questionDot | semicolon | comma | colon | question
  | equals | arrow | less | lessSlash | greater | slashGreater
  | asterisk | slash | plusPlus | minusMinus | atSign | operator
  | keyword (word : Keyword)
  deriving DecidableEq

namespace Kind

def isKeyword : Kind → Bool
  | keyword _ => true
  | _ => false

def isIdentifierName : Kind → Bool
  | identifier | keyword _ => true
  | _ => false

def isLiteral : Kind → Bool
  | string | number | regex | template => true
  | _ => false

def isTemplateChunk : Kind → Bool
  | template | templateHead | templateMiddle | templateTail => true
  | _ => false

def declaresVariables : Kind → Bool
  | keyword word => word.declaresVariables
  | _ => false

def isValueKeyword : Kind → Bool
  | keyword word => word.isValue
  | _ => false

def hasRole : Kind → Bool
  | identifier | privateIdentifier => true
  | _ => false

end Kind

inductive Region
  | topLevel
  | paren | bracket
  | block
  | object
  | pattern
  | classBody
  | templateExpr
  | jsxExpr
  | jsxTag
  | jsxChildren
  deriving DecidableEq, Inhabited

namespace Region

def holdsStatements : Region → Bool
  | topLevel | block => true
  | _ => false

def isJsx : Region → Bool
  | jsxTag | jsxChildren => true
  | _ => false

end Region

inductive Role
  | reference
  | member
  | propertyKey
  | shorthand
  | methodName
  | classMember
  | modifier
  | declaration
  | label
  | jsxAttribute
  | jsxIntrinsic
  | jsxTag
  deriving DecidableEq

def Role.isValue : Role → Bool
  | .reference | .shorthand | .jsxTag => true
  | _ => false

end ModuleLowering
