/-! # Tie-break rules

The named rules that decide where a text could be read in two ways.
-/

namespace Mim

inductive TieBreak where
  /-- A bare identifier where both kinds of binder may stand is a pattern. -/
  | patternOverBattern
  /-- A run of identifiers before a colon is a group, not an application. -/
  | groupOverBatternType
  /-- A colon after a bare identifier belongs to the form around it. -/
  | typeToEnclosingForm
  /-- A type after a literal belongs to the literal only. -/
  | typeToLiteral
  /-- A filter sign after a domain that is only a type begins a filter. -/
  | filterOverExplicitApplication
  /-- A parenthesis after an annex in an expression begins an argument. -/
  | annexArgumentOverSubtags
  /-- A declaration keyword begins no argument. -/
  | declarationEndsApplication
  /-- A numeral before a member is an integer. -/
  | integerBeforeMember
  deriving DecidableEq

namespace TieBreak

def all : List TieBreak :=
  [.patternOverBattern, .groupOverBatternType, .typeToEnclosingForm, .typeToLiteral,
    .filterOverExplicitApplication, .annexArgumentOverSubtags, .declarationEndsApplication,
    .integerBeforeMember]

def name : TieBreak → String
  | .patternOverBattern => "pattern-over-battern"
  | .groupOverBatternType => "group-over-battern-type"
  | .typeToEnclosingForm => "codomain-over-domain-annotation"
  | .typeToLiteral => "literal-annotation"
  | .filterOverExplicitApplication => "filter-over-explicit-application"
  | .annexArgumentOverSubtags => "annex-argument-over-subtags"
  | .declarationEndsApplication => "declaration-ends-application"
  | .integerBeforeMember => "integer-before-member"

def description : TieBreak → String
  | .patternOverBattern => "identifier binder read as a pattern"
  | .groupOverBatternType => "identifier run read as a binder group"
  | .typeToEnclosingForm =>
    "type annotation belongs to the enclosing form, not the identifier"
  | .typeToLiteral => "type annotation applies to the literal only"
  | .filterOverExplicitApplication => "'@' read as a filter"
  | .annexArgumentOverSubtags => "parenthesized group after an annex read as an argument"
  | .declarationEndsApplication => "declaration keyword ends the application"
  | .integerBeforeMember => "numeral before '.' read as an integer"

/-- The rule as a message shows it. -/
def text (rule : TieBreak) : String := rule.description ++ " (" ++ rule.name ++ ")"

end TieBreak

end Mim
