import Mim.Grammar.Expr

/-! # Files

Dependencies, then declarations to the end of the input, whatever is broken.
-/

namespace Mim

namespace Grammar

/-- Whether a dependency comes next. -/
def dependencyAhead : Parser Bool := do
  match ← peek with
  | some (.keyword .import_) | some (.keyword .plugin) => return true
  | _ => return false

def dependency : Parser Dependency := do
  let ((kind, name), span) ← located do
    let kind ← do
      if ← accept (.keyword .plugin) then pure DependencyKind.plugin
      else
        expect (.keyword .import_)
        pure DependencyKind.import_
    let name ← identifier
    expect (.symbol .semicolon)
    return (kind, name)
  return ⟨kind, name, span⟩

/-- The dependencies at the start of a file; a broken one is passed over. -/
def dependencies : Parser (List Dependency) := do
  let parts ← many do
    if ← dependencyAhead then some <$> recovering false dependency else return none
  return parts.filterMap Except.toOption

/-- A declaration and the semicolon after it. A dependency may not come so late. -/
def fileDeclaration (g : Nested) : Parser Decl := do
  if ← dependencyAhead then
    invalid "dependencies must precede all declarations" (← span)
  let d ← declaration g
  discard (accept (.symbol .semicolon))
  return d

def declarations (g : Nested) : Parser (List Decl) :=
  many do
    match ← peek with
    | none => return none
    | some _ => some <$> declarationOrError false (fileDeclaration g)

def file (g : Nested) : Parser File := do
  let ((dependencies, declarations), span) ← located do
    let dependencies ← dependencies
    return (dependencies, ← declarations g)
  return ⟨dependencies, declarations, span⟩

end Grammar

/-- Reads all that is left as a file. Each part of a file recovers from its own errors, so
    none is left to this. -/
def Reading.file (s : Reading) : File × Reading :=
  match Grammar.file s.nested s with
  | .ok file s' => (file, s')
  | .error e s' => (⟨[], [], Span.zero⟩, s'.report e)

end Mim
