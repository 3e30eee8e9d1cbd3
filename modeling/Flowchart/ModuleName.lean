import Flowchart.Text.Basic

/-!
Names of modules: an organization and a dotted name, written with a slash between them.
-/
namespace Flowchart

/-- A module by its organization and its dotted name. -/
structure ModuleName where
  org : Text
  name : Text
deriving DecidableEq, Repr, Inhabited

namespace ModuleName

/-- Reads organization, slash and name; neither part may be empty. -/
def ofText? (text : Text) : Option ModuleName := do
  let (org, name) ← Text.cut '/' text
  if org.isEmpty || name.isEmpty then none else some ⟨org, name⟩

/-- The name that source text uses for the module: the last part of the dotted name. -/
def qualifier (module : ModuleName) : Text := Text.afterLast '.' module.name

/-- The modules of the language library need no import. -/
def isLangLib (module : ModuleName) : Bool :=
  module.org = "ballerina" && List.isPrefixOf "lang." module.name

def toText (module : ModuleName) : Text := module.org ++ "/" ++ module.name

end ModuleName

end Flowchart
