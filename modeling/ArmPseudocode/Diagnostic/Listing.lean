import ArmPseudocode.Diagnostic.Queue

/-!
# Listings of diagnostics

One line for each diagnostic, with the name of the source and the number of the line in front, and
its notes on lines of their own behind a tab.
-/

namespace ArmPseudocode

namespace LocatedDiagnostic

/-- The diagnostic as `source:line: message`. -/
def render (source : String) (d : LocatedDiagnostic) : String :=
  source ++ ":" ++ toString d.line ++ ": " ++ d.diagnostic.message

/-- The rendered diagnostic and its notes, each line ended. -/
def listing (source : String) (d : LocatedDiagnostic) : String :=
  let notes := d.diagnostic.notes.map fun note => "\tnote: " ++ note ++ "\n"
  d.render source ++ "\n" ++ String.join notes

end LocatedDiagnostic

def Diagnostic.listAll (source : String) (ds : List LocatedDiagnostic) : String :=
  String.join (ds.map (·.listing source))

end ArmPseudocode
