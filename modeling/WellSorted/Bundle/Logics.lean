/-!
# Bundled logics

The texts of the logics that belong to every setup.
-/

namespace WellSorted.Bundle

/-- Linear arithmetic over integers and reals, with arrays and quantifiers. -/
def auflira : String :=
  "(logic AUFLIRA
 :smt-lib-version 2.6
 :theories (Core ArraysEx Reals_Ints)
 :language \"Closed formulas built over the signatures of the listed theories.\"
)
"

/-- Linear integer arithmetic with quantifiers. -/
def lia : String :=
  "(logic LIA
 :smt-lib-version 2.6
 :theories (Core Ints)
 :language \"Closed formulas built over the signatures of the listed theories.\"
)
"

/-- Linear integer arithmetic with arrays. -/
def qfAuflia : String :=
  "(logic QF_AUFLIA
 :smt-lib-version 2.6
 :theories (Core ArraysEx Ints)
 :language \"Closed formulas built over the signatures of the listed theories.\"
)
"

/-- Arrays. -/
def qfAx : String :=
  "(logic QF_AX
 :smt-lib-version 2.6
 :theories (Core ArraysEx)
 :language \"Closed formulas built over the signatures of the listed theories.\"
)
"

/-- Linear integer arithmetic. -/
def qfLia : String :=
  "(logic QF_LIA
 :smt-lib-version 2.6
 :theories (Core Ints)
 :language \"Closed formulas built over the signatures of the listed theories.\"
)
"

/-- Uninterpreted functions. -/
def qfUf : String :=
  "(logic QF_UF
 :smt-lib-version 2.6
 :theories (Core)
 :language \"Closed formulas built over the signatures of the listed theories.\"
)
"

/-- The logics by name. -/
def logics : List (String × String) :=
  [("AUFLIRA", auflira), ("LIA", lia), ("QF_AUFLIA", qfAuflia), ("QF_AX", qfAx),
    ("QF_LIA", qfLia), ("QF_UF", qfUf)]

end WellSorted.Bundle
