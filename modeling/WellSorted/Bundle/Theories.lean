/-!
# Bundled theories

The texts of the theories that belong to every setup.
-/

namespace WellSorted.Bundle

/-- Arrays with extensionality. -/
def arraysEx : String :=
  "(theory ArraysEx
 :smt-lib-version 2.6
 :written-by \"Cesare Tinelli\"
 :date \"2010-04-28\"

 :sorts ((Array 2))

 :funs ((par (X Y) (select (Array X Y) X Y))
        (par (X Y) (store (Array X Y) X Y (Array X Y))))

 :notes \"The sort (Array X Y) denotes functions from X to Y, with extensionality.\"
)
"

/-- The core theory, of truth values and equality. -/
def core : String :=
  "; The core theory: Booleans and the polymorphic equality, distinctness and if-then-else
(theory Core
 :smt-lib-version 2.6
 :written-by \"Cesare Tinelli\"
 :date \"2010-04-17\"
 :last-updated \"2015-04-25\"

 :sorts ((Bool 0))

 :funs ((true Bool)
        (false Bool)
        (not Bool Bool)
        (=> Bool Bool Bool :right-assoc)
        (and Bool Bool Bool :left-assoc)
        (or Bool Bool Bool :left-assoc)
        (xor Bool Bool Bool :left-assoc)
        (par (A) (= A A Bool :chainable))
        (par (A) (distinct A A Bool :pairwise))
        (par (A) (ite Bool A A A)))

 :definition
 \"For every expanded signature Sigma, the instance of Core with that signature is the theory
 consisting of all Sigma-models in which the sort Bool denotes the set \x7btrue, false\x7d of Boolean
 values.\"

 :values \"The set of values for the sort Bool is \x7btrue, false\x7d.\"
)
"

/-- The integers. -/
def ints : String :=
  "(theory Ints
 :smt-lib-version 2.6
 :written-by \"Cesare Tinelli\"
 :date \"2010-04-17\"

 :sorts ((Int 0))

 :funs ((NUMERAL Int)
        (- Int Int)
        (- Int Int Int :left-assoc)
        (+ Int Int Int :left-assoc)
        (* Int Int Int :left-assoc)
        (div Int Int Int :left-assoc)
        (mod Int Int Int)
        (abs Int Int)
        (<= Int Int Bool :chainable)
        (< Int Int Bool :chainable)
        (>= Int Int Bool :chainable)
        (> Int Int Bool :chainable))

 :definition
 \"The theory of the integers: Int denotes the set of all integer numbers and the functions
 denote the usual arithmetic operations and comparisons.\"

 :values \"The set of values for the sort Int consists of all numerals and all terms of the
 form (- n) where n is a numeral other than 0.\"
)
"

/-- The real numbers. -/
def reals : String :=
  "(theory Reals
 :smt-lib-version 2.6
 :written-by \"Cesare Tinelli\"
 :date \"2010-04-17\"

 :sorts ((Real 0))

 :funs ((NUMERAL Real)
        (DECIMAL Real)
        (- Real Real)
        (- Real Real Real :left-assoc)
        (+ Real Real Real :left-assoc)
        (* Real Real Real :left-assoc)
        (/ Real Real Real :left-assoc)
        (<= Real Real Bool :chainable)
        (< Real Real Bool :chainable)
        (>= Real Real Bool :chainable)
        (> Real Real Bool :chainable))

 :definition
 \"The theory of the real numbers: Real denotes the set of all real numbers and the functions
 denote the usual field operations and comparisons.\"
)
"

/-- Integers and real numbers side by side. -/
def realsInts : String :=
  "(theory Reals_Ints
 :smt-lib-version 2.6
 :written-by \"Cesare Tinelli\"
 :date \"2010-04-17\"

 :sorts ((Int 0) (Real 0))

 :funs ((NUMERAL Int)
        (- Int Int)
        (- Int Int Int :left-assoc)
        (+ Int Int Int :left-assoc)
        (* Int Int Int :left-assoc)
        (div Int Int Int :left-assoc)
        (mod Int Int Int)
        (abs Int Int)
        (<= Int Int Bool :chainable)
        (< Int Int Bool :chainable)
        (>= Int Int Bool :chainable)
        (> Int Int Bool :chainable)
        (DECIMAL Real)
        (- Real Real)
        (- Real Real Real :left-assoc)
        (+ Real Real Real :left-assoc)
        (* Real Real Real :left-assoc)
        (/ Real Real Real :left-assoc)
        (<= Real Real Bool :chainable)
        (< Real Real Bool :chainable)
        (>= Real Real Bool :chainable)
        (> Real Real Bool :chainable)
        (to_real Int Real)
        (to_int Real Int)
        (is_int Real Bool))

 :definition
 \"The theory of the integers and the reals with the usual operations on each, and the
 conversions between them.\"
)
"

/-- The theories by name. -/
def theories : List (String × String) :=
  [("ArraysEx", arraysEx), ("Core", core), ("Ints", ints), ("Reals", reals),
    ("Reals_Ints", realsInts)]

end WellSorted.Bundle
