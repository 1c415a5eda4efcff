import ConstLookup.Source.Extract
import ConstLookup.Table.Assemble

/-!
  Headers read in turn. They share one environment: what a header defines holds in the
  conditions of the headers after it.
-/

namespace ConstLookup

/-- A header file: its path and its text. -/
structure HeaderText where
  path : String
  text : String

namespace HeaderText

/-- The declarations of headers read in turn, and the environment after the last one. -/
def declarations (env : Environment) : List HeaderText → List HeaderSource × Environment
  | [] => ([], env)
  | h :: hs =>
    let (d, env) := Source.declarations env h.path h.text
    let (sources, env) := declarations env hs
    ({ path := h.path, declarations := d } :: sources, env)

/-- The lookup tables of headers read in turn under the given definitions. -/
def transpose (o : TableOptions) (defines : List Define) (headers : List HeaderText) :
    Transposition :=
  ConstLookup.transpose o defines (declarations (Environment.ofDefines defines) headers).1

end HeaderText

end ConstLookup
