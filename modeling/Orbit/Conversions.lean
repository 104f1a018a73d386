import Orbit.Grammar

/-!
# Exceptions of the parser

A literal that looks like a number is converted by the library, which throws where
there are no digits or the number is out of range. Nothing else of the preparation
of a query ends in an exception.
-/

namespace Orbit.Conversions
open Orbit.Format Orbit.Reader Orbit.Phrases Orbit.Query Orbit.Grammar
set_option linter.unusedSimpArgs false

section
variable {σ α β : Type}

end

section
variable {α β : Type}

end

/-! ## The tokens -/

section
variable [StdRange]

end

/-! ## The clauses -/

section
variable {tokens : List Token} {ast : QueryAst}

end

/-! ## The literal of a predicate -/

section
variable [StdRange] {tokens : List Token} {ast : QueryAst}

end

section

attribute [local instance] reporting

end

end Orbit.Conversions
