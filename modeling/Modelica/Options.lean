/-
Options of the compiler: their defaults, and what is set on top of them.

An option that is set keeps its place among the others; an option that is not
known goes to the end.
-/
import Modelica.Table
import Modelica.Data
import Modelica.Fault

namespace Modelica

abbrev Options := Table String Data

namespace Options

def defaults : Options := Table.ofList [
  ("library_folders", .list []),
  ("verbose", .flag false),
  ("check_balanced", .flag true),
  ("mtime_check", .flag true),
  ("cache", .flag false),
  ("codegen", .flag false),
  ("expand_mx", .flag false),
  ("unroll_loops", .flag true),
  ("inline_functions", .flag true),
  ("expand_vectors", .flag false),
  ("replace_parameter_expressions", .flag false),
  ("replace_constant_expressions", .flag false),
  ("eliminate_constant_assignments", .flag false),
  ("replace_parameter_values", .flag false),
  ("replace_constant_values", .flag false),
  ("eliminable_variable_expression", .null),
  ("factor_and_simplify_equations", .flag false),
  ("detect_aliases", .flag false),
  ("allow_derivative_aliases", .flag true),
  ("reduce_affine_expression", .flag false)]

def set (o : Options) (given : List (String × Data)) : Options := o.insertAll ⟨given⟩

/-- The defaults with a group of options set; nothing else can be set. -/
def merged : Data → Except Fault Options
  | .null => pure defaults
  | .group given => pure (defaults.set given)
  | _ => throw .wrongKind

end Options
end Modelica
