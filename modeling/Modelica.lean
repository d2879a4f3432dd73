import Modelica.Table
import Modelica.Decimal.Binary64
import Modelica.Decimal.Shortest
import Modelica.Decimal.Layout
import Modelica.Token
import Modelica.Token.Lexer
import Modelica.Syntax
import Modelica.Syntax.Parser.Basic
import Modelica.Syntax.Parser.Expression
import Modelica.Syntax.Parser.Modification
import Modelica.Syntax.Parser.Equation
import Modelica.Syntax.Parser.Class
import Modelica.Element
import Modelica.Fault
import Modelica.Graph
import Modelica.Graph.Copy
import Modelica.Graph.Number
import Modelica.Graph.OfSyntax
import Modelica.Outline
import Modelica.Library
import Modelica.Lookup
import Modelica.Instance
import Modelica.Flat
import Modelica.Flat.Connection
import Modelica.Flat.Model
import Modelica.Outline.Brief
import Modelica.Outline.Trace
import Modelica.Graph.Edit
import Modelica.Markup.Model
import Modelica.Script.OfModel
import Modelica.Alias
import Modelica.Alias.Shared
import Modelica.Options
import Modelica.Ode.Dynamics
import Modelica.Ode.Simulation
import Modelica.Text.Digit
import Modelica.Data.Reader
import Modelica.Release.Source
import Modelica.Release.Config
import Modelica.Release.Setup
import Modelica.Command
import Modelica.Main
import Modelica.Proofs.Table
import Modelica.Proofs.Alias.Closure
import Modelica.Proofs.Alias.Invariant
import Modelica.Proofs.Alias.Runs
import Modelica.Proofs.Alias.Copy
import Modelica.Proofs.Alias.Contradiction
import Modelica.Proofs.Flow.Expansion
import Modelica.Proofs.Flat.Capture
import Modelica.Proofs.Instance.Builtin
import Modelica.Proofs.Flat.Layout
import Modelica.Proofs.Flat.States
import Modelica.Proofs.Flat.Loops
import Modelica.Proofs.Syntax.File
import Modelica.Proofs.Read.Sections
import Modelica.Proofs.Token.Value
import Modelica.Proofs.Library.Layout
import Modelica.Proofs.Library.Reached
import Modelica.Proofs.Flat.Symbols
import Modelica.Proofs.Library.Lookup
import Modelica.Proofs.Script.Composed
