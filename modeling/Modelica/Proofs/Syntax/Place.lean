/-
Reading does not depend on where the tokens stand.

A parser is blind (`Blind`) if tokens that are all moved to one place are read as they
are, with the same value, and the rest or the failure moved likewise. The operations of
parsers keep this, so it is a class, and the readers of the language have instances of it:
one lemma per function of a block, by induction on the fuel.
-/
import Modelica.Syntax.Parser.Class

namespace Modelica

open List

/-- The token without its place. -/
def Token.unplaced (t : Token) : Token := { t with position := {} }

@[simp] theorem Token.unplaced_terminal (t : Token) : t.unplaced.terminal = t.terminal := rfl

@[simp] theorem Token.unplaced_text (t : Token) : t.unplaced.text = t.text := rfl

@[simp] theorem Token.unplaced_is (t : Token) (word : String) : t.unplaced.is word = t.is word := rfl

namespace Syntax

/-- The outcome of reading, for tokens without their places. -/
def unplacedOutcome {α : Type} : Except (List Token) (α × List Token) → Except (List Token) (α × List Token)
  | .ok (a, rest) => .ok (a, rest.map Token.unplaced)
  | .error rest => .error (rest.map Token.unplaced)

namespace Parser

variable {α β : Type}

set_option synthInstance.maxSize 1000

/-- The parser does not look at places. -/
class Blind (p : Parser α) : Prop where
  eq (ts : List Token) : p (ts.map Token.unplaced) = unplacedOutcome (p ts)

/-- The test does not look at places. -/
class BlindTest (more : List Token → Bool) : Prop where
  eq (ts : List Token) : more (ts.map Token.unplaced) = more ts

namespace Blind

variable {f : Option Token → Parser β}

instance pure (a : α) : Blind (Pure.pure a : Parser α) := ⟨fun _ => rfl⟩

instance bind (p : Parser α) (f : α → Parser β) [hp : Blind p] [hf : ∀ a, Blind (f a)] : Blind (p >>= f) := by
  refine ⟨fun ts => ?_⟩
  show (p (ts.map Token.unplaced) >>= fun x => f x.1 x.2) = unplacedOutcome (p ts >>= fun x => f x.1 x.2)
  rw [hp.eq ts]
  cases p ts with
  | error rest => rfl
  | ok x => exact (hf x.1).eq x.2

theorem seq {p} {f : α → Parser β} (hp : Blind p) (hf : ∀ a, Blind (f a)) : Blind (p >>= f) := bind p f

instance ite (c : Prop) [Decidable c] (p q : Parser α) [Blind p] [Blind q] : Blind (if c then p else q) := by
  split <;> infer_instance

instance branch (p : Parser Bool) (q r : Parser α) [Blind p] [Blind q] [Blind r] :
    Blind (p >>= fun b => if b = true then q else r) := bind p _

theorem cond {p} {q r : Parser α} (hp : Blind p) (hq : Blind q) (hr : Blind r) :
    Blind (p >>= fun b => if b = true then q else r) := branch p q r

instance discard (p : Parser α) [Blind p] : Blind (discard p) :=
  inferInstanceAs (Blind (p >>= fun _ => Pure.pure ()))

instance stop : Blind (stop : Parser α) := ⟨fun _ => rfl⟩

instance sees (word : String) : Blind (sees word) := ⟨fun ts => by cases ts <;> rfl⟩

instance seesAny (words : List String) : Blind (seesAny words) := ⟨fun ts => by cases ts <;> rfl⟩

instance seesTerminal (k : Terminal) : Blind (seesTerminal k) := ⟨fun ts => by cases ts <;> rfl⟩

instance literal (word : String) : Blind (literal word) := by
  refine ⟨fun ts => ?_⟩
  cases ts with
  | nil => rfl
  | cons t ts =>
    simp only [map_cons, Parser.literal, Token.unplaced_is]
    split <;> rfl

instance accept (word : String) : Blind (accept word) := by
  refine ⟨fun ts => ?_⟩
  cases ts with
  | nil => rfl
  | cons t ts =>
    simp only [map_cons, Parser.accept, Token.unplaced_is]
    split <;> rfl

instance acceptAny (words : List String) : Blind (acceptAny words) := by
  refine ⟨fun ts => ?_⟩
  cases ts with
  | nil => rfl
  | cons t ts =>
    simp only [map_cons, Parser.acceptAny, Token.unplaced_is, Token.unplaced_text]
    split <;> rfl

instance terminal (k : Terminal) : Blind (terminal k) := by
  refine ⟨fun ts => ?_⟩
  cases ts with
  | nil => rfl
  | cons t ts =>
    simp only [map_cons, Parser.terminal, Token.unplaced_terminal, Token.unplaced_text]
    split <;> rfl

instance ident : Blind ident := terminal .ident

section

variable (hf : ∀ o, Blind (f o)) (hplace : ∀ o, f (o.map Token.unplaced) = f o)

include hf hplace

theorem peek_bind : Blind (peek >>= f) := by
  refine ⟨fun ts => ?_⟩
  show f (ts.map Token.unplaced).head? (ts.map Token.unplaced) = unplacedOutcome (f ts.head? ts)
  rw [List.head?_map, hplace, (hf _).eq]

theorem peekSecond_bind : Blind (peekSecond >>= f) := by
  refine ⟨fun ts => ?_⟩
  show f ((ts.map Token.unplaced).drop 1).head? (ts.map Token.unplaced) = unplacedOutcome (f (ts.drop 1).head? ts)
  rw [← map_drop, List.head?_map, hplace, (hf _).eq]

end

theorem repeatAux {more} (hmore : BlindTest more) {p : Parser α} (hp : Blind p) (k : Nat) :
    Blind (repeatAux more p k) := by
  induction k with
  | zero => exact pure []
  | succ k ih =>
    refine ⟨fun ts => ?_⟩
    simp only [Parser.repeatAux, hmore.eq]
    split
    · exact Blind.eq (p := p >>= fun a => Parser.repeatAux more p k >>= fun rest => Pure.pure (a :: rest)) ts
    · rfl

instance repeatWhile (more : List Token → Bool) (p : Parser α) [hmore : BlindTest more] [hp : Blind p] :
    Blind (repeatWhile more p) := by
  refine ⟨fun ts => ?_⟩
  show Parser.repeatAux more p (ts.map Token.unplaced).length (ts.map Token.unplaced) = _
  rw [length_map, (repeatAux hmore hp _).eq]
  rfl

end Blind

instance BlindTest.is (word : String) : BlindTest fun ts => ts.head?.any (·.is word) := ⟨fun ts => by cases ts <;> rfl⟩

instance BlindTest.isOr (word other : String) : BlindTest fun ts => ts.head?.any fun t => t.is word || t.is other :=
  ⟨fun ts => by cases ts <;> rfl⟩

instance BlindTest.isBeforeIterator : BlindTest isBeforeIterator := by
  refine ⟨fun ts => ?_⟩
  rcases ts with _ | ⟨a, _ | ⟨b, _ | ⟨c, ts⟩⟩⟩ <;> rfl

namespace Blind

instance moreAfter (separator : String) (p : Parser α) [Blind p] : Blind (moreAfter separator p) := by
  unfold Parser.moreAfter
  infer_instance

instance separated (separator : String) (p : Parser α) [Blind p] : Blind (separated separator p) := by
  unfold Parser.separated
  infer_instance

/-! ### Expressions -/

instance joinerAt? (level : Nat) : Blind (joinerAt? level) := ⟨fun ts => by cases ts <;> rfl⟩

instance dotted : Blind dotted := by
  unfold Parser.dotted
  infer_instance

instance qualifiedName : Blind qualifiedName := by
  unfold Parser.qualifiedName
  infer_instance

/-- The readers of expressions with the fuel `n` do not look at places. -/
class Expressions (n : Nat) : Prop where
  expression : Blind (expression n)
  simpleExpression : Blind (simpleExpression n)
  operation (level : Nat) : Blind (operation n level)
  operand : Blind (operand n)
  operators (level : Nat) (left : Expr) : Blind (operators n level left)
  power : Blind (power n)
  primary : Blind (primary n)
  groupItems : Blind (groupItems n)
  reference : Blind (reference n)
  subscripts : Blind (subscripts n)
  callArguments : Blind (callArguments n)
  arguments : Blind (arguments n)
  positional : Blind (positional n)
  iterator : Blind (iterator n)
  namedArguments : Blind (namedArguments n)
  argument : Blind (argument n)

attribute [instance] Expressions.expression Expressions.simpleExpression Expressions.operation Expressions.operand
  Expressions.operators Expressions.power Expressions.primary Expressions.groupItems Expressions.reference
  Expressions.subscripts Expressions.callArguments Expressions.arguments Expressions.positional Expressions.iterator
  Expressions.namedArguments Expressions.argument

instance blindExpressions (n : Nat) : Expressions n := by
  induction n with
  | zero => constructor <;> intros <;> exact stop
  | succ n ih =>
    constructor
    case operators =>
      intro level left
      rw [Parser.operators]
      refine seq inferInstance fun o => ?_
      rcases o with _ | ⟨op, strength⟩ <;> infer_instance
    case arguments =>
      refine ⟨fun ts => ?_⟩
      rcases ts with _ | ⟨a, _ | ⟨b, ts⟩⟩
      · exact Blind.eq (p := Parser.positional n) []
      · exact Blind.eq (p := Parser.positional n) [a]
      · have hlook : Blind (if a.terminal == .ident && b.is "=" then Parser.namedArguments n else Parser.positional n) :=
          inferInstance
        have := hlook.eq (a :: b :: ts)
        simp only [Parser.arguments, map_cons, Token.unplaced_terminal, Token.unplaced_is] at *
        split <;> simp_all
    all_goals
      intros
      simp only [Parser.expression, Parser.simpleExpression, Parser.operation, Parser.operand, Parser.power,
        Parser.primary, Parser.groupItems, Parser.reference, Parser.subscripts, Parser.callArguments,
        Parser.positional, Parser.iterator, Parser.namedArguments, Parser.argument]
      infer_instance

instance iterators (n : Nat) : Blind (iterators n) := by
  unfold Parser.iterators
  infer_instance

/-! ### Modifications -/

instance category : Blind category := by
  unfold Parser.category
  refine cond inferInstance inferInstance (cond inferInstance inferInstance (seq inferInstance fun purity => ?_))
  cases purity with
  | some purity => infer_instance
  | none =>
    refine seq inferInstance fun word => ?_
    cases word <;> infer_instance

instance keywords : Blind keywords := by
  unfold Parser.keywords
  infer_instance

instance stringComment : Blind stringComment := by
  unfold Parser.stringComment
  infer_instance

/-- The readers of modifications with the fuel `n` do not look at places. -/
class Modifications (n : Nat) : Prop where
  classModification : Blind (classModification n)
  modificationArgument : Blind (modificationArgument n)
  change : Blind (change n)
  constraint : Blind (constraint n)
  redeclared : Blind (redeclared n)
  enumeration : Blind (enumeration n)
  declaration : Blind (declaration n)
  optionalModification : Blind (optionalModification n)
  remarks : Blind (remarks n)
  comment : Blind (comment n)

attribute [instance] Modifications.classModification Modifications.modificationArgument Modifications.change
  Modifications.constraint Modifications.redeclared Modifications.enumeration Modifications.declaration
  Modifications.optionalModification Modifications.remarks Modifications.comment

instance blindModifications (n : Nat) : Modifications n := by
  induction n with
  | zero => constructor <;> exact stop
  | succ n ih =>
    constructor
    all_goals
      simp only [Parser.classModification, Parser.modificationArgument, Parser.change, Parser.constraint,
        Parser.redeclared, Parser.enumeration, Parser.declaration, Parser.optionalModification, Parser.remarks, Parser.comment]
      infer_instance

/-! ### Equations and statements -/

end Blind

instance BlindTest.startsEquation (nested : Bool) : BlindTest (startsEquation nested) := by
  refine ⟨fun ts => ?_⟩
  rcases ts with _ | ⟨a, _ | ⟨b, ts⟩⟩ <;> rfl

instance BlindTest.startsStatement : BlindTest startsStatement := ⟨fun ts => by cases ts <;> rfl⟩

theorem callEquation?_unplaced (first : Option Token) (e : Expr) :
    callEquation? (first.map Token.unplaced) e = callEquation? first e := by
  cases first <;> rfl

namespace Blind

/-- The readers of equations with the fuel `n` do not look at places. -/
class Equations (n : Nat) : Prop where
  equations (nested : Bool) : Blind (equations n nested)
  equation : Blind (equation n)
  equationBody : Blind (equationBody n)
  equationBranches (word : String) : Blind (equationBranches n word)

attribute [instance] Equations.equations Equations.equation Equations.equationBody Equations.equationBranches

instance blindEquations (n : Nat) : Equations n := by
  induction n with
  | zero => constructor <;> intros <;> exact stop
  | succ n ih =>
    constructor
    case equationBody =>
      rw [Parser.equationBody]
      refine cond inferInstance inferInstance (cond inferInstance inferInstance (cond inferInstance inferInstance
        (cond inferInstance inferInstance (cond inferInstance inferInstance ?_))))
      -- of the token ahead of the left side only the class is used
      refine peek_bind (fun first => seq inferInstance fun left => cond inferInstance inferInstance ?_) fun first => ?_
      · cases callEquation? first left
        · exact stop
        · exact pure _
      · simp only [callEquation?_unplaced]
    all_goals
      intros
      simp only [Parser.equations, Parser.equation, Parser.equationBranches]
      infer_instance

/-- The readers of statements with the fuel `n` do not look at places. -/
class Statements (n : Nat) : Prop where
  statements : Blind (statements n)
  statement : Blind (statement n)
  statementBody : Blind (statementBody n)
  statementBranches (word : String) : Blind (statementBranches n word)

attribute [instance] Statements.statements Statements.statement Statements.statementBody Statements.statementBranches

instance blindStatements (n : Nat) : Statements n := by
  induction n with
  | zero => constructor <;> intros <;> exact stop
  | succ n ih =>
    constructor
    all_goals
      intros
      simp only [Parser.statements, Parser.statement, Parser.statementBody, Parser.statementBranches]
      infer_instance

/-! ### Classes and files -/

instance importPath (n : Nat) : Blind (importPath n) := by
  unfold Parser.importPath
  refine seq inferInstance fun first => seq inferInstance fun subs => seq ?_ inferInstance
  refine @repeatWhile _ _ _ ⟨fun ts => ?_⟩ inferInstance
  rcases ts with _ | ⟨a, _ | ⟨b, ts⟩⟩ <;> rfl

instance importClause (n : Nat) : Blind (importClause n) := by
  unfold Parser.importClause
  refine seq inferInstance fun _ => peekSecond_bind (fun second => seq inferInstance fun isName => ?_) fun second => ?_
  · split <;> infer_instance
  · cases second <;> rfl

instance clause (n : Nat) : Blind (clause n) := by
  unfold Parser.clause
  infer_instance

instance externalTarget (path : Reference) : Blind (externalTarget path) := by
  unfold Parser.externalTarget
  refine cond inferInstance inferInstance ?_
  split <;> infer_instance

instance externalCall (n : Nat) : Blind (externalCall n) := by
  unfold Parser.externalCall
  refine cond inferInstance (seq inferInstance fun path => seq inferInstance fun target => ?_) inferInstance
  cases target
  infer_instance

instance external (n : Nat) : Blind (external n) := by
  unfold Parser.external Parser.language
  refine cond inferInstance (seq inferInstance fun lang => seq inferInstance fun call => ?_) inferInstance
  cases call
  infer_instance

end Blind

instance BlindTest.startsElement : BlindTest startsElement := ⟨fun ts => by cases ts <;> rfl⟩

instance BlindTest.startsSection : BlindTest startsSection := ⟨fun ts => by cases ts <;> rfl⟩

instance BlindTest.startsClass : BlindTest startsClass := ⟨fun ts => by cases ts <;> rfl⟩

namespace Blind

/-- The readers of classes with the fuel `n` do not look at places. -/
class Classes (n : Nat) : Prop where
  classDefinition : Blind (classDefinition n)
  classBody : Blind (classBody n)
  composition : Blind (composition n)
  classSection : Blind (classSection n)
  elements : Blind (elements n)
  element : Blind (element n)

attribute [instance] Classes.classDefinition Classes.classBody Classes.composition Classes.classSection
  Classes.elements Classes.element

instance blindClasses (n : Nat) : Classes n := by
  induction n with
  | zero => constructor <;> exact stop
  | succ n ih =>
    constructor
    case composition =>
      rw [Parser.composition]
      refine seq inferInstance fun first => seq inferInstance fun parts => seq inferInstance fun ext =>
        seq inferInstance fun note => ?_
      cases note <;> infer_instance
    case element =>
      rw [Parser.element]
      refine cond inferInstance inferInstance (cond inferInstance inferInstance (seq inferInstance fun _ =>
        seq inferInstance fun _ => seq inferInstance fun _ => seq inferInstance fun _ =>
        cond inferInstance (cond inferInstance ?_ ?_) inferInstance))
      all_goals
        refine seq inferInstance fun _ => seq inferInstance fun limit => ?_
        cases limit <;> infer_instance
    all_goals
      simp only [Parser.classDefinition, Parser.classBody, Parser.classSection, Parser.elements]
      infer_instance

instance file (n : Nat) : Blind (file n) := by
  unfold Parser.file Parser.withinClause
  infer_instance

end Blind
end Parser

theorem parse_unplaced (ts : List Token) : parse (ts.map Token.unplaced) = unplacedOutcome (parse ts) := by
  unfold parse
  rw [length_map]
  exact Parser.Blind.eq ts

end Syntax
end Modelica
