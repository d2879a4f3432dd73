/-
The grammar of model texts.

A rule stands for a pattern of terminals and rules (`Rule.body`), and its sentences
are what the pattern derives (`Derives`). The words that a pattern derives are its
language (`lang`), and the languages follow the patterns: a sequence is a product, a
choice a sum, a repetition a star.

Three facts about patterns are tabulated for the rules and computed for all other
patterns: whether a pattern derives the empty word (`nullable_of_derives`), with which
terminals its words begin (`mem_first`), and that it derives some word
(`exists_derives`). What is computed only has to agree with the tables at each rule.
-/
import Mathlib.Computability.Language
import Mathlib.Order.CompletePartialOrder
import Modelica.Token

namespace Modelica.Grammar

open List Language

variable {p : Pattern} {ws : List String}

inductive Rule where
  | storedDefinition | storedDefinitionClass
  | classDefinition | classPrefixes | classType | classSpecifier | basePrefix | enumList | enumerationLiteral
  | composition | languageSpecification | externalFunctionCall | elementList | element | regularElement
  | replaceableElement | importClause | importList
  | extendsClause | constrainingClause
  | componentClause | typePrefix | typeSpecifierElement | typeSpecifier | componentList | componentDeclaration
  | conditionAttribute | declaration
  | modification | classModification | argumentList | argument | elementModificationOrReplaceable
  | elementModification | elementRedeclaration | elementReplaceable | componentClause1 | componentDeclaration1
  | shortClassDefinition
  | equationBlock | equationSection | statementBlock | algorithmSection | equationOptions | equation
  | statementOptions | statement | ifEquation | ifStatement | forEquation | forStatement | forIndices | forIndex
  | whileStatement | whenEquation | whenStatement | connectClause
  | expression | simpleExpression | expr | primary | name | componentReferenceElement | componentReference
  | functionCallArgs | functionArguments | namedArguments | namedArgument | functionArgument
  | outputExpressionList | expressionList | arraySubscripts | subscript | comment | stringComment | annotationClause
deriving DecidableEq, Repr

/-- What may stand on the right side of a rule. -/
inductive Pattern where
  | empty
  | terminal (t : Terminal)
  | rule (r : Rule)
  | seq (p q : Pattern)
  | alt (p q : Pattern)
  | star (p : Pattern)
deriving DecidableEq, Repr

namespace Pattern

instance : Coe Rule Pattern := ⟨.rule⟩

def word (w : String) : Pattern := .terminal (.literal w)

def ident : Pattern := .terminal .ident

def string : Pattern := .terminal .string

def number : Pattern := .terminal .number

/-- One pattern after the other. -/
def seqs : List Pattern → Pattern
  | [] => .empty
  | [p] => p
  | p :: ps => .seq p (seqs ps)

/-- Any of the patterns, and of no patterns the empty one. -/
def alts : List Pattern → Pattern
  | [] => .empty
  | [p] => p
  | p :: ps => .alt p (alts ps)

def words (ws : List String) : Pattern := alts (ws.map word)

def opt (p : Pattern) : Pattern := .alt .empty p

/-- One or more of a pattern, with a word between them. -/
def separated (w : String) (p : Pattern) : Pattern := .seq p (.star (.seq (word w) p))

end Pattern

open Pattern Rule

/-- The right sides of the rules. -/
def Rule.body : Rule → Pattern
  | storedDefinition =>
    seqs [opt (seqs [word "within", opt componentReference, word ";"]), star storedDefinitionClass]
  | storedDefinitionClass => seqs [opt (word "final"), classDefinition, word ";"]
  | classDefinition => seqs [opt (word "encapsulated"), classPrefixes, classSpecifier]
  | classPrefixes => seqs [opt (word "partial"), classType]
  | classType => alts [
      word "class",
      word "model",
      seqs [opt (word "operator"), word "record"],
      word "block",
      seqs [opt (word "expandable"), word "connector"],
      word "type",
      word "package",
      seqs [opt (words ["pure", "impure"]), opt (word "operator"), word "function"],
      word "operator"]
  | classSpecifier => alts [
      seqs [ident, stringComment, composition, word "end", ident],
      seqs [ident, word "=", basePrefix, componentReference, opt classModification, comment],
      seqs [ident, word "=", word "enumeration", word "(", alt (opt enumList) (word ":"), word ")", comment],
      seqs [ident, word "=", word "der", word "(", name, word ",", separated "," ident, word ")", comment],
      seqs [word "extends", ident, opt classModification, stringComment, composition, word "end", ident]]
  | basePrefix => typePrefix
  | enumList => separated "," enumerationLiteral
  | enumerationLiteral => seqs [ident, comment]
  | composition => seqs [
      elementList,
      star (alts [
        seqs [word "public", elementList],
        seqs [word "protected", elementList],
        equationSection,
        algorithmSection]),
      opt (seqs [word "external", opt languageSpecification, opt externalFunctionCall, opt annotationClause, word ";"]),
      opt (seqs [annotationClause, word ";"])]
  | languageSpecification => string
  | externalFunctionCall =>
    seqs [opt (seqs [componentReference, word "="]), ident, word "(", opt expressionList, word ")"]
  | elementList => star (seqs [element, word ";"])
  | element => alts [importClause, extendsClause, regularElement, replaceableElement]
  | regularElement => seqs [
      opt (word "redeclare"), opt (word "final"), opt (word "inner"), opt (word "outer"),
      alt classDefinition componentClause]
  | replaceableElement => seqs [
      opt (word "redeclare"), opt (word "final"), opt (word "inner"), opt (word "outer"), word "replaceable",
      alt classDefinition componentClause, opt (seqs [constrainingClause, comment])]
  | importClause => seqs [
      word "import",
      alt (seqs [ident, word "=", componentReference])
        (seqs [componentReference,
          opt (seqs [word ".", alt (word "*") (seqs [word "\x7b", importList, word "\x7d"])])]),
      comment]
  | importList => seqs [ident, star (seqs [word ",", importList])]
  | extendsClause => seqs [word "extends", componentReference, opt classModification, opt annotationClause]
  | constrainingClause => seqs [word "constrainedby", name, opt classModification]
  | componentClause => seqs [typePrefix, typeSpecifier, opt arraySubscripts, componentList]
  | typePrefix => seqs [
      opt (words ["flow", "stream"]),
      opt (words ["discrete", "parameter", "constant"]),
      opt (words ["input", "output"])]
  | typeSpecifierElement => ident
  | typeSpecifier => separated "." typeSpecifierElement
  | componentList => separated "," componentDeclaration
  | componentDeclaration => seqs [declaration, opt conditionAttribute, comment]
  | conditionAttribute => seqs [word "if", expression]
  | declaration => seqs [ident, opt arraySubscripts, opt modification]
  | modification => alts [
      seqs [classModification, opt (seqs [word "=", expression])],
      seqs [word "=", expression],
      seqs [word ":=", expression]]
  | classModification => seqs [word "(", opt argumentList, word ")"]
  | argumentList => separated "," argument
  | argument => alt elementModificationOrReplaceable elementRedeclaration
  | elementModificationOrReplaceable =>
    seqs [opt (word "each"), opt (word "final"), alt elementModification elementReplaceable]
  | elementModification => seqs [componentReference, opt modification, stringComment]
  | elementRedeclaration => seqs [
      word "redeclare", opt (word "each"), opt (word "final"),
      alt (alt shortClassDefinition componentClause1) elementReplaceable]
  | elementReplaceable =>
    seqs [word "replaceable", alt shortClassDefinition componentClause1, opt constrainingClause]
  | componentClause1 => seqs [typePrefix, typeSpecifier, componentDeclaration1]
  | componentDeclaration1 => seqs [declaration, comment]
  | shortClassDefinition => seqs [
      classPrefixes, ident, word "=",
      alt (seqs [basePrefix, componentReference, opt arraySubscripts, opt classModification, comment])
        (seqs [word "enumeration", word "(", alt (opt enumList) (word ":"), word ")", comment])]
  | equationBlock => star (seqs [equation, word ";"])
  | equationSection => seqs [opt (word "initial"), word "equation", equationBlock]
  | statementBlock => star (seqs [statement, word ";"])
  | algorithmSection => seqs [opt (word "initial"), word "algorithm", statementBlock]
  | equationOptions => alts [
      seqs [simpleExpression, word "=", expression],
      ifEquation,
      forEquation,
      connectClause,
      whenEquation,
      seqs [name, functionCallArgs]]
  | equation => seqs [equationOptions, comment]
  | statementOptions => alts [
      seqs [componentReference, alt (seqs [word ":=", expression]) functionCallArgs],
      seqs [word "(", separated "," componentReference, word ")", word ":=", componentReference, functionCallArgs],
      word "break",
      word "return",
      ifStatement,
      forStatement,
      whileStatement,
      whenStatement]
  | statement => seqs [statementOptions, comment]
  | ifEquation => seqs [
      word "if", expression, word "then", equationBlock,
      star (seqs [word "elseif", expression, word "then", equationBlock]),
      opt (seqs [word "else", equationBlock]),
      word "end", word "if"]
  | ifStatement => seqs [
      word "if", expression, word "then", statementBlock,
      star (seqs [word "elseif", expression, word "then", statementBlock]),
      opt (seqs [word "else", statementBlock]),
      word "end", word "if"]
  | forEquation => seqs [word "for", forIndices, word "loop", equationBlock, word "end", word "for"]
  | forStatement => seqs [word "for", forIndices, word "loop", statementBlock, word "end", word "for"]
  | forIndices => separated "," forIndex
  | forIndex => seqs [ident, opt (seqs [word "in", expression])]
  | whileStatement => seqs [word "while", expression, word "loop", statementBlock, word "end", word "while"]
  | whenEquation => seqs [
      word "when", expression, word "then", equationBlock,
      star (seqs [word "elsewhen", expression, word "then", equationBlock]),
      word "end", word "when"]
  | whenStatement => seqs [
      word "when", expression, word "then", statementBlock,
      star (seqs [word "elsewhen", expression, word "then", statementBlock]),
      word "end", word "when"]
  | connectClause => seqs [word "connect", word "(", componentReference, word ",", componentReference, word ")"]
  | expression => alt simpleExpression (seqs [
      word "if", expression, word "then", expression,
      star (seqs [word "elseif", expression, word "then", expression]),
      word "else", expression])
  | simpleExpression => seqs [expr, opt (seqs [word ":", expr, opt (seqs [word ":", expr])])]
  | expr => alts [
      seqs [word "-", expr],
      seqs [primary, words ["^", ".^"], primary],
      seqs [expr, words ["*", "/", ".*", "./"], expr],
      seqs [expr, words ["+", "-", ".+", ".-"], expr],
      seqs [expr, words ["<", "<=", ">", ">=", "==", "<>"], expr],
      seqs [word "not", expr],
      seqs [expr, word "and", expr],
      seqs [expr, word "or", expr],
      primary]
  | primary => alts [
      number,
      string,
      word "false",
      word "true",
      seqs [componentReference, functionCallArgs],
      seqs [word "der", functionCallArgs],
      seqs [word "initial", functionCallArgs],
      componentReference,
      seqs [word "(", outputExpressionList, word ")"],
      seqs [word "[", separated ";" expressionList, word "]"],
      seqs [word "\x7b", functionArguments, word "\x7d"],
      word "end"]
  | name => seqs [opt (word "."), separated "." ident]
  | componentReferenceElement => seqs [ident, opt arraySubscripts]
  | componentReference => separated "." componentReferenceElement
  | functionCallArgs => seqs [word "(", opt functionArguments, word ")"]
  | functionArguments =>
    alt (seqs [functionArgument, star (alt (seqs [word ",", functionArgument]) (seqs [word "for", forIndices]))])
      namedArguments
  | namedArguments => separated "," namedArgument
  | namedArgument => seqs [ident, word "=", functionArgument]
  | functionArgument => alt (seqs [word "function", name, word "(", opt namedArguments, word ")"]) expression
  | outputExpressionList => seqs [opt expression, star (seqs [word ",", expression])]
  | expressionList => separated "," expression
  | arraySubscripts => seqs [word "[", separated "," subscript, word "]"]
  | subscript => alt (word ":") expression
  | comment => seqs [stringComment, opt annotationClause]
  | stringComment => opt (separated "+" string)
  | annotationClause => seqs [word "annotation", classModification]

/-- The words that a pattern derives. -/
inductive Derives : Pattern → List Terminal → Prop
  | empty : Derives .empty []
  | terminal (t : Terminal) : Derives (.terminal t) [t]
  | rule {r : Rule} {w : List Terminal} : Derives r.body w → Derives (.rule r) w
  | seq {p q : Pattern} {u v : List Terminal} : Derives p u → Derives q v → Derives (.seq p q) (u ++ v)
  | left {p q : Pattern} {w : List Terminal} : Derives p w → Derives (.alt p q) w
  | right {p q : Pattern} {w : List Terminal} : Derives q w → Derives (.alt p q) w
  | done {p : Pattern} : Derives (.star p) []
  | more {p : Pattern} {u v : List Terminal} : Derives p u → Derives (.star p) v → Derives (.star p) (u ++ v)

/-! ### Languages -/

/-- The words that a pattern derives, as a language. -/
def lang (p : Pattern) : Language Terminal := {w | Derives p w}

theorem mem_lang {w} : w ∈ lang p ↔ Derives p w := Iff.rfl

@[simp] theorem lang_empty : lang .empty = 1 := by
  ext w
  rw [mem_lang, mem_one]
  constructor
  · rintro ⟨⟩
    rfl
  · rintro rfl
    exact .empty

theorem mem_lang_terminal {t w} : w ∈ lang (.terminal t) ↔ w = [t] := by
  constructor
  · rintro ⟨⟩
    rfl
  · rintro rfl
    exact .terminal t

theorem lang_rule (r : Rule) : lang (.rule r) = lang r.body := by
  ext w
  constructor
  · rintro ⟨⟩
    assumption
  · exact .rule

@[simp] theorem lang_seq (p q : Pattern) : lang (.seq p q) = lang p * lang q := by
  ext w
  rw [mem_mul]
  constructor
  · rintro (_ | _ | _ | @⟨_, _, u, v, hu, hv⟩)
    exact ⟨u, hu, v, hv, rfl⟩
  · rintro ⟨u, hu, v, hv, rfl⟩
    exact .seq hu hv

theorem mem_lang_seq {q w} : w ∈ lang (.seq p q) ↔ ∃ u ∈ lang p, ∃ v ∈ lang q, u ++ v = w := by
  rw [lang_seq, mem_mul]

@[simp] theorem lang_alt (p q : Pattern) : lang (.alt p q) = lang p + lang q := by
  ext w
  rw [mem_add]
  constructor
  · rintro (_ | _ | _ | _ | h | h)
    · exact .inl h
    · exact .inr h
  · rintro (h | h)
    · exact .left h
    · exact .right h

theorem lang_opt (p : Pattern) : lang (opt p) = lang p + lang .empty := (lang_alt _ _).trans (add_comm _ _)

theorem lang_star_eq (p : Pattern) : lang (.star p) = 1 + lang p * lang (.star p) := by
  ext w
  rw [mem_add, mem_mul, mem_one]
  constructor
  · intro h
    cases h with
    | done => exact .inl rfl
    | @more _ u v hu hv => exact .inr ⟨u, hu, v, hv, rfl⟩
  · rintro (rfl | ⟨u, hu, v, hv, rfl⟩)
    · exact .done
    · exact .more hu hv

theorem lang_star (p : Pattern) : lang (.star p) = KStar.kstar (lang p) := by
  ext w
  rw [mem_kstar]
  constructor
  · intro h
    generalize hs : Pattern.star p = s at h
    induction h with
    | done => exact ⟨[], rfl, by simp⟩
    | more hu _ _ ih =>
      cases hs
      obtain ⟨l, rfl, hl⟩ := ih rfl
      exact ⟨_ :: l, rfl, by simpa using ⟨hu, hl⟩⟩
    | _ => cases hs
  · rintro ⟨l, rfl, hl⟩
    induction l with
    | nil => exact .done
    | cons u l ih =>
      obtain ⟨hu, hl⟩ := forall_mem_cons.1 hl
      exact .more hu (ih hl)

theorem mem_lang_words (hws : ws ≠ []) {w} : w ∈ lang (Pattern.words ws) ↔ ∃ t ∈ ws.map Terminal.literal, w = [t] := by
  induction ws with
  | nil => exact absurd rfl hws
  | cons x ws ih =>
    cases ws with
    | nil => exact mem_lang_terminal.trans (by simp)
    | cons y ws =>
      have halt : lang (Pattern.words (x :: y :: ws)) = lang (Pattern.word x) + lang (Pattern.words (y :: ws)) :=
        lang_alt _ _
      rw [halt, mem_add, ih (by simp), Pattern.word, mem_lang_terminal]
      simp

/-! ### The empty word -/

def Rule.nullable : Rule → Bool
  | storedDefinition | basePrefix | composition | elementList | typePrefix | equationBlock | statementBlock
  | outputExpressionList | comment | stringComment => true
  | _ => false

/-- Whether a pattern derives the empty word. -/
def Pattern.nullable : Pattern → Bool
  | .empty => true
  | .terminal _ => false
  | .rule r => r.nullable
  | .seq p q => p.nullable && q.nullable
  | .alt p q => p.nullable || q.nullable
  | .star _ => true

theorem Rule.nullable_body (r : Rule) : r.body.nullable = r.nullable := by
  cases r <;> rfl

theorem nullable_of_derives (h : Derives p []) : p.nullable = true := by
  generalize hw : [] = w at h
  induction h with
  | empty | done | more => rfl
  | terminal t => cases hw
  | @rule r _ _ ih => rw [Pattern.nullable, ← r.nullable_body, ih hw]
  | seq _ _ ihp ihq =>
    obtain ⟨hu, hv⟩ := append_eq_nil_iff.1 hw.symm
    rw [Pattern.nullable, ihp hu.symm, ihq hv.symm, Bool.and_self]
  | left _ ih => rw [Pattern.nullable, ih hw, Bool.true_or]
  | right _ ih => rw [Pattern.nullable, ih hw, Bool.or_true]

theorem ne_nil_of_mem_lang (hp : p.nullable = false) {w} (hw : w ∈ lang p) : w ≠ [] := by
  rintro rfl
  rw [nullable_of_derives hw] at hp
  cases hp

theorem nullable_words (hws : ws ≠ []) : (Pattern.words ws).nullable = false := by
  induction ws with
  | nil => exact absurd rfl hws
  | cons x ws ih =>
    cases ws with
    | nil => rfl
    | cons y ws => exact ih (by simp)

/-! ### First terminals -/

def classStart : List String := [
  "class", "model", "operator", "record", "block", "expandable", "connector", "type", "package", "pure", "impure",
  "function"]

def prefixStart : List String := ["flow", "stream", "discrete", "parameter", "constant", "input", "output"]

def elementStart : List String :=
  ["redeclare", "final", "inner", "outer", "encapsulated", "partial"] ++ classStart ++ prefixStart

def primaryStart : List Terminal :=
  [.number, .string, .ident] ++ ["false", "true", "der", "initial", "(", "[", "\x7b", "end"].map .literal

def expressionStart : List Terminal := [.literal "-", .literal "not"] ++ primaryStart

def Rule.first : Rule → List Terminal
  | storedDefinition => (["within", "final", "encapsulated", "partial"] ++ classStart).map .literal
  | storedDefinitionClass => (["final", "encapsulated", "partial"] ++ classStart).map .literal
  | classDefinition => (["encapsulated", "partial"] ++ classStart).map .literal
  | classPrefixes | shortClassDefinition => ("partial" :: classStart).map .literal
  | classType => classStart.map .literal
  | classSpecifier => [.ident, .literal "extends"]
  | basePrefix | typePrefix => prefixStart.map .literal
  | composition => .ident :: (["import", "extends", "replaceable"] ++ elementStart ++
      ["public", "protected", "initial", "equation", "algorithm", "external", "annotation"]).map .literal
  | elementList | element => .ident :: (["import", "extends", "replaceable"] ++ elementStart).map .literal
  | regularElement => .ident :: elementStart.map .literal
  | replaceableElement => ["redeclare", "final", "inner", "outer", "replaceable"].map .literal
  | importClause => [.literal "import"]
  | extendsClause => [.literal "extends"]
  | constrainingClause => [.literal "constrainedby"]
  | componentClause | componentClause1 => .ident :: prefixStart.map .literal
  | conditionAttribute | ifEquation | ifStatement => [.literal "if"]
  | modification => ["(", "=", ":="].map .literal
  | classModification | functionCallArgs => [.literal "("]
  | argumentList | argument => .ident :: ["each", "final", "replaceable", "redeclare"].map .literal
  | elementModificationOrReplaceable => .ident :: ["each", "final", "replaceable"].map .literal
  | elementRedeclaration => [.literal "redeclare"]
  | elementReplaceable => [.literal "replaceable"]
  | equationBlock | equationOptions | equation => ["if", "for", "connect", "when", "."].map .literal ++ expressionStart
  | equationSection => ["initial", "equation"].map .literal
  | algorithmSection => ["initial", "algorithm"].map .literal
  | statementBlock | statementOptions | statement =>
    .ident :: ["(", "break", "return", "if", "for", "while", "when"].map .literal
  | forEquation | forStatement => [.literal "for"]
  | whileStatement => [.literal "while"]
  | whenEquation | whenStatement => [.literal "when"]
  | connectClause => [.literal "connect"]
  | expression | expressionList => .literal "if" :: expressionStart
  | simpleExpression | expr => expressionStart
  | primary => primaryStart
  | name => [.literal ".", .ident]
  | functionArguments | functionArgument => ["function", "if"].map .literal ++ expressionStart
  | outputExpressionList => [",", "if"].map .literal ++ expressionStart
  | arraySubscripts => [.literal "["]
  | subscript => [":", "if"].map .literal ++ expressionStart
  | comment => [.string, .literal "annotation"]
  | stringComment | languageSpecification => [.string]
  | annotationClause => [.literal "annotation"]
  | enumList | enumerationLiteral | externalFunctionCall | importList | typeSpecifierElement | typeSpecifier
  | componentList | componentDeclaration | declaration | elementModification | componentDeclaration1 | forIndices
  | forIndex | componentReferenceElement | componentReference | namedArguments | namedArgument => [.ident]

/-- The terminals that a word of the pattern can begin with. -/
def Pattern.first : Pattern → List Terminal
  | .empty => []
  | .terminal t => [t]
  | .rule r => r.first
  | .seq p q => p.first ++ if p.nullable then q.first else []
  | .alt p q => p.first ++ q.first
  | .star p => p.first

theorem Rule.first_body (r : Rule) : ∀ t ∈ r.body.first, t ∈ r.first := by
  cases r <;> decide +kernel

theorem mem_first {w} (h : Derives p w) {t} (ht : w.head? = some t) : t ∈ p.first := by
  have hfirst : ∀ {u v : List Terminal}, (u ++ v).head? = some t →
      u.head? = some t ∨ u = [] ∧ v.head? = some t := fun {u v} h => by
    cases u with
    | nil => exact .inr ⟨rfl, h⟩
    | cons => exact .inl h
  induction h with
  | empty | done => cases ht
  | terminal s =>
    cases ht
    exact mem_singleton_self _
  | @rule r _ _ ih => exact r.first_body t (ih ht)
  | seq hu _ ihp ihq =>
    rw [Pattern.first, mem_append]
    obtain ht | ⟨rfl, ht⟩ := hfirst ht
    · exact .inl (ihp ht)
    · rw [nullable_of_derives hu]
      exact .inr (ihq ht)
  | left _ ih => exact mem_append_left _ (ih ht)
  | right _ ih => exact mem_append_right _ (ih ht)
  | more _ _ ihp ihs =>
    obtain ht | ⟨-, ht⟩ := hfirst ht
    · exact ihp ht
    · exact ihs ht

theorem first_words (ws : List String) : (Pattern.words ws).first = ws.map Terminal.literal := by
  induction ws with
  | nil => rfl
  | cons x ws ih =>
    cases ws with
    | nil => rfl
    | cons y ws => exact congrArg (Terminal.literal x :: ·) ih

variable {d e f : Pattern} {K : Language Terminal} {t : Terminal} {w : List Terminal}

/-- What begins with none of the terminals of a pattern goes on with what follows it. -/
theorem mem_of_not_first (h : w ∈ lang e * K) (hfirst : ∀ t ∈ e.first, w.head? ≠ some t) : w ∈ K := by
  obtain ⟨u, hu, v, hv, rfl⟩ := mem_mul.1 h
  cases u with
  | nil => exact hv
  | cons x u => exact absurd rfl (hfirst x (mem_first hu rfl))

theorem exists_first (he : e.nullable = false) (h : w ∈ lang e * K) : ∃ t ∈ e.first, w.head? = some t := by
  obtain ⟨u, hu, v, _, rfl⟩ := mem_mul.1 h
  obtain ⟨x, u, rfl⟩ := exists_cons_of_ne_nil (ne_nil_of_mem_lang he hu)
  exact ⟨x, mem_first hu rfl, rfl⟩

theorem head_eq_first (he : e.nullable = false) (hfirst : e.first = [t]) (h : w ∈ lang e * K) : w.head? = some t := by
  obtain ⟨x, hx, h⟩ := exists_first he h
  rw [hfirst] at hx
  exact mem_singleton.1 hx ▸ h

theorem nullable_or_first (h : t :: w ∈ lang e * K) : (e.nullable || e.first.contains t) = true := by
  obtain ⟨u, hu, v, _, huv⟩ := mem_mul.1 h
  cases u with
  | nil => rw [nullable_of_derives hu, Bool.true_or]
  | cons x u =>
    cases huv
    simp [mem_first hu rfl]

theorem mem_of_head (h : t :: w ∈ lang f * K) (he : lang f = lang e + lang d) (hne : d.nullable = false)
    (ht : d.first.contains t = false) : t :: w ∈ lang e * K := by
  rw [he, add_mul, mem_add] at h
  refine h.resolve_right fun h => ?_
  have := nullable_or_first h
  rw [hne, ht] at this
  cases this

/-- The alternatives with which a word of the pattern, and what follows it, can begin with
the terminal. -/
def Pattern.branches (t : Terminal) : Pattern → List Pattern
  | .alt p q => p.branches t ++ q.branches t
  | p => if p.nullable || p.first.contains t then [p] else []

theorem exists_branch (h : t :: w ∈ lang e * K) : ∃ p ∈ e.branches t, t :: w ∈ lang p * K := by
  induction e with
  | alt p q ihp ihq =>
    rw [lang_alt, add_mul, mem_add] at h
    rcases h with h | h
    · exact (ihp h).imp fun _ hb => ⟨mem_append_left _ hb.1, hb.2⟩
    · exact (ihq h).imp fun _ hb => ⟨mem_append_right _ hb.1, hb.2⟩
  | _ => exact ⟨_, by simp only [Pattern.branches, nullable_or_first h, if_true, mem_singleton], h⟩

theorem mem_of_branch (hp : p ∈ e.branches t) (h : w ∈ lang p) : w ∈ lang e := by
  induction e with
  | alt q q' ih ih' => exact (mem_append.1 hp).elim (fun hp => .left (ih hp)) fun hp => .right (ih' hp)
  | _ =>
    simp only [Pattern.branches] at hp
    split at hp
    · exact mem_singleton.1 hp ▸ h
    · cases hp

theorem cons_mem_terminal_mul {x} : x :: w ∈ lang (.terminal t) * K ↔ x = t ∧ w ∈ K := by
  constructor
  · intro h
    obtain ⟨u, hu, v, hv, huv⟩ := mem_mul.1 h
    rw [mem_lang_terminal.1 hu] at huv
    cases huv
    exact ⟨rfl, hv⟩
  · rintro ⟨rfl, hw⟩
    exact append_mem_mul (mem_lang_terminal.2 rfl) hw

theorem eq_cons_cons_of_mem {x y} (h : w ∈ lang (.seq (.terminal x) (.seq (.terminal y) e)) * K) :
    ∃ v, w = x :: y :: v := by
  simp only [lang_seq, mul_assoc] at h
  obtain ⟨u, hu, v, hv, rfl⟩ := mem_mul.1 h
  obtain ⟨u', hu', v', _, rfl⟩ := mem_mul.1 hv
  rw [mem_lang_terminal.1 hu, mem_lang_terminal.1 hu']
  exact ⟨v', rfl⟩

/-- Whether the words of a pattern do not begin with the terminals `X`, provided that what
follows them does not begin with `X'`. -/
def Pattern.clears (p : Pattern) (X X' : List Terminal) : Bool :=
  p.first.all (fun t => !X.contains t) && (!p.nullable || X.all fun t => X'.contains t)

/-! ### Every pattern derives a word -/

/-- How deep rules have to be nested to derive a word. -/
def Rule.height : Rule → Nat
  | storedDefinition | classType | languageSpecification | externalFunctionCall | elementList | importList
  | typePrefix | typeSpecifierElement | declaration | classModification | equationBlock | statementBlock
  | statementOptions | forIndex | primary | name | componentReferenceElement | functionCallArgs
  | outputExpressionList | subscript | stringComment => 0
  | classPrefixes | basePrefix | composition | constrainingClause | typeSpecifier | modification | equationSection
  | algorithmSection | equationOptions | forIndices | expr | componentReference | functionArgument | arraySubscripts
  | comment | annotationClause => 1
  | classSpecifier | enumerationLiteral | importClause | extendsClause | componentDeclaration | elementModification
  | componentDeclaration1 | shortClassDefinition | equation | statement | forEquation | forStatement
  | connectClause | simpleExpression | functionArguments | namedArgument => 2
  | classDefinition | enumList | element | componentList | elementModificationOrReplaceable | elementRedeclaration
  | elementReplaceable | componentClause1 | expression | namedArguments => 3
  | argumentList => 5
  | _ => 4

/-- Whether a word can be derived with rules of less than the given height. -/
def Pattern.within (height : Nat) : Pattern → Bool
  | .empty => true
  | .terminal _ => true
  | .rule r => r.height < height
  | .seq p q => p.within height && q.within height
  | .alt p q => p.within height || q.within height
  | .star _ => true

theorem Rule.within_body (r : Rule) : r.body.within r.height = true := by
  cases r <;> rfl

theorem exists_derives_of_within (height : Nat) : ∀ p : Pattern, p.within height = true → ∃ w, Derives p w := by
  induction height using Nat.strong_induction_on with
  | _ height ih =>
    intro p hp
    induction p with
    | empty => exact ⟨[], .empty⟩
    | terminal t => exact ⟨[t], .terminal t⟩
    | rule r =>
      obtain ⟨w, hw⟩ := ih r.height (by simpa [Pattern.within] using hp) r.body r.within_body
      exact ⟨w, .rule hw⟩
    | seq p q ihp ihq =>
      rw [Pattern.within, Bool.and_eq_true] at hp
      obtain ⟨u, hu⟩ := ihp hp.1
      obtain ⟨v, hv⟩ := ihq hp.2
      exact ⟨u ++ v, .seq hu hv⟩
    | alt p q ihp ihq =>
      rw [Pattern.within, Bool.or_eq_true] at hp
      rcases hp with hp | hp
      · exact (ihp hp).imp fun _ => .left
      · exact (ihq hp).imp fun _ => .right
    | star p => exact ⟨[], .done⟩

theorem Rule.height_lt (r : Rule) : r.height < 6 := by
  cases r <;> decide

theorem Pattern.within_six (p : Pattern) : p.within 6 = true := by
  induction p with
  | empty | terminal | star => rfl
  | rule r => simpa [Pattern.within] using r.height_lt
  | seq p q ihp ihq => rw [Pattern.within, ihp, ihq, Bool.and_self]
  | alt p q ihp ihq => rw [Pattern.within, ihp, Bool.true_or]

theorem exists_derives (p : Pattern) : ∃ w, Derives p w := exists_derives_of_within 6 p p.within_six

end Modelica.Grammar
