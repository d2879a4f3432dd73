/-
Reading a text does not depend on its layout.

`read_onePerLine`: a text and the text that has one of its tokens on each line have the
same tokens and give the same tree, or fail alike. The lexer finds the tokens again
(`tokens_onePerLine`), and the parser does not look at places (`parse_unplaced`).
-/
import Modelica.Library
import Modelica.Proofs.Token.Lines
import Modelica.Proofs.Syntax.Place

namespace Modelica

variable {text : String} {rest : List Token}

theorem map_unplaced_eq {ts us : List Token} (h : ts.map Token.word = us.map Token.word) :
    ts.map Token.unplaced = us.map Token.unplaced := by
  have hword : Token.unplaced = (fun w : Terminal × String => ⟨w.1, w.2, {}⟩) ∘ Token.word := rfl
  rw [hword, ← List.map_map, h, List.map_map]

theorem dropped_eq_nil {ls} (h : ∀ l ∈ ls, l.kind ≠ .unrecognised) (n : Nat) : dropped n ls = [] := by
  fun_induction dropped n ls <;> simp_all

/-- The second reading gives what the first one gave, and drops nothing. Where the text
cannot be continued, the places may differ. -/
inductive Rereads : EStateM.Result Fault Graph Loaded → EStateM.Result Fault Graph Loaded → Prop
  | tree (root : Id) (ds : List Dropped) (g : Graph) : Rereads (.ok ⟨root, ds⟩ g) (.ok ⟨root, []⟩ g)
  | unexpected (p q : Position) (g : Graph) : Rereads (.error (.unexpected p) g) (.error (.unexpected q) g)
  | fault (f : Fault) (g : Graph) : Rereads (.error f g) (.error f g)

theorem read_of_error (h : Syntax.parse (tokens text) = .error rest) (g : Graph) :
    ∃ p, Build.read text g = .error (.unexpected p) g := by
  unfold tokens at h
  simp only [Build.read, h]
  exact ⟨_, rfl⟩

theorem read_of_ok {file} (h : Syntax.parse (tokens text) = .ok (file, rest)) :
    ∃ n, Build.read text = Build.treeOf file >>= fun root => pure ⟨root, dropped n (Lexer.lexemes text)⟩ := by
  unfold tokens at h
  simp only [Build.read, h]
  exact ⟨_, rfl⟩

theorem rereads_of_words {other : String} (hwords : (tokens other).map Token.word = (tokens text).map Token.word)
    (hclean : ∀ l ∈ Lexer.lexemes other, l.kind ≠ .unrecognised) (g : Graph) :
    Rereads (Build.read text g) (Build.read other g) := by
  have hparse : Syntax.unplacedOutcome (Syntax.parse (tokens other)) = Syntax.unplacedOutcome (Syntax.parse (tokens text)) := by
    rw [← Syntax.parse_unplaced, map_unplaced_eq hwords, Syntax.parse_unplaced]
  rcases hfirst : Syntax.parse (tokens text) with rest | ⟨file, rest⟩ <;>
    rcases hsecond : Syntax.parse (tokens other) with rest' | ⟨file', rest'⟩ <;>
    rw [hfirst, hsecond] at hparse
  · obtain ⟨p, hp⟩ := read_of_error hfirst g
    obtain ⟨q, hq⟩ := read_of_error hsecond g
    rw [hp, hq]
    exact .unexpected p q g
  · cases hparse
  · cases hparse
  · obtain ⟨rfl, -⟩ := Prod.mk.inj (Except.ok.inj hparse)
    obtain ⟨n, hn⟩ := read_of_ok hfirst
    obtain ⟨m, hm⟩ := read_of_ok hsecond
    rw [hn, hm, dropped_eq_nil hclean]
    show Rereads (EStateM.bind _ _ g) (EStateM.bind _ _ g)
    unfold EStateM.bind
    cases Build.treeOf file' g with
    | ok root g' => exact .tree root _ g'
    | error f g' => exact .fault f g'

/-- **Layout does not matter**: with each token of a text on a line of its own the lexer
finds the same tokens and drops nothing, and reading gives the same tree or the same kind
of failure. -/
theorem read_onePerLine (text : String) :
    (tokens (onePerLine (tokens text))).map Token.word = (tokens text).map Token.word ∧
      (∀ l ∈ Lexer.lexemes (onePerLine (tokens text)), l.kind ≠ .unrecognised) ∧
      ∀ g, Rereads (Build.read text g) (Build.read (onePerLine (tokens text)) g) := by
  obtain ⟨hwords, hclean⟩ := Lexer.tokens_onePerLine text
  exact ⟨hwords, hclean, rereads_of_words hwords hclean⟩

end Modelica
