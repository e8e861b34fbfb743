import GrammarReach.Proofs.Saturation.Compilation

/-!
# Languages of grammars

A nonterminal yields tuples of words.  Each rule says how the words of its head are made
of its label and of the words of its bodies, where the epsilon label adds nothing to a
word.  The accepted words are those that the start nonterminal yields alone.
-/

namespace GrammarReach

/-- The labels of a word that are not epsilon. -/
def lettersOf (word : List Label) : List Label :=
  word.filter (· != Grammar.epsilon)

section Letters

variable {label : Label} {word : List Label}

@[simp] theorem lettersOf_nil : lettersOf [] = [] := rfl

@[simp] theorem lettersOf_epsilon_cons (word : List Label) :
    lettersOf (Grammar.epsilon :: word) = lettersOf word :=
  List.filter_cons_of_neg (by simp)

theorem lettersOf_cons_of_ne (letter : label ≠ Grammar.epsilon) :
    lettersOf (label :: word) = label :: lettersOf word :=
  List.filter_cons_of_pos (by simpa using letter)

@[simp] theorem lettersOf_append (left right : List Label) :
    lettersOf (left ++ right) = lettersOf left ++ lettersOf right :=
  List.filter_append left right

end Letters

/-- The word that a reference names among the words of each body. -/
def SegmentRef.word? (words : Nat → List (List Label)) (reference : SegmentRef) :
    Option (List Label) :=
  (words reference.body)[reference.segment]?

/-- The words of the head, each the words along its chain one behind the other. -/
def ConcatenationRule.words? (rule : ConcatenationRule) (words : Nat → List (List Label)) :
    Option (List (List Label)) :=
  rule.wiring.mapM fun chain => (chain.mapM (SegmentRef.word? words)).map List.flatten

/-- The nonterminal yields the words. -/
inductive Grammar.Yields (grammar : Grammar) : Nonterminal → List (List Label) → Prop where
  | basic {rule : BasicRule} :
      rule ∈ grammar.basic → Yields grammar rule.head [lettersOf [rule.label]]
  | prepend {rule : ExtensionRule} {words : List (List Label)} {word : List Label} :
      rule ∈ grammar.prepend → Yields grammar rule.body words →
      words[rule.index]? = some word →
      Yields grammar rule.head (words.set rule.index (lettersOf [rule.label] ++ word))
  | append {rule : ExtensionRule} {words : List (List Label)} {word : List Label} :
      rule ∈ grammar.append → Yields grammar rule.body words →
      words[rule.index]? = some word →
      Yields grammar rule.head (words.set rule.index (word ++ lettersOf [rule.label]))
  | insert {rule : InsertionRule} {words : List (List Label)} :
      rule ∈ grammar.insert → Yields grammar rule.body words →
      rule.index ≤ words.length →
      Yields grammar rule.head (words.insertIdx rule.index (lettersOf [rule.label]))
  | concatenate {rule : ConcatenationRule} {result : List (List Label)}
      (words : Nat → List (List Label)) :
      rule ∈ grammar.concatenate → rule.Proper →
      (∀ position name, rule.bodies[position]? = some name →
        Yields grammar name (words position)) →
      rule.words? words = some result → Yields grammar rule.head result

/-- The word alone is yielded by the start nonterminal. -/
def Grammar.Accepts (grammar : Grammar) (word : List Label) : Prop :=
  grammar.Yields Grammar.startName [word]

end GrammarReach
