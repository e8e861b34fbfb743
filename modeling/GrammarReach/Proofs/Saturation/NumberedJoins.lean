import GrammarReach.Proofs.Saturation.Compilation

/-!
# Joins by number

A program files a join under each of its bodies.  When the joins of a grammar stand in one row
and only their numbers are filed, every number leads to the join that the program files.
-/

namespace GrammarReach

namespace Nonterminals

/-- The join of a concatenation, if it can derive something. -/
def internJoin (arity : ConcatenationRule → Nat → Nat) (nonterminals : Nonterminals)
    (rule : ConcatenationRule) : Nonterminals × Option Join :=
  if rule.bodies.isEmpty || rule.wiring.any List.isEmpty then
    (nonterminals, none)
  else
    let (bodies, nonterminals) := nonterminals.internAll rule.bodies
    if rule.wiring.flatten.any fun reference => bodies.length ≤ reference.body then
      (nonterminals, none)
    else
      let (head, nonterminals) := nonterminals.intern rule.head
      (nonterminals, some
        { head, bodies
          wiring := rule.wiring
          links := rule.links
          arities := (List.range bodies.length).map (arity rule) })

end Nonterminals

/-- The joins of a grammar in a row, and the uses of their numbers: the number of a join with
a position, under the body at that position. -/
structure JoinFile where
  joins : Array Join := #[]
  uses : Keyed NonterminalId (Nat × Nat) := .empty

namespace JoinFile

/-- Appends a join and files its number under each of its bodies. -/
def file (file : JoinFile) (join : Join) : JoinFile where
  joins := file.joins.push join
  uses := join.bodies.zipIdx.foldl
    (fun uses (body, position) => uses.push body (file.joins.size, position)) file.uses

/-- Files the join of a concatenation, if it has one. -/
def fileRule (arity : ConcatenationRule → Nat → Nat) (state : Nonterminals × JoinFile)
    (rule : ConcatenationRule) : Nonterminals × JoinFile :=
  ((state.1.internJoin arity rule).1, (state.1.internJoin arity rule).2.elim state.2 state.2.file)

/-- Files the joins of concatenations in their order. -/
def ofRules (arity : ConcatenationRule → Nat → Nat) (nonterminals : Nonterminals)
    (rules : List ConcatenationRule) : Nonterminals × JoinFile :=
  rules.foldl (fileRule arity) (nonterminals, {})

/-- The joins of a grammar, with the numbers of nonterminals that its program has. -/
def compile (arity : ConcatenationRule → Nat → Nat) (grammar : Grammar) : JoinFile :=
  let (_, nonterminals) := Nonterminals.empty.intern Grammar.startName
  let (nonterminals, _) := Program.fileBasic nonterminals grammar.basic
  let (nonterminals, _) := Program.fileExtensions nonterminals grammar.prepend
  let (nonterminals, _) := Program.fileExtensions nonterminals grammar.append
  let (nonterminals, _) := Program.fileInsertions nonterminals grammar.insert
  (ofRules arity nonterminals grammar.concatenate).2

/-- The joins of a grammar with arities in machine words. -/
def inWords (grammar : Grammar) : JoinFile :=
  compile ConcatenationRule.wordArity grammar

/-- The join with the number of a use, and the position. -/
def resolve? (joins : Array Join) (use : Nat × Nat) : Option (Join × Nat) :=
  (joins[use.1]?).map (·, use.2)

/-- Every number that is used is the place of the join that is filed. -/
def Resolves (joins : Array Join) (uses : Keyed NonterminalId (Nat × Nat))
    (filed : Keyed NonterminalId (Join × Nat)) : Prop :=
  ∀ body, (uses.row body).toList.map (resolve? joins) = (filed.row body).toList.map some

section Resolves

variable {joins : Array Join} {uses : Keyed NonterminalId (Nat × Nat)}
  {filed : Keyed NonterminalId (Join × Nat)} {join : Join}

theorem Resolves.push (resolves : Resolves joins uses filed) (join : Join) :
    Resolves (joins.push join) uses filed := by
  intro body
  rw [← resolves body]
  refine List.map_congr_left fun use member => ?_
  have found : resolve? joins use ∈ (filed.row body).toList.map some :=
    resolves body ▸ List.mem_map_of_mem member
  obtain ⟨_, _, leads⟩ := List.mem_map.mp found
  obtain ⟨known, place, _⟩ := Option.map_eq_some_iff.mp leads.symm
  have inside : use.1 < joins.size := (Array.getElem?_eq_some_iff.mp place).1
  rw [resolve?, resolve?, Array.getElem?_push, if_neg (Nat.ne_of_lt inside)]

theorem Resolves.use {number : Nat} (place : joins[number]? = some join)
    (items : List (NonterminalId × Nat)) (resolves : Resolves joins uses filed) :
    Resolves joins
      (items.foldl (fun uses (body, position) => uses.push body (number, position)) uses)
      (items.foldl (fun filed (body, position) => filed.push body (join, position)) filed) := by
  induction items generalizing uses filed with
  | nil => exact resolves
  | cons item items induction =>
      refine induction fun body => ?_
      rw [Keyed.row_push, Keyed.row_push]
      split
      · rename_i same
        rw [Array.toList_push, Array.toList_push, List.map_append, List.map_append,
          resolves item.1]
        simp [resolve?, place]
      · exact resolves body

theorem Resolves.file {file : JoinFile} (resolves : Resolves file.joins file.uses filed)
    (join : Join) :
    Resolves (file.file join).joins (file.file join).uses (join.bodies.zipIdx.foldl
      (fun filed (body, position) => filed.push body (join, position)) filed) :=
  (resolves.push join).use Array.getElem?_push_size _

end Resolves

private theorem fileConcatenation_eq_internJoin {arity : ConcatenationRule → Nat → Nat}
    (state : Nonterminals × Keyed NonterminalId (Join × Nat)) (rule : ConcatenationRule) :
    Program.fileConcatenation arity state rule =
      ((state.1.internJoin arity rule).1, (state.1.internJoin arity rule).2.elim state.2 fun join =>
        join.bodies.zipIdx.foldl
          (fun filed (body, position) => filed.push body (join, position)) state.2) := by
  obtain ⟨nonterminals, filed⟩ := state
  rw [Program.fileConcatenation, Nonterminals.internJoin]
  dsimp only
  generalize nonterminals.internAll rule.bodies = interned
  obtain ⟨bodies, nonterminals⟩ := interned
  by_cases hollow : (rule.bodies.isEmpty || rule.wiring.any List.isEmpty) = true
  · simp only [hollow, if_true, Option.elim_none]
  · simp only [hollow]
    by_cases dangling :
        (rule.wiring.flatten.any fun reference => bodies.length ≤ reference.body) = true
    · simp [dangling]
    · simp [dangling]

private theorem resolves_foldl {arity : ConcatenationRule → Nat → Nat}
    (rules : List ConcatenationRule) {nonterminals : Nonterminals} {file : JoinFile} {filed : Keyed NonterminalId (Join × Nat)}
    (resolves : Resolves file.joins file.uses filed) :
    Resolves (rules.foldl (fileRule arity) (nonterminals, file)).2.joins
      (rules.foldl (fileRule arity) (nonterminals, file)).2.uses
      (rules.foldl (Program.fileConcatenation arity) (nonterminals, filed)).2 := by
  induction rules generalizing nonterminals file filed with
  | nil => exact resolves
  | cons rule rules induction =>
      rw [List.foldl_cons, List.foldl_cons, fileConcatenation_eq_internJoin]
      refine induction ?_
      cases (nonterminals.internJoin arity rule).2 with
      | none => exact resolves
      | some join => exact resolves.file join

theorem resolves_compile (arity : ConcatenationRule → Nat → Nat) (grammar : Grammar) :
    Resolves (compile arity grammar).joins (compile arity grammar).uses
      (Program.compile arity grammar).2.joins :=
  resolves_foldl grammar.concatenate fun body => by simp [Keyed.row_empty]

end JoinFile

end GrammarReach
