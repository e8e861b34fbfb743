import GrammarReach.Proofs.Grammar.ClauseShapes
import GrammarReach.Proofs.Saturation.Solutions

/-!
# Numbers of segments

Solving ends exactly when the numbers of segments are bounded.  A text that writes
every nonterminal with one number of arguments bounds them by the dimension of its
grammar.  Other texts are read as well, and their tuples may grow forever.
-/

namespace GrammarReach

/-! ## Declared numbers -/

/-- The rule declares the given numbers of segments for its nonterminals. -/
def Rule.Declares (arity : Nonterminal → Nat) : Rule → Prop
  | .basic rule => arity rule.head = 1
  | .prepend rule => arity rule.head = rule.arity ∧ arity rule.body = rule.arity
  | .append rule => arity rule.head = rule.arity ∧ arity rule.body = rule.arity
  | .insert rule => arity rule.head = rule.bodyArity + 1 ∧ arity rule.body = rule.bodyArity
  | .concatenate rule => arity rule.head = rule.wiring.length

section Declared

variable {grammar : Grammar} {arity : Nonterminal → Nat}

theorem Grammar.mem_rules {rule : Rule} :
    rule ∈ grammar.rules ↔
      (∃ basic ∈ grammar.basic, .basic basic = rule) ∨
      (∃ prepend ∈ grammar.prepend, .prepend prepend = rule) ∨
      (∃ append ∈ grammar.append, .append append = rule) ∨
      (∃ insert ∈ grammar.insert, .insert insert = rule) ∨
      ∃ concatenate ∈ grammar.concatenate, .concatenate concatenate = rule := by
  simp only [rules, List.mem_append, List.mem_map, or_assoc]

theorem Grammar.hasArities_of_declares
    (declares : ∀ rule ∈ grammar.rules, rule.Declares arity) : grammar.HasArities arity := by
  simp only [Grammar.mem_rules] at declares
  constructor
  · intro rule member
    exact declares _ (.inl ⟨rule, member, rfl⟩)
  · intro rule member
    have both := declares _ (.inr (.inl ⟨rule, member, rfl⟩))
    exact both.1.trans both.2.symm
  · intro rule member
    have both := declares _ (.inr (.inr (.inl ⟨rule, member, rfl⟩)))
    exact both.1.trans both.2.symm
  · intro rule member
    have both := declares _ (.inr (.inr (.inr (.inl ⟨rule, member, rfl⟩))))
    exact both.1.trans (congrArg (· + 1) both.2.symm)
  · intro rule member
    exact declares _ (.inr (.inr (.inr (.inr ⟨rule, member, rfl⟩))))

private theorem le_foldl_max {items : List Nat} {start item : Nat}
    (small : item ≤ start ∨ item ∈ items) : item ≤ items.foldl max start := by
  induction items generalizing start with
  | nil => simpa using small
  | cons first items induction =>
      apply induction
      rcases small with below | member
      · exact .inl (Nat.le_trans below (Nat.le_max_left _ _))
      · rcases List.mem_cons.mp member with rfl | later
        · exact .inl (Nat.le_max_right _ _)
        · exact .inr later

theorem Grammar.arity_head_le_dimension {rule : Rule} (member : rule ∈ grammar.rules)
    (declares : rule.Declares arity) : arity rule.head ≤ grammar.dimension := by
  apply le_foldl_max
  simp only [List.mem_append, List.mem_map]
  rcases Grammar.mem_rules.mp member with ⟨basic, _, rfl⟩ | ⟨prepend, inPrepend, rfl⟩ |
    ⟨append, inAppend, rfl⟩ | ⟨insert, inInsert, rfl⟩ | ⟨concatenate, inConcatenate, rfl⟩
  · exact .inl (Nat.le_of_eq declares)
  · exact .inr (.inl (.inl (.inl ⟨prepend, inPrepend, declares.1.symm⟩)))
  · exact .inr (.inl (.inl (.inr ⟨append, inAppend, declares.1.symm⟩)))
  · exact .inr (.inl (.inr ⟨insert, inInsert, declares.1.symm⟩))
  · exact .inr (.inr ⟨concatenate, inConcatenate, declares.symm⟩)

end Declared

/-! ## Written numbers -/

/-- The clause writes its nonterminals with the given numbers of arguments. -/
def AtomClause.Writes (arity : Nonterminal → Nat) (clause : AtomClause) : Prop :=
  ∀ atom ∈ clause.head :: clause.bodies, arity atom.name = atom.arguments.length

instance (arity : Nonterminal → Nat) (clause : AtomClause) :
    Decidable (clause.Writes arity) :=
  inferInstanceAs (Decidable (∀ atom ∈ clause.head :: clause.bodies, _ = _))

/-- The clauses in the lines of a grammar text. -/
def Grammar.clausesOf (text : String) : List AtomClause :=
  ((Text.lines text.toList).filter Clause.isClauseLine).filterMap fun line =>
    AtomClause.read (Clause.beforeStop (Text.trim line))

section Written

variable {arity : Nonterminal → Nat}

theorem AtomClause.toRule_declares {clause : AtomClause} {rule : Rule}
    (read : clause.toRule = .ok rule) (writes : clause.Writes arity) :
    rule.Declares arity := by
  have headWritten := writes clause.head List.mem_cons_self
  have bodyWritten : ∀ body, clause.bodies = [body] → arity body.name = body.arguments.length :=
    fun body bodies => writes body (by simp [bodies])
  cases AtomClause.toRule_eq_ok_iff.mp read with
  | basic _ single =>
      rw [single] at headWritten
      exact headWritten
  | append bodies same _ _ _ => exact ⟨headWritten.trans same, bodyWritten _ bodies⟩
  | prepend bodies same _ _ _ => exact ⟨headWritten.trans same, bodyWritten _ bodies⟩
  | insert bodies longer _ => exact ⟨headWritten.trans longer, bodyWritten _ bodies⟩
  | concatenate concatenates _ =>
      have headName := congrArg arity concatenates.head
      exact headName.trans (headWritten.trans concatenates.wired.length_eq)

private theorem mem_of_mem_ofRules {rules : List Rule} {rule : Rule}
    (member : rule ∈ (Grammar.ofRules rules).rules) : rule ∈ rules := by
  rcases Grammar.mem_rules.mp member with ⟨_, found, rfl⟩ | ⟨_, found, rfl⟩ |
    ⟨_, found, rfl⟩ | ⟨_, found, rfl⟩ | ⟨_, found, rfl⟩
  all_goals
    obtain ⟨other, inRules, same⟩ := List.mem_filterMap.mp found
    cases other with
    | basic _ => simp_all
    | prepend _ => simp_all
    | append _ => simp_all
    | insert _ => simp_all
    | concatenate _ => simp_all

theorem Grammar.exists_clause {text : String} {grammar : Grammar}
    (read : Grammar.read text = .ok grammar) {rule : Rule} (member : rule ∈ grammar.rules) :
    ∃ clause ∈ Grammar.clausesOf text, clause.toRule = .ok rule := by
  simp only [Grammar.read, bind, Except.bind, pure, Except.pure] at read
  split at read
  · cases read
  · rename_i rules ruled
    cases read
    obtain ⟨⟨line, index⟩, inLines, lineRead⟩ :=
      exists_related (AtomClause.mapM_eq_ok_iff.mp ruled) (mem_of_mem_ofRules member)
    obtain ⟨numbered, isClause⟩ := List.mem_filter.mp inLines
    split at lineRead
    · rename_i found ruleRead
      cases lineRead
      simp only [Rule.read, String.toList_ofList] at ruleRead
      split at ruleRead
      · cases ruleRead
      · rename_i clause clauseRead
        refine ⟨clause, List.mem_filterMap.mpr ⟨line, ?_, clauseRead⟩, ruleRead⟩
        exact List.mem_filter.mpr ⟨(List.mem_zipIdx' numbered).2 ▸ List.getElem_mem _, isClause⟩
    · cases lineRead

theorem Grammar.declares_of_read {text : String} {grammar : Grammar}
    (read : Grammar.read text = .ok grammar)
    (writes : ∀ clause ∈ Grammar.clausesOf text, clause.Writes arity) :
    ∀ rule ∈ grammar.rules, rule.Declares arity := by
  intro rule member
  obtain ⟨clause, inText, ruled⟩ := Grammar.exists_clause read member
  exact AtomClause.toRule_declares ruled (writes clause inText)

end Written

/-! ## Runs that end -/

section Solve

variable {graph : Graph} {grammar : Grammar}

theorem solveEnds_iff_bounded (built : graph.Built) (options : SolveOptions) :
    SolveEnds graph grammar options ↔ ∃ limit,
      ∀ entry ∈ grammar.leastClosed graph graph.Linked, entry.2.length ≤ limit := by
  constructor
  · intro ends
    let table := (solve graph grammar options).derivations.entries
    refine ⟨(table.map fun entry => entry.2.length).sum, fun entry member => ?_⟩
    have held : entry ∈ table := (mem_entries_solve built ends).mpr member
    exact List.le_sum_of_mem (List.mem_map.mpr ⟨entry, held, rfl⟩)
  · rintro ⟨limit, short⟩
    exact solveEnds_of_bounded built short options

/-- Solving a grammar that was read from a text ends exactly when the numbers of segments
are bounded.  It does when the text writes every nonterminal with one number of arguments,
and then all derivations have these numbers of segments. -/
theorem segmentCounts_solve {text : String} (read : Grammar.read text = .ok grammar)
    (built : graph.Built) (options : SolveOptions) :
    (SolveEnds graph grammar options ↔ ∃ limit,
        ∀ entry ∈ grammar.leastClosed graph graph.Linked, entry.2.length ≤ limit) ∧
      ∀ arity, (∀ clause ∈ Grammar.clausesOf text, clause.Writes arity) →
        SolveEnds graph grammar options ∧
          ∀ entry ∈ (solve graph grammar options).derivations.entries,
            entry.2.length = arity entry.1 ∧ entry.2.length ≤ grammar.dimension := by
  refine ⟨solveEnds_iff_bounded built options, fun arity writes => ?_⟩
  have declares := Grammar.declares_of_read read writes
  have arities := Grammar.hasArities_of_declares declares
  have ends := arities.solveEnds built options
  refine ⟨ends, fun entry held => ?_⟩
  have member := (mem_entries_solve built ends).mp held
  have length := arities.length_eq member
  obtain ⟨rule, inRules, head⟩ := Grammar.exists_rule_of_mem_leastClosed member
  refine ⟨length, ?_⟩
  rw [length, ← head]
  exact Grammar.arity_head_le_dimension inRules (declares rule inRules)

end Solve

def nestedText : String :=
  "A(a).\nS(b).\nS(d X0) :- S(X0).\nS(X0 d) :- S(X0).\nP(X0, c) :- A(X0).\n" ++
    "S(X0 Y0 X1) :- P(X0, X1), S(Y0).\nS(X0 Y0) :- S(X0), S(Y0)."

/-- The text of the nested pairs writes `P` with two arguments and the rest with one. -/
theorem segmentCounts_nestedPairs :
    Grammar.read nestedText = .ok nestedPairs ∧ cycleGraph.Built ∧
      (∀ clause ∈ Grammar.clausesOf nestedText,
        clause.Writes fun name => if name = "P" then 2 else 1) ∧
      SolveEnds cycleGraph nestedPairs {} ∧
      ∀ entry ∈ (solve cycleGraph nestedPairs {}).derivations.entries,
        entry.2.length = (if entry.1 = "P" then 2 else 1) ∧
          entry.2.length ≤ nestedPairs.dimension := by
  have read : Grammar.read nestedText = .ok nestedPairs := by decide +kernel
  have built : cycleGraph.Built := Graph.built_ofEdges _
  have writes : ∀ clause ∈ Grammar.clausesOf nestedText,
      clause.Writes fun name => if name = "P" then 2 else 1 := by decide +kernel
  exact ⟨read, built, writes, (segmentCounts_solve read built {}).2 _ writes⟩

/-! ## Tuples that grow -/

def growingText : String :=
  "S(a).\nS(X0, a) :- S(X0)."

/-- Every tuple can be given another segment for `a`. -/
def growingTuples : Grammar where
  basic := [⟨"S", "a"⟩]
  insert := [⟨"S", "S", "a", 1, 1⟩]

def loopGraph : Graph :=
  .ofEdges [⟨0, 0, "a"⟩]

def pathGraph : Graph :=
  .ofEdges [⟨0, 1, "a"⟩, ⟨1, 2, "a"⟩, ⟨2, 3, "a"⟩]

private theorem mem_leastClosed_growingTuples (count : Nat) :
    ("S", List.replicate (count + 1) ⟨0, 0⟩) ∈
      growingTuples.leastClosed loopGraph loopGraph.Linked := by
  have linked : ∀ count, loopGraph.Linked (List.replicate count ⟨0, 0⟩) := by
    intro count
    exact List.isChain_replicate_of_rel count (.refl loopGraph 0)
  induction count with
  | zero =>
      exact Grammar.mem_leastClosed_of_infers
        (@Grammar.Infers.basic _ _ _ ⟨"S", "a"⟩ ⟨0, 0, "a"⟩ (by decide) (by decide +kernel)
          rfl) (linked 1)
  | succ count induction =>
      have longer : (List.replicate (count + 1) (⟨0, 0⟩ : Span)).insertIdx 1 ⟨0, 0⟩ =
          List.replicate (count + 2) ⟨0, 0⟩ := rfl
      rw [← longer]
      exact Grammar.mem_leastClosed_of_infers
        (@Grammar.Infers.insert _ _ _ ⟨"S", "S", "a", 1, 1⟩ _ ⟨0, 0, "a"⟩ (by decide)
          induction (by simp) (by decide +kernel) rfl) (linked (count + 2))

/-- On a loop the tuples grow forever, and on a path they exceed the dimension. -/
theorem endless_growingTuples :
    Grammar.read growingText = .ok growingTuples ∧ loopGraph.Built ∧
      (∀ options, ¬ SolveEnds loopGraph growingTuples options) ∧
      pathGraph.Built ∧ SolveEnds pathGraph growingTuples {} ∧
      ("S", [⟨0, 1⟩, ⟨1, 2⟩, ⟨2, 3⟩]) ∈
        (solve pathGraph growingTuples {}).derivations.entries ∧
      growingTuples.dimension < 3 := by
  refine ⟨rfl, Graph.built_ofEdges _, ?_, Graph.built_ofEdges _, ⟨7, by decide +kernel⟩,
    by decide +kernel, by decide⟩
  intro options ends
  obtain ⟨limit, short⟩ := (solveEnds_iff_bounded (Graph.built_ofEdges _) options).mp ends
  have long := short _ (mem_leastClosed_growingTuples limit)
  rw [List.length_replicate] at long
  exact Nat.not_succ_le_self limit long

end GrammarReach
