import GrammarReach.Proofs.Saturation.CheckedRuns
import GrammarReach.Proofs.Saturation.IndexedJoin
import GrammarReach.Proofs.Saturation.SegmentCounts

/-!
# Rules that refer to missing segments

A rule may refer to a segment that a derivation does not have, or to a body that the rule
does not have.  Such an instance of the rule derives nothing, and a step does what it does
when the rule is left out.  A rule that never finds its segments can be left out of the
grammar.
-/

namespace GrammarReach

/-! ## Rules with their segments -/

namespace Keyed

variable {κ β : Type} [Ord κ]

/-- Keeps the values that pass a test. -/
def select (keyed : Keyed κ β) (test : β → Bool) : Keyed κ β :=
  ⟨keyed.rows.map fun _ row => row.filter test⟩

theorem row_select [Std.TransOrd κ] [Std.LawfulEqOrd κ] (keyed : Keyed κ β)
    (test : β → Bool) (key : κ) :
    (keyed.select test).row key = (keyed.row key).filter test := by
  simp only [row, select, Std.TreeMap.getD_eq_getD_getElem?, Std.TreeMap.getElem?_map]
  cases keyed.rows[key]? with
  | none => rfl
  | some row => rfl

end Keyed

private theorem flatMap_select {α β : Type} {items : List α} {test : α → Bool}
    {give : α → List β} (silent : ∀ item ∈ items, test item = false → give item = []) :
    (items.filter test).flatMap give = items.flatMap give := by
  induction items with
  | nil => rfl
  | cons item items induction =>
      have later := induction fun other member => silent other (by simp [member])
      cases passes : test item with
      | true => simp [passes, later]
      | false => simp [passes, later, silent item (by simp) passes]

namespace Join

/-- Every body has a derivation with the segments that the join refers to, and at the given
position this is the given derivation. -/
def isSupplied (table : DerivationTable) (join : Join) (position : Nat)
    (derivation : Derivation) : Bool :=
  join.arityAt position ≤ derivation.dimension &&
    join.bodies.zipIdx.all fun (body, other) =>
      (table.ofNonterminal body).any (join.fits table other)

variable {table : DerivationTable} {join : Join} {position : Nat} {id : DerivationId}
  {derivation : Derivation} {ids : List DerivationId}

theorem isSupplied_of_mem_combinations (coherent : table.Coherent)
    (place : table.derivation? id = some derivation)
    (body : join.bodies[position]? = some derivation.nonterminal)
    (member : ids ∈ join.combinations table position id derivation) :
    join.isSupplied table position derivation = true := by
  obtain ⟨bodies, holds, names, arities, _⟩ := combinations_sound coherent place body member
  rw [isSupplied, Bool.and_eq_true, decide_eq_true_eq, List.all_eq_true]
  constructor
  · by_contra small
    rw [combinations, if_pos (Nat.lt_of_not_le small)] at member
    cases member
  · rintro ⟨name, other⟩ filed
    have found := List.mk_mem_zipIdx_iff_getElem?.mp filed
    have inside := (List.getElem?_eq_some_iff.mp found).1
    rw [← names, List.getElem?_map] at found
    obtain ⟨other, bodyFound, rfl⟩ := Option.map_eq_some_iff.mp found
    obtain ⟨otherId, _, otherPlace⟩ := holds.of_body bodyFound
    have arity := arities _ inside
    rw [Derivation.segmentsAt_eq bodyFound] at arity
    rw [Array.any_eq_true']
    exact ⟨otherId, (coherent.nonterminals _ _).mpr ⟨other, otherPlace, rfl⟩,
      fits_iff.mpr ⟨other, otherPlace, arity⟩⟩

end Join

/-- The program with the rules only whose segments are there for the derivation. -/
def Program.supplied (program : Program) (table : DerivationTable) (derivation : Derivation) :
    Program :=
  { program with
    prepend := program.prepend.select fun step => step.index < derivation.dimension
    append := program.append.select fun step => step.index < derivation.dimension
    insert := program.insert.select fun step => step.index ≤ derivation.dimension
    joins := program.joins.select fun (join, position) =>
      join.isSupplied table position derivation }

namespace Candidate

variable {graph : Graph} {program : Program} {table : DerivationTable} {id : DerivationId}
  {derivation : Derivation}

private theorem ofPrepends_supplied :
    ofPrepends graph (program.supplied table derivation) id derivation =
      ofPrepends graph program id derivation := by
  rw [ofPrepends, Program.supplied, Keyed.row_select, Array.toList_filter]
  refine flatMap_select fun step _ missing => ?_
  have outside : derivation.segments.length ≤ step.index :=
    Nat.le_of_not_lt (of_decide_eq_false missing)
  rw [List.getElem?_eq_none outside]

private theorem ofAppends_supplied :
    ofAppends graph (program.supplied table derivation) id derivation =
      ofAppends graph program id derivation := by
  rw [ofAppends, Program.supplied, Keyed.row_select, Array.toList_filter]
  refine flatMap_select fun step _ missing => ?_
  have outside : derivation.segments.length ≤ step.index :=
    Nat.le_of_not_lt (of_decide_eq_false missing)
  rw [List.getElem?_eq_none outside]

private theorem ofInsertions_supplied :
    ofInsertions graph (program.supplied table derivation) id derivation =
      ofInsertions graph program id derivation := by
  rw [ofInsertions, Program.supplied, Keyed.row_select, Array.toList_filter]
  refine flatMap_select fun step _ missing => ?_
  exact if_pos (Nat.lt_of_not_le (of_decide_eq_false missing))

private theorem ofJoins_supplied (coherent : table.Coherent) (wellFiled : program.WellFiled)
    (place : table.derivation? id = some derivation) :
    ofJoins (program.supplied table derivation) table id derivation =
      ofJoins program table id derivation := by
  rw [ofJoins, Program.supplied, Keyed.row_select, Array.toList_filter]
  refine flatMap_select fun use member missing => ?_
  obtain ⟨join, position⟩ := use
  have filed := Array.mem_toList_iff.mp member
  have body := (wellFiled.filed _ _ _ ⟨_, _, filed⟩).mp filed
  have none : join.combinations table position id derivation = [] :=
    List.eq_nil_iff_forall_not_mem.mpr fun ids combined => Bool.false_ne_true
      (missing.symm.trans (Join.isSupplied_of_mem_combinations coherent place body combined))
  exact congrArg (List.filterMap (join.assemble? table)) none

theorem all_supplied (coherent : table.Coherent) (wellFiled : program.WellFiled)
    (place : table.derivation? id = some derivation) :
    all graph (program.supplied table derivation) table id derivation =
      all graph program table id derivation := by
  rw [all, all, ofPrepends_supplied, ofAppends_supplied, ofInsertions_supplied,
    ofJoins_supplied coherent wellFiled place]

end Candidate

namespace Join

variable {program : Program} {nonterminals : Nonterminals} {grammar : Grammar}
  {table : DerivationTable} {join : Join} {position : Nat} {id : DerivationId}
  {derivation : Derivation} {ids : List DerivationId}

theorem exists_segment_of_mem_combinations
    (represents : program.Represents nonterminals grammar) (coherent : table.Coherent)
    (place : table.derivation? id = some derivation)
    (filed : (join, position) ∈ program.joins.row derivation.nonterminal)
    (member : ids ∈ join.combinations table position id derivation) {reference : SegmentRef}
    (referred : reference ∈ join.wiring.flatten) :
    ∃ span, table.segment? ids reference = some span := by
  obtain ⟨rule, _, proper, numbers, body⟩ := (represents.joins _ _ _).mp filed
  obtain ⟨bodies, holds, _, arities, _⟩ := combinations_sound coherent place body member
  exact exists_segment_of_holds proper numbers holds arities reference (numbers.wiring ▸ referred)

end Join

/-! ## Steps without the rules that miss segments -/

/-- A step makes what the instances of rules make that have all their segments.  It does not
need the other rules. -/
structure RunState.SkipsMissing (problem : Problem) (state : RunState)
    (derivation : Derivation) : Prop where
  segments : ∀ join position, (join, position) ∈ problem.program.joins.row derivation.nonterminal →
    ∀ ids ∈ join.combinations state.table position state.taken derivation,
      ∀ reference ∈ join.wiring.flatten, ∃ span, state.table.segment? ids reference = some span
  made : ∀ candidate ∈ Candidate.all problem.graph problem.program state.table state.taken
    derivation, candidate.MadeIn problem.graph problem.program state.table
  offered : ∀ ids bodies edge made, state.table.Holds ids bodies →
    problem.program.Makes problem.graph bodies edge made → state.taken ∈ ids →
      ⟨made, edge, ids⟩ ∈ Candidate.all problem.graph problem.program state.table state.taken
        derivation
  advance : state.advance problem = state.advance
    { problem with program := problem.program.supplied state.table derivation }

theorem RunState.Valid.skipsMissing {problem : Problem} {nonterminals : Nonterminals}
    {grammar : Grammar} {state : RunState} (indexed : problem.graph.Indexed)
    (represents : problem.program.Represents nonterminals grammar)
    (valid : state.Valid problem) {derivation : Derivation}
    (found : state.table.derivation? state.taken = some derivation) :
    state.SkipsMissing problem derivation where
  segments _ _ filed _ member _ :=
    Join.exists_segment_of_mem_combinations represents valid.sound.coherent found filed member
  made _ := Candidate.madeIn_of_mem_all indexed represents.wellFiled valid.sound.coherent found
  offered _ _ _ _ := Candidate.mem_all indexed represents.wellFiled valid.sound.coherent found
  advance := by
    rw [RunState.advance_eq found, RunState.advance_eq found,
      Candidate.all_supplied valid.sound.coherent represents.wellFiled found]
    rfl

/-! ## Grammars without the rules that miss segments -/

/-- The rule refers to a segment that no entry for its body has, or to a body that it does not
have. -/
def Rule.Lacks (known : Set Entry) : Rule → Prop
  | .basic _ => False
  | .prepend rule => ∀ segments, (rule.body, segments) ∈ known → segments.length ≤ rule.index
  | .append rule => ∀ segments, (rule.body, segments) ∈ known → segments.length ≤ rule.index
  | .insert rule => ∀ segments, (rule.body, segments) ∈ known → segments.length < rule.index
  | .concatenate rule => ∃ reference ∈ rule.wiring.flatten, ∀ name segments,
      rule.bodies[reference.body]? = some name → (name, segments) ∈ known →
        segments.length ≤ reference.segment

/-- The larger grammar has the rules of the smaller one, and more rules that always refer to
segments or bodies that are missing. -/
structure Grammar.Covers (smaller larger : Grammar) (graph : Graph) : Prop where
  kept : ∀ rule ∈ smaller.rules, rule ∈ larger.rules
  lacking : ∀ rule ∈ larger.rules, rule ∉ smaller.rules →
    rule.Lacks (smaller.leastClosed graph graph.Linked)

section Shapes

variable {grammar : Grammar}

@[simp] theorem Grammar.basic_mem_rules {rule : BasicRule} :
    .basic rule ∈ grammar.rules ↔ rule ∈ grammar.basic := by
  simp [mem_rules]

@[simp] theorem Grammar.prepend_mem_rules {rule : ExtensionRule} :
    .prepend rule ∈ grammar.rules ↔ rule ∈ grammar.prepend := by
  simp [mem_rules]

@[simp] theorem Grammar.append_mem_rules {rule : ExtensionRule} :
    .append rule ∈ grammar.rules ↔ rule ∈ grammar.append := by
  simp [mem_rules]

@[simp] theorem Grammar.insert_mem_rules {rule : InsertionRule} :
    .insert rule ∈ grammar.rules ↔ rule ∈ grammar.insert := by
  simp [mem_rules]

@[simp] theorem Grammar.concatenate_mem_rules {rule : ConcatenationRule} :
    .concatenate rule ∈ grammar.rules ↔ rule ∈ grammar.concatenate := by
  simp [mem_rules]

end Shapes

section Covers

variable {smaller larger : Grammar} {graph : Graph} {known : Set Entry} {entry : Entry}

theorem Grammar.Infers.of_rules (kept : ∀ rule ∈ smaller.rules, rule ∈ larger.rules)
    (infers : smaller.Infers graph known entry) : larger.Infers graph known entry := by
  cases infers with
  | @basic rule _ member edgeMember label =>
      have keptMember := kept (.basic rule) (basic_mem_rules.mpr member)
      exact .basic (basic_mem_rules.mp keptMember) edgeMember label
  | @prepend rule _ _ _ member body found edgeMember =>
      have keptMember := kept (.prepend rule) (prepend_mem_rules.mpr member)
      exact .prepend (prepend_mem_rules.mp keptMember) body found edgeMember
  | @append rule _ _ _ member body found edgeMember =>
      have keptMember := kept (.append rule) (append_mem_rules.mpr member)
      exact .append (append_mem_rules.mp keptMember) body found edgeMember
  | @insert rule _ _ member body inside edgeMember label =>
      have keptMember := kept (.insert rule) (insert_mem_rules.mpr member)
      exact .insert (insert_mem_rules.mp keptMember) body inside edgeMember label
  | @concatenate rule _ segments member proper bodies connects =>
      have keptMember := kept (.concatenate rule) (concatenate_mem_rules.mpr member)
      exact .concatenate segments (concatenate_mem_rules.mp keptMember) proper bodies connects

theorem Grammar.Infers.without_lacking
    (lacking : ∀ rule ∈ larger.rules, rule ∉ smaller.rules → rule.Lacks known)
    (infers : larger.Infers graph known entry) : smaller.Infers graph known entry := by
  cases infers with
  | @basic rule _ member edgeMember label =>
      refine .basic (basic_mem_rules.mp (Classical.byContradiction fun omitted => ?_))
        edgeMember label
      exact lacking _ (basic_mem_rules.mpr member) omitted
  | @prepend rule segments _ _ member body found edgeMember =>
      refine .prepend (prepend_mem_rules.mp (Classical.byContradiction fun omitted => ?_))
        body found edgeMember
      have short := lacking _ (prepend_mem_rules.mpr member) omitted segments body
      exact Nat.not_lt.mpr short (List.getElem?_eq_some_iff.mp found).1
  | @append rule segments _ _ member body found edgeMember =>
      refine .append (append_mem_rules.mp (Classical.byContradiction fun omitted => ?_))
        body found edgeMember
      have short := lacking _ (append_mem_rules.mpr member) omitted segments body
      exact Nat.not_lt.mpr short (List.getElem?_eq_some_iff.mp found).1
  | @insert rule segments _ member body inside edgeMember label =>
      refine .insert (insert_mem_rules.mp (Classical.byContradiction fun omitted => ?_))
        body inside edgeMember label
      have short := lacking _ (insert_mem_rules.mpr member) omitted segments body
      exact Nat.not_lt.mpr inside short
  | @concatenate rule _ segments member proper bodies connects =>
      refine .concatenate segments
        (concatenate_mem_rules.mp (Classical.byContradiction fun omitted => ?_)) proper bodies
        connects
      obtain ⟨reference, referred, short⟩ :=
        lacking _ (concatenate_mem_rules.mpr member) omitted
      have name := List.getElem?_eq_getElem (proper.body_lt reference referred)
      obtain ⟨span, found⟩ := connects.exists_span proper referred
      exact Nat.not_lt.mpr (short _ _ name (bodies _ _ name))
        (List.getElem?_eq_some_iff.mp found).1

variable {options : SolveOptions}

theorem Grammar.Covers.leastClosed_eq (covers : smaller.Covers larger graph) :
    larger.leastClosed graph graph.Linked = smaller.leastClosed graph graph.Linked := by
  apply Set.Subset.antisymm
  · refine leastClosed_subset fun entry infers linked => ?_
    exact mem_leastClosed_of_infers (infers.without_lacking covers.lacking) linked
  · refine leastClosed_subset fun entry infers linked => ?_
    exact mem_leastClosed_of_infers (infers.of_rules covers.kept) linked

theorem Grammar.Covers.solveEnds_iff (covers : smaller.Covers larger graph)
    (built : graph.Built) :
    SolveEnds graph larger options ↔ SolveEnds graph smaller options := by
  rw [solveEnds_iff_bounded built, solveEnds_iff_bounded built, covers.leastClosed_eq]

theorem Grammar.Covers.perm_entries (covers : smaller.Covers larger graph)
    (built : graph.Built) (ends : SolveEnds graph larger options) :
    (solve graph larger options).derivations.entries.Perm
      (solve graph smaller options).derivations.entries := by
  have smallerEnds := (covers.solveEnds_iff built).mp ends
  refine (List.perm_ext_iff_of_nodup (nodup_entries_solve built ends)
    (nodup_entries_solve built smallerEnds)).mpr fun entry => ?_
  rw [mem_entries_solve built ends, mem_entries_solve built smallerEnds,
    covers.leastClosed_eq]

theorem Grammar.Covers.perm_spans (covers : smaller.Covers larger graph)
    (built : graph.Built) (ends : SolveEnds graph larger options) :
    (solve graph larger options).spans.Perm (solve graph smaller options).spans := by
  rw [spans_solve_eq_answers built ends,
    spans_solve_eq_answers built ((covers.solveEnds_iff built).mp ends)]
  exact (covers.perm_entries built ends).filterMap _

end Covers

section Solve

variable {graph : Graph}

theorem Grammar.InWords.of_covers {smaller larger : Grammar} (inWords : larger.InWords)
    (covers : smaller.Covers larger graph) : smaller.InWords :=
  fun _ member => inWords _ (concatenate_mem_rules.mp
    (covers.kept _ (concatenate_mem_rules.mpr member)))

/-- No rule leads a run out of range, whatever bodies and segments it mentions.  Its instances
that miss a segment make nothing, and a rule that always misses one can be left out. -/
theorem inRange_throughout (built : graph.Built) {grammar : Grammar} (inWords : grammar.InWords)
    (options : SolveOptions) :
    let problem := (Problem.inWords graph grammar).2
    let initial := problem.initial (Problem.inWords graph grammar).1 options
    (∀ steps, Checked.run? problem (.inWords grammar) steps initial =
        some ((RunState.advance problem)^[steps] initial)) ∧
      (∀ steps derivation, let state := (RunState.advance problem)^[steps] initial
        state.table.derivation? state.taken = some derivation →
          state.SkipsMissing problem derivation) ∧
      ∀ smaller : Grammar, smaller.Covers grammar graph →
        (SolveInWordsEnds graph grammar options ↔ SolveInWordsEnds graph smaller options) ∧
          (SolveInWordsEnds graph grammar options →
            (solveInWords graph grammar options).derivations.entries.Perm
                (solveInWords graph smaller options).derivations.entries ∧
              (solveInWords graph grammar options).spans.Perm
                (solveInWords graph smaller options).spans) := by
  have represents := inWords.represents
  refine ⟨Checked.run?_initial built.indexed (JoinFile.resolves_compile _ grammar) represents
    options, fun steps derivation found => ?_, fun smaller covers => ?_⟩
  · have initial : ((Problem.inWords graph grammar).2.initial (Problem.inWords graph grammar).1
        options).Valid (Problem.inWords graph grammar).2 :=
      RunState.valid_initial represents.wellFiled _ options
    have valid := initial.iterate built.indexed represents.wellFiled steps
    exact valid.skipsMissing built.indexed represents found
  · have smallerInWords := inWords.of_covers covers
    simp only [inWords.solve_eq, inWords.solveEnds_iff, smallerInWords.solve_eq,
      smallerInWords.solveEnds_iff]
    exact ⟨covers.solveEnds_iff built,
      fun ends => ⟨covers.perm_entries built ends, covers.perm_spans built ends⟩⟩

end Solve

/-- Answers to one label. -/
def singleEdges : Grammar where
  basic := [⟨"S", "a"⟩]

/-- Rules beside that of `singleEdges` that refer to what no derivation has. -/
def danglingRules : Grammar where
  basic := [⟨"S", "a"⟩]
  prepend := [⟨"S", "S", "a", 3, 1⟩]
  insert := [⟨"S", "S", "a", 5, 1⟩]
  concatenate := [⟨"S", ["S"], [[⟨0, 4⟩]]⟩, ⟨"S", ["S"], [[⟨0, 0⟩, ⟨2, 0⟩]]⟩]

private theorem covers_danglingRules : singleEdges.Covers danglingRules pathGraph := by
  have single : ∀ name segments,
      (name, segments) ∈ singleEdges.leastClosed pathGraph pathGraph.Linked →
        segments.length = 1 := by
    have arities : singleEdges.HasArities fun _ => 1 :=
      Grammar.hasArities_of_declares (by simp [Grammar.rules, singleEdges, Rule.Declares])
    exact fun _ _ member => arities.length_eq member
  constructor
  · decide
  · intro rule member omitted
    rcases Grammar.mem_rules.mp member with ⟨basic, inBasic, rfl⟩ | ⟨prepend, inPrepend, rfl⟩ |
      ⟨append, inAppend, rfl⟩ | ⟨insert, inInsert, rfl⟩ | ⟨concatenate, inConcatenate, rfl⟩
    · exact (omitted (Grammar.basic_mem_rules.mpr inBasic)).elim
    · cases List.mem_singleton.mp inPrepend
      exact fun segments known => by rw [single _ _ known]; decide
    · cases inAppend
    · cases List.mem_singleton.mp inInsert
      exact fun segments known => by rw [single _ _ known]; decide
    · rcases List.mem_pair.mp inConcatenate with rfl | rfl
      · exact ⟨⟨0, 4⟩, by decide, fun _ segments _ known => by rw [single _ _ known]; decide⟩
      · exact ⟨⟨2, 0⟩, by decide, fun _ _ missing => by cases missing⟩

/-- Four rules that refer to missing segments and bodies do not change the answers. -/
theorem inRange_danglingRules :
    let problem := (Problem.inWords pathGraph danglingRules).2
    let initial := problem.initial (Problem.inWords pathGraph danglingRules).1 {}
    pathGraph.Built ∧ danglingRules.InWords ∧ singleEdges.Covers danglingRules pathGraph ∧
      Checked.run? problem (.inWords danglingRules) 3 initial =
        some ((RunState.advance problem)^[3] initial) ∧
      ((RunState.advance problem)^[3] initial).isFinished = true ∧
      (solveInWords pathGraph danglingRules {}).spans.Perm [⟨0, 1⟩, ⟨1, 2⟩, ⟨2, 3⟩] := by
  have built : pathGraph.Built := Graph.built_ofEdges _
  have inWords : danglingRules.InWords := by decide +kernel
  have ends : SolveInWordsEnds pathGraph danglingRules {} := ⟨3, by decide +kernel⟩
  obtain ⟨checked, _, without⟩ := inRange_throughout built inWords {}
  have same := ((without singleEdges covers_danglingRules).2 ends).2
  have answers : (solveInWords pathGraph singleEdges {}).spans = [⟨0, 1⟩, ⟨1, 2⟩, ⟨2, 3⟩] := by
    decide +kernel
  exact ⟨built, inWords, covers_danglingRules, checked 3, by decide +kernel, answers ▸ same⟩

private theorem covers_lastSegment :
    Grammar.Covers { lastSegment with concatenate := [] } lastSegment oneEdge := by
  have arities : Grammar.HasArities { lastSegment with concatenate := [] } fun _ => 1 :=
    Grammar.hasArities_of_declares (by simp [Grammar.rules, lastSegment, Rule.Declares])
  constructor
  · decide
  · intro rule member omitted
    rcases Grammar.mem_rules.mp member with ⟨basic, inBasic, rfl⟩ | ⟨prepend, inPrepend, rfl⟩ |
      ⟨append, inAppend, rfl⟩ | ⟨insert, inInsert, rfl⟩ | ⟨concatenate, inConcatenate, rfl⟩
    · exact (omitted (Grammar.basic_mem_rules.mpr inBasic)).elim
    · cases inPrepend
    · cases inAppend
    · cases inInsert
    · cases List.mem_singleton.mp inConcatenate
      refine ⟨⟨0, Text.wordBound - 1⟩, by decide, fun name segments _ known => ?_⟩
      rw [arities.length_eq known]
      decide

/-- In machine words a rule with a missing segment makes an answer. -/
theorem not_skipped_lastSegment :
    Grammar.Covers { lastSegment with concatenate := [] } lastSegment oneEdge ∧
      SolveInWordsEnds oneEdge lastSegment {} ∧
      ¬ (solveInWords oneEdge lastSegment {}).spans.Perm
        (solveInWords oneEdge { lastSegment with concatenate := [] } {}).spans :=
  ⟨covers_lastSegment, ⟨2, by decide +kernel⟩, by decide +kernel⟩

end GrammarReach
