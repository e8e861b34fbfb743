import GrammarReach.Grammar.Clause
import GrammarReach.Proofs.Saturation.Wirings
import Mathlib.Data.List.Forall2
import Mathlib.Data.List.Nodup
import Mathlib.Data.List.Perm.Basic

/-!
# Shapes of clauses

A clause is read as a basic rule, as an extension, as an insertion or as a concatenation.
Each shape says which tokens stand where; a concatenation says which body segment every
token names.
-/

namespace GrammarReach

namespace AtomClause

theorem mapM_eq_ok_iff {α β ε : Type} {items : List α} {function : α → Except ε β}
    {results : List β} :
    items.mapM function = .ok results ↔
      List.Forall₂ (fun item result => function item = .ok result) items results := by
  induction items generalizing results with
  | nil =>
      rw [List.mapM_nil, List.forall₂_nil_left_iff]
      constructor
      · rintro ⟨⟩
        rfl
      · rintro rfl
        rfl
  | cons item items induction =>
      rw [List.mapM_cons, List.forall₂_cons_left_iff]
      cases found : function item with
      | error cause => simp [bind, Except.bind]
      | ok result =>
          cases restFound : items.mapM function with
          | error cause =>
              simp only [bind, Except.bind, reduceCtorEq, Except.ok.injEq, false_iff]
              rintro ⟨other, rest, _, restRelated, _⟩
              rw [induction.mpr restRelated] at restFound
              cases restFound
          | ok rest =>
              simp only [bind, Except.bind, pure, Except.pure, Except.ok.injEq]
              constructor
              · rintro rfl
                exact ⟨result, rest, rfl, induction.mp restFound, rfl⟩
              · rintro ⟨other, others, rfl, restRelated, rfl⟩
                rw [induction.mpr restRelated] at restFound
                cases restFound
                rfl

/-! ## Variables -/

/-- The token is an argument of its own in a body: it names that segment. -/
def Names (bodies : List Atom) (token : String) (reference : SegmentRef) : Prop :=
  ∃ atom, bodies[reference.body]? = some atom ∧
    atom.arguments[reference.segment]? = some [token]

section Variables

variable {bodies : List Atom} {token : String} {reference : SegmentRef}

private theorem head?_eq_some_iff {argument : List String} (single : argument.length = 1) :
    argument.head? = some token ↔ argument = [token] := by
  obtain ⟨only, rfl⟩ := List.length_eq_one_iff.mp single
  simp

/-- Where all body arguments are single variables, a token is located where it names a
segment, and nowhere else. -/
theorem names_of_locate
    (single : ∀ atom ∈ bodies, ∀ argument ∈ atom.arguments, argument.length = 1)
    (located : locate bodies token = some reference) : Names bodies token reference := by
  obtain ⟨⟨atom, position⟩, member, found⟩ := List.exists_of_findSome?_eq_some located
  obtain ⟨segment, isFirst, rfl⟩ := Option.map_eq_some_iff.mp found
  have atPosition := List.mk_mem_zipIdx_iff_getElem?.mp member
  obtain ⟨inside, names, _⟩ := List.findIdx?_eq_some_iff_getElem.mp isFirst
  have isSingle := single atom (List.mem_of_getElem? atPosition) _ (List.getElem_mem inside)
  refine ⟨atom, atPosition, ?_⟩
  rw [List.getElem?_eq_getElem inside]
  exact congrArg some ((head?_eq_some_iff isSingle).mp (by simpa using names))

theorem exists_locate_of_names (names : Names bodies token reference) :
    ∃ located, locate bodies token = some located := by
  obtain ⟨atom, atPosition, atSegment⟩ := names
  cases located : locate bodies token with
  | some found => exact ⟨found, rfl⟩
  | none =>
      have nowhere := List.findSome?_eq_none_iff.mp located (atom, reference.body)
        (List.mk_mem_zipIdx_iff_getElem?.mpr atPosition)
      rw [Option.map_eq_none_iff, List.findIdx?_eq_none_iff] at nowhere
      have absent := nowhere _ (List.mem_of_getElem? atSegment)
      simp at absent

theorem locate_eq_some
    (single : ∀ atom ∈ bodies, ∀ argument ∈ atom.arguments, argument.length = 1)
    (names : Names bodies token reference)
    (unique : ∀ other, Names bodies token other → other = reference) :
    locate bodies token = some reference := by
  obtain ⟨located, found⟩ := exists_locate_of_names names
  rw [found, unique located (names_of_locate single found)]

end Variables

/-! ## Concatenations -/

/-- The bodies that do not stand for the empty word. -/
def properBodies (atoms : List Atom) : List Atom :=
  atoms.filter fun atom => !(atom.name == Grammar.emptyWordName)

/-- The variables that stand for the empty word. -/
def emptyVariables (atoms : List Atom) : List String :=
  (atoms.filter fun atom => atom.name == Grammar.emptyWordName).flatMap Atom.tokens

/-- A head argument is wired to the segments that its tokens name, those of the empty word
left out. -/
def Wires (atoms : List Atom) (tokens : List String) (chain : List SegmentRef) : Prop :=
  chain ≠ [] ∧ List.Forall₂
    (fun token reference => locate (properBodies atoms) token = some reference)
    (tokens.filter fun token => !(emptyVariables atoms).contains token) chain

private theorem chainOf_eq_ok_iff {bodies : List Atom} {emptyTokens tokens : List String}
    {chain : List SegmentRef} :
    chainOf bodies emptyTokens tokens = .ok chain ↔
      List.Forall₂ (fun token reference => locate bodies token = some reference)
        (tokens.filter fun token => !emptyTokens.contains token) chain := by
  rw [chainOf, mapM_eq_ok_iff]
  constructor
  · intro related
    apply related.imp
    intro token reference success
    split at success
    · rename_i found
      cases success
      exact found
    · cases success
  · intro related
    apply related.imp
    intro token reference found
    rw [found]

/-- What a concatenation asks of a clause, and what it makes of it. -/
structure Concatenates (clause : AtomClause) (rule : ConcatenationRule) : Prop where
  head : rule.head = clause.head.name
  bodies : rule.bodies = (properBodies clause.bodies).map (·.name)
  nonempty : properBodies clause.bodies ≠ []
  single : ∀ atom ∈ properBodies clause.bodies, ∀ argument ∈ atom.arguments,
    argument.length = 1
  wired : List.Forall₂ (Wires clause.bodies) clause.head.arguments rule.wiring

/-- The segments that each argument of the head is wired to. -/
private def wiringOf (head : Atom) (atoms : List Atom) :
    Except ClauseError (List (List SegmentRef)) :=
  head.arguments.zipIdx.mapM fun (tokens, index) => do
    let chain ← chainOf (properBodies atoms) (emptyVariables atoms) tokens
    if chain.isEmpty then
      throw (ClauseError.emptyArgument index head.name)
    return chain

private theorem wiringOf_eq_ok_iff {head : Atom} {atoms : List Atom}
    {wiring : List (List SegmentRef)} :
    wiringOf head atoms = .ok wiring ↔ List.Forall₂ (Wires atoms) head.arguments wiring := by
  have arguments : head.arguments = head.arguments.zipIdx.map Prod.fst := by simp
  rw [wiringOf, mapM_eq_ok_iff]
  conv_rhs => rw [arguments, List.forall₂_map_left_iff]
  have wires : ∀ (item : List String × Nat) (chain : List SegmentRef),
      ((do
        let chain ← chainOf (properBodies atoms) (emptyVariables atoms) item.1
        if chain.isEmpty then
          throw (ClauseError.emptyArgument item.2 head.name)
        return chain) = Except.ok chain) ↔ Wires atoms item.1 chain := by
    intro item chain
    rw [Wires, ← chainOf_eq_ok_iff]
    cases chainOf (properBodies atoms) (emptyVariables atoms) item.1 with
    | error cause => simp [bind, Except.bind]
    | ok found =>
        cases found with
        | nil =>
            simp only [bind, Except.bind, List.isEmpty_nil, if_true, throw, throwThe,
              MonadExceptOf.throw, reduceCtorEq, Except.ok.injEq, false_iff, not_and]
            rintro nonempty rfl
            exact nonempty rfl
        | cons first others =>
            simp only [bind, Except.bind, List.isEmpty_cons, Bool.false_eq_true, if_false,
              pure, Except.pure, Except.ok.injEq]
            constructor
            · rintro rfl
              exact ⟨by simp, rfl⟩
            · exact fun both => both.2
  constructor
  · exact fun related => related.imp fun item chain => (wires item chain).mp
  · exact fun related => related.imp fun item chain => (wires item chain).mpr

private theorem concatenationRule_eq {head : Atom} {atoms : List Atom}
    (nonempty : properBodies atoms ≠ [])
    (single : ∀ atom ∈ properBodies atoms, ∀ argument ∈ atom.arguments, argument.length = 1) :
    concatenationRule head atoms = (wiringOf head atoms).map fun wiring =>
      .concatenate ⟨head.name, (properBodies atoms).map (·.name), wiring⟩ := by
  have noCompound : ((properBodies atoms).any fun atom =>
      atom.arguments.any (·.length != 1)) = false := by
    simpa using single
  unfold properBodies at nonempty noCompound
  unfold concatenationRule wiringOf
  simp only [List.isEmpty_eq_false_iff.mpr nonempty, noCompound, Bool.false_eq_true, if_false]
  rfl

private theorem concatenates_of_concatenationRule {head : Atom} {atoms : List Atom} {rule : Rule}
    (success : concatenationRule head atoms = .ok rule) :
    ∃ concatenation, Concatenates ⟨head, atoms⟩ concatenation ∧
      rule = .concatenate concatenation := by
  have nonempty : properBodies atoms ≠ [] := by
    intro none
    unfold properBodies at none
    simp [concatenationRule, none, bind, Except.bind, throw, throwThe,
      MonadExceptOf.throw] at success
  have single : ∀ atom ∈ properBodies atoms, ∀ argument ∈ atom.arguments,
      argument.length = 1 := by
    by_contra compound
    have isCompound : ((properBodies atoms).any fun atom =>
        atom.arguments.any (·.length != 1)) = true := by
      simpa using compound
    unfold properBodies at nonempty isCompound
    simp [concatenationRule, List.isEmpty_eq_false_iff.mpr nonempty, isCompound, bind,
      Except.bind, throw, throwThe, MonadExceptOf.throw] at success
  rw [concatenationRule_eq nonempty single] at success
  cases wired : wiringOf head atoms with
  | error cause =>
      rw [wired] at success
      cases success
  | ok wiring =>
      rw [wired] at success
      cases success
      exact ⟨_, ⟨rfl, rfl, nonempty, single, wiringOf_eq_ok_iff.mp wired⟩, rfl⟩

private theorem concatenationRule_eq_ok_iff {head : Atom} {atoms : List Atom} {rule : Rule} :
    concatenationRule head atoms = .ok rule ↔
      ∃ concatenation, Concatenates ⟨head, atoms⟩ concatenation ∧
        rule = .concatenate concatenation := by
  constructor
  · exact concatenates_of_concatenationRule
  · rintro ⟨⟨name, names, wiring⟩, concatenates, rfl⟩
    rw [concatenationRule_eq concatenates.nonempty concatenates.single,
      wiringOf_eq_ok_iff.mpr concatenates.wired]
    cases concatenates.head
    cases concatenates.bodies
    rfl

/-! ## Shapes -/

/-- The argument at the index is the only one of its kind. -/
structure OnlyAt (arguments : List (List String)) (kind : List String → Bool) (index : Nat)
    (tokens : List String) : Prop where
  found : arguments[index]? = some tokens
  isKind : kind tokens = true
  unique : ∀ {other : Nat} {found : List String}, arguments[other]? = some found →
    kind found = true → other = index

private theorem filter_zipIdx_eq_singleton_iff {arguments : List (List String)}
    {kind : List String → Bool} {index : Nat} {tokens : List String} :
    (arguments.zipIdx.filter fun item => kind item.1) = [(tokens, index)] ↔
      OnlyAt arguments kind index tokens := by
  constructor
  · intro only
    have here : (tokens, index) ∈ arguments.zipIdx.filter fun item => kind item.1 := by
      rw [only]
      exact List.mem_cons_self
    obtain ⟨atIndex, isKind⟩ := List.mem_filter.mp here
    refine ⟨List.mk_mem_zipIdx_iff_getElem?.mp atIndex, isKind, ?_⟩
    intro other found atOther foundKind
    have there : (found, other) ∈ arguments.zipIdx.filter fun item => kind item.1 :=
      List.mem_filter.mpr ⟨List.mk_mem_zipIdx_iff_getElem?.mpr atOther, foundKind⟩
    rw [only, List.mem_singleton] at there
    exact (Prod.mk.inj there).2
  · intro only
    apply List.perm_singleton.mp
    apply (List.perm_ext_iff_of_nodup _ (List.nodup_singleton _)).mpr
    · rintro ⟨found, other⟩
      rw [List.mem_filter, List.mk_mem_zipIdx_iff_getElem?, List.mem_singleton, Prod.mk.injEq]
      constructor
      · rintro ⟨atOther, isKind⟩
        have same := only.unique atOther isKind
        subst same
        rw [only.found] at atOther
        exact ⟨(Option.some.inj atOther).symm, rfl⟩
      · rintro ⟨rfl, rfl⟩
        exact ⟨only.found, only.isKind⟩
    · apply List.Nodup.filter
      apply List.Nodup.of_map Prod.snd
      rw [List.zipIdx_map_snd]
      exact List.nodup_range'

/-- The argument has a token beside its variable. -/
def isExtended (tokens : List String) : Bool :=
  decide (1 < tokens.length)

/-- The argument starts with a token that is no variable of the body. -/
def isIntroduced (body : Atom) (tokens : List String) : Bool :=
  tokens.head?.any fun token => !body.tokens.contains token

/-- Which clauses are accepted, and which rule each one is read as.  A concatenation of one
body must not extend several of as many arguments as the body has. -/
inductive Shape (clause : AtomClause) : Rule → Prop where
  | basic {token : String} :
      clause.bodies = [] → clause.head.arguments = [[token]] →
      Shape clause (.basic ⟨clause.head.name, labelOf token⟩)
  | append {body : Atom} {index : Nat} {bound terminal : String} :
      clause.bodies = [body] → clause.head.arguments.length = body.arguments.length →
      OnlyAt clause.head.arguments isExtended index [bound, terminal] →
      bound ∈ body.tokens → terminal ∉ body.tokens →
      Shape clause (.append ⟨clause.head.name, body.name, labelOf terminal, index,
        body.arguments.length⟩)
  | prepend {body : Atom} {index : Nat} {bound terminal : String} :
      clause.bodies = [body] → clause.head.arguments.length = body.arguments.length →
      OnlyAt clause.head.arguments isExtended index [terminal, bound] →
      bound ∈ body.tokens → terminal ∉ body.tokens →
      Shape clause (.prepend ⟨clause.head.name, body.name, labelOf terminal, index,
        body.arguments.length⟩)
  | insert {body : Atom} {index : Nat} {terminal : String} :
      clause.bodies = [body] → clause.head.arguments.length = body.arguments.length + 1 →
      OnlyAt clause.head.arguments (isIntroduced body) index [terminal] →
      Shape clause (.insert ⟨clause.head.name, body.name, labelOf terminal, index,
        body.arguments.length⟩)
  | concatenate {rule : ConcatenationRule} :
      Concatenates clause rule →
      (∀ body, clause.bodies = [body] →
        clause.head.arguments.length = body.arguments.length →
        (clause.head.arguments.filter isExtended).length ≤ 1) →
      Shape clause (.concatenate rule)

section Unary

variable {head body : Atom} {rule : Rule}

private theorem unaryRule_eq (head body : Atom) :
    unaryRule head body =
      if head.arguments.length = body.arguments.length then
        match head.arguments.zipIdx.filter fun item => isExtended item.1 with
        | [] => concatenationRule head [body]
        | [([first, second], index)] =>
            if body.tokens.contains first && !body.tokens.contains second then
              .ok (.append ⟨head.name, body.name, labelOf second, index, body.arguments.length⟩)
            else if !body.tokens.contains first && body.tokens.contains second then
              .ok (.prepend ⟨head.name, body.name, labelOf first, index, body.arguments.length⟩)
            else concatenationRule head [body]
        | [_] => concatenationRule head [body]
        | _ => .error (.severalExtended head.name)
      else
        match head.arguments.zipIdx.filter fun item => isIntroduced body item.1 with
        | [] => concatenationRule head [body]
        | [([token], index)] =>
            if head.arguments.length = body.arguments.length + 1 then
              .ok (.insert ⟨head.name, body.name, labelOf token, index, body.arguments.length⟩)
            else .error (.insertedSegment head.name)
        | [_] => .error (.insertedSegment head.name)
        | _ => .error (.severalInserted head.name) :=
  rfl

private theorem length_filter_zipIdx (arguments : List (List String))
    (kind : List String → Bool) :
    (arguments.zipIdx.filter fun item => kind item.1).length =
      (arguments.filter kind).length := by
  have projected : (arguments.zipIdx.filter fun item => kind item.1).map Prod.fst =
      arguments.filter kind := by
    conv_rhs => rw [← List.zipIdx_map_fst 0 arguments, List.filter_map]
    rfl
  rw [← projected, List.length_map]

private theorem not_contains_iff {tokens : List String} {token : String} :
    (!tokens.contains token) = true ↔ token ∉ tokens := by
  simp

private theorem shape_of_concatenationRule
    (success : concatenationRule head [body] = .ok rule)
    (few : head.arguments.length = body.arguments.length →
      (head.arguments.filter isExtended).length ≤ 1) :
    Shape ⟨head, [body]⟩ rule := by
  obtain ⟨concatenation, concatenates, rfl⟩ := concatenationRule_eq_ok_iff.mp success
  apply Shape.concatenate concatenates
  rintro other ⟨⟩ same
  exact few same

private theorem shape_of_unaryRule (success : unaryRule head body = .ok rule) :
    Shape ⟨head, [body]⟩ rule := by
  rw [unaryRule_eq] at success
  split at success
  · rename_i same
    split at success
    · rename_i none
      apply shape_of_concatenationRule success
      intro _
      rw [← length_filter_zipIdx, none]
      exact Nat.zero_le 1
    · rename_i first second index only
      have onlyAt := filter_zipIdx_eq_singleton_iff.mp only
      split at success
      · rename_i kinds
        cases success
        rw [Bool.and_eq_true, List.contains_iff_mem, not_contains_iff] at kinds
        exact .append rfl same onlyAt kinds.1 kinds.2
      · split at success
        · rename_i kinds
          cases success
          rw [Bool.and_eq_true, List.contains_iff_mem, not_contains_iff] at kinds
          exact .prepend rfl same onlyAt kinds.2 kinds.1
        · apply shape_of_concatenationRule success
          intro _
          rw [← length_filter_zipIdx, only]
          exact Nat.le_refl 1
    · rename_i only
      apply shape_of_concatenationRule success
      intro _
      rw [← length_filter_zipIdx, only]
      exact Nat.le_refl 1
    · cases success
  · rename_i different
    split at success
    · exact shape_of_concatenationRule success fun same => absurd same different
    · rename_i token index only
      split at success
      · rename_i longer
        cases success
        exact .insert rfl longer (filter_zipIdx_eq_singleton_iff.mp only)
      · cases success
    · cases success
    · cases success

theorem Concatenates.mem_tokens {concatenation : ConcatenationRule}
    (concatenates : Concatenates ⟨head, [body]⟩ concatenation) {tokens : List String}
    (inHead : tokens ∈ head.arguments) {token : String} (member : token ∈ tokens) :
    token ∈ body.tokens := by
  have proper : (body.name == Grammar.emptyWordName) = false := by
    by_contra empty
    apply concatenates.nonempty
    simp [properBodies, (by simpa using empty : (body.name == Grammar.emptyWordName) = true)]
  have noEmpty : emptyVariables [body] = [] := by simp [emptyVariables, proper]
  obtain ⟨chain, _, wires⟩ := exists_related concatenates.wired.flip inHead
  have kept : token ∈ tokens.filter fun token =>
      !(emptyVariables [body]).contains token := by
    rw [noEmpty]
    simpa using member
  obtain ⟨reference, _, located⟩ := exists_related wires.2.flip kept
  obtain ⟨atom, atPosition, atSegment⟩ := names_of_locate concatenates.single located
  have isBody : atom = body := by
    have inBodies := List.mem_of_mem_filter (List.mem_of_getElem? atPosition)
    exact List.mem_singleton.mp inBodies
  subst isBody
  exact List.mem_flatten_of_mem (List.mem_of_getElem? atSegment) (by simp)

private theorem unaryRule_of_concatenates {concatenation : ConcatenationRule}
    (concatenates : Concatenates ⟨head, [body]⟩ concatenation)
    (few : head.arguments.length = body.arguments.length →
      (head.arguments.filter isExtended).length ≤ 1) :
    unaryRule head body = .ok (.concatenate concatenation) := by
  have rule := concatenationRule_eq_ok_iff.mpr ⟨concatenation, concatenates, rfl⟩
  rw [unaryRule_eq]
  split
  · rename_i same
    have atMostOne := few same
    rw [← length_filter_zipIdx] at atMostOne
    split
    · exact rule
    · rename_i first second index only
      have inHead : [first, second] ∈ head.arguments :=
        List.mem_of_getElem? (filter_zipIdx_eq_singleton_iff.mp only).found
      have firstBound : first ∈ body.tokens := concatenates.mem_tokens inHead (by simp)
      have secondBound : second ∈ body.tokens := concatenates.mem_tokens inHead (by simp)
      simp [firstBound, secondBound, rule]
    · exact rule
    · rename_i notNone _ notOne
      match extended : head.arguments.zipIdx.filter fun item => isExtended item.1 with
      | [] => exact absurd extended notNone
      | [item] => exact absurd extended (notOne item)
      | first :: second :: others =>
          rw [extended, List.length_cons, List.length_cons] at atMostOne
          omega
  · have none : (head.arguments.zipIdx.filter fun item => isIntroduced body item.1) = [] := by
      apply List.filter_eq_nil_iff.mpr
      rintro ⟨tokens, index⟩ member introduced
      have inHead := List.mem_of_getElem? (List.mk_mem_zipIdx_iff_getElem?.mp member)
      cases tokens with
      | nil => cases introduced
      | cons token tokens =>
          have bound : token ∈ body.tokens := concatenates.mem_tokens inHead (by simp)
          simp [isIntroduced, bound] at introduced
    rw [none]
    exact rule

private theorem unaryRule_of_shape (shape : Shape ⟨head, [body]⟩ rule) :
    unaryRule head body = .ok rule := by
  cases shape with
  | basic none _ => cases none
  | append only same onlyAt bound unbound =>
      cases only
      have filtered := filter_zipIdx_eq_singleton_iff.mpr onlyAt
      change head.arguments.length = _ at same
      simp only [unaryRule_eq, if_pos same, filtered]
      simp [bound, unbound]
  | prepend only same onlyAt bound unbound =>
      cases only
      have filtered := filter_zipIdx_eq_singleton_iff.mpr onlyAt
      change head.arguments.length = _ at same
      simp only [unaryRule_eq, if_pos same, filtered]
      simp [bound, unbound]
  | insert only longer onlyAt =>
      cases only
      have filtered := filter_zipIdx_eq_singleton_iff.mpr onlyAt
      change head.arguments.length = _ at longer
      have different : head.arguments.length ≠ body.arguments.length := by omega
      simp only [unaryRule_eq, if_neg different, filtered, if_pos longer]
  | concatenate concatenates few =>
      exact unaryRule_of_concatenates concatenates (few body rfl)

end Unary

private theorem basicRule_eq_ok_iff {head : Atom} {rule : Rule} :
    basicRule head = .ok rule ↔ Shape ⟨head, []⟩ rule := by
  constructor
  · intro success
    unfold basicRule at success
    split at success
    · rename_i single
      cases success
      exact .basic rfl single
    · cases success
    · cases success
  · intro shape
    cases shape with
    | basic _ single =>
        change head.arguments = _ at single
        rw [basicRule, single]
    | append only => cases only
    | prepend only => cases only
    | insert only => cases only
    | concatenate concatenates => exact absurd rfl concatenates.nonempty

private theorem concatenationRule_eq_ok_iff_shape {head first second : Atom}
    {others : List Atom} {rule : Rule} :
    concatenationRule head (first :: second :: others) = .ok rule ↔
      Shape ⟨head, first :: second :: others⟩ rule := by
  constructor
  · intro success
    obtain ⟨concatenation, concatenates, rfl⟩ := concatenationRule_eq_ok_iff.mp success
    exact .concatenate concatenates fun body only => by cases only
  · intro shape
    cases shape with
    | basic none _ => cases none
    | append only => cases only
    | prepend only => cases only
    | insert only => cases only
    | concatenate concatenates =>
        exact concatenationRule_eq_ok_iff.mpr ⟨_, concatenates, rfl⟩

theorem toRule_eq_ok_iff {clause : AtomClause} {rule : Rule} :
    clause.toRule = .ok rule ↔ clause.Shape rule := by
  obtain ⟨head, bodies⟩ := clause
  match bodies with
  | [] => exact basicRule_eq_ok_iff
  | [_] => exact ⟨shape_of_unaryRule, unaryRule_of_shape⟩
  | _ :: _ :: _ => exact concatenationRule_eq_ok_iff_shape

end AtomClause

/-! ## Places in rules -/

/-- The rule changes or refers to places that its bodies have. -/
def Rule.Indexed : Rule → Prop
  | .basic _ => True
  | .prepend rule => rule.index < rule.arity
  | .append rule => rule.index < rule.arity
  | .insert rule => rule.index ≤ rule.bodyArity
  | .concatenate rule => rule.Proper

namespace AtomClause

private theorem OnlyAt.index_lt {arguments : List (List String)} {kind : List String → Bool}
    {index : Nat} {tokens : List String} (onlyAt : OnlyAt arguments kind index tokens) :
    index < arguments.length :=
  (List.getElem?_eq_some_iff.mp onlyAt.found).1

variable {clause : AtomClause}

theorem Concatenates.proper {rule : ConcatenationRule} (concatenates : Concatenates clause rule) :
    rule.Proper := by
  refine ⟨?_, ?_, ?_⟩
  · rw [concatenates.bodies]
    exact mt List.map_eq_nil_iff.mp concatenates.nonempty
  · intro chain member
    obtain ⟨tokens, _, wires⟩ := exists_related concatenates.wired member
    exact wires.1
  · intro reference member
    obtain ⟨chain, inWiring, inChain⟩ := List.mem_flatten.mp member
    obtain ⟨tokens, _, wires⟩ := exists_related concatenates.wired inWiring
    obtain ⟨token, _, located⟩ := exists_related wires.2 inChain
    obtain ⟨atom, found, _⟩ := names_of_locate concatenates.single located
    rw [concatenates.bodies, List.length_map]
    exact (List.getElem?_eq_some_iff.mp found).1

theorem Shape.indexed {rule : Rule} (shape : clause.Shape rule) : rule.Indexed := by
  cases shape with
  | basic => trivial
  | append _ same onlyAt => exact Nat.lt_of_lt_of_eq onlyAt.index_lt same
  | prepend _ same onlyAt => exact Nat.lt_of_lt_of_eq onlyAt.index_lt same
  | insert _ longer onlyAt =>
      exact Nat.le_of_lt_succ (Nat.lt_of_lt_of_eq onlyAt.index_lt longer)
  | concatenate concatenates => exact concatenates.proper

end AtomClause

end GrammarReach
