import GrammarReach.TextFilter.ByteSet
import GrammarReach.TextFilter.Options

/-!
# Substituting bytes

The filter that replaces, deletes or squeezes bytes.  The bytes of the first set
are replaced by those at the same places of the second one.  Classes of letters
that stand at the same place of both sets change the case of letters.
-/

namespace GrammarReach

namespace TextFilter

/-- What can be asked of a substitution. -/
inductive SubstitutionOption where
  | complement
  | delete
  | squeeze
  | truncate
  | plainOrder
  | manual
deriving DecidableEq, Repr

def substitutionOptions : OptionTable SubstitutionOption where
  letters :=
    [('c', .complement), ('C', .complement), ('d', .delete), ('s', .squeeze),
      ('t', .truncate), ('A', .plainOrder)]
  names :=
    [("complement", .complement), ("delete", .delete), ("squeeze-repeats", .squeeze),
      ("truncate-set1", .truncate), ("help", .manual), ("version", .manual)]
  mixed := false

/-- What a substitution is asked to do. -/
structure SubstitutionMode where
  complement : Bool
  delete : Bool
  squeeze : Bool
  truncate : Bool
deriving DecidableEq, Repr

def SubstitutionMode.ofOptions (options : List SubstitutionOption) : SubstitutionMode where
  complement := options.contains .complement
  delete := options.contains .delete
  squeeze := options.contains .squeeze
  truncate := options.contains .truncate

/-- Why two sets do not fit each other. -/
inductive MatchFault where
  | openRepeatInFirst
  | severalOpenRepeats
  | equalByteInSecond
  | classInSecond
  | misalignedCases
  | emptySecond
  | classAtEnd
  | unequalTargets
  | openRepeatWithoutTargets
  | tooManyMembers
deriving DecidableEq, Repr

def MatchFault.text : MatchFault → String
  | .openRepeatInFirst => "the [c*] repeat construct may not appear in string1"
  | .severalOpenRepeats => "only one [c*] repeat construct may appear in string2"
  | .equalByteInSecond => "[=c=] expressions may not appear in string2 when translating"
  | .classInSecond =>
      "when translating, the only character classes that may appear in\n" ++
        "string2 are 'upper' and 'lower'"
  | .misalignedCases => "misaligned [:upper:] and/or [:lower:] construct"
  | .emptySecond => "when not truncating set1, string2 must be non-empty"
  | .classAtEnd =>
      "when translating with string1 longer than string2,\n" ++
        "the latter string must not end with a character class"
  | .unequalTargets =>
      "when translating with complemented character classes,\n" ++
        "string2 must map all characters in the domain to one"
  | .openRepeatWithoutTargets =>
      "the [c*] construct may appear in string2 only when translating"
  | .tooManyMembers => "too many characters in set"

/-- A place of a set: a byte that stands there once or more often, and whether it
opens or continues a class of letters. -/
structure SetPlace where
  value : UInt8
  count : Nat := 1
  /-- The first member of a class of letters, with whether they are capitals. -/
  opens : Option Bool := none
  /-- A later member of a class of letters. -/
  continues : Bool := false
deriving DecidableEq, Repr

def classPlaces (capitals : Bool) : List UInt8 → List SetPlace
  | [] => []
  | first :: rest =>
      { value := first, opens := some capitals } ::
        rest.map fun value => { value, continues := true }

def SetPart.places : SetPart → List SetPlace
  | .class .upper => classPlaces true ByteClass.upper.members
  | .class .lower => classPlaces false ByteClass.lower.members
  | .repeated value count => if count = 0 then [] else [{ value, count }]
  | part => part.members.map fun value => { value }

def placesOf (parts : List SetPart) : List SetPlace :=
  parts.flatMap SetPart.places

def membersOf (parts : List SetPart) : List UInt8 :=
  parts.flatMap SetPart.members

/-- The number of members that a set is known to have. -/
def countOf (parts : List SetPart) : Nat :=
  (parts.map SetPart.count).foldl (· + ·) 0

/-- The bytes that are no members of a set. -/
def othersOf (parts : List SetPart) : List UInt8 :=
  let members := membersOf parts
  allBytes.filter fun byte => !members.contains byte

/-- The places behind the class of letters that the places continue. -/
def behindClass (places : List SetPlace) : List SetPlace :=
  places.dropWhile SetPlace.continues

/-- The number of letters that a class stands for beyond the first one. -/
def classSurplus : Nat := 25

/-- Takes one step along two lists of places: from a byte in both, as often as both
have it, to what is left of them. -/
def advance (first second : SetPlace) (firstRest secondRest : List SetPlace) :
    List SetPlace × List SetPlace :=
  if first.count < second.count then
    (firstRest, { second with count := second.count - first.count } :: secondRest)
  else if second.count < first.count then
    ({ first with count := first.count - second.count } :: firstRest, secondRest)
  else
    (firstRest, secondRest)

/-- The number of classes of letters that stand at the same places of both sets; a
class of the second set must not stand elsewhere.  Every step takes away a place,
so their number bounds the steps. -/
def alignedClasses : Nat → List SetPlace → List SetPlace → Except MatchFault Nat
  | 0, _, _ => .ok 0
  | _ + 1, _, [] => .ok 0
  | _ + 1, [], second :: _ =>
      if second.opens.isSome then .error .misalignedCases else .ok 0
  | bound + 1, first :: firstRest, second :: secondRest =>
      if second.opens.isSome then
        if first.opens.isSome then
          (alignedClasses bound (behindClass firstRest) (behindClass secondRest)).map (· + 1)
        else
          .error .misalignedCases
      else
        let (firstLeft, secondLeft) := advance first second firstRest secondRest
        alignedClasses bound firstLeft secondLeft

/-- The second set with its open repeat, if there is one, filled up to the length
of the first set. -/
def fillOpenRepeat (length : Nat) (parts : List SetPart) : List SetPart :=
  let missing := length - countOf parts
  parts.map fun
    | .repeated value 0 => .repeated value missing
    | part => part

/-- The second set with its last byte repeated some times more. -/
def extendLast (parts : List SetPart) (missing : Nat) : Except MatchFault (List SetPart) :=
  match parts.getLast? with
  | none => .error .emptySecond
  | some (.class _) => .error .classAtEnd
  | some (.byte value) => .ok (parts ++ [.repeated value missing])
  | some (.range _ last) => .ok (parts ++ [.repeated last missing])
  | some (.equal value) => .ok (parts ++ [.repeated value missing])
  | some (.repeated value _) => .ok (parts ++ [.repeated value missing])

/-- All members of a set are the same. -/
def isUniform (parts : List SetPart) : Bool :=
  match membersOf parts with
  | [] => false
  | first :: rest => rest.all (· == first)

namespace SubstitutionMode

/-- A set is not longer than can be counted. -/
def checkCount (parts : List SetPart) : Except MatchFault Unit :=
  if greatestCount < countOf parts then .error .tooManyMembers else .ok ()

def firstLength (mode : SubstitutionMode) (parts : List SetPart) : Nat :=
  if mode.complement then (othersOf parts).length else countOf parts

def checkFirst (parts : List SetPart) : Except MatchFault Unit := do
  checkCount parts
  if parts.any SetPart.isOpen then .error .openRepeatInFirst else .ok ()

/-- The classes of letters that change the case. -/
def caseClasses (mode : SubstitutionMode) (first second : List SetPart) :
    Except MatchFault Nat :=
  if mode.complement || !second.any SetPart.isClass then
    .ok 0
  else
    let firstPlaces := placesOf first
    let secondPlaces := placesOf second
    alignedClasses (firstPlaces.length + secondPlaces.length + 1) firstPlaces secondPlaces

/-- The second set of a replacement, as long as the first one. -/
def fitTargets (mode : SubstitutionMode) (first second : List SetPart) :
    Except MatchFault (List SetPart) := do
  if second.any fun part => match part with
      | .equal _ => true
      | _ => false then
    .error .equalByteInSecond
  if second.any fun part => match part with
      | .class kind => kind != .upper && kind != .lower
      | _ => false then
    .error .classInSecond
  let classes ← mode.caseClasses first second
  let firstLength := mode.firstLength first - classes * classSurplus
  let secondLength := countOf second - classes * classSurplus
  let fitted ←
    if secondLength < firstLength && !mode.truncate then
      if secondLength = 0 then .error .emptySecond
      else extendLast second (firstLength - secondLength)
    else
      .ok second
  if mode.complement && first.any SetPart.isClass && !isUniform fitted then
    .error .unequalTargets
  else
    .ok fitted

/-- Checks the two sets of a substitution and returns the second one as it is
used. -/
def fit (mode : SubstitutionMode) (first second : List SetPart) :
    Except MatchFault (List SetPart) := do
  checkFirst first
  checkCount second
  let opened := (second.filter SetPart.isOpen).length
  let filled :=
    if opened = 1 then fillOpenRepeat (mode.firstLength first) second else second
  if 1 < opened then
    .error .severalOpenRepeats
  else if mode.delete then
    if 0 < opened then .error .openRepeatWithoutTargets else .ok second
  else
    mode.fitTargets first filled

/-- The bytes that the first set stands for. -/
def sources (mode : SubstitutionMode) (parts : List SetPart) : List UInt8 :=
  if mode.complement then othersOf parts else membersOf parts

end SubstitutionMode

/-- The other case of the letters of a class. -/
def casePairs (capitals : Bool) : List (UInt8 × UInt8) :=
  let pairs := ByteClass.upper.members.zip ByteClass.lower.members
  if capitals then pairs else pairs.map Prod.swap

/-- The replacements between the places of two sets.  Classes of letters at the
same place replace each letter by its other case, if they differ.  Every step takes
away a place, so their number bounds the steps. -/
def replacements : Nat → List SetPlace → List SetPlace → List (UInt8 × UInt8)
  | 0, _, _ => []
  | bound + 1, first :: firstRest, second :: secondRest =>
      match first.opens, second.opens with
      | some capitals, some targetCapitals =>
          let own :=
            if capitals = targetCapitals then [(first.value, second.value)]
            else casePairs capitals
          own ++ replacements bound (behindClass firstRest) (behindClass secondRest)
      | _, _ =>
          let (firstLeft, secondLeft) := advance first second firstRest secondRest
          (first.value, second.value) :: replacements bound firstLeft secondLeft
  | _ + 1, _, _ => []

/-- Replaces a byte by the first replacement that is listed for it. -/
def replaceByte (pairs : List (UInt8 × UInt8)) (byte : UInt8) : UInt8 :=
  (pairs.lookup byte).getD byte

/-- Removes repeats of the bytes of a set that follow each other. -/
def squeezeBytes (members : List UInt8) : List UInt8 → List UInt8
  | first :: second :: rest =>
      if first = second ∧ members.contains first then
        squeezeBytes members (second :: rest)
      else
        first :: squeezeBytes members (second :: rest)
  | bytes => bytes

namespace SubstitutionMode

/-- The replacements of a substitution.  Of several ones for a byte the last one
counts, so that the later ones are listed first. -/
def pairs (mode : SubstitutionMode) (first second : List SetPart) : List (UInt8 × UInt8) :=
  let firstPlaces :=
    if mode.complement then (othersOf first).map fun value => { value } else placesOf first
  let secondPlaces := placesOf second
  (replacements (firstPlaces.length + secondPlaces.length) firstPlaces secondPlaces).reverse

def apply (mode : SubstitutionMode) (first : List SetPart) (second : Option (List SetPart))
    (input : List UInt8) : List UInt8 :=
  let sources := mode.sources first
  let kept := input.filter fun byte => !sources.contains byte
  match second with
  | none => if mode.delete then kept else squeezeBytes sources input
  | some targets =>
      if mode.delete then
        squeezeBytes (membersOf targets) kept
      else
        let pairs := mode.pairs first targets
        let replaced := input.map (replaceByte pairs)
        if mode.squeeze then squeezeBytes (membersOf targets) replaced else replaced

/-- The complaint about the number of operands, if it does not fit the mode. -/
def operandComplaint (mode : SubstitutionMode) (operands : List String) :
    Option (List UInt8) :=
  let about (text operand : String) : List UInt8 :=
    Text.bytesOf text ++ quoted (Text.bytesOf operand)
  let needed := if mode.delete = mode.squeeze then 2 else 1
  let allowed := if mode.delete && !mode.squeeze then 1 else 2
  if operands.isEmpty then
    some (Text.bytesOf "missing operand")
  else if operands.length < needed then
    let reason :=
      if mode.squeeze then
        "\nTwo strings must be given when both deleting and squeezing repeats."
      else
        "\nTwo strings must be given when translating."
    some (about "missing operand after " (operands.getLast?.getD "") ++ Text.bytesOf reason)
  else if allowed < operands.length then
    let reason :=
      if operands.length = 2 then
        "\nOnly one string may be given when deleting without squeezing repeats."
      else
        ""
    some (about "extra operand " ((operands[allowed]?).getD "") ++ Text.bytesOf reason)
  else
    none

end SubstitutionMode

/-- Reads the sets of a substitution up to the first one that cannot be read.
Returns the warnings, too. -/
def readSets : List String → Except SetFault (List (List SetPart)) × List (List UInt8)
  | [] => (.ok [], [])
  | text :: rest =>
      match readSet text with
      | (.error fault, warnings) => (.error fault, warnings)
      | (.ok parts, warnings) =>
          let (later, laterWarnings) := readSets rest
          (later.map (parts :: ·), warnings ++ laterWarnings)

def substitute (program : String) (arguments : List String) (input : List UInt8) :
    FilterOutcome :=
  let read := substitutionOptions.read arguments
  if read.options.contains .manual then
    .printed []
  else
    match read.fault with
    | some fault => .failed (complaint program fault.text ++ manualHint program)
    | none =>
        let mode := SubstitutionMode.ofOptions read.options
        match mode.operandComplaint read.operands with
        | some text => .failed (complaint program text ++ manualHint program)
        | none =>
            let (sets, warnings) := readSets read.operands
            let warned := warnings.flatMap (complaint program)
            let fail (text : List UInt8) : FilterOutcome :=
              .failed (warned ++ complaint program text)
            let finish (first : List SetPart) (second : Option (List SetPart)) :
                FilterOutcome :=
              { succeeded := true
                output := mode.apply first second input
                complaint := warned
                readsInput := true }
            match sets with
            | .error fault => fail fault.text
            | .ok (first :: second :: _) =>
                match mode.fit first second with
                | .ok targets => finish first (some targets)
                | .error fault => fail (Text.bytesOf fault.text)
            | .ok (first :: _) =>
                match SubstitutionMode.checkFirst first with
                | .ok _ => finish first none
                | .error fault => fail (Text.bytesOf fault.text)
            | .ok [] => fail []

end TextFilter

end GrammarReach
