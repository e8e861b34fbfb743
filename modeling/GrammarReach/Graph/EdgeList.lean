import GrammarReach.Graph.Content
import GrammarReach.Text.Pieces

/-!
# Graphs and spans as text

A graph file holds one edge a line, `0->1[label="a"]`, with blanks allowed
between the parts; other lines are skipped.  A span file holds two vertices a
line.  A word file is a graph that spells a word.
-/

namespace GrammarReach

/-- How the labels of a graph file are read. -/
inductive LabelStyle where
  | raw
  /-- Brackets become one letter without id, and other labels epsilon. -/
  | collapsed
deriving DecidableEq, Repr

namespace LabelStyle

/-- The part of a label before its first double minus sign. -/
def beforeDashes : List Char → List Char
  | [] => []
  | character :: rest =>
      if character = '-' ∧ rest.head? = some '-' then []
      else character :: beforeDashes rest

/-- The label that a written label stands for. -/
def apply (style : LabelStyle) (label : Label) : Label :=
  match style with
  | .raw => label
  | .collapsed =>
      match String.ofList (beforeDashes label.toList) with
      | "ob" => "a"
      | "op" => "b"
      | "cb" => "A"
      | "cp" => "B"
      | _ => Grammar.epsilon

end LabelStyle

namespace Edge

def expect (mark : String) (text : List Char) : Option (List Char) :=
  Text.afterBeginning mark.toList (text.dropWhile Text.isBlank)

/-- Skips blanks and then reads one or more digits as a vertex. -/
def readVertex (text : List Char) : Option (Vertex × List Char) :=
  let text := text.dropWhile Text.isBlank
  (Text.readNumeral Text.wordBound (text.takeWhile Char.isDigit)).map fun vertex =>
    (vertex, text.dropWhile Char.isDigit)

/-- Reads the edge that a line starts with. -/
def read (line : List Char) : Option Edge := do
  let (source, rest) ← readVertex line
  let rest ← expect "->" rest
  let (target, rest) ← readVertex rest
  let rest ← expect "[" rest
  let rest ← expect "label" rest
  let rest ← expect "=" rest
  let rest ← expect "\"" rest
  let label := rest.takeWhile (· != '\x22')
  let rest ← expect "\"" (rest.dropWhile (· != '\x22'))
  let _ ← expect "]" rest
  return ⟨source, target, String.ofList label⟩

end Edge

/-- A graph together with the number of lines that held no edge. -/
structure GraphReading where
  graph : Graph := .empty
  skipped : Nat := 0

namespace GraphReading

/-- Takes in one line.  Blank lines are not counted. -/
def takeLine (style : LabelStyle) (reading : GraphReading) (line : List Char) :
    GraphReading :=
  match Edge.read line with
  | some edge =>
      { reading with
        graph := reading.graph.addNew { edge with label := style.apply edge.label } }
  | none =>
      if (Text.trim line).isEmpty then reading
      else { reading with skipped := reading.skipped + 1 }

end GraphReading

namespace Graph

def read (style : LabelStyle) (text : String) : GraphReading :=
  (Text.lines text.toList).foldl (GraphReading.takeLine style) {}

def text (graph : Graph) : String :=
  String.join (graph.labelledEdges.map fun edge => edge.text ++ "\n")

/-- The graph that spells a text: its words are the labels, or its characters
when it has no blank. -/
def spelling (text : String) : Graph :=
  let characters := text.toList
  if characters.any Text.isBlank then
    ofWord ((Text.words characters).map String.ofList)
  else
    ofWord (characters.map fun character => String.ofList [character])

end Graph

namespace Span

/-- Reads the span that a line starts with. -/
def readLine (line : List Char) : Option Span :=
  match Text.words line with
  | start :: stop :: _ => do
      let start ← Text.readNumeral Text.wordBound start
      let stop ← Text.readNumeral Text.wordBound stop
      return ⟨start, stop⟩
  | _ => none

/-- Reads a span file; lines without two vertices are skipped. -/
def readList (text : String) : List Span :=
  (Text.lines text.toList).filterMap readLine

def listText (spans : List Span) : String :=
  String.join (spans.map fun span =>
    Text.decimal span.start ++ " " ++ Text.decimal span.stop ++ "\n")

end Span

end GrammarReach
