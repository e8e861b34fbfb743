/-!
# Digests

A collection of texts is put in order and hashed, so that the order in which the
texts were found does not show.
-/

namespace GrammarReach

namespace Text

def hashByte (hash : UInt64) (byte : UInt8) : UInt64 :=
  (hash ^^^ byte.toUInt64) * 0x00000100000001b3

def hashBytes (bytes : List UInt8) : UInt64 :=
  bytes.foldl hashByte 0xcbf29ce484222325

/-- Puts a text in front of the first one that is not smaller. -/
def insertSorted (text : String) : List String → List String
  | [] => [text]
  | first :: rest =>
      if text ≤ first then text :: first :: rest else first :: insertSorted text rest

def sorted (texts : List String) : List String :=
  texts.foldr insertSorted []

end Text

end GrammarReach
