import Formula.Markup.Tag

/-! # The root and its namespace

The root of a formula is its first start tag of the name `math`, with or without a namespace prefix.
It must declare the namespace of MathML, for its prefix if it has one.
-/

namespace Formula.Markup

open Text

def mathNamespace : Text := "http://www.w3.org/1998/Math/MathML".toList

def math : Text := "math".toList

def xmlns : Text := "xmlns".toList

/-- A start tag with a local name `math`; the prefix is empty if there is none. -/
structure Root where
  nsPrefix : Text
  attributes : Text
  deriving DecidableEq, Repr

namespace Root

def name (root : Root) : Text :=
  if root.nsPrefix = [] then math else root.nsPrefix ++ ':' :: math

def written (root : Root) : Text :=
  '<' :: root.name ++ root.attributes ++ ['>']

/-- The namespace counts as declared if the attributes mention `xmlns` at all. -/
def isDeclared (root : Root) : Bool :=
  occurs xmlns root.attributes

def declaration (root : Root) : Text :=
  ' ' :: xmlns ++ (if root.nsPrefix = [] then [] else ':' :: root.nsPrefix) ++ '=' :: '"' ::
    mathNamespace ++ ['"']

/-- The root with a declaration in front of its attributes. -/
def declare (root : Root) : Root :=
  { root with attributes := root.declaration ++ root.attributes }

end Root

/-- A namespace prefix is made of word characters, periods and hyphens. -/
def isPrefixChar (c : Char) : Bool :=
  isWord c || c == '.' || c == '-'

/-- What follows the name `math`, if a text begins with it and the name ends there. -/
def afterMath? (t : Text) : Option Text :=
  (after? math t).filter endsWord

def nsPrefix? (t : Text) : Option (Text × Text) :=
  match t.takeWhile isPrefixChar, t.dropWhile isPrefixChar with
  | c :: p, ':' :: r => some (c :: p, r)
  | _, _ => none

/-- The prefix of the name `math` at the front of a text, with what follows the name. A name that can
be read with a prefix is read so. -/
def rootName? (t : Text) : Option (Text × Text) :=
  let prefixed := do
    let (p, r) ← nsPrefix? t
    let r ← afterMath? r
    return (p, r)
  prefixed <|> (afterMath? t).map ([], ·)

def root? : Text → Option (Root × Text)
  | [] => none
  | c :: r =>
    if c = '<' then do
      let (p, r) ← rootName? r
      let (attributes, rest) ← tagBody? r
      return (⟨p, attributes⟩, rest)
    else none

/-- Declares the namespace at the first root, unless it does so already. -/
def declareNamespace : Text → Text
  | [] => []
  | c :: r => match root? (c :: r) with
    | some (root, rest) => if root.isDeclared then c :: r else root.declare.written ++ rest
    | none => c :: declareNamespace r

end Formula.Markup
