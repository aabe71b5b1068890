import Modelica.Kind
import Modelica.Position

/-!
# Tokens

A token is a piece of source text with its kind. Where it stands is not part of it: `Token.place`
works the spans and positions of a whole token list out from the texts, each token starting where
the one before it stops.
-/

namespace Modelica

structure Token where
  kind : Kind
  text : String
  deriving DecidableEq, Inhabited

namespace Token

def isTrivia (t : Token) : Bool := t.kind.isTrivia

def isSignificant (t : Token) : Bool := t.kind.isSignificant

/-- The number of bytes of a token. -/
def width (t : Token) : Nat := Modelica.width t.text.toList

/-- The text that a token list covers. -/
def concat (ts : List Token) : String := String.join (ts.map Token.text)

end Token

/-- A token and where it stands in its text. -/
structure PlacedToken extends Token where
  span : Span
  first : Position
  last : Position
  deriving DecidableEq, Inhabited

/-- The tokens of a text from some point on, placed one after the other. -/
def Token.placeFrom (offset : Nat) (position : Position) : List Token → List PlacedToken
  | [] => []
  | t :: ts =>
    let stop := offset + t.width
    let next := position.advance t.text
    ⟨t, ⟨offset, stop⟩, position, next⟩ :: placeFrom stop next ts

/-- The tokens of a whole text with their places. -/
def Token.place (ts : List Token) : List PlacedToken := placeFrom 0 .origin ts

end Modelica
