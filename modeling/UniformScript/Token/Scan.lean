import UniformScript.Token.Munch

/-!
# Reading a text into tokens

The tokens of a text are the longest pieces taken one after the other, without the blanks, and one
token for the end of the text behind them.  Every piece takes at least one character, so as many
steps as the text has characters are enough.
-/

namespace UniformScript

namespace Token

/-- Where a failure to take a piece at `pos`, the place before `c :: cs`, is reported: at the first
character, but for an unclosed quote at the end of the text. -/
def causeSpan (pos : Position) (c : Char) (cs : List Char) : LexicalCause → Span
  | .unclosedQuote => Span.column (pos.advanceOver (c :: cs))
  | _ => ⟨pos, pos.advance (some c)⟩

/-- The tokens of the text `cs` that begins at `pos`, in at most `fuel` pieces. -/
def scanFrom (fuel : Nat) (pos : Position) (cs : List Char) :
    Except (Located LexicalCause) (List Token) :=
  match fuel, cs with
  | fuel + 1, c :: cs =>
    match munch c cs with
    | .error cause => .error ⟨cause, causeSpan pos c cs cause⟩
    | .ok piece =>
      let stop := pos.advanceOver piece.lexeme
      match scanFrom fuel stop piece.rest with
      | .error failure => .error failure
      | .ok tokens =>
        match piece.kind with
        | none => .ok tokens
        | some kind => .ok (⟨kind, String.ofList piece.lexeme, ⟨pos, stop⟩⟩ :: tokens)
  | _, _ => .ok [finishAt pos]

/-- The tokens of a source. -/
def scan (source : Source) : Except (Located LexicalCause) (List Token) :=
  let cs := source.text.toList
  scanFrom cs.length (Position.start source) cs

end Token

end UniformScript
