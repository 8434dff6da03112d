import DocumentMerge.Text.Basic

/-!
# What can be wrong with markup

The causes for which XML is refused, with their wording.  Positions and ranges are byte offsets:
of an attribute in the text of its tag behind the `<`, of a reference in the attribute value.
-/

namespace DocumentMerge.Markup

/-- Markup that is not closed, or that is none of the known kinds. -/
inductive SyntaxError where
  | unknownMarkup
  | instructionNotClosed
  | commentNotClosed
  | doctypeNotClosed
  | cdataNotClosed
  | tagNotClosed
  deriving DecidableEq, Repr

/-- Tags that do not fit together. -/
inductive FormError where
  | unmatchedEnd (name : Text)
  | mismatchedEnd (expected found : Text)
  | doctypeWithoutName
  deriving DecidableEq, Repr

/-- What is wrong with an attribute. -/
inductive AttributeError where
  | noEquals (position : Nat)
  | noValue (position : Nat)
  | unquotedValue (position : Nat)
  | quoteNotClosed (position : Nat) (quote : Char)
  | duplicate (position previous : Nat)
  deriving DecidableEq, Repr

/-- What is wrong with the digits of a number. -/
inductive DigitError where
  | noDigits
  | invalidDigit
  | tooLarge
  deriving DecidableEq, Repr

/-- What is wrong with a reference to a character by its number. -/
inductive CharacterError where
  | sign
  | digits (cause : DigitError)
  | notACharacter (n : Nat)
  | zero
  deriving DecidableEq, Repr

/-- What is wrong with a reference. -/
inductive ReferenceError where
  | unknownEntity (start stop : Nat) (name : Text)
  | notTerminated (start stop : Nat)
  | character (cause : CharacterError)
  deriving DecidableEq, Repr

/-- Why markup is refused. -/
inductive Error where
  | syntaxError (cause : SyntaxError)
  | illFormed (cause : FormError)
  | attribute (cause : AttributeError)
  | reference (cause : ReferenceError)
  deriving DecidableEq, Repr

/-! ## Wording -/

/-- A text between backquotes. -/
def quoted (t : Text) : Text :=
  '\x60' :: t ++ ['\x60']

def SyntaxError.message : SyntaxError → Text
  | .unknownMarkup => "unknown or missed symbol in markup".toList
  | .instructionNotClosed =>
    "processing instruction or xml declaration not closed: ".toList ++ quoted "?>".toList
      ++ " not found before end of input".toList
  | .commentNotClosed =>
    "comment not closed: ".toList ++ quoted "-->".toList
      ++ " not found before end of input".toList
  | .doctypeNotClosed =>
    "DOCTYPE not closed: ".toList ++ quoted ">".toList ++ " not found before end of input".toList
  | .cdataNotClosed =>
    "CDATA not closed: ".toList ++ quoted "]]>".toList ++ " not found before end of input".toList
  | .tagNotClosed =>
    "tag not closed: ".toList ++ quoted ">".toList ++ " not found before end of input".toList

/-- An end tag between backquotes. -/
def quotedEnd (name : Text) : Text :=
  quoted ("</".toList ++ name ++ ">".toList)

def FormError.message : FormError → Text
  | .unmatchedEnd name =>
    "close tag ".toList ++ quotedEnd name ++ " does not match any open tag".toList
  | .mismatchedEnd expected found =>
    "expected ".toList ++ quotedEnd expected ++ ", but ".toList ++ quotedEnd found
      ++ " was found".toList
  | .doctypeWithoutName =>
    quoted "<!DOCTYPE>".toList
      ++ " declaration does not contain a name of a document type".toList

def AttributeError.message : AttributeError → Text
  | .noEquals position =>
    "position ".toList ++ Text.ofNat position
      ++ ": attribute key must be directly followed by ".toList ++ quoted ['=']
      ++ " or space".toList
  | .noValue position =>
    "position ".toList ++ Text.ofNat position ++ ": ".toList ++ quoted ['=']
      ++ " must be followed by an attribute value".toList
  | .unquotedValue position =>
    "position ".toList ++ Text.ofNat position
      ++ ": attribute value must be enclosed in ".toList ++ quoted ['"'] ++ " or ".toList
      ++ quoted ['\'']
  | .quoteNotClosed position quote =>
    "position ".toList ++ Text.ofNat position ++ ": missing closing quote ".toList
      ++ quoted [quote] ++ " in attribute value".toList
  | .duplicate position previous =>
    "position ".toList ++ Text.ofNat position
      ++ ": duplicated attribute, previous declaration at position ".toList
      ++ Text.ofNat previous

def DigitError.message : DigitError → Text
  | .noDigits => "cannot parse integer from empty string".toList
  | .invalidDigit => "invalid digit found in string".toList
  | .tooLarge => "number too large to fit in target type".toList

def CharacterError.message : CharacterError → Text
  | .sign => "unexpected number sign".toList
  | .digits cause => cause.message
  | .notACharacter n => quoted (Text.ofNat n) ++ " is not a valid codepoint".toList
  | .zero => "0x0 character is not permitted in XML".toList

/-- A range of byte offsets. -/
def rangeText (start stop : Nat) : Text :=
  Text.ofNat start ++ "..".toList ++ Text.ofNat stop

def ReferenceError.message : ReferenceError → Text
  | .unknownEntity start stop name =>
    "at ".toList ++ rangeText start stop ++ ": unrecognized entity ".toList ++ quoted name
  | .notTerminated start stop =>
    "Error while escaping character at range ".toList ++ rangeText start stop
      ++ ": Cannot find ';' after '&'".toList
  | .character cause => "invalid character reference: ".toList ++ cause.message

def Error.message : Error → Text
  | .syntaxError cause => "syntax error: ".toList ++ cause.message
  | .illFormed cause => "ill-formed document: ".toList ++ cause.message
  | .attribute cause => "error while parsing attribute: ".toList ++ cause.message
  | .reference cause => cause.message

/-- The causes below an error, each with its own wording. -/
def Error.causes : Error → List Text
  | .syntaxError cause => [cause.message]
  | .illFormed cause => [cause.message]
  | .attribute cause => [cause.message]
  | .reference cause =>
    cause.message ::
      match cause with
      | .character number =>
        number.message ::
          match number with
          | .digits digits => [digits.message]
          | _ => []
      | _ => []

end DocumentMerge.Markup
