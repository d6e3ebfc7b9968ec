import EcmaLex.Text.Basic

/-!
# Issues

An issue is one defect that a text can have on the level of characters and tokens. Each kind of
issue has a code, which is stable, a severity, and a message, which quotes the text concerned.
-/

namespace EcmaLex

inductive Severity where
  /-- A malformed construct. -/
  | error
  /-- A matter of style or robustness. -/
  | warning
deriving DecidableEq, Repr

def Severity.label : Severity → String
  | .error => "error"
  | .warning => "warning"

inductive Issue where
  | unsafeCharacter
  | unexpectedCharacter (c : Char)
  | lineTooLong
  | trailingWhitespace
  | mixedSpacesAndTabs
  | badNumber (raw : Text)
  | leadingZeros (raw : Text)
  | leadingDecimalPoint (raw : Text)
  | trailingDecimalPoint (raw : Text)
  | missingSpaceAfterNumber (raw : Text)
  | avoidHexNumber (raw : Text)
  | controlCharacterInString (before : Text)
  | badEscapement
  | unnecessaryEscapement
  | eolEscapement
  | unclosedString
  | scriptUrl
  | singleQuotedString
  | avoidVerticalTabEscape
  | avoidHexEscape
  | avoidSingleQuoteEscape
  | avoidEolEscapement
  | barewordKey (name : Text)
  | nestedComment
  | unbegunComment
  | unclosedComment
  | regexControlCharacter
  | regexUnexpectedEscape (c : Char)
  | expected (wanted : Char) (found : Text)
  | expectedNumber (found : Text)
  | unescaped (c : Char)
  | emptyClass
  | quantifierBounds (low high : Nat)
  | regexSpaces (count : Nat)
  | unclosedRegex
  | regexConfusedWithAssign
  | unterminatedGroups (count : Nat)
  | invalidRegexFlag (c : Char)
  | confusingRegex
  | hasOwnProperty
  | protoProperty
  | iteratorProperty
  | unclosedTemplate
deriving DecidableEq, Repr

namespace Issue

def severity : Issue → Severity
  | unexpectedCharacter _ | badEscapement | unclosedString | unclosedComment | expected _ _
  | expectedNumber _ | unescaped _ | emptyClass | quantifierBounds _ _ | unclosedRegex
  | invalidRegexFlag _ | unclosedTemplate => .error
  | _ => .warning

def code : Issue → String
  | unsafeCharacter => "unsafe_character"
  | unexpectedCharacter _ => "unexpected_character"
  | lineTooLong => "line_too_long"
  | trailingWhitespace => "trailing_whitespace"
  | mixedSpacesAndTabs => "mixed_spaces_and_tabs"
  | badNumber _ => "bad_number"
  | leadingZeros _ => "leading_zeros"
  | leadingDecimalPoint _ => "leading_decimal_point"
  | trailingDecimalPoint _ => "trailing_decimal_point"
  | missingSpaceAfterNumber _ => "missing_space_after_number"
  | avoidHexNumber _ => "json_hex_number"
  | controlCharacterInString _ => "control_character_in_string"
  | badEscapement => "bad_escapement"
  | unnecessaryEscapement => "unnecessary_escapement"
  | eolEscapement => "eol_escapement"
  | unclosedString => "unclosed_string"
  | scriptUrl => "script_url"
  | singleQuotedString => "json_single_quote"
  | avoidVerticalTabEscape => "json_vertical_tab_escape"
  | avoidHexEscape => "json_hex_escape"
  | avoidSingleQuoteEscape => "json_single_quote_escape"
  | avoidEolEscapement => "json_eol_escapement"
  | barewordKey _ => "json_bareword_key"
  | nestedComment => "nested_comment"
  | unbegunComment => "unbegun_comment"
  | unclosedComment => "unclosed_comment"
  | regexControlCharacter => "regex_control_character"
  | regexUnexpectedEscape _ => "regex_unexpected_escape"
  | expected _ _ => "regex_expected"
  | expectedNumber _ => "regex_expected_number"
  | unescaped _ => "regex_unescaped"
  | emptyClass => "regex_empty_class"
  | quantifierBounds _ _ => "regex_quantifier_bounds"
  | regexSpaces _ => "regex_spaces"
  | unclosedRegex => "unclosed_regex"
  | regexConfusedWithAssign => "regex_confused_with_assign"
  | unterminatedGroups _ => "regex_unterminated_groups"
  | invalidRegexFlag _ => "regex_invalid_flag"
  | confusingRegex => "confusing_regex"
  | hasOwnProperty => "has_own_property"
  | protoProperty => "proto_property"
  | iteratorProperty => "iterator_property"
  | unclosedTemplate => "unclosed_template"

/-- A text between single quotes. -/
private def quoted (t : Text) : String := "'" ++ String.ofList t ++ "'"

def message : Issue → String
  | unsafeCharacter => "Unsafe character."
  | unexpectedCharacter c => "Unexpected " ++ quoted [c] ++ "."
  | lineTooLong => "Line too long."
  | trailingWhitespace => "Trailing whitespace."
  | mixedSpacesAndTabs => "Mixed spaces and tabs."
  | badNumber raw => "Bad number " ++ quoted raw ++ "."
  | leadingZeros raw => "Don't use extra leading zeros " ++ quoted raw ++ "."
  | leadingDecimalPoint raw =>
    "A leading decimal point can be confused with a dot: " ++ quoted raw ++ "."
  | trailingDecimalPoint raw =>
    "A trailing decimal point can be confused with a dot " ++ quoted raw ++ "."
  | missingSpaceAfterNumber raw => "Missing space after " ++ quoted raw ++ "."
  | avoidHexNumber raw => "Avoid 0x-. " ++ quoted raw ++ "."
  | controlCharacterInString before =>
    "Control character in string: " ++ String.ofList before ++ "."
  | badEscapement => "Bad escapement."
  | unnecessaryEscapement => "Unnecessary escapement."
  | eolEscapement => "Bad escapement of EOL. Use option multistr if needed."
  | unclosedString => "Unclosed string."
  | scriptUrl => "Script URL."
  | singleQuotedString => "Strings must use doublequote."
  | avoidVerticalTabEscape => "Avoid \\v."
  | avoidHexEscape => "Avoid \\x-."
  | avoidSingleQuoteEscape => "Avoid \\'."
  | avoidEolEscapement => "Avoid EOL escapement."
  | barewordKey name => "Expected a string and instead saw " ++ String.ofList name ++ "."
  | nestedComment => "Nested comment."
  | unbegunComment => "Unbegun comment."
  | unclosedComment => "Unclosed comment."
  | regexControlCharacter => "Unexpected control character in regular expression."
  | regexUnexpectedEscape c =>
    "Unexpected escaped character " ++ quoted [c] ++ " in regular expression."
  | expected wanted found => "Expected " ++ quoted [wanted] ++ " and instead saw " ++ quoted found ++ "."
  | expectedNumber found => "Expected a number and instead saw " ++ quoted found ++ "."
  | unescaped c => "Unescaped " ++ quoted [c] ++ "."
  | emptyClass => "Empty class."
  | quantifierBounds low high =>
    "'" ++ toString low ++ "' should not be greater than '" ++ toString high ++ "'."
  | regexSpaces count => "Spaces are hard to count. Use \x7b" ++ toString count ++ "\x7d."
  | unclosedRegex => "Unclosed regular expression."
  | regexConfusedWithAssign => "A regular expression literal can be confused with '/='."
  | unterminatedGroups count =>
    toString count ++ " unterminated regular expression group(s)."
  | invalidRegexFlag c => "Invalid regular expression flag " ++ quoted [c] ++ "."
  | confusingRegex => "Confusing regular expression."
  | hasOwnProperty => "'hasOwnProperty' is a really bad name."
  | protoProperty => "The '__proto__' property is deprecated."
  | iteratorProperty => "'__iterator__' is only available in JavaScript 1.7."
  | unclosedTemplate => "Unclosed template literal."

end Issue

end EcmaLex
