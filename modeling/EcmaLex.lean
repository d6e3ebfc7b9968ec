import EcmaLex.Highlight
import EcmaLex.Lexer
import EcmaLex.Toml.Config
import EcmaLex.Proofs.Blanking
import EcmaLex.Proofs.Errors
import EcmaLex.Proofs.Governed
import EcmaLex.Proofs.LeadingMark
import EcmaLex.Proofs.LineBreak
import EcmaLex.Proofs.LineChecks
import EcmaLex.Proofs.LineEnds.Flag
import EcmaLex.Proofs.LineEnds.Run
import EcmaLex.Proofs.Relex
import EcmaLex.Proofs.Respelling
import EcmaLex.Proofs.Tiling
import EcmaLex.Proofs.Unclosed
import EcmaLex.Proofs.UnsafeCharacters
import EcmaLex.Proofs.Regex.ClosingSlash
import EcmaLex.Proofs.Issues
import EcmaLex.Proofs.Regex.Course
import EcmaLex.Proofs.Regex.GroupName
import EcmaLex.Proofs.Regex.PropertyEscape
import EcmaLex.Proofs.Regex.Clean
import EcmaLex.Proofs.Regex.ControlCharacters
import EcmaLex.Proofs.Regex.Hyphens
import EcmaLex.Proofs.Regex.Groups
import EcmaLex.Proofs.Regex.Bounds
import EcmaLex.Proofs.StringBody
import EcmaLex.Proofs.BadEscapes
import EcmaLex.Proofs.Templates
import EcmaLex.Proofs.NestedComments
import EcmaLex.Proofs.Number.Grammar
import EcmaLex.Proofs.Number.Digits
import EcmaLex.Proofs.Number.Hexadecimal
import EcmaLex.Proofs.Number.Following
import EcmaLex.Proofs.Number.Rounding
import EcmaLex.Proofs.Number.Numeral
import EcmaLex.Proofs.Number.Parsing
import EcmaLex.Proofs.Number.Value
import EcmaLex.Proofs.Words
import EcmaLex.Proofs.Punctuators
import EcmaLex.Proofs.BarewordKeys
import EcmaLex.Proofs.Highlighting
import EcmaLex.Proofs.Guarded.Run
