import WeLang.Source
import WeLang.Span
import WeLang.Token.Kind
import WeLang.Token.KindSet
import WeLang.Table
import WeLang.Ty
import WeLang.Diagnostic
import WeLang.LineTable
import WeLang.Token
import WeLang.Node
import WeLang.Node.Stored
import WeLang.Lexis.ByteClass
import WeLang.Lexis.Word
import WeLang.Lexis.Literal
import WeLang.Lexis.Rule
import WeLang.Lexis.Fault
import WeLang.Lexis.NextToken
import WeLang.Scanner
import WeLang.Parse.Limits
import WeLang.Parse.Error
import WeLang.Parse.Failure
import WeLang.Parse.Draft
import WeLang.Parse.Progress
import WeLang.Parse.Matcher
import WeLang.Parse.Pattern
import WeLang.Parse.Completion
import WeLang.Parse.Grammar
import WeLang.Parse
import WeLang.Proofs.Text
import WeLang.Proofs.Words
import WeLang.Proofs.Exclusive
import WeLang.Proofs.Lexing
import WeLang.Proofs.Path
import WeLang.Proofs.Scanning
import WeLang.Proofs.Contract
import WeLang.Proofs.Language
import WeLang.Proofs.Reading
import WeLang.Proofs.Following
import WeLang.Proofs.Wording
import WeLang.Proofs.Choice
import WeLang.Proofs.Recognition
import WeLang.Proofs.Expectation
import WeLang.Proofs.Spanless
import WeLang.Proofs.Twins
import WeLang.Proofs.Lockstep
import WeLang.Proofs.Limits
import WeLang.Proofs.Lines
import WeLang.Proofs.Stopping
import WeLang.Proofs.Failing
import WeLang.Proofs.Parts
import WeLang.Proofs.Cutting
import WeLang.Proofs.Tracing
import WeLang.Proofs.Leaving
import WeLang.Proofs.Typing
import WeLang.Proofs.Keeping
import WeLang.Proofs.Advancing
import WeLang.Proofs.Warnings
import WeLang.Proofs.Furthest
import WeLang.Proofs.Merging
import WeLang.Proofs.Foresight
import WeLang.Proofs.Spending
import WeLang.Proofs.Linear
import WeLang.Proofs.Composing
import WeLang.Proofs.Undoing
import WeLang.Proofs.Placing
import WeLang.Proofs.Nesting
import WeLang.Proofs.Bracketing
import WeLang.Proofs.Copying
import WeLang.Proofs.Excerpts
import WeLang.Proofs.Seams
import WeLang.Proofs.Layout
import WeLang.Proofs.Breaking
import WeLang.Proofs.Content
import WeLang.Proofs.Pointing
import WeLang.Proofs.Places
import WeLang.Proofs.Replaying
import WeLang.Proofs.Statements
import WeLang.Proofs.Carrying
import WeLang.Proofs.Joining
import WeLang.Proofs.Continuing
import WeLang.Proofs.Storing
import WeLang.Proofs.Choosing
import WeLang.Proofs.Gathering
import WeLang.Proofs.Writing
import WeLang.Proofs.Collections
import WeLang.Proofs.Functions
import WeLang.Proofs.Escaping
import WeLang.Proofs.Resting
import WeLang.Proofs.Gluing
import WeLang.Proofs.Calling
import WeLang.Proofs.Levels
import WeLang.Proofs.Intact
import WeLang.Proofs.Numerals
import WeLang.Proofs.Showing
import WeLang.Proofs.Naming
import WeLang.Proofs.Restoring
