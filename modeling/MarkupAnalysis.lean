import MarkupAnalysis.Bisection
import MarkupAnalysis.CommandLine.Arguments
import MarkupAnalysis.CommandLine.Basic
import MarkupAnalysis.CommandLine.Run
import MarkupAnalysis.Completion.AttributeProposals
import MarkupAnalysis.Completion.Complete
import MarkupAnalysis.Completion.Cursor
import MarkupAnalysis.Completion.Insertion
import MarkupAnalysis.Completion.Suggestion
import MarkupAnalysis.Completion.TagProposals
import MarkupAnalysis.Configuration.Basic
import MarkupAnalysis.Configuration.Format
import MarkupAnalysis.Configuration.Load
import MarkupAnalysis.Document.Basic
import MarkupAnalysis.Document.Builder
import MarkupAnalysis.Document.Position
import MarkupAnalysis.Document.Walk
import MarkupAnalysis.Files.Basic
import MarkupAnalysis.Files.Path
import MarkupAnalysis.Files.Tree
import MarkupAnalysis.Folding.Basic
import MarkupAnalysis.Folding.Limit
import MarkupAnalysis.Hover
import MarkupAnalysis.Json.Basic
import MarkupAnalysis.Json.Numeral
import MarkupAnalysis.Json.Reader
import MarkupAnalysis.Json.Writer
import MarkupAnalysis.Link.Basic
import MarkupAnalysis.Link.Uri
import MarkupAnalysis.Main
import MarkupAnalysis.Outline
import MarkupAnalysis.Pairing
import MarkupAnalysis.Proofs.Completion.AttributeOffers
import MarkupAnalysis.Proofs.Completion.Classification
import MarkupAnalysis.Proofs.Completion.Closing
import MarkupAnalysis.Proofs.Completion.EndTagAgreement
import MarkupAnalysis.Proofs.Completion.EndTagEdit
import MarkupAnalysis.Proofs.Completion.EndTagInsertion
import MarkupAnalysis.Proofs.Completion.MissingValue
import MarkupAnalysis.Proofs.Completion.OpenAncestor
import MarkupAnalysis.Proofs.Completion.Places
import MarkupAnalysis.Proofs.Completion.Replacement
import MarkupAnalysis.Proofs.Completion.Staleness
import MarkupAnalysis.Proofs.Completion.StartTagPlaces
import MarkupAnalysis.Proofs.Completion.TagBefore
import MarkupAnalysis.Proofs.Completion.ValueQuotes
import MarkupAnalysis.Proofs.Document.Ancestry
import MarkupAnalysis.Proofs.Document.Attributes
import MarkupAnalysis.Proofs.Document.BodyOwner
import MarkupAnalysis.Proofs.Document.Brackets
import MarkupAnalysis.Proofs.Document.Building
import MarkupAnalysis.Proofs.Document.Casing
import MarkupAnalysis.Proofs.Document.ClosingTag
import MarkupAnalysis.Proofs.Document.CommentPlaces
import MarkupAnalysis.Proofs.Document.CommentRecords
import MarkupAnalysis.Proofs.Document.Comments
import MarkupAnalysis.Proofs.Document.Editing
import MarkupAnalysis.Proofs.Document.EndTag
import MarkupAnalysis.Proofs.Document.Endings
import MarkupAnalysis.Proofs.Document.Frame
import MarkupAnalysis.Proofs.Document.Growth
import MarkupAnalysis.Proofs.Document.History
import MarkupAnalysis.Proofs.Document.Identifiers
import MarkupAnalysis.Proofs.Document.Locating
import MarkupAnalysis.Proofs.Document.Marks
import MarkupAnalysis.Proofs.Document.Moving
import MarkupAnalysis.Proofs.Document.NamePlaces
import MarkupAnalysis.Proofs.Document.NameTable
import MarkupAnalysis.Proofs.Document.Names
import MarkupAnalysis.Proofs.Document.Nesting
import MarkupAnalysis.Proofs.Document.NewNames
import MarkupAnalysis.Proofs.Document.OffTags
import MarkupAnalysis.Proofs.Document.OpaqueBody
import MarkupAnalysis.Proofs.Document.Order
import MarkupAnalysis.Proofs.Document.Pairing
import MarkupAnalysis.Proofs.Document.Recovery
import MarkupAnalysis.Proofs.Document.Reindenting
import MarkupAnalysis.Proofs.Document.Renaming
import MarkupAnalysis.Proofs.Document.Resumption
import MarkupAnalysis.Proofs.Document.Stability
import MarkupAnalysis.Proofs.Document.StartTag
import MarkupAnalysis.Proofs.Document.StartTagTokens
import MarkupAnalysis.Proofs.Document.Steps
import MarkupAnalysis.Proofs.Document.Tags
import MarkupAnalysis.Proofs.Folding.Candidates
import MarkupAnalysis.Proofs.Folding.Levels
import MarkupAnalysis.Proofs.Folding.Limiting
import MarkupAnalysis.Proofs.Folding.Nesting
import MarkupAnalysis.Proofs.Folding.Regions
import MarkupAnalysis.Proofs.Link.Base
import MarkupAnalysis.Proofs.Link.Joining
import MarkupAnalysis.Proofs.Link.Order
import MarkupAnalysis.Proofs.Link.Query
import MarkupAnalysis.Proofs.Link.Quotes
import MarkupAnalysis.Proofs.Link.References
import MarkupAnalysis.Proofs.Outline.Views
import MarkupAnalysis.Proofs.Rendering.Feeding
import MarkupAnalysis.Proofs.Rendering.Forest
import MarkupAnalysis.Proofs.Rendering.RoundTrip
import MarkupAnalysis.Proofs.Rendering.Scanning
import MarkupAnalysis.Proofs.Selection.Chains
import MarkupAnalysis.Proofs.Selection.Constructs
import MarkupAnalysis.Proofs.Session.Transparency
import MarkupAnalysis.Proofs.Text.Boundary
import MarkupAnalysis.Proofs.Text.Case
import MarkupAnalysis.Proofs.Text.CommonSubsequence
import MarkupAnalysis.Proofs.Text.Lines
import MarkupAnalysis.Proofs.Text.Prefix
import MarkupAnalysis.Proofs.Text.Runs
import MarkupAnalysis.Proofs.Text.Similarity
import MarkupAnalysis.Proofs.Text.Terminators
import MarkupAnalysis.Proofs.Token.BlankRuns
import MarkupAnalysis.Proofs.Token.Body
import MarkupAnalysis.Proofs.Token.BodyEnd
import MarkupAnalysis.Proofs.Token.Bracket
import MarkupAnalysis.Proofs.Token.Casing
import MarkupAnalysis.Proofs.Token.Continuation
import MarkupAnalysis.Proofs.Token.Grammar
import MarkupAnalysis.Proofs.Token.Interruption
import MarkupAnalysis.Proofs.Token.Lookahead
import MarkupAnalysis.Proofs.Token.Names
import MarkupAnalysis.Proofs.Token.OpaqueBody
import MarkupAnalysis.Proofs.Token.Passage
import MarkupAnalysis.Proofs.Token.Respelling
import MarkupAnalysis.Proofs.Token.Restart
import MarkupAnalysis.Proofs.Token.Spelling
import MarkupAnalysis.Proofs.Token.Tiling
import MarkupAnalysis.Proofs.Token.Values
import MarkupAnalysis.Proofs.Vocabulary.Declarations
import MarkupAnalysis.Proofs.Vocabulary.Index
import MarkupAnalysis.Proofs.Vocabulary.Marking
import MarkupAnalysis.Proofs.Vocabulary.Merging
import MarkupAnalysis.Report
import MarkupAnalysis.Selection
import MarkupAnalysis.Session
import MarkupAnalysis.Text.Basic
import MarkupAnalysis.Text.Lines
import MarkupAnalysis.Text.Quotes
import MarkupAnalysis.Text.Similarity
import MarkupAnalysis.Text.Span
import MarkupAnalysis.Text.WhiteSpace
import MarkupAnalysis.Text.Word
import MarkupAnalysis.Text.WordTable
import MarkupAnalysis.Token.Basic
import MarkupAnalysis.Token.EmbeddedBody
import MarkupAnalysis.Token.Progress
import MarkupAnalysis.Token.Reading
import MarkupAnalysis.Token.Tokenizer
import MarkupAnalysis.Toml.Basic
import MarkupAnalysis.Toml.Document
import MarkupAnalysis.Toml.Reader
import MarkupAnalysis.Toml.Scalar
import MarkupAnalysis.Vocabulary.Basic
import MarkupAnalysis.Vocabulary.DataFormat
import MarkupAnalysis.Vocabulary.DataSet
import MarkupAnalysis.Vocabulary.Dictionary
import MarkupAnalysis.Vocabulary.Html
