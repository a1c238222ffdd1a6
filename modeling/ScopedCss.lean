import ScopedCss.Stylesheet
import ScopedCss.Configuration
import ScopedCss.Files.Access
import ScopedCss.Files.Tree
import ScopedCss.CommandLine.Arguments
import ScopedCss.Report
import ScopedCss.CommandLine.Program
import ScopedCss.Main
import ScopedCss.Proofs.Selector.Places
import ScopedCss.Proofs.Selector.Resumption
import ScopedCss.Proofs.Stylesheet.Leaves
import ScopedCss.Proofs.Stylesheet.Totality
import ScopedCss.Proofs.Selector.Pieces
import ScopedCss.Proofs.Selector.Locality
import ScopedCss.Proofs.Selector.Parts
import ScopedCss.Proofs.Selector.Lists
import ScopedCss.Proofs.Plain.Attributes
import ScopedCss.Proofs.Plain.Tokens
import ScopedCss.Proofs.Plain.Renaming
import ScopedCss.Proofs.Plain.Lists
import ScopedCss.Proofs.Text.Shielding
import ScopedCss.Proofs.Text.WordFree
import ScopedCss.Proofs.Rule.Balance
import ScopedCss.Proofs.Rule.Rows
import ScopedCss.Proofs.Tree.Phrases
import ScopedCss.Proofs.Tree.Names
import ScopedCss.Proofs.Tree.Selectors
import ScopedCss.Proofs.Tree.Commas
import ScopedCss.Proofs.Tree.Animations
import ScopedCss.Proofs.Tree.Families
import ScopedCss.Proofs.Tree.Declarations
import ScopedCss.Proofs.Tree.Contents
import ScopedCss.Proofs.Tree.AtRules
import ScopedCss.Proofs.Tree.Passes
import ScopedCss.Proofs.Rule.Losses
import ScopedCss.Proofs.Selector.Phantoms
import ScopedCss.Proofs.Stylesheet.Leaks
import ScopedCss.Proofs.Stylesheet.Forms
import ScopedCss.Proofs.Stylesheet.Interference
import ScopedCss.Proofs.Stylesheet.Collisions
import ScopedCss.Proofs.Stylesheet.Closing
import ScopedCss.Proofs.Stylesheet.Transparency
import ScopedCss.Proofs.CommandLine.AllOrNothing
import ScopedCss.Proofs.Rule.Grammar
import ScopedCss.Proofs.Selector.Arguments
import ScopedCss.Proofs.Selector.Agreement
import ScopedCss.Proofs.Rule.Descent
import ScopedCss.Proofs.Animation.Bytes
import ScopedCss.Proofs.Font.References
import ScopedCss.Proofs.Plain.Commuting
import ScopedCss.Proofs.Text.Strings
import ScopedCss.Proofs.Rule.Levels
import ScopedCss.Proofs.Text.Comments
import ScopedCss.Proofs.Suffix
import ScopedCss.Proofs.Text.Stripping
import ScopedCss.Proofs.Selector.Normalising
import ScopedCss.Proofs.Selector.Splices
import ScopedCss.Proofs.Selector.Coverage
import ScopedCss.Proofs.Rule.Settings
