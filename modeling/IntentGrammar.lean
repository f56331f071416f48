import IntentGrammar.Grammar.Examples
import IntentGrammar.Outline
import IntentGrammar.Proofs.Ends
import IntentGrammar.Proofs.Alignment
import IntentGrammar.Proofs.PlainSearch
import IntentGrammar.Proofs.Pruning
import IntentGrammar.Proofs.Limit
import IntentGrammar.Proofs.Memory
import IntentGrammar.Proofs.Recognition
import IntentGrammar.Proofs.Sharing
import IntentGrammar.Proofs.Combinations
import IntentGrammar.Proofs.RoundTrip
import IntentGrammar.Proofs.Budgets
import IntentGrammar.Proofs.StepBound
import IntentGrammar.Proofs.Enumeration
import IntentGrammar.Proofs.Fillers
import IntentGrammar.Proofs.Variations
import IntentGrammar.Proofs.Stopwords
import IntentGrammar.Proofs.Template.Beside
import IntentGrammar.Proofs.Template.Culprits
import IntentGrammar.Proofs.Template.Written
import IntentGrammar.Proofs.Casing
import IntentGrammar.Proofs.Views
import IntentGrammar.Proofs.Ranking
import IntentGrammar.Proofs.Captures
import IntentGrammar.Proofs.Leftmost
import IntentGrammar.Proofs.Template.Sources
import IntentGrammar.Proofs.Template.Joining
import IntentGrammar.Proofs.Template.Leads
import IntentGrammar.Proofs.Template.Assignments
import IntentGrammar.Proofs.Template.Values
import IntentGrammar.Proofs.Nullable
import IntentGrammar.Proofs.Edges
import IntentGrammar.Proofs.Caps
import IntentGrammar.Proofs.Template.Rendered
import IntentGrammar.Proofs.Template.Sayable
import IntentGrammar.Proofs.Template.Adjacent
import IntentGrammar.Proofs.Template.Groups
import IntentGrammar.Proofs.Aliases
import IntentGrammar.Proofs.Grouping
import IntentGrammar.Proofs.Widening
import IntentGrammar.Proofs.Retokenizing
import IntentGrammar.Proofs.Template.Margins
import IntentGrammar.Proofs.Precedence
