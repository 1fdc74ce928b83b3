import DeferredMarkup.Resolution
import DeferredMarkup.Page
import DeferredMarkup.Proofs.WellNested
import DeferredMarkup.Proofs.OpenTags
import DeferredMarkup.Proofs.Targets
import DeferredMarkup.Proofs.Steps
import DeferredMarkup.Proofs.Stacks
import DeferredMarkup.Proofs.Tracking
import DeferredMarkup.Proofs.Acceptance
import DeferredMarkup.Proofs.ClassPlacement
import DeferredMarkup.Proofs.Digits
import DeferredMarkup.Proofs.Layout
import DeferredMarkup.Proofs.Joining
import DeferredMarkup.Proofs.Sentinels
import DeferredMarkup.Proofs.Placing
import DeferredMarkup.Proofs.Matching
import DeferredMarkup.Proofs.Rendering
import DeferredMarkup.Proofs.Failures
import DeferredMarkup.Proofs.Revising
import DeferredMarkup.Proofs.SentinelFree
import DeferredMarkup.Proofs.Drafting
import DeferredMarkup.Proofs.Categories
import DeferredMarkup.Proofs.Composing
import DeferredMarkup.Proofs.Documents
import DeferredMarkup.Proofs.Escaping
import DeferredMarkup.Proofs.Stretches
import DeferredMarkup.Proofs.Filling
import DeferredMarkup.Proofs.Pages
import DeferredMarkup.Proofs.Blame
import DeferredMarkup.Proofs.Simultaneous
import DeferredMarkup.Proofs.Culprits
import DeferredMarkup.Proofs.Renaming
import DeferredMarkup.Proofs.Respelling
import DeferredMarkup.Proofs.Rekeying
import DeferredMarkup.Proofs.Leftovers
import DeferredMarkup.Proofs.Appending
import DeferredMarkup.Proofs.Readings
import DeferredMarkup.Proofs.Misplacing
import DeferredMarkup.Proofs.Allocating
import DeferredMarkup.Proofs.DocumentOrder
import DeferredMarkup.Proofs.KeptContent
import DeferredMarkup.Proofs.HeaderLines
import DeferredMarkup.Proofs.Journals
import DeferredMarkup.Proofs.LineEndings
import DeferredMarkup.Proofs.Neighbours
import DeferredMarkup.Proofs.Replacing
