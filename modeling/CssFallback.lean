import CssFallback.Main
import CssFallback.Session.Basic
import CssFallback.Proofs.Fallback.Local
import CssFallback.Proofs.Families
import CssFallback.Proofs.Fallback.Bound
import CssFallback.Proofs.Fallback.Order
import CssFallback.Proofs.Canonical
import CssFallback.Proofs.Trigger
import CssFallback.Proofs.Composition
import CssFallback.Proofs.Confinement
import CssFallback.Proofs.Layout.Parse
import CssFallback.Proofs.Session.Edits
import CssFallback.Proofs.Session.Serialization
import CssFallback.Proofs.Command.Outcome
import CssFallback.Proofs.Sweeping
import CssFallback.Proofs.Anchoring
import CssFallback.Proofs.Declaration.Marked
import CssFallback.Proofs.Stylesheet.Body
import CssFallback.Proofs.Marking
import CssFallback.Proofs.Value.Parts
import CssFallback.Proofs.Value.Replacing
import CssFallback.Proofs.Command.Effective
import CssFallback.Proofs.Command.Spelling
import CssFallback.Proofs.Declaration.Colon
