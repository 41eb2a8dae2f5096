import AssetServer.Main
import AssetServer.Proofs.Action
import AssetServer.Proofs.Bundle
import AssetServer.Proofs.Confinement
import AssetServer.Proofs.Growth
import AssetServer.Proofs.Lookup
import AssetServer.Proofs.Mirror
import AssetServer.Proofs.Naming
import AssetServer.Proofs.Precedence
import AssetServer.Proofs.Redirect
import AssetServer.Proofs.Rooted
import AssetServer.Proofs.Serving
import AssetServer.Proofs.Steady
import AssetServer.Proofs.Traversal
import AssetServer.Proofs.Visit
import AssetServer.Proofs.Writing
import AssetServer.Proofs.Agreement
import AssetServer.Proofs.Placing
import AssetServer.Proofs.Amid
import AssetServer.Proofs.Course
import AssetServer.Proofs.Walking
import AssetServer.Proofs.Fold
import AssetServer.Proofs.Settled
import AssetServer.Proofs.Origin
import AssetServer.Proofs.Layers
import AssetServer.Proofs.Reaping
import AssetServer.Proofs.Coverage
import AssetServer.Proofs.Reexport
import AssetServer.Proofs.Rerun
import AssetServer.Proofs.Retrace
import AssetServer.Proofs.Repeat
import AssetServer.Proofs.Dataflow
import AssetServer.Proofs.Correspondence
import AssetServer.Proofs.Calendar
import AssetServer.Proofs.HttpDate
import AssetServer.Proofs.Revalidation
import AssetServer.Proofs.Construction
import AssetServer.Proofs.Candidates
import AssetServer.Proofs.Meaning
import AssetServer.Proofs.Rendering
import AssetServer.Proofs.Composition
import AssetServer.Proofs.Quotation
import AssetServer.Proofs.Sections
import AssetServer.Proofs.Utf8
import AssetServer.Proofs.Documents
import AssetServer.Proofs.Configuration
import AssetServer.Proofs.Grammar
import AssetServer.Proofs.Leading
import AssetServer.Proofs.Staging
import AssetServer.Proofs.Absolute
import AssetServer.Proofs.Tooling
import AssetServer.Proofs.Ceiling
import AssetServer.Proofs.Mounting
import AssetServer.Proofs.Arrival
import AssetServer.Proofs.Expansion
import AssetServer.Proofs.Vantage
import AssetServer.Proofs.Dating
import AssetServer.Proofs.Pinning
import AssetServer.Proofs.JsonText
import AssetServer.Proofs.JsonReading
import AssetServer.Proofs.ManifestText
import AssetServer.Proofs.Sparing
import AssetServer.Proofs.NormalForm
import AssetServer.Proofs.Entering
import AssetServer.Proofs.Bounding
