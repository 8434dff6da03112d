import DocumentMerge.Main
import DocumentMerge.Proofs.Region.Marking
import DocumentMerge.Proofs.Template.Basic
import DocumentMerge.Proofs.Template.Shape
import DocumentMerge.Proofs.Template.Discovery
import DocumentMerge.Proofs.Template.Substitution
import DocumentMerge.Proofs.Template.Merging
import DocumentMerge.Proofs.Template.Simulation
import DocumentMerge.Proofs.Region.Unwrapping
import DocumentMerge.Proofs.Segment.Pending
import DocumentMerge.Proofs.MergeData.Rows
import DocumentMerge.Proofs.MergeData.Expansion
import DocumentMerge.Proofs.MergeData.Independence
import DocumentMerge.Proofs.Region.Rows
import DocumentMerge.Proofs.Region.Elements
import DocumentMerge.Proofs.Region.Nesting
import DocumentMerge.Proofs.Bindings.Passing
import DocumentMerge.Proofs.Segment.Carrying
import DocumentMerge.Proofs.Segment.Pictures
import DocumentMerge.Proofs.Document.Saving
import DocumentMerge.Proofs.Disk.Following
import DocumentMerge.Proofs.Segment.Failing
import DocumentMerge.Proofs.Document.Running
import DocumentMerge.Proofs.Document.Frames
import DocumentMerge.Proofs.Segment.Completing
import DocumentMerge.Proofs.Document.Retaining
import DocumentMerge.Proofs.Segment.Listing
import DocumentMerge.Proofs.Document.Collecting
import DocumentMerge.Proofs.Document.Listing
import DocumentMerge.Proofs.Document.Effects
import DocumentMerge.Proofs.Document.Carrying
import DocumentMerge.Proofs.Package.Rewriting
import DocumentMerge.Proofs.Archive.Cycle
import DocumentMerge.Proofs.Archive.Handle
import DocumentMerge.Proofs.Document.Closing
import DocumentMerge.Proofs.Document.Atomicity
import DocumentMerge.Proofs.Document.Preserving
import DocumentMerge.Proofs.Bindings.Delimited
import DocumentMerge.Proofs.Segment.Discovering
import DocumentMerge.Proofs.Segment.Draining
import DocumentMerge.Proofs.Segment.Rising
import DocumentMerge.Proofs.Document.Conserving
import DocumentMerge.Proofs.Markup.Pieces
import DocumentMerge.Proofs.Markup.Recovering
import DocumentMerge.Proofs.Markup.Attributes
import DocumentMerge.Proofs.Markup.Tags
import DocumentMerge.Proofs.Package.Entries
import DocumentMerge.Proofs.Markup.Elements
import DocumentMerge.Proofs.Package.Properties
import DocumentMerge.Proofs.Region.Layout
import DocumentMerge.Proofs.Segment.Clearing
import DocumentMerge.Proofs.Template.Arranging
import DocumentMerge.Proofs.Package.Overwriting
import DocumentMerge.Proofs.Image.Naming
import DocumentMerge.Proofs.Image.Headers
import DocumentMerge.Proofs.Region.Alternating
import DocumentMerge.Proofs.Region.Moving
import DocumentMerge.Proofs.Command.Leaving
import DocumentMerge.Proofs.Segment.Descending
