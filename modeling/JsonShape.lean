import JsonShape.Proofs.Associativity
import JsonShape.Proofs.Conformance
import JsonShape.Proofs.Cutoff
import JsonShape.Proofs.Depth
import JsonShape.Proofs.Elements
import JsonShape.Proofs.EnoughDepth
import JsonShape.Proofs.FirstKey
import JsonShape.Proofs.Grouping
import JsonShape.Proofs.Indentation
import JsonShape.Proofs.Inspected
import JsonShape.Proofs.Layout
import JsonShape.Proofs.Optional
import JsonShape.Proofs.Placeholder
import JsonShape.Proofs.Reading
import JsonShape.Proofs.Regular
import JsonShape.Proofs.Repetition
import JsonShape.Proofs.Sampling
import JsonShape.Proofs.Shuffling
import JsonShape.Proofs.Similarity
import JsonShape.Proofs.Spacing
import JsonShape.Proofs.Summary
import JsonShape.Proofs.Total
import JsonShape.Proofs.Visited
import JsonShape.Shape.Compare
import JsonShape.Survey
