import Scene.Main
import Scene.Scalar.Exact
import Scene.Json.Text
import Scene.Primitive.Element
import Scene.Proofs.Solver.Convergence
import Scene.Proofs.Solver.Locality
import Scene.Proofs.Solver.VisitOrder
import Scene.Proofs.Solver.Independence
import Scene.Proofs.Except
import Scene.Proofs.Layout.System
import Scene.Proofs.Solver.Frame
import Scene.Proofs.Layout.Fallback
import Scene.Proofs.Resolution.Run
import Scene.Proofs.Resolution.Termination
import Scene.Proofs.Resolution.Guard
import Scene.Proofs.Svg.Edit
import Scene.Proofs.Svg.Walk
import Scene.Proofs.Drawing.Agreement
import Scene.Proofs.Dict
import Scene.Proofs.Inheritance.Lineage
import Scene.Proofs.Inheritance.Relay
import Scene.Proofs.Define.Reading
import Scene.Proofs.Define.Admission
import Scene.Proofs.Define.Registration
import Scene.Proofs.Drawing.Slots
import Scene.Proofs.Rendering.Places
import Scene.Proofs.Rendering.Updates
import Scene.Proofs.Define.Bootstrap
import Scene.Proofs.Solver.Lookup
import Scene.Proofs.Solver.InPlace
import Scene.Proofs.Solver.Ownership
import Scene.Proofs.Svg.Fidelity
import Scene.Proofs.Plain.Pipeline
import Scene.Proofs.Scalar.Ordered
import Scene.Proofs.Solver.Bounds
import Scene.Proofs.Scalar.Sums
import Scene.Proofs.Solver.Posing
import Scene.Proofs.Layout.Completeness
import Scene.Proofs.Resolution.Path
import Scene.Proofs.Scalar.Sizing
import Scene.Proofs.Scalar.Rounding
import Scene.Proofs.Scalar.Doubles
import Scene.Proofs.Layout.Fit
import Scene.Proofs.Define.Stock
import Scene.Proofs.Define.Suits
import Scene.Proofs.Resolution.Scenes
import Scene.Proofs.Resolution.Height
import Scene.Proofs.Layout.Names
import Scene.Proofs.Layout.Taken
import Scene.Proofs.Resolution.Descent
import Scene.Proofs.Resolution.Padding
import Scene.Proofs.Resolution.Snapshot
import Scene.Proofs.Resolution.Checks
import Scene.Proofs.Resolution.Mirror
import Scene.Proofs.Rendering.Renewal
import Scene.Proofs.Drawing.Outlines
import Scene.Proofs.Solver.LastWord
import Scene.Proofs.Solver.Reordering
import Scene.Proofs.Solver.Anchoring
import Scene.Proofs.Solver.Objectives
import Scene.Proofs.Solver.Gap
import Scene.Proofs.Solver.Spreading
import Scene.Proofs.Solver.Repeats
import Scene.Proofs.Solver.Seesaw
import Scene.Proofs.Solver.Saturation
import Scene.Proofs.Scalar.Reach
import Scene.Proofs.Solver.Single
import Scene.Proofs.Inheritance.Ancestry
import Scene.Proofs.Resolution.Origin
import Scene.Proofs.Resolution.Standing
import Scene.Proofs.Nodes.Renaming
import Scene.Proofs.Nodes.Definitions
import Scene.Proofs.Nodes.Scripts
import Scene.Proofs.Nodes.Preparation
import Scene.Proofs.Nodes.Runs
import Scene.Proofs.Rendering.Composition
import Scene.Proofs.Svg.Outline
import Scene.Proofs.Svg.Moving
import Scene.Proofs.Drawing.Addition
import Scene.Proofs.Rendering.Failure
import Scene.Proofs.Drawing.Interruption
import Scene.Proofs.Rendering.Leftover
import Scene.Proofs.Svg.Sprout
import Scene.Proofs.Layout.Mention
import Scene.Proofs.Scalar.Contagion
import Scene.Proofs.Layout.Declared
import Scene.Proofs.Rendering.Specs
import Scene.Proofs.Scalar.Restored
import Scene.Proofs.Plain.Survival
import Scene.Proofs.Layout.Unshared
import Scene.Proofs.Text.Replacement
import Scene.Proofs.Svg.Escaping
import Scene.Proofs.Svg.History
import Scene.Proofs.Svg.StartTags
import Scene.Proofs.Scalar.Infinities
import Scene.Proofs.Solver.Tearing
import Scene.Proofs.Solver.Numbers
import Scene.Proofs.Solver.Approach
