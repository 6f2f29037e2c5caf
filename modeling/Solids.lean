import Solids.CommandLine.FileSystem
import Solids.Main
import Solids.Recipe.Encoding
import Solids.Proofs.Exact
import Solids.Proofs.Turn
import Solids.Proofs.Outline
import Solids.Proofs.Region
import Solids.Proofs.Cut
import Solids.Proofs.Spanning
import Solids.Proofs.Clip
import Solids.Proofs.Build
import Solids.Proofs.Surface
import Solids.Proofs.Area
import Solids.Proofs.Halves
import Solids.Proofs.Volume
import Solids.Proofs.Kept
import Solids.Proofs.Bookkeeping
import Solids.Proofs.Stall
import Solids.Proofs.Faces
import Solids.Proofs.Bounds
import Solids.Proofs.Cuboid
import Solids.Proofs.Chain
import Solids.Proofs.Slab
import Solids.Proofs.Subtrahend
import Solids.Proofs.Ending
import Solids.Proofs.Cylinder
import Solids.Proofs.CleanSolid
import Solids.Proofs.SolidChain
import Solids.Proofs.Touching
import Solids.Proofs.Sorted
import Solids.Proofs.Multiplicity
import Solids.Proofs.Postorder
import Solids.Proofs.Transcript
import Solids.Proofs.Preorder
import Solids.Proofs.Stages
import Solids.Proofs.Binary64
import Solids.Proofs.NumberValue
import Solids.Proofs.Grammar
import Solids.Proofs.RoundTrip
import Solids.Proofs.Truthful
import Solids.Proofs.Location
import Solids.Proofs.Brackets
import Solids.Proofs.Guard
import Solids.Proofs.Refusals
import Solids.Proofs.Newell
import Solids.Proofs.Affine
import Solids.Proofs.MovedVolume
import Solids.Proofs.MovedPlane
import Solids.Proofs.Composition
import Solids.Proofs.Watertight
import Solids.Proofs.Outward
import Solids.Proofs.Lossless
import Solids.Proofs.Seam
import Solids.Proofs.BuildLoop
import Solids.Proofs.Complement
import Solids.Proofs.Conservation
import Solids.Proofs.Distribution
import Solids.Proofs.FreshBox
import Solids.Proofs.StlForms
import Solids.Proofs.Overflow
import Solids.Proofs.Checks
import Solids.Proofs.Choice
import Solids.Proofs.FirstFault
import Solids.Proofs.DocumentOrder
import Solids.Proofs.Survey
import Solids.Proofs.Rotation
import Solids.Proofs.SafeFileName
import Solids.Proofs.PathText
import Solids.Proofs.Fan
import Solids.Proofs.OppositeDouble
import Solids.Proofs.Routes
import Solids.Proofs.AllOrNothing
