import TreeCodec.Session
import TreeCodec.Tree.Registers
import TreeCodec.Proofs.Refusals
import TreeCodec.Proofs.StrictMode
import TreeCodec.Proofs.Keys
import TreeCodec.Proofs.ObjectSource
import TreeCodec.Proofs.UnknownKeys
import TreeCodec.Proofs.Typing
import TreeCodec.Proofs.Base64
import TreeCodec.Proofs.Leaves
import TreeCodec.Proofs.LeafTrees
import TreeCodec.Proofs.Writing
import TreeCodec.Proofs.Reading
import TreeCodec.Proofs.Lossless
import TreeCodec.Proofs.RoundTrip
import TreeCodec.Proofs.ExactTrees
import TreeCodec.Proofs.WritingBack
import TreeCodec.Proofs.TreeRoundTrip
import TreeCodec.Proofs.DepthLimit
import TreeCodec.Proofs.Splicing
import TreeCodec.Proofs.HookedTypes
import TreeCodec.Proofs.InlinedMaps
import TreeCodec.Proofs.InertKeys
import TreeCodec.Proofs.Limits
import TreeCodec.Proofs.Accounted
import TreeCodec.Proofs.OwnOutput
import TreeCodec.Proofs.KeptFields
import TreeCodec.Proofs.SkippedFields
import TreeCodec.Proofs.SameHooks
import TreeCodec.Proofs.Correspondence
import TreeCodec.Proofs.FieldCaches
import TreeCodec.Proofs.History
import TreeCodec.Proofs.Wrappers
import TreeCodec.Proofs.Written
import TreeCodec.Proofs.SharedLimit
import TreeCodec.Proofs.TreeHeight
import TreeCodec.Proofs.ObjectRoots
import TreeCodec.Proofs.WrittenFields
import TreeCodec.Proofs.OmittedFields
import TreeCodec.Proofs.NullKeys
import TreeCodec.Proofs.Integers
import TreeCodec.Proofs.ReportOrder
import TreeCodec.Proofs.OmittedWrappers
import TreeCodec.Proofs.ByteStrings
import TreeCodec.Proofs.EmptyObjects
import TreeCodec.Proofs.ReportedPaths
import TreeCodec.Proofs.EncodingErrors
import TreeCodec.Proofs.Rounding
import TreeCodec.Proofs.Origins
import TreeCodec.Proofs.Narrowing
import TreeCodec.Proofs.Balance
