import Aggregation.Main
import Aggregation.Coalesce
import Aggregation.Pipeline.Typed
import Aggregation.Value.Builders
import Aggregation.Equality
import Aggregation.Proofs.Faults
import Aggregation.Proofs.Chain
import Aggregation.Proofs.Numbers
import Aggregation.Proofs.JsonTrees
import Aggregation.Proofs.NullFaults
import Aggregation.Proofs.Normalization
import Aggregation.Proofs.Documents
import Aggregation.Proofs.Payloads
import Aggregation.Proofs.Rebuild
import Aggregation.Proofs.FixedForms
import Aggregation.Proofs.WrittenPayloads
import Aggregation.Proofs.RebuildTwice
import Aggregation.Proofs.ReadNumbers
import Aggregation.Proofs.ReadValues
import Aggregation.Proofs.HostParts
import Aggregation.Proofs.ReadBack
import Aggregation.Proofs.KeptNames
import Aggregation.Proofs.NestedDocuments
import Aggregation.Proofs.Contexts
import Aggregation.Proofs.WireForms
import Aggregation.Proofs.DigitTexts
import Aggregation.Proofs.QuotedTexts
import Aggregation.Proofs.Layouts
import Aggregation.Proofs.ReadLayouts
import Aggregation.Proofs.TextDetour
import Aggregation.Proofs.ReadIntervals
import Aggregation.Proofs.ShortestDecimals
import Aggregation.Proofs.FloatTexts
import Aggregation.Proofs.RoundingErrors
import Aggregation.Proofs.ScaledDecimals
import Aggregation.Proofs.FloatDetour
import Aggregation.Proofs.ModelRuns
import Aggregation.Proofs.EqualRendering
import Aggregation.Proofs.DecimalValues
import Aggregation.Proofs.RoundingBudgets
import Aggregation.Proofs.DecimalFloats
import Aggregation.Proofs.EqualHosts
import Aggregation.Proofs.IntegerPaths
import Aggregation.Proofs.FloatSplit
import Aggregation.Proofs.DigitStrings
import Aggregation.Proofs.RepeatedNames
import Aggregation.Proofs.GroupIds
import Aggregation.Proofs.FieldLog
import Aggregation.Proofs.EarlyCoercion
import Aggregation.Proofs.Representation
import Aggregation.Proofs.CalendarDays
import Aggregation.Proofs.Timestamps
