import DynVal.World
import DynVal.Proofs.Sorting.Short
import DynVal.Proofs.Store.Associations
import DynVal.Proofs.Lists.Growth
import DynVal.Proofs.Lists.Windows
import DynVal.Proofs.Store.Order
import DynVal.Proofs.Store.References
import DynVal.Proofs.Wire.Grammar
import DynVal.Proofs.Wire.Canonical
import DynVal.Proofs.Store.Encoding
import DynVal.Proofs.Numbers.Rounding
import DynVal.Proofs.Numbers.Shortest
import DynVal.Proofs.Numbers.Text
import DynVal.Proofs.Store.RoundTrip
import DynVal.Proofs.Store.Copies
import DynVal.Proofs.Order.Bytes
import DynVal.Proofs.Values.Fields
import DynVal.Proofs.Dispatch.Natives
import DynVal.Proofs.Dispatch.Checks
import DynVal.Proofs.Store.Filling
import DynVal.Proofs.Scripts.Watching
import DynVal.Proofs.Wire.Modes
import DynVal.Proofs.Store.Layout
import DynVal.Proofs.Store.Reencoding
import DynVal.Proofs.Store.Stability
import DynVal.Proofs.Wire.Reading
import DynVal.Proofs.Store.Merging
import DynVal.Proofs.Store.Endings
import DynVal.Proofs.Store.Algebra
import DynVal.Proofs.Store.Enumerating
import DynVal.Proofs.Store.Conversions
import DynVal.Proofs.Store.Shapes
import DynVal.Proofs.Scripts.Registration
import DynVal.Proofs.Store.Alignment
