import MixedSignal.Decimal.Rounded
import MixedSignal.Collection.Arena
import MixedSignal.Proofs.Components
import MixedSignal.Proofs.Composition
import MixedSignal.Proofs.DifferenceEquation
import MixedSignal.Proofs.GeneratedNames
import MixedSignal.Proofs.NormalBounds
import MixedSignal.Proofs.Magnitude
import MixedSignal.Proofs.SingleDriver
import MixedSignal.Proofs.Multipliers
import MixedSignal.Proofs.Linearity
import MixedSignal.Proofs.CaseTables
import MixedSignal.Proofs.Shapes
import MixedSignal.Proofs.IntegerCode
import MixedSignal.Proofs.OperatorTrees
import MixedSignal.Proofs.PartSelects
import MixedSignal.Proofs.Reproducibility
import MixedSignal.Proofs.Realization
import MixedSignal.Proofs.Words
import MixedSignal.Proofs.TableLookups
import MixedSignal.Proofs.ReadSignals
