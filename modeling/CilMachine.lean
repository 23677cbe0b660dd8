import CilMachine.Catalog.Corelib
import CilMachine.Catalog.Hierarchy
import CilMachine.Inspect
import CilMachine.Instruction.Assembler
import CilMachine.Native.Stock
import CilMachine.Host
import CilMachine.Proofs.Accounting
import CilMachine.Proofs.Activation
import CilMachine.Proofs.Ancestry
import CilMachine.Proofs.Announcements
import CilMachine.Proofs.ArrayLengths
import CilMachine.Proofs.Assembly
import CilMachine.Proofs.CallTargets
import CilMachine.Proofs.Comparisons
import CilMachine.Proofs.Concatenation
import CilMachine.Proofs.Confinement
import CilMachine.Proofs.Construction
import CilMachine.Proofs.Consumption
import CilMachine.Proofs.Conversions
import CilMachine.Proofs.Decoding
import CilMachine.Proofs.ElementTypes
import CilMachine.Proofs.Elements
import CilMachine.Proofs.FieldAccess
import CilMachine.Proofs.Headroom
import CilMachine.Proofs.IntegerArithmetic
import CilMachine.Proofs.Liveness
import CilMachine.Proofs.Location
import CilMachine.Proofs.Memoization
import CilMachine.Proofs.Offsets
import CilMachine.Proofs.Opacity
import CilMachine.Proofs.Persistence
import CilMachine.Proofs.Placement
import CilMachine.Proofs.Relocation
import CilMachine.Proofs.Restoration
import CilMachine.Proofs.ShortestForms
import CilMachine.Proofs.Slots
import CilMachine.Proofs.StackOperations
import CilMachine.Proofs.StringConstruction
import CilMachine.Proofs.Termination
import CilMachine.Proofs.Texts
import CilMachine.Proofs.Trace
import CilMachine.Proofs.Tracing
import CilMachine.Proofs.Warnings
import CilMachine.Value.Arithmetic
import CilMachine.Value.Conversion
