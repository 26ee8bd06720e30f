import Saurus.Basis.Outcome
import Saurus.Basis.SparseArray
import Saurus.Basis.KeyedList
import Saurus.Map.Node
import Saurus.Map.Refine
import Saurus.Map.Set
import Saurus.Map.Shape
import Saurus.Map.Without
import Saurus.Map.Depth
import Saurus.Value
import Saurus.Basis.RadixTree
import Saurus.Basis.Regions
import Saurus.Vec.Node
import Saurus.Vec.Refine
import Saurus.Basis.Codec
import Saurus.Basis.Copy
import Saurus.Basis.Counted
import Saurus.Basis.Machine
import Saurus.Basis.Marking
import Saurus.Basis.Slice
import Saurus.Basis.StackCode
import Saurus.Format.Operands
import Saurus.Gc.Heap
import Saurus.Gc.Mark
import Saurus.Gc.Safety
import Saurus.Gen.Compile
import Saurus.Gen.Heights
import Saurus.Intern
import Saurus.Vm.Entry
import Saurus.Vm.Refine
import Saurus.Gen.Discipline
import Saurus.Basis.Chain
import Saurus.Basis.Decode
import Saurus.Format.Accept
import Saurus.Format.Buffer
import Saurus.Gc.Exact
import Saurus.Vm.Args
import Saurus.Vm.Load
import Saurus.Vm.Recover
import Saurus.Stored
import Saurus.Vm.Uniform
import Saurus.Gc.Code
import Saurus.Gen.Literals
import Saurus.Read.Forms
import Saurus.Read.Taken
import Saurus.Read.Whole
import Saurus.Read.Accept
import Saurus.Read.Written
import Saurus.Read.Ends
import Saurus.Macro.Build
import Saurus.Macro.Expand
import Saurus.Macro.RoundTrip
import Saurus.Macro.Template
import Saurus.Macro.Unquote
import Saurus.Macro.Scope
import Saurus.Basis.Blocks
import Saurus.Gc.Close
import Saurus.Gc.Depth
import Saurus.Gc.Ownership
import Saurus.Hash
import Saurus.Lib.Map
import Saurus.Lib.MapLaws
import Saurus.Lib.Vector
import Saurus.Lib.VectorLaws
import Saurus.Seq
import Saurus.Lib.Print
import Saurus.Vec.Canonical
import Saurus.Vm.SuCall
import Saurus.Vm.Truth
import Saurus.Vm.Tail
import Saurus.Vm.Frames
import Saurus.Gen.Effects
import Saurus.Gen.Session
import Saurus.Gen.Branches
import Saurus.Lib.PrintLaws
import Saurus.Basis.Follows
import Saurus.Map.Fresh
import Saurus.Lang.Eval
import Saurus.Lang.Values
import Saurus.Lang.Globals
import Saurus.Lang.Layout
import Saurus.Lang.Closures
import Saurus.Lang.Turns
import Saurus.Lang.Pieces
import Saurus.Lang.Emit
import Saurus.Lang.Calls
import Saurus.Lang.Simulate
import Saurus.Lang.Program
import Saurus.Basis.Below
import Saurus.Lang.Agree
import Saurus.Lang.WellMade
import Saurus.Lang.InRange
import Saurus.Basis.Results
import Saurus.Read.Lines
import Saurus.Lang.Lines
import Saurus.Lang.Expansion
import Saurus.Lang.Macros
