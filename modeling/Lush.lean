import Lush.Binary.RoundTrip
import Lush.Binary.Consistency
import Lush.Memory.Collection
import Lush.Memory.Finalizers
import Lush.Table.FiniteMap
import Lush.Text.StringRoundTrip
import Lush.Text.ListRoundTrip
import Lush.Event.Deaths
import Lush.Oostruct.Dispatch
import Lush.Datatable.Dictionary
import Lush.Datatable.IntColumn
import Lush.Datatable.SortedColumns
import Lush.Arrays.Bounds
import Lush.Arrays.MatrixRoundTrip
import Lush.Arrays.EasyIndex
import Lush.LispArrays.Survival
import Lush.Tables.AsofJoin
import Lush.Tables.EquiJoin
import Lush.Tables.Groups
import Lush.Sized.Rectangular
import Lush.Columnar.Database
import Lush.Text.Quoted
import Lush.Mapper.DensityLabels
import Lush.Mapper.Graph
import Lush.Wire.Reader
import Lush.Wire.Call
import Lush.Wire.Pool
import Lush.Wire.Isolation
import Lush.Wire.Survival
import Lush.Zmq.Boundaries
import Lush.Json.RoundTrip
import Lush.Json.L2Update
import Lush.Json.MsgType
import Lush.Json.Grammar
import Lush.Httpd.JsonFaithful
import Lush.Httpd.FormDecoding
import Lush.Image.RleRoundTrip
import Lush.Httpd.Serving
import Lush.Graph.Optimal
import Lush.Graph.CleanGrammar
import Lush.Lists
import Lush.Event.Timers
import Lush.Binary.Sweep
import Lush.Table.Compare
import Lush.Regex.Layout
import Lush.Modules.History
import Lush.Conformal.Retraining
import Lush.Text.NumberSyntax
import Lush.Text.Deletion
import Lush.Arrays.ElementLoops
import Lush.Unodes
import Lush.Dates.Parsing
import Lush.Dates.Calendar
import Lush.Dates.Arithmetic
import Lush.Arrays.InPlace
import Lush.Oostruct.Slots
import Lush.Tables.Like
import Lush.Csv.Decoding
import Lush.Csv.Encoding
import Lush.Csv.Interning
import Lush.Csv.ReadAll
import Lush.Csv.StampField
import Lush.Conformal.VennAbers
import Lush.Conformal.Mondrian
import Lush.Conformal.Anomaly
import Lush.Conformal.Reflection
import Lush.Conformal.PredDist
import Lush.Mapper.KolmogorovSmirnov
import Lush.Mapper.MannWhitney
import Lush.Mapper.BenjaminiHochberg
import Lush.Folds.Random
import Lush.Folds.Stratified
import Lush.Matrices.Csr
import Lush.Matrices.Dense
import Lush.Matrices.Transpose
import Lush.Dates.Timestamps
import Lush.Dz
import Lush.Wavelets
import Lush.Library.Balanced
import Lush.Mirror.AvlTree
import Lush.Mirror.AvlMemory
import Lush.Mirror.AvlMap
import Lush.Mirror.AvlObjects
import Lush.Learning.CoordinateDescent
