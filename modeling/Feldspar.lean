import Feldspar.Lib.Dfs
import Feldspar.Lib.Loop
import Feldspar.Lib.OrdMap
import Feldspar.Quantity
import Feldspar.Lib.Pareto
import Feldspar.Propagation
import Feldspar.Search
import Feldspar.Derivation
import Feldspar.SearchInvariant
import Feldspar.SearchOptimal
import Feldspar.SearchTermination
import Feldspar.SearchOrder
import Feldspar.SearchArena
import Feldspar.Replay
import Feldspar.OneSided
import Feldspar.Lib.Fallible
import Feldspar.Solver
import Feldspar.Step
import Feldspar.Digest
import Feldspar.Execute
import Feldspar.Walk
import Feldspar.ExecuteSound
import Feldspar.PlanRoute
import Feldspar.DomainSafety
import Feldspar.StepTransparency
import Feldspar.Lib.Retry
import Feldspar.Lib.Pool
import Feldspar.Parallel
import Feldspar.Solve
import Feldspar.Reroute
import Feldspar.Totality
import Feldspar.SolveTransparency
import Feldspar.Law
import Feldspar.Differentiate
import Feldspar.DerivativeSound
import Feldspar.Lib.Flow
import Feldspar.Flownet
import Feldspar.FlownetContinuity
import Feldspar.Lib.Bfs
import Feldspar.Lib.CardText
import Feldspar.FlownetRecords
import Feldspar.FlownetTotality
import Feldspar.Lib.Rooted
import Feldspar.FlownetRooting
import Feldspar.FlownetListing
import Feldspar.FlownetPaths
import Feldspar.Harness
import Feldspar.FlowImbalance
import Feldspar.Lib.Gauss
import Feldspar.Frame
import Feldspar.FrameEquilibrium
import Feldspar.FramePayload
import Feldspar.LoadConservation
import Feldspar.Lib.Corner
import Feldspar.CornerEnclosure
import Feldspar.Lib.Interp
import Feldspar.Tables
import Feldspar.TablesSound
import Feldspar.ChargedEps
import Feldspar.Packs
import Feldspar.PackIsolation
import Feldspar.PackIndependence
import Feldspar.Calibration
import Feldspar.Lib.Json
import Feldspar.Codec
import Feldspar.Report
import Feldspar.CodecRoundTrip
import Feldspar.CacheFiles
import Feldspar.Catalog
import Feldspar.CatalogMonotone
import Feldspar.PhaseEquilibria
import Feldspar.WeldGroups
import Feldspar.AxialCapacity
import Feldspar.MilesSpectrum
import Feldspar.CatalogEnclosure
import Feldspar.CostCurve
import Feldspar.PeelPath
import Feldspar.PredicateBox
import Feldspar.BoundablePredicate
import Feldspar.InvertComplete
import Feldspar.LawTargets
import Feldspar.PackNamespaces
import Feldspar.CoupledGroup
import Feldspar.Ladder
import Feldspar.LadderTruth
import Feldspar.FeaResults
import Feldspar.Lib.SymmetricEigenvalues
import Feldspar.PrincipalStresses
import Feldspar.StressRange
import Feldspar.FeaClosed
import Feldspar.MarginSeeking
import Feldspar.MinerDamage
import Feldspar.Lib.AffineStep
import Feldspar.DutyCycle
import Feldspar.CornerOrder
import Feldspar.DenseSolve
import Feldspar.DigestForm
import Feldspar.CycleBasis
import Feldspar.TributaryLoads
import Feldspar.PlanGrowth
import Feldspar.FlownetHeads
import Feldspar.FlownetUnique
import Feldspar.Lib.Settle
import Feldspar.PipeFriction
import Feldspar.Calibrate
import Feldspar.CeilingCoverage
import Feldspar.Lib.DeltaMethod
import Feldspar.DeltaPropagation
import Feldspar.CatalogOrder
import Feldspar.FeaDeck
import Feldspar.FeaModel
import Feldspar.Lib.Arith
import Feldspar.StressRange
