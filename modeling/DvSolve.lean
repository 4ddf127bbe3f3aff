import DvSolve.Aig
import DvSolve.AigSem
import DvSolve.AigBuild
import DvSolve.AigShared
import DvSolve.AigCnf
import DvSolve.AigCnfSem
import DvSolve.Bitblast
import DvSolve.Bits
import DvSolve.BitblastSem
import DvSolve.BitblastDiv
import DvSolve.BitblastShift
import DvSolve.OpenTable
import DvSolve.Bbsum
import DvSolve.BbsumSem
import DvSolve.Bbword
import DvSolve.Gf2
import DvSolve.BbwordSem
import DvSolve.Affine
import DvSolve.AffineTable
import DvSolve.AffineForm
import DvSolve.AffineSem
import DvSolve.AffineJordan
import DvSolve.Context
import DvSolve.Queue
import DvSolve.Trail
import DvSolve.TrailSem
import DvSolve.ClauseDb
import DvSolve.Propagate
import DvSolve.ClauseNotify
import DvSolve.PropagateSem
import DvSolve.PropagateSteps
import DvSolve.QueueRun
import DvSolve.Lcg
import DvSolve.LcgSem
import DvSolve.LcgRun
import DvSolve.Checkpoint
import DvSolve.CheckpointSem
import DvSolve.Restore
import DvSolve.Aigsim
import DvSolve.SetBits
import DvSolve.AigsimSem
import DvSolve.AigsimSweep
import DvSolve.AigsimModel
import DvSolve.TwosComp
import DvSolve.SvExpr
import DvSolve.Validate
import DvSolve.SvSem
import DvSolve.SvElab
import DvSolve.ValidateSem
import DvSolve.SvMeets
import DvSolve.SvConvert
import DvSolve.SvCompare
import DvSolve.SvElabSem
import DvSolve.BitRuns
import DvSolve.SvMask
import DvSolve.SvMaskSrc
import DvSolve.SvMaskSem
import DvSolve.SvMaskRoot
import DvSolve.SvMaskBool
import DvSolve.Sat
import DvSolve.Selectors
import DvSolve.SatSem
import DvSolve.SatRun
import DvSolve.Cube
import DvSolve.CubeSem
import DvSolve.CubeRun
import DvSolve.NodePool
import DvSolve.Fields
import DvSolve.FieldsSem
import DvSolve.FieldsBuild
import DvSolve.FieldsWord
import DvSolve.FieldsSplit
import DvSolve.Dist
import DvSolve.DistSearch
import DvSolve.DistSem
import DvSolve.DistRun
import DvSolve.Deposit
import DvSolve.FireSem
import DvSolve.PropBits
import DvSolve.PropShift
import DvSolve.PropShl
import DvSolve.Diffcycle
import DvSolve.DiffcycleSem
import DvSolve.BitField
import DvSolve.PropSlice
import DvSolve.TruncDiv
import DvSolve.PropDiv
import DvSolve.PropDivSem
import DvSolve.PropModSem
import DvSolve.PropReif
import DvSolve.PropReifSem
import DvSolve.PropReifSmall
import DvSolve.PropIte
import DvSolve.PropMember
import DvSolve.PropAdd
import DvSolve.TrailRoom
import DvSolve.CompileCmp
import DvSolve.ClauseNotifySem
import DvSolve.CompileGate
import DvSolve.CompileGateSem
import DvSolve.CompileGateExact
import DvSolve.FlattenOr
import DvSolve.Binop
import DvSolve.Minimize
import DvSolve.Contradiction
import DvSolve.ContradictionSem
import DvSolve.Relax
import DvSolve.RelaxSem
import DvSolve.KeySet
import DvSolve.AddNames
import DvSolve.AddNamesSem
import DvSolve.WideInt
import DvSolve.Numth
import DvSolve.NumthSquare
import DvSolve.MulCount
import DvSolve.MulCountSem
import DvSolve.PropagateReach
import DvSolve.WatchChain
import DvSolve.BvDomain
import DvSolve.PickValue
import DvSolve.PickHoles
import DvSolve.PickDist
import DvSolve.PickValueSem
import DvSolve.CubeRecord
import DvSolve.Pinfast
import DvSolve.AssertsLostSem
import DvSolve.MaxsatRelax
import DvSolve.PropMinMaxTypes
import DvSolve.BuilderOffsets
import DvSolve.BuilderRun
import DvSolve.OracleRun
import DvSolve.OptimizeRun
import DvSolve.SearchExact
import DvSolve.DistFair
