import FieldScript.Main
import FieldScript.Proofs.IsolineEnds
import FieldScript.Proofs.ProgramValidity
import FieldScript.Proofs.SourceFaults
import FieldScript.Proofs.DefinitionCalls
import FieldScript.Proofs.ShortestPaths
import FieldScript.Proofs.SessionState
import FieldScript.Proofs.CallHistories
import FieldScript.Proofs.ParticleBounds
import FieldScript.Proofs.DefinitionLayers
import FieldScript.Proofs.StatementStarts
import FieldScript.Proofs.CanonicalLines
import FieldScript.Proofs.SurfaceInlining
import FieldScript.Proofs.InsertedLines
import FieldScript.Proofs.StatementOrder
import FieldScript.Proofs.GradientHistory
import FieldScript.Proofs.SafePotential
import FieldScript.Proofs.CopyIsolation
import FieldScript.Proofs.FrameIndependence
import FieldScript.Proofs.FreeMotion
import FieldScript.Proofs.SurfaceWays
import FieldScript.Proofs.BodyGrammar
import FieldScript.Proofs.ComponentTexts
import FieldScript.Proofs.SourceRuns
import FieldScript.Proofs.MeshDistances
import FieldScript.Proofs.DefinitionCycles
import FieldScript.Proofs.NumericOperands
import FieldScript.Proofs.LatticeCrossings
import FieldScript.Proofs.GeodesicLengths
import FieldScript.Proofs.StitchedSegments
import FieldScript.Proofs.StreamlinePieces
import FieldScript.Proofs.TrailHistory
import FieldScript.Proofs.DensityCounts
import FieldScript.Proofs.UndefinedReferences
import FieldScript.Proofs.InputPlaces
import FieldScript.Proofs.KeywordValues
import FieldScript.Proofs.LabelFallbacks
import FieldScript.Proofs.LabelTotals
import FieldScript.Proofs.SafeGrids
import FieldScript.Proofs.PlotSamples
import FieldScript.Proofs.ArrowFlows
import FieldScript.Proofs.FrameSeries
import FieldScript.Proofs.FluxHistory
import FieldScript.Proofs.SeedPlaces
import FieldScript.Proofs.TopLevelGroups
import FieldScript.Proofs.JoinedTokens
import FieldScript.Proofs.Curvature
