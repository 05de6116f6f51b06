import HttpRouting.Dictionary.Lemmas
import HttpRouting.Application
import HttpRouting.Application.Run
import HttpRouting.Scripted.Middleware
import HttpRouting.Scripted.Transport
import HttpRouting.Proofs.Lines
import HttpRouting.Proofs.Absorption
import HttpRouting.Proofs.Revision
import HttpRouting.Proofs.Tables
import HttpRouting.Proofs.Routers
import HttpRouting.Proofs.Histories
import HttpRouting.Proofs.Recomposition
import HttpRouting.Proofs.Shapes
import HttpRouting.Proofs.Templates
import HttpRouting.Proofs.TrieSearch
import HttpRouting.Proofs.Mounting
import HttpRouting.Proofs.Matching
import HttpRouting.Proofs.Chains
import HttpRouting.Proofs.Passage
import HttpRouting.Proofs.Precedence
import HttpRouting.Proofs.Resolution
import HttpRouting.Proofs.Relabelling
import HttpRouting.Proofs.Startup
import HttpRouting.Proofs.Scanning
import HttpRouting.Proofs.PathParts
import HttpRouting.Proofs.ParamText
import HttpRouting.Proofs.UrlText
import HttpRouting.Proofs.UrlTemplates
import HttpRouting.Proofs.QueryText
import HttpRouting.Proofs.QueryTemplates
import HttpRouting.Proofs.Flattening
import HttpRouting.Proofs.LiteralRoutes
import HttpRouting.Proofs.Linkage
import HttpRouting.Proofs.Wrapping
import HttpRouting.Proofs.Shutdown
import HttpRouting.Proofs.TypeParts
import HttpRouting.Proofs.WellFormed
import HttpRouting.Proofs.Wirings
import HttpRouting.Proofs.LogGrowth
import HttpRouting.Proofs.Reachability
import HttpRouting.Proofs.Composition
import HttpRouting.Proofs.Breakdowns
import HttpRouting.Proofs.HandlerSets
import HttpRouting.Proofs.Reports
import HttpRouting.Proofs.Numerals
import HttpRouting.Proofs.QueryReadings
import HttpRouting.Proofs.CommaLists
import HttpRouting.Proofs.QueryGrammar
import HttpRouting.Proofs.Enumerations
import HttpRouting.Proofs.Builds
import HttpRouting.Proofs.ErrorPlaces
import HttpRouting.Proofs.Handover
import HttpRouting.Proofs.Instances
import HttpRouting.Proofs.MethodNames
import HttpRouting.Proofs.Queueing
import HttpRouting.Proofs.GluedParams
import HttpRouting.Proofs.Spacing
import HttpRouting.Proofs.BraceGroups
import HttpRouting.Log.Session
import HttpRouting.Proofs.LogSessions
import HttpRouting.Proofs.SequentialLogs
