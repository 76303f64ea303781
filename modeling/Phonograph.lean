import Phonograph.Lib.Levels
import Phonograph.Lib.Script
import Phonograph.Server.Redis
import Phonograph.Server.Python
import Phonograph.Server.Database
import Phonograph.Server.Paths
import Phonograph.Server.PathLevels
import Phonograph.Server.Engines
import Phonograph.Server.Igrapher
import Phonograph.Server.Routes
import Phonograph.Server.Footprints
import Phonograph.Server.Isolation
import Phonograph.Server.History
import Phonograph.Server.Races
import Phonograph.Redis.Runs
import Phonograph.Redis.Keyspace
import Phonograph.Server.Links
import Phonograph.Server.Neighbourhood
import Phonograph.Server.Origins
import Phonograph.Server.Search
import Phonograph.Server.CustomSkeleton
import Phonograph.Server.SentGraph
import Phonograph.Server.TermSubgraph
import Phonograph.Server.PopularitySplit
import Phonograph.Server.ZoomEnds
import Phonograph.Server.ZoomResult
import Phonograph.Client.PathEnds
import Phonograph.Client.View
import Phonograph.Client.ClickLock
import Phonograph.Client.Rotation
import Phonograph.Client.RequestUrl
import Phonograph.Client.SearchField
import Phonograph.Client.PlaylistCue
import Phonograph.Client.TrackRoundTrip
import Phonograph.Client.TrackDecoders
import Phonograph.Client.NodeLabels
import Phonograph.Client.Lookups
import Phonograph.Client.PlaylistCursor
import Phonograph.Client.PlaylistTable
import Phonograph.Client.PlaylistPlay
import Phonograph.Client.PlaylistRows
import Phonograph.Client.LookupChain
import Phonograph.Client.YoutubeQuery
import Phonograph.Client.FailedRequests
