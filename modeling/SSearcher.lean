import SSearcher.Runs
import SSearcher.Matching
import SSearcher.Leftmost
import SSearcher.Memory
import SSearcher.Words
import SSearcher.Rings
import SSearcher.Links
import SSearcher.Ranking
import SSearcher.Simulation
import SSearcher.Machine
import SSearcher.Trie
import SSearcher.TrieSpec
import SSearcher.TrieShape
import SSearcher.Magic
import SSearcher.Match
import SSearcher.MatchSpec
import SSearcher.Tables
import SSearcher.Search
import SSearcher.Failure
import SSearcher.Buffer
import SSearcher.BufferSpec
import SSearcher.Calls
import SSearcher.Growth
import SSearcher.Amend
import SSearcher.Highlight
import SSearcher.Worker
import SSearcher.WorkerSpec
import SSearcher.Scan
import SSearcher.Positions
import SSearcher.Records
import SSearcher.Contents
import SSearcher.Grep
import SSearcher.Effort
import SSearcher.Bounds
import SSearcher.Behind
import SSearcher.Contained
import SSearcher.Custody
import SSearcher.System
import SSearcher.Handover
import SSearcher.Blocks
import SSearcher.Tidy
import SSearcher.Output
import SSearcher.Selection
import SSearcher.Ending
import SSearcher.Descriptors
import SSearcher.Order
import SSearcher.Listing
import SSearcher.Lines
import SSearcher.Walk
import SSearcher.Printing
import SSearcher.Terminal
import SSearcher.Races
import SSearcher.Reading
import SSearcher.Options
import SSearcher.Rope
import SSearcher.RopeSpec
import SSearcher.RopeWalk
import SSearcher.RopeList
import SSearcher.Buffers
import SSearcher.Nodes
import SSearcher.NodesSpec
import SSearcher.NodesLife
import SSearcher.MagicHeap
import SSearcher.MagicDefs
