import PriorityQueues.Order
import PriorityQueues.Entry
import PriorityQueues.Error
import PriorityQueues.Pool
import PriorityQueues.Arena
import PriorityQueues.Dary.Listeners
import PriorityQueues.Dary.Basic
import PriorityQueues.Tree.Meldable
import PriorityQueues.Tree.Pairing
import PriorityQueues.Tree.PairingArena
import PriorityQueues.Tree.SkewArena
import PriorityQueues.Tree.LeftistArena
import PriorityQueues.Tree.Skew
import PriorityQueues.Tree.Leftist
import PriorityQueues.Tree.Heap
import PriorityQueues.Tracked.Ids
import PriorityQueues.Tracked.Heap
import PriorityQueues.Radix
import PriorityQueues.Script.Json
import PriorityQueues.Script.Json.Read
import PriorityQueues.Script.Json.Write
import PriorityQueues.Script.Numeral
import PriorityQueues.Script.Quote
import PriorityQueues.Script.Setup
import PriorityQueues.Script.Session
import PriorityQueues.Script.Dary
import PriorityQueues.Script.Trees
import PriorityQueues.Script.Radix
import PriorityQueues.Script.Answer
import PriorityQueues.Proofs.SkewMeld
import PriorityQueues.Proofs.Order
import PriorityQueues.Proofs.Engine
import PriorityQueues.Proofs.Heaps
import PriorityQueues.Proofs.Leftist
import PriorityQueues.Proofs.LeftistRank
import PriorityQueues.Proofs.Pairing
import PriorityQueues.Proofs.Skew
import PriorityQueues.Proofs.Refinement
import PriorityQueues.Proofs.FreshIds
import PriorityQueues.Proofs.Queue
import PriorityQueues.Proofs.TreeQueue
import PriorityQueues.Proofs.Dary
import PriorityQueues.Proofs.DaryIndices
import PriorityQueues.Proofs.DaryBuild
import PriorityQueues.Proofs.DaryRepair
import PriorityQueues.Proofs.DaryExchange
import PriorityQueues.Proofs.Registry
import PriorityQueues.Proofs.DaryTracking
import PriorityQueues.Proofs.Radix
import PriorityQueues.Proofs.RadixQueue
import PriorityQueues.Proofs.RadixProgress
import PriorityQueues.Proofs.SessionSlots
import PriorityQueues.Proofs.Agreement
import PriorityQueues.Proofs.Refusals
import PriorityQueues.Proofs.Failures
import PriorityQueues.Proofs.MergeFrom
import PriorityQueues.Proofs.Copies
import PriorityQueues.Proofs.Shells
import PriorityQueues.Proofs.ArenaSlots
import PriorityQueues.Proofs.PairingArena
import PriorityQueues.Proofs.PairingLinks
import PriorityQueues.Proofs.PairingReach
import PriorityQueues.Proofs.SkewLinks
import PriorityQueues.Proofs.SkewReach
import PriorityQueues.Proofs.LeftistLinks
import PriorityQueues.Proofs.LeftistReach
