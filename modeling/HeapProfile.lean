import HeapProfile.BottomUp
import HeapProfile.Main
import HeapProfile.Host.Memory
import HeapProfile.Report.Text
import HeapProfile.Recording
import HeapProfile.Text.Blank
import HeapProfile.Proofs.Extent
import HeapProfile.Json.Printer
import HeapProfile.Text.Symbol
import HeapProfile.Summary
import HeapProfile.Decimal.Fixed
import HeapProfile.Decimal.Shortest
import HeapProfile.Chart.Series
import HeapProfile.TopDown
import HeapProfile.Tree.Flat
import HeapProfile.Proofs.Forest
import HeapProfile.Proofs.Growth
import HeapProfile.Proofs.Saturation
import HeapProfile.Proofs.Linking
import HeapProfile.Proofs.Trie
import HeapProfile.Proofs.MergedTrie
import HeapProfile.Proofs.Inversion
import HeapProfile.Proofs.Accounting
import HeapProfile.Proofs.Running
import HeapProfile.Proofs.Conservation
import HeapProfile.Proofs.Sessions
import HeapProfile.Proofs.Calls
import HeapProfile.Proofs.Peaks
import HeapProfile.Proofs.Labels
import HeapProfile.Proofs.Numbering
import HeapProfile.Proofs.Naming
import HeapProfile.Proofs.Intervals
import HeapProfile.Proofs.Interleaving
import HeapProfile.Proofs.OrderIndependence
import HeapProfile.Proofs.Agreement
import HeapProfile.Proofs.Timeline
import HeapProfile.Proofs.Stops
import HeapProfile.Proofs.RoundTrip
import HeapProfile.Proofs.EndlessWalks
import HeapProfile.Proofs.Handover
import HeapProfile.Proofs.Unfolding
import HeapProfile.Proofs.Reports
import HeapProfile.Proofs.Involution
import HeapProfile.Proofs.Weights
import HeapProfile.Proofs.Leaders
import HeapProfile.Proofs.Shares
import HeapProfile.Proofs.Truncation
import HeapProfile.Proofs.Cancellation
import HeapProfile.Proofs.Caching
import HeapProfile.Proofs.LabelMaps
import HeapProfile.Proofs.Lexemes
import HeapProfile.Proofs.Acceptance
import HeapProfile.Proofs.Telling
import HeapProfile.Proofs.Representations
import HeapProfile.Proofs.Traversals
import HeapProfile.Proofs.Carrying
