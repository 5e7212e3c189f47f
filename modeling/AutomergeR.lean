import AutomergeR.ApplyOrder
import AutomergeR.BloomFilter
import AutomergeR.ChangesSince
import AutomergeR.HeldBack
import AutomergeR.StaleActors
import AutomergeR.Integers
import AutomergeR.ListCalls
import AutomergeR.ListKinds
import AutomergeR.MalformedMessages
import AutomergeR.MarkValues
import AutomergeR.Nesting
import AutomergeR.Paths
import AutomergeR.PutPath
import AutomergeR.RoundTrip
import AutomergeR.ScalarRoundTrip
import AutomergeR.TextSplice
import AutomergeR.LoggedCalls
import AutomergeR.MergedLog
import AutomergeR.SameReads
import AutomergeR.MarkRuns
import AutomergeR.ExportedChanges
