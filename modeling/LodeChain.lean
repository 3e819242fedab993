import LodeChain.Base58
import LodeChain.PeerlistRuns
import LodeChain.CheckpointedBranches
import LodeChain.Dandelion
import LodeChain.Difficulty
import LodeChain.OutputDistribution
import LodeChain.MoneyText
import LodeChain.PortableStorage
import LodeChain.ExtraFields
import LodeChain.AcceptedBlock
import LodeChain.FeeEstimates
import LodeChain.MissingObjects
import LodeChain.KexRounds
import LodeChain.KeyImageRuns
import LodeChain.LevinFragments
import LodeChain.MergeMining
import LodeChain.TemplateValidity
import LodeChain.NeededObjects
import LodeChain.PaymentCredits
import LodeChain.Transaction
import LodeChain.PoolPolling
import LodeChain.PoolRuns
import LodeChain.ScheduledForks
import LodeChain.PrunedHeights
import LodeChain.RctVerification
import LodeChain.ExpectedDifficulty
import LodeChain.BlockQueue
import LodeChain.RingScans
import LodeChain.RollingWindow
import LodeChain.SeedHashes
import LodeChain.StoredCounts
import LodeChain.SwitchRollback
import LodeChain.TemplateChoices
import LodeChain.AlternativeChain
import LodeChain.TxExtra
import LodeChain.ThreadPool
