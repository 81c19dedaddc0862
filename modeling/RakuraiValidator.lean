import RakuraiValidator.VoteAccountAdmission
import RakuraiValidator.BamResults
import RakuraiValidator.UnifiedSchedulerSerializability
import RakuraiValidator.UnifiedSchedulerQuiescence
import RakuraiValidator.VotorAssertions
import RakuraiValidator.VotePoolProduction
import RakuraiValidator.BlsCertVerify
import RakuraiValidator.ConsensusPoolOrder
import RakuraiValidator.SigverifyVoteOrder
import RakuraiValidator.VotorAgreement
import RakuraiValidator.VoteStateRollback
import RakuraiValidator.VoteStateIncremental
import RakuraiValidator.TowerLockoutSafety
import RakuraiValidator.SwitchForkThreshold
import RakuraiValidator.AccountLocksExact
import RakuraiValidator.CostTrackerRuns
import RakuraiValidator.RewardConfigLimits
import RakuraiValidator.RewardTreeClaims
import RakuraiValidator.EpochCreditHistories
import RakuraiValidator.MigrationRewards
import RakuraiValidator.StatusCacheExact
import RakuraiValidator.DuplicateSignalOrder
import RakuraiValidator.CommissionAccumulation
import RakuraiValidator.BlockIdBinding
import RakuraiValidator.CpiPrivileges
import RakuraiValidator.AccountAccounting
import RakuraiValidator.AncientNextFit
